import ObjectModel.Proofs.Resolving
import ObjectModel.Proofs.ScopedSearch

/-!
# Reading a constant again

A constant that waits for a feature is looked up, then its feature is loaded, and what is given is
what the module that it is resolved in has afterwards: the one that declares it, or the one that it
is read from once that is gone.  The binding is not looked up again.  So the same read gives the
same a second time, without any further loading, as long as the loads leave the lookups to what they
loaded.

* `ConstantStart.holder?`, `ConstantStart.binding?`: what a lookup finds where nothing is being
  loaded;
* `World.Rests`, `Rests.again`: bindings that are read without running code;
* `Spot`, `Spot.Rests.settle`: where a binding is looked up, and what settling a constant does to
  it;
* `LoadReturns`, `SpotRead`, `exists_spotRead`: reading one binding;
* `walkValue`, `WalkReturns`, `walkValue_repeats`: reading along a path;
* `ConstantRead`, `ConstantRead.repeats`: the ways to read a constant, and when they give the same
  again;
* `rereads_otherwise`: a load that puts another binding in front of the one that it was run for.
-/

namespace ObjectModel

variable {σ : Type} {u v : Universe} {k m n : ModuleId} {name other : String} {c : Constant}
  {start : ConstantStart} {w w' : World σ} {require : String → Act σ Bool}

/-! ### Lookups -/

namespace ConstantStart

/-- The first module on the path of a lookup whose table binds a name. -/
def holder? (u : Universe) (name : String) (start : ConstantStart) : Option ModuleId :=
  (start.path u).find? (u.binds name)

/-- The first binding of a name on the path of a lookup. -/
def binding? (u : Universe) (name : String) (start : ConstantStart) : Option Constant :=
  (start.path u).findSome? (u.ownConstant · name)

theorem binding?_eq (u : Universe) (name : String) (start : ConstantStart) :
    start.binding? u name = (start.holder? u name).bind (u.ownConstant · name) := by
  unfold binding? holder?
  induction start.path u with
  | nil => rfl
  | cons k ms ih =>
    rw [List.findSome?_cons, List.find?_cons, Universe.binds]
    cases hk : u.ownConstant k name with
    | some c => simp [hk]
    | none => exact ih

/-- A path depends on chains and kinds. -/
theorem path_congr (h : ∀ k, Universe.SearchedAlike u v k)
    (hkind : ∀ k, (v.module k).kind = (u.module k).kind) (start : ConstantStart) :
    start.path v = start.path u := by
  have hpath (m : ModuleId) : v.constantPath m = u.constantPath m := by
    rw [Universe.constantPath_eq_walk, Universe.constantPath_eq_walk,
      Universe.walk_congr fun o _ => h o]
  have hopen (m : ModuleId) : v.openConstantPath m = u.openConstantPath m := by
    rw [Universe.openConstantPath, Universe.openConstantPath, hpath, Universe.toplevelPath,
      Universe.toplevelPath, (h _).chain, isClass_of_kind (hkind m)]
  cases start with
  | module m => exact hpath m
  | inheriting m inherit =>
    cases inherit with
    | true => exact hopen m
    | false => rfl
  | scope s => rw [path, path, Universe.lexicalConstantPath, Universe.lexicalConstantPath, hopen]

theorem binding?_of_reported (h : u.Reported v) (name : String) (start : ConstantStart) :
    start.binding? v name = start.binding? u name := by
  have hpath : start.path v = start.path u :=
    path_congr (fun k => .of_eq (h.module k)) (fun k => by rw [h.module]) start
  have hown : (v.ownConstant · name) = (u.ownConstant · name) :=
    funext fun k => h.ownConstant k name
  rw [binding?, hpath, hown, binding?]

/-- Settling a constant matters to the lookups that find it. -/
theorem binding?_settle (n : ModuleId) (name : String) (u : Universe) (other : String)
    (start : ConstantStart) :
    start.binding? (Universe.settleAutoload n name u).2 other =
      if start.holder? u other = some n ∧ name = other then
        (start.binding? u other).map Constant.settled
      else start.binding? u other := by
  have hsame := Universe.settledAlike_settleAutoload n name u
  have hpath := path_congr hsame.searched hsame.kind start
  have hbinds : (Universe.settleAutoload n name u).2.binds other = u.binds other := by
    funext k
    rw [Universe.binds, Universe.ownConstant_settleAutoload, Universe.binds]
    split
    · exact Option.isSome_map
    · rfl
  have hholder : start.holder? (Universe.settleAutoload n name u).2 other =
      start.holder? u other := by
    rw [holder?, hpath, hbinds, holder?]
  rw [binding?_eq, hholder, binding?_eq]
  cases hk : start.holder? u other with
  | none => simp
  | some k =>
    rw [Option.bind_some, Option.bind_some, Universe.ownConstant_settleAutoload]
    by_cases hn : n = k
    · simp [hn]
    · simp [hn, Ne.symm hn]

end ConstantStart

/-! ### Bindings at rest -/

/-- Reading a binding from `m` runs no code and gives this: nothing is loaded for it, or there is no
loader and nothing is loaded for the constant where it is resolved. -/
inductive World.Rests (w : World σ) (m : ModuleId) : Option Constant → Option Value → Prop
  | unbound : w.Rests m none none
  | bound {c : Constant} (hc : c.isAutoload = false) : w.Rests m (some c) c.value?
  | waiting {c : Constant} (hc : c.isAutoload = true) (hl : w.model.hasLoader = false)
    (hd : (w.model.ownConstant (w.holder m c) c.name).any Constant.isAutoload = false) :
    w.Rests m (some c) ((w.model.ownConstant (w.holder m c) c.name).bind Constant.value?)

namespace World.Rests

variable {c? : Option Constant} {y : Option Value} {r : ConstantResult}

theorem of_reported (h : w.Rests m c? y) (hr : w.Reported w') : w'.Rests m c? y := by
  cases h with
  | unbound => exact .unbound
  | bound hc => exact .bound hc
  | @waiting c hc hl hd =>
    rw [← hr.model.ownConstant, ← hr.holder]
    rw [← hr.model.ownConstant, ← hr.holder] at hd
    exact .waiting hc (hr.model.hasLoader.trans hl) hd

/-- A binding at rest is read without further ado, whatever the loader is. -/
theorem again (h : w.Rests m r.constant y) (hrest : w.model.AtRest)
    (require : String → Act σ Bool) :
    ∃ w', w.Reported w' ∧ Universe.resultValue require m r w = .ok y w' := by
  unfold Universe.resultValue
  generalize r.constant = c? at h
  cases h with
  | unbound => exact ⟨w, .refl w, rfl⟩
  | bound hc => exact Universe.constantValue_of_not_autoload require m hc w
  | @waiting c hc hl hd =>
    obtain ⟨w₁, hw₁, hvalue⟩ := Universe.constantValue_of_no_loader require m hrest hc hl
    have hown := hw₁.model.ownConstant (w.holder m c) c.name
    rw [← hown] at hd
    rw [(Universe.value_settleAutoload _ _ _).1, Universe.settleAutoload_of_not_autoload hd,
      hown] at hvalue
    exact ⟨w₁, hw₁, hvalue⟩

theorem of_value {x : Value} (h : c?.bind Constant.value? = some x) : w.Rests m c? (some x) := by
  obtain ⟨c, rfl, hx⟩ := Option.bind_eq_some_iff.1 h
  exact hx ▸ .bound (Constant.not_autoload_of_value hx)

theorem value_of_loader (h : w.Rests m c? y) (hl : w.model.hasLoader = true) :
    c?.bind Constant.value? = y := by
  cases h with
  | unbound | bound => rfl
  | waiting hc hno => exact absurd hl (by simp [hno])

end World.Rests

namespace Universe

variable {c? : Option Constant} {y : Option Value} {x : Value} {r : ConstantResult}

/-! ### One binding -/

/-- Where a binding is looked up: the module that it is read from, where the lookup starts, and the
name. -/
structure Spot where
  reader : ModuleId
  start : ConstantStart
  name : String

namespace Spot

/-- The binding at a spot. -/
def binding? (u : Universe) (s : Spot) : Option Constant := s.start.binding? u s.name

/-- The first module that binds the name. -/
def holder? (u : Universe) (s : Spot) : Option ModuleId := s.start.holder? u s.name

/-- Reading what is at a spot runs no code and gives this. -/
def Rests (s : Spot) (w : World σ) (y : Option Value) : Prop :=
  w.Rests s.reader (s.binding? w.model) y

variable {s : Spot}

/-- A binding is found in some table. -/
theorem exists_holder (h : s.binding? u = some c) :
    ∃ k, s.holder? u = some k ∧ u.ownConstant k s.name = some c := by
  rw [binding?, ConstantStart.binding?_eq] at h
  exact Option.bind_eq_some_iff.1 h

theorem binding?_of_reported (h : u.Reported v) (s : Spot) : s.binding? v = s.binding? u :=
  ConstantStart.binding?_of_reported h s.name s.start

theorem Rests.of_reported (h : s.Rests w y) (hr : w.Reported w') : s.Rests w' y := by
  rw [Rests, binding?_of_reported hr.model]
  exact World.Rests.of_reported h hr

/-- Settling a constant leaves the value at a spot, unless it takes the value of the constant itself
away. -/
theorem Rests.settle (h : s.Rests w (some x))
    (hmodel : w'.model = (settleAutoload n name w.model).2) (hgone : w'.gone = w.gone) :
    s.Rests w' (some x) ∨
      (w'.model.ownConstant n name).bind Constant.value? = none ∧ s.Rests w' none := by
  have hholder (c : Constant) : w'.holder s.reader c = w.holder s.reader c := by
    rw [World.holder, hgone, World.holder]
  have hloader : w'.model.hasLoader = w.model.hasLoader := by
    rw [hmodel, (settledAlike_settleAutoload n name w.model).hasLoader]
  have hown := ownConstant_settleAutoload n name w.model
  have hbinding := ConstantStart.binding?_settle n name w.model s.name s.start
  rw [← hmodel] at hown hbinding
  unfold Rests Spot.binding? at h ⊢
  generalize hfound : s.start.binding? w.model s.name = c?, hx : some x = y at h hbinding
  cases h with
  | unbound => cases hx
  | @bound c hc =>
    rw [show (some c).map Constant.settled = some c from Constant.map_settled hc, ite_self]
      at hbinding
    rw [hbinding]
    exact .inl (.bound hc)
  | @waiting c hc hl hd =>
    have hsame : w'.model.ownConstant (w.holder s.reader c) c.name =
        w.model.ownConstant (w.holder s.reader c) c.name := by
      rw [hown, Constant.map_settled hd, ite_self]
    split at hbinding
    · next hhere =>
      -- the constant that is settled is the one at the spot
      obtain ⟨hholder, rfl⟩ := hhere
      rw [ConstantStart.binding?_eq, hholder, Option.bind_some] at hfound
      rw [hown, if_pos ⟨rfl, rfl⟩, hfound, hbinding, Option.map_some]
      have hnone : c.settled.value? = none := Constant.value?_settled hc
      exact .inr ⟨hnone, hnone ▸ .bound c.isAutoload_settled⟩
    · rw [hbinding, ← hsame, ← hholder]
      rw [← hsame, ← hholder] at hd
      exact .inl (.waiting hc (hloader.trans hl) hd)

end Spot

/-- Loading the constant that is found at a spot, if it has to be loaded, succeeds, and leaves the
module that the constant was resolved in as the first one that binds the name, unless none does any
more.  The values found at the spots before stay. -/
def LoadReturns (require : String → Act σ Bool) (before : List Spot) (s : Spot) (w : World σ) :
    Prop :=
  ∀ c, s.binding? w.model = some c → w.model.Enters c →
    ∃ y w', constantValue require s.reader c w = .ok y w' ∧
      s.holder? w'.model = (if w'.model.binds s.name (w.holder s.reader c) then
        some (w.holder s.reader c) else none) ∧
      ∀ b ∈ before, (b.binding? w'.model).bind Constant.value? =
        (b.binding? w.model).bind Constant.value?

/-- What was read at the spots before is read there again, or now gives nothing, as does what was
read last. -/
def StaysAt (spots : List Spot) (y : Option Value) (w w' : World σ) : Prop :=
  ∀ s ∈ spots, ∀ x, s.Rests w (some x) → s.Rests w' (some x) ∨ y = none ∧ s.Rests w' none

theorem StaysAt.of_reported (spots : List Spot) (y : Option Value) (h : w.Reported w') :
    StaysAt spots y w w' :=
  fun _ _ _ hx => .inl (hx.of_reported h)

/-- What reading the binding at a spot comes to. -/
structure SpotRead (before : List Spot) (s : Spot) (w : World σ) (y : Option Value) (w' : World σ) :
    Prop where
  arises : Arises w'.model
  atRest : w'.model.AtRest
  thread : w'.thread = w.thread
  rests : s.Rests w' y
  stays : StaysAt before y w w'

variable {before : List Spot} {s : Spot}

/-- Nothing has to be loaded. -/
theorem Read.spot_of_bound (h : Read w n c y w') (hb : s.binding? w.model = some c)
    (hc : c.isAutoload = false) : SpotRead before s w y w' := by
  obtain ⟨rfl, hreported⟩ := h.bound hc
  have hrests : s.Rests w c.value? := by
    rw [Spot.Rests, hb]
    exact .bound hc
  exact ⟨h.arises, h.atRest, h.thread, hrests.of_reported hreported, .of_reported _ _ hreported⟩

/-- There is no loader. -/
theorem Read.spot_of_no_loader (h : Read w (w.holder s.reader c) c y w')
    (hb : s.binding? w.model = some c) (hc : c.isAutoload = true)
    (hl : w.model.hasLoader = false) : SpotRead before s w y w' := by
  obtain ⟨hy, hsettled⟩ := h.loaded hc
  obtain ⟨hgone, v, hv, hmodel⟩ := h.settled hc hl
  let told : World σ := { w with model := v }
  have htold : w.Reported told := ⟨rfl, rfl, rfl, hv⟩
  have hfound : s.binding? v = some c := (Spot.binding?_of_reported hv s).trans hb
  obtain ⟨k, hholder, hown⟩ := Spot.exists_holder hfound
  refine ⟨h.arises, h.atRest, h.thread, ?_, fun b _ x hx => ?_⟩
  · have hafter := ConstantStart.binding?_settle (w.holder s.reader c) c.name v s.name s.start
    rw [show s.start.binding? v s.name = some c from hfound, ← hmodel,
      show s.start.holder? v s.name = some k from hholder] at hafter
    rw [Spot.Rests, Spot.binding?, hafter]
    split
    · next hhere =>
      -- the binding itself was settled
      obtain ⟨hk, hname⟩ := hhere
      cases hk
      rw [hmodel, ownConstant_settleAutoload, if_pos ⟨rfl, rfl⟩, hname, hown] at hy
      rw [hy]
      exact .bound c.isAutoload_settled
    · have hplace : w'.holder s.reader c = w.holder s.reader c := by
        rw [World.holder, hgone, World.holder]
      rw [hy, ← hplace]
      refine .waiting hc ?_ (hplace ▸ hsettled)
      rw [hmodel, (settledAlike_settleAutoload _ _ v).hasLoader, hv.hasLoader, hl]
  · rw [hy]
    exact (hx.of_reported htold).settle hmodel hgone

/-- The constant is loaded. -/
theorem Read.spot_of_loaded (h : Read w (w.holder s.reader c) c y w') (hu : w.model.Sourced)
    (hb : s.binding? w.model = some c) (he : w.model.Enters c)
    (hholder : s.holder? w'.model = if w'.model.binds s.name (w.holder s.reader c) then
      some (w.holder s.reader c) else none)
    (hbefore : ∀ b ∈ before, (b.binding? w'.model).bind Constant.value? =
      (b.binding? w.model).bind Constant.value?) : SpotRead before s w y w' := by
  obtain ⟨hl, a, ha, -⟩ := he
  obtain ⟨k, -, hown⟩ := Spot.exists_holder hb
  obtain ⟨hy, hsettled⟩ := h.loaded (Option.isSome_iff_exists.2 ⟨a, ha⟩)
  rw [(hu k s.name c hown).same] at hy hsettled
  refine ⟨h.arises, h.atRest, h.thread, ?_, fun b hb x hx => .inl ?_⟩
  · rw [Spot.Rests, Spot.binding?, ConstantStart.binding?_eq,
      show s.start.holder? w'.model s.name = _ from hholder, binds]
    cases hd : w'.model.ownConstant (w.holder s.reader c) s.name with
    | none =>
      rw [hd] at hy
      rw [hy]
      exact .unbound
    | some c' =>
      rw [hd] at hy hsettled
      rw [Option.isSome_some, if_pos rfl, Option.bind_some, hd, hy]
      exact .bound hsettled
  · exact .of_value ((hbefore b hb).trans (World.Rests.value_of_loader hx hl))

theorem exists_spotRead (hr : Regular require) (ha : Arises w.model) (hrest : w.model.AtRest)
    (hfound : r.constant = s.binding? w.model) (hret : LoadReturns require before s w) :
    ∃ y w', resultValue require s.reader r w = .ok y w' ∧ SpotRead before s w y w' := by
  unfold resultValue
  rw [hfound]
  cases hb : s.binding? w.model with
  | none =>
    refine ⟨none, w, rfl, ha, hrest, rfl, ?_, .of_reported _ _ (.refl _)⟩
    rw [Spot.Rests, hb]
    exact .unbound
  | some c =>
    have hread {y : Option Value} {w' : World σ}
        (h : constantValue require s.reader c w = .ok y w') := read_of_ok hr ha hrest h
    cases hc : c.isAutoload with
    | false =>
      obtain ⟨w', -, hw'⟩ := constantValue_of_not_autoload require s.reader hc w
      exact ⟨_, w', hw', (hread hw').spot_of_bound hb hc⟩
    | true =>
      cases hl : w.model.hasLoader with
      | false =>
        obtain ⟨w₁, -, hw₁⟩ := constantValue_of_no_loader require s.reader hrest hc hl
        exact ⟨_, _, hw₁, (hread hw₁).spot_of_no_loader hb hc hl⟩
      | true =>
        have he := (hrest.enters_iff hc).2 hl
        obtain ⟨y, w', hw', hholder, hbefore⟩ := hret c hb he
        exact ⟨y, w', hw', (hread hw').spot_of_loaded ha.sourced hb he hholder hbefore⟩

/-! ### Paths -/

/-- Any failure but that of a constant that is not found. -/
def OtherFailure (f : Failure) : Prop :=
  ∀ shown name, f ≠ .raised (.uninitializedConstant shown name)

/-- The value of one segment of a path; `reader` is the module that the constant is read from. -/
def readSegment (require : String → Act σ Bool) (reader m : ModuleId) (segment : String)
    (inherit : Bool) : Act σ (Option Value) := do
  resultValue require reader (← lookupSegment m segment inherit)

/-- The value of a path, none if a constant on it is not found. -/
def walkValue (require : String → Act σ Bool) (reader : ModuleId) (text : String)
    (inherit : Bool) (passed : Nat) (m : ModuleId) : List String → Act σ (Option Value)
  | [] => Act.raise (.wrongConstantName text)
  | [last] =>
    if Name.isConstantName last then readSegment require reader m last inherit
    else Act.raise (.wrongConstantName text)
  | segment :: last :: rest => do
    match ← readSegment require m m segment inherit with
    | some (.module next) =>
      walkValue require reader text inherit (passed + segment.utf8ByteSize + 2) next (last :: rest)
    | some _ => Act.raise (.notNamespace
      ((ConstantPath.upTo? text (passed + segment.utf8ByteSize)).getD text))
    | none => return none

/-- The value of a path is that of what looking it up finds. -/
theorem walkScoped_bind (require : String → Act σ Bool) (reader : ModuleId) (text : String)
    (inherit : Bool) (passed : Nat) (m : ModuleId) (segments : List String) :
    walkScoped require text inherit passed m segments >>= resultValue require reader =
      walkValue require reader text inherit passed m segments := by
  induction segments generalizing passed m with
  | nil => rfl
  | cons segment rest ih =>
    cases rest with
    | nil =>
      unfold walkScoped walkValue
      split <;> rfl
    | cons last rest =>
      unfold walkScoped walkValue readSegment
      simp only [bind_assoc]
      refine bind_congr fun found => ?_
      unfold resultValue
      cases hfound : found.constant with
      | none => simp only [pure_bind, hfound]
      | some c =>
        simp only [bind_assoc]
        refine bind_congr fun y => ?_
        cases y with
        | none => rfl
        | some x =>
          cases x with
          | module next => exact ih _ _
          | nil | bool | int | symbol | string | object => rfl

/-- All loads that the value of a path needs return. -/
def WalkReturns (require : String → Act σ Bool) (reader : ModuleId) (inherit : Bool)
    (before : List Spot) (m : ModuleId) : List String → World σ → Prop
  | [], _ => True
  | [last], w => LoadReturns require before ⟨reader, .inheriting m inherit, last⟩ w
  | segment :: last :: rest, w =>
    LoadReturns require before ⟨m, .inheriting m inherit, segment⟩ w ∧
      ∀ next w', readSegment require m m segment inherit w = .ok (some (.module next)) w' →
        WalkReturns require reader inherit (⟨m, .inheriting m inherit, segment⟩ :: before) next
          (last :: rest) w'

section Segment

variable {segment : String} {inherit : Bool}

/-- A name outside the grammar is refused. -/
theorem readSegment_of_wrong_name (hname : Name.isConstantName segment = false)
    (require : String → Act σ Bool) (reader m : ModuleId) (inherit : Bool) (w : World σ) :
    readSegment require reader m segment inherit w =
      .error (.raised (.wrongConstantName segment)) w := by
  have hlookup := lookupSegment_apply m segment inherit w
  rw [lookupConstantInherit, hname, if_neg Bool.false_ne_true] at hlookup
  exact Act.bind_of_error hlookup

variable (hname : Name.isConstantName segment = true) (hrest : w.model.AtRest)
include hname hrest

/-- Where nothing is being loaded, the first binding is found. -/
theorem lookupSegment_of_atRest (reader m : ModuleId) (inherit : Bool) :
    ∃ r, r.constant = Spot.binding? w.model ⟨reader, .inheriting m inherit, segment⟩ ∧
      lookupSegment m segment inherit w = .ok r w := by
  rw [lookupSegment_apply, lookupConstantInherit, hname, if_pos rfl]
  refine ⟨_, ?_, rfl⟩
  rw [searchConstant_of_quiet fun c _ => hrest.loading? c]
  rfl

theorem exists_readSegment {reader : ModuleId} (hr : Regular require) (ha : Arises w.model)
    (hret : LoadReturns require before ⟨reader, .inheriting m inherit, segment⟩ w) :
    ∃ y w', readSegment require reader m segment inherit w = .ok y w' ∧
      SpotRead before ⟨reader, .inheriting m inherit, segment⟩ w y w' := by
  obtain ⟨r, hfound, hlookup⟩ := lookupSegment_of_atRest hname hrest reader m inherit
  obtain ⟨y, w', hvalue, hread⟩ := exists_spotRead hr ha hrest hfound hret
  exact ⟨y, w', (Act.bind_of_ok hlookup).trans hvalue, hread⟩

/-- A segment at rest is read without further ado. -/
theorem readSegment_again {reader : ModuleId}
    (h : Spot.Rests ⟨reader, .inheriting m inherit, segment⟩ w y)
    (require : String → Act σ Bool) :
    ∃ w', w.Reported w' ∧ readSegment require reader m segment inherit w = .ok y w' := by
  obtain ⟨r, hfound, hlookup⟩ := lookupSegment_of_atRest hname hrest reader m inherit
  rw [Spot.Rests, ← hfound] at h
  obtain ⟨w', hw', hvalue⟩ := h.again hrest require
  exact ⟨w', hw', (Act.bind_of_ok hlookup).trans hvalue⟩

end Segment

/-- What a read comes to that gives the same again: it does not fail for want of a constant, and if
it gives a value, it gives that value in the world that it leaves, whatever the loader is there. -/
inductive Repeats (before : List Spot) (w : World σ)
    (action : (String → Act σ Bool) → Act σ (Option Value)) :
    EStateM.Result Failure (World σ) (Option Value) → Prop
  | ok {y : Option Value} {w' : World σ} (arises : Arises w'.model) (atRest : w'.model.AtRest)
    (stays : StaysAt before y w w')
    (again : ∀ require w₁, w'.Reported w₁ →
      ∃ w₂, w₁.Reported w₂ ∧ action require w₁ = .ok y w₂) : Repeats before w action (.ok y w')
  | error {f : Failure} {w' : World σ} (h : OtherFailure f) : Repeats before w action (.error f w')

theorem walkValue_repeats {reader : ModuleId} {inherit : Bool} (hr : Regular require)
    (text : String) (passed : Nat) {segments : List String}
    (ha : Arises w.model) (hrest : w.model.AtRest)
    (hret : WalkReturns require reader inherit before m segments w) :
    Repeats before w (fun require => walkValue require reader text inherit passed m segments)
      (walkValue require reader text inherit passed m segments w) := by
  induction segments generalizing before passed m w with
  | nil => exact .error nofun
  | cons segment rest ih =>
    cases rest with
    | nil =>
      unfold walkValue
      cases hname : Name.isConstantName segment with
      | false =>
        rw [if_neg Bool.false_ne_true]
        exact .error nofun
      | true =>
        rw [if_pos rfl]
        obtain ⟨y, w', hvalue, hread⟩ := exists_readSegment hname hrest hr ha hret
        rw [hvalue]
        refine .ok hread.arises hread.atRest hread.stays fun require' w₁ hw₁ => ?_
        exact readSegment_again hname (hread.atRest.of_reported hw₁.model)
          (hread.rests.of_reported hw₁) require'
    | cons last rest =>
      obtain ⟨hhere, hthere⟩ := hret
      unfold walkValue
      cases hname : Name.isConstantName segment with
      | false =>
        rw [Act.bind_of_error (readSegment_of_wrong_name hname require m m inherit w)]
        exact .error nofun
      | true =>
        obtain ⟨y, w', hvalue, hread⟩ := exists_readSegment hname hrest hr ha hhere
        rw [Act.bind_of_ok hvalue]
        cases y with
        | none =>
          refine .ok hread.arises hread.atRest hread.stays fun require' w₁ hw₁ => ?_
          obtain ⟨w₂, hw₂, hagain⟩ := readSegment_again hname (hread.atRest.of_reported hw₁.model)
            (hread.rests.of_reported hw₁) require'
          exact ⟨w₂, hw₂, Act.bind_of_ok hagain⟩
        | some x =>
          cases x with
          | nil | bool | int | symbol | string | object => exact .error nofun
          | module next =>
            have hrest' := ih (passed + segment.utf8ByteSize + 2) hread.arises hread.atRest
              (hthere next w' hvalue)
            show Repeats before w _ (walkValue require reader text inherit
              (passed + segment.utf8ByteSize + 2) next (last :: rest) w')
            generalize walkValue require reader text inherit
              (passed + segment.utf8ByteSize + 2) next (last :: rest) w' = outcome at hrest' ⊢
            cases hrest' with
            | error hf => exact .error hf
            | @ok y w'' harises hatRest hstays hagain =>
              refine .ok harises hatRest ?_ fun require' w₁ hw₁ => ?_
              · intro s hs x hx
                obtain hx | ⟨hnone, -⟩ := hread.stays s hs x hx
                · exact hstays s (List.mem_cons_of_mem _ hs) x hx
                · cases hnone
              · obtain hspot | ⟨rfl, hspot⟩ := hstays _ List.mem_cons_self _ hread.rests
                · -- the segment leads on as it did
                  obtain ⟨w₂, hw₂, hsame⟩ := readSegment_again hname
                    (hatRest.of_reported hw₁.model) (hspot.of_reported hw₁) require'
                  obtain ⟨w₃, hw₃, hlast⟩ := hagain require' w₂ (hw₁.trans hw₂)
                  exact ⟨w₃, hw₂.trans hw₃, (Act.bind_of_ok hsame).trans hlast⟩
                · -- nothing was found in the end, and now the segment leads nowhere
                  obtain ⟨w₂, hw₂, hsame⟩ := readSegment_again hname
                    (hatRest.of_reported hw₁.model) (hspot.of_reported hw₁) require'
                  exact ⟨w₂, hw₂, Act.bind_of_ok hsame⟩

end Universe

/-! ### Reads -/

open Universe

/-- The ways to read a constant: by a path through a module, by its name in a scope, and as a public
constant of a module. -/
inductive ConstantRead
  | path (m : ModuleId) (text : String) (inherit : Bool)
  | lexical (s : LexicalScope) (name : String)
  | qualified (m : ModuleId) (name : String)

namespace ConstantRead

/-- The value that is read. -/
def run (require : String → Act σ Bool) : ConstantRead → Act σ Value
  | path m text inherit => constGet require m text inherit
  | lexical s name => lexicalConstantGet require s name
  | qualified m name => scopedConstantGet require m name

/-- A load leaves a public constant of a module public, and if it leaves none, the module keeps its
name. -/
def LoadKeepsAccess (require : String → Act σ Bool) (m : ModuleId) (name : String)
    (w : World σ) : Prop :=
  ∀ c y w', Spot.binding? w.model ⟨m, .inheriting m true, name⟩ = some c → w.model.Enters c →
    constantValue require m c w = .ok y w' →
    (Spot.binding? w'.model ⟨m, .inheriting m true, name⟩).any Constant.isPrivate = false ∧
      (y = none → w'.model.constantName m name = w.model.constantName m name)

/-- The loads that a read runs return to it. -/
def Returns (require : String → Act σ Bool) (w : World σ) : ConstantRead → Prop
  | path m text inherit =>
    WalkReturns require m inherit [] (pathStart m text) (ConstantPath.parse text).segments w
  | lexical s name => LoadReturns require [] ⟨s.live, .scope s, name⟩ w
  | qualified m name => LoadReturns require [] ⟨m, .inheriting m true, name⟩ w ∧
    LoadKeepsAccess require m name w

/-- An action, with the loader that it may run, answers in the same way when it is done again, and
then enters no loader and changes nothing but the reports. -/
def AnswersAgain (action : (String → Act σ Bool) → Act σ Value) (require : String → Act σ Bool)
    (w : World σ) : Prop :=
  (∀ v w', action require w = .ok v w' →
    ∀ require', ∃ w'', w'.Reported w'' ∧ action require' w' = .ok v w'') ∧
  ∀ shown name w', action require w = .error (.raised (.uninitializedConstant shown name)) w' →
    ∀ require', ∃ w'', w'.Reported w'' ∧
      action require' w' = .error (.raised (.uninitializedConstant shown name)) w''

section Answers

variable {action : (String → Act σ Bool) → Act σ Value} {shown : String}

theorem answersAgain_of_other {f : Failure} (h : action require w = .error f w')
    (hf : OtherFailure f) : AnswersAgain action require w := by
  constructor
  · intro v w'' hv
    cases h.symm.trans hv
  · intro shown name w'' hv
    cases h.symm.trans hv
    exact absurd rfl (hf shown name)

theorem answersAgain_of_value {x : Value} (h : action require w = .ok x w')
    (hagain : ∀ require', ∃ w'', w'.Reported w'' ∧ action require' w' = .ok x w'') :
    AnswersAgain action require w := by
  constructor
  · intro v w'' hv
    cases h.symm.trans hv
    exact hagain
  · intro shown name w'' hv
    cases h.symm.trans hv

theorem answersAgain_of_missing
    (h : action require w = .error (.raised (.uninitializedConstant shown name)) w')
    (hagain : ∀ require', ∃ w'', w'.Reported w'' ∧
      action require' w' = .error (.raised (.uninitializedConstant shown name)) w'') :
    AnswersAgain action require w := by
  constructor
  · intro v w'' hv
    cases h.symm.trans hv
  · intro shown name w'' hv
    cases h.symm.trans hv
    exact hagain

end Answers

/-- A value, or the failure for want of a constant. -/
def orMissing (m : ModuleId) (text name : String) : Option Value → Act σ Value
  | some v => return v
  | none => do Act.raise (.uninitializedConstant ((← Act.model).constantName m text) name)

theorem answersAgain_of_repeats {before : List Spot}
    (action : (String → Act σ Bool) → Act σ (Option Value)) (m : ModuleId) (text name : String)
    (h : Repeats before w action (action require w)) :
    AnswersAgain (fun require => action require >>= orMissing m text name) require w := by
  generalize houtcome : action require w = outcome at h
  cases h with
  | error hf => exact answersAgain_of_other (Act.bind_of_error houtcome) hf
  | @ok y w' harises hatRest hstays hagain =>
    have hrun := Act.bind_of_ok (f := orMissing m text name) houtcome
    cases y with
    | some x =>
      refine answersAgain_of_value hrun fun require' => ?_
      obtain ⟨w₂, hw₂, hsame⟩ := hagain require' w' (.refl w')
      exact ⟨w₂, hw₂, Act.bind_of_ok hsame⟩
    | none =>
      refine answersAgain_of_missing hrun fun require' => ?_
      obtain ⟨w₂, hw₂, hsame⟩ := hagain require' w' (.refl w')
      rw [← hw₂.model.constantName]
      exact ⟨w₂, hw₂, Act.bind_of_ok hsame⟩

theorem constGet_eq (require : String → Act σ Bool) (m : ModuleId) (text : String)
    (inherit : Bool) :
    constGet require m text inherit =
      walkValue require m text inherit (ConstantPath.parse text).anchorSize (pathStart m text)
        (ConstantPath.parse text).segments >>=
        orMissing m text (ConstantPath.lastSegment text) := by
  rw [← walkScoped_bind, bind_assoc]
  unfold constGet lookupScoped orMissing
  refine bind_congr fun found => bind_congr fun y => ?_
  cases y <;> rfl

theorem path_again {inherit : Bool} {text : String} (hr : Regular require) (ha : Arises w.model)
    (hrest : w.model.AtRest) (hret : (path m text inherit).Returns require w) :
    AnswersAgain (fun require => (path m text inherit).run require) require w := by
  have hrun : (fun require => (path m text inherit).run require) =
      fun require : String → Act σ Bool =>
        walkValue require m text inherit (ConstantPath.parse text).anchorSize (pathStart m text)
          (ConstantPath.parse text).segments >>= orMissing m text (ConstantPath.lastSegment text) :=
    funext fun require => constGet_eq require m text inherit
  rw [hrun]
  exact answersAgain_of_repeats (fun require => walkValue require m text inherit _ _ _)
    m text _ (walkValue_repeats hr text _ ha hrest hret)

/-! ### Names in a scope -/

/-- The value of a name in a scope, none if it is not found. -/
def lexicalValue (s : LexicalScope) (name : String) (require : String → Act σ Bool) :
    Act σ (Option Value) := fun w =>
  resultValue require s.live (w.model.lookupConstantLexical w.thread s name) w

theorem lexicalConstantGet_eq (require : String → Act σ Bool) (s : LexicalScope)
    (hname : Name.isConstantName name = true) :
    lexicalConstantGet require s name =
      lexicalValue s name require >>= orMissing s.live name name := by
  unfold lexicalConstantGet
  rw [hname]
  funext w
  show (resultValue require s.live (w.model.lookupConstantLexical w.thread s name) >>= _) w =
    (resultValue require s.live (w.model.lookupConstantLexical w.thread s name) >>= _) w
  refine congrFun (bind_congr fun y => ?_) w
  cases y <;> rfl

theorem lexicalValue_repeats {s : LexicalScope} (hr : Regular require) (ha : Arises w.model)
    (hrest : w.model.AtRest) (hret : LoadReturns require [] ⟨s.live, .scope s, name⟩ w) :
    Repeats [] w (lexicalValue s name) (lexicalValue s name require w) := by
  have hfound (w : World σ) (hrest : w.model.AtRest) :
      (w.model.lookupConstantLexical w.thread s name).constant =
        Spot.binding? w.model ⟨s.live, .scope s, name⟩ := by
    rw [lookupConstantLexical, searchConstant_of_quiet fun c _ => hrest.loading? c]
    rfl
  obtain ⟨y, w', hvalue, hread⟩ := exists_spotRead hr ha hrest (hfound w hrest) hret
  rw [lexicalValue, hvalue]
  refine .ok hread.arises hread.atRest hread.stays fun require' w₁ hw₁ => ?_
  have hrest' := hread.atRest.of_reported hw₁.model
  have hrests := hread.rests.of_reported hw₁
  rw [Spot.Rests, ← hfound w₁ hrest'] at hrests
  exact hrests.again hrest' require'

theorem lexical_again {s : LexicalScope} (hr : Regular require) (ha : Arises w.model)
    (hrest : w.model.AtRest) (hret : (lexical s name).Returns require w) :
    AnswersAgain (fun require => (lexical s name).run require) require w := by
  cases hname : Name.isConstantName name with
  | false =>
    have hrun : (lexical s name).run require w = .error (.raised (.wrongConstantName name)) w := by
      show lexicalConstantGet require s name w = _
      unfold lexicalConstantGet
      rw [hname]
      rfl
    exact answersAgain_of_other hrun nofun
  | true =>
    have hrun : (fun require => (lexical s name).run require) = fun require : String → Act σ Bool =>
        lexicalValue s name require >>= orMissing s.live name name :=
      funext fun require => lexicalConstantGet_eq require s hname
    rw [hrun]
    exact answersAgain_of_repeats (lexicalValue s name) s.live name name
      (lexicalValue_repeats hr ha hrest hret)

/-! ### Public constants -/

/-- Without loading, a public constant stays public, and its module keeps its name. -/
theorem access_of_not_enters {y : Option Value} {s : Spot} (h : Read w n c y w')
    (hrest : w.model.AtRest) (hb : s.binding? w.model = some c) (hpublic : c.isPrivate = false)
    (he : ¬w.model.Enters c) (m : ModuleId) (name : String) :
    (s.binding? w'.model).any Constant.isPrivate = false ∧
      w'.model.constantName m name = w.model.constantName m name := by
  cases hc : c.isAutoload with
  | false =>
    have hreported := (h.bound hc).2.model
    have hsame : s.binding? w'.model = some c := (Spot.binding?_of_reported hreported s).trans hb
    exact ⟨by rw [hsame, Option.any_some, hpublic], hreported.constantName m name⟩
  | true =>
    have hl : w.model.hasLoader = false :=
      Bool.eq_false_iff.2 fun hl => he ((hrest.enters_iff hc).2 hl)
    obtain ⟨-, v, hv, hmodel⟩ := h.settled hc hl
    have hsame : s.binding? v = some c := (Spot.binding?_of_reported hv s).trans hb
    have hsettled := settledAlike_settleAutoload n c.name v
    have hafter := ConstantStart.binding?_settle n c.name v s.name s.start
    rw [show s.start.binding? v s.name = some c from hsame, ← hmodel] at hafter
    rw [← hmodel] at hsettled
    constructor
    · rw [Spot.binding?, hafter]
      split <;> simp [hpublic]
    · rw [constantName_congr hsettled.name hsettled.kind hsettled.objects, hv.constantName]

theorem access_kept {y : Option Value} {r : ConstantResult} (hr : Regular require)
    (ha : Arises w.model) (hrest : w.model.AtRest)
    (hfound : r.constant = Spot.binding? w.model ⟨m, .inheriting m true, name⟩)
    (hpublic : r.constant.any Constant.isPrivate = false)
    (hvalue : resultValue require m r w = .ok y w') (haccess : LoadKeepsAccess require m name w) :
    (Spot.binding? w'.model ⟨m, .inheriting m true, name⟩).any Constant.isPrivate = false ∧
      (y = none → w'.model.constantName m name = w.model.constantName m name) := by
  unfold resultValue at hvalue
  rw [hfound] at hvalue hpublic
  cases hb : Spot.binding? w.model ⟨m, .inheriting m true, name⟩ with
  | none =>
    rw [hb] at hvalue
    cases hvalue
    exact ⟨by rw [hb]; rfl, fun _ => rfl⟩
  | some c =>
    rw [hb] at hvalue hpublic
    by_cases he : w.model.Enters c
    · exact haccess c y w' hb he hvalue
    · have hread := read_of_ok hr ha hrest hvalue
      obtain ⟨hkept, hshown⟩ := access_of_not_enters hread hrest hb hpublic he m name
      exact ⟨hkept, fun _ => hshown⟩

/-- The value that was found, or a failure that was prepared. -/
def orRaise (e : Error) : Option Value → Act σ Value
  | some v => return v
  | none => Act.raise e

/-- The failure shows the constant as its module was shown when the read began. -/
theorem scopedConstantGet_of_public {r : ConstantResult} (require : String → Act σ Bool)
    (hlookup : lookupSegment m name true w = .ok r w)
    (hpublic : r.constant.any Constant.isPrivate = false) :
    scopedConstantGet require m name w = (resultValue require m r >>=
      orRaise (.uninitializedConstant (w.model.constantName m name) name)) w := by
  refine (Act.bind_of_ok hlookup).trans ?_
  unfold resultValue
  cases hr : r.constant with
  | none => rfl
  | some c =>
    have hc : c.isPrivate = false := by simpa [hr] using hpublic
    simp only [hc]
    show (constantValue require m c >>= _) w = _
    refine congrFun (bind_congr fun y => ?_) w
    cases y <;> rfl

theorem scopedConstantGet_of_private {r : ConstantResult} (require : String → Act σ Bool)
    (hlookup : lookupSegment m name true w = .ok r w)
    (hprivate : r.constant.any Constant.isPrivate = true) :
    scopedConstantGet require m name w =
      .error (.raised (.privateConstant (w.model.constantName m name) name)) w := by
  refine (Act.bind_of_ok hlookup).trans ?_
  obtain ⟨c, hr, hc⟩ := (Option.any_eq_true _ _).1 hprivate
  simp only [hr, hc]
  rfl

theorem qualified_again (hr : Regular require) (ha : Arises w.model)
    (hrest : w.model.AtRest) (hret : (qualified m name).Returns require w) :
    AnswersAgain (fun require => (qualified m name).run require) require w := by
  cases hname : Name.isConstantName name with
  | false =>
    have hlookup := lookupSegment_apply m name true w
    rw [lookupConstantInherit, hname, if_neg Bool.false_ne_true] at hlookup
    exact answersAgain_of_other (Act.bind_of_error hlookup) fun _ _ h => by cases h
  | true =>
    obtain ⟨hload, haccess⟩ := hret
    obtain ⟨r, hfound, hlookup⟩ := lookupSegment_of_atRest hname hrest m m true
    cases hp : r.constant.any Constant.isPrivate with
    | true =>
      have hrefused := scopedConstantGet_of_private require hlookup hp
      exact answersAgain_of_other hrefused fun _ _ h => by cases h
    | false =>
      obtain ⟨y, w', hvalue, hread⟩ := exists_spotRead hr ha hrest hfound hload
      have hrun := scopedConstantGet_of_public require hlookup hp
      obtain ⟨r', hfound', hlookup'⟩ := lookupSegment_of_atRest hname hread.atRest m m true
      have hrests := hread.rests
      rw [Spot.Rests, ← hfound'] at hrests
      have hkept : r'.constant.any Constant.isPrivate = false ∧
          (y = none → w'.model.constantName m name = w.model.constantName m name) := by
        rw [hfound']
        exact access_kept hr ha hrest hfound hp hvalue haccess
      have hagain (require' : String → Act σ Bool) : ∃ w'', w'.Reported w'' ∧
          resultValue require' m r' w' = .ok y w'' := hrests.again hread.atRest require'
      have hrun' (require' : String → Act σ Bool) :=
        scopedConstantGet_of_public require' hlookup' hkept.1
      cases y with
      | some x =>
        refine answersAgain_of_value (hrun.trans (Act.bind_of_ok hvalue)) fun require' => ?_
        obtain ⟨w'', hw'', hsame⟩ := hagain require'
        exact ⟨w'', hw'', (hrun' require').trans (Act.bind_of_ok hsame)⟩
      | none =>
        refine answersAgain_of_missing (hrun.trans (Act.bind_of_ok hvalue)) fun require' => ?_
        obtain ⟨w'', hw'', hsame⟩ := hagain require'
        rw [← hkept.2 rfl]
        exact ⟨w'', hw'', (hrun' require').trans (Act.bind_of_ok hsame)⟩

/-- Where nothing is being loaded and the loads that a read runs return to it, the read gives the
same answer again, and then runs no loader and changes nothing but the reports. -/
theorem repeats (read : ConstantRead) (hr : Regular require) (ha : Arises w.model)
    (hrest : w.model.AtRest) (hret : read.Returns require w) :
    AnswersAgain (fun require => read.run require) require w := by
  cases read with
  | path m text inherit => exact path_again hr ha hrest hret
  | lexical s name => exact lexical_again hr ha hrest hret
  | qualified m name => exact qualified_again hr ha hrest hret

end ConstantRead

/-! ### A binding in front of the loaded one -/

namespace Universe

/-- Assign integers to the constant `C` of modules. -/
def assignments (as : List (ModuleId × Int64)) : List Move :=
  as.map fun (m, i) => .setConstant m "C" (.int i) none

/-- A loader that makes assignments, where the modules exist. -/
def assigning (as : List (ModuleId × Int64)) (_ : String) : Act Unit Bool := fun w =>
  .ok true { w with model :=
    if ∀ a ∈ as, w.model.knows a.1 then w.model.afterAll (assignments as) else w.model }

theorem genuine_assignments {as : List (ModuleId × Int64)} (ha : Arises u)
    (hk : ∀ a ∈ as, u.knows a.1) :
    u.AllGenuine (assignments as) ∧ (u.afterAll (assignments as)).autoloads = u.autoloads := by
  induction as generalizing u with
  | nil => exact ⟨trivial, rfl⟩
  | cons a as ih =>
    have hmove : (Move.setConstant a.1 "C" (.int a.2) none).Known u :=
      ⟨hk a List.mem_cons_self, trivial⟩
    have hnext := (Leads.of_move hmove).nextId ha.reachable.wellFormed
    obtain ⟨hrest, hloads⟩ := ih (ha.after hmove trivial)
      fun b hb => knows_mono hnext (hk b (List.mem_cons_of_mem a hb))
    exact ⟨⟨hmove, trivial, hrest⟩, hloads.trans (stores_after hmove).autoloads⟩

theorem regular_assigning (as : List (ModuleId × Int64)) : Regular (assigning as) := by
  intro feature w b w' ha h
  cases h
  refine ⟨rfl, ?_⟩
  dsimp only
  split
  · next hk =>
    obtain ⟨hg, hloads⟩ := genuine_assignments ha hk
    refine ⟨⟨assignments as, hg, rfl⟩, fun a => ?_⟩
    rw [autoload, hloads, autoload]
  · exact ⟨⟨[], trivial, rfl⟩, fun _ => rfl⟩

/-- A class and a subclass, a loader, and a constant of the class that waits for a feature. -/
def waitingConstant : Universe :=
  (create {}).afterAll
    [.newClass none, .newClass (some ⟨12⟩), .installLoader, .registerAutoload ⟨12⟩ "C" "lib"]

theorem arises_waitingConstant : Arises waitingConstant := by
  refine ⟨{}, [.newClass none, .newClass (some ⟨12⟩), .installLoader,
    .registerAutoload ⟨12⟩ "C" "lib"], ⟨nofun, trivial, ?_, trivial, trivial, trivial,
    (by decide +kernel : Universe.knows _ _), trivial, trivial⟩, rfl⟩
  intro m hm
  cases hm
  decide +kernel

/-- The constant that waits. -/
def pendingC : Constant where
  declaringModule := ⟨12⟩
  name := "C"
  binding := .autoload ⟨1⟩

/-- Where the feature defines the constant of the class only, reading it through the subclass gives
the same again. -/
theorem rereads_loaded_constant : Arises waitingConstant ∧ waitingConstant.AtRest ∧ ∃ w₁ w₂,
    constGet (assigning [(⟨12⟩, 2)]) ⟨13⟩ "C" true ⟨waitingConstant, ⟨0⟩, (), []⟩ =
      .ok (.int 2) w₁ ∧ w₁.Reported w₂ ∧
    constGet (fun _ => Act.abort .noUniverse) ⟨13⟩ "C" true w₁ = .ok (.int 2) w₂ := by
  have hfound : Spot.binding? waitingConstant ⟨⟨13⟩, .inheriting ⟨13⟩ true, "C"⟩ =
      some pendingC := by
    decide +kernel
  have hreturns : (ConstantRead.path ⟨13⟩ "C" true).Returns (assigning [(⟨12⟩, 2)])
      ⟨waitingConstant, ⟨0⟩, (), []⟩ := by
    show WalkReturns _ _ _ _ _ _ _
    rw [show (ConstantPath.parse "C").segments = ["C"] by decide +kernel,
      show pathStart ⟨13⟩ "C" = ⟨13⟩ by decide +kernel]
    intro c hc _
    cases hfound.symm.trans hc
    exact ⟨some (.int 2), _, Act.eq_ok (by decide +kernel), by decide +kernel, nofun⟩
  have hrest : waitingConstant.AtRest := by decide +kernel
  have hagain := ConstantRead.repeats (.path ⟨13⟩ "C" true) (regular_assigning [(⟨12⟩, 2)])
    arises_waitingConstant hrest hreturns
  have hfirst : constGet (assigning [(⟨12⟩, 2)]) ⟨13⟩ "C" true ⟨waitingConstant, ⟨0⟩, (), []⟩ =
    .ok (.int 2) _ := Act.eq_ok (by decide +kernel)
  obtain ⟨w₂, hw₂, hsecond⟩ := hagain.1 _ _ hfirst fun _ => Act.abort .noUniverse
  exact ⟨arises_waitingConstant, hrest, _, w₂, hfirst, hw₂, hsecond⟩

/-- Where the feature also defines a constant of the subclass, the first read gives what the class
has, and the second one what the subclass has. -/
theorem rereads_otherwise : Arises waitingConstant ∧ waitingConstant.AtRest ∧
    Regular (assigning [(⟨12⟩, 2), (⟨13⟩, 1)]) ∧ ∃ w₁ w₂,
      constGet (assigning [(⟨12⟩, 2), (⟨13⟩, 1)]) ⟨13⟩ "C" true ⟨waitingConstant, ⟨0⟩, (), []⟩ =
        .ok (.int 2) w₁ ∧
      constGet (assigning [(⟨12⟩, 2), (⟨13⟩, 1)]) ⟨13⟩ "C" true w₁ = .ok (.int 1) w₂ := by
  refine ⟨arises_waitingConstant, ?_, regular_assigning _, _, _, Act.eq_ok ?_, Act.eq_ok ?_⟩
  · decide +kernel
  · decide +kernel
  · decide +kernel

end Universe

end ObjectModel
