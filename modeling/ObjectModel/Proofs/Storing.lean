import ObjectModel.Proofs.Framing
import ObjectModel.Proofs.Retouching
import ObjectModel.Proofs.Search

/-!
# Stored constants

What the constant tables hold after a move stems from what they held before.  A constant keeps its
name and the module that declares it as long as it is stored, a copy of a module takes them over,
and what is stored anew is declared by the module that stores it.  Only a registration makes a
constant wait for a feature, and then for one that is registered for it alone.

* `Constant.From`: a later state of a constant, which waits for nothing new;
* `ownConstant_insert`: what storing one constant does;
* `Move.pending?`: the place of the constant that a move makes wait for a feature;
* `Move.autoloads`: the states of the autoloads after a move;
* `Stores`, `Fits`, `Stores.after`: a predicate on what is stored, and when a move keeps it;
* `Stem`, `stores_after`: what the constants that are stored after a move stem from;
* `Sourced`, `Arises.sourced`: names and declaring modules of what is stored.
-/

namespace ObjectModel

/-- The second constant is the first in another state: it waits for a feature only if the first
did. -/
structure Constant.From (c c' : Constant) : Prop where
  declaring : c'.declaringModule = c.declaringModule
  name : c'.name = c.name
  autoload : ∀ a, c'.autoload? = some a → c.autoload? = some a

theorem Constant.From.refl (c : Constant) : c.From c := ⟨rfl, rfl, fun _ => id⟩

theorem Constant.From.trans {c c' c'' : Constant} (h : c.From c') (h' : c'.From c'') :
    c.From c'' :=
  ⟨h'.declaring.trans h.declaring, h'.name.trans h.name,
    fun a ha => h.autoload a (h'.autoload a ha)⟩

namespace Move

open Universe

/-- The place of the constant that a move makes wait for a feature. -/
def pending? (u : Universe) : Move → Option (ModuleId × String)
  | registerAutoload m name feature =>
    if Name.isConstantName name ∧ feature.isEmpty = false ∧ u.immutable? m = none ∧
        (u.ownConstant m name).bind Constant.value? = none then some (m, name)
    else none
  | _ => none

/-- The states of the autoloads after a move. -/
def autoloads (u : Universe) : Move → Table AutoloadId Autoload
  | markAutoload a t => u.autoloads.insert a { u.autoload a with thread := t }
  | registerAutoload m name feature =>
    if ((registerAutoload m name feature).pending? u).isSome then
      u.autoloads.insert ⟨u.nextSerial⟩ { feature }
    else u.autoloads
  | _ => u.autoloads

end Move

namespace Universe

variable {u v w : Universe} {k m n t : ModuleId} {name : String} {c : Constant}
  {P : ModuleId → String → Constant → Prop} {as : Table AutoloadId Autoload}

theorem ownConstant_insert (u : Universe) (n : ModuleId) (name : String) (c : Constant)
    (k : ModuleId) (other : String) :
    (changeConstants n (·.insert name c) u).2.ownConstant k other =
      if n = k ∧ name = other then some c else u.ownConstant k other := by
  show ((u.modifyModule n (·.updateConstants (·.insert name c))).module k).constants.find? other = _
  rw [module_modifyModule]
  by_cases hk : n = k
  · subst hk
    rw [if_pos rfl]
    show ((u.module n).constants.insert name c).find? other = _
    rw [Table.find?_insert]
    simp [ownConstant]
  · simp [hk, ownConstant]

/-- What a constant that is stored after a move stems from; `place?` is where the move makes a
constant wait for a feature. -/
inductive Stem (u : Universe) (place? : Option (ModuleId × String)) (k : ModuleId) (name : String)
    (c : Constant) : Prop
  /-- It was there. -/
  | kept {c₀ : Constant} (h : u.ownConstant k name = some c₀) (from_ : c₀.From c)
  /-- It is new, and was assigned. -/
  | made (free : u.ownConstant k name = none) (hk : u.knows k) (declaring : c.declaringModule = k)
    (same : c.name = name) (autoload : c.autoload? = none)
  /-- It waits for a feature that was registered for it. -/
  | registered (h : place? = some (k, name)) (hk : u.knows k) (declaring : c.declaringModule = k)
    (same : c.name = name) (autoload : c.autoload? = some ⟨u.nextSerial⟩)
  /-- It came with a copy of a module. -/
  | copied {s : ModuleId} {c₀ : Constant} (hk : ¬u.knows k) (h : u.ownConstant s name = some c₀)
    (from_ : c₀.From c)

/-- Flags and sources do not matter. -/
theorem Stem.flagged {place? : Option (ModuleId × String)} {c' : Constant}
    (h : Stem u place? k name c) (hd : c'.declaringModule = c.declaringModule)
    (hn : c'.name = c.name) (ha : c'.autoload? = c.autoload?) : Stem u place? k name c' := by
  have hfrom : c.From c' := ⟨hd, hn, fun a h => ha ▸ h⟩
  cases h with
  | kept h from_ => exact .kept h (from_.trans hfrom)
  | made free hk declaring same autoload =>
    exact .made free hk (hd.trans declaring) (hn.trans same) (ha.trans autoload)
  | registered h hk declaring same autoload =>
    exact .registered h hk (hd.trans declaring) (hn.trans same) (ha.trans autoload)
  | copied hk h from_ => exact .copied hk h (from_.trans hfrom)

/-- The constants that are stored all satisfy `P`, and the autoloads are in the states `as`. -/
structure Stores (P : ModuleId → String → Constant → Prop) (as : Table AutoloadId Autoload)
    (v : Universe) : Prop where
  constants : ∀ k name c, v.ownConstant k name = some c → P k name c
  autoloads : v.autoloads = as

namespace Stores

theorem neutral (h : Stores P as v) (hm : w.modules = v.modules) (ha : w.autoloads = v.autoloads) :
    Stores P as w := by
  refine ⟨fun k name c hc => h.constants k name c ?_, ha.trans h.autoloads⟩
  rwa [ownConstant, module_congr hm, ← ownConstant] at hc

/-- A change of one record, apart from its constants. -/
theorem edit (h : Stores P as v) {f : Module → Module}
    (hf : (f (v.module m)).constants = (v.module m).constants) :
    Stores P as (v.modifyModule m f) := by
  refine ⟨fun k name c hc => h.constants k name c ?_, h.autoloads⟩
  rw [ownConstant, module_modifyModule] at hc
  split at hc
  · next he =>
    subst he
    rwa [hf] at hc
  · exact hc

/-- A change of one constant table. -/
theorem changed (h : Stores P as v) {f : Table String Constant → Table String Constant}
    (hf : ∀ name c, (f (v.module m).constants).find? name = some c → P m name c) :
    Stores P as (changeConstants m f v).2 := by
  refine ⟨fun k name c hc => ?_, h.autoloads⟩
  change ((v.modifyModule m (·.updateConstants f)).module k).constants.find? name = some c at hc
  rw [module_modifyModule] at hc
  split at hc
  · next he => exact he ▸ hf name c (he ▸ hc)
  · exact h.constants k name c hc

/-- One constant is stored. -/
theorem inserted (h : Stores P as v) (hc : P m name c) :
    Stores P as (changeConstants m (·.insert name c) v).2 := by
  refine ⟨fun k other c' hc' => ?_, h.autoloads⟩
  rw [ownConstant_insert] at hc'
  split at hc'
  · next he =>
    obtain ⟨rfl, rfl⟩ := he
    cases hc'
    exact hc
  · exact h.constants k other c' hc'

/-! ### Building blocks -/

theorem keeps_reportNow (e : Universe → Event) : Change.Keeps (Stores P as) (reportNow e) :=
  fun _ h => h.neutral rfl rfl

/-- A new module has no constants. -/
theorem keeps_allocate (kind : ModuleKind) (chain : Chain) :
    Change.Keeps (Stores P as) (allocate kind chain) := by
  refine fun v h => ⟨fun k name c hc => ?_, h.autoloads⟩
  change ((v.setModule ⟨v.nextId⟩ { kind, chain }).module k).constants.find? name = some c at hc
  rw [module_setModule] at hc
  split at hc
  · cases hc
  · exact h.constants k name c hc

/-- What is stored survives whatever leaves constants and autoloads alone. -/
theorem frame {ps : List Part} (hc : .constants ∉ ps) (ha : .autoloads ∉ ps) :
    Frame ps (Stores P as) where
  neutral h hm _ _ hauto _ _ := h.neutral hm (hauto ha)
  allocate := keeps_allocate
  edit h hf := h.edit (hf.constants hc)

/-! ### Operations on constants -/

theorem keeps_removeConst (n : ModuleId) (name : String) :
    Update.Keeps (Stores P as) (removeConst n name) := by
  refine Update.keeps_bind (Stems.keeps_checkConstantName name) fun _ =>
    Update.keeps_checked fun v h => ?_
  have herased : Stores P as (changeConstants n (·.erase name) v).2 := by
    refine h.changed fun other c hc => ?_
    rw [Table.find?_erase] at hc
    split at hc
    · cases hc
    · exact h.constants n other c hc
  rw [Update.final_lift_bind]
  cases v.ownConstant n name with
  | none => exact herased
  | some c => exact herased.neutral rfl rfl

theorem keeps_updateConstants {f : Constant → Constant}
    (hf : ∀ n name c, P n name c → P n name (f c)) (n : ModuleId) (names : List String) :
    Update.Keeps (Stores P as) (updateConstants n names f) := by
  refine Update.keeps_bind (Update.keeps_checkMutable n) fun _ => Update.keeps_forM fun name _ => ?_
  refine Update.keeps_bind (Stems.keeps_checkConstantName name) fun _ => ?_
  refine Update.keeps_get_bind fun v h => ?_
  cases hc : v.ownConstant n name with
  | none => exact h.changed fun other c hc => h.constants n other c hc
  | some c => exact h.inserted (hf n name c (h.constants n name c hc))

/-- What a registration that takes effect does. -/
theorem final_registerAutoload {feature : String} {p : ModuleId × String}
    (h : (Move.registerAutoload n name feature).pending? u = some p) :
    Update.final (Universe.registerAutoload n name feature) u =
      (reportNow (fun u => .registeredAutoload (u.constantName n name) feature)
        (changeConstants n
          (·.insert name { declaringModule := n, name, binding := .autoload ⟨u.nextSerial⟩ })
          (allocateAutoload feature u).2).2).2 := by
  rw [Move.pending?] at h
  split at h
  · next hall =>
    obtain ⟨hname, hfeature, hi, hfree⟩ := hall
    have hnone : ¬((u.ownConstant n name).bind Constant.value?).isSome = true := by
      rw [hfree]
      exact Bool.false_ne_true
    unfold Universe.registerAutoload checkConstantName
    rw [if_pos hname, pure_bind, hfeature, if_neg Bool.false_ne_true, final_checkMutable_bind,
      if_pos hi, Update.final_get_bind, if_neg hnone, Update.final_lift_bind,
      Update.final_lift_bind]
    rfl
  · cases h

end Stores

/-- What a move stores satisfies `P`, given what is stored already. -/
structure Fits (u : Universe) (mv : Move) (P : ModuleId → String → Constant → Prop) : Prop where
  /-- Flags and sources do not matter. -/
  flagged : ∀ {k name c c'}, P k name c → c'.declaringModule = c.declaringModule →
    c'.name = c.name → c'.binding = c.binding → P k name c'
  settled : ∀ {k name c}, u.ownConstant k name = some c → P k name c.withoutBinding
  /-- A copy takes the constants over. -/
  copied : ∀ {s k name c}, mv = .copyModule s → ¬u.knows k → u.ownConstant s name = some c →
    P k name c
  registered : ∀ {k name}, mv.pending? u = some (k, name) →
    P k name { declaringModule := k, name, binding := .autoload ⟨u.nextSerial⟩ }
  assigned : ∀ {k name x source}, mv = .setConstant k name x source →
    P k name (assigned (u.ownConstant k name) k name x source)

namespace Stores

/-- An assignment gives a value to the constant that is there, or makes one. -/
theorem setConstant (h : Stores P as u) {x : Value} {source : Option SourceLocation}
    (hP : P n name (assigned (u.ownConstant n name) n name x source)) :
    Stores P as (Update.final (setConstant n name x source) u) := by
  have hset := h.inserted hP
  unfold Universe.setConstant
  rw [final_checkMutable_bind]
  split
  · rw [Update.final_get_bind]
    show Stores _ _ (Update.final ((liftM (changeConstants n _) : Update Unit) >>= _) u)
    rw [Update.final_lift_bind]
    suffices hrest : Update.Keeps (Stores P as) _ from hrest _ hset
    cases x with
    | module child =>
      have hname : Frame [.name] (Stores P as) := frame (by simp) (by simp)
      exact Update.keeps_reported keeps_reportNow fun w hw => hname.adopt (.head _) hw n name child
    | nil | bool | int | symbol | string | object =>
      exact Update.keeps_reported keeps_reportNow (Update.keeps_pure _)
  · exact h

theorem settleAutoload (h : Stores P as u)
    (hP : ∀ c, u.ownConstant n name = some c → P n name c.withoutBinding) :
    Stores P as (settleAutoload n name u).2 := by
  unfold Universe.settleAutoload
  rw [Change.get_bind]
  cases hc : u.ownConstant n name with
  | none => exact h
  | some c =>
    have hsettled := hP c hc
    obtain ⟨declaring, own, binding⟩ := c
    cases binding with
    | value _ | undefined => exact h
    | autoload a => exact h.inserted hsettled

/-- A copy takes the constants over. -/
theorem copyModule (h : Stores P as u)
    (hP : ∀ k name c, ¬u.knows k → u.ownConstant n name = some c → P k name c) :
    Stores P as (Update.final (copyModule n) u) := by
  have hcopied : Stores P as (Update.final (copyRecord n (u.module n)) u) := by
    have hborn := keeps_allocate (u.module n).kind (u.module n).chain u h
    have hnew : ¬u.knows (allocate (u.module n).kind (u.module n).chain u).1 := Nat.lt_irrefl _
    unfold copyRecord
    rw [Update.final_lift_bind]
    generalize allocate (u.module n).kind (u.module n).chain u = made at hborn hnew
    obtain ⟨copy, v⟩ := made
    refine Update.keeps_bind (Update.keeps_lift fun w hw => ?_) (fun methods => ?_) v hborn
    · exact hw.neutral rfl rfl
    · refine Update.keeps_bind (Update.keeps_lift fun w hw => ?_) fun _ =>
        Update.keeps_bind (Update.keeps_lift (keeps_reportNow _)) fun _ => Update.keeps_pure _
      refine ⟨fun k name c hc => ?_, hw.autoloads⟩
      change ((w.modifyModule copy _).module k).constants.find? name = some c at hc
      rw [module_modifyModule] at hc
      split at hc
      · next he => exact hP k name c (he ▸ hnew) hc
      · exact hw.constants k name c hc
  unfold Universe.copyModule
  split
  · exact h
  · rw [Update.final_get_bind]
    unfold copyRecord at hcopied
    dsimp only
    split
    · exact h
    · exact h
    · exact hcopied
    · exact hcopied

/-- A registration that takes effect makes an autoload of its own. -/
theorem registerAutoload (h : Stores P u.autoloads u) {feature : String}
    (hP : (Move.registerAutoload n name feature).pending? u = some (n, name) →
      P n name { declaringModule := n, name, binding := .autoload ⟨u.nextSerial⟩ }) :
    Stores P ((Move.registerAutoload n name feature).autoloads u)
      (Update.final (registerAutoload n name feature) u) := by
  rw [Move.autoloads]
  by_cases hall : Name.isConstantName name ∧ feature.isEmpty = false ∧ u.immutable? n = none ∧
      (u.ownConstant n name).bind Constant.value? = none
  · have hplace : (Move.registerAutoload n name feature).pending? u = some (n, name) := if_pos hall
    have hmade : Stores P (u.autoloads.insert ⟨u.nextSerial⟩ { feature })
        (allocateAutoload feature u).2 := ⟨h.constants, rfl⟩
    rw [final_registerAutoload hplace, hplace, Option.isSome_some, if_pos rfl]
    exact (hmade.inserted (hP hplace)).neutral rfl rfl
  · have hplace : (Move.registerAutoload n name feature).pending? u = none := if_neg hall
    rw [hplace, Option.isSome_none, if_neg Bool.false_ne_true]
    -- the first check that fails leaves things as they are
    unfold Universe.registerAutoload checkConstantName
    split
    · next hname =>
      rw [pure_bind]
      split
      · exact h
      · next hfeature =>
        rw [final_checkMutable_bind]
        split
        · next hi =>
          rw [Update.final_get_bind]
          split
          · exact h.changed fun other c hc => h.constants n other c hc
          · next hvalue =>
            exact absurd ⟨hname, by simpa using hfeature, hi, by simpa using hvalue⟩ hall
        · exact h
    · exact h

end Stores

/-! ### Moves -/

/-- What is stored after a move satisfies what is satisfied before it and fits the move. -/
theorem Stores.after {mv : Move} (h : Stores P u.autoloads u) (hfit : Fits u mv P) :
    Stores P (mv.autoloads u) (u.after mv) := by
  have hflags {f : Constant → Constant} (hf : ∀ c, (f c).declaringModule = c.declaringModule ∧
      (f c).name = c.name ∧ (f c).binding = c.binding) (k : ModuleId) (name : String)
      (c : Constant) (hc : P k name c) : P k name (f c) :=
    hfit.flagged hc (hf c).1 (hf c).2.1 (hf c).2.2
  cases mv with
  | copyModule m =>
    rw [Universe.after, Move.run, Update.final_discard]
    exact h.copyModule fun k name c => hfit.copied rfl
  | setConstant m name x source =>
    rw [Universe.after, Move.run, Update.final_discard]
    exact h.setConstant (hfit.assigned rfl)
  | removeConst m name => exact Update.keeps_discard (Stores.keeps_removeConst m name) u h
  | privateConstants m names =>
    exact Stores.keeps_updateConstants
      (hflags (f := (·.withPrivate true)) fun _ => ⟨rfl, rfl, rfl⟩) m names u h
  | publicConstants m names =>
    exact Stores.keeps_updateConstants
      (hflags (f := (·.withPrivate false)) fun _ => ⟨rfl, rfl, rfl⟩) m names u h
  | deprecateConstants m names =>
    exact Stores.keeps_updateConstants
      (hflags (f := Constant.deprecated) fun _ => ⟨rfl, rfl, rfl⟩) m names u h
  | registerAutoload m name feature => exact h.registerAutoload hfit.registered
  | markAutoload a t => exact ⟨h.constants, rfl⟩
  | settleAutoload m name => exact h.settleAutoload fun c => hfit.settled
  | _ => exact Frame.after (Stores.frame (by simp [Move.parts]) (by simp [Move.parts])) h

/-- The place of a registration that takes effect. -/
theorem place_of_pending {feature : String} {p : ModuleId × String}
    (h : (Move.registerAutoload n name feature).pending? u = some p) : (n, name) = p := by
  rw [Move.pending?] at h
  split at h
  · exact Option.some.inj h
  · cases h

/-- Its module exists. -/
theorem knows_of_pending {mv : Move} (hk : mv.Known u)
    (h : mv.pending? u = some (k, name)) : u.knows k := by
  cases mv with
  | registerAutoload n other feature =>
    cases place_of_pending h
    exact hk
  | _ => cases h

/-- It binds the constant to an autoload of its own. -/
theorem after_of_pending {mv : Move} (h : mv.pending? u = some (m, name)) :
    (∀ k other, (u.after mv).ownConstant k other =
      if m = k ∧ name = other then
        some { declaringModule := m, name, binding := .autoload ⟨u.nextSerial⟩ }
      else u.ownConstant k other) ∧
    (u.after mv).nextSerial = u.nextSerial + 1 := by
  cases mv with
  | registerAutoload n other feature =>
    cases place_of_pending h
    have hfinal : u.after (.registerAutoload m name feature) = _ :=
      Stores.final_registerAutoload h
    rw [hfinal]
    exact ⟨fun k other => ownConstant_insert _ m name _ k other, rfl⟩
  | _ => cases h

theorem WellFormed.knows_of_ownConstant (hu : u.WellFormed) (hc : u.ownConstant k name = some c) :
    u.knows k := by
  refine Classical.byContradiction fun hno => ?_
  rw [ownConstant, hu.module_stranger hno] at hc
  cases hc

/-- What is stored stems from what was stored before. -/
theorem fits_stem {mv : Move} (hk : mv.Known u) : Fits u mv (Stem u (mv.pending? u)) where
  flagged h hd hn hb := h.flagged hd hn (by rw [Constant.autoload?, hb, Constant.autoload?])
  settled hc := .kept hc ⟨rfl, rfl, fun a ha => nomatch ha⟩
  copied _ hnew hc := .copied hnew hc (.refl _)
  registered hp := .registered hp (knows_of_pending hk hp) rfl rfl rfl
  assigned {k name x source} he := by
    subst he
    cases hc : u.ownConstant k name with
    | none => exact .made hc hk.1 rfl rfl rfl
    | some c => exact .kept hc ⟨rfl, rfl, fun a ha => nomatch ha⟩

theorem stores_after {mv : Move} (hk : mv.Known u) :
    Stores (Stem u (mv.pending? u)) (mv.autoloads u) (u.after mv) := by
  have hstart : Stores (Stem u (mv.pending? u)) u.autoloads u :=
    ⟨fun _ _ _ hc => .kept hc (.refl _), rfl⟩
  exact hstart.after (fits_stem hk)

/-! ### Sources -/

/-- A constant has the name that it is stored under, and is declared by a module that exists.  If
that is not the module that stores it, this one is a copy, and declares no constant of the name. -/
structure Source (u : Universe) (k : ModuleId) (name : String) (c : Constant) : Prop where
  same : c.name = name
  declaring : u.knows c.declaringModule
  copied : c.declaringModule ≠ k →
    ∀ m c', u.ownConstant m name = some c' → c'.declaringModule ≠ k

/-- Every constant has its source. -/
def Sourced (u : Universe) : Prop :=
  ∀ k name c, u.ownConstant k name = some c → u.Source k name c

/-- The constants that there are at first are those of the class of objects. -/
theorem ownConstant_create_eq {options : Options}
    (hc : (create options).ownConstant k name = some c) :
    k = Core.object ∧ ∃ e ∈ Core.named, e.1 = name ∧
      c = { declaringModule := Core.object, name := e.1, binding := .value (.module e.2) } := by
  rcases module_create options k with hr | ⟨e, -, rfl, hr⟩
  · rw [ownConstant, hr] at hc
    cases hc
  · rw [ownConstant, hr, coreRecord] at hc
    split at hc
    · next hk =>
      obtain ⟨e, he, hec⟩ := List.mem_map.1 (Table.mem_of_find?_ofList hc)
      cases hec
      exact ⟨hk, e, he, rfl, rfl⟩
    · cases hc

/-- The class of objects declares them, and they have values. -/
theorem ownConstant_create {options : Options}
    (hc : (create options).ownConstant k name = some c) :
    k = Core.object ∧ c.declaringModule = Core.object ∧ c.name = name ∧ c.autoload? = none := by
  obtain ⟨hk, e, -, rfl, rfl⟩ := ownConstant_create_eq hc
  exact ⟨hk, rfl, rfl, rfl⟩

theorem sourced_create (options : Options) : (create options).Sourced := by
  have hknown : (create options).knows Core.object := Nat.lt_of_sub_eq_succ rfl
  intro k name c hc
  obtain ⟨rfl, hd, hn, -⟩ := ownConstant_create hc
  exact ⟨hn, hd ▸ hknown, fun hne => absurd hd hne⟩

/-- Only a constant that is stored already may be declared by another module. -/
theorem Stem.declaring {place? : Option (ModuleId × String)} (h : Stem u place? k name c) :
    (∃ s c₀, u.ownConstant s name = some c₀ ∧ (s = k ∨ ¬u.knows k) ∧ c.name = c₀.name ∧
      c.declaringModule = c₀.declaringModule) ∨
    (u.knows k ∧ c.declaringModule = k ∧ c.name = name) := by
  cases h with
  | kept h from_ => exact .inl ⟨k, _, h, .inl rfl, from_.name, from_.declaring⟩
  | made free hk declaring same => exact .inr ⟨hk, declaring, same⟩
  | registered h hk declaring same => exact .inr ⟨hk, declaring, same⟩
  | copied hk h from_ => exact .inl ⟨_, _, h, .inr hk, from_.name, from_.declaring⟩

theorem Sourced.step (hu : u.Sourced) (hnext : u.nextId ≤ v.nextId)
    {place? : Option (ModuleId × String)} (h : Stores (Stem u place?) as v) : v.Sourced := by
  intro k name c hc
  rcases (h.constants k name c hc).declaring with ⟨s, c₀, hc₀, hs, hn, hd⟩ | ⟨hk, hd, hn⟩
  · have hsource := hu s name c₀ hc₀
    have hknown := hd ▸ knows_mono hnext hsource.declaring
    refine ⟨hn.trans hsource.same, hknown, fun hne m c' hc' he => ?_⟩
    rcases (h.constants m name c' hc').declaring with ⟨t, c₁, hc₁, -, -, hd₁⟩ | ⟨-, hd₁, -⟩
    · rw [hd₁] at he
      rcases hs with rfl | hnew
      · exact hsource.copied (hd ▸ hne) t c₁ hc₁ he
      · exact hnew (he ▸ (hu t name c₁ hc₁).declaring)
    · -- then it is the constant itself that was made there
      obtain rfl := hd₁.symm.trans he
      cases hc.symm.trans hc'
      exact hne hd₁
  · exact ⟨hn, hd.symm ▸ knows_mono hnext hk, fun hne => absurd hd hne⟩

theorem Arises.sourced (h : Arises u) : u.Sourced :=
  h.induction sourced_create fun _ _ hr hv hk _ =>
    hv.step ((Leads.of_move hk).nextId hr.wellFormed) (stores_after hk)

end Universe

end ObjectModel
