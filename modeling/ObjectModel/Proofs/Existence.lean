import ObjectModel.Proofs.Keeping

/-!
# Existence

What the records of a universe refer to exists, and parents are older than the modules whose chains
they continue.

* `Module.Known`, `Object.Known`: the references of a record;
* `Universe.WellFormed`, and `wellFormed_create`: a fresh universe is well-formed;
* `knows_mono` and its kin: what exists goes on existing.
-/

namespace ObjectModel

/-- What the record of a module refers to exists. -/
structure Module.Known (u : Universe) (r : Module) : Prop where
  mixins : ∀ m ∈ r.chain.mixins, u.knows m
  parent : ∀ p, r.chain.parent = some p → u.knows p
  methods : ∀ name f, r.methods.find? name = some f → f.Known u
  refinements : ∀ m s, r.refinements.find? m = some s → u.knows m ∧ u.knows s
  singleton : ∀ s, r.singleton = some s → u.knows s
  constants : ∀ name c x, r.constants.find? name = some c → c.value? = some x → x.Known u

/-- The classes that the record of an object refers to exist. -/
structure Object.Known (u : Universe) (r : Object) : Prop where
  cls : u.knows r.cls
  singleton : ∀ s, r.singleton = some s → u.knows s

/-- References point to what exists, and parents are older than their children.  There are no
records under numbers that are not given out yet. -/
structure Universe.WellFormed (u : Universe) : Prop where
  core : Universe.coreChains.length < u.nextId
  modules : ∀ m, u.knows m → (u.module m).Known u
  older : ∀ m p, u.knows m → (u.module m).chain.parent = some p → p.num < m.num
  strangers : ∀ m, ¬u.knows m → u.modules.find? m = none
  objects : ∀ o, u.knowsObject o → (u.object o).Known u
  objectStrangers : ∀ o, ¬u.knowsObject o → u.objects.find? o = none

theorem Module.known_default (u : Universe) : (default : Module).Known u where
  mixins _ h := nomatch h
  parent _ h := nomatch h
  methods _ _ h := nomatch h
  refinements _ _ h := nomatch h
  singleton _ h := nomatch h
  constants _ _ _ h := nomatch h

theorem Object.known_default {u : Universe} (h : 0 < u.nextId) : (default : Object).Known u where
  cls := h
  singleton _ h := nomatch h

namespace Universe.WellFormed

variable {u : Universe} (h : u.WellFormed)
include h

theorem module_stranger {m : ModuleId} (hm : ¬u.knows m) : u.module m = default := by
  rw [module, h.strangers m hm]
  rfl

theorem object_stranger {o : ObjectId} (ho : ¬u.knowsObject o) : u.object o = default := by
  rw [object, h.objectStrangers o ho]
  rfl

end Universe.WellFormed

/-! ### Growing -/

section Growing

variable {u v : Universe} (h : u.nextId ≤ v.nextId)
include h

theorem Universe.knows_mono {m : ModuleId} (hm : u.knows m) : v.knows m := Nat.lt_of_lt_of_le hm h

theorem Value.known_mono {x : Value} (hx : x.Known u) : x.Known v := by
  cases x with
  | module m => exact Universe.knows_mono h hx
  | object o => exact Nat.lt_of_lt_of_le hx h
  | nil | bool | int | symbol | string => exact trivial

theorem LexicalScope.known_mono {s : LexicalScope} (hs : s.Known u) : s.Known v :=
  fun m hm => Universe.knows_mono h (hs m hm)

theorem Context.known_mono {c : Context} (hc : c.Known u) : c.Known v where
  definee m hm := Universe.knows_mono h (hc.definee m hm)
  refined e he := Universe.knows_mono h (hc.refined e he)
  active e he r hr := Universe.knows_mono h (hc.active e he r hr)

theorem MethodBody.known_mono {b : MethodBody} (hb : b.Known u) : b.Known v := by
  cases b with
  | closure c => exact ⟨LexicalScope.known_mono h hb.1, Context.known_mono h hb.2⟩
  | code | reader | writer | unimplemented => exact trivial

theorem Method.known_mono {f : Method} (hf : f.Known u) : f.Known v where
  declaring := Universe.knows_mono h hf.declaring
  scope := LexicalScope.known_mono h hf.scope
  context := Context.known_mono h hf.context
  active c hc := Context.known_mono h (hf.active c hc)
  body := MethodBody.known_mono h hf.body

theorem Module.known_mono {r : Module} (hr : r.Known u) : r.Known v where
  mixins m hm := Universe.knows_mono h (hr.mixins m hm)
  parent p hp := Universe.knows_mono h (hr.parent p hp)
  methods name f hf := Method.known_mono h (hr.methods name f hf)
  refinements m s hs := by
    obtain ⟨hm, hs⟩ := hr.refinements m s hs
    exact ⟨Universe.knows_mono h hm, Universe.knows_mono h hs⟩
  singleton s hs := Universe.knows_mono h (hr.singleton s hs)
  constants name c x hc hx := Value.known_mono h (hr.constants name c x hc hx)

theorem Object.known_mono {r : Object} (hr : r.Known u) : r.Known v where
  cls := Universe.knows_mono h hr.cls
  singleton s hs := Universe.knows_mono h (hr.singleton s hs)

end Growing

/-! ### Methods -/

section Methods

variable {u : Universe} {f : Method}

theorem Method.known_stamp (s : Option Stamp) (hf : f.Known u) :
    ({ f with stamp := s } : Method).Known u :=
  ⟨hf.declaring, hf.scope, hf.context, hf.active, hf.body⟩

theorem Method.known_withBuiltIn (b : Bool) (hf : f.Known u) : (f.withBuiltIn b).Known u := by
  unfold Method.withBuiltIn
  split
  · exact hf
  · exact ⟨hf.declaring, hf.scope, hf.context, hf.active, hf.body⟩

theorem Method.known_withDeclaringModule {m : ModuleId} (hm : u.knows m) (hf : f.Known u) :
    (f.withDeclaringModule m).Known u := by
  unfold Method.withDeclaringModule
  split
  · exact hf
  · exact ⟨hm, hf.scope, hf.context, hf.active, hf.body⟩

theorem Method.known_withContext {c : Context} (hc : c.Known u) (hf : f.Known u) :
    (f.withContext c).Known u := by
  unfold Method.withContext
  split
  · exact hf
  · exact ⟨hf.declaring, hf.scope, hc, hf.active, hf.body⟩

/-- A reader defined in a module by code of the module itself. -/
def Method.ofReader (name ivar : String) (m : ModuleId) (v : Visibility) : Method :=
  .define name m v (.ofModule m) .toplevel (.reader ivar)

theorem Method.known_ofReader {m : ModuleId} (hm : u.knows m) (name ivar : String)
    (v : Visibility) : (Method.ofReader name ivar m v).Known u where
  declaring := hm
  scope _ hn := List.mem_singleton.1 hn ▸ hm
  context := Context.known_toplevel u
  active _ hc := nomatch hc
  body := trivial

end Methods

/-! ### The fresh universe -/

/-- What a table of listed entries gives was listed. -/
theorem Table.mem_of_find?_ofList {κ α : Type} [DecidableEq κ] {es : List (κ × α)} {k : κ} {a : α}
    (h : (Table.ofList es).find? k = some a) : (k, a) ∈ es := by
  have aux (t : Table κ α) (ht : (es.foldl (fun t e => t.insert e.1 e.2) t).find? k = some a) :
      (k, a) ∈ es ∨ t.find? k = some a := by
    clear h
    induction es generalizing t with
    | nil => exact .inr ht
    | cons e es ih =>
      rcases ih _ ht with hm | hi
      · exact .inl (List.mem_cons_of_mem e hm)
      · rw [Table.find?_insert] at hi
        split at hi
        · next he =>
          cases hi
          exact .inl (he ▸ List.mem_cons_self)
        · exact .inr hi
  rcases aux .empty h with hm | hn
  · exact hm
  · cases hn

namespace Universe

/-- The record of a module in a fresh universe is an empty one, or one of a core module. -/
theorem module_create (options : Options) (m : ModuleId) :
    (create options).module m = default ∨
      ∃ e ∈ coreChains, e.1 = m ∧ (create options).module m = coreRecord m e.2.1 e.2.2 := by
  unfold module
  cases h : (create options).modules.find? m with
  | none => exact .inl rfl
  | some r =>
    obtain ⟨e, he, hr⟩ := List.mem_map.1 (Table.mem_of_find?_ofList h)
    cases hr
    exact .inr ⟨e, he, rfl, rfl⟩

theorem coreRecord_chain (m : ModuleId) (kind : ModuleKind) (chain : Chain) :
    (coreRecord m kind chain).chain = chain := by
  unfold coreRecord
  split <;> rfl

theorem coreRecord_methods (m : ModuleId) (kind : ModuleKind) (chain : Chain) :
    (coreRecord m kind chain).methods = .empty := by
  unfold coreRecord
  split <;> rfl

theorem coreRecord_refinements (m : ModuleId) (kind : ModuleKind) (chain : Chain) :
    (coreRecord m kind chain).refinements = .empty := by
  unfold coreRecord
  split <;> rfl

theorem coreRecord_singleton (m : ModuleId) (kind : ModuleKind) (chain : Chain) :
    (coreRecord m kind chain).singleton = none := by
  unfold coreRecord
  split <;> rfl

theorem coreRecord_constants {m : ModuleId} {kind : ModuleKind} {chain : Chain} {name : String}
    {c : Constant} (h : (coreRecord m kind chain).constants.find? name = some c) :
    coreConstants.find? name = some c := by
  unfold coreRecord at h
  split at h
  · exact h
  · cases h

/-- The constants of a fresh universe are core modules. -/
theorem known_coreConstant {options : Options} {name : String} {c : Constant} {x : Value}
    (h : coreConstants.find? name = some c) (hx : c.value? = some x) :
    x.Known (create options) := by
  obtain ⟨e, he, hc⟩ := List.mem_map.1 (Table.mem_of_find?_ofList h)
  have hold : ∀ e ∈ Core.named, e.2.num < coreChains.length + 1 := by decide
  cases hc
  cases hx
  exact hold e he

/-- Core modules refer to older ones only. -/
theorem coreChains_older : ∀ e ∈ coreChains, e.1.num ≤ coreChains.length ∧
    (∀ m ∈ e.2.2.mixins, m.num < e.1.num) ∧ ∀ p ∈ e.2.2.parent, p.num < e.1.num := by
  decide

theorem wellFormed_create (options : Options) : (create options).WellFormed where
  core := Nat.lt_succ_self _
  modules m hm := by
    rcases module_create options m with hr | ⟨e, he, rfl, hr⟩
    · rw [hr]
      exact Module.known_default _
    · obtain ⟨-, hmixins, hparent⟩ := coreChains_older e he
      rw [hr]
      constructor
      · rw [coreRecord_chain]
        exact fun k hk => Nat.lt_trans (hmixins k hk) hm
      · rw [coreRecord_chain]
        exact fun p hp => Nat.lt_trans (hparent p hp) hm
      · rw [coreRecord_methods]
        exact fun _ _ h => nomatch h
      · rw [coreRecord_refinements]
        exact fun _ _ h => nomatch h
      · rw [coreRecord_singleton]
        exact fun _ h => nomatch h
      · exact fun name c x hc hx => known_coreConstant (coreRecord_constants hc) hx
  older m p hm hp := by
    rcases module_create options m with hr | ⟨e, he, rfl, hr⟩
    · rw [hr] at hp
      cases hp
    · rw [hr, coreRecord_chain] at hp
      exact (coreChains_older e he).2.2 p hp
  strangers m hm := by
    cases h : (create options).modules.find? m with
    | none => rfl
    | some r =>
      obtain ⟨e, he, hr⟩ := List.mem_map.1 (Table.mem_of_find?_ofList h)
      cases hr
      exact absurd (Nat.lt_succ_of_le (coreChains_older e he).1) hm
  objectStrangers _ _ := rfl
  objects _ _ := Object.known_default (Nat.succ_pos _)

end Universe

end ObjectModel
