import ObjectModel.Proofs.Existence

/-!
# Drift

How records change as moves are made.  What a module is and what its chain continues into stay as
they are, versions rise, and a method table or chain of a known module changes only together with
its version.  Apart from mixing in, no operation changes the chain of a module that exists.

* `Module.Follows`, `Universe.Follows`: a later state of a record, and of all records;
* `Drifts`: a later state with the chains of all modules as they were;
* `Drifts.edit`, `Drifts.birth` and their kin: the elementary changes drift.
-/

namespace ObjectModel

/-- Whether a module may not be changed any more. -/
def Module.Fixed (r : Module) : Prop := r.frozen = true ∨ r.isSealed = true

/-- The second record is a later state of the first. -/
structure Module.Follows (r r' : Module) : Prop where
  kind : r'.kind = r.kind
  parent : r'.chain.parent = r.chain.parent
  fixed : r.Fixed → r'.Fixed
  version : r.methodsVersion ≤ r'.methodsVersion
  methods : r'.methodsVersion = r.methodsVersion → r'.methods = r.methods
  chain : r'.methodsVersion = r.methodsVersion ∨ r.Fixed → r'.chain = r.chain
  singleton : ∀ s, r.singleton = some s → r'.singleton = some s

/-- The second record is a later state of the first. -/
structure Object.Follows (r r' : Object) : Prop where
  cls : r'.cls = r.cls
  singleton : ∀ s, r.singleton = some s → r'.singleton = some s

/-- The second universe is a later state of the first. -/
structure Universe.Follows (u v : Universe) : Prop where
  nextId : u.nextId ≤ v.nextId
  modules : ∀ m, u.knows m → (u.module m).Follows (v.module m)
  objects : ∀ o, u.knowsObject o → (u.object o).Follows (v.object o)

theorem isClass_of_kind {r r' : Module} (h : r'.kind = r.kind) : r'.isClass = r.isClass := by
  unfold Module.isClass
  rw [h]

/-! ### Later states -/

namespace Module.Follows

variable {r r' r'' : Module}

theorem refl (r : Module) : r.Follows r :=
  ⟨rfl, rfl, id, Nat.le_refl _, fun _ => rfl, fun _ => rfl, fun _ => id⟩

theorem trans (h : r.Follows r') (h' : r'.Follows r'') : r.Follows r'' where
  kind := h'.kind.trans h.kind
  parent := h'.parent.trans h.parent
  fixed hr := h'.fixed (h.fixed hr)
  version := Nat.le_trans h.version h'.version
  methods he := by
    have := h.version
    have := h'.version
    rw [h'.methods (by omega), h.methods (by omega)]
  chain he := by
    -- versions never fall, so equal ones at the ends are equal in between
    have := h.version
    have := h'.version
    rcases he with he | hr
    · rw [h'.chain (.inl (by omega)), h.chain (.inl (by omega))]
    · rw [h'.chain (.inr (h.fixed hr)), h.chain (.inr hr)]
  singleton s hs := h'.singleton s (h.singleton s hs)

end Module.Follows

namespace Object.Follows

variable {r r' r'' : Object}

theorem refl (r : Object) : r.Follows r := ⟨rfl, fun _ => id⟩

theorem trans (h : r.Follows r') (h' : r'.Follows r'') : r.Follows r'' where
  cls := h'.cls.trans h.cls
  singleton s hs := h'.singleton s (h.singleton s hs)

end Object.Follows

namespace Universe.Follows

variable {u v w : Universe}

theorem refl (u : Universe) : u.Follows u :=
  ⟨Nat.le_refl _, fun _ _ => .refl _, fun _ _ => .refl _⟩

theorem trans (h : u.Follows v) (h' : v.Follows w) : u.Follows w where
  nextId := Nat.le_trans h.nextId h'.nextId
  modules m hm := (h.modules m hm).trans (h'.modules m (knows_mono h.nextId hm))
  objects o ho := (h.objects o ho).trans (h'.objects o (Nat.lt_of_lt_of_le ho h.nextId))

end Universe.Follows

/-! ### Edits of a record -/

/-- A change of a record apart from its chain, with references to what exists only. -/
structure Module.Edited (u : Universe) (r r' : Module) : Prop where
  follows : r.Follows r'
  chain : r'.chain = r.chain
  known : r.Known u → r'.Known u

namespace Module.Edited

variable {u : Universe} {r : Module}

/-- A change of what lookups of methods do not read. -/
theorem of_same {r' : Module} (hk : r'.kind = r.kind) (hc : r'.chain = r.chain)
    (hm : r'.methods = r.methods) (hv : r'.methodsVersion = r.methodsVersion)
    (hf : r.Fixed → r'.Fixed) (hr : r'.refinements = r.refinements)
    (hs : r'.singleton = r.singleton) (ht : r'.constants = r.constants) : r.Edited u r' where
  follows := ⟨hk, by rw [hc], hf, Nat.le_of_eq hv.symm, fun _ => hm, fun _ => hc,
    fun s h => hs ▸ h⟩
  chain := hc
  known h := ⟨hc ▸ h.mixins, hc ▸ h.parent, hm ▸ h.methods, hr ▸ h.refinements,
    hs ▸ h.singleton, ht ▸ h.constants⟩

theorem frozen (r : Module) : r.Edited u { r with frozen := true } :=
  of_same rfl rfl rfl rfl (fun _ => .inl rfl) rfl rfl rfl

theorem isSealed (r : Module) : r.Edited u { r with isSealed := true } :=
  of_same rfl rfl rfl rfl (fun _ => .inr rfl) rfl rfl rfl

theorem name (r : Module) (s : Option String) : r.Edited u { r with name := s } :=
  of_same rfl rfl rfl rfl id rfl rfl rfl

theorem classVariables (r : Module) (t : Table String Value) :
    r.Edited u { r with classVariables := t } :=
  of_same rfl rfl rfl rfl id rfl rfl rfl

theorem constants {f : Table String Constant → Table String Constant}
    (hf : r.Known u → ∀ name c x, (f r.constants).find? name = some c → c.value? = some x →
      x.Known u) : r.Edited u (r.updateConstants f) where
  follows := ⟨rfl, rfl, id, Nat.le_refl _, fun _ => rfl, fun _ => rfl, fun _ h => h⟩
  chain := rfl
  known h := ⟨h.mixins, h.parent, h.methods, h.refinements, h.singleton, hf h⟩

theorem methods {f : Table String Method → Table String Method}
    (hf : r.Known u → ∀ name g, (f r.methods).find? name = some g → g.Known u) :
    r.Edited u (r.updateMethods f) where
  follows := ⟨rfl, rfl, id, Nat.le_succ _, fun h => absurd h (Nat.succ_ne_self _), fun _ => rfl,
    fun _ h => h⟩
  chain := rfl
  known h := ⟨h.mixins, h.parent, hf h, h.refinements, h.singleton, h.constants⟩

theorem refinement {m s : ModuleId} (hm : u.knows m) (hs : u.knows s) (r : Module) :
    r.Edited u { r with refinements := r.refinements.insert m s } where
  follows := ⟨rfl, rfl, id, Nat.le_refl _, fun _ => rfl, fun _ => rfl, fun _ h => h⟩
  chain := rfl
  known h := by
    refine ⟨h.mixins, h.parent, h.methods, fun n t ht => ?_, h.singleton, h.constants⟩
    rw [Table.find?_insert] at ht
    split at ht
    · next he =>
      cases ht
      exact ⟨he ▸ hm, hs⟩
    · exact h.refinements n t ht

theorem singleton {s : ModuleId} (hs : u.knows s) (hr : r.singleton = none) :
    r.Edited u { r with singleton := some s } where
  follows := ⟨rfl, rfl, id, Nat.le_refl _, fun _ => rfl, fun _ => rfl, fun t ht => by
    rw [hr] at ht
    cases ht⟩
  chain := rfl
  known h := by
    refine ⟨h.mixins, h.parent, h.methods, h.refinements, fun t ht => ?_, h.constants⟩
    cases ht
    exact hs

end Module.Edited

/-! ### Drifting -/

/-- The chain of a new module: nothing is mixed in, or it is the chain of an old one. -/
def Chain.Fresh (u : Universe) (c : Chain) : Prop :=
  c.mixins = [] ∨ ∃ s, u.knows s ∧ c = (u.module s).chain

/-- A well-formed later state in which the chains of all modules are as they were. -/
structure Drifts (u v : Universe) : Prop where
  wellFormed : v.WellFormed
  follows : u.Follows v
  chain : ∀ m, u.knows m → (v.module m).chain = (u.module m).chain
  born : ∀ m, ¬u.knows m → v.knows m → (v.module m).chain.Fresh u

namespace Drifts

variable {u v : Universe}

theorem refl (h : u.WellFormed) : Drifts u u :=
  ⟨h, .refl u, fun _ _ => rfl, fun _ hn hm => absurd hm hn⟩

/-- What one more change may do to the records that exist, and what it may add. -/
theorem step (h : Drifts u v) {w : Universe} (hn : v.nextId ≤ w.nextId)
    (hm : ∀ m, v.knows m → (u.knows m → (v.module m).Follows (w.module m)) ∧
      (w.module m).chain = (v.module m).chain ∧ (w.module m).Known w)
    (ho : ∀ o, v.knowsObject o → (v.object o).Follows (w.object o) ∧ (w.object o).Known w)
    (hb : ∀ m, ¬v.knows m → w.knows m → (w.module m).Known w ∧
      (∀ p, (w.module m).chain.parent = some p → p.num < m.num) ∧ (w.module m).chain.Fresh u)
    (hbo : ∀ o, ¬v.knowsObject o → w.knowsObject o → (w.object o).Known w)
    (hs : ∀ m, ¬w.knows m → w.modules.find? m = none)
    (hso : ∀ o, ¬w.knowsObject o → w.objects.find? o = none) : Drifts u w := by
  have huv := h.follows.nextId
  refine ⟨⟨Nat.lt_of_lt_of_le h.wellFormed.core hn, ?_, ?_, hs, ?_, hso⟩,
    ⟨Nat.le_trans huv hn, ?_, ?_⟩, ?_, ?_⟩
  · intro m hw
    by_cases hv : v.knows m
    · exact (hm m hv).2.2
    · exact (hb m hv hw).1
  · intro m p hw hp
    by_cases hv : v.knows m
    · rw [(hm m hv).2.1] at hp
      exact h.wellFormed.older m p hv hp
    · exact (hb m hv hw).2.1 p hp
  · intro o hw
    by_cases hv : v.knowsObject o
    · exact (ho o hv).2
    · exact hbo o hv hw
  · intro m hu
    exact (h.follows.modules m hu).trans ((hm m (Universe.knows_mono huv hu)).1 hu)
  · intro o hu
    exact (h.follows.objects o hu).trans (ho o (Nat.lt_of_lt_of_le hu huv)).1
  · intro m hu
    rw [(hm m (Universe.knows_mono huv hu)).2.1, h.chain m hu]
  · intro m hu hw
    by_cases hv : v.knows m
    · rw [(hm m hv).2.1]
      exact h.born m hu hv
    · exact (hb m hv hw).2.2

/-- A change of neither modules nor objects. -/
theorem neutral (h : Drifts u v) {w : Universe} (hm : w.modules = v.modules)
    (ho : w.objects = v.objects) (hn : w.nextId = v.nextId) : Drifts u w := by
  have hmodule (m) : w.module m = v.module m := by rw [Universe.module, hm]; rfl
  have hobject (o) : w.object o = v.object o := by rw [Universe.object, ho]; rfl
  have hle : v.nextId ≤ w.nextId := Nat.le_of_eq hn.symm
  refine h.step hle ?_ ?_ ?_ ?_ ?_ ?_
  · intro m hv
    rw [hmodule]
    exact ⟨fun _ => .refl _, rfl, Module.known_mono hle (h.wellFormed.modules m hv)⟩
  · intro o hv
    rw [hobject]
    exact ⟨.refl _, Object.known_mono hle (h.wellFormed.objects o hv)⟩
  · exact fun m hv hw => absurd (Nat.lt_of_lt_of_eq hw hn) hv
  · exact fun o hv hw => absurd (Nat.lt_of_lt_of_eq hw hn) hv
  · exact fun m hw => hm ▸ h.wellFormed.strangers m fun hv => hw (Universe.knows_mono hle hv)
  · exact fun o hw => ho ▸ h.wellFormed.objectStrangers o fun hv => hw (Nat.lt_of_lt_of_le hv hle)

/-- A change of a record apart from its chain; the record of a new module may change freely. -/
theorem rewrite (h : Drifts u v) {m : ModuleId} (hm : v.knows m) {r : Module}
    (hf : u.knows m → (v.module m).Follows r) (hc : r.chain = (v.module m).chain)
    (hk : r.Known v) : Drifts u (v.setModule m r) := by
  have hle : v.nextId ≤ (v.setModule m r).nextId := Nat.le_refl _
  refine h.step hle ?_ ?_ ?_ ?_ ?_ ?_
  · intro n hv
    rw [Universe.module_setModule]
    split
    · next he =>
      subst he
      exact ⟨hf, hc, Module.known_mono hle hk⟩
    · exact ⟨fun _ => .refl _, rfl, Module.known_mono hle (h.wellFormed.modules n hv)⟩
  · exact fun o hv => ⟨.refl _, Object.known_mono hle (h.wellFormed.objects o hv)⟩
  · exact fun n hv hw => absurd hw hv
  · exact fun o hv hw => absurd hw hv
  · intro n hv
    have hne : m ≠ n := fun he => hv (he ▸ hm)
    exact (Table.find?_insert_of_ne _ hne r).trans (h.wellFormed.strangers n hv)
  · exact h.wellFormed.objectStrangers

/-- An edit of a record. -/
theorem edit (h : Drifts u v) {m : ModuleId} (hm : v.knows m) {r : Module}
    (hr : (v.module m).Edited v r) : Drifts u (v.setModule m r) :=
  h.rewrite hm (fun _ => hr.follows) hr.chain (hr.known (h.wellFormed.modules m hm))

/-- A change of an object. -/
theorem editObject (h : Drifts u v) {o : ObjectId} (ho : v.knowsObject o) {r : Object}
    (hr : (v.object o).Follows r) (hk : r.Known v) : Drifts u (v.setObject o r) := by
  have hle : v.nextId ≤ (v.setObject o r).nextId := Nat.le_refl _
  refine h.step hle ?_ ?_ ?_ ?_ ?_ ?_
  · exact fun m hv => ⟨fun _ => .refl _, rfl, Module.known_mono hle (h.wellFormed.modules m hv)⟩
  · intro p hv
    rw [Universe.object_setObject]
    split
    · next he =>
      subst he
      exact ⟨hr, Object.known_mono hle hk⟩
    · exact ⟨.refl _, Object.known_mono hle (h.wellFormed.objects p hv)⟩
  · exact fun m hv hw => absurd hw hv
  · exact fun p hv hw => absurd hw hv
  · exact h.wellFormed.strangers
  · intro p hv
    have hne : o ≠ p := fun he => hv (he ▸ ho)
    exact (Table.find?_insert_of_ne _ hne r).trans (h.wellFormed.objectStrangers p hv)

/-- A new module. -/
theorem birth (h : Drifts u v) {r : Module} (hk : r.Known v) (hb : r.chain.Fresh u) :
    Drifts u { v.setModule ⟨v.nextId⟩ r with nextId := v.nextId + 1 } := by
  have hle : v.nextId ≤ v.nextId + 1 := Nat.le_succ _
  have hne {m : ModuleId} (hm : v.knows m) : ⟨v.nextId⟩ ≠ m := by
    rintro rfl
    exact Nat.lt_irrefl _ hm
  refine h.step hle ?_ ?_ ?_ ?_ ?_ ?_
  · intro m hv
    have he := Universe.module_setModule_of_ne v (hne hv) r
    have hf : (v.module m).Follows ((v.setModule ⟨v.nextId⟩ r).module m) := he ▸ .refl _
    refine ⟨fun _ => hf, congrArg Module.chain he, ?_⟩
    exact Module.known_mono hle (he.symm ▸ h.wellFormed.modules m hv)
  · exact fun o hv => ⟨.refl _, Object.known_mono hle (h.wellFormed.objects o hv)⟩
  · intro m hv hw
    have he : m = ⟨v.nextId⟩ :=
      congrArg ModuleId.mk (Nat.le_antisymm (Nat.le_of_lt_succ hw) (Nat.le_of_not_lt hv))
    subst he
    have he := Universe.module_setModule_self v ⟨v.nextId⟩ r
    refine ⟨?_, ?_, ?_⟩
    · exact Module.known_mono hle (he.symm ▸ hk)
    · exact fun p hp => hk.parent p ((congrArg (·.chain.parent) he).symm.trans hp)
    · exact (congrArg Module.chain he).symm ▸ hb
  · intro o hv hw
    have he := h.wellFormed.object_stranger hv
    exact he.symm ▸ Object.known_default (Nat.succ_pos _)
  · intro m hw
    have hm : ¬v.knows m := fun hv => hw (Universe.knows_mono hle hv)
    have hne : (⟨v.nextId⟩ : ModuleId) ≠ m := by
      rintro rfl
      exact hw (Nat.lt_succ_self _)
    exact (Table.find?_insert_of_ne _ hne r).trans (h.wellFormed.strangers m hm)
  · exact fun o hw => h.wellFormed.objectStrangers o fun hv => hw (Nat.lt_of_lt_of_le hv hle)

/-- A new object. -/
theorem birthObject (h : Drifts u v) {r : Object} (hk : r.Known v) :
    Drifts u { v.setObject ⟨v.nextId⟩ r with nextId := v.nextId + 1 } := by
  have hle : v.nextId ≤ v.nextId + 1 := Nat.le_succ _
  have hne {o : ObjectId} (ho : v.knowsObject o) : ⟨v.nextId⟩ ≠ o := by
    rintro rfl
    exact Nat.lt_irrefl _ ho
  refine h.step hle ?_ ?_ ?_ ?_ ?_ ?_
  · exact fun m hv => ⟨fun _ => .refl _, rfl, Module.known_mono hle (h.wellFormed.modules m hv)⟩
  · intro o hv
    have he := Universe.object_setObject v ⟨v.nextId⟩ o r
    rw [if_neg (hne hv)] at he
    have hf : (v.object o).Follows ((v.setObject ⟨v.nextId⟩ r).object o) := he ▸ .refl _
    exact ⟨hf, Object.known_mono hle (he.symm ▸ h.wellFormed.objects o hv)⟩
  · intro m hv hw
    have he : ({ v.setObject ⟨v.nextId⟩ r with nextId := v.nextId + 1 } : Universe).module m =
        default := h.wellFormed.module_stranger hv
    rw [he]
    refine ⟨Module.known_default _, fun p hp => ?_, .inl rfl⟩
    cases hp
  · intro o hv hw
    have he : o = ⟨v.nextId⟩ :=
      congrArg ObjectId.mk (Nat.le_antisymm (Nat.le_of_lt_succ hw) (Nat.le_of_not_lt hv))
    subst he
    have he := Universe.object_setObject v ⟨v.nextId⟩ ⟨v.nextId⟩ r
    rw [if_pos rfl] at he
    exact Object.known_mono hle (he.symm ▸ hk)
  · exact fun m hw => h.wellFormed.strangers m fun hv => hw (Universe.knows_mono hle hv)
  · intro o hw
    have ho : ¬v.knowsObject o := fun hv => hw (Nat.lt_of_lt_of_le hv hle)
    have hne : (⟨v.nextId⟩ : ObjectId) ≠ o := by
      rintro rfl
      exact hw (Nat.lt_succ_self _)
    exact (Table.find?_insert_of_ne _ hne r).trans (h.wellFormed.objectStrangers o ho)

/-- What is mixed into a module afterwards was mixed into one before, if there is anything. -/
theorem mixins (h : Drifts u v) (m : ModuleId) : (v.module m).chain.mixins = [] ∨
    ∃ s, u.knows s ∧ (v.module m).chain.mixins = (u.module s).chain.mixins := by
  by_cases hum : u.knows m
  · exact .inr ⟨m, hum, by rw [h.chain m hum]⟩
  · by_cases hvm : v.knows m
    · exact (h.born m hum hvm).imp_right fun ⟨s, hs, hc⟩ => ⟨s, hs, by rw [hc]⟩
    · rw [h.wellFormed.module_stranger hvm]
      exact .inl rfl

end Drifts

end ObjectModel
