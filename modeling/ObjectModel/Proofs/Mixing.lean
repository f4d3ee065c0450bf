import ObjectModel.Proofs.Spine
import ObjectModel.Proofs.Steadiness

/-!
# Mixing in

What including and prepending do to the universe: one chain takes in what it has not yet, and
everything else stays.

* `mem_weaveIncluded`, `mem_weavePrepended`: the members of a list after weaving;
* `Mixable`, `prependable`: when mixing in passes the checks, and the modules that prepending
  brings along;
* `Rechains`: the replacement of one chain, which mixing in is;
* `mem_mixins_including`, `mem_mixins_prepending`: the chain afterwards;
* `Leads.follows`, `Reachable.wellFormed`: what every run of moves keeps;
* `ApartFromSelf`: no module is mixed into itself.
-/

namespace ObjectModel

/-! ### Weaving -/

section Weaving

variable {skip : ModuleId → Bool} {w : Weave} {k m : ModuleId} {ms : List ModuleId}

namespace Weave

theorem mem_flush : k ∈ w.flush.modules ↔ k ∈ w.modules ∨ k ∈ w.waiting := by
  have hsplit : k ∈ w.modules ↔ k ∈ w.modules.take w.position ∨ k ∈ w.modules.drop w.position := by
    rw [← List.mem_append, List.take_append_drop]
  simp only [flush, List.mem_append, hsplit]
  constructor
  · rintro ((h | h) | h)
    · exact .inl (.inl h)
    · exact .inr h
    · exact .inl (.inr h)
  · rintro ((h | h) | h)
    · exact .inl (.inl h)
    · exact .inr h
    · exact .inl (.inr h)

/-- A module added to an included part is there afterwards, or waits, unless it is skipped. -/
theorem mem_addIncluded :
    (k ∈ (w.addIncluded skip m).modules ∨ k ∈ (w.addIncluded skip m).waiting) ↔
    k ∈ w.modules ∨ k ∈ w.waiting ∨ k = m ∧ skip m = false := by
  unfold addIncluded
  split
  · next hm =>
    show k ∈ w.flush.modules ∨ k ∈ [] ↔ _
    rw [mem_flush]
    constructor
    · rintro ((h | h) | h)
      · exact .inl h
      · exact .inr (.inl h)
      · cases h
    · rintro (h | h | ⟨rfl, _⟩)
      · exact .inl (.inl h)
      · exact .inl (.inr h)
      · exact .inl (.inl hm)
  · split
    · next hs => simp [hs]
    · next hs => simp [hs]

theorem mem_addPrepended : k ∈ (w.addPrepended skip m).modules ↔
    k ∈ w.modules ∨ k = m ∧ skip m = false := by
  unfold addPrepended
  split
  · next hm =>
    constructor
    · exact .inl
    · rintro (h | ⟨rfl, _⟩)
      · exact h
      · exact hm
  · split
    · next hs => simp [hs]
    · next hs =>
      show k ∈ ({ w with waiting := [m] } : Weave).flush.modules ↔ _
      rw [mem_flush]
      simp [hs]

end Weave

theorem mem_foldl_addIncluded :
    (k ∈ (ms.foldl (Weave.addIncluded skip) w).modules ∨
      k ∈ (ms.foldl (Weave.addIncluded skip) w).waiting) ↔
    k ∈ w.modules ∨ k ∈ w.waiting ∨ k ∈ ms ∧ skip k = false := by
  induction ms generalizing w with
  | nil => simp
  | cons m ms ih =>
    rw [List.foldl_cons, ih, ← or_assoc, Weave.mem_addIncluded, List.mem_cons]
    constructor
    · rintro ((h | h | ⟨rfl, hs⟩) | ⟨h, hs⟩)
      · exact .inl h
      · exact .inr (.inl h)
      · exact .inr (.inr ⟨.inl rfl, hs⟩)
      · exact .inr (.inr ⟨.inr h, hs⟩)
    · rintro (h | h | ⟨rfl | h, hs⟩)
      · exact .inl (.inl h)
      · exact .inl (.inr (.inl h))
      · exact .inl (.inr (.inr ⟨rfl, hs⟩))
      · exact .inr ⟨h, hs⟩

/-- Weaving into an included part loses nothing and takes in all that is not skipped. -/
theorem mem_weaveIncluded {included : List ModuleId} :
    k ∈ weaveIncluded skip included ms ↔ k ∈ included ∨ k ∈ ms ∧ skip k = false := by
  unfold weaveIncluded
  rw [Weave.mem_flush, mem_foldl_addIncluded]
  simp

/-- Weaving into a prepended part loses nothing and takes in all that is not skipped. -/
theorem mem_weavePrepended {prepended : List ModuleId} :
    k ∈ weavePrepended skip prepended ms ↔ k ∈ prepended ∨ k ∈ ms ∧ skip k = false := by
  unfold weavePrepended
  suffices h : ∀ w : Weave, k ∈ (ms.foldl (Weave.addPrepended skip) w).modules ↔
      k ∈ w.modules ∨ k ∈ ms ∧ skip k = false from h _
  intro w
  induction ms generalizing w with
  | nil => simp
  | cons m ms ih =>
    rw [List.foldl_cons, ih, Weave.mem_addPrepended, List.mem_cons]
    constructor
    · rintro ((h | ⟨rfl, hs⟩) | ⟨h, hs⟩)
      · exact .inl h
      · exact .inr ⟨.inl rfl, hs⟩
      · exact .inr ⟨.inr h, hs⟩
    · rintro (h | ⟨rfl | h, hs⟩)
      · exact .inl (.inl h)
      · exact .inl (.inr ⟨rfl, hs⟩)
      · exact .inr ⟨h, hs⟩

end Weaving

namespace Universe

variable {u v : Universe} {m n k : ModuleId}

/-! ### The checks -/

/-- Mixing `n` into `m` passes the checks. -/
def Mixable (u : Universe) (m n : ModuleId) : Prop :=
  u.immutable? m = none ∧ (u.module n).isClass = false ∧ u.includes n m = false

instance (u : Universe) (m n : ModuleId) : Decidable (u.Mixable m n) :=
  decidable_of_iff ((u.immutable? m).isNone ∧ (u.module n).isClass = false ∧ u.includes n m = false)
    (by rw [Mixable, Option.isNone_iff_eq_none])

theorem not_fixed_of_immutable? (h : u.immutable? m = none) : ¬(u.module m).Fixed := by
  unfold immutable? at h
  rintro (hf | hs)
  · simp [hf] at h
  · simp only [hs, if_true] at h
    split at h <;> cases h

theorem checkMixin_apply (m n : ModuleId) (e : Error) (u : Universe) :
    checkMixin m n e u =
      match u.immutable? m with
      | some e' => .error e' u
      | none =>
        if (u.module n).isClass then .error .classNotMixin u
        else if u.includes n m then .error e u else .ok () u := by
  unfold checkMixin checkMutable
  rw [Update.bind_apply, Update.get_bind]
  cases u.immutable? m with
  | some e' => rfl
  | none =>
    show (get >>= _ : Update Unit) u = _
    rw [Update.get_bind]
    dsimp only
    cases (u.module n).isClass with
    | true => rfl
    | false => cases u.includes n m <;> rfl

/-- What follows the checks happens where they pass; otherwise nothing does. -/
theorem final_checkMixin_bind (m n : ModuleId) (e : Error) (f : Unit → Update Unit)
    (u : Universe) :
    Update.final (checkMixin m n e >>= f) u =
      if u.Mixable m n then Update.final (f ()) u else u := by
  rw [Update.final_bind, checkMixin_apply]
  by_cases h : u.Mixable m n
  · obtain ⟨hm, hc, hi⟩ := id h
    rw [if_pos h, hm]
    simp only [hc, hi, Bool.false_eq_true, if_false]
  · rw [if_neg h]
    cases hm : u.immutable? m with
    | some e' => rfl
    | none =>
      cases hc : (u.module n).isClass with
      | true => simp
      | false =>
        cases hi : u.includes n m with
        | true => simp
        | false => exact absurd ⟨hm, hc, hi⟩ h

/-! ### Replacing a chain -/

/-- The second universe is the first with the chain of a module replaced. -/
structure Rechains (u v : Universe) (m : ModuleId) (c : Chain) : Prop where
  nextId : v.nextId = u.nextId
  objects : v.objects = u.objects
  others : ∀ k, k ≠ m → v.modules.find? k = u.modules.find? k
  self : v.module m = u.module m ∧ (u.module m).chain = c ∨
    v.module m = (u.module m).updateChain fun _ => c

namespace Rechains

variable {c : Chain}

theorem other (h : Rechains u v m c) (hk : k ≠ m) : v.module k = u.module k := by
  rw [module, h.others k hk, module]

theorem chain_self (h : Rechains u v m c) : (v.module m).chain = c := by
  rcases h.self with ⟨he, hc⟩ | he
  · rw [he, hc]
  · rw [he]
    rfl

theorem chain_other (h : Rechains u v m c) (hk : k ≠ m) :
    (v.module k).chain = (u.module k).chain := by
  rw [h.other hk]

theorem parent (h : Rechains u v m c) (hp : c.parent = (u.module m).chain.parent) (k : ModuleId) :
    (v.module k).chain.parent = (u.module k).chain.parent := by
  by_cases hk : k = m
  · rw [hk, h.chain_self, hp]
  · rw [h.chain_other hk]

theorem kind (h : Rechains u v m c) (k : ModuleId) : (v.module k).kind = (u.module k).kind := by
  by_cases hk : k = m
  · subst hk
    rcases h.self with ⟨he, -⟩ | he <;> rw [he]
    rfl
  · rw [h.other hk]

theorem methods_self (h : Rechains u v m c) : (v.module m).methods = (u.module m).methods := by
  rcases h.self with ⟨he, -⟩ | he
  · rw [he]
  · rw [he]
    rfl

theorem spine (h : Rechains u v m c) (hp : c.parent = (u.module m).chain.parent) (k : ModuleId) :
    v.spine k = u.spine k :=
  spine_congr fun o _ => h.parent hp o

theorem follows (h : Rechains u v m c) (hp : c.parent = (u.module m).chain.parent)
    (hf : ¬(u.module m).Fixed) : u.Follows v where
  nextId := Nat.le_of_eq h.nextId.symm
  modules k _ := by
    by_cases hk : k = m
    · subst hk
      rcases h.self with ⟨he, -⟩ | he
      · rw [he]
        exact .refl _
      · rw [he]
        refine ⟨rfl, hp, id, Nat.le_succ _, fun he => ?_, fun he => ?_, fun _ hs => hs⟩
        · exact absurd he (Nat.succ_ne_self _)
        · rcases he with he | hr
          · exact absurd he (Nat.succ_ne_self _)
          · exact absurd hr hf
    · rw [h.other hk]
      exact .refl _
  objects o _ := by
    rw [object, object, h.objects]
    exact .refl _

theorem wellFormed (h : Rechains u v m c) (hu : u.WellFormed)
    (hp : c.parent = (u.module m).chain.parent) (hc : ∀ k ∈ c.mixins, u.knows k)
    (hm : u.knows m) : v.WellFormed := by
  have hle : u.nextId ≤ v.nextId := Nat.le_of_eq h.nextId.symm
  have hback (k) (hk : v.knows k) : u.knows k := Nat.lt_of_lt_of_eq hk h.nextId
  constructor
  · exact Nat.lt_of_lt_of_le hu.core hle
  · intro k hk
    have hr := hu.modules k (hback k hk)
    refine Module.known_mono hle ?_
    by_cases hkm : k = m
    · subst hkm
      rcases h.self with ⟨he, -⟩ | he
      · exact he.symm ▸ hr
      · rw [he]
        exact ⟨hc, fun p hq => hr.parent p (hp ▸ hq), hr.methods, hr.refinements, hr.singleton,
          hr.constants⟩
    · rw [h.other hkm]
      exact hr
  · intro k p hk hq
    rw [h.parent hp] at hq
    exact hu.older k p (hback k hk) hq
  · intro k hk
    have hk' : ¬u.knows k := fun he => hk (knows_mono hle he)
    have hkm : k ≠ m := fun he => hk' (he ▸ hm)
    rw [h.others k hkm, hu.strangers k hk']
  · intro o ho
    rw [object, h.objects]
    exact Object.known_mono hle (hu.objects o (Nat.lt_of_lt_of_eq ho h.nextId))
  · intro o ho
    rw [h.objects]
    exact hu.objectStrangers o fun he => ho (Nat.lt_of_lt_of_le he hle)

end Rechains

/-! ### Including and prepending -/

/-- The chain of `m` after `n` is included. -/
def chainIncluding (u : Universe) (m n : ModuleId) : Chain :=
  { (u.module m).chain with included := u.includedAfter m n }

/-- The chain of `m` after `n` is prepended. -/
def chainPrepending (u : Universe) (m n : ModuleId) : Chain :=
  { (u.module m).chain with prepended := u.prependedAfter m n }

/-- The modules that prepending `n` brings along. -/
def prependable (u : Universe) (n : ModuleId) : List ModuleId :=
  (u.walk n).takeWhile fun k => !(u.module k).isClass

theorem rechains_report {c : Chain} (h : Rechains u v m c) (e : Universe → Event) :
    Rechains u (reportNow e v).2 m c :=
  ⟨h.nextId, h.objects, h.others, h.self⟩

theorem rechains_modifyModule (u : Universe) (m : ModuleId) (c : Chain) :
    Rechains u (u.modifyModule m (·.updateChain fun _ => c)) m c where
  nextId := rfl
  objects := rfl
  others _ hk := Table.find?_insert_of_ne _ (fun he => hk he.symm) _
  self := .inr (module_setModule_self _ _ _)

theorem rechains_refl {c : Chain} (h : (u.module m).chain = c) : Rechains u u m c :=
  ⟨rfl, rfl, fun _ _ => rfl, .inl ⟨rfl, h⟩⟩

theorem after_of_not_mixable (h : ¬u.Mixable m n) :
    u.after (.includeModule m n) = u ∧ u.after (.prependModule m n) = u := by
  unfold after Move.run includeModule prependModule
  simp only [final_checkMixin_bind, if_neg h, and_self]

theorem rechains_include (h : u.Mixable m n) :
    Rechains u (u.after (.includeModule m n)) m (u.chainIncluding m n) := by
  unfold after Move.run includeModule
  rw [final_checkMixin_bind, if_pos h]
  show Rechains u (Update.final (if _ then _ else _) u) m _
  split
  · exact rechains_report (rechains_modifyModule u m (u.chainIncluding m n)) _
  · next he =>
    rw [Decidable.not_not] at he
    exact rechains_refl (congrArg (fun l => { (u.module m).chain with included := l }) he.symm)

theorem rechains_prepend (h : u.Mixable m n) :
    Rechains u (u.after (.prependModule m n)) m (u.chainPrepending m n) := by
  unfold after Move.run prependModule
  rw [final_checkMixin_bind, if_pos h]
  show Rechains u (Update.final (if _ then _ else _) u) m _
  split
  · exact rechains_report (rechains_modifyModule u m (u.chainPrepending m n)) _
  · next he =>
    rw [Decidable.not_not] at he
    exact rechains_refl (congrArg (fun l => { (u.module m).chain with prepended := l }) he.symm)

/-- Including brings in what is not prepended, nor inherited through the parent. -/
theorem mem_mixins_including : k ∈ (u.chainIncluding m n).mixins ↔
    k ∈ (u.module m).chain.mixins ∨ k ∈ u.ancestors n ∧
      ((u.module m).chain.parent.any fun p => u.includes p k) = false := by
  simp only [chainIncluding, includedAfter, Chain.mixins, List.mem_append, mem_weaveIncluded,
    List.mem_filter]
  by_cases hp : k ∈ (u.module m).chain.prepended
  · simp [hp]
  · simp [hp]

/-- Prepending brings in what is not included. -/
theorem mem_mixins_prepending : k ∈ (u.chainPrepending m n).mixins ↔
    k ∈ (u.module m).chain.mixins ∨ k ∈ u.prependable n := by
  have hms : u.prependedAfter m n = weavePrepended (u.module m).chain.included.contains
      (u.module m).chain.prepended (u.prependable n) := rfl
  simp only [chainPrepending, hms, Chain.mixins, List.mem_append, mem_weavePrepended]
  by_cases hi : k ∈ (u.module m).chain.included
  · simp [hi]
  · simp [hi]

theorem prependable_subset_ancestors (h : k ∈ u.prependable n) : k ∈ u.ancestors n := by
  rw [ancestors_eq_walk, List.mem_eraseDups]
  exact (List.takeWhile_sublist _).mem h

/-! ### What runs keep -/

/-- Every move leads to a well-formed later state. -/
theorem after_follows (hu : u.WellFormed) {mv : Move} (hk : mv.Known u) :
    (u.after mv).WellFormed ∧ u.Follows (u.after mv) := by
  have hmixed {m n : ModuleId} {c : Chain} {v : Universe} (hm : u.knows m) (hmix : u.Mixable m n)
      (h : Rechains u v m c) (hp : c.parent = (u.module m).chain.parent)
      (hc : ∀ k ∈ c.mixins, k ∈ (u.module m).chain.mixins ∨ k ∈ u.ancestors n) (hn : u.knows n) :
      v.WellFormed ∧ u.Follows v := by
    refine ⟨h.wellFormed hu hp (fun k hk => ?_) hm, h.follows hp (not_fixed_of_immutable? hmix.1)⟩
    rcases hc k hk with hk | hk
    · exact (hu.modules m hm).mixins k hk
    · exact knows_ancestors hu hn hk
  by_cases hm : mv.Mixes
  · cases mv with
    | includeModule m n =>
      by_cases h : u.Mixable m n
      · refine hmixed hk.1 h (rechains_include h) rfl (fun k hc => ?_) hk.2
        exact (mem_mixins_including.1 hc).imp_right And.left
      · rw [(after_of_not_mixable h).1]
        exact ⟨hu, .refl u⟩
    | prependModule m n =>
      by_cases h : u.Mixable m n
      · refine hmixed hk.1 h (rechains_prepend h) rfl (fun k hc => ?_) hk.2
        exact (mem_mixins_prepending.1 hc).imp_right prependable_subset_ancestors
      · rw [(after_of_not_mixable h).2]
        exact ⟨hu, .refl u⟩
    | _ => exact absurd hm id
  · have h := drifts_after hu hk hm
    exact ⟨h.wellFormed, h.follows⟩

/-- A run of moves leads to a well-formed later state. -/
theorem Leads.follows (h : Leads u v) (hu : u.WellFormed) : v.WellFormed ∧ u.Follows v := by
  refine Leads.induction (motive := fun v => v.WellFormed ∧ u.Follows v) ⟨hu, .refl u⟩ ?_ h
  intro w mv ⟨hw, huw⟩ hk
  obtain ⟨hw', hf⟩ := after_follows hw hk
  exact ⟨hw', huw.trans hf⟩

/-- What runs of moves reach is well-formed. -/
theorem Reachable.wellFormed (h : Reachable u) : u.WellFormed := by
  obtain ⟨options, ho⟩ := h
  exact (ho.follows (wellFormed_create options)).1

/-! ### Own places -/

/-- No module is mixed into itself. -/
def ApartFromSelf (u : Universe) : Prop := ∀ m, m ∉ (u.module m).chain.mixins

theorem apartFromSelf_create (options : Options) : (create options).ApartFromSelf := by
  intro m hm
  have hcore : ∀ e ∈ coreChains, e.1 ∉ e.2.2.mixins := by decide
  rcases module_create options m with hr | ⟨e, he, rfl, hr⟩
  · rw [hr] at hm
    cases hm
  · rw [hr, coreRecord_chain] at hm
    exact hcore e he hm

/-- A new module is in no chain that existed. -/
theorem apartFromSelf_drift (h : Drifts u v) (hu : u.WellFormed) (ha : u.ApartFromSelf) :
    v.ApartFromSelf := by
  intro m hm
  by_cases hum : u.knows m
  · rw [h.chain m hum] at hm
    exact ha m hm
  · by_cases hvm : v.knows m
    · rcases h.born m hum hvm with hn | ⟨s, hs, hc⟩
      · rw [hn] at hm
        cases hm
      · rw [hc] at hm
        exact hum ((hu.modules s hs).mixins m hm)
    · rw [h.wellFormed.module_stranger hvm] at hm
      cases hm

/-- Nothing that inherits from a module is mixed into it. -/
theorem apartFromSelf_rechains {c : Chain} (h : Rechains u v m c) (hmix : u.Mixable m n)
    (hc : ∀ k ∈ c.mixins, k ∈ (u.module m).chain.mixins ∨ k ∈ u.ancestors n)
    (ha : u.ApartFromSelf) : v.ApartFromSelf := by
  intro k hk
  by_cases hkm : k = m
  · subst hkm
    rw [h.chain_self] at hk
    rcases hc k hk with hk | hk
    · exact ha k hk
    · have hin : u.includes n k = true := List.contains_iff_mem.2 hk
      rw [hmix.2.2] at hin
      cases hin
  · rw [h.chain_other hkm] at hk
    exact ha k hk

theorem apartFromSelf_after (hu : u.WellFormed) (ha : u.ApartFromSelf) {mv : Move}
    (hk : mv.Known u) : (u.after mv).ApartFromSelf := by
  by_cases hm : mv.Mixes
  · cases mv with
    | includeModule m n =>
      by_cases h : u.Mixable m n
      · exact apartFromSelf_rechains (rechains_include h) h
          (fun k hc => (mem_mixins_including.1 hc).imp_right And.left) ha
      · rwa [(after_of_not_mixable h).1]
    | prependModule m n =>
      by_cases h : u.Mixable m n
      · exact apartFromSelf_rechains (rechains_prepend h) h
          (fun k hc => (mem_mixins_prepending.1 hc).imp_right prependable_subset_ancestors) ha
      · rwa [(after_of_not_mixable h).2]
    | _ => exact absurd hm id
  · exact apartFromSelf_drift (drifts_after hu hk hm) hu ha

theorem Reachable.apartFromSelf (h : Reachable u) : u.ApartFromSelf := by
  obtain ⟨options, ho⟩ := h
  refine (Leads.induction (motive := fun v => v.WellFormed ∧ v.ApartFromSelf)
    ⟨wellFormed_create options, apartFromSelf_create options⟩ ?_ ho).2
  intro w mv ⟨hw, ha⟩ hk
  exact ⟨(after_follows hw hk).1, apartFromSelf_after hw ha hk⟩

end Universe

end ObjectModel
