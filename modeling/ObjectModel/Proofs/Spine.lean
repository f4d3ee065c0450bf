import ObjectModel.Proofs.Existence

/-!
# Spines

The walk of a module goes along its own chain, then along that of its parent, and so on.  The
modules whose own chains it goes along are its spine: the module, its parent, and the parents
behind.

* `spine`, `links_eq_spine`: the spine, and the walk along its chains;
* `mem_ancestors_iff_spine`: what a module inherits from is in a chain of its spine;
* `spine_trans`, `nodup_spine`, `spine_congr`: spines within spines, without repetitions, and what
  a spine depends on;
* `knows_spine`, `knows_ancestors`: in a well-formed universe both exist.
-/

namespace ObjectModel.Universe

variable {u v : Universe} {m n o : ModuleId}

/-- The modules whose own chains the walk of a module goes along. -/
def spine (u : Universe) (m : ModuleId) : List ModuleId :=
  m :: match (u.module m).chain.parent with
    | some p => if p.num < m.num then u.spine p else []
    | none => []
termination_by m.num

/-- The modules of the own chain of a module. -/
def ownChain (u : Universe) (m : ModuleId) : List ModuleId := (u.module m).chain.modules m

/-- The modules that the walk of a module meets, with repetitions. -/
def walk (u : Universe) (m : ModuleId) : List ModuleId := (u.links m).filterMap Link.module?

theorem self_mem_spine (u : Universe) (m : ModuleId) : m ∈ u.spine m := by
  rw [spine]
  exact List.mem_cons_self

/-- A member of a spine is its head, or a member of the spine of the parent. -/
theorem mem_spine_iff : o ∈ u.spine m ↔
    o = m ∨ ∃ p, (u.module m).chain.parent = some p ∧ p.num < m.num ∧ o ∈ u.spine p := by
  rw [spine, List.mem_cons]
  cases (u.module m).chain.parent with
  | none => simp
  | some p =>
    by_cases h : p.num < m.num
    · simp [h]
    · simp [h]

/-- What holds of a module, and of every parent that follows one that it holds of, holds along
the spine. -/
theorem spine_induction {P : ModuleId → Prop} {m : ModuleId} (start : P m)
    (next : ∀ k p, P k → (u.module k).chain.parent = some p → p.num < k.num → P p) :
    ∀ o ∈ u.spine m, P o := by
  intro o ho
  rcases mem_spine_iff.1 ho with rfl | ⟨p, hp, hlt, hop⟩
  · exact start
  · exact spine_induction (next m p start hp hlt) next o hop
termination_by m.num

theorem spine_trans {m : ModuleId} (h : n ∈ u.spine m) (ho : o ∈ u.spine n) : o ∈ u.spine m := by
  rcases mem_spine_iff.1 h with rfl | ⟨p, hp, hlt, hn⟩
  · exact ho
  · exact mem_spine_iff.2 (.inr ⟨p, hp, hlt, spine_trans hn ho⟩)
termination_by m.num

/-- Members of a spine are its head or older. -/
theorem le_of_mem_spine {m : ModuleId} (h : o ∈ u.spine m) : o = m ∨ o.num < m.num := by
  rcases mem_spine_iff.1 h with rfl | ⟨p, hp, hlt, ho⟩
  · exact .inl rfl
  · rcases le_of_mem_spine ho with rfl | hlt'
    · exact .inr hlt
    · exact .inr (Nat.lt_trans hlt' hlt)
termination_by m.num

theorem nodup_spine (u : Universe) (m : ModuleId) : (u.spine m).Nodup := by
  rw [spine]
  cases (u.module m).chain.parent with
  | none => simp
  | some p =>
    by_cases h : p.num < m.num
    · simp only [if_pos h]
      refine List.nodup_cons.2 ⟨fun hm => ?_, nodup_spine u p⟩
      rcases le_of_mem_spine hm with rfl | hlt
      · exact Nat.lt_irrefl _ h
      · exact Nat.lt_asymm h hlt
    · simp [if_neg h]
termination_by m.num

/-- From any of its members on, a spine is the spine of that member. -/
theorem spine_of_eq_append {m : ModuleId} {ks ls : List ModuleId} (h : u.spine m = ks ++ o :: ls) :
    u.spine o = o :: ls := by
  induction ks generalizing m with
  | nil =>
    obtain rfl : m = o := by
      rw [spine] at h
      exact (List.cons.inj h).1
    exact h
  | cons k ks ih =>
    rw [spine, List.cons_append] at h
    have hrest := (List.cons.inj h).2
    split at hrest
    · split at hrest
      · exact ih hrest
      · simp at hrest
    · simp at hrest

/-- A spine depends on the parents of its members. -/
theorem spine_congr {m : ModuleId}
    (h : ∀ o ∈ u.spine m, (v.module o).chain.parent = (u.module o).chain.parent) :
    v.spine m = u.spine m := by
  rw [spine, h m (self_mem_spine u m), spine.eq_def u m]
  cases hp : (u.module m).chain.parent with
  | none => rfl
  | some p =>
    by_cases hlt : p.num < m.num
    · have hrest : v.spine p = u.spine p :=
        spine_congr fun o ho => h o (mem_spine_iff.2 (.inr ⟨p, hp, hlt, ho⟩))
      simp only [if_pos hlt, hrest]
    · simp only [if_neg hlt]
termination_by m.num

/-! ### Walks along spines -/

/-- The walk goes along the chains of the spine. -/
theorem links_eq_spine (u : Universe) (m : ModuleId) :
    u.links m = (u.spine m).flatMap fun o => (u.module o).chain.links o := by
  rw [links, spine, List.flatMap_cons]
  cases (u.module m).chain.parent with
  | none => rfl
  | some p =>
    by_cases h : p.num < m.num
    · simp only [if_pos h, links_eq_spine u p]
    · simp only [if_neg h, List.flatMap_nil]
termination_by m.num

theorem walk_eq_spine (u : Universe) (m : ModuleId) :
    u.walk m = (u.spine m).flatMap u.ownChain := by
  rw [walk, links_eq_spine, List.filterMap_flatMap]
  simp only [Chain.filterMap_links]
  rfl

theorem ancestors_eq_walk (u : Universe) (m : ModuleId) : u.ancestors m = (u.walk m).eraseDups :=
  rfl

theorem mem_ownChain : n ∈ u.ownChain m ↔ n = m ∨ n ∈ (u.module m).chain.mixins := by
  simp only [ownChain, Chain.modules, Chain.mixins, List.mem_append, List.mem_cons]
  constructor
  · rintro (h | h | h)
    · exact .inr (.inl h)
    · exact .inl h
    · exact .inr (.inr h)
  · rintro (h | h | h)
    · exact .inr (.inl h)
    · exact .inl h
    · exact .inr (.inr h)

theorem self_mem_ownChain (u : Universe) (m : ModuleId) : m ∈ u.ownChain m :=
  mem_ownChain.2 (.inl rfl)

/-- What a module inherits from is in the own chain of a module of its spine. -/
theorem mem_ancestors_iff_spine : n ∈ u.ancestors m ↔ ∃ o ∈ u.spine m, n ∈ u.ownChain o := by
  rw [ancestors_eq_walk, List.mem_eraseDups, walk_eq_spine, List.mem_flatMap]

theorem includes_iff_spine : u.includes m n = true ↔ ∃ o ∈ u.spine m, n ∈ u.ownChain o := by
  rw [includes, List.contains_iff_mem, mem_ancestors_iff_spine]

/-- Ancestors depend on the chains of the spine. -/
theorem ancestors_of_chains (h : ∀ o ∈ u.spine m, (v.module o).chain = (u.module o).chain) :
    v.ancestors m = u.ancestors m := by
  have hspine : v.spine m = u.spine m := spine_congr fun o ho => by rw [h o ho]
  have hchains : (u.spine m).map v.ownChain = (u.spine m).map u.ownChain :=
    List.map_congr_left fun o ho => by rw [ownChain, h o ho, ownChain]
  rw [ancestors_eq_walk, ancestors_eq_walk, walk_eq_spine, walk_eq_spine, hspine,
    List.flatMap_def, hchains, List.flatMap_def]

/-! ### Existence -/

theorem knows_spine (hu : u.WellFormed) (hm : u.knows m) : ∀ o ∈ u.spine m, u.knows o :=
  spine_induction hm fun k p hk hp _ => (hu.modules k hk).parent p hp

theorem knows_ownChain (hu : u.WellFormed) (hm : u.knows m) (h : n ∈ u.ownChain m) :
    u.knows n := by
  rcases mem_ownChain.1 h with rfl | h
  · exact hm
  · exact (hu.modules m hm).mixins n h

theorem knows_ancestors (hu : u.WellFormed) (hm : u.knows m) (h : n ∈ u.ancestors m) :
    u.knows n := by
  obtain ⟨o, ho, hn⟩ := mem_ancestors_iff_spine.1 h
  exact knows_ownChain hu (knows_spine hu hm o ho) hn

end ObjectModel.Universe
