import ObjectModel.Proofs.Mixing

/-!
# Descent

Mixing in checks that the module mixed in does not inherit from the one that takes it in.  The
check sees the ancestors as they are flattened at that moment, so a module that gained ancestors
after it was mixed in elsewhere can close a cycle.  Closing one is the only way in which two
modules come to inherit from each other.

* `Antisymmetric`, `OrderedByDescent`: no two modules inherit from each other, and the comparisons
  agree with that;
* `Recurs`, `Move.Closes`, `Closes`: when modules that are brought along inherit from one that they
  are brought to;
* `includes_mixed`: what inherits from what after mixing in;
* `antisymmetric_after_iff`: what one move does to antisymmetry;
* `ordered_iff_not_closes`: what a whole run does to it.
-/

namespace ObjectModel

namespace Universe

variable {u v : Universe} {m n k x : ModuleId}

/-- No two modules inherit from each other. -/
def Antisymmetric (u : Universe) : Prop := ∀ a b, u.includes a b → u.includes b a → a = b

/-- No two modules inherit from each other, lie strictly below each other, or compare as smaller
without comparing as greater the other way round. -/
structure OrderedByDescent (u : Universe) : Prop where
  includes : ∀ a b, a ≠ b → ¬(u.includes a b = true ∧ u.includes b a = true)
  isBelow? : ∀ a b, ¬(u.isBelow? a b = some true ∧ u.isBelow? b a = some true)
  compare? : ∀ a b, u.compare? a b = some .lt ↔ u.compare? b a = some .gt

theorem isBelow?_eq_true {a b : ModuleId} :
    u.isBelow? a b = some true ↔ a ≠ b ∧ u.includes a b = true := by
  unfold isBelow? descends?
  by_cases hab : a = b
  · simp [hab]
  · cases u.includes a b <;> cases u.includes b a <;> simp [hab]

theorem compare?_eq_lt {a b : ModuleId} :
    u.compare? a b = some .lt ↔ a ≠ b ∧ u.includes a b = true := by
  unfold compare? descends?
  by_cases hab : a = b
  · simp [hab]
  · cases u.includes a b <;> cases u.includes b a <;> simp [hab]

theorem compare?_eq_gt {a b : ModuleId} :
    u.compare? a b = some .gt ↔ a ≠ b ∧ u.includes a b = false ∧ u.includes b a = true := by
  unfold compare? descends?
  by_cases hab : a = b
  · simp [hab]
  · cases u.includes a b <;> cases u.includes b a <;> simp [hab]

/-- Comparisons go wrong only together with inheritance itself. -/
theorem orderedByDescent_iff : u.OrderedByDescent ↔ u.Antisymmetric := by
  constructor
  · intro h a b hab hba
    exact Decidable.by_contra fun hne => h.includes a b hne ⟨hab, hba⟩
  · intro h
    constructor
    · intro a b hne hboth
      exact hne (h a b hboth.1 hboth.2)
    · intro a b hboth
      rw [isBelow?_eq_true, isBelow?_eq_true] at hboth
      exact hboth.1.1 (h a b hboth.1.2 hboth.2.2)
    · intro a b
      rw [compare?_eq_lt, compare?_eq_gt]
      constructor
      · rintro ⟨hne, hab⟩
        refine ⟨hne.symm, ?_, hab⟩
        exact Bool.eq_false_iff.2 fun hba => hne (h a b hab hba)
      · rintro ⟨hne, -, hab⟩
        exact ⟨hne.symm, hab⟩

/-! ### Closing a cycle -/

/-- Among the modules `ms`, one has another ancestor whose walk goes along the chain of `m`. -/
def Recurs (u : Universe) (m : ModuleId) (ms : List ModuleId) : Prop :=
  ∃ k ∈ ms, ∃ x ∈ u.ancestors k, x ≠ k ∧ m ∈ u.spine x

instance (u : Universe) (m : ModuleId) (ms : List ModuleId) : Decidable (u.Recurs m ms) :=
  inferInstanceAs (Decidable (∃ k ∈ ms, ∃ x ∈ u.ancestors k, x ≠ k ∧ m ∈ u.spine x))

end Universe

/-- A move that mixes in brings modules along that inherit from one that they are brought to. -/
def Move.Closes (u : Universe) : Move → Prop
  | includeModule m n => u.Mixable m n ∧ u.Recurs m (u.ancestors n)
  | prependModule m n => u.Mixable m n ∧ u.Recurs m (u.prependable n)
  | _ => False

instance (u : Universe) (mv : Move) : Decidable (mv.Closes u) := by
  cases mv <;> unfold Move.Closes <;> infer_instance

namespace Universe

variable {u v : Universe} {m n k x : ModuleId}

/-- Some move of a run closes a cycle. -/
def Closes (u : Universe) : List Move → Prop
  | [] => False
  | mv :: mvs => mv.Closes u ∨ (u.after mv).Closes mvs

instance decidableCloses (u : Universe) : (mvs : List Move) → Decidable (u.Closes mvs)
  | [] => inferInstanceAs (Decidable False)
  | mv :: mvs =>
    have := decidableCloses (u.after mv) mvs
    inferInstanceAs (Decidable (mv.Closes u ∨ (u.after mv).Closes mvs))

/-! ### One move -/

theorem includes_of_spine (hm : m ∈ u.spine x) (h : u.includes m k = true) :
    u.includes x k = true := by
  obtain ⟨o, ho, hk⟩ := includes_iff_spine.1 h
  exact includes_iff_spine.2 ⟨o, spine_trans hm ho, hk⟩

/-- After a chain took modules in, what goes along it inherits from them, and nothing else is
new. -/
theorem includes_mixed {c : Chain} {ms : List ModuleId} (h : Rechains u v m c)
    (hp : c.parent = (u.module m).chain.parent)
    (hold : ∀ k ∈ (u.module m).chain.mixins, k ∈ c.mixins)
    (hnew : ∀ k ∈ c.mixins, k ∈ (u.module m).chain.mixins ∨ k ∈ ms)
    (hms : ∀ k ∈ ms, k ∈ c.mixins ∨ u.includes m k = true) (x k : ModuleId) :
    v.includes x k = true ↔ u.includes x k = true ∨ m ∈ u.spine x ∧ k ∈ ms := by
  have hself : k ∈ v.ownChain m ↔ k = m ∨ k ∈ c.mixins := by rw [mem_ownChain, h.chain_self]
  have hother {o : ModuleId} (ho : o ≠ m) : v.ownChain o = u.ownChain o := by
    rw [ownChain, h.chain_other ho, ownChain]
  have hkept : u.includes x k = true → v.includes x k = true := by
    rw [includes_iff_spine, includes_iff_spine, h.spine hp]
    rintro ⟨o, ho, hk⟩
    refine ⟨o, ho, ?_⟩
    by_cases hom : o = m
    · subst hom
      exact hself.2 ((mem_ownChain.1 hk).imp_right (hold k))
    · rwa [hother hom]
  constructor
  · rw [includes_iff_spine, h.spine hp]
    rintro ⟨o, ho, hk⟩
    by_cases hom : o = m
    · subst hom
      rcases hself.1 hk with rfl | hk
      · exact .inl (includes_iff_spine.2 ⟨k, ho, self_mem_ownChain u k⟩)
      · rcases hnew k hk with hk | hk
        · exact .inl (includes_iff_spine.2 ⟨o, ho, mem_ownChain.2 (.inr hk)⟩)
        · exact .inr ⟨ho, hk⟩
    · rw [hother hom] at hk
      exact .inl (includes_iff_spine.2 ⟨o, ho, hk⟩)
  · rintro (hk | ⟨hm, hk⟩)
    · exact hkept hk
    · rcases hms k hk with hk | hk
      · exact includes_iff_spine.2 ⟨m, by rwa [h.spine hp], hself.2 (.inr hk)⟩
      · exact hkept (includes_of_spine hm hk)

/-- What inherits from what after including. -/
theorem includes_including (hu : u.WellFormed) (hm : u.knows m) (h : u.Mixable m n)
    (x k : ModuleId) : (u.after (.includeModule m n)).includes x k = true ↔
      u.includes x k = true ∨ m ∈ u.spine x ∧ k ∈ u.ancestors n := by
  refine includes_mixed (rechains_include h) rfl (fun k hk => mem_mixins_including.2 (.inl hk))
    (fun k hk => (mem_mixins_including.1 hk).imp_right And.left) (fun k hk => ?_) x k
  -- what the parent brings already is left out of the chain, but inherited all the same
  cases hi : (u.module m).chain.parent.any fun p => u.includes p k with
  | false => exact .inl (mem_mixins_including.2 (.inr ⟨hk, hi⟩))
  | true =>
    obtain ⟨p, hp, hpk⟩ := (Option.any_eq_true _ _).1 hi
    have hpm : p ∈ u.spine m :=
      mem_spine_iff.2 (.inr ⟨p, hp, hu.older m p hm hp, self_mem_spine u p⟩)
    exact .inr (includes_of_spine hpm hpk)

/-- What inherits from what after prepending. -/
theorem includes_prepending (h : u.Mixable m n) (x k : ModuleId) :
    (u.after (.prependModule m n)).includes x k = true ↔
      u.includes x k = true ∨ m ∈ u.spine x ∧ k ∈ u.prependable n :=
  includes_mixed (rechains_prepend h) rfl (fun _ hk => mem_mixins_prepending.2 (.inl hk))
    (fun _ hk => mem_mixins_prepending.1 hk)
    (fun _ hk => .inl (mem_mixins_prepending.2 (.inr hk))) x k

/-- Modules brought along break antisymmetry exactly when they close a cycle.  The module mixed in
is among them and does not inherit from the one that takes it in. -/
theorem antisymmetric_mixed {ms : List ModuleId}
    (h : ∀ x k, v.includes x k = true ↔ u.includes x k = true ∨ m ∈ u.spine x ∧ k ∈ ms)
    (hn : n ∈ ms) (hms : ∀ k ∈ ms, u.includes n k = true) (hnm : u.includes n m = false) :
    v.Antisymmetric ↔ u.Antisymmetric ∧ ¬u.Recurs m ms := by
  constructor
  · intro hv
    refine ⟨fun a b hab hba => hv a b ((h a b).2 (.inl hab)) ((h b a).2 (.inl hba)), ?_⟩
    rintro ⟨k, hk, x, hx, hne, hm⟩
    have hkx : v.includes k x = true := (h k x).2 (.inl (List.contains_iff_mem.2 hx))
    exact hne (hv x k ((h x k).2 (.inr ⟨hm, hk⟩)) hkx)
  · rintro ⟨hu, hr⟩ a b hab hba
    refine Decidable.by_contra fun hne => ?_
    rcases (h a b).1 hab with hab | ⟨ha, hb⟩
    · rcases (h b a).1 hba with hba | ⟨hb, ha⟩
      · exact hne (hu a b hab hba)
      · exact hr ⟨a, ha, b, List.contains_iff_mem.1 hab, fun he => hne he.symm, hb⟩
    · rcases (h b a).1 hba with hba | ⟨hb', ha'⟩
      · exact hr ⟨b, hb, a, List.contains_iff_mem.1 hba, hne, ha⟩
      · -- both relations are new: then the module mixed in inherits from both
        refine hr ⟨n, hn, a, List.contains_iff_mem.1 (hms a ha'), fun han => ?_, ha⟩
        have := includes_of_spine (han ▸ ha) (includes_self u m)
        rw [this] at hnm
        cases hnm

theorem ownChain_drift (h : Drifts u v) (hx : u.knows x) : v.ownChain x = u.ownChain x := by
  rw [ownChain, h.chain x hx, ownChain]

/-- In a drift, the walk of what exists goes along the same chains. -/
theorem spine_drift (h : Drifts u v) (hu : u.WellFormed) (hx : u.knows x) :
    v.spine x = u.spine x :=
  spine_congr fun o ho => by rw [h.chain o (knows_spine hu hx o ho)]

theorem ancestors_drift (h : Drifts u v) (hu : u.WellFormed) (hx : u.knows x) :
    v.ancestors x = u.ancestors x :=
  ancestors_of_chains fun o ho => h.chain o (knows_spine hu hx o ho)

/-- What exists goes on inheriting from the same modules. -/
theorem includes_drift (h : Drifts u v) (hu : u.WellFormed) (hx : u.knows x) (k : ModuleId) :
    v.includes x k = u.includes x k := by
  rw [includes, ancestors_drift h hu hx, includes]

/-- In a drift, new modules are mixed into nothing: they are met on spines only. -/
theorem mem_spine_of_born (h : Drifts u v) (hu : u.WellFormed) (hk : ¬u.knows k)
    (hxk : v.includes x k = true) : k ∈ v.spine x := by
  obtain ⟨o, ho, hko⟩ := includes_iff_spine.1 hxk
  rcases mem_ownChain.1 hko with rfl | hm
  · exact ho
  · exfalso
    have hmixed {s : ModuleId} (hs : u.knows s) (hm : k ∈ (u.module s).chain.mixins) : False :=
      hk ((hu.modules s hs).mixins k hm)
    by_cases huo : u.knows o
    · rw [h.chain o huo] at hm
      exact hmixed huo hm
    · by_cases hvo : v.knows o
      · rcases h.born o huo hvo with hn | ⟨s, hs, hc⟩
        · rw [hn] at hm
          cases hm
        · rw [hc] at hm
          exact hmixed hs hm
      · rw [h.wellFormed.module_stranger hvo] at hm
        cases hm

/-- A drift neither breaks nor mends antisymmetry. -/
theorem antisymmetric_drift (h : Drifts u v) (hu : u.WellFormed) :
    v.Antisymmetric ↔ u.Antisymmetric := by
  constructor
  · intro hv a b hab hba
    -- what does not exist yet inherits from itself only
    have ha : a = b ∨ u.knows a := by
      by_cases ha : u.knows a
      · exact .inr ha
      · obtain ⟨o, ho, hb⟩ := includes_iff_spine.1 hab
        rw [mem_spine_iff, hu.module_stranger ha] at ho
        rcases ho with rfl | ⟨_, hp, _⟩
        · rw [mem_ownChain, hu.module_stranger ha] at hb
          rcases hb with rfl | hb
          · exact .inl rfl
          · cases hb
        · cases hp
    rcases ha with rfl | ha
    · rfl
    · have hb := knows_ancestors hu ha (List.contains_iff_mem.1 hab)
      exact hv a b (by rwa [includes_drift h hu ha]) (by rwa [includes_drift h hu hb])
  · intro hu' a b hab hba
    by_cases ha : u.knows a
    · rw [includes_drift h hu ha] at hab
      have hb := knows_ancestors hu ha (List.contains_iff_mem.1 hab)
      rw [includes_drift h hu hb] at hba
      exact hu' a b hab hba
    · by_cases hb : u.knows b
      · rw [includes_drift h hu hb] at hba
        exact absurd (knows_ancestors hu hb (List.contains_iff_mem.1 hba)) ha
      · -- both are new, and spines lead to older modules
        rcases le_of_mem_spine (mem_spine_of_born h hu hb hab) with rfl | hlt
        · rfl
        · rcases le_of_mem_spine (mem_spine_of_born h hu ha hba) with rfl | hgt
          · rfl
          · exact absurd hlt (Nat.lt_asymm hgt)

/-! ### Whole runs -/

/-- No class is prepended to anything. -/
def PrependsPlain (u : Universe) : Prop :=
  ∀ m, ∀ k ∈ (u.module m).chain.prepended, (u.module k).isClass = false

theorem prependsPlain_create (options : Options) : (create options).PrependsPlain := by
  intro m k hk
  have hnone : ∀ e ∈ coreChains, e.2.2.prepended = [] := by decide
  rcases module_create options m with hr | ⟨e, he, -, hr⟩
  · rw [hr] at hk
    cases hk
  · rw [hr, coreRecord_chain, hnone e he] at hk
    cases hk

theorem prependsPlain_drift (h : Drifts u v) (hu : u.WellFormed) (hp : u.PrependsPlain) :
    v.PrependsPlain := by
  have hold {s k : ModuleId} (hs : u.knows s) (hk : k ∈ (u.module s).chain.prepended) :
      (v.module k).isClass = false := by
    have hku := (hu.modules s hs).mixins k (List.mem_append_left _ hk)
    rw [isClass_of_kind (h.follows.modules k hku).kind]
    exact hp s k hk
  intro m k hk
  by_cases hm : u.knows m
  · rw [h.chain m hm] at hk
    exact hold hm hk
  · by_cases hv : v.knows m
    · rcases h.born m hm hv with hn | ⟨s, hs, hc⟩
      · have hk' : k ∈ (v.module m).chain.mixins := List.mem_append_left _ hk
        rw [hn] at hk'
        cases hk'
      · rw [hc] at hk
        exact hold hs hk
    · rw [h.wellFormed.module_stranger hv] at hk
      cases hk

/-- Mixing in prepends no class. -/
theorem prependsPlain_rechains {c : Chain} (h : Rechains u v m c) (hp : u.PrependsPlain)
    (hc : ∀ k ∈ c.prepended, (u.module k).isClass = false) : v.PrependsPlain := by
  intro o k hk
  rw [isClass_of_kind (h.kind k)]
  by_cases ho : o = m
  · subst ho
    rw [h.chain_self] at hk
    exact hc k hk
  · rw [h.chain_other ho] at hk
    exact hp o k hk

/-- A module that is no class is among those that prepending it brings along. -/
theorem self_mem_prependable (hp : u.PrependsPlain) (hn : (u.module n).isClass = false) :
    n ∈ u.prependable n := by
  have hwalk : ∃ rest, u.walk n = (u.module n).chain.prepended ++ n :: rest := by
    rw [walk_eq_spine, spine, List.flatMap_cons, ownChain, Chain.modules]
    exact ⟨_, by rw [List.append_assoc, List.cons_append]⟩
  obtain ⟨rest, hrest⟩ := hwalk
  rw [prependable, hrest, List.takeWhile_append_of_pos]
  · refine List.mem_append_right _ ?_
    rw [List.takeWhile_cons_of_pos (by simp [hn])]
    exact List.mem_cons_self
  · intro k hk
    simp [hp n k hk]

/-- A universe in which every reference is to something older is antisymmetric. -/
theorem antisymmetric_of_older (h : ∀ m, ∀ k ∈ (u.module m).chain.mixins, k.num < m.num) :
    u.Antisymmetric := by
  -- inheriting leads to older modules only
  have hle {a b : ModuleId} (hab : u.includes a b = true) : b.num ≤ a.num := by
    obtain ⟨o, ho, hb⟩ := includes_iff_spine.1 hab
    have hoa : o.num ≤ a.num := by
      rcases le_of_mem_spine ho with rfl | hlt
      · exact Nat.le_refl _
      · exact Nat.le_of_lt hlt
    rcases mem_ownChain.1 hb with rfl | hb
    · exact hoa
    · exact Nat.le_trans (Nat.le_of_lt (h o b hb)) hoa
  intro a b hab hba
  exact congrArg ModuleId.mk (Nat.le_antisymm (hle hba) (hle hab))

theorem antisymmetric_create (options : Options) : (create options).Antisymmetric := by
  refine antisymmetric_of_older fun m k hk => ?_
  rcases module_create options m with hr | ⟨e, he, rfl, hr⟩
  · rw [hr] at hk
    cases hk
  · rw [hr, coreRecord_chain] at hk
    exact (coreChains_older e he).2.1 k hk

/-- A move breaks antisymmetry exactly when it closes a cycle; no move mends it. -/
theorem antisymmetric_after_iff (hu : u.WellFormed) (hp : u.PrependsPlain) {mv : Move}
    (hk : mv.Known u) :
    (u.after mv).Antisymmetric ↔ u.Antisymmetric ∧ ¬mv.Closes u := by
  by_cases hm : mv.Mixes
  · cases mv with
    | includeModule m n =>
      by_cases h : u.Mixable m n
      · rw [antisymmetric_mixed (includes_including hu hk.1 h) (self_mem_ancestors u n)
          (fun k hk => List.contains_iff_mem.2 hk) h.2.2, Move.Closes, and_iff_right h]
      · rw [(after_of_not_mixable h).1]
        exact ⟨fun ha => ⟨ha, fun hc => h hc.1⟩, And.left⟩
    | prependModule m n =>
      by_cases h : u.Mixable m n
      · rw [antisymmetric_mixed (includes_prepending h) (self_mem_prependable hp h.2.1)
          (fun k hk => List.contains_iff_mem.2 (prependable_subset_ancestors hk)) h.2.2,
          Move.Closes, and_iff_right h]
      · rw [(after_of_not_mixable h).2]
        exact ⟨fun ha => ⟨ha, fun hc => h hc.1⟩, And.left⟩
    | _ => exact absurd hm id
  · rw [antisymmetric_drift (drifts_after hu hk hm) hu]
    refine ⟨fun ha => ⟨ha, fun hc => hm ?_⟩, And.left⟩
    cases mv with
    | includeModule m n => exact trivial
    | prependModule m n => exact trivial
    | _ => exact hc

theorem prependsPlain_after (hu : u.WellFormed) (hp : u.PrependsPlain) {mv : Move}
    (hk : mv.Known u) : (u.after mv).PrependsPlain := by
  by_cases hm : mv.Mixes
  · cases mv with
    | includeModule m n =>
      by_cases h : u.Mixable m n
      · exact prependsPlain_rechains (rechains_include h) hp (hp m)
      · rwa [(after_of_not_mixable h).1]
    | prependModule m n =>
      by_cases h : u.Mixable m n
      · refine prependsPlain_rechains (rechains_prepend h) hp fun k hk => ?_
        rcases mem_weavePrepended.1 hk with hk | ⟨hk, -⟩
        · exact hp m k hk
        · simpa using List.all_eq_true.1 List.all_takeWhile k hk
      · rwa [(after_of_not_mixable h).2]
    | _ => exact absurd hm id
  · exact prependsPlain_drift (drifts_after hu hk hm) hu hp

/-- A run keeps antisymmetry exactly when none of its moves closes a cycle. -/
theorem antisymmetric_afterAll_iff (hu : u.WellFormed) (hp : u.PrependsPlain) {mvs : List Move}
    (hk : u.AllKnown mvs) :
    (u.afterAll mvs).Antisymmetric ↔ u.Antisymmetric ∧ ¬u.Closes mvs := by
  induction mvs generalizing u with
  | nil => simp [Closes]
  | cons mv mvs ih =>
    have hu' := (after_follows hu hk.1).1
    rw [afterAll_cons, ih hu' (prependsPlain_after hu hp hk.1) hk.2,
      antisymmetric_after_iff hu hp hk.1, Closes, not_or, and_assoc]

/-- Inheritance is antisymmetric, and comparisons agree with it, exactly after the runs in which
nothing that is brought along inherits from a module that it is brought to. -/
theorem ordered_iff_not_closes (options : Options) (mvs : List Move)
    (hk : (create options).AllKnown mvs) :
    ((create options).afterAll mvs).OrderedByDescent ↔ ¬(create options).Closes mvs := by
  rw [orderedByDescent_iff,
    antisymmetric_afterAll_iff (wellFormed_create options) (prependsPlain_create options) hk]
  exact and_iff_right (antisymmetric_create options)

/-- One inclusion keeps the order. -/
theorem ordered_of_one_inclusion :
    ((create {}).afterAll [.newModule, .newModule, .includeModule ⟨12⟩ ⟨13⟩]).OrderedByDescent :=
  (ordered_iff_not_closes {} [.newModule, .newModule, .includeModule ⟨12⟩ ⟨13⟩]
    ⟨trivial, trivial, ⟨by decide +kernel, by decide +kernel⟩, trivial⟩).2 (by decide +kernel)

/-- Three inclusions in a circle all succeed: the last one sees the first module as it was before
the second inclusion.  Then the second and the third module lie below each other. -/
theorem not_ordered_of_circle :
    ∃ mvs, (create {}).AllKnown mvs ∧ (create {}).allSucceed mvs = true ∧
      ((create {}).afterAll mvs).includes ⟨13⟩ ⟨14⟩ = true ∧
      ((create {}).afterAll mvs).includes ⟨14⟩ ⟨13⟩ = true ∧
      ((create {}).afterAll mvs).isBelow? ⟨13⟩ ⟨14⟩ = some true ∧
      ((create {}).afterAll mvs).isBelow? ⟨14⟩ ⟨13⟩ = some true ∧
      ((create {}).afterAll mvs).compare? ⟨13⟩ ⟨14⟩ = some .lt ∧
      ((create {}).afterAll mvs).compare? ⟨14⟩ ⟨13⟩ = some .lt := by
  refine ⟨[.newModule, .newModule, .newModule, .includeModule ⟨12⟩ ⟨13⟩,
    .includeModule ⟨13⟩ ⟨14⟩, .includeModule ⟨14⟩ ⟨12⟩], ?_, by decide +kernel⟩
  exact ⟨trivial, trivial, trivial, ⟨by decide +kernel, by decide +kernel⟩,
    ⟨by decide +kernel, by decide +kernel⟩, ⟨by decide +kernel, by decide +kernel⟩, trivial⟩

end Universe

end ObjectModel
