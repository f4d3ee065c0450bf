import ObjectModel.Proofs.Descent
import ObjectModel.Proofs.MixedClasses

/-!
# Cohesion

A class can get into the chain of a module, with a refinement that is included there.  Then all that
the class descends from comes along, so the check for cycles keeps it out of the chains of these.

* `Cohesive`: what mixes a class in inherits from all that the class descends from, and no class is
  mixed into what it descends from;
* `spine_eq_parent`, `spine_copied`, `includes_copied`: the spine of a module that starts with the
  chain of another;
* `cohesive_after`, `Reachable.cohesive`: moves keep it that way.
-/

namespace ObjectModel.Universe

variable {u v : Universe} {m n k p s : ModuleId} {c : Chain}

/-- Classes are mixed in together with their spines, and not along them. -/
structure Cohesive (u : Universe) : Prop where
  together : ∀ m, ∀ k ∈ (u.module m).chain.mixins, (u.module k).isClass = true →
    ∀ p ∈ u.spine k, u.includes m p = true
  apart : ∀ k, (u.module k).isClass = true → ∀ p ∈ u.spine k, k ∉ (u.module p).chain.mixins

/-- A class among the ancestors of a module is there with its spine. -/
theorem Cohesive.includes_spine (h : u.Cohesive) (hk : k ∈ u.ancestors n)
    (hc : (u.module k).isClass = true) (hp : p ∈ u.spine k) : u.includes n p = true := by
  obtain ⟨o, ho, hko⟩ := mem_ancestors_iff_spine.1 hk
  rcases mem_ownChain.1 hko with rfl | hmix
  · exact includes_iff_spine.2 ⟨p, spine_trans ho hp, self_mem_ownChain u p⟩
  · exact includes_of_spine ho (h.together o k hmix hc p hp)

/-- No chain of a fresh universe has a class mixed in. -/
theorem cohesive_create (options : Options) : (create options).Cohesive := by
  refine ⟨fun m k hk hc => ?_, fun k hc p _ hk => ?_⟩
  · cases (mixesModules_create options m k hk).symm.trans hc
  · cases (mixesModules_create options p k hk).symm.trans hc

/-! ### Mixing in -/

/-- Classes that a chain takes in are ancestors of the module mixed in, which does not inherit from
the module that takes it in. -/
theorem cohesive_mixed (h : Rechains u v m c) (hmix : u.Mixable m n)
    (hp : c.parent = (u.module m).chain.parent)
    (hkept : ∀ x k, u.includes x k = true → v.includes x k = true)
    (hnew : ∀ k ∈ c.mixins, (u.module k).isClass = true → k ∈ (u.module m).chain.mixins ∨
      k ∈ u.ancestors n ∧ ∀ j, u.includes n j = true → v.includes m j = true)
    (hu : u.Cohesive) : v.Cohesive := by
  have hclass (k : ModuleId) : (v.module k).isClass = (u.module k).isClass :=
    isClass_of_kind (h.kind k)
  refine ⟨fun x k hk hc p hpk => ?_, fun k hc x hx hk => ?_⟩
  · rw [hclass] at hc
    rw [h.spine hp] at hpk
    by_cases hxm : x = m
    · subst hxm
      rw [h.chain_self] at hk
      rcases hnew k hk hc with hk | ⟨hk, hall⟩
      · exact hkept x p (hu.together x k hk hc p hpk)
      · exact hall p (hu.includes_spine hk hc hpk)
    · rw [h.chain_other hxm] at hk
      exact hkept x p (hu.together x k hk hc p hpk)
  · rw [hclass] at hc
    rw [h.spine hp] at hx
    by_cases hxm : x = m
    · subst hxm
      rw [h.chain_self] at hk
      rcases hnew k hk hc with hk | ⟨hk, -⟩
      · exact hu.apart k hc x hx hk
      · cases hmix.2.2.symm.trans (hu.includes_spine hk hc hx)
    · rw [h.chain_other hxm] at hk
      exact hu.apart k hc x hx hk

theorem cohesive_include (hw : u.WellFormed) (hm : u.knows m) (h : u.Mixable m n)
    (hu : u.Cohesive) : (u.after (.includeModule m n)).Cohesive := by
  have hincludes := includes_including hw hm h
  refine cohesive_mixed (rechains_include h) h rfl (fun x k hk => (hincludes x k).2 (.inl hk))
    (fun k hk _ => ?_) hu
  refine (mem_mixins_including.1 hk).imp_right fun ⟨hk, _⟩ => ⟨hk, fun j hj => ?_⟩
  exact (hincludes m j).2 (.inr ⟨self_mem_spine u m, List.contains_iff_mem.1 hj⟩)

/-- Prepending takes no class in. -/
theorem cohesive_prepend (h : u.Mixable m n) (hu : u.Cohesive) :
    (u.after (.prependModule m n)).Cohesive := by
  have hincludes := includes_prepending h
  refine cohesive_mixed (rechains_prepend h) h rfl (fun x k hk => (hincludes x k).2 (.inl hk))
    (fun k hk hc => ?_) hu
  refine (mem_mixins_prepending.1 hk).imp_right fun hk => ?_
  have hplain : (u.module k).isClass = false := by
    simpa using List.all_eq_true.1 List.all_takeWhile k hk
  cases hplain.symm.trans hc

/-! ### Starting with a chain -/

/-- The spine goes on along that of the parent; no parent is too young. -/
theorem spine_eq_parent (hw : u.WellFormed) (m : ModuleId) :
    u.spine m = m :: (u.module m).chain.parent.elim [] u.spine := by
  rw [spine]
  congr 1
  cases hp : (u.module m).chain.parent with
  | none => rfl
  | some p =>
    by_cases hm : u.knows m
    · exact if_pos (hw.older m p hm hp)
    · rw [hw.module_stranger hm] at hp
      cases hp

/-- A module that has the chain of an older one continues like that. -/
theorem spine_copied (h : Drifts u v) (hw : u.WellFormed) (hs : u.knows s)
    (hc : (v.module k).chain = (u.module s).chain) : v.spine k = k :: (u.spine s).tail := by
  rw [spine_eq_parent h.wellFormed, spine_eq_parent hw, List.tail_cons, hc]
  congr 1
  cases hp : (u.module s).chain.parent with
  | none => rfl
  | some p => exact spine_drift h hw ((hw.modules s hs).parent p hp)

/-- It inherits from all that the older one inherits from, which itself is replaced. -/
theorem includes_copied (h : Drifts u v) (hw : u.WellFormed) (hs : u.knows s)
    (hc : (v.module k).chain = (u.module s).chain) (hp : u.includes s p = true) (hne : p ≠ s) :
    v.includes k p = true := by
  obtain ⟨o, ho, hpo⟩ := includes_iff_spine.1 hp
  have hknown := knows_spine hw hs o ho
  have hspine : v.spine k = k :: (u.spine s).tail := spine_copied h hw hs hc
  rw [spine_eq_parent hw] at ho
  rcases List.mem_cons.1 ho with rfl | hrest
  · have hmix := (mem_ownChain.1 hpo).resolve_left hne
    exact includes_iff_spine.2 ⟨k, self_mem_spine v k, mem_ownChain.2 (.inr (hc.symm ▸ hmix))⟩
  · refine includes_iff_spine.2 ⟨o, ?_, by rwa [ownChain_drift h hknown]⟩
    rw [hspine, spine_eq_parent hw, List.tail_cons]
    exact List.mem_cons_of_mem k hrest

/-! ### Moves -/

/-- A new module is in no chain, and its own chain is one that there was. -/
theorem cohesive_drift (h : Drifts u v) (hw : u.WellFormed) (hu : u.Cohesive) : v.Cohesive := by
  have hclass {k : ModuleId} (hk : u.knows k) : (v.module k).isClass = (u.module k).isClass :=
    isClass_of_kind (h.follows.modules k hk).kind
  have hmember {x k : ModuleId} (hk : k ∈ (v.module x).chain.mixins) : u.knows k := by
    rcases h.mixins x with hm | ⟨s, hs, hm⟩ <;> rw [hm] at hk
    · cases hk
    · exact (hw.modules s hs).mixins k hk
  refine ⟨fun x k hk hc p hpk => ?_, fun k hc p hpk hk => ?_⟩
  · have hkk := hmember hk
    rw [hclass hkk] at hc
    rw [spine_drift h hw hkk] at hpk
    by_cases hx : u.knows x
    · rw [h.chain x hx] at hk
      rw [includes_drift h hw hx]
      exact hu.together x k hk hc p hpk
    · by_cases hxv : v.knows x
      · rcases h.born x hx hxv with hnone | ⟨s, hs, hchain⟩
        · rw [hnone] at hk
          cases hk
        · rw [hchain] at hk
          -- the class is not mixed into what it descends from, so the source is not in its spine
          have hne : p ≠ s := fun he => hu.apart k hc p hpk (he ▸ hk)
          exact includes_copied h hw hs hchain (hu.together s k hk hc p hpk) hne
      · rw [h.wellFormed.module_stranger hxv] at hk
        cases hk
  · have hkk := hmember hk
    rw [hclass hkk] at hc
    rw [spine_drift h hw hkk] at hpk
    rw [h.chain p (knows_spine hw hkk p hpk)] at hk
    exact hu.apart k hc p hpk hk

theorem cohesive_after (hw : u.WellFormed) (hu : u.Cohesive) {mv : Move} (hk : mv.Known u) :
    (u.after mv).Cohesive := by
  by_cases hm : mv.Mixes
  · cases mv with
    | includeModule m n =>
      by_cases h : u.Mixable m n
      · exact cohesive_include hw hk.1 h hu
      · rwa [(after_of_not_mixable h).1]
    | prependModule m n =>
      by_cases h : u.Mixable m n
      · exact cohesive_prepend h hu
      · rwa [(after_of_not_mixable h).2]
    | _ => exact absurd hm id
  · exact cohesive_drift (drifts_after hw hk hm) hw hu

theorem Reachable.cohesive (h : Reachable u) : u.Cohesive := by
  obtain ⟨options, ho⟩ := h
  refine (Leads.induction (motive := fun v => v.WellFormed ∧ v.Cohesive)
    ⟨wellFormed_create options, cohesive_create options⟩ ?_ ho).2
  intro w mv ⟨hw, hc⟩ hk
  exact ⟨(after_follows hw hk).1, cohesive_after hw hc hk⟩

end ObjectModel.Universe
