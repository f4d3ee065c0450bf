import Mathlib.Data.List.TakeWhile
import ObjectModel.Proofs.Including

/-!
# Prepending as merging

A module that another one is prepended to takes in what is not in its chain yet, in front of
itself.  What is prepended is not its linearization but its walk, which may meet a module more than
once.  Where it does, a module can come to stand before one that it follows in the linearization.

* `Detours`: the walk of the prepended module meets a new module right behind a repeated one;
* `prependedAfter_again`: what was prepended is woven in already;
* `MergesPrepended`, `mergesPrepended_of_prepend`: what prepending does to linearizations, and when
  it keeps their order;
* `not_detours_of_parentless`: only refinements can bring their modules out of order;
* `mergesPrepended_sharedMixin`: a module that has some of what is prepended to it;
* `not_sameOrder_repeatedMixin`: a refinement that includes what the refined module includes as
  well.
-/

namespace ObjectModel.Universe

variable {u v : Universe} {m n k x : ModuleId}

/-- The walk of the prepended module, without what the other one includes, comes from a module that
is met again to one that is not prepended yet. -/
def Detours (u : Universe) (m n : ModuleId) : Prop :=
  ObjectModel.Detours (u.module m).chain.prepended []
    ((u.walk n).filter fun k => !(u.module m).chain.included.contains k)

/-- What prepending one module to another does to linearizations. -/
structure MergesPrepended (u v : Universe) (m n : ModuleId) : Prop where
  /-- A module inherits from what it inherited from, and from what the prepended one does. -/
  merged : ∀ k, k ∈ v.ancestors m ↔ k ∈ u.ancestors m ∨ k ∈ u.ancestors n
  included : (v.module m).chain.included = (u.module m).chain.included
  /-- What was prepended already keeps its order. -/
  prepended : ((u.module m).chain.prepended).Sublist (v.module m).chain.prepended
  /-- What is new to the chain comes before the module. -/
  before : ∀ k ∈ u.ancestors n, k ∉ u.ownChain m → [k, m].Sublist (v.ancestors m)
  /-- A prepended part that is in the order of what is prepended stays in that order, unless the
  walk makes a detour. -/
  sameOrder : SameOrder (u.module m).chain.prepended (u.ancestors n) →
    (SameOrder (v.module m).chain.prepended (u.ancestors n) ↔ ¬u.Detours m n)
  /-- Prepending once more changes nothing at all. -/
  again : prependModule m n v = .ok () v

/-- Where no class is among the ancestors, prepending brings the whole walk along. -/
theorem prependable_eq_walk (h : ∀ k ∈ u.ancestors n, (u.module k).isClass = false) :
    u.prependable n = u.walk n := by
  refine List.takeWhile_eq_self_iff.2 fun k hk => ?_
  rw [h k (by rwa [ancestors_eq_walk, List.mem_eraseDups])]
  rfl

theorem mem_prependable_iff (h : ∀ k ∈ u.ancestors n, (u.module k).isClass = false) :
    k ∈ u.prependable n ↔ k ∈ u.ancestors n := by
  rw [prependable_eq_walk h, ancestors_eq_walk, List.mem_eraseDups]

theorem prependedAfter_eq (u : Universe) (m n : ModuleId) :
    u.prependedAfter m n = weavePrepended (u.module m).chain.included.contains
      (u.module m).chain.prepended (u.prependable n) := rfl

/-- What was prepended is woven in already. -/
theorem prependedAfter_again (h : u.Mixable m n) :
    (u.after (.prependModule m n)).prependedAfter m n = u.prependedAfter m n := by
  have hr := rechains_prepend h
  have hprependable : (u.after (.prependModule m n)).prependable n = u.prependable n := by
    rw [prependable, hr.walk_of_not_mem_spine rfl (not_mem_spine_of_mixable h), prependable]
    exact congrArg (List.takeWhile · _) (funext fun k => by rw [isClass_of_kind (hr.kind k)])
  rw [prependedAfter_eq, hr.chain_self, hprependable]
  refine weavePrepended_eq_self fun k hk => ?_
  show k ∈ u.prependedAfter m n ∨ (u.module m).chain.included.contains k = true
  cases hi : (u.module m).chain.included.contains k with
  | true => exact .inr rfl
  | false => exact .inl (mem_weavePrepended.2 (.inr ⟨hk, hi⟩))

/-- Prepending what is woven in already changes nothing. -/
theorem prependModule_of_settled (h : u.Mixable m n)
    (hs : u.prependedAfter m n = (u.module m).chain.prepended) :
    prependModule m n u = .ok () u := by
  rw [prependModule, checkMixin_bind h, Update.get_bind]
  show (if _ then _ else _ : Update Unit) _ = _
  rw [if_neg (not_not_intro hs)]
  rfl

/-- The prepended part stays in order exactly if there is no detour. -/
theorem sameOrder_prependedAfter (hu : u.MixesOnce)
    (hn : ∀ k ∈ u.ancestors n, (u.module k).isClass = false)
    (h : SameOrder (u.module m).chain.prepended (u.ancestors n)) :
    SameOrder (u.prependedAfter m n) (u.ancestors n) ↔ ¬u.Detours m n := by
  have hapart {prepended : List ModuleId}
      (hnodup : (prepended ++ (u.module m).chain.included).Nodup) :
      ∀ k ∈ prepended, (u.module m).chain.included.contains k = false := fun k hk => by
    have hout : k ∉ (u.module m).chain.included := fun hi =>
      (List.nodup_append.1 hnodup).2.2 k hk k hi rfl
    simpa using hout
  have hold := hapart (hu m)
  have hnew : ∀ k ∈ u.prependedAfter m n, (u.module m).chain.included.contains k = false :=
    hapart (nodup_chainPrepending hu m n)
  have hmet : (u.ancestors n).filter (fun k => !(u.module m).chain.included.contains k) =
      ((u.walk n).filter fun k => !(u.module m).chain.included.contains k).eraseDups := by
    rw [ancestors_eq_walk, filter_eraseDups]
  have hbefore := (sameOrder_filter fun k hk => congrArg (!·) (hold k hk)).2 h
  rw [← sameOrder_filter fun k hk => congrArg (!·) (hnew k hk)]
  simp only [hmet] at hbefore ⊢
  rw [prependedAfter_eq, prependable_eq_walk hn, weavePrepended_filter hold,
    sameOrder_weavePrepended (List.nodup_append.1 (hu m)).1, and_iff_right hbefore]
  rfl

/-- Prepending one module to another merges linearizations, and keeps their order exactly as far
as there is no detour. -/
theorem mergesPrepended_of_prepend (hu : Reachable u) (hm : u.knows m) (hn : u.knows n)
    (hplain : ∀ k ∈ u.ancestors n, (u.module k).isClass = false)
    (h : prependModule m n u = .ok () v) : MergesPrepended u v m n := by
  have hmix : u.Mixable m n := mixable_of_checkMixin_ok h
  obtain rfl : u.after (.prependModule m n) = v := after_of_run_ok h
  have hr := rechains_prepend hmix
  have hv : Reachable (u.after (.prependModule m n)) := hu.leads (.of_move ⟨hm, hn⟩)
  have hprepended : ((u.after (.prependModule m n)).module m).chain.prepended =
      u.prependedAfter m n := by
    rw [hr.chain_self]
    rfl
  constructor
  · intro k
    have hk := includes_prepending hmix m k
    rw [and_iff_right (self_mem_spine u m), mem_prependable_iff hplain] at hk
    simpa [includes] using hk
  · rw [hr.chain_self]
    rfl
  · rw [hprepended]
    exact sublist_weavePrepended _ _ _
  · intro k hk hout
    have hfront : k ∈ ((u.after (.prependModule m n)).module m).chain.prepended := by
      rw [hprepended]
      have hi : k ∉ (u.module m).chain.included := fun hi =>
        hout (mem_ownChain.2 (.inr (List.mem_append_right _ hi)))
      exact mem_weavePrepended.2 (.inr ⟨(mem_prependable_iff hplain).2 hk, by simpa using hi⟩)
    obtain ⟨rest, hrest⟩ := ancestors_eq_prepended hv.mixesOnce hv.apartFromSelf m
    rw [hrest]
    exact (List.singleton_sublist.2 hfront).append (List.singleton_sublist.2 List.mem_cons_self)
  · intro hsame
    rw [hprepended]
    exact sameOrder_prependedAfter hu.mixesOnce hplain hsame
  · exact prependModule_of_settled (hr.mixable rfl hmix)
      ((prependedAfter_again hmix).trans hprepended.symm)

/-- The walk of a module without a parent repeats nothing, so it makes no detour. -/
theorem not_detours_of_parentless (hu : Reachable u) (hn : (u.module n).chain.parent = none) :
    ¬u.Detours m n := by
  have hspine : u.spine n = [n] := by rw [spine, hn]
  have hwalk : u.walk n = u.ownChain n := by rw [walk_eq_spine, hspine, List.flatMap_singleton]
  refine not_detours_of_nodup (List.Nodup.filter _ ?_)
  rw [hwalk]
  exact nodup_ownChain hu.mixesOnce hu.apartFromSelf n

theorem mergesPrepended_sharedMixin :
    MergesPrepended ((create {}).afterAll sharedMixin)
      ((create {}).afterAll (sharedMixin ++ [.prependModule ⟨12⟩ ⟨13⟩])) ⟨12⟩ ⟨13⟩ ∧
      SameOrder (((create {}).afterAll (sharedMixin ++
          [.prependModule ⟨12⟩ ⟨13⟩])).module ⟨12⟩).chain.prepended
        (((create {}).afterAll sharedMixin).ancestors ⟨13⟩) := by
  have hmerges : MergesPrepended ((create {}).afterAll sharedMixin)
      ((create {}).afterAll (sharedMixin ++ [.prependModule ⟨12⟩ ⟨13⟩])) ⟨12⟩ ⟨13⟩ := by
    rw [afterAll_append]
    refine mergesPrepended_of_prepend reachable_sharedMixin (by decide +kernel) (by decide +kernel)
      (by decide +kernel) ?_
    exact Update.eq_ok (by decide +kernel)
  exact ⟨hmerges, (hmerges.sameOrder (by decide +kernel)).2
    (not_detours_of_parentless reachable_sharedMixin (by decide +kernel))⟩

/-- A refinement that includes what the refined module includes as well, and a class. -/
def repeatedMixin : List Move := [.newModule, .newModule, .newModule, .newModule,
  .openRefinement ⟨15⟩ ⟨12⟩, .includeModule ⟨16⟩ ⟨14⟩, .includeModule ⟨12⟩ ⟨13⟩,
  .includeModule ⟨12⟩ ⟨14⟩, .newClass none]

/-- Prepended to the class, it brings the last module that it includes before one that the
linearization has first. -/
theorem not_sameOrder_repeatedMixin :
    Reachable ((create {}).afterAll repeatedMixin) ∧
      (∀ k ∈ ((create {}).afterAll repeatedMixin).ancestors ⟨16⟩,
        (((create {}).afterAll repeatedMixin).module k).isClass = false) ∧
      ((create {}).afterAll repeatedMixin).allSucceed [.prependModule ⟨17⟩ ⟨16⟩] ∧
      SameOrder (((create {}).afterAll repeatedMixin).module ⟨17⟩).chain.prepended
        (((create {}).afterAll repeatedMixin).ancestors ⟨16⟩) ∧
      ¬SameOrder (((create {}).afterAll (repeatedMixin ++
          [.prependModule ⟨17⟩ ⟨16⟩])).module ⟨17⟩).chain.prepended
        (((create {}).afterAll repeatedMixin).ancestors ⟨16⟩) := by
  refine ⟨(Reachable.create {}).afterAll _ ⟨trivial, trivial, trivial, trivial, ⟨?_, ?_⟩, ⟨?_, ?_⟩,
    ⟨?_, ?_⟩, ⟨?_, ?_⟩, nofun, trivial⟩, ?_, ?_, ?_, ?_⟩
  all_goals decide +kernel

end ObjectModel.Universe
