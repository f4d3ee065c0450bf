import ObjectModel.Proofs.Overtaking
import ObjectModel.Proofs.SuperGuarding

/-!
# Overtaken super searches

A super search in a universe with a module more, which has an entry for the name: at every step it
gives that entry or what it gave without the module.  So it gives the entry once it meets the
module behind the declaring one.

* `Joined`: a universe with such a module somewhere in a chain;
* `Joined.superTables`, `Joined.superRefinements`: stretches of the search, with the module and
  without;
* `Joined.superMethod_of_met`, `Joined.superMethod_of_visit`: the search gives the entry where it
  meets the module among the ancestors, or at one of them.
-/

namespace ObjectModel.Universe

variable {u v : Universe} {target : SuperTarget} {f g : Method} {passed : Bool}
  {a k m o p r : ModuleId} {pre post ms ms' rs : List ModuleId} {name : String}

/-- The second universe has a module more in a chain, with an entry for a name. -/
structure Joined (u v : Universe) (o p : ModuleId) (pre post : List ModuleId) (name : String)
    (g : Method) : Prop where
  spliced : Spliced u v o p pre post
  table : ∀ k, u.knows k → v.ownMethod k name = u.ownMethod k name
  entry : v.ownMethod p name = some g
  version : ∀ k, u.knows k → k ≠ o → (v.module k).methodsVersion = (u.module k).methodsVersion

theorem Overtaken.joined (h : u.Overtaken v o p name g) :
    Joined u v o p [] (u.ownChain o) name g :=
  ⟨h.fronted, h.table, h.entry, h.version⟩

/-! ### Steps of a search -/

/-- No refinements are in force for a module that does not exist. -/
theorem mergedRefinements_stranger (hf : f.Known u) (hp : ¬u.knows p) :
    mergedRefinements (u.superTarget f) p = [] := by
  have hnone {c : Context} (hc : c.Known u) : c.refinementsFor p = [] := by
    unfold Context.refinementsFor
    cases hr : c.refinements.find? p with
    | none => rfl
    | some rs => exact absurd (hc.refinementsKnown p rs hr).1 hp
  have hactive : activeFor f.active p = [] := by
    cases hc : f.active with
    | none => rfl
    | some c => exact hnone (hf.active c hc)
  show f.context.refinementsFor p ++ (activeFor f.active p).filter _ = []
  rw [hnone hf.context, hactive]
  rfl

/-- A search that found nothing at an ancestor goes on behind it. -/
theorem superMethod_go (ms : List ModuleId)
    (hr : (u.superRefinements target m passed (mergedRefinements target m)).method = none)
    (hb : ((u.superRefinements target m passed (mergedRefinements target m)).passed &&
      u.hasEntry target.name m) = false) :
    (u.superMethod target passed (m :: ms)).Agrees
      (u.superMethod target
        ((u.superRefinements target m passed (mergedRefinements target m)).passed ||
          m == target.declaring) ms) := by
  rw [superMethod]
  simp only [hr]
  cases hp : (u.superRefinements target m passed (mergedRefinements target m)).passed with
  | false => exact ⟨rfl, rfl⟩
  | true =>
    rw [hp, Bool.true_and, hasEntry, Option.isSome_eq_false_iff, Option.isNone_iff_eq_none] at hb
    rw [if_pos rfl, hb]
    exact ⟨rfl, rfl⟩

theorem of_superMethod_eq_none (h : (u.superMethod target passed (m :: ms)).method = none) :
    (u.superRefinements target m passed (mergedRefinements target m)).method = none ∧
      ((u.superRefinements target m passed (mergedRefinements target m)).passed &&
        u.hasEntry target.name m) = false := by
  rw [superMethod_cons] at h
  cases hr : (u.superRefinements target m passed (mergedRefinements target m)).method with
  | some e =>
    rw [hr] at h
    cases h
  | none =>
    rw [hr] at h
    refine ⟨rfl, Bool.eq_false_iff.2 fun hb => ?_⟩
    simp only [hb, if_true] at h
    rw [Bool.and_eq_true, hasEntry, h] at hb
    cases hb.2

/-- A stretch without an end gives nothing. -/
theorem superMethod_eq_none (ms' : List ModuleId)
    (h : ∀ k ∈ ms, u.superEnds target passed (ms ++ ms') k = false) :
    (u.superMethod target passed ms).method = none := by
  induction ms generalizing passed with
  | nil => rfl
  | cons m ms ih =>
    have hends (k : ModuleId) : u.superEnds target passed (m :: (ms ++ ms')) k = _ :=
      superEnds.eq_2 ..
    have hhere := h m List.mem_cons_self
    rw [List.cons_append, hends] at hhere
    split at hhere
    · simp at hhere
    · next hgo =>
      rw [Bool.or_eq_true, not_or, Bool.not_eq_true, Bool.not_eq_true,
        Option.isSome_eq_false_iff, Option.isNone_iff_eq_none] at hgo
      rw [(superMethod_go _ hgo.1 hgo.2).1]
      refine ih fun k hk => ?_
      have hthere := h k (List.mem_cons_of_mem m hk)
      rwa [List.cons_append, hends, hgo.1, hgo.2, Option.isSome_none, Bool.or_self,
        if_neg Bool.false_ne_true] at hthere

/-- A search that gives nothing passes the declaring module if it is in the order. -/
theorem passed_superMethod (h : (u.superMethod target passed ms).method = none) :
    (u.superMethod target passed ms).passed =
      (passed || (u.superOrder target ms).contains target.declaring) := by
  induction ms generalizing passed with
  | nil => simp [superMethod, superOrder]
  | cons m ms ih =>
    obtain ⟨hr, hb⟩ := of_superMethod_eq_none h
    have hgo := superMethod_go ms hr hb
    rw [hgo.1] at h
    rw [hgo.2, ih h, passed_superRefinements hr]
    simp only [superOrder, List.flatMap_cons, List.contains_append, List.contains_cons,
      List.contains_nil, Bool.or_false, Bool.or_assoc]
    rw [BEq.comm]

/-- Before the declaring module is passed, nothing is found. -/
theorem superMethod_of_not_behind
    (h : behind false target.declaring (u.superOrder target ms) = []) :
    (u.superMethod target false ms).method = none := by
  have hnil : tablesOf (u.superMethod target false ms).assumptions = [] := by
    have hsub := tables_superMethod_sublist u target false ms
    rw [h] at hsub
    exact List.sublist_nil.1 hsub
  have hends := endsAt_superMethod u target false ms
  rw [hnil] at hends
  cases hm : (u.superMethod target false ms).method with
  | none => rfl
  | some e =>
    rw [hm] at hends
    obtain ⟨init, s, -, hinit, -⟩ := hends
    simp at hinit

/-! ### With a module more -/

namespace Joined

section Ancestors

variable (h : Joined u v o p pre post name g) (hu : u.WellFormed)
include h hu

theorem ancestors_filter (hk : u.knows k) :
    (v.ancestors k).filter (fun b => !b == p) = u.ancestors k := by
  rw [ancestors_eq_walk, filter_eraseDups, h.spliced.walk_filter hu hk, ancestors_eq_walk]

theorem knows_of_mem_ancestors (hk : u.knows k) {b : ModuleId} (hb : b ∈ v.ancestors k)
    (hne : b ≠ p) : u.knows b := by
  rw [ancestors_eq_walk, List.mem_eraseDups] at hb
  exact h.spliced.knows_of_mem_walk hu hk hb hne

theorem part_filter (ha : u.knows a) (hr : u.knows r) :
    (v.refinementPart r a).filter (fun b => !b == p) = u.refinementPart r a := by
  have hpa : (p != a) = true := by simpa using (h.spliced.ne ha).symm
  rw [refinementPart, refinementPart, ← h.ancestors_filter hu hr,
    takeWhile_filter_ne (q := (· != a)) hpa]

end Ancestors

section Stretches

variable (target : SuperTarget) (h : Joined u v o p pre post target.name g)
include h

/-- Along tables, the entry is found, or what was found without it. -/
theorem superTables (passed : Bool) (hd : p ≠ target.declaring) (hms : ∀ k ∈ ms, k ≠ p → u.knows k) :
    (v.superTables target passed ms).method = some g ∨
      (v.superTables target passed ms).Agrees
        (u.superTables target passed (ms.filter fun b => !b == p)) := by
  induction ms generalizing passed with
  | nil => exact .inr ⟨rfl, rfl⟩
  | cons m ms ih =>
    have ih (b : Bool) := ih b fun k hk => hms k (List.mem_cons_of_mem m hk)
    rw [Universe.superTables]
    by_cases hm : m = p
    · subst hm
      rw [List.filter_cons_of_neg (by simp)]
      cases passed with
      | true =>
        rw [if_pos rfl, h.entry]
        exact .inl rfl
      | false =>
        rw [if_neg Bool.false_ne_true, beq_false_of_ne hd]
        exact ih false
    · rw [List.filter_cons_of_pos (by simp [hm]), Universe.superTables,
        h.table m (hms m List.mem_cons_self hm)]
      cases passed with
      | true =>
        rw [if_pos rfl, if_pos rfl]
        cases u.ownMethod m target.name with
        | some e => exact .inr ⟨rfl, rfl⟩
        | none => exact (ih true).imp_right (·.after _ _)
      | false =>
        rw [if_neg Bool.false_ne_true, if_neg Bool.false_ne_true]
        exact ih _

/-- So it is in the part of a refinement. -/
theorem superPart (passed : Bool) (hu : u.WellFormed) (hd : p ≠ target.declaring)
    (ha : u.knows a) (hr : u.knows r) :
    (v.superTables target passed (v.refinementPart r a)).method = some g ∨
      (v.superTables target passed (v.refinementPart r a)).Agrees
        (u.superTables target passed (u.refinementPart r a)) := by
  have hknown (k : ModuleId) (hk : k ∈ v.refinementPart r a) (hne : k ≠ p) : u.knows k :=
    h.knows_of_mem_ancestors hu hr ((List.takeWhile_sublist _).mem hk) hne
  have hpart := superTables target h passed hd hknown
  rwa [h.part_filter hu ha hr] at hpart

/-- And along refinements. -/
theorem superRefinements (passed : Bool) (hu : u.WellFormed) (hd : p ≠ target.declaring)
    (hg : g.undefined = false) (ha : u.knows a) (hrs : ∀ r ∈ rs, u.knows r) :
    (v.superRefinements target a passed rs).method = some g ∨
      (v.superRefinements target a passed rs).Agrees
        (u.superRefinements target a passed rs) := by
  induction rs generalizing passed with
  | nil => exact .inr ⟨rfl, rfl⟩
  | cons r rs ih =>
    rw [Universe.superRefinements, Universe.superRefinements]
    rcases superPart target h passed hu hd ha (hrs r List.mem_cons_self) with hp | ⟨hp, hq⟩
    · left
      simp only [hp, Option.filter, Method.isDefined, hg, Bool.not_false, if_true]
    · simp only [hp, hq]
      cases (u.superTables target passed (u.refinementPart r a)).method.filter
          Method.isDefined with
      | some e => exact .inr ⟨rfl, rfl⟩
      | none =>
        dsimp only
        split
        · exact .inr ⟨rfl, rfl⟩
        · exact (ih _ fun k hk => hrs k (List.mem_cons_of_mem r hk)).imp_right (·.after _ _)

/-- A part that gives the entry when it is searched ends the search along refinements. -/
theorem superRefinements_of_part (hu : u.WellFormed) (hd : p ≠ target.declaring)
    (hg : g.undefined = false) (ha : u.knows a) (hrs : ∀ r ∈ rs, u.knows r)
    (hr : (r, true) ∈ u.superParts target a passed rs)
    (hgive : (v.superTables target true (v.refinementPart r a)).method = some g) :
    (v.superRefinements target a passed rs).method = some g := by
  have hdefined : (some g).filter Method.isDefined = some g := by
    simp [Option.filter, Method.isDefined, hg]
  induction rs generalizing passed with
  | nil => cases hr
  | cons s rs ih =>
    rw [Universe.superRefinements]
    rcases List.mem_cons.1 hr with he | hr
    · cases he
      simp only [hgive, hdefined]
    · rcases superPart target h passed hu hd ha (hrs s List.mem_cons_self) with hp | ⟨hp, hq⟩
      · simp only [hp, hdefined]
      · split at hr
        · cases hr
        · next hgo =>
          rw [Bool.or_eq_true, not_or, Bool.not_eq_true, Option.isSome_eq_false_iff,
            Option.isNone_iff_eq_none] at hgo
          simp only [hp, hq, hgo.1, if_neg hgo.2]
          exact ih (fun k hk => hrs k (List.mem_cons_of_mem s hk)) hr

end Stretches

end Joined

/-! ### Meeting the module -/

section Meeting

variable (h : Joined u v o p pre post f.definedName g) (hf : f.Known u)
include h hf

theorem Joined.ne_declaring : p ≠ f.declaringModule := (h.spliced.ne hf.declaring).symm

/-- At the module itself the search ends, if the declaring module was passed. -/
theorem Joined.superMethod_self :
    ((v.superMethod (u.superTarget f) true (p :: ms)).method.map (·.visibility)) =
      some g.visibility := by
  have hentry : v.hasEntry (u.superTarget f).name p = true := by
    rw [hasEntry, show v.ownMethod p (u.superTarget f).name = some g from h.entry]
    rfl
  rw [superMethod_cons, mergedRefinements_stranger hf h.spliced.fresh]
  simp only [Universe.superRefinements, hentry, Bool.and_self, if_true]
  rw [show v.ownMethod p (u.superTarget f).name = some g from h.entry]
  rfl

/-- Otherwise it goes on as without the module. -/
theorem Joined.superMethod_skip :
    (v.superMethod (u.superTarget f) false (p :: ms)).method =
      (v.superMethod (u.superTarget f) false ms).method := by
  have hnone := mergedRefinements_stranger hf h.spliced.fresh
  have hgo : (v.superMethod (u.superTarget f) false (p :: ms)).method = _ :=
    (superMethod_go ms (by rw [hnone]; rfl) (by rw [hnone]; rfl)).1
  have hd : (p == (u.superTarget f).declaring) = false := beq_false_of_ne (h.ne_declaring hf)
  rwa [hnone, hd] at hgo

variable (hu : u.WellFormed) (hg : g.undefined = false)
include hu hg

/-- At other ancestors the search gives the entry, or goes on as without the module. -/
theorem Joined.superMethod_step (ms : List ModuleId) (hm : u.knows m)
    (hr : (u.superRefinements (u.superTarget f) m passed
      (mergedRefinements (u.superTarget f) m)).method = none)
    (hb : ((u.superRefinements (u.superTarget f) m passed
      (mergedRefinements (u.superTarget f) m)).passed && u.hasEntry f.definedName m) = false) :
    (v.superMethod (u.superTarget f) passed (m :: ms)).method.map (·.visibility) =
        some g.visibility ∨
      (v.superMethod (u.superTarget f) passed (m :: ms)).method =
        (v.superMethod (u.superTarget f) ((u.superRefinements (u.superTarget f) m passed
          (mergedRefinements (u.superTarget f) m)).passed || m == f.declaringModule) ms).method := by
  have hrefined := Joined.superRefinements (u.superTarget f) h passed hu (h.ne_declaring hf) hg hm
    fun r (hr : r ∈ mergedRefinements (u.superTarget f) m) => knows_merged hf hr
  rcases hrefined with hv | ⟨hv, hq⟩
  · left
    rw [superMethod_cons]
    simp only [hv, Option.map_some]
    unfold Method.withActive
    split <;> rfl
  · right
    have hentry : v.hasEntry f.definedName m = u.hasEntry f.definedName m := by
      rw [hasEntry, h.table m hm, hasEntry]
    have hstay : ((v.superRefinements (u.superTarget f) m passed
        (mergedRefinements (u.superTarget f) m)).passed && v.hasEntry f.definedName m) = false := by
      rw [hq, hentry, hb]
    rw [(superMethod_go ms (hv.trans hr) hstay).1, hq]
    rfl

/-- The search that passes the declaring module before it gets to the new one gives its entry. -/
theorem Joined.superMethod_of_met (hms : ∀ k ∈ ms, k ≠ p → u.knows k)
    (hnone : (u.superMethod (u.superTarget f) passed (ms.filter fun b => !b == p)).method = none)
    (hpassed : (u.superMethod (u.superTarget f) passed (ms.filter fun b => !b == p)).passed =
      true) :
    (v.superMethod (u.superTarget f) passed (ms ++ p :: ms')).method.map (·.visibility) =
      some g.visibility := by
  induction ms generalizing passed with
  | nil =>
    obtain rfl : passed = true := hpassed
    exact h.superMethod_self hf
  | cons m ms ih =>
    have hrest := fun k hk => hms k (List.mem_cons_of_mem m hk)
    rw [List.cons_append]
    by_cases hm : m = p
    · subst hm
      rw [List.filter_cons_of_neg (by simp)] at hnone hpassed
      cases passed with
      | true => exact h.superMethod_self hf
      | false =>
        rw [h.superMethod_skip hf]
        exact ih hrest hnone hpassed
    · rw [List.filter_cons_of_pos (by simp [hm])] at hnone hpassed
      obtain ⟨hr, hb⟩ := of_superMethod_eq_none hnone
      have hgo := superMethod_go (ms.filter fun b => !b == p) hr hb
      rw [hgo.1] at hnone
      rw [hgo.2] at hpassed
      rcases h.superMethod_step hf hu hg (ms ++ p :: ms') (hms m List.mem_cons_self hm) hr hb
        with hv | hv
      · exact hv
      · rw [hv]
        exact ih hrest hnone hpassed

/-- Where the refinements of an ancestor give the entry, the search gives it if it gets there. -/
theorem Joined.superMethod_of_visit {b : Bool} (hms : ∀ k ∈ ms, k ≠ p → u.knows k)
    (hx : (a, b) ∈ u.superVisits (u.superTarget f) passed (ms.filter fun k => !k == p))
    (hgive : (v.superRefinements (u.superTarget f) a b
      (mergedRefinements (u.superTarget f) a)).method = some g) :
    (v.superMethod (u.superTarget f) passed ms).method.map (·.visibility) =
      some g.visibility := by
  induction ms generalizing passed with
  | nil => cases hx
  | cons m ms ih =>
    have hrest := fun k hk => hms k (List.mem_cons_of_mem m hk)
    by_cases hm : m = p
    · subst hm
      rw [List.filter_cons_of_neg (by simp)] at hx
      cases passed with
      | true => exact h.superMethod_self hf
      | false =>
        rw [h.superMethod_skip hf]
        exact ih hrest hx
    · rw [List.filter_cons_of_pos (by simp [hm])] at hx
      rcases List.mem_cons.1 hx with he | hx
      · cases he
        rw [superMethod_cons]
        simp only [hgive, Option.map_some]
        unfold Method.withActive
        split <;> rfl
      · split at hx
        · cases hx
        · next hgo =>
          rw [Bool.or_eq_true, not_or, Bool.not_eq_true, Bool.not_eq_true,
            Option.isSome_eq_false_iff, Option.isNone_iff_eq_none] at hgo
          rcases h.superMethod_step hf hu hg ms (hms m List.mem_cons_self hm) hgo.1 hgo.2
            with hv | hv
          · exact hv
          · rw [hv]
            exact ih hrest hx

end Meeting

end ObjectModel.Universe
