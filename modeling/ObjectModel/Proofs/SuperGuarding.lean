import ObjectModel.Proofs.Guarding
import ObjectModel.Proofs.SuperVisits

/-!
# Guarded super lookups

A super lookup notes the versions of the tables behind the declaring module only, although the
chains before that one decide where the search begins, and the chain that holds it what comes next.

* `superChains`: the modules whose own chains the search goes along, each with whether its chain
  lies behind the declaring module;
* `SuperGuarded`, `BehindGuarded`: the tables of all these modules, or of those behind the declaring
  module, were inspected, or their chains are fixed;
* `SuperCurrent`: the result can be relied on while its assumptions hold;
* `lookupSuper_of_valid`: a guarded super lookup gives the same as long as its assumptions hold.
-/

namespace ObjectModel.Universe

variable {u v : Universe} {target : SuperTarget} {f : Method} {passed : Bool}
  {a d k m o r : ModuleId} {os : List ModuleId}

/-! ### Chains that super searches go along -/

/-- Modules in the order of a spine, each with whether its own chain lies behind another module,
which may be itself. -/
def markBehind (u : Universe) (d : ModuleId) (passed : Bool) :
    List ModuleId → List (ModuleId × Bool)
  | [] => []
  | o :: os => (o, passed || o == d) :: u.markBehind d (passed || (u.ownChain o).contains d) os

/-- Where the search in the part of a refinement stops: at the refined module or at an entry behind
the declaring one. -/
def superPartStop (u : Universe) (target : SuperTarget) (a : ModuleId) (passed : Bool)
    (r k : ModuleId) : Bool :=
  k == a || u.superStop target passed (u.refinementPart r a) k

/-- The modules whose own chains the search for the next definition goes along, each with whether
its chain lies behind the declaring module. -/
def superChains (u : Universe) (f : Method) (m : ModuleId) : List (ModuleId × Bool) :=
  let target := u.superTarget f
  u.markBehind target.declaring false
      (u.entered (u.superEnds target false (u.ancestors m)) m) ++
    (u.superVisits target false (u.ancestors m)).flatMap fun x =>
      (u.superParts target x.1 x.2 (mergedRefinements target x.1)).flatMap fun y =>
        (u.entered (u.superPartStop target x.1 y.2 y.1) y.1).map fun o => (o, y.2)

/-- The table of every module whose own chain a super lookup went along was inspected too, or the
module can no longer be changed. -/
def SuperGuarded (u : Universe) (f : Method) (m : ModuleId) : Prop :=
  ∀ x ∈ u.superChains f m, x.1 ∈ (u.lookupSuper f m).tables ∨ (u.module x.1).Fixed

instance (u : Universe) (f : Method) (m : ModuleId) : Decidable (u.SuperGuarded f m) :=
  inferInstanceAs (Decidable (∀ x ∈ u.superChains f m,
    x.1 ∈ (u.lookupSuper f m).tables ∨ (u.module x.1).Fixed))

/-- The chains behind the declaring module belong to modules whose tables were inspected, or that
can no longer be changed. -/
def BehindGuarded (u : Universe) (f : Method) (m : ModuleId) : Prop :=
  ∀ x ∈ u.superChains f m, x.2 = true →
    x.1 ∈ (u.lookupSuper f m).tables ∨ (u.module x.1).Fixed

instance (u : Universe) (f : Method) (m : ModuleId) : Decidable (u.BehindGuarded f m) :=
  inferInstanceAs (Decidable (∀ x ∈ u.superChains f m, x.2 = true →
    x.1 ∈ (u.lookupSuper f m).tables ∨ (u.module x.1).Fixed))

/-- The result of a super lookup is still right wherever its assumptions still hold. -/
def SuperCurrent (u : Universe) (f : Method) (m : ModuleId) : Prop :=
  ∀ v, Leads u v → v.isValidMethod (u.lookupSuper f m) = true →
    (v.lookupSuper f m).method = (u.lookupSuper f m).method

theorem exists_mem_markBehind (passed : Bool) (ho : o ∈ os) :
    ∃ b, (o, b) ∈ u.markBehind d passed os := by
  induction os generalizing passed with
  | nil => cases ho
  | cons k os ih =>
    rcases List.mem_cons.1 ho with rfl | ho
    · exact ⟨_, List.mem_cons_self⟩
    · obtain ⟨b, hb⟩ := ih (passed || (u.ownChain k).contains d) ho
      exact ⟨b, List.mem_cons_of_mem _ hb⟩

theorem mem_of_mem_markBehind {x : ModuleId × Bool} (hx : x ∈ u.markBehind d passed os) :
    x.1 ∈ os := by
  induction os generalizing passed with
  | nil => cases hx
  | cons k os ih =>
    rcases List.mem_cons.1 hx with rfl | hx
    · exact List.mem_cons_self
    · exact List.mem_cons_of_mem k (ih hx)

theorem markBehind_append (passed : Bool) (ks os : List ModuleId) :
    u.markBehind d passed (ks ++ os) = u.markBehind d passed ks ++
      u.markBehind d (passed || (ks.flatMap u.ownChain).contains d) os := by
  induction ks generalizing passed with
  | nil => simp [markBehind]
  | cons k ks ih =>
    rw [List.cons_append, markBehind, markBehind, ih, List.flatMap_cons, List.contains_append,
      Bool.or_assoc, List.cons_append]

theorem mem_markBehind_true (ho : o ∈ os) : (o, true) ∈ u.markBehind d true os := by
  induction os with
  | nil => cases ho
  | cons k os ih =>
    rw [markBehind, Bool.true_or, Bool.true_or]
    rcases List.mem_cons.1 ho with rfl | ho
    · exact List.mem_cons_self
    · exact List.mem_cons_of_mem _ (ih ho)

theorem mem_markBehind_self (passed : Bool) (ho : o ∈ d :: os) :
    (o, true) ∈ u.markBehind d passed (d :: os) := by
  rw [markBehind, beq_self_eq_true, Bool.or_true,
    List.contains_iff_mem.2 (self_mem_ownChain u d), Bool.or_true]
  rcases List.mem_cons.1 ho with rfl | ho
  · exact List.mem_cons_self
  · exact List.mem_cons_of_mem _ (mem_markBehind_true ho)

/-! ### Existence -/

theorem knows_merged (hf : f.Known u) (hr : r ∈ mergedRefinements (u.superTarget f) a) :
    u.knows r := by
  rcases List.mem_append.1 hr with hr | hr
  · exact hf.context.refinementsFor hr
  · have hactive : r ∈ activeFor f.active a := (List.mem_filter.1 hr).1
    cases hc : f.active with
    | none =>
      rw [hc] at hactive
      cases hactive
    | some c =>
      rw [hc] at hactive
      exact (hf.active c hc).refinementsFor hactive

theorem knows_part (hu : u.WellFormed) (hr : u.knows r) (hk : k ∈ u.refinementPart r a) :
    u.knows k :=
  knows_ancestors hu hr ((List.takeWhile_sublist _).mem hk)

theorem knows_superTables (hu : u.WellFormed) (hm : u.knows m) (hf : f.Known u)
    (hk : k ∈ (u.lookupSuper f m).tables) : u.knows k := by
  have horder := mem_of_mem_behind ((tables_lookupSuper_sublist u f m).mem hk)
  obtain ⟨a, ha, hk⟩ := List.mem_flatMap.1 horder
  rcases List.mem_append.1 hk with hk | hk
  · obtain ⟨r, hr, hk⟩ := List.mem_flatMap.1 hk
    exact knows_part hu (knows_merged hf hr) hk
  · exact List.mem_singleton.1 hk ▸ knows_ancestors hu hm ha

theorem knows_superChains (hu : u.WellFormed) (hm : u.knows m) (hf : f.Known u)
    {x : ModuleId × Bool} (hx : x ∈ u.superChains f m) : u.knows x.1 := by
  rcases List.mem_append.1 hx with hx | hx
  · exact knows_spine hu hm _ (mem_of_mem_through (mem_of_mem_markBehind hx))
  · obtain ⟨y, -, hx⟩ := List.mem_flatMap.1 hx
    obtain ⟨z, hz, hx⟩ := List.mem_flatMap.1 hx
    obtain ⟨o, ho, rfl⟩ := List.mem_map.1 hx
    exact knows_spine hu (knows_merged hf (mem_of_mem_superParts hz)) _ (mem_of_mem_through ho)

/-! ### Later states -/

theorem superTarget_of_follows (hf : f.Known u) (h : u.Follows v) :
    v.superTarget f = u.superTarget f := by
  have hkind : (v.module f.declaringModule).isRefinement =
      (u.module f.declaringModule).isRefinement := by
    unfold Module.isRefinement
    rw [(h.modules _ hf.declaring).kind]
  rw [superTarget, hkind, superTarget]

theorem isValidMethod_lookupSuper : v.isValidMethod (u.lookupSuper f m) = true ↔
    ∀ k ∈ (u.lookupSuper f m).tables,
      (v.module k).methodsVersion = (u.module k).methodsVersion :=
  isValidMethod_iff (assumptions_lookupSuper u f m)

theorem nodup_ancestors (u : Universe) (m : ModuleId) : (u.ancestors m).Nodup :=
  nodup_eraseDups _

/-- How far the ancestors lead depends on the chains that their walk goes along. -/
theorem through_ancestors_congr {stop : ModuleId → Bool} (hs : v.spine m = u.spine m)
    (h : ∀ o ∈ u.entered stop m, v.ownChain o = u.ownChain o) :
    through stop (v.ancestors m) = through stop (u.ancestors m) := by
  rw [ancestors_eq_walk, ancestors_eq_walk, through_eraseDups, through_eraseDups,
    through_walk_congr hs h]

/-- What the part of a refinement gives depends on the chains that its walk goes along, and on the
tables that are inspected. -/
theorem superPart_congr (hs : v.spine r = u.spine r)
    (hchain : ∀ o ∈ u.entered (u.superPartStop target a passed r) r, v.ownChain o = u.ownChain o)
    (htable : ∀ k ∈ tablesOf (u.superTables target passed (u.refinementPart r a)).assumptions,
      v.ownMethod k target.name = u.ownMethod k target.name) :
    (v.superTables target passed (v.refinementPart r a)).Agrees
      (u.superTables target passed (u.refinementPart r a)) := by
  have hnodup : (u.refinementPart r a).Nodup :=
    (nodup_ancestors u r).sublist (List.takeWhile_sublist _)
  refine superTables_congr hnodup ?_ htable
  have hstop : (fun b => !(b != a) || u.superStop target passed (u.refinementPart r a) b) =
      u.superPartStop target a passed r := by
    funext b
    rw [superPartStop, bne, Bool.not_not]
  have hthrough (w : Universe) :
      through (u.superStop target passed (u.refinementPart r a)) (w.refinementPart r a) =
        (through (u.superPartStop target a passed r) (w.ancestors r)).takeWhile (· != a) := by
    rw [refinementPart.eq_def w, through_takeWhile, hstop]
  rw [hthrough, hthrough, through_ancestors_congr hs hchain]

/-- A guarded super lookup gives the same wherever its assumptions still hold. -/
theorem lookupSuper_of_valid (hu : u.WellFormed) (hm : u.knows m) (hf : f.Known u)
    (h : u.Follows v) (hg : u.SuperGuarded f m)
    (hv : v.isValidMethod (u.lookupSuper f m) = true) :
    (v.lookupSuper f m).method = (u.lookupSuper f m).method := by
  rw [isValidMethod_lookupSuper] at hv
  have htable (k : ModuleId) (hk : k ∈ (u.lookupSuper f m).tables) :
      v.ownMethod k f.definedName = u.ownMethod k f.definedName := by
    rw [ownMethod, ownMethod, (h.modules k (knows_superTables hu hm hf hk)).methods (hv k hk)]
  have hchain (x : ModuleId × Bool) (hx : x ∈ u.superChains f m) :
      v.ownChain x.1 = u.ownChain x.1 := by
    have hsame := (h.modules _ (knows_superChains hu hm hf hx)).chain ((hg x hx).imp_left (hv _))
    rw [ownChain, ownChain, hsame]
  show (v.superMethod (v.superTarget f) false (v.ancestors m)).method = _
  rw [superTarget_of_follows hf h]
  refine superMethod_congr (nodup_ancestors u m) ?_ (fun x hx => ?_) htable
  · refine through_ancestors_congr (spine_of_follows hu h hm) fun o ho => ?_
    obtain ⟨b, hb⟩ := exists_mem_markBehind (u := u) (d := f.declaringModule) false ho
    exact hchain (o, b) (List.mem_append_left _ hb)
  · refine superRefinements_congr fun y hy => ?_
    have hr := knows_merged hf (mem_of_mem_superParts hy)
    refine superPart_congr (spine_of_follows hu h hr) (fun o ho => ?_) fun k hk => ?_
    · refine hchain (o, y.2) (List.mem_append_right _ ?_)
      exact List.mem_flatMap.2 ⟨x, hx, List.mem_flatMap.2 ⟨y, hy, List.mem_map_of_mem ho⟩⟩
    · exact htable k (mem_tables_lookupSuper hx hy hk)

end ObjectModel.Universe
