import ObjectModel.Proofs.Search
import ObjectModel.Universe.SuperLookup

/-!
# Where searches end

A search for a method inspects tables one after the other.  It ends at the first table with a
defined entry, which is the one that gives the method; an undefined entry ends it too, except in
the part of a refinement.

* `EndsAt`: what a search found, as seen from the tables that it inspected;
* `endsAt_lookupMethod`, `endsAt_lookupSuper`: every lookup ends that way;
* `superOrder`, `behind`: the order of a super search, and what lies behind a module in it;
* `tables_lookupSuper_sublist`: a super search looks behind the declaring module only.
-/

namespace ObjectModel

namespace Universe

variable {u : Universe} {name : String} {a k m r : ModuleId}

/-- No table of some modules has a defined entry. -/
def Passed (u : Universe) (name : String) (ks : List ModuleId) : Prop :=
  ∀ k ∈ ks, ∀ g, u.ownMethod k name = some g → g.undefined = true

/-- A search that inspected these tables gave this method: the entry of the last one, or else none.
All that it went past have no defined entry. -/
def EndsAt (u : Universe) (name : String) (found : Option Method) (ks : List ModuleId) : Prop :=
  match found with
  | none => u.Passed name ks
  | some f => ∃ init s g, ks = init ++ [s] ∧ u.ownMethod s name = some g ∧
      f.undefined = g.undefined ∧ u.Passed name init

theorem passed_nil (u : Universe) (name : String) : u.Passed name [] := fun _ hk => nomatch hk

theorem Passed.append {ks ls : List ModuleId} (h : u.Passed name ks) (h' : u.Passed name ls) :
    u.Passed name (ks ++ ls) := by
  intro k hk
  rcases List.mem_append.1 hk with hk | hk
  · exact h k hk
  · exact h' k hk

theorem passed_singleton (h : ∀ g, u.ownMethod m name = some g → g.undefined = true) :
    u.Passed name [m] := by
  intro k hk
  rw [List.mem_singleton.1 hk]
  exact h

theorem EndsAt.prepend {found : Option Method} {ks ls : List ModuleId} (h : u.Passed name ks)
    (h' : u.EndsAt name found ls) : u.EndsAt name found (ks ++ ls) := by
  cases found with
  | none => exact Passed.append h h'
  | some f =>
    obtain ⟨init, s, g, rfl, hs, hu, hi⟩ := h'
    exact ⟨ks ++ init, s, g, (List.append_assoc _ _ _).symm, hs, hu, h.append hi⟩

/-- A found method may be noted on, as long as it stays defined or undefined. -/
theorem EndsAt.map {f g : Method} {ks : List ModuleId} (h : u.EndsAt name (some f) ks)
    (hg : g.undefined = f.undefined) : u.EndsAt name (some g) ks := by
  obtain ⟨init, s, e, hks, hs, he, hi⟩ := h
  exact ⟨init, s, e, hks, hs, hg.trans he, hi⟩

/-- An undefined method at the end counts as passed. -/
theorem EndsAt.passed {found : Option Method} {ks : List ModuleId} (h : u.EndsAt name found ks)
    (hf : found.filter Method.isDefined = none) : u.Passed name ks := by
  cases found with
  | none => exact h
  | some f =>
    obtain ⟨init, s, g, rfl, hs, he, hi⟩ := h
    refine hi.append (passed_singleton fun g' hg' => ?_)
    obtain rfl : g = g' := Option.some.inj (hs.symm.trans hg')
    rw [← he]
    simpa [Option.filter, Method.isDefined] using hf

theorem endsAt_own {f : Method} (h : u.ownMethod m name = some f) :
    u.EndsAt name (some f) [m] :=
  ⟨[], m, f, rfl, h, rfl, passed_nil u name⟩

theorem passed_of_none (h : u.ownMethod m name = none) : u.Passed name [m] :=
  passed_singleton fun g hg => by rw [h] at hg; cases hg

/-! ### Lookups -/

theorem endsAt_searchTables (u : Universe) (name : String) (ms : List ModuleId) :
    u.EndsAt name (u.searchTables name ms).method
      (tablesOf (u.searchTables name ms).assumptions) := by
  induction ms with
  | nil => exact passed_nil u name
  | cons m ms ih =>
    rw [searchTables]
    cases ho : u.ownMethod m name with
    | some f => exact endsAt_own ho
    | none =>
      rw [MethodResult.assumptions_after, tablesOf_append]
      exact ih.prepend (passed_of_none ho)

theorem endsAt_searchRefinements (u : Universe) (name : String) (a : ModuleId)
    (rs : List ModuleId) :
    u.EndsAt name (u.searchRefinements name a rs).method
      (tablesOf (u.searchRefinements name a rs).assumptions) := by
  induction rs with
  | nil => exact passed_nil u name
  | cons r rs ih =>
    have hpart := endsAt_searchTables u name (u.refinementPart r a)
    rw [searchRefinements]
    cases hd : (u.searchTables name (u.refinementPart r a)).defined? with
    | some f =>
      rw [(Option.filter_eq_some_iff.1 hd).1] at hpart
      exact hpart
    | none =>
      rw [MethodResult.assumptions_after, tablesOf_append]
      exact ih.prepend (hpart.passed hd)

theorem undefined_withActive (f : Method) (c : Context) :
    (f.withActive c).undefined = f.undefined := by
  unfold Method.withActive
  split <;> rfl

theorem undefined_foundUnder (context : Option Context) (f : Method) :
    (foundUnder context f).undefined = f.undefined := by
  cases context with
  | none => rfl
  | some c => exact undefined_withActive f c

theorem endsAt_searchMethod (u : Universe) (name : String) (context : Option Context)
    (ms : List ModuleId) :
    u.EndsAt name (u.searchMethod name context ms).method
      (tablesOf (u.searchMethod name context ms).assumptions) := by
  induction ms with
  | nil => exact passed_nil u name
  | cons a ms ih =>
    have hparts := endsAt_searchRefinements u name a (activeFor context a)
    rw [searchMethod]
    cases hr : (u.searchRefinements name a (activeFor context a)).method with
    | some f =>
      rw [hr] at hparts
      exact hparts.map (undefined_foundUnder context f)
    | none =>
      rw [hr] at hparts
      cases ho : u.ownMethod a name with
      | some f =>
        dsimp only
        rw [tablesOf_append]
        exact (endsAt_own ho).prepend hparts
      | none =>
        dsimp only
        rw [MethodResult.assumptions_after, tablesOf_append, tablesOf_append]
        exact ih.prepend (hparts.append (passed_of_none ho))

theorem endsAt_lookupMethod (u : Universe) (m : ModuleId) (name : String)
    (context : Option Context) :
    u.EndsAt name (u.lookupMethod m name context).method (u.lookupMethod m name context).tables :=
  endsAt_searchMethod u name context _

/-! ### Super lookups -/

variable {target : SuperTarget}

theorem endsAt_superTables (u : Universe) (target : SuperTarget) (passed : Bool)
    (ms : List ModuleId) :
    u.EndsAt target.name (u.superTables target passed ms).method
      (tablesOf (u.superTables target passed ms).assumptions) := by
  induction ms generalizing passed with
  | nil => exact passed_nil u target.name
  | cons m ms ih =>
    rw [superTables]
    cases passed with
    | false => exact ih _
    | true =>
      rw [if_pos rfl]
      cases ho : u.ownMethod m target.name with
      | some f => exact endsAt_own ho
      | none =>
        show u.EndsAt target.name (u.superTables target true ms).method
          (tablesOf ([u.assumeMethods m] ++ (u.superTables target true ms).assumptions))
        rw [tablesOf_append]
        exact (ih true).prepend (passed_of_none ho)

theorem endsAt_superRefinements (u : Universe) (target : SuperTarget) (a : ModuleId)
    (passed : Bool) (rs : List ModuleId) :
    u.EndsAt target.name (u.superRefinements target a passed rs).method
      (tablesOf (u.superRefinements target a passed rs).assumptions) := by
  induction rs generalizing passed with
  | nil => exact passed_nil u target.name
  | cons r rs ih =>
    have hpart := endsAt_superTables u target passed (u.refinementPart r a)
    rw [superRefinements]
    cases hd : (u.superTables target passed (u.refinementPart r a)).method.filter
        Method.isDefined with
    | some f =>
      rw [(Option.filter_eq_some_iff.1 hd).1] at hpart
      exact hpart
    | none =>
      dsimp only
      split
      · exact hpart.passed hd
      · show u.EndsAt target.name (u.superRefinements target a _ rs).method (tablesOf (_ ++ _))
        rw [tablesOf_append]
        exact (ih _).prepend (hpart.passed hd)

theorem endsAt_superMethod (u : Universe) (target : SuperTarget) (passed : Bool)
    (ms : List ModuleId) :
    u.EndsAt target.name (u.superMethod target passed ms).method
      (tablesOf (u.superMethod target passed ms).assumptions) := by
  induction ms generalizing passed with
  | nil => exact passed_nil u target.name
  | cons a ms ih =>
    have hparts := endsAt_superRefinements u target a passed (mergedRefinements target a)
    rw [superMethod]
    cases hr : (u.superRefinements target a passed (mergedRefinements target a)).method with
    | some f =>
      rw [hr] at hparts
      exact hparts.map (undefined_withActive f _)
    | none =>
      rw [hr] at hparts
      dsimp only
      split
      · cases ho : u.ownMethod a target.name with
        | some f =>
          dsimp only
          rw [tablesOf_append]
          exact (endsAt_own ho).prepend hparts
        | none =>
          show u.EndsAt target.name (u.superMethod target true ms).method (tablesOf (_ ++ _ ++ _))
          rw [tablesOf_append, tablesOf_append]
          exact (ih true).prepend (hparts.append (passed_of_none ho))
      · show u.EndsAt target.name (u.superMethod target _ ms).method (tablesOf (_ ++ _))
        rw [tablesOf_append]
        exact (ih _).prepend hparts

theorem endsAt_lookupSuper (u : Universe) (f : Method) (m : ModuleId) :
    u.EndsAt f.definedName (u.lookupSuper f m).method (u.lookupSuper f m).tables :=
  endsAt_superMethod u (u.superTarget f) false _

/-! ### The order of a super search -/

/-- What lies behind the first place of a module, or the whole list when the module was passed. -/
def behind (passed : Bool) (d : ModuleId) : List ModuleId → List ModuleId
  | [] => []
  | m :: ms => if passed then m :: ms else behind (m == d) d ms

/-- The modules that a super search goes along: each behind the parts of the refinements in force
for it. -/
def superOrder (u : Universe) (target : SuperTarget) (ms : List ModuleId) : List ModuleId :=
  ms.flatMap fun a => (mergedRefinements target a).flatMap (u.refinementPart · a) ++ [a]

theorem behind_true (d : ModuleId) (ms : List ModuleId) : behind true d ms = ms := by
  cases ms <;> simp [behind]

theorem behind_append (passed : Bool) (d : ModuleId) (ks ls : List ModuleId) :
    behind passed d (ks ++ ls) =
      behind passed d ks ++ behind (passed || ks.contains d) d ls := by
  induction ks generalizing passed with
  | nil => simp [behind]
  | cons k ks ih =>
    cases passed with
    | true => simp [behind_true]
    | false =>
      rw [List.cons_append, behind, behind, if_neg Bool.false_ne_true, if_neg Bool.false_ne_true,
        ih, List.contains_cons, Bool.false_or, BEq.comm]

theorem behind_of_not_mem {d : ModuleId} {ms : List ModuleId} (h : d ∉ ms) :
    behind false d ms = [] := by
  induction ms with
  | nil => rfl
  | cons m ms ih =>
    rw [List.mem_cons, not_or] at h
    have hm : (m == d) = false := beq_eq_false_iff_ne.2 fun he => h.1 he.symm
    rw [behind, if_neg Bool.false_ne_true, hm, ih h.2]

/-- A module that occurs once lies not behind itself. -/
theorem not_mem_behind_self {d : ModuleId} {ms : List ModuleId} (h : ms.Nodup) :
    d ∉ behind false d ms := by
  induction ms with
  | nil => exact List.not_mem_nil
  | cons m ms ih =>
    rw [List.nodup_cons] at h
    rw [behind, if_neg Bool.false_ne_true]
    cases hm : m == d with
    | true =>
      rw [behind_true]
      exact beq_iff_eq.1 hm ▸ h.1
    | false => exact ih h.2

theorem mem_of_mem_behind {passed : Bool} {d : ModuleId} {ms : List ModuleId}
    (h : k ∈ behind passed d ms) : k ∈ ms := by
  induction ms generalizing passed with
  | nil => exact h
  | cons m ms ih =>
    rw [behind] at h
    split at h
    · exact h
    · exact List.mem_cons_of_mem m (ih h)

/-- In an order without repetitions, behind a module behind another is behind that one. -/
theorem mem_behind_trans {d e : ModuleId} {ms : List ModuleId} (hms : ms.Nodup)
    (he : e ∈ behind false d ms) (hk : k ∈ behind false e ms) : k ∈ behind false d ms := by
  induction ms with
  | nil => exact hk
  | cons m ms ih =>
    rw [List.nodup_cons] at hms
    rw [behind, if_neg Bool.false_ne_true] at he hk ⊢
    cases hd : m == d with
    | true =>
      rw [behind_true]
      exact mem_of_mem_behind hk
    | false =>
      rw [hd] at he
      -- the head is not behind the first module, so the search for the second goes past it
      have hne : (m == e) = false :=
        beq_eq_false_iff_ne.2 fun heq => hms.1 (heq ▸ mem_of_mem_behind he)
      rw [hne] at hk
      exact ih hms.2 he hk

/-- In an order without repetitions, what lies behind in a part of it lies behind in all of it. -/
theorem behind_sublist {d : ModuleId} {ks ls : List ModuleId} (h : ks.Sublist ls) (hl : ls.Nodup) :
    (behind false d ks).Sublist (behind false d ls) := by
  induction h with
  | slnil => exact .slnil
  | @cons ks ls l h ih =>
    rw [List.nodup_cons] at hl
    rw [behind, if_neg Bool.false_ne_true]
    cases hm : l == d with
    | true =>
      have hd : d ∉ ks := fun hk => hl.1 (beq_iff_eq.1 hm ▸ h.mem hk)
      rw [behind_of_not_mem hd]
      exact List.nil_sublist _
    | false => exact ih hl.2
  | @cons_cons ks ls l h ih =>
    rw [List.nodup_cons] at hl
    rw [behind, behind, if_neg Bool.false_ne_true, if_neg Bool.false_ne_true]
    cases l == d with
    | true =>
      rw [behind_true, behind_true]
      exact h
    | false => exact ih hl.2

/-- A stretch of tables passes the declaring module if it was passed before or is among them. -/
theorem passed_superTables (u : Universe) (target : SuperTarget) (passed : Bool)
    (ms : List ModuleId) : (u.superTables target passed ms).passed =
      (passed || ms.contains target.declaring) := by
  induction ms generalizing passed with
  | nil => simp [superTables]
  | cons m ms ih =>
    rw [superTables]
    cases passed with
    | false =>
      rw [if_neg Bool.false_ne_true, ih, List.contains_cons, Bool.false_or, BEq.comm]
    | true =>
      rw [if_pos rfl]
      cases u.ownMethod m target.name with
      | some f => rfl
      | none => exact ih true

theorem tables_superTables_sublist (u : Universe) (target : SuperTarget) (passed : Bool)
    (ms : List ModuleId) : (tablesOf (u.superTables target passed ms).assumptions).Sublist
      (behind passed target.declaring ms) := by
  induction ms generalizing passed with
  | nil => exact .slnil
  | cons m ms ih =>
    rw [superTables, behind]
    cases passed with
    | false => exact ih _
    | true =>
      rw [if_pos rfl, if_pos rfl]
      cases u.ownMethod m target.name with
      | some f => exact (List.nil_sublist ms).cons_cons m
      | none =>
        have h := ih true
        rw [behind_true] at h
        exact h.cons_cons m

theorem passed_superRefinements {passed : Bool} {rs : List ModuleId}
    (h : (u.superRefinements target a passed rs).method = none) :
    (u.superRefinements target a passed rs).passed =
      (passed || (rs.flatMap (u.refinementPart · a)).contains target.declaring) := by
  induction rs generalizing passed with
  | nil => simp [superRefinements]
  | cons r rs ih =>
    have hpart := passed_superTables u target passed (u.refinementPart r a)
    rw [List.flatMap_cons, List.contains_append, ← Bool.or_assoc, ← hpart]
    rw [superRefinements] at h ⊢
    cases hd : (u.superTables target passed (u.refinementPart r a)).method.filter
        Method.isDefined with
    | some f =>
      rw [hd] at h
      cases h
    | none =>
      rw [hd] at h
      dsimp only at h ⊢
      split
      · next hr =>
        rw [Bool.and_eq_true] at hr
        rw [hr.1, Bool.true_or]
      · next hr =>
        rw [if_neg hr] at h
        exact ih h

theorem tables_superRefinements_sublist (u : Universe) (target : SuperTarget) (a : ModuleId)
    (passed : Bool) (rs : List ModuleId) :
    (tablesOf (u.superRefinements target a passed rs).assumptions).Sublist
      (behind passed target.declaring (rs.flatMap (u.refinementPart · a))) := by
  induction rs generalizing passed with
  | nil => exact .slnil
  | cons r rs ih =>
    have hpart := tables_superTables_sublist u target passed (u.refinementPart r a)
    have hwhole := hpart.trans (List.sublist_append_left _ (behind
      (passed || (u.refinementPart r a).contains target.declaring) target.declaring
      (rs.flatMap (u.refinementPart · a))))
    rw [superRefinements, List.flatMap_cons, behind_append]
    cases (u.superTables target passed (u.refinementPart r a)).method.filter
        Method.isDefined with
    | some f => exact hwhole
    | none =>
      dsimp only
      split
      · exact hwhole
      · show (tablesOf (_ ++ _)).Sublist _
        rw [tablesOf_append, ← passed_superTables u]
        exact hpart.append (ih _)

theorem tables_superMethod_sublist (u : Universe) (target : SuperTarget) (passed : Bool)
    (ms : List ModuleId) : (tablesOf (u.superMethod target passed ms).assumptions).Sublist
      (behind passed target.declaring (u.superOrder target ms)) := by
  induction ms generalizing passed with
  | nil => exact .slnil
  | cons a ms ih =>
    have hparts := tables_superRefinements_sublist u target a passed (mergedRefinements target a)
    have horder : u.superOrder target (a :: ms) =
        (mergedRefinements target a).flatMap (u.refinementPart · a) ++
          ([a] ++ u.superOrder target ms) := by
      rw [superOrder, List.flatMap_cons, List.append_assoc]
      rfl
    rw [horder, behind_append, behind_append]
    rw [superMethod]
    cases hr : (u.superRefinements target a passed (mergedRefinements target a)).method with
    | some f => exact hparts.trans (List.sublist_append_left _ _)
    | none =>
      rw [← passed_superRefinements hr]
      dsimp only
      split
      · next hp =>
        rw [hp, behind_true, Bool.true_or, behind_true]
        cases u.ownMethod a target.name with
        | some f =>
          dsimp only
          rw [tablesOf_append]
          exact hparts.append (List.sublist_append_left [a] _)
        | none =>
          have hrest := ih true
          rw [behind_true] at hrest
          show (tablesOf (_ ++ _ ++ _)).Sublist _
          rw [tablesOf_append, tablesOf_append, List.append_assoc]
          exact hparts.append ((List.Sublist.refl [a]).append hrest)
      · next hp =>
        have hself : (false || [a].contains target.declaring) = (a == target.declaring) := by
          rw [Bool.false_or, List.contains_cons, List.contains_nil, Bool.or_false, BEq.comm]
        rw [Bool.eq_false_iff.2 hp, hself]
        show (tablesOf (_ ++ _)).Sublist _
        rw [tablesOf_append]
        exact hparts.append (ih _)

/-- A super search inspects tables behind the declaring module only, in their order. -/
theorem tables_lookupSuper_sublist (u : Universe) (f : Method) (m : ModuleId) :
    (u.lookupSuper f m).tables.Sublist
      (behind false f.declaringModule (u.superOrder (u.superTarget f) (u.ancestors m))) :=
  tables_superMethod_sublist u (u.superTarget f) false _

end Universe

end ObjectModel
