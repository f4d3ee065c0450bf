import ObjectModel.Proofs.SuperSearch

/-!
# The course of a super search

A super search goes along the ancestors of a metaclass, and at each of them first along the parts
of the refinements in force.  It arrives at every one of these with or without having passed the
declaring module, and ends where it finds an entry behind that one.

* `SuperResult.Agrees`: when two stretches of a search come to the same;
* `superStop`: where the search along tables ends;
* `superParts`, `superVisits`: the refinements tried and the ancestors visited, each with whether
  the declaring module was passed on arrival;
* `superEnds`: the ancestor that the search ends at;
* `assumptions_lookupSuper`: a super lookup notes the versions of the tables that it inspects;
* `mem_tables_lookupSuper`: which tables it inspects at an ancestor;
* `superTables_congr`, `superRefinements_congr`, `superMethod_congr`: what its stretches depend on.
-/

namespace ObjectModel

/-- Two stretches of a search give the same, and both or neither pass the declaring module. -/
structure SuperResult.Agrees (r s : SuperResult) : Prop where
  method : r.method = s.method
  passed : r.passed = s.passed

theorem SuperResult.Agrees.after {r s : SuperResult} (h : r.Agrees s)
    (as bs : List Assumption) : (SuperResult.after as r).Agrees (SuperResult.after bs s) :=
  ⟨h.method, h.passed⟩

namespace Universe

variable {u v : Universe} {target : SuperTarget} {passed : Bool} {a k m r : ModuleId}
  {ms ms' rs : List ModuleId}

/-! ### Along tables -/

theorem superTables_method (u : Universe) (target : SuperTarget) (passed : Bool)
    (ms : List ModuleId) : (u.superTables target passed ms).method =
      (behind passed target.declaring ms).findSome? (u.ownMethod · target.name) := by
  induction ms generalizing passed with
  | nil => rfl
  | cons m ms ih =>
    rw [superTables, behind]
    cases passed with
    | false => exact ih _
    | true =>
      rw [if_pos rfl, if_pos rfl, List.findSome?_cons]
      cases u.ownMethod m target.name with
      | some f => rfl
      | none =>
        have h := ih true
        rw [behind_true] at h
        exact h

theorem tables_superTables (u : Universe) (target : SuperTarget) (passed : Bool)
    (ms : List ModuleId) : tablesOf (u.superTables target passed ms).assumptions =
      through (u.hasEntry target.name) (behind passed target.declaring ms) := by
  induction ms generalizing passed with
  | nil => rfl
  | cons m ms ih =>
    rw [superTables, behind]
    cases passed with
    | false => exact ih _
    | true =>
      rw [if_pos rfl, if_pos rfl, through, hasEntry]
      cases u.ownMethod m target.name with
      | some f => rfl
      | none =>
        have h := ih true
        rw [behind_true] at h
        exact congrArg (m :: ·) h

/-- Where the search along some tables ends: at an entry behind the declaring module. -/
def superStop (u : Universe) (target : SuperTarget) (passed : Bool) (ms : List ModuleId)
    (k : ModuleId) : Bool :=
  (behind passed target.declaring ms).contains k && u.hasEntry target.name k

/-- What a search along tables without repetitions gives depends on the tables up to its end. -/
theorem superTables_congr (hms : ms.Nodup)
    (hend : through (u.superStop target passed ms) ms' =
      through (u.superStop target passed ms) ms)
    (htable : ∀ k ∈ tablesOf (u.superTables target passed ms).assumptions,
      v.ownMethod k target.name = u.ownMethod k target.name) :
    (v.superTables target passed ms').Agrees (u.superTables target passed ms) := by
  induction ms generalizing passed ms' with
  | nil =>
    obtain rfl := eq_nil_of_through hend
    exact ⟨rfl, rfl⟩
  | cons m ms ih =>
    obtain ⟨hm, hms⟩ := List.nodup_cons.1 hms
    obtain ⟨rest, rfl, hrest⟩ := cons_of_through hend
    -- the search goes on behind the head, and ends there where it ended before
    have hgo {b : Bool} (hb : behind passed target.declaring (m :: ms) = behind b target.declaring ms ∨
        behind passed target.declaring (m :: ms) = m :: behind b target.declaring ms ∧
          u.hasEntry target.name m = false) :
        through (u.superStop target b ms) rest = through (u.superStop target b ms) ms := by
      have hsame : u.superStop target passed (m :: ms) = u.superStop target b ms := by
        funext k
        rcases hb with hb | ⟨hb, hnone⟩
        · rw [superStop, hb, superStop]
        · rw [superStop, hb, superStop, List.contains_cons]
          by_cases hk : k = m
          · rw [hk, hnone, Bool.and_false, Bool.and_false]
          · rw [beq_false_of_ne hk, Bool.false_or]
      rw [hsame] at hrest
      refine hrest (Bool.eq_false_iff.2 fun hstop => hm ?_)
      rw [superStop, Bool.and_eq_true] at hstop
      exact mem_of_mem_behind (List.contains_iff_mem.1 hstop.1)
    rw [superTables] at htable
    rw [superTables, superTables]
    cases passed with
    | false => exact ih hms (hgo (.inl rfl)) htable
    | true =>
      rw [if_pos rfl] at htable
      rw [if_pos rfl, if_pos rfl]
      cases ho : u.ownMethod m target.name with
      | some f =>
        rw [ho] at htable
        rw [htable m List.mem_cons_self, ho]
        exact ⟨rfl, rfl⟩
      | none =>
        rw [ho] at htable
        have hnone : u.hasEntry target.name m = false := by rw [hasEntry, ho]; rfl
        rw [htable m List.mem_cons_self, ho]
        refine (ih hms (hgo (b := true) (.inr ⟨?_, hnone⟩)) fun k hk =>
          htable k (List.mem_cons_of_mem m hk)).after _ _
        rw [behind_true, behind_true]

/-! ### Along refinements -/

/-- The refinements that the search tries for a module, each with whether the declaring module was
passed on arrival. -/
def superParts (u : Universe) (target : SuperTarget) (a : ModuleId) (passed : Bool) :
    List ModuleId → List (ModuleId × Bool)
  | [] => []
  | r :: rs =>
    let part := u.superTables target passed (u.refinementPart r a)
    (r, passed) ::
      if (part.method.filter Method.isDefined).isSome || (part.passed && target.isRefined) then []
      else u.superParts target a part.passed rs

theorem mem_of_mem_superParts {y : ModuleId × Bool} (h : y ∈ u.superParts target a passed rs) :
    y.1 ∈ rs := by
  induction rs generalizing passed with
  | nil => cases h
  | cons r rs ih =>
    rcases List.mem_cons.1 h with rfl | h
    · exact List.mem_cons_self
    · split at h
      · cases h
      · exact List.mem_cons_of_mem r (ih h)

/-- What the search along refinements gives depends on their parts. -/
theorem superRefinements_congr (h : ∀ y ∈ u.superParts target a passed rs,
      (v.superTables target y.2 (v.refinementPart y.1 a)).Agrees
        (u.superTables target y.2 (u.refinementPart y.1 a))) :
    (v.superRefinements target a passed rs).Agrees (u.superRefinements target a passed rs) := by
  induction rs generalizing passed with
  | nil => exact ⟨rfl, rfl⟩
  | cons r rs ih =>
    rw [superParts] at h
    obtain ⟨hmethod, hpassed⟩ := h _ List.mem_cons_self
    have hrest := fun y hy => h y (List.mem_cons_of_mem _ hy)
    dsimp only at hmethod hpassed hrest
    rw [superRefinements, superRefinements]
    simp only [hmethod, hpassed]
    cases hd : (u.superTables target passed (u.refinementPart r a)).method.filter
        Method.isDefined with
    | some f => exact ⟨rfl, rfl⟩
    | none =>
      rw [hd, Option.isSome_none, Bool.false_or] at hrest
      dsimp only
      split
      · exact ⟨rfl, rfl⟩
      · next hgo =>
        rw [if_neg hgo] at hrest
        exact (ih hrest).after _ _

/-! ### Along ancestors -/

/-- The ancestors that the search visits, each with whether the declaring module was passed on
arrival. -/
def superVisits (u : Universe) (target : SuperTarget) (passed : Bool) :
    List ModuleId → List (ModuleId × Bool)
  | [] => []
  | m :: ms =>
    let refined := u.superRefinements target m passed (mergedRefinements target m)
    (m, passed) ::
      if refined.method.isSome || (refined.passed && u.hasEntry target.name m) then []
      else u.superVisits target (refined.passed || m == target.declaring) ms

/-- Whether the search ends at an ancestor. -/
def superEnds (u : Universe) (target : SuperTarget) (passed : Bool) :
    List ModuleId → ModuleId → Bool
  | [], _ => false
  | m :: ms, k =>
    let refined := u.superRefinements target m passed (mergedRefinements target m)
    if refined.method.isSome || (refined.passed && u.hasEntry target.name m) then k == m
    else u.superEnds target (refined.passed || m == target.declaring) ms k

theorem mem_of_superEnds (h : u.superEnds target passed ms k = true) : k ∈ ms := by
  induction ms generalizing passed with
  | nil => cases h
  | cons m ms ih =>
    rw [superEnds] at h
    split at h
    · exact beq_iff_eq.1 h ▸ List.mem_cons_self
    · exact List.mem_cons_of_mem m (ih h)

theorem mem_of_mem_superVisits {x : ModuleId × Bool} (h : x ∈ u.superVisits target passed ms) :
    x.1 ∈ ms := by
  induction ms generalizing passed with
  | nil => cases h
  | cons m ms ih =>
    rcases List.mem_cons.1 h with rfl | h
    · exact List.mem_cons_self
    · split at h
      · cases h
      · exact List.mem_cons_of_mem m (ih h)

/-- What the search at one ancestor comes to, with the search behind it left to be made. -/
theorem superMethod_cons (u : Universe) (target : SuperTarget) (passed : Bool) (m : ModuleId)
    (ms : List ModuleId) :
    let refined := u.superRefinements target m passed (mergedRefinements target m)
    (u.superMethod target passed (m :: ms)).method =
        match refined.method with
        | some f => some (f.withActive (superContext target m))
        | none =>
          if refined.passed && u.hasEntry target.name m then u.ownMethod m target.name
          else (u.superMethod target (refined.passed || m == target.declaring) ms).method := by
  dsimp only
  rw [superMethod]
  cases (u.superRefinements target m passed (mergedRefinements target m)).method with
  | some f => rfl
  | none =>
    dsimp only
    cases (u.superRefinements target m passed (mergedRefinements target m)).passed with
    | false => rfl
    | true =>
      rw [if_pos rfl, Bool.true_and, hasEntry]
      cases u.ownMethod m target.name <;> rfl

/-- The tables inspected at one ancestor, and behind it. -/
theorem tables_superMethod_cons (u : Universe) (target : SuperTarget) (passed : Bool)
    (m : ModuleId) (ms : List ModuleId) :
    let refined := u.superRefinements target m passed (mergedRefinements target m)
    tablesOf (u.superMethod target passed (m :: ms)).assumptions =
      tablesOf refined.assumptions ++
        if refined.method.isSome then []
        else (if refined.passed then [m] else []) ++
          if refined.passed && u.hasEntry target.name m then []
          else tablesOf (u.superMethod target (refined.passed || m == target.declaring)
            ms).assumptions := by
  dsimp only
  rw [superMethod]
  cases (u.superRefinements target m passed (mergedRefinements target m)).method with
  | some f => simp
  | none =>
    have hself : tablesOf [u.assumeMethods m] = [m] := rfl
    dsimp only
    cases (u.superRefinements target m passed (mergedRefinements target m)).passed with
    | false => simp [SuperResult.after, tablesOf_append]
    | true =>
      rw [if_pos rfl, hasEntry]
      cases u.ownMethod m target.name with
      | some f => simp [tablesOf_append, hself]
      | none =>
        simp only [SuperResult.after, tablesOf_append, hself, Option.isSome_none, Bool.and_false,
          Bool.false_eq_true, if_false, if_true, Bool.true_or, List.append_assoc]

/-- What a search along ancestors gives depends on those up to its end. -/
theorem superMethod_congr (hms : ms.Nodup)
    (hend : through (u.superEnds target passed ms) ms' =
      through (u.superEnds target passed ms) ms)
    (hparts : ∀ x ∈ u.superVisits target passed ms,
      (v.superRefinements target x.1 x.2 (mergedRefinements target x.1)).Agrees
        (u.superRefinements target x.1 x.2 (mergedRefinements target x.1)))
    (htable : ∀ k ∈ tablesOf (u.superMethod target passed ms).assumptions,
      v.ownMethod k target.name = u.ownMethod k target.name) :
    (v.superMethod target passed ms').method = (u.superMethod target passed ms).method := by
  induction ms generalizing passed ms' with
  | nil =>
    obtain rfl := eq_nil_of_through hend
    rfl
  | cons m ms ih =>
    obtain ⟨hm, hms⟩ := List.nodup_cons.1 hms
    obtain ⟨rest, rfl, hrest⟩ := cons_of_through hend
    obtain ⟨hmethod, hpassed⟩ := hparts _ List.mem_cons_self
    rw [tables_superMethod_cons] at htable
    rw [superMethod_cons, superMethod_cons]
    simp only [hmethod, hpassed]
    rw [superVisits] at hparts
    have hends (k : ModuleId) : u.superEnds target passed (m :: ms) k = _ := superEnds.eq_2 ..
    generalize u.superRefinements target m passed (mergedRefinements target m) = refined at *
    obtain ⟨method, p, as⟩ := refined
    cases method with
    | some f => rfl
    | none =>
      simp only [Option.isSome_none, Bool.false_or, Bool.false_eq_true, if_false]
        at hends htable hparts ⊢
      have hentry : p = true → v.ownMethod m target.name = u.ownMethod m target.name := by
        rintro rfl
        exact htable m (by simp)
      have hhas : (p && v.hasEntry target.name m) = (p && u.hasEntry target.name m) := by
        cases p with
        | false => rfl
        | true => rw [hasEntry, hentry rfl, hasEntry]
      rw [hhas]
      cases hb : p && u.hasEntry target.name m with
      | true =>
        rw [Bool.and_eq_true] at hb
        rw [if_pos rfl, if_pos rfl, hentry hb.1]
      | false =>
        simp only [hb, Bool.false_eq_true, if_false] at hends htable hparts ⊢
        have hsame : u.superEnds target passed (m :: ms) =
            u.superEnds target (p || m == target.declaring) ms := funext hends
        rw [hsame] at hrest
        refine ih hms (hrest (Bool.eq_false_iff.2 fun h => hm (mem_of_superEnds h)))
          (fun x hx => hparts x (List.mem_cons_of_mem _ hx)) fun k hk => htable k ?_
        exact List.mem_append_right _ (List.mem_append_right _ hk)

/-! ### Inspected tables -/

theorem tables_superRefinements_of_part {y : ModuleId × Bool}
    (hy : y ∈ u.superParts target a passed rs)
    (hk : k ∈ tablesOf (u.superTables target y.2 (u.refinementPart y.1 a)).assumptions) :
    k ∈ tablesOf (u.superRefinements target a passed rs).assumptions := by
  induction rs generalizing passed with
  | nil => cases hy
  | cons r rs ih =>
    rw [superRefinements]
    rcases List.mem_cons.1 hy with rfl | hy
    · cases (u.superTables target passed (u.refinementPart r a)).method.filter
          Method.isDefined with
      | some f => exact hk
      | none =>
        dsimp only
        split
        · exact hk
        · show k ∈ tablesOf (_ ++ _)
          rw [tablesOf_append]
          exact List.mem_append_left _ hk
    · cases hd : (u.superTables target passed (u.refinementPart r a)).method.filter
          Method.isDefined with
      | some f =>
        rw [hd, Option.isSome_some, Bool.true_or, if_pos rfl] at hy
        cases hy
      | none =>
        rw [hd, Option.isSome_none, Bool.false_or] at hy
        dsimp only
        split at hy
        · cases hy
        · next hgo =>
          rw [if_neg hgo]
          show k ∈ tablesOf (_ ++ _)
          rw [tablesOf_append]
          exact List.mem_append_right _ (ih hy)

theorem tables_superMethod_of_visit {x : ModuleId × Bool}
    (hx : x ∈ u.superVisits target passed ms)
    (hk : k ∈ tablesOf
      (u.superRefinements target x.1 x.2 (mergedRefinements target x.1)).assumptions) :
    k ∈ tablesOf (u.superMethod target passed ms).assumptions := by
  induction ms generalizing passed with
  | nil => cases hx
  | cons m ms ih =>
    rw [tables_superMethod_cons]
    rcases List.mem_cons.1 hx with rfl | hx
    · exact List.mem_append_left _ hk
    · refine List.mem_append_right _ ?_
      split at hx
      · cases hx
      · next hgo =>
        rw [Bool.or_eq_true, not_or, Bool.not_eq_true, Bool.not_eq_true] at hgo
        rw [hgo.1, hgo.2]
        exact List.mem_append_right _ (ih hx)

/-- The tables that a super lookup inspects at an ancestor are those in the parts tried there. -/
theorem mem_tables_lookupSuper {f : Method} {x y : ModuleId × Bool}
    (hx : x ∈ u.superVisits (u.superTarget f) false (u.ancestors m))
    (hy : y ∈ u.superParts (u.superTarget f) x.1 x.2 (mergedRefinements (u.superTarget f) x.1))
    (hk : k ∈ tablesOf
      (u.superTables (u.superTarget f) y.2 (u.refinementPart y.1 x.1)).assumptions) :
    k ∈ (u.lookupSuper f m).tables :=
  tables_superMethod_of_visit hx (tables_superRefinements_of_part hy hk)

/-! ### Assumptions -/

theorem noted_superTables (u : Universe) (target : SuperTarget) (passed : Bool)
    (ms : List ModuleId) :
    ∀ x ∈ (u.superTables target passed ms).assumptions, ∃ k, x = u.assumeMethods k := by
  induction ms generalizing passed with
  | nil => exact fun x hx => nomatch hx
  | cons m ms ih =>
    rw [superTables]
    cases passed with
    | false => exact ih _
    | true =>
      rw [if_pos rfl]
      cases u.ownMethod m target.name with
      | some f => exact fun x hx => ⟨m, List.mem_singleton.1 hx⟩
      | none =>
        intro x hx
        rcases List.mem_cons.1 hx with hx | hx
        · exact ⟨m, hx⟩
        · exact ih true x hx

theorem noted_superRefinements (u : Universe) (target : SuperTarget) (a : ModuleId)
    (passed : Bool) (rs : List ModuleId) :
    ∀ x ∈ (u.superRefinements target a passed rs).assumptions, ∃ k, x = u.assumeMethods k := by
  induction rs generalizing passed with
  | nil => exact fun x hx => nomatch hx
  | cons r rs ih =>
    have hpart := noted_superTables u target passed (u.refinementPart r a)
    rw [superRefinements]
    cases (u.superTables target passed (u.refinementPart r a)).method.filter
        Method.isDefined with
    | some f => exact hpart
    | none =>
      dsimp only
      split
      · exact hpart
      · intro x hx
        rcases List.mem_append.1 hx with hx | hx
        · exact hpart x hx
        · exact ih _ x hx

theorem noted_superMethod (u : Universe) (target : SuperTarget) (passed : Bool)
    (ms : List ModuleId) :
    ∀ x ∈ (u.superMethod target passed ms).assumptions, ∃ k, x = u.assumeMethods k := by
  induction ms generalizing passed with
  | nil => exact fun x hx => nomatch hx
  | cons a ms ih =>
    have hparts := noted_superRefinements u target a passed (mergedRefinements target a)
    have hhere : ∀ x ∈ (u.superRefinements target a passed (mergedRefinements target a)).assumptions
        ++ [u.assumeMethods a], ∃ k, x = u.assumeMethods k := by
      intro x hx
      rcases List.mem_append.1 hx with hx | hx
      · exact hparts x hx
      · exact ⟨a, List.mem_singleton.1 hx⟩
    rw [superMethod]
    cases (u.superRefinements target a passed (mergedRefinements target a)).method with
    | some f => exact hparts
    | none =>
      dsimp only
      split
      · cases u.ownMethod a target.name with
        | some f => exact hhere
        | none =>
          intro x hx
          rcases List.mem_append.1 hx with hx | hx
          · exact hhere x hx
          · exact ih _ x hx
      · intro x hx
        rcases List.mem_append.1 hx with hx | hx
        · exact hparts x hx
        · exact ih _ x hx

/-- A super lookup notes the versions of the tables that it inspects, and nothing else. -/
theorem assumptions_lookupSuper (u : Universe) (f : Method) (m : ModuleId) :
    (u.lookupSuper f m).assumptions = (u.lookupSuper f m).tables.map u.assumeMethods :=
  eq_map_tablesOf (noted_superMethod u (u.superTarget f) false _)

end Universe

end ObjectModel
