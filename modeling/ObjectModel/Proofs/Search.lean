import ObjectModel.Proofs.Spine
import ObjectModel.Proofs.Through
import ObjectModel.Universe.MethodLookup

/-!
# Searching along walks

Method lookup as a search along the walk of a module, and the tables that it inspects on its way.

* `partEntry`, `refinedAt`, `answerAt`: what the part of a refinement gives, what all refinements of
  an ancestor give, and what the ancestor gives with them;
* `findMethod_eq_walk`, `partEntry_eq_walk`: lookup along the walk itself;
* `MethodResult.tables`, `assumptions_lookupMethod`: the inspected tables, and that a lookup notes
  their versions and nothing else;
* `mem_tables_lookupMethod`: which tables are inspected;
* `SearchedAlike`, `lookupMethod_congr`: what of the records of modules a lookup reads.
-/

namespace ObjectModel

/-- The method table that an assumption is about. -/
def Assumption.table? : Assumption → Option ModuleId
  | seen (.methods m) _ => some m
  | _ => none

/-- The method tables that assumptions are about. -/
def tablesOf (as : List Assumption) : List ModuleId := as.filterMap Assumption.table?

theorem tablesOf_append (as bs : List Assumption) :
    tablesOf (as ++ bs) = tablesOf as ++ tablesOf bs :=
  List.filterMap_append

/-- The method tables that a result relies on. -/
def MethodResult.tables (r : MethodResult) : List ModuleId := tablesOf r.assumptions

namespace Universe

variable {u : Universe} {name : String} {context : Option Context} {a k m r : ModuleId}

/-! ### What is found -/

/-- The defined method that the part of a refinement gives. -/
def partEntry (u : Universe) (name : String) (a r : ModuleId) : Option Method :=
  (u.searchTables name (u.refinementPart r a)).defined?

/-- The method that the refinements active for a module give. -/
def refinedAt (u : Universe) (name : String) (context : Option Context) (a : ModuleId) :
    Option Method :=
  (activeFor context a).findSome? (u.partEntry name a)

/-- The method that the refinements active for a module give, or else its own table. -/
def answerAt (u : Universe) (name : String) (context : Option Context) (a : ModuleId) :
    Option Method :=
  match u.refinedAt name context a with
  | some f => some (foundUnder context f)
  | none => u.ownMethod a name

theorem searchRefinements_method (u : Universe) (name : String) (a : ModuleId)
    (rs : List ModuleId) :
    (u.searchRefinements name a rs).method = rs.findSome? (u.partEntry name a) := by
  induction rs with
  | nil => rfl
  | cons r rs ih =>
    rw [searchRefinements, List.findSome?_cons, partEntry]
    cases (u.searchTables name (u.refinementPart r a)).defined? with
    | some f => rfl
    | none => exact ih

theorem searchMethod_method (u : Universe) (name : String) (context : Option Context)
    (ms : List ModuleId) :
    (u.searchMethod name context ms).method = ms.findSome? (u.answerAt name context) := by
  induction ms with
  | nil => rfl
  | cons a ms ih =>
    rw [searchMethod, List.findSome?_cons, answerAt, refinedAt]
    simp only [searchRefinements_method]
    cases (activeFor context a).findSome? (u.partEntry name a) with
    | some f => rfl
    | none =>
      cases u.ownMethod a name with
      | some f => rfl
      | none => exact ih

/-- Lookup searches along the walk. -/
theorem findMethod_eq_walk (u : Universe) (m : ModuleId) (name : String)
    (context : Option Context) :
    u.findMethod m name context = (u.walk m).findSome? (u.answerAt name context) := by
  rw [findMethod, lookupMethod, searchMethod_method, ancestors_eq_walk, findSome?_eraseDups]

/-- The part of a refinement is searched along its walk. -/
theorem partEntry_eq_walk (u : Universe) (name : String) (a r : ModuleId) :
    u.partEntry name a r = (((u.walk r).takeWhile (· != a)).findSome?
      (u.ownMethod · name)).filter Method.isDefined := by
  rw [partEntry, MethodResult.defined?, searchTables_method, refinementPart, ancestors_eq_walk,
    takeWhile_eraseDups, findSome?_eraseDups]

/-! ### What is inspected -/

/-- Whether the table of a module has an entry. -/
def hasEntry (u : Universe) (name : String) (m : ModuleId) : Bool := (u.ownMethod m name).isSome

/-- Whether the search along the walk of a module ends here. -/
def answers (u : Universe) (name : String) (context : Option Context) (a : ModuleId) : Bool :=
  (u.answerAt name context a).isSome

/-- The refinements that are tried for a module. -/
def tried (u : Universe) (name : String) (context : Option Context) (a : ModuleId) :
    List ModuleId :=
  through (fun r => (u.partEntry name a r).isSome) (activeFor context a)

theorem tablesOf_cons (u : Universe) (m : ModuleId) (as : List Assumption) :
    tablesOf (u.assumeMethods m :: as) = m :: tablesOf as := rfl

theorem tables_searchTables (u : Universe) (name : String) (ms : List ModuleId) :
    (u.searchTables name ms).tables = through (u.hasEntry name) ms := by
  induction ms with
  | nil => rfl
  | cons m ms ih =>
    rw [searchTables, through, hasEntry]
    cases u.ownMethod m name with
    | some f => rfl
    | none =>
      rw [MethodResult.tables, MethodResult.assumptions_after, tablesOf_append]
      exact congrArg (m :: ·) ih

theorem tables_searchRefinements (u : Universe) (name : String) (a : ModuleId)
    (rs : List ModuleId) :
    (u.searchRefinements name a rs).tables =
      (through (fun r => (u.partEntry name a r).isSome) rs).flatMap fun r =>
        (u.searchTables name (u.refinementPart r a)).tables := by
  induction rs with
  | nil => rfl
  | cons r rs ih =>
    rw [searchRefinements, through, partEntry]
    cases (u.searchTables name (u.refinementPart r a)).defined? with
    | some f => simp [MethodResult.tables]
    | none =>
      rw [MethodResult.tables] at ih
      simp [MethodResult.tables, tablesOf_append, ih]

theorem tables_searchMethod (u : Universe) (name : String) (context : Option Context)
    (ms : List ModuleId) :
    (u.searchMethod name context ms).tables = (through (u.answers name context) ms).flatMap fun a =>
      (u.searchRefinements name a (activeFor context a)).tables ++
        if (u.refinedAt name context a).isNone then [a] else [] := by
  induction ms with
  | nil => rfl
  | cons a ms ih =>
    have hrefined : (u.searchRefinements name a (activeFor context a)).method =
        u.refinedAt name context a := searchRefinements_method u name a _
    rw [searchMethod, through, answers, answerAt]
    simp only [hrefined]
    cases hr : u.refinedAt name context a with
    | some f => simp [MethodResult.tables, hr]
    | none =>
      cases u.ownMethod a name with
      | some f =>
        have hself : tablesOf [u.assumeMethods a] = [a] := rfl
        simp [MethodResult.tables, tablesOf_append, hself, hr]
      | none =>
        rw [MethodResult.tables] at ih
        simp [MethodResult.tables, tablesOf_append, tablesOf_cons, hr, ih]

/-- At an ancestor are inspected the tables in the parts of the refinements tried, and its own one
unless they give a method. -/
theorem mem_tables_lookupMethod : k ∈ (u.lookupMethod m name context).tables ↔
    ∃ a ∈ through (u.answers name context) (u.walk m),
      (∃ r ∈ u.tried name context a,
        k ∈ through (fun k => k == a || u.hasEntry name k) (u.walk r) ∧ k ≠ a) ∨
      k = a ∧ u.refinedAt name context a = none := by
  have hown (a : ModuleId) : (k ∈ if (u.refinedAt name context a).isNone then [a] else []) ↔
      k = a ∧ u.refinedAt name context a = none := by
    cases u.refinedAt name context a <;> simp
  rw [lookupMethod, tables_searchMethod, ancestors_eq_walk]
  -- members do not change when repetitions are kept
  simp only [List.mem_flatMap, mem_through_eraseDups, List.mem_append, tables_searchRefinements,
    tables_searchTables, refinementPart, ancestors_eq_walk, takeWhile_eraseDups,
    mem_through_takeWhile, bne, Bool.not_not, hown]
  simp only [tried, ne_eq, Bool.not_eq_true', beq_eq_false_iff_ne]

theorem noted_searchTables (name : String) (ms : List ModuleId) :
    ∀ x ∈ (u.searchTables name ms).assumptions, ∃ k, x = u.assumeMethods k := by
  induction ms with
  | nil => exact fun x hx => nomatch hx
  | cons m ms ih =>
    rw [searchTables]
    cases u.ownMethod m name with
    | some f => exact fun x hx => ⟨m, List.mem_singleton.1 hx⟩
    | none =>
      intro x hx
      rcases List.mem_append.1 hx with hx | hx
      · exact ⟨m, List.mem_singleton.1 hx⟩
      · exact ih x hx

theorem noted_searchRefinements (name : String) (a : ModuleId) (rs : List ModuleId) :
    ∀ x ∈ (u.searchRefinements name a rs).assumptions, ∃ k, x = u.assumeMethods k := by
  induction rs with
  | nil => exact fun x hx => nomatch hx
  | cons r rs ih =>
    have hpart := noted_searchTables (u := u) name (u.refinementPart r a)
    rw [searchRefinements]
    cases (u.searchTables name (u.refinementPart r a)).defined? with
    | some f => exact hpart
    | none =>
      intro x hx
      rcases List.mem_append.1 hx with hx | hx
      · exact hpart x hx
      · exact ih x hx

theorem noted_searchMethod (name : String) (context : Option Context) (ms : List ModuleId) :
    ∀ x ∈ (u.searchMethod name context ms).assumptions, ∃ k, x = u.assumeMethods k := by
  induction ms with
  | nil => exact fun x hx => nomatch hx
  | cons a ms ih =>
    have hparts := noted_searchRefinements (u := u) name a (activeFor context a)
    have hhere : ∀ x ∈ (u.searchRefinements name a (activeFor context a)).assumptions ++
        [u.assumeMethods a], ∃ k, x = u.assumeMethods k := by
      intro x hx
      rcases List.mem_append.1 hx with hx | hx
      · exact hparts x hx
      · exact ⟨a, List.mem_singleton.1 hx⟩
    rw [searchMethod]
    cases (u.searchRefinements name a (activeFor context a)).method with
    | some f => exact hparts
    | none =>
      cases u.ownMethod a name with
      | some f => exact hhere
      | none =>
        intro x hx
        dsimp only at hx
        rcases List.mem_append.1 hx with hx | hx
        · exact hhere x hx
        · exact ih x hx

/-- Assumptions about method tables are the versions of the tables that they are about. -/
theorem eq_map_tablesOf {as : List Assumption} (h : ∀ x ∈ as, ∃ k, x = u.assumeMethods k) :
    as = (tablesOf as).map u.assumeMethods := by
  induction as with
  | nil => rfl
  | cons x as ih =>
    obtain ⟨k, rfl⟩ := h x List.mem_cons_self
    rw [tablesOf_cons, List.map_cons, ← ih fun y hy => h y (List.mem_cons_of_mem _ hy)]

/-- A lookup notes the versions of the tables that it inspects, and nothing else. -/
theorem assumptions_lookupMethod (u : Universe) (m : ModuleId) (name : String)
    (context : Option Context) : (u.lookupMethod m name context).assumptions =
      (u.lookupMethod m name context).tables.map u.assumeMethods :=
  eq_map_tablesOf (noted_searchMethod name context _)

/-- A result that notes nothing but tables is valid exactly when they are at their versions. -/
theorem isValidMethod_iff {v : Universe} {r : MethodResult}
    (h : r.assumptions = r.tables.map u.assumeMethods) : v.isValidMethod r = true ↔
      ∀ k ∈ r.tables, (v.module k).methodsVersion = (u.module k).methodsVersion := by
  rw [isValidMethod, allHold, h, List.all_map, List.all_eq_true]
  simp only [Function.comp_apply, holds, assumeMethods, assume, Assumption.now, Assumption.holds,
    versionOf, beq_iff_eq]

/-! ### What lookups read -/

/-- The chain and the method table of a module are the same in both universes. -/
structure SearchedAlike (u v : Universe) (k : ModuleId) : Prop where
  chain : (v.module k).chain = (u.module k).chain
  methods : (v.module k).methods = (u.module k).methods
  methodsVersion : (v.module k).methodsVersion = (u.module k).methodsVersion

section Reading

variable {v w : Universe}

theorem SearchedAlike.of_eq (h : v.module k = u.module k) : SearchedAlike u v k := by
  constructor <;> rw [h]

theorem SearchedAlike.trans (h : SearchedAlike u v k) (h' : SearchedAlike v w k) :
    SearchedAlike u w k where
  chain := h'.chain.trans h.chain
  methods := h'.methods.trans h.methods
  methodsVersion := h'.methodsVersion.trans h.methodsVersion

theorem SearchedAlike.ownChain (h : SearchedAlike u v k) : v.ownChain k = u.ownChain k := by
  rw [Universe.ownChain, h.chain, Universe.ownChain]

theorem SearchedAlike.ownMethod (h : SearchedAlike u v k) (name : String) :
    v.ownMethod k name = u.ownMethod k name := by
  rw [Universe.ownMethod, h.methods, Universe.ownMethod]

theorem SearchedAlike.assumeMethods (h : SearchedAlike u v k) :
    v.assumeMethods k = u.assumeMethods k := by
  simp only [Universe.assumeMethods, assume, Assumption.now, versionOf, h.methodsVersion]

/-- A walk depends on the chains of its spine. -/
theorem walk_congr (h : ∀ o ∈ u.spine m, SearchedAlike u v o) : v.walk m = u.walk m := by
  have hspine : v.spine m = u.spine m := spine_congr fun o ho => by rw [(h o ho).chain]
  have hchains : (u.spine m).map v.ownChain = (u.spine m).map u.ownChain :=
    List.map_congr_left fun o ho => (h o ho).ownChain
  rw [walk_eq_spine, walk_eq_spine, hspine, List.flatMap_def, hchains, List.flatMap_def]

/-- The spine of a module is among its ancestors. -/
theorem mem_ancestors_of_spine {o : ModuleId} (h : o ∈ u.spine m) : o ∈ u.ancestors m :=
  mem_ancestors_iff_spine.2 ⟨o, h, self_mem_ownChain u o⟩

theorem ancestors_congr (h : ∀ k ∈ u.ancestors m, SearchedAlike u v k) :
    v.ancestors m = u.ancestors m := by
  rw [ancestors_eq_walk, ancestors_eq_walk, walk_congr fun o ho => h o (mem_ancestors_of_spine ho)]

theorem searchTables_congr {ms : List ModuleId} (h : ∀ k ∈ ms, SearchedAlike u v k) :
    v.searchTables name ms = u.searchTables name ms := by
  induction ms with
  | nil => rfl
  | cons m ms ih =>
    have hhead := h m List.mem_cons_self
    have hrest := ih fun k hk => h k (List.mem_cons_of_mem m hk)
    simp only [searchTables, hhead.ownMethod, hhead.assumeMethods, hrest]

theorem searchRefinements_congr {rs : List ModuleId}
    (h : ∀ r ∈ rs, ∀ k ∈ u.ancestors r, SearchedAlike u v k) :
    v.searchRefinements name a rs = u.searchRefinements name a rs := by
  induction rs with
  | nil => rfl
  | cons r rs ih =>
    have hhead := h r List.mem_cons_self
    have hrest := ih fun s hs => h s (List.mem_cons_of_mem r hs)
    have hpart : v.searchTables name (v.refinementPart r a) =
        u.searchTables name (u.refinementPart r a) := by
      rw [refinementPart, ancestors_congr hhead]
      exact searchTables_congr fun k hk => hhead k ((List.takeWhile_sublist _).mem hk)
    simp only [searchRefinements, hpart, hrest]

/-- A lookup reads the chains and the method tables of the ancestors of the module and of those of
the active refinements. -/
theorem lookupMethod_congr (hm : ∀ k ∈ u.ancestors m, SearchedAlike u v k)
    (hc : ∀ a, ∀ r ∈ activeFor context a, ∀ k ∈ u.ancestors r, SearchedAlike u v k) :
    v.lookupMethod m name context = u.lookupMethod m name context := by
  have hsearch (ms : List ModuleId) (h : ∀ k ∈ ms, SearchedAlike u v k) :
      v.searchMethod name context ms = u.searchMethod name context ms := by
    induction ms with
    | nil => rfl
    | cons a ms ih =>
      have hhead := h a List.mem_cons_self
      have hrest := ih fun k hk => h k (List.mem_cons_of_mem a hk)
      have hparts : v.searchRefinements name a (activeFor context a) =
          u.searchRefinements name a (activeFor context a) := searchRefinements_congr (hc a)
      simp only [searchMethod, hparts, hhead.ownMethod, hhead.assumeMethods, hrest]
  rw [lookupMethod, ancestors_congr hm]
  exact hsearch _ hm

section Modules

variable (h : v.modules = u.modules)
include h

theorem module_congr (m : ModuleId) : v.module m = u.module m := by
  rw [module, h, module]

theorem walk_of_modules (m : ModuleId) : v.walk m = u.walk m :=
  walk_congr fun o _ => .of_eq (module_congr h o)

/-- A lookup reads the records of modules only. -/
theorem lookupMethod_of_modules (m : ModuleId) (name : String) (context : Option Context) :
    v.lookupMethod m name context = u.lookupMethod m name context :=
  lookupMethod_congr (fun k _ => .of_eq (module_congr h k))
    fun _ _ _ k _ => .of_eq (module_congr h k)

end Modules

end Reading

end Universe

end ObjectModel
