import ObjectModel.Proofs.ConstantSearch

/-!
# Constant lookups on different threads

A search on the thread that is loading a constant passes over it, where a search on any other
thread stops.  So what a search finds may depend on the thread, but only if a constant that is
being loaded is the first one on the path, and then no search can be used again.

* `met`, `ConstantStart.met`: the constants that a search stops at or passes over;
* `isValidConstant_of_met_loading`: a search that meets a constant that is being loaded is never
  valid;
* `isValidConstant_self_iff`: a search is valid where it was made exactly if the first constant on
  the path is not being loaded;
* `ConstantStart.lookup_threadIndependent`: lookups that may be cached come out alike on all
  threads.
-/

namespace ObjectModel

namespace Universe

variable {u v : Universe} {t t' : ThreadId} {name : String} {ms : List ModuleId} {c : Constant}

/-- The constants that a search on thread `t` meets along a path, up to the one that it stops
at. -/
def met (u : Universe) (t : ThreadId) (name : String) : List ModuleId → List Constant
  | [] => []
  | m :: ms =>
    match u.ownConstant m name with
    | none => u.met t name ms
    | some c => c :: if u.stopsAt t c then [] else u.met t name ms

/-- The first constant on a path is met on every thread. -/
theorem mem_met_of_first (t : ThreadId) (h : ms.findSome? (u.ownConstant · name) = some c) :
    c ∈ u.met t name ms := by
  induction ms with
  | nil => cases h
  | cons m ms ih =>
    rw [List.findSome?_cons] at h
    rw [met]
    cases hm : u.ownConstant m name with
    | none =>
      rw [hm] at h
      exact ih h
    | some c' =>
      rw [hm] at h
      cases h
      exact List.mem_cons_self

/-! ### Validity -/

/-- Meeting a constant that is being loaded spoils the result for good. -/
theorem never_mem_of_met_loading (hc : c ∈ u.met t name ms) (hl : (u.loading? c).isSome = true) :
    Assumption.never ∈ (u.searchConstant t name ms).assumptions := by
  induction ms with
  | nil => cases hc
  | cons m ms ih =>
    rw [met] at hc
    rw [searchConstant, inspection]
    cases hm : u.ownConstant m name with
    | none =>
      rw [hm] at hc
      exact List.mem_append_right _ (ih hc)
    | some c' =>
      rw [hm] at hc
      rcases List.mem_cons.1 hc with rfl | hc
      · -- it is found or passed over, and noted either way
        cases hs : u.stopsAt t c <;> simp [Option.filter, hs, hl]
      · cases hs : u.stopsAt t c' with
        | true => simp [hs] at hc
        | false =>
          rw [hs] at hc
          simp only [Option.filter, hs]
          exact List.mem_append_right _ (ih hc)

theorem isValidConstant_of_met_loading (hc : c ∈ u.met t name ms)
    (hl : (u.loading? c).isSome = true) (v : Universe) :
    v.isValidConstant (u.searchConstant t name ms) = false := by
  rw [isValidConstant, allHold, List.all_eq_false]
  exact ⟨.never, never_mem_of_met_loading hc hl, Bool.false_ne_true⟩

/-- Which thread searched does not matter to whether the result may be used. -/
theorem isValidConstant_self_iff :
    u.isValidConstant (u.searchConstant t name ms) = true ↔ u.Quiet name ms := by
  constructor
  · intro hv c hc
    refine Option.not_isSome_iff_eq_none.1 fun hl => ?_
    cases hv.symm.trans (isValidConstant_of_met_loading (mem_met_of_first t hc) hl u)
  · exact fun hq => (isValidConstant_searchConstant hq).2 fun _ _ => rfl

/-- Searches that may be cached come out alike on all threads. -/
theorem searchConstant_eq_of_isValidConstant
    (hv : u.isValidConstant (u.searchConstant t name ms) = true) (t' : ThreadId) :
    u.searchConstant t' name ms = u.searchConstant t name ms := by
  have hq := isValidConstant_self_iff.1 hv
  rw [searchConstant_of_quiet hq, searchConstant_of_quiet hq]

end Universe

namespace ConstantStart

variable {u : Universe} {t : ThreadId} {name : String} {start : ConstantStart} {r : ConstantResult}

/-- The constants that the lookup from a start stops at or passes over. -/
def met (u : Universe) (t : ThreadId) (name : String) (start : ConstantStart) : List Constant :=
  u.met t name (start.path u)

/-- If the result of a lookup is valid, then the lookup on any other thread is valid too and finds
the same constant; and no lookup that meets a constant that is being loaded is ever valid. -/
theorem lookup_threadIndependent (h : start.lookup u t name = .ok r) :
    (u.isValidConstant r = true → ∀ t', ∃ r', start.lookup u t' name = .ok r' ∧
      u.isValidConstant r' = true ∧ r'.constant = r.constant) ∧
    ∀ c ∈ start.met u t name, (u.loading? c).isSome = true →
      ∀ v : Universe, v.isValidConstant r = false := by
  obtain ⟨rfl, hothers⟩ := lookup_eq h
  constructor
  · intro hv t'
    have hsame := Universe.searchConstant_eq_of_isValidConstant hv t'
    exact ⟨_, hothers u t', by rw [hsame, hv], by rw [hsame]⟩
  · exact fun c hc hl v => Universe.isValidConstant_of_met_loading hc hl v

/-- A class whose `C` thread 1 is loading, with the same name bound at toplevel. -/
def loadingClass : Universe :=
  (Universe.create {}).afterAll
    [.newClass (some Core.object), .registerAutoload ⟨12⟩ "C" "lib",
      .setConstant Core.object "C" (.int 1) none, .markAutoload ⟨1⟩ (some ⟨1⟩)]

/-- Thread 1 finds the constant of toplevel and thread 0 the one that is being loaded, and neither
result is ever valid; a name that is not being loaded is found alike. -/
theorem lookup_threadIndependent_loadingClass :
    (∀ v : Universe, v.isValidConstant (loadingClass.lookupConstant ⟨1⟩ ⟨12⟩ "C") = false) ∧
    (∀ v : Universe, v.isValidConstant (loadingClass.lookupConstant ⟨0⟩ ⟨12⟩ "C") = false) ∧
    (loadingClass.lookupConstant ⟨1⟩ ⟨12⟩ "C").constant ≠
      (loadingClass.lookupConstant ⟨0⟩ ⟨12⟩ "C").constant ∧
    ∃ r, (ConstantStart.module Core.object).lookup loadingClass ⟨0⟩ "C" = .ok r ∧
      loadingClass.isValidConstant r = true ∧ r.constant.bind Constant.value? = some (.int 1) := by
  let c : Constant := { declaringModule := ⟨12⟩, name := "C", binding := .autoload ⟨1⟩ }
  have hloading (t : ThreadId) :=
    (@lookup_threadIndependent loadingClass t "C" (.module ⟨12⟩) _ rfl).2 c
  have hquiet := (@lookup_threadIndependent loadingClass ⟨1⟩ "C" (.module Core.object) _ rfl).1
  refine ⟨?_, ?_, by decide +kernel, ?_⟩
  · exact hloading ⟨1⟩ (by decide +kernel) (by decide +kernel)
  · exact hloading ⟨0⟩ (by decide +kernel) (by decide +kernel)
  · obtain ⟨r, hr, hv, hsame⟩ := hquiet (by decide +kernel) ⟨0⟩
    exact ⟨r, hr, hv, by rw [hsame]; decide +kernel⟩

end ConstantStart

end ObjectModel
