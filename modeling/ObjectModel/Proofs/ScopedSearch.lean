import ObjectModel.Proofs.ConstantSearch
import ObjectModel.Universe.ConstantAccess

/-!
# The search for scoped constants

A path such as `A::B::C` is looked up segment by segment, each one in the module that the one
before names.  Where no autoload is met on the way, this changes nothing but the reports, and what
is found depends on the first binding of each segment.  The result notes the tables inspected for
the segment looked up last, and none of those that led to it.

* `segmentBinding`, `nextModule?`: the first binding of a segment, and the module that it leads to;
* `Settled`: no first binding on the path waits for a feature;
* `scopedStops`: the segments looked up, each with the module that it is looked up in;
* `scopedTables`, `scopedConstant?`: the tables noted, and what is found;
* `segmentResult`, `scopedResult`: the results for one segment and for a path;
* `WalksTo`, `walkScoped_apply`, `lookupScoped_apply`: what looking a settled path up does.
-/

namespace ObjectModel

namespace Universe

variable {u v : Universe} {t : ThreadId} {inherit : Bool} {m : ModuleId} {segment : String}
  {segments : List String}

/-- The first binding of a segment looked up in a module. -/
def segmentBinding (u : Universe) (inherit : Bool) (m : ModuleId) (segment : String) :
    Option Constant :=
  ((ConstantStart.inheriting m inherit).path u).findSome? (u.ownConstant · segment)

/-- The module that a segment leads to. -/
def nextModule? (u : Universe) (inherit : Bool) (m : ModuleId) (segment : String) :
    Option ModuleId :=
  ((u.segmentBinding inherit m segment).bind Constant.value?).bind Value.asModule?

/-- No first binding on a path waits for a feature. -/
def Settled (u : Universe) (inherit : Bool) (m : ModuleId) : List String → Prop
  | [] => True
  | segment :: rest => (u.segmentBinding inherit m segment).any Constant.isAutoload = false ∧
    ∀ next ∈ u.nextModule? inherit m segment, u.Settled inherit next rest

instance decidableSettled (u : Universe) (inherit : Bool) :
    ∀ m segments, Decidable (u.Settled inherit m segments)
  | _, [] => inferInstanceAs (Decidable True)
  | m, segment :: rest =>
    have := fun next => decidableSettled u inherit next rest
    inferInstanceAs (Decidable (_ ∧ ∀ next ∈ u.nextModule? inherit m segment,
      u.Settled inherit next rest))

/-- The segments of a path that are looked up, each with the module that it is looked up in. -/
def scopedStops (u : Universe) (inherit : Bool) (m : ModuleId) :
    List String → List (ModuleId × String)
  | [] => []
  | segment :: rest => (m, segment) ::
    match u.nextModule? inherit m segment with
    | some next => u.scopedStops inherit next rest
    | none => []

/-- The tables inspected for the segment looked up last. -/
def scopedTables (u : Universe) (inherit : Bool) (m : ModuleId) (segments : List String) :
    List ModuleId :=
  match (u.scopedStops inherit m segments).getLast? with
  | some stop => (ConstantStart.inheriting stop.1 inherit).tables u stop.2
  | none => []

/-- What looking a settled path up finds, if it does not fail: a segment that names no constant or
leads to something other than a module is an error, unless it is the last one. -/
def scopedConstant? (u : Universe) (inherit : Bool) (m : ModuleId) :
    List String → Option (Option Constant)
  | [] => none
  | segment :: rest =>
    if Name.isConstantName segment then
      if rest = [] then some (u.segmentBinding inherit m segment)
      else
        match (u.segmentBinding inherit m segment).bind Constant.value? with
        | none => some none
        | some x => x.asModule?.bind fun next => u.scopedConstant? inherit next rest
    else none

/-! ### One segment -/

theorem quiet_of_not_autoload
    (h : (u.segmentBinding inherit m segment).any Constant.isAutoload = false) :
    u.Quiet segment ((ConstantStart.inheriting m inherit).path u) := by
  intro c hc
  rw [segmentBinding, hc, Option.any_some, Constant.isAutoload, Option.isSome_eq_false_iff,
    Option.isNone_iff_eq_none] at h
  rw [loading?, h]
  rfl

/-- The path of a segment reads the records of modules only. -/
theorem path_of_modules (h : v.modules = u.modules) (m : ModuleId) (inherit : Bool) :
    (ConstantStart.inheriting m inherit).path v = (ConstantStart.inheriting m inherit).path u := by
  simp only [ConstantStart.path, inheritConstantPath, openConstantPath, constantPath_eq_walk,
    walk_of_modules h, toplevelPath, module_congr h]

/-- What looking up a segment whose first binding waits for nothing gives. -/
def segmentResult (u : Universe) (inherit : Bool) (m : ModuleId) (segment : String) :
    ConstantResult where
  constant := u.segmentBinding inherit m segment
  assumptions := ((ConstantStart.inheriting m inherit).tables u segment).map fun k =>
    u.assume (.constants k)

theorem segmentResult_of_modules (h : v.modules = u.modules) (inherit : Bool) (m : ModuleId)
    (segment : String) : v.segmentResult inherit m segment = u.segmentResult inherit m segment := by
  have hown (k : ModuleId) : v.ownConstant k segment = u.ownConstant k segment := by
    rw [ownConstant, module_congr h, ownConstant]
  have hbinds : v.binds segment = u.binds segment := funext fun k => by rw [binds, hown, binds]
  simp only [segmentResult, segmentBinding, ConstantStart.tables, path_of_modules h, hown, hbinds,
    assume, Assumption.now, versionOf, module_congr h]

theorem lookupConstantInherit_of_settled (hw : v.modules = u.modules)
    (h : (u.segmentBinding inherit m segment).any Constant.isAutoload = false) :
    v.lookupConstantInherit t m segment inherit =
      if Name.isConstantName segment then .ok (u.segmentResult inherit m segment)
      else .error (.wrongConstantName segment) := by
  have hsame := segmentResult_of_modules hw inherit m segment
  have hv : (v.segmentBinding inherit m segment).any Constant.isAutoload = false := by
    rw [show v.segmentBinding inherit m segment = u.segmentBinding inherit m segment from
      congrArg ConstantResult.constant hsame]
    exact h
  unfold lookupConstantInherit
  split
  · rw [← hsame]
    exact congrArg Except.ok (searchConstant_of_quiet (t := t) (quiet_of_not_autoload hv))
  · rfl

/-! ### Paths -/

@[simp] theorem scopedStops_cons (u : Universe) (inherit : Bool) (m : ModuleId) (segment : String)
    (rest : List String) : u.scopedStops inherit m (segment :: rest) = (m, segment) ::
      match u.nextModule? inherit m segment with
      | some next => u.scopedStops inherit next rest
      | none => [] := rfl

theorem scopedConstant?_of_next {next : ModuleId} {rest : List String}
    (h : u.nextModule? inherit m segment = some next) (hrest : rest ≠ []) :
    u.scopedConstant? inherit m (segment :: rest) =
      if Name.isConstantName segment then u.scopedConstant? inherit next rest else none := by
  obtain ⟨x, hx, hnext⟩ := Option.bind_eq_some_iff.1 h
  simp only [scopedConstant?, if_neg hrest, hx, hnext, Option.bind_some]

theorem scopedTables_of_next {next : ModuleId} {rest : List String}
    (h : u.nextModule? inherit m segment = some next) (hrest : rest ≠ []) :
    u.scopedTables inherit m (segment :: rest) = u.scopedTables inherit next rest := by
  obtain ⟨s, rest, rfl⟩ := List.exists_cons_of_ne_nil hrest
  rw [scopedTables, scopedStops_cons, h, scopedTables]
  simp only [scopedStops_cons, List.getLast?_cons_cons]

/-- A path ends at a segment that leads to no module, or after which there is none. -/
theorem scopedTables_of_last {rest : List String}
    (h : u.nextModule? inherit m segment = none ∨ rest = []) :
    u.scopedTables inherit m (segment :: rest) =
      (ConstantStart.inheriting m inherit).tables u segment := by
  rw [scopedTables, scopedStops_cons]
  rcases h with h | rfl
  · rw [h]
    rfl
  · cases u.nextModule? inherit m segment <;> rfl

/-- What looking a path up gives when it finds this. -/
def scopedResult (u : Universe) (inherit : Bool) (m : ModuleId) (segments : List String)
    (found : Option Constant) : ConstantResult where
  constant := found
  assumptions := (u.scopedTables inherit m segments).map fun k => u.assume (.constants k)

theorem scopedResult_of_last {rest : List String} (found : Option Constant)
    (h : u.nextModule? inherit m segment = none ∨ rest = []) :
    u.scopedResult inherit m (segment :: rest) found =
      { u.segmentResult inherit m segment with constant := found } := by
  rw [scopedResult, scopedTables_of_last h]
  rfl

/-- The result of a path is valid exactly when the tables noted are at their versions. -/
theorem isValidConstant_scopedResult {found : Option Constant} :
    v.isValidConstant (u.scopedResult inherit m segments found) = true ↔
      ∀ k ∈ u.scopedTables inherit m segments,
        (v.module k).constantsVersion = (u.module k).constantsVersion := by
  rw [isValidConstant, allHold, scopedResult, List.all_map, List.all_eq_true]
  simp only [Function.comp_apply, holds, assume, Assumption.now, Assumption.holds, versionOf,
    beq_iff_eq]

/-! ### Walking -/

section Walking

variable {σ : Type} {w : World σ}

theorem lookupSegment_apply (m : ModuleId) (segment : String) (inherit : Bool) (w : World σ) :
    lookupSegment m segment inherit w =
    match w.model.lookupConstantInherit w.thread m segment inherit with
    | .ok r => .ok r w
    | .error e => .error (.raised e) w := by
  show Act.ofExcept (w.model.lookupConstantInherit w.thread m segment inherit) w = _
  cases w.model.lookupConstantInherit w.thread m segment inherit <;> rfl

/-- Reading a constant that waits for nothing may report that it is deprecated. -/
theorem constantValue_apply (require : String → Act σ Bool) {c : Constant}
    (hc : c.isAutoload = false) (w : World σ) :
    ∃ w', w'.model.modules = w.model.modules ∧ constantValue require m c w = .ok c.value? w' := by
  unfold constantValue
  simp only [hc, Bool.false_eq_true, if_false]
  split
  · exact ⟨{ w with model := (reportNow (fun u => .deprecatedConstant (u.constantName m c.name))
      w.model).2 }, rfl, rfl⟩
  · exact ⟨w, rfl, rfl⟩

/-- Passing a segment that waits for nothing leads to the module that it is bound to. -/
theorem walkScoped_step (require : String → Act σ Bool) (text : String) (passed : Nat)
    {rest : List String} (hw : w.model.modules = u.modules)
    (hs : (u.segmentBinding inherit m segment).any Constant.isAutoload = false)
    (hname : Name.isConstantName segment = true) (hrest : rest ≠ []) :
    ∃ w', w'.model.modules = u.modules ∧
      walkScoped require text inherit passed m (segment :: rest) w =
        match (u.segmentBinding inherit m segment).bind Constant.value? with
        | none => .ok { u.segmentResult inherit m segment with constant := none } w'
        | some (.module next) =>
          walkScoped require text inherit (passed + segment.utf8ByteSize + 2) next rest w'
        | some _ =>
          .error (.raised (.notNamespace
            ((ConstantPath.upTo? text (passed + segment.utf8ByteSize)).getD text))) w' := by
  have hlookup := lookupSegment_apply m segment inherit w
  rw [lookupConstantInherit_of_settled hw hs, hname, if_pos rfl] at hlookup
  have hfound : (u.segmentResult inherit m segment).constant =
    u.segmentBinding inherit m segment := rfl
  obtain ⟨last, rest, rfl⟩ := List.exists_cons_of_ne_nil hrest
  simp only [walkScoped]
  rw [Act.bind_of_ok hlookup]
  cases hb : u.segmentBinding inherit m segment with
  | none =>
    rw [hb] at hfound
    refine ⟨w, hw, ?_⟩
    simp only [hfound, Option.bind_none]
    rw [← hfound]
    rfl
  | some c =>
    rw [hb] at hfound hs
    obtain ⟨w₁, hw₁, hvalue⟩ := constantValue_apply (m := m) require hs w
    refine ⟨w₁, hw₁.trans hw, ?_⟩
    simp only [hfound, Option.bind_some]
    rw [Act.bind_of_ok hvalue]
    cases c.value? with
    | none => rfl
    | some x => cases x <;> rfl

/-- What walking along a path comes to, where the path is settled in `u`. -/
def WalksTo (u : Universe) (inherit : Bool) (m : ModuleId) (segments : List String)
    (outcome : EStateM.Result Failure (World σ) ConstantResult) : Prop :=
  ∃ w', w'.model.modules = u.modules ∧
    match u.scopedConstant? inherit m segments with
    | some found => outcome = .ok (u.scopedResult inherit m segments found) w'
    | none => ∃ e, outcome = .error e w'

theorem WalksTo.of_ok {r : ConstantResult} {w' : World σ}
    (h : u.WalksTo inherit m segments (.ok r w')) : ∃ found,
      u.scopedConstant? inherit m segments = some found ∧
        r = u.scopedResult inherit m segments found := by
  obtain ⟨w₁, -, h⟩ := h
  cases hfound : u.scopedConstant? inherit m segments with
  | none =>
    rw [hfound] at h
    obtain ⟨e, he⟩ := h
    cases he
  | some found =>
    rw [hfound] at h
    cases h
    exact ⟨found, rfl, rfl⟩

theorem WalksTo.ok {outcome : EStateM.Result Failure (World σ) ConstantResult}
    {found : Option Constant} (h : u.WalksTo inherit m segments outcome)
    (hfound : u.scopedConstant? inherit m segments = some found) :
    ∃ w', outcome = .ok (u.scopedResult inherit m segments found) w' := by
  obtain ⟨w', -, h⟩ := h
  rw [hfound] at h
  exact ⟨w', h⟩

/-- Looking a settled path up changes no module, and finds what the first bindings lead to. -/
theorem walkScoped_apply (require : String → Act σ Bool) (text : String) (passed : Nat)
    (hs : u.Settled inherit m segments) (hw : w.model.modules = u.modules) :
    u.WalksTo inherit m segments
      (walkScoped require text inherit passed m segments w) := by
  induction segments generalizing m passed w with
  | nil => exact ⟨w, hw, _, rfl⟩
  | cons segment rest ih =>
    obtain ⟨hhere, hthere⟩ := hs
    have hlookup := lookupSegment_apply m segment inherit w
    rw [lookupConstantInherit_of_settled hw hhere] at hlookup
    cases hname : Name.isConstantName segment with
    | false =>
      refine ⟨w, hw, ?_⟩
      simp only [scopedConstant?, hname, Bool.false_eq_true, if_false] at hlookup ⊢
      cases rest with
      | nil => exact ⟨_, by rw [walkScoped, hname]; rfl⟩
      | cons last rest => exact ⟨_, Act.bind_of_error hlookup⟩
    | true =>
      by_cases hrest : rest = []
      · subst hrest
        simp only [hname, if_true] at hlookup
        refine ⟨w, hw, ?_⟩
        simp only [scopedConstant?, walkScoped, hname, if_true]
        rw [hlookup, scopedResult_of_last _ (.inr rfl)]
        rfl
      · obtain ⟨w₁, hw₁, hstep⟩ := walkScoped_step require text passed hw hhere hname hrest
        simp only [WalksTo, scopedConstant?, hname, if_true, if_neg hrest, hstep]
        have hnext : u.nextModule? inherit m segment =
          ((u.segmentBinding inherit m segment).bind Constant.value?).bind Value.asModule? := rfl
        cases hx : (u.segmentBinding inherit m segment).bind Constant.value? with
        | none =>
          rw [hx] at hnext
          refine ⟨w₁, hw₁, ?_⟩
          simp only [scopedResult_of_last _ (.inl hnext)]
        | some x =>
          rw [hx] at hnext
          cases x with
          | module k =>
            obtain ⟨w₂, hw₂, hwalk⟩ := ih (passed + segment.utf8ByteSize + 2) (hthere k hnext) hw₁
            simp only [scopedResult, scopedTables_of_next hnext hrest]
            exact ⟨w₂, hw₂, hwalk⟩
          | nil | bool | int | symbol | string | object => exact ⟨w₁, hw₁, _, rfl⟩

/-- The module that the first segment of a path is looked up in. -/
def pathStart (m : ModuleId) (text : String) : ModuleId :=
  if (ConstantPath.parse text).absolute then Core.object else m

theorem lookupScoped_apply (require : String → Act σ Bool) (m : ModuleId) (text : String)
    (hs : w.model.Settled inherit (pathStart m text) (ConstantPath.parse text).segments) :
    w.model.WalksTo inherit (pathStart m text) (ConstantPath.parse text).segments
      (lookupScoped require m text inherit w) :=
  walkScoped_apply require text _ hs rfl

end Walking

end Universe

end ObjectModel
