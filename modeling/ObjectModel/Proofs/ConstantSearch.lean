import ObjectModel.Proofs.Editing
import ObjectModel.Proofs.Guarding

/-!
# The search for constants

An unscoped constant is searched for along a path: the bodies that enclose a reference, a module
and its ancestors, and toplevel.  Where no autoload of the name is in progress, every binding
stops the search, so what it finds and notes depends on the tables up to the first that binds the
name.

* `binds`, `Idle`, `Quiet`: modules that bind a name, and names that no thread is loading;
* `searchConstant_of_quiet`, `isValidConstant_searchConstant`: what a search finds and notes where
  the first binding is not being loaded, and when its result is valid;
* `ConstantStart`, `ConstantStart.lookup`: the three kinds of unscoped lookups;
* `ConstantStart.route`: the path with the repetitions of the walk in it;
* `ConstantStart.tables`, `ConstantStart.chains`: the tables that a lookup inspects, and the
  modules whose own chains its walk goes along.
-/

namespace ObjectModel

namespace Universe

variable {u v : Universe} {t : ThreadId} {name : String} {ms : List ModuleId}

/-- Whether the table of a module itself binds a constant. -/
def binds (u : Universe) (name : String) (m : ModuleId) : Bool := (u.ownConstant m name).isSome

/-- No thread is loading a constant of this name. -/
def Idle (u : Universe) (name : String) : Prop :=
  ∀ m c, u.ownConstant m name = some c → u.loading? c = none

/-- Only the modules with a record bind anything. -/
theorem idle_iff : u.Idle name ↔ ∀ e ∈ u.modules.entries,
    (e.2.constants.find? name).bind u.loading? = none := by
  constructor
  · intro h e he
    have hrec : u.module e.1 = e.2 := by
      rw [module, Table.mem_entries_iff.1 he]
      rfl
    cases hc : e.2.constants.find? name with
    | none => rfl
    | some c => exact h e.1 c (by rw [ownConstant, hrec, hc])
  · intro h m c hc
    rw [ownConstant, module] at hc
    cases hr : u.modules.find? m with
    | none =>
      rw [hr] at hc
      cases hc
    | some r =>
      rw [hr] at hc
      have hr := h _ (Table.mem_entries_iff.2 hr)
      rwa [show r.constants.find? name = some c from hc] at hr

instance (u : Universe) (name : String) : Decidable (u.Idle name) :=
  decidable_of_iff _ idle_iff.symm

/-- The first binding of a name along a path is not being loaded. -/
def Quiet (u : Universe) (name : String) (ms : List ModuleId) : Prop :=
  ∀ c, ms.findSome? (u.ownConstant · name) = some c → u.loading? c = none

theorem Idle.quiet (hi : u.Idle name) (ms : List ModuleId) : u.Quiet name ms := by
  intro c hc
  obtain ⟨m, -, hm⟩ := List.exists_of_findSome?_eq_some hc
  exact hi m c hm

theorem Quiet.tail {m : ModuleId} (hq : u.Quiet name (m :: ms))
    (hm : u.ownConstant m name = none) : u.Quiet name ms := by
  intro c hc
  exact hq c (by rw [List.findSome?_cons, hm, hc])

theorem Quiet.head {m : ModuleId} {c : Constant} (hq : u.Quiet name (m :: ms))
    (hm : u.ownConstant m name = some c) : u.loading? c = none :=
  hq c (by rw [List.findSome?_cons, hm])

/-- The first binding is found, and the tables up to it are noted. -/
theorem searchConstant_of_quiet (hq : u.Quiet name ms) :
    u.searchConstant t name ms = {
      constant := ms.findSome? (u.ownConstant · name)
      assumptions := (through (u.binds name) ms).map fun m => u.assume (.constants m) } := by
  induction ms with
  | nil => rfl
  | cons m ms ih =>
    rw [searchConstant, List.findSome?_cons, through, inspection, binds]
    cases hm : u.ownConstant m name with
    | none =>
      simp only [Option.filter_none, Option.bind_none, Option.isSome_none, Bool.false_eq_true,
        if_false, ih (hq.tail hm), List.map_cons]
      rfl
    | some c =>
      have hc := hq.head hm
      have hstops : u.stopsAt t c = true := by simp [stopsAt, hc]
      simp [Option.filter, hstops, hc]

theorem isValidConstant_searchConstant (hq : u.Quiet name ms) :
    v.isValidConstant (u.searchConstant t name ms) = true ↔
      ∀ m ∈ through (u.binds name) ms,
        (v.module m).constantsVersion = (u.module m).constantsVersion := by
  rw [isValidConstant, allHold, searchConstant_of_quiet hq, List.all_map, List.all_eq_true]
  simp only [Function.comp_apply, holds, assume, Assumption.now, Assumption.holds, versionOf,
    beq_iff_eq]

/-- The path of a module is its walk with itself put first, without the repetitions. -/
theorem constantPath_eq_walk (u : Universe) (m : ModuleId) :
    u.constantPath m = (m :: u.walk m).eraseDups := by
  rw [constantPath, otherAncestors, ancestors_eq_walk, filter_eraseDups, List.eraseDups_cons]
  rfl

/-- The walk of a module with itself put first, and toplevel behind it for plain modules. -/
def openRoute (u : Universe) (m : ModuleId) : List ModuleId :=
  m :: u.walk m ++ if (u.module m).isClass then [] else u.toplevelPath

end Universe

/-! ### Starts -/

/-- Where the search for an unscoped constant starts. -/
inductive ConstantStart
  | module (m : ModuleId)
  | inheriting (m : ModuleId) (inherit : Bool)
  | scope (s : LexicalScope)

namespace ConstantStart

variable {u : Universe} {t : ThreadId} {name : String} {start : ConstantStart}
  {r : ConstantResult} {o : ModuleId}

/-- The modules of a start exist. -/
def Known (u : Universe) : ConstantStart → Prop
  | module m | inheriting m _ => u.knows m
  | scope s => s.Known u

/-- The lookup from a start. -/
def lookup (u : Universe) (t : ThreadId) (name : String) :
    ConstantStart → Except Error ConstantResult
  | module m => .ok (u.lookupConstant t m name)
  | inheriting m inherit => u.lookupConstantInherit t m name inherit
  | scope s => .ok (u.lookupConstantLexical t s name)

/-- The path of the lookup from a start. -/
def path (u : Universe) : ConstantStart → List ModuleId
  | module m => u.constantPath m
  | inheriting m inherit => u.inheritConstantPath m inherit
  | scope s => u.lexicalConstantPath s

/-- The tables that a lookup inspects while the name is idle. -/
def tables (u : Universe) (name : String) (start : ConstantStart) : List ModuleId :=
  through (u.binds name) (start.path u)

/-- The modules whose own chains a lookup goes along.  The chain of the class of objects itself,
which toplevel is made of, is read after its table only. -/
def chains (u : Universe) (name : String) : ConstantStart → List ModuleId
  | module m => u.entered (u.binds name) m
  | inheriting m inherit => if inherit then u.entered (u.binds name) m else []
  | scope s => if s.nesting.any (u.binds name) then [] else u.entered (u.binds name) s.live

theorem lookup_eq (h : start.lookup u t name = .ok r) :
    r = u.searchConstant t name (start.path u) ∧
      ∀ v t', start.lookup v t' name = .ok (v.searchConstant t' name (start.path v)) := by
  cases start with
  | module m => exact ⟨(Except.ok.inj h).symm, fun _ _ => rfl⟩
  | scope s => exact ⟨(Except.ok.inj h).symm, fun _ _ => rfl⟩
  | inheriting m inherit =>
    simp only [lookup, Universe.lookupConstantInherit] at h ⊢
    by_cases hn : Name.isConstantName name = true
    · rw [if_pos hn] at h
      exact ⟨(Except.ok.inj h).symm, fun _ _ => if_pos hn⟩
    · rw [if_neg hn] at h
      cases h

/-! ### Routes -/

/-- The path of a start, with the repetitions of the walk. -/
def route (u : Universe) : ConstantStart → List ModuleId
  | module m => m :: u.walk m
  | inheriting m inherit => if inherit then u.openRoute m else [m]
  | scope s => s.nesting ++ u.openRoute s.live

/-- Repetitions matter neither to what is found nor to the tables on the way. -/
theorem mem_tables (u : Universe) (name : String) (start : ConstantStart) :
    o ∈ start.tables u name ↔ o ∈ through (u.binds name) (start.route u) := by
  have hopen (m : ModuleId) : o ∈ through (u.binds name) (u.openConstantPath m) ↔
      o ∈ through (u.binds name) (u.openRoute m) := by
    rw [Universe.openConstantPath, Universe.openRoute, Universe.constantPath_eq_walk,
      mem_through_append, mem_through_append, mem_through_eraseDups, any_eraseDups]
  cases start with
  | module m => rw [tables, path, route, Universe.constantPath_eq_walk, mem_through_eraseDups]
  | inheriting m inherit =>
    cases inherit with
    | true => exact hopen m
    | false => rfl
  | scope s =>
    rw [tables, path, route, Universe.lexicalConstantPath, mem_through_append,
      mem_through_append, hopen]

theorem findSome?_path (f : ModuleId → Option Constant) (u : Universe) (start : ConstantStart) :
    (start.path u).findSome? f = (start.route u).findSome? f := by
  have hopen (m : ModuleId) : (u.openConstantPath m).findSome? f =
      (u.openRoute m).findSome? f := by
    rw [Universe.openConstantPath, Universe.openRoute, Universe.constantPath_eq_walk,
      List.findSome?_append, List.findSome?_append, findSome?_eraseDups]
  cases start with
  | module m => rw [path, route, Universe.constantPath_eq_walk, findSome?_eraseDups]
  | inheriting m inherit =>
    cases inherit with
    | true => exact hopen m
    | false => rfl
  | scope s =>
    rw [path, route, Universe.lexicalConstantPath, List.findSome?_append,
      List.findSome?_append, hopen]

end ConstantStart

end ObjectModel
