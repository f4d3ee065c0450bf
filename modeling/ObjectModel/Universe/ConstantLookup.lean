import ObjectModel.Universe.ConstantTable

/-!
# Constant lookup

A reference to a constant is searched for along a path of modules: the enclosing bodies, the
innermost module and its ancestors, and toplevel for code in plain modules.  Each inspected table
leaves an assumption.  A constant that is being autoloaded makes the result depend on the thread,
which never counts as valid.

* `ConstantResult`, its validity;
* `searchConstant`: the search along a path;
* `constantPath`, `openConstantPath`, `lexicalConstantPath`: the paths;
* `lookupConstant`, `lookupConstantLexical`, `lookupConstantInherit`: the lookups.
-/

namespace ObjectModel

/-- What the search for a constant found, and what it relies on. -/
structure ConstantResult where
  constant : Option Constant
  assumptions : List Assumption
  deriving DecidableEq, Inhabited

namespace Universe

/-- Whether a constant result may still be used. -/
def isValidConstant (u : Universe) (r : ConstantResult) : Bool := u.allHold r.assumptions

/-- The state of the autoload that a constant waits for, while a thread works on it. -/
def loading? (u : Universe) (c : Constant) : Option Autoload :=
  (c.autoload?.map u.autoload).filter Autoload.isLoading

/-- Whether a search on thread `t` stops at a constant: it passes over one that this very thread
is loading. -/
def stopsAt (u : Universe) (t : ThreadId) (c : Constant) : Bool :=
  !(u.loading? c).any (·.isLoadingOn t)

/-- What inspecting a name in one table relies on. -/
def inspection (u : Universe) (name : String) (m : ModuleId) : List Assumption :=
  u.assume (.constants m) ::
    if ((u.ownConstant m name).bind u.loading?).isSome then [.never] else []

/-- Search the tables of modules in order, on thread `t`. -/
def searchConstant (u : Universe) (t : ThreadId) (name : String) :
    List ModuleId → ConstantResult
  | [] => ⟨none, []⟩
  | m :: ms =>
    match (u.ownConstant m name).filter (u.stopsAt t) with
    | some c => ⟨some c, u.inspection name m⟩
    | none =>
      let rest := u.searchConstant t name ms
      { rest with assumptions := u.inspection name m ++ rest.assumptions }

/-- The path of a reference to a constant of a module: itself, then its ancestors. -/
def constantPath (u : Universe) (m : ModuleId) : List ModuleId := m :: u.otherAncestors m

/-- The path that toplevel constants are found along. -/
def toplevelPath (u : Universe) : List ModuleId :=
  Core.object :: (u.module Core.object).chain.mixins

/-- The path of a reference in the body of a module: code of plain modules also sees toplevel. -/
def openConstantPath (u : Universe) (m : ModuleId) : List ModuleId :=
  u.constantPath m ++ if (u.module m).isClass then [] else u.toplevelPath

/-- The path of an unqualified reference: the enclosing bodies first. -/
def lexicalConstantPath (u : Universe) (s : LexicalScope) : List ModuleId :=
  s.nesting ++ u.openConstantPath s.live

/-- The path of a reference through a module, with or without its ancestors. -/
def inheritConstantPath (u : Universe) (m : ModuleId) (inherit : Bool) : List ModuleId :=
  if inherit then u.openConstantPath m else [m]

/-- Look a constant up in a module and its ancestors. -/
def lookupConstant (u : Universe) (t : ThreadId) (m : ModuleId) (name : String) :
    ConstantResult :=
  u.searchConstant t name (u.constantPath m)

/-- Look an unqualified constant up from a scope. -/
def lookupConstantLexical (u : Universe) (t : ThreadId) (s : LexicalScope) (name : String) :
    ConstantResult :=
  u.searchConstant t name (u.lexicalConstantPath s)

/-- Look a constant of a checked name up in a module, with or without its ancestors. -/
def lookupConstantInherit (u : Universe) (t : ThreadId) (m : ModuleId) (name : String)
    (inherit : Bool) : Except Error ConstantResult :=
  if Name.isConstantName name then
    .ok (u.searchConstant t name (u.inheritConstantPath m inherit))
  else .error (.wrongConstantName name)

/-- Whether a constant counts as defined on a thread: it has a value, or it waits for a feature
that this thread is not loading. -/
def isDefinedConstant (u : Universe) (t : ThreadId) (c : Constant) : Bool :=
  match c.binding with
  | .value _ => true
  | .autoload a => !(u.autoload a).isLoadingOn t
  | .undefined => false

@[simp] theorem searchConstant_nil (u : Universe) (t : ThreadId) (name : String) :
    u.searchConstant t name [] = ⟨none, []⟩ := rfl

/-- What a search finds is the first binding that it stops at. -/
theorem searchConstant_constant (u : Universe) (t : ThreadId) (name : String)
    (ms : List ModuleId) :
    (u.searchConstant t name ms).constant =
      ms.findSome? fun m => (u.ownConstant m name).filter (u.stopsAt t) := by
  induction ms with
  | nil => rfl
  | cons m ms ih =>
    rw [searchConstant, List.findSome?_cons]
    cases h : (u.ownConstant m name).filter (u.stopsAt t) with
    | some c => rfl
    | none => exact ih

end Universe

end ObjectModel
