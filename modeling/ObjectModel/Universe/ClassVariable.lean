import ObjectModel.Name
import ObjectModel.Universe.Ancestors

/-!
# Class variables

A class variable is shared along a path: the module itself, the module that a singleton class
belongs to, and the ancestors.  An assignment goes to the first module on the path that binds the
name, or else to the module itself.

* `classVariablePath`, `classVariableHolder?`, `lookupClassVariable`, `allClassVariables`;
* `setClassVariable`, `removeClassVariable`, and the operations under checked names.
-/

namespace ObjectModel.Universe

/-- The modules that a class variable is searched for in. -/
def classVariablePath (u : Universe) (m : ModuleId) : List ModuleId :=
  match (u.module m).attached? with
  | some (.module n) => m :: n :: u.otherAncestors n
  | _ => m :: u.otherAncestors m

/-- The class variable of a name in the table of a module itself. -/
def ownClassVariable (u : Universe) (m : ModuleId) (name : String) : Option Value :=
  (u.module m).classVariables.find? name

/-- The first module on the path that binds a class variable. -/
def classVariableHolder? (u : Universe) (m : ModuleId) (name : String) : Option ModuleId :=
  (u.classVariablePath m).find? fun n => (u.ownClassVariable n name).isSome

/-- The value of a class variable as seen from a module. -/
def lookupClassVariable (u : Universe) (m : ModuleId) (name : String) : Option Value :=
  (u.classVariablePath m).findSome? (u.ownClassVariable · name)

/-- The class variables seen from a module; of each name the nearest one counts. -/
def allClassVariables (u : Universe) (m : ModuleId) : Table String Value :=
  ((u.classVariablePath m).flatMap fun n => (u.module n).classVariables.entries).foldl
    (fun t e => t.insertNew e.1 e.2) .empty

/-- Fail if a name is no class variable name. -/
def checkClassVariableName (m : ModuleId) (name : String) : Update Unit := do
  if !Name.isClassVariableName name then
    throw (.invalidClassVariableName name ((← get).display m))

/-- Bind a class variable in the table of a module. -/
def bindClassVariable (m : ModuleId) (name : String) (v : Value) : Change Unit :=
  changeModule m fun r => { r with classVariables := r.classVariables.insert name v }

/-- Assign a class variable where it is bound, or define it. -/
def setClassVariable (m : ModuleId) (name : String) (v : Value) : Update Unit := do
  checkMutable m
  match (← get).classVariableHolder? m name with
  | some n => bindClassVariable n name v
  | none =>
    bindClassVariable m name v
    reportNow fun u => .definedClassVariable (u.display m) name

/-- Assign a class variable under a checked name. -/
def classVariableSet (m : ModuleId) (name : String) (v : Value) : Update Unit := do
  checkClassVariableName m name
  setClassVariable m name v

/-- The value of a class variable under a checked name. -/
def classVariableGet (m : ModuleId) (name : String) : Update Value := do
  checkClassVariableName m name
  let u ← get
  match u.lookupClassVariable m name with
  | some v => return v
  | none => throw (.uninitializedClassVariable name (u.display m))

/-- Whether a class variable is seen from a module. -/
def classVariableDefined (m : ModuleId) (name : String) : Update Bool := do
  checkClassVariableName m name
  return ((← get).lookupClassVariable m name).isSome

/-- Remove a class variable from the table of a module and give its value. -/
def removeClassVariable (m : ModuleId) (name : String) : Update Value := do
  checkClassVariableName m name
  checkMutable m
  let u ← get
  match u.ownClassVariable m name with
  | some v =>
    changeModule m fun r => { r with classVariables := r.classVariables.erase name }
    reportNow fun u => .removedClassVariable (u.display m) name
    return v
  | none => throw (.classVariableNotDefined name (u.display m))

end ObjectModel.Universe
