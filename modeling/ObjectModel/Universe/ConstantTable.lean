import ObjectModel.Name
import ObjectModel.Universe.Ancestors
import ObjectModel.Universe.Naming

/-!
# Constant tables

Assigning, removing and flagging the constants of a module.

* `setConstant`, `constSet`, `removeConst`: assignment and removal;
* `updateConstants`, `privateConstants`, `publicConstants`, `deprecateConstants`: flags;
* `registerAutoload`, `autoloadPath`: constants that wait for a feature;
* `constantNames`: the public constants that a module shows.
-/

namespace ObjectModel.Universe

/-- The binding of a name in the constant table of a module itself. -/
def ownConstant (u : Universe) (m : ModuleId) (name : String) : Option Constant :=
  (u.module m).constants.find? name

/-- Change the constant table of a module; its version rises even when the table stays as it
was. -/
def changeConstants (m : ModuleId) (f : Table String Constant → Table String Constant) :
    Change Unit :=
  changeModule m (·.updateConstants f)

/-- Fail if a name is no constant name. -/
def checkConstantName (name : String) : Update Unit :=
  if Name.isConstantName name then pure () else throw (.wrongConstantName name)

/-- The constant that an assignment leaves: flags and declaring module of the previous one stay. -/
def assigned (previous : Option Constant) (m : ModuleId) (name : String) (v : Value)
    (source : Option SourceLocation) : Constant :=
  match previous with
  | some c => (c.withValue v).withSource source
  | none => { declaringModule := m, name, binding := .value v, source }

/-- Assign a constant; an anonymous module gets its name by it. -/
def setConstant (m : ModuleId) (name : String) (v : Value) (source : Option SourceLocation) :
    Update Constant := do
  checkMutable m
  let u ← get
  let previous := u.ownConstant m name
  let c := assigned previous m name v source
  changeConstants m (·.insert name c)
  if (previous.bind Constant.value?).isSome && u.options.warnOnConstantRedefinition then
    reportNow fun u => .alreadyInitialized (u.constantName m name)
  reportNow fun u => .setConstant (u.constantName m name)
  match v with
  | .module child => modify fun u => u.adopt m name child
  | _ => pure ()
  return c

/-- Assign a constant under a checked name. -/
def constSet (m : ModuleId) (name : String) (v : Value) : Update Unit := do
  checkConstantName name
  discard <| setConstant m name v none

/-- Remove a constant and give its value, nil when it has none. -/
def removeConst (m : ModuleId) (name : String) : Update Value := do
  checkConstantName name
  checkMutable m
  let u ← get
  changeConstants m (·.erase name)
  match u.ownConstant m name with
  | some c =>
    reportNow fun u => .removedConstant (u.constantName m name)
    return c.value?.getD .nil
  | none => throw (.constantNotDefined (u.constantName m name) name)

/-- Change the constants of the given names, in order, up to the first that is not bound. -/
def updateConstants (m : ModuleId) (names : List String) (f : Constant → Constant) :
    Update Unit := do
  checkMutable m
  names.forM fun name => do
    checkConstantName name
    let u ← get
    match u.ownConstant m name with
    | some c => changeConstants m (·.insert name (f c))
    | none =>
      changeConstants m id
      throw (.constantNotDefined (u.constantName m name) name)

/-- Make constants private. -/
def privateConstants (m : ModuleId) (names : List String) : Update Unit :=
  updateConstants m names (·.withPrivate true)

/-- Make constants public. -/
def publicConstants (m : ModuleId) (names : List String) : Update Unit :=
  updateConstants m names (·.withPrivate false)

/-- Mark constants as deprecated. -/
def deprecateConstants (m : ModuleId) (names : List String) : Update Unit :=
  updateConstants m names Constant.deprecated

/-- Let a feature be loaded at the first reference to a constant, unless it has a value. -/
def registerAutoload (m : ModuleId) (name feature : String) : Update Unit := do
  checkConstantName name
  if feature.isEmpty then throw .emptyFeature
  checkMutable m
  let u ← get
  if ((u.ownConstant m name).bind Constant.value?).isSome then changeConstants m id
  else
    let a ← allocateAutoload feature
    changeConstants m
      (·.insert name { declaringModule := m, name, binding := .autoload a })
    reportNow fun u => .registeredAutoload (u.constantName m name) feature

/-- The feature that the nearest binding of a constant waits for, unless it is being loaded. -/
def autoloadPath (m : ModuleId) (name : String) : Update (Option String) := do
  checkConstantName name
  let u ← get
  let found := (u.ancestors m).findSome? (u.ownConstant · name)
  let pending := (found.bind Constant.autoload?).map u.autoload
  return (pending.filter fun a => !a.isLoading).map Autoload.feature

/-- The names of the public constants in the table of a module itself. -/
def publicConstantNames (u : Universe) (m : ModuleId) : List String :=
  ((u.module m).constants.entries.filter fun e => !e.2.isPrivate).map Prod.fst

/-- The public constants of a module, its own ones first, and with `inherit` those of its other
ancestors up to the class of objects. -/
def constantNames (u : Universe) (m : ModuleId) (inherit : Bool) : List String :=
  let inherited :=
    if inherit then (u.otherAncestors m).takeWhile (· != Core.object) else []
  ((m :: inherited).flatMap u.publicConstantNames).eraseDups

end ObjectModel.Universe
