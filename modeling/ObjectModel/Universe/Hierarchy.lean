import ObjectModel.Universe.Ancestors

/-!
# Classes and values

Every value has a class, and a metaclass that the search for its methods starts from.  The
metaclass of a module is its singleton class, made when it is first asked for; the singleton
classes of classes inherit from each other as the classes do.

* `newModule`, `newClass`, `newObject`, `copyModule`;
* `singletonClass`, `singletonClassOf`, `classOf`, `metaclassOf`, `isA`;
* `describe`: how a value is shown in messages.
-/

namespace ObjectModel.Universe

/-- Make an anonymous module. -/
def newModule : Change ModuleId := allocate .plain {}

/-- Make an anonymous class under a class, or under the class of objects. -/
def newClass (superclass : Option ModuleId) : Update ModuleId := do
  match superclass with
  | none => allocate (.cls none) { parent := some Core.object }
  | some s =>
    let r := (← get).module s
    if !r.isClass then throw .superclassNotClass
    if r.isSingletonClass then throw .superclassSingleton
    if s = Core.cls then throw .superclassClass
    allocate (.cls none) { parent := some s }

/-- The singleton class of a module, made when it is missing.  The singleton class of a class
inherits from that of its superclass, the singleton class of a root class from the class of
classes, any other from the class of modules. -/
def singletonClass (m : ModuleId) : Change ModuleId := do
  let r := (← get).module m
  match r.singleton with
  | some s => return s
  | none =>
    let superclass ←
      if r.isClass then
        match r.chain.parent with
        | some p => if p.num < m.num then singletonClass p else pure Core.cls
        | none => pure Core.cls
      else pure Core.module
    let s ← allocate (.cls (some (.module m))) { parent := some superclass }
    changeModule m fun r => { r with singleton := some s }
    return s
termination_by m.num

/-- The class of a value. -/
def classOf (u : Universe) : Value → ModuleId
  | .nil => Core.nilClass
  | .bool true => Core.trueClass
  | .bool false => Core.falseClass
  | .int _ => Core.integer
  | .symbol _ => Core.symbol
  | .string _ => Core.string
  | .module m => if (u.module m).isClass then Core.cls else Core.module
  | .object o => (u.object o).cls

/-- The singleton class of an object, made when it is missing. -/
def objectSingletonClass (o : ObjectId) : Change ModuleId := do
  let r := (← get).object o
  match r.singleton with
  | some s => return s
  | none =>
    let s ← allocate (.cls (some (.object o))) { parent := some r.cls }
    modify fun u => u.modifyObject o fun r => { r with singleton := some s }
    return s

/-- The singleton class of a value; numbers, symbols and strings have none. -/
def singletonClassOf (v : Value) : Update ModuleId :=
  match v with
  | .module m => singletonClass m
  | .object o => objectSingletonClass o
  | .nil => return Core.nilClass
  | .bool true => return Core.trueClass
  | .bool false => return Core.falseClass
  | .int _ | .symbol _ | .string _ => throw .noSingleton

/-- The class that the search for a value's methods starts from. -/
def metaclassOf (v : Value) : Change ModuleId := do
  match v with
  | .module m => singletonClass m
  | .object o =>
    let r := (← get).object o
    return r.singleton.getD r.cls
  | v => return (← get).classOf v

/-- Make an instance of a class. -/
def newObject (m : ModuleId) : Update Value := do
  let u ← get
  if !(u.module m).isClass then throw (.instanceOfModule (u.display m))
  if (u.module m).isSingletonClass then throw .instanceOfSingleton
  return .object (← allocateObject m)

/-- Whether a value is an instance of a module or of one of its descendants. -/
def isA (v : Value) (m : ModuleId) : Change Bool := do
  let metaclass ← metaclassOf v
  return (← get).includes metaclass m

/-- How a value is shown in messages. -/
def describe (u : Universe) (v : Value) : String :=
  match v with
  | .nil => "nil"
  | .bool b => if b then "true" else "false"
  | .module m => u.display m
  | v => s!"an instance of {u.display (u.classOf v)}"

/-- Give an identity to every method of a table that has none. -/
def holdMethods (t : Table String Method) : Change (Table String Method) :=
  modifyGet fun u =>
    (t.mapValues fun name f =>
      match f.stamp with
      | some _ => f
      | none => { f with stamp := some ⟨u.nextSerial + t.keys.idxOf name⟩ },
    { u with nextSerial := u.nextSerial + t.size })

/-- Copy a module or class: its chain, methods, class variables and constants. -/
def copyModule (source : ModuleId) : Update ModuleId := do
  if source = Core.basicObject then throw .copyRoot
  let r := (← get).module source
  match r.kind with
  | .cls (some _) => throw .copySingleton
  | .refinement _ _ => throw .copyRefinement
  | .plain | .cls none => pure ()
  let copy ← allocate r.kind r.chain
  let methods ← holdMethods (r.methods.mapValues fun _ f => f.withDeclaringModule copy)
  changeModule copy fun k =>
    ({ k with methods, classVariables := r.classVariables } : Module).updateConstants
      fun _ => r.constants
  reportNow fun u => .copiedModule (u.display source) (u.display copy)
  return copy

end ObjectModel.Universe
