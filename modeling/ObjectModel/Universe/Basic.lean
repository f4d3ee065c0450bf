import ObjectModel.Assumption
import ObjectModel.Error
import ObjectModel.Module
import ObjectModel.Options

/-!
# The universe

A universe holds the records of all modules and objects, the state of autoloads, and the counters
that new entities are numbered by.

* `Universe`; `module`, `object`, `autoload`: reading a record, a default one for strangers;
* `setModule`, `setObject`, `setAutoload`, each with the law of what it does to every reading;
* `versionOf`, `holds`, `assume`: versions of tables, and assumptions about them;
* `Change`, `Update`: changes that always succeed, and changes that may fail;
* `display`: how a module is shown.
-/

namespace ObjectModel

/-- The state of an object model. -/
structure Universe where
  options : Options := {}
  modules : Table ModuleId Module := .empty
  objects : Table ObjectId Object := .empty
  autoloads : Table AutoloadId Autoload := .empty
  counters : Table CounterId Nat := .empty
  /-- The number of the next module or object. -/
  nextId : Nat := 1
  /-- The number of the next entity that is neither. -/
  nextSerial : Nat := 1
  /-- Whether there is a loader for features. -/
  hasLoader : Bool := false
  /-- What was reported and not yet taken, newest first. -/
  reports : List Event := []
  deriving Inhabited

/-- A change of a universe that always succeeds. -/
abbrev Change := StateM Universe

/-- A change of a universe that may fail; what it changed before stays. -/
abbrev Update := EStateM Error Universe

instance : MonadLift (StateM Universe) (EStateM Error Universe) where
  monadLift change := fun u => .ok (change u).1 (change u).2

namespace Universe

/-! ### Records -/

/-- The record of a module. -/
def module (u : Universe) (m : ModuleId) : Module := (u.modules.find? m).getD default

/-- The record of an object. -/
def object (u : Universe) (o : ObjectId) : Object := (u.objects.find? o).getD default

/-- The state of an autoload. -/
def autoload (u : Universe) (a : AutoloadId) : Autoload := (u.autoloads.find? a).getD default

/-- Replace the record of a module. -/
def setModule (u : Universe) (m : ModuleId) (r : Module) : Universe :=
  { u with modules := u.modules.insert m r }

/-- Change the record of a module. -/
def modifyModule (u : Universe) (m : ModuleId) (f : Module → Module) : Universe :=
  u.setModule m (f (u.module m))

/-- Replace the record of an object. -/
def setObject (u : Universe) (o : ObjectId) (r : Object) : Universe :=
  { u with objects := u.objects.insert o r }

/-- Change the record of an object. -/
def modifyObject (u : Universe) (o : ObjectId) (f : Object → Object) : Universe :=
  u.setObject o (f (u.object o))

/-- Replace the state of an autoload. -/
def setAutoload (u : Universe) (a : AutoloadId) (s : Autoload) : Universe :=
  { u with autoloads := u.autoloads.insert a s }

theorem module_setModule (u : Universe) (m n : ModuleId) (r : Module) :
    (u.setModule m r).module n = if m = n then r else u.module n := by
  simp only [module, setModule, Table.find?_insert]
  split <;> rfl

@[simp] theorem module_setModule_self (u : Universe) (m : ModuleId) (r : Module) :
    (u.setModule m r).module m = r := by
  rw [module_setModule, if_pos rfl]

theorem module_setModule_of_ne (u : Universe) {m n : ModuleId} (h : m ≠ n) (r : Module) :
    (u.setModule m r).module n = u.module n := by
  rw [module_setModule, if_neg h]

theorem module_modifyModule (u : Universe) (m n : ModuleId) (f : Module → Module) :
    (u.modifyModule m f).module n = if m = n then f (u.module n) else u.module n := by
  rw [modifyModule, module_setModule]
  split
  · next h => rw [h]
  · rfl

@[simp] theorem module_setObject (u : Universe) (o : ObjectId) (r : Object) (m : ModuleId) :
    (u.setObject o r).module m = u.module m := rfl

@[simp] theorem module_setAutoload (u : Universe) (a : AutoloadId) (s : Autoload) (m : ModuleId) :
    (u.setAutoload a s).module m = u.module m := rfl

theorem object_setObject (u : Universe) (o p : ObjectId) (r : Object) :
    (u.setObject o r).object p = if o = p then r else u.object p := by
  simp only [object, setObject, Table.find?_insert]
  split <;> rfl

theorem autoload_setAutoload (u : Universe) (a b : AutoloadId) (s : Autoload) :
    (u.setAutoload a s).autoload b = if a = b then s else u.autoload b := by
  simp only [autoload, setAutoload, Table.find?_insert]
  split <;> rfl

/-! ### Versions -/

/-- The current version of a table or a counter. -/
def versionOf (u : Universe) : Guarded → Nat
  | .methods m => (u.module m).methodsVersion
  | .constants m => (u.module m).constantsVersion
  | .counter c => (u.counters.find? c).getD 0

/-- Whether an assumption holds now. -/
def holds (u : Universe) (a : Assumption) : Bool := a.holds u.versionOf

/-- Whether assumptions hold now. -/
def allHold (u : Universe) (as : List Assumption) : Bool := as.all u.holds

/-- The assumption that something stays at its current version. -/
def assume (u : Universe) (guarded : Guarded) : Assumption := .now u.versionOf guarded

/-! ### Display -/

/-- A number as 16 hexadecimal digits. -/
def hexNumber (n : Nat) : String :=
  let digits := Nat.toDigits 16 n
  String.ofList (List.replicate (16 - digits.length) '0' ++ digits)

/-- How a module is shown: by its name, or by what it is.  A singleton class or a refinement is
younger than the modules that it is shown by. -/
def display (u : Universe) (m : ModuleId) : String :=
  match (u.module m).name with
  | some name => name
  | none =>
    match (u.module m).kind with
    | .plain => s!"#<Module:0x{hexNumber m.num}>"
    | .cls none => s!"#<Class:0x{hexNumber m.num}>"
    | .cls (some (.module n)) =>
      let shown := if n.num < m.num then u.display n else ""
      s!"#<Class:{shown}>"
    | .cls (some (.object o)) =>
      let shown := if (u.object o).cls.num < m.num then u.display (u.object o).cls else ""
      s!"#<Class:#<{shown}:0x{hexNumber o.num}>>"
    | .refinement refined nameSpace =>
      let shown := if refined.num < m.num then u.display refined else ""
      let shownSpace := if nameSpace.num < m.num then u.display nameSpace else ""
      s!"#<refinement:{shown}@{shownSpace}>"
termination_by m.num

/-- How a constant of a module is shown. -/
def constantName (u : Universe) (m : ModuleId) (name : String) : String :=
  if m = Core.object then name else s!"{u.display m}::{name}"

/-! ### Elementary changes -/

/-- Report something. -/
def report (e : Event) : Change Unit :=
  modify fun u => { u with reports := e :: u.reports }

/-- Report something about the current state. -/
def reportNow (e : Universe → Event) : Change Unit :=
  modify fun u => { u with reports := e u :: u.reports }

/-- Change the record of a module. -/
def changeModule (m : ModuleId) (f : Module → Module) : Change Unit :=
  modify fun u => u.modifyModule m f

/-- The next number for an entity that is neither a module nor an object. -/
def freshSerial : Change Nat :=
  modifyGet fun u => (u.nextSerial, { u with nextSerial := u.nextSerial + 1 })

/-- Make a module with a given chain. -/
def allocate (kind : ModuleKind) (chain : Chain) : Change ModuleId :=
  modifyGet fun u =>
    (⟨u.nextId⟩, { u.setModule ⟨u.nextId⟩ { kind, chain } with nextId := u.nextId + 1 })

/-- Make an object. -/
def allocateObject (cls : ModuleId) : Change ObjectId :=
  modifyGet fun u =>
    (⟨u.nextId⟩, { u.setObject ⟨u.nextId⟩ { cls } with nextId := u.nextId + 1 })

/-- Make an autoload of a feature. -/
def allocateAutoload (feature : String) : Change AutoloadId := do
  let n ← freshSerial
  modify fun u => u.setAutoload ⟨n⟩ { feature }
  return ⟨n⟩

/-- Give a method an identity, unless it has one. -/
def holdMethod (f : Method) : Change Method := do
  match f.stamp with
  | some _ => return f
  | none => return { f with stamp := some ⟨← freshSerial⟩ }

/-- Give a context an identity, unless it has one. -/
def holdContext (c : Context) : Change Context := do
  match c.stamp with
  | some _ => return c
  | none => return { c with stamp := some ⟨← freshSerial⟩ }

/-! ### Mutability -/

/-- Why a module may not be changed, if it may not. -/
def immutable? (u : Universe) (m : ModuleId) : Option Error :=
  let r := u.module m
  if r.frozen then some (.frozenModule r.isClass (u.display m))
  else if r.isSealed then some (.sealedModule r.isClass (u.display m))
  else none

/-- Fail if a module may not be changed. -/
def checkMutable (m : ModuleId) : Update Unit := do
  match (← get).immutable? m with
  | some e => throw e
  | none => pure ()

/-- Freeze a module. -/
def freezeModule (m : ModuleId) : Change Unit := changeModule m fun r => { r with frozen := true }

/-- Seal a module. -/
def sealModule (m : ModuleId) : Change Unit := changeModule m fun r => { r with isSealed := true }

/-! ### Creation -/

/-- The chains of the core classes and modules. -/
def coreChains : List (ModuleId × ModuleKind × Chain) :=
  let plainClass : ModuleKind := .cls none
  [(Core.basicObject, plainClass, {}),
    (Core.kernel, .plain, {}),
    (Core.object, plainClass, { included := [Core.kernel], parent := some Core.basicObject }),
    (Core.module, plainClass, { parent := some Core.object }),
    (Core.cls, plainClass, { parent := some Core.module }),
    (Core.nilClass, plainClass, { parent := some Core.object }),
    (Core.trueClass, plainClass, { parent := some Core.object }),
    (Core.falseClass, plainClass, { parent := some Core.object }),
    (Core.integer, plainClass, { parent := some Core.object }),
    (Core.symbol, plainClass, { parent := some Core.object }),
    (Core.string, plainClass, { parent := some Core.object })]

/-- The constants of the class of objects: the core classes and modules. -/
def coreConstants : Table String Constant :=
  .ofList <| Core.named.map fun (name, m) =>
    (name, { declaringModule := Core.object, name, binding := .value (.module m) })

/-- The record that a core class or module starts with. -/
def coreRecord (m : ModuleId) (kind : ModuleKind) (chain : Chain) : Module :=
  let name := (Core.named.find? fun e => e.2 == m).map Prod.fst
  if m = Core.object then { kind, chain, name, constants := coreConstants, constantsVersion := 1 }
  else { kind, chain, name }

/-- A universe with the core classes and modules, bound as constants. -/
def create (options : Options) : Universe where
  options := options
  modules := .ofList <| coreChains.map fun (m, kind, chain) => (m, coreRecord m kind chain)
  nextId := coreChains.length + 1

/-- The universe with every table emptied. -/
def clear (u : Universe) : Universe :=
  { u with modules := u.modules.mapValues fun _ r => r.clear }

end Universe

end ObjectModel
