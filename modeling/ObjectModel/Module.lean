import ObjectModel.Chain
import ObjectModel.Constant
import ObjectModel.Method

/-!
# Modules

The record of a class, a plain module or a refinement: its tables, its chain, and what it is.
-/

namespace ObjectModel

/-- What a singleton class belongs to. -/
inductive Attachment
  | module (m : ModuleId)
  | object (o : ObjectId)
  deriving DecidableEq

/-- The value that a singleton class belongs to. -/
def Attachment.value : Attachment → Value
  | module m => .module m
  | object o => .object o

/-- What a module is. -/
inductive ModuleKind
  | plain
  /-- A class; a singleton class belongs to something. -/
  | cls (attached : Option Attachment)
  /-- The refinement of a module, declared in a namespace. -/
  | refinement (refined nameSpace : ModuleId)
  deriving DecidableEq, Inhabited

/-- The record of a module. -/
structure Module where
  kind : ModuleKind := .plain
  /-- The full name; anonymous modules have none. -/
  name : Option String := none
  chain : Chain := {}
  methods : Table String Method := .empty
  methodsVersion : Nat := 0
  constants : Table String Constant := .empty
  constantsVersion : Nat := 0
  classVariables : Table String Value := .empty
  /-- The refinements declared in this namespace by the modules that they refine. -/
  refinements : Table ModuleId ModuleId := .empty
  /-- The singleton class, once it was asked for. -/
  singleton : Option ModuleId := none
  frozen : Bool := false
  isSealed : Bool := false
  deriving Inhabited

namespace Module

/-- Whether this is a class. -/
def isClass (r : Module) : Bool :=
  match r.kind with
  | .cls _ => true
  | .plain | .refinement _ _ => false

/-- Whether this is a singleton class. -/
def isSingletonClass (r : Module) : Bool :=
  match r.kind with
  | .cls (some _) => true
  | _ => false

/-- Whether this is a class that instances are made of. -/
def isLogicalClass (r : Module) : Bool := r.isClass && !r.isSingletonClass

/-- Whether this is a refinement. -/
def isRefinement (r : Module) : Bool :=
  match r.kind with
  | .refinement _ _ => true
  | _ => false

/-- What a singleton class belongs to. -/
def attached? (r : Module) : Option Attachment :=
  match r.kind with
  | .cls attached => attached
  | .plain | .refinement _ _ => none

/-- The module that a refinement refines. -/
def refined? (r : Module) : Option ModuleId :=
  match r.kind with
  | .refinement refined _ => some refined
  | _ => none

/-- The module that a refinement was declared in. -/
def nameSpace? (r : Module) : Option ModuleId :=
  match r.kind with
  | .refinement _ nameSpace => some nameSpace
  | _ => none

/-- The superclass of a class; the root class and other modules have none. -/
def superclass? (r : Module) : Option ModuleId := if r.isClass then r.chain.parent else none

/-- The record with a changed method table. -/
def updateMethods (f : Table String Method → Table String Method) (r : Module) : Module :=
  { r with methods := f r.methods, methodsVersion := r.methodsVersion + 1 }

/-- The record with a changed constant table. -/
def updateConstants (f : Table String Constant → Table String Constant) (r : Module) : Module :=
  { r with constants := f r.constants, constantsVersion := r.constantsVersion + 1 }

/-- The record with a changed chain; both tables count as changed. -/
def updateChain (f : Chain → Chain) (r : Module) : Module :=
  { r with
    chain := f r.chain
    methodsVersion := r.methodsVersion + 1
    constantsVersion := r.constantsVersion + 1 }

/-- The record with empty tables and a chain of its own; what it is and its name remain. -/
def clear (r : Module) : Module :=
  { r with
    chain := {}
    methods := .empty
    constants := .empty
    classVariables := .empty
    refinements := .empty }

end Module

/-- The record of a plain object. -/
structure Object where
  cls : ModuleId
  /-- The singleton class, once it was asked for. -/
  singleton : Option ModuleId := none
  ivars : Table String Value := .empty
  deriving Inhabited

end ObjectModel
