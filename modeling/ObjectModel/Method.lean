import ObjectModel.Context
import ObjectModel.LexicalScope
import ObjectModel.Script.Code
import ObjectModel.Value

/-!
# Methods

Methods are values: an operation that changes one gives another method, so what a lookup found is
never affected by a later redefinition.

* `Closure`, `MethodBody`, `MethodContent`, `Method`;
* `Method.withName` and the other `with…`: a method with one part replaced, and the very same
  method when nothing changes;
* `Method.same`: whether two methods are the very same value;
* `UnboundMethod`, `BoundMethod`: a method with the module it was asked of, or with a receiver.
-/

namespace ObjectModel

/-- A piece of code with the scope and the context of the place where it was made. -/
structure Closure where
  scope : LexicalScope
  context : Context
  code : Script.Expr
  deriving Inhabited

/-- What a call of a method runs. -/
inductive MethodBody
  | code (e : Script.Expr)
  | closure (c : Closure)
  /-- Reads an instance variable. -/
  | reader (ivar : String)
  /-- Writes an instance variable. -/
  | writer (ivar : String)
  | unimplemented
  deriving Inhabited

/-- What a method consists of. -/
structure MethodContent where
  /-- The name that the method was first defined under. -/
  definedName : String
  name : String
  declaringModule : ModuleId
  visibility : Visibility
  scope : LexicalScope
  context : Context
  /-- The context whose refinements led a lookup to this method. -/
  active : Option Context := none
  undefined : Bool := false
  unimplemented : Bool := false
  builtIn : Bool := false
  body : MethodBody
  deriving Inhabited

/-- A method; the stamp tells very methods apart, where it is known. -/
structure Method extends MethodContent where
  stamp : Option Stamp := none
  deriving Inhabited

namespace Method

/-- A method as first defined. -/
def define (name : String) (m : ModuleId) (visibility : Visibility) (scope : LexicalScope)
    (context : Context) (body : MethodBody) : Method where
  definedName := name
  name := name
  declaringModule := m
  visibility := visibility
  scope := scope
  context := context
  unimplemented := match body with
    | .unimplemented => true
    | _ => false
  body := body

/-- Whether two methods are the very same one. -/
def same (f g : Method) : Bool := f.stamp.isSome && f.stamp == g.stamp

/-- Whether a call may reach the method. -/
def isDefined (f : Method) : Bool := !f.undefined

/-- The method under another name. -/
def withName (f : Method) (name : String) : Method :=
  if name = f.name then f else { f with name := name, stamp := none }

/-- The method with another visibility. -/
def withVisibility (f : Method) (v : Visibility) : Method :=
  if v = f.visibility then f else { f with visibility := v, stamp := none }

/-- The method as declared by another module. -/
def withDeclaringModule (f : Method) (m : ModuleId) : Method :=
  if m = f.declaringModule then f else { f with declaringModule := m, stamp := none }

/-- The method with another declaration context; the very same context changes nothing. -/
def withContext (f : Method) (c : Context) : Method :=
  if f.context.same c then f else { f with context := c, stamp := none }

/-- The method as found under a context; the very same context changes nothing. -/
def withActive (f : Method) (c : Context) : Method :=
  if f.active.any (·.same c) then f else { f with active := some c, stamp := none }

/-- The method with the mark of a built-in one set or cleared. -/
def withBuiltIn (f : Method) (builtIn : Bool) : Method :=
  if builtIn = f.builtIn then f else { f with builtIn := builtIn, stamp := none }

/-- A method that hides the name. -/
def asUndefined (f : Method) : Method := { f with undefined := true, stamp := none }

/-- A method that cannot be called. -/
def asUnimplemented (f : Method) : Method := { f with unimplemented := true, stamp := none }

@[simp] theorem withVisibility_visibility (f : Method) (v : Visibility) :
    (f.withVisibility v).visibility = v := by
  unfold withVisibility
  split
  · next h => exact h.symm
  · rfl

@[simp] theorem withName_name (f : Method) (name : String) : (f.withName name).name = name := by
  unfold withName
  split
  · next h => exact h.symm
  · rfl

@[simp] theorem withDeclaringModule_declaringModule (f : Method) (m : ModuleId) :
    (f.withDeclaringModule m).declaringModule = m := by
  unfold withDeclaringModule
  split
  · next h => exact h.symm
  · rfl

end Method

/-- A method detached from any receiver. -/
structure UnboundMethod where
  /-- The module that the method was asked of. -/
  origin : ModuleId
  method : Method
  deriving Inhabited

/-- A method together with its receiver. -/
structure BoundMethod where
  receiver : Value
  method : Method
  deriving Inhabited

end ObjectModel
