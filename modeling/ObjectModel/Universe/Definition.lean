import ObjectModel.Name
import ObjectModel.Universe.Hierarchy
import ObjectModel.Universe.MethodLookup

/-!
# Definitions

Adding methods to modules, hiding and removing them, and changing who may call them.

* `addMethod`, `addMethodWithVisibility`: storing a method, the latter under the implicit rules;
* `define`, `defineMethod`: methods with a body of their own, and methods made of others;
* `aliasMethod`, `removeMethod`, `undefineMethod`, `setMethodVisibility`: changes by name;
* `attrReader`, `attrWriter`, `attrAccessor`: generated methods;
* `instanceMethod`, `bind`: methods detached from and attached to receivers.
-/

namespace ObjectModel.Universe

/-- Store a method in the table of a module, in place of an earlier one of its name. -/
def addMethod (m : ModuleId) (f : Method) : Update Unit := do
  checkMutable m
  let f ← holdMethod (f.withBuiltIn !(← get).options.coreLoaded)
  changeModule m (·.updateMethods (·.insert f.name f))
  reportNow fun u => .addedMethod (u.display m) f.name f.undefined

/-- The visibility that a method of this name gets when another is asked for. -/
def effectiveVisibility (name : String) (v : Visibility) : Visibility :=
  if Name.isImplicitlyPrivate name then .priv else v

/-- Store a method under a visibility.  Initializers are private whatever is asked for; a module
function is stored as private in the module and as public in its singleton class. -/
def addMethodWithVisibility (m : ModuleId) (f : Method) (v : Visibility) : Update Unit :=
  match effectiveVisibility f.name v with
  | .moduleFunction => do
    addMethod m (f.withVisibility .priv)
    let s ← singletonClass m
    addMethod s ((f.withDeclaringModule s).withVisibility .pub)
  | v => addMethod m (f.withVisibility v)

/-- Define a method with a body, as code of a scope and a context does. -/
def define (m : ModuleId) (name : String) (scope : LexicalScope) (context : Context)
    (body : Script.Expr) : Update Method := do
  let f ← holdMethod (.define name m context.visibility scope context (.code body))
  addMethodWithVisibility m f context.visibility
  reportNow fun u => .definedMethod (u.display m) name
  return f

/-- A method as declared by a module that it may be bound to. -/
def rebind (u : Universe) (m : ModuleId) (f : Method) : Except Error Method :=
  if u.canBind f m then .ok (f.withDeclaringModule m)
  else .error (.bindNotSubclass (u.display f.declaringModule))

/-- Define a public method made of a closure or of another method. -/
def defineMethod (m : ModuleId) (name : String) (source : Closure ⊕ Method) : Update Method := do
  let made ← match source with
    | .inl c => pure (Method.define name m .pub c.scope c.context (.closure c))
    | .inr f => MonadExcept.ofExcept ((← get).rebind m f)
  let f ← holdMethod (made.withName name)
  addMethodWithVisibility m f .pub
  reportNow fun u => .definedMethod (u.display m) name
  return f

/-- Find a method from a module; plain modules also see the methods of all objects. -/
def findMethodDeep (u : Universe) (m : ModuleId) (name : String) : Option Method :=
  match u.findMethod m name none with
  | some f => some f
  | none => if (u.module m).isClass then none else u.findMethod Core.object name none

/-- The defined method that a change by name is about. -/
def findDefined (m : ModuleId) (name : String) : Update Method := do
  let u ← get
  match (u.findMethodDeep m name).filter Method.isDefined with
  | some f => return f
  | none => throw (.undefinedMethod name (u.display m))

/-- Store a method under another name too. -/
def aliasMethod (m : ModuleId) (newName oldName : String) : Update Unit := do
  let f ← findDefined m oldName
  addMethod m (f.withName newName)
  reportNow fun u => .aliasedMethod (u.display m) newName oldName

/-- Drop a method from the table of a module, uncovering inherited ones. -/
def removeMethod (m : ModuleId) (name : String) : Update Unit := do
  checkMutable m
  let u ← get
  match u.ownMethod m name with
  | none => throw (.methodNotDefinedIn name (u.display m))
  | some _ =>
    changeModule m (·.updateMethods (·.erase name))
    reportNow fun u => .removedMethod (u.display m) name

/-- Hide a method, inherited definitions included. -/
def undefineMethod (m : ModuleId) (name : String) : Update Unit := do
  checkMutable m
  let f ← findDefined m name
  addMethod m (f.withDeclaringModule m).asUndefined
  reportNow fun u => .undefinedMethod (u.display m) name

/-- Fail if module functions are asked of a class. -/
def checkModuleFunction (m : ModuleId) (v : Visibility) : Update Unit := do
  if v = .moduleFunction ∧ ((← get).module m).isClass then throw .moduleFunctionInClass

/-- Change the visibility of one method as seen from a module. -/
def setOneVisibility (m : ModuleId) (name : String) (v : Visibility) : Update Unit := do
  let f ← findDefined m name
  if v = .moduleFunction then addMethodWithVisibility m f v
  else if f.visibility ≠ v then addMethod m (f.withVisibility v)

/-- Change the visibility of methods as seen from a module. -/
def setMethodVisibility (m : ModuleId) (names : List String) (v : Visibility) : Update Unit := do
  checkModuleFunction m v
  names.forM fun name => setOneVisibility m name v

/-- Change the default visibility of a context, or with names that of these methods alone. -/
def setVisibility (c : Context) (m : ModuleId) (names : List String) (v : Visibility) :
    Update Context := do
  if names.isEmpty then
    checkModuleFunction m v
    holdContext (c.withVisibility v)
  else
    setMethodVisibility m names v
    return c

/-- Change the visibility of methods that a module itself answers to. -/
def setClassMethodVisibility (m : ModuleId) (names : List String) (v : Visibility) :
    Update Unit := do
  let s ← singletonClass m
  setMethodVisibility s names v

/-- Define a reader or a writer of an instance variable. -/
def defineAccessor (m : ModuleId) (name : String) (writer : Bool) : Update Unit := do
  if !Name.isAttributeName name then throw (.invalidAttributeName name)
  let ivar := s!"@{name}"
  let (methodName, body) :=
    if writer then (s!"{name}=", MethodBody.writer ivar) else (name, MethodBody.reader ivar)
  addMethodWithVisibility m (.define methodName m .pub (.ofModule m) .toplevel body) .pub

/-- Define readers of instance variables. -/
def attrReader (m : ModuleId) (names : List String) : Update Unit :=
  names.forM fun name => defineAccessor m name false

/-- Define writers of instance variables. -/
def attrWriter (m : ModuleId) (names : List String) : Update Unit :=
  names.forM fun name => defineAccessor m name true

/-- Define readers and writers of instance variables. -/
def attrAccessor (m : ModuleId) (names : List String) : Update Unit :=
  names.forM fun name => do
    defineAccessor m name false
    defineAccessor m name true

/-- Detach a method from a module. -/
def instanceMethod (m : ModuleId) (name : String) : Update UnboundMethod := do
  return ⟨m, ← findDefined m name⟩

/-- Detach a public method from a module. -/
def publicInstanceMethod (m : ModuleId) (name : String) : Update UnboundMethod := do
  let f ← findDefined m name
  if !f.visibility.isPublic then
    throw (.methodNotPublic name ((← get).display m) f.visibility)
  return ⟨m, f⟩

/-- Attach a method to a receiver of the hierarchy that declares it. -/
def bind (f : Method) (receiver : Value) : Update BoundMethod := do
  let metaclass ← metaclassOf receiver
  let u ← get
  if !u.canBind f metaclass then throw (.bindNotInstance (u.display f.declaringModule))
  return ⟨receiver, f⟩

/-- Detach a method from its receiver. -/
def unbind (u : Universe) (b : BoundMethod) : UnboundMethod := ⟨u.classOf b.receiver, b.method⟩

end ObjectModel.Universe
