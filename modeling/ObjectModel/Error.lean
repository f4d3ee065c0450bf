import ObjectModel.Visibility

/-!
# Errors

What operations on the object model fail with, by cause.

* `Error`: the causes, each with what its wording needs;
* `Error.kind`, `Error.message`, `Error.name?`: the kind of error a cause belongs to, its wording,
  and the offending name of a name error.

A lookup that finds nothing is no error; only operations that need a binding fail.
-/

namespace ObjectModel

/-- The kinds of errors. -/
inductive ErrorKind
  | nameError
  | noMethodError
  | typeError
  | argumentError
  | frozenError
  | securityError
  deriving DecidableEq

namespace ErrorKind

/-- The class name of a kind of errors. -/
def text : ErrorKind → String
  | .nameError => "NameError"
  | .noMethodError => "NoMethodError"
  | .typeError => "TypeError"
  | .argumentError => "ArgumentError"
  | .frozenError => "FrozenError"
  | .securityError => "SecurityError"

/-- The kind with a given class name; names of no kind stand for argument errors. -/
def ofText : String → ErrorKind
  | "NameError" => .nameError
  | "NoMethodError" => .noMethodError
  | "TypeError" => .typeError
  | "FrozenError" => .frozenError
  | "SecurityError" => .securityError
  | _ => .argumentError

/-- Whether errors of this kind carry the name they are about. -/
def isNameError : ErrorKind → Bool
  | .nameError | .noMethodError => true
  | .typeError | .argumentError | .frozenError | .securityError => false

@[simp] theorem ofText_text (k : ErrorKind) : ofText k.text = k := by cases k <;> rfl

end ErrorKind

/-- The causes of failure; modules and receivers are given as they are shown. -/
inductive Error
  /-- An error raised by code, with its wording. -/
  | custom (kind : ErrorKind) (message name : String)
  /-- A constant name outside the grammar. -/
  | wrongConstantName (name : String)
  /-- A constant that no searched module binds. -/
  | uninitializedConstant (qualified name : String)
  /-- A change to a constant that its module does not bind. -/
  | constantNotDefined (qualified name : String)
  /-- A scoped reference to a private constant. -/
  | privateConstant (qualified name : String)
  /-- A change to a method that is not found from a module. -/
  | undefinedMethod (name module : String)
  /-- The removal of a method that its module does not hold. -/
  | methodNotDefinedIn (name module : String)
  /-- A request for a public method that is not public. -/
  | methodNotPublic (name module : String) (visibility : Visibility)
  /-- An attribute name outside the grammar. -/
  | invalidAttributeName (name : String)
  /-- A class variable name outside the grammar. -/
  | invalidClassVariableName (name module : String)
  /-- A class variable that no searched module binds. -/
  | uninitializedClassVariable (name module : String)
  /-- The removal of a class variable that its module does not hold. -/
  | classVariableNotDefined (name module : String)
  /-- A call of a method that is not found. -/
  | noMethod (name receiver : String)
  /-- A call of a method that the caller may not see. -/
  | methodNotVisible (visibility : Visibility) (name receiver : String)
  /-- A call of a method without a body. -/
  | methodNotImplemented (name : String)
  /-- A call of the next definition where there is none. -/
  | noSuperMethod (name receiver : String)
  /-- A superclass that is no class. -/
  | superclassNotClass
  /-- A superclass that is a singleton class. -/
  | superclassSingleton
  /-- A superclass that is the class of classes. -/
  | superclassClass
  /-- A class reopened under another superclass. -/
  | superclassMismatch (name : String)
  /-- A module opened under a name bound to something else. -/
  | notModule (name : String)
  /-- A class opened under a name bound to something else. -/
  | notClass (name : String)
  /-- An instance asked of a plain module. -/
  | instanceOfModule (module : String)
  /-- An instance asked of a singleton class. -/
  | instanceOfSingleton
  /-- A singleton class asked of a value that has none. -/
  | noSingleton
  /-- A copy of the root class. -/
  | copyRoot
  /-- A copy of a singleton class. -/
  | copySingleton
  /-- A copy of a refinement. -/
  | copyRefinement
  /-- A comparison with a value that is no module. -/
  | comparedWithNonModule
  /-- A class where a plain module is expected. -/
  | classNotMixin
  /-- A receiver outside the hierarchy of a method's module. -/
  | bindNotInstance (module : String)
  /-- A module outside the hierarchy of a method's module. -/
  | bindNotSubclass (module : String)
  /-- A module function asked of a class. -/
  | moduleFunctionInClass
  /-- A path through a constant that is no module. -/
  | notNamespace (path : String)
  /-- A module included into one of its own ancestors. -/
  | cyclicInclude
  /-- A module prepended to one of its own ancestors. -/
  | cyclicPrepend
  /-- An autoload without a feature. -/
  | emptyFeature
  /-- A call with the wrong number of arguments. -/
  | wrongArity (given expected : Nat)
  /-- Too many bodies at once. -/
  | stackTooDeep
  /-- A change to a frozen class or module. -/
  | frozenModule (isClass : Bool) (module : String)
  /-- A change to a receiver without instance variables. -/
  | frozenReceiver (cls : String)
  /-- A change to a sealed class or module. -/
  | sealedModule (isClass : Bool) (module : String)
  deriving DecidableEq

namespace Error

/-- The noun for a class or a module. -/
def noun (isClass : Bool) : String := if isClass then "Class" else "Module"

/-- The kind of error that a cause belongs to. -/
def kind : Error → ErrorKind
  | custom kind _ _ => kind
  | wrongConstantName _ | uninitializedConstant _ _ | constantNotDefined _ _
  | privateConstant _ _ | undefinedMethod _ _ | methodNotDefinedIn _ _ | methodNotPublic _ _ _
  | invalidAttributeName _ | invalidClassVariableName _ _ | uninitializedClassVariable _ _
  | classVariableNotDefined _ _ => .nameError
  | noMethod _ _ | methodNotVisible _ _ _ | methodNotImplemented _ | noSuperMethod _ _ =>
    .noMethodError
  | superclassNotClass | superclassSingleton | superclassClass | superclassMismatch _
  | notModule _ | notClass _ | instanceOfModule _ | instanceOfSingleton | noSingleton | copyRoot
  | copySingleton | copyRefinement | comparedWithNonModule | classNotMixin | bindNotInstance _
  | bindNotSubclass _ | moduleFunctionInClass | notNamespace _ => .typeError
  | cyclicInclude | cyclicPrepend | emptyFeature | wrongArity _ _ | stackTooDeep =>
    .argumentError
  | frozenModule _ _ | frozenReceiver _ => .frozenError
  | sealedModule _ _ => .securityError

/-- The wording of a cause. -/
def message : Error → String
  | custom _ message _ => message
  | wrongConstantName name => s!"wrong constant name {name}"
  | uninitializedConstant qualified _ => s!"uninitialized constant {qualified}"
  | constantNotDefined qualified _ => s!"constant {qualified} not defined"
  | privateConstant qualified _ => s!"private constant {qualified} referenced"
  | undefinedMethod name module => s!"undefined method `{name}' for {module}"
  | methodNotDefinedIn name module => s!"method `{name}' not defined in {module}"
  | methodNotPublic name module visibility =>
    s!"method `{name}' for {module} is {visibility.keyword}"
  | invalidAttributeName name => s!"invalid attribute name `{name}'"
  | invalidClassVariableName name module =>
    s!"`{name}' is not allowed as a class variable name (in {module})"
  | uninitializedClassVariable name module => s!"uninitialized class variable {name} in {module}"
  | classVariableNotDefined name module => s!"class variable {name} not defined for {module}"
  | noMethod name receiver => s!"undefined method `{name}' for {receiver}"
  | methodNotVisible visibility name receiver =>
    s!"{visibility.keyword} method `{name}' called for {receiver}"
  | methodNotImplemented name => s!"method `{name}' is not implemented"
  | noSuperMethod name receiver => s!"super: no superclass method `{name}' for {receiver}"
  | superclassNotClass => "superclass must be a Class (Module given)"
  | superclassSingleton => "can't make subclass of singleton class"
  | superclassClass => "can't make subclass of Class"
  | superclassMismatch name => s!"superclass mismatch for class {name}"
  | notModule name => s!"{name} is not a module"
  | notClass name => s!"{name} is not a class"
  | instanceOfModule module => s!"wrong argument type {module} (expected Class)"
  | instanceOfSingleton => "can't create instance of singleton class"
  | noSingleton => "can't define singleton"
  | copyRoot => "can't copy the root class"
  | copySingleton => "can't copy singleton class"
  | copyRefinement => "can't copy refinement"
  | comparedWithNonModule => "compared with non class/module"
  | classNotMixin => "wrong argument type Class (expected Module)"
  | bindNotInstance module => s!"bind argument must be an instance of {module}"
  | bindNotSubclass module => s!"bind argument must be a subclass of {module}"
  | moduleFunctionInClass => "module_function must be called for modules"
  | notNamespace path => s!"{path} does not refer to class/module"
  | cyclicInclude => "cyclic include detected"
  | cyclicPrepend => "cyclic prepend detected"
  | emptyFeature => "empty file name"
  | wrongArity given expected =>
    s!"wrong number of arguments (given {given}, expected {expected})"
  | stackTooDeep => "stack level too deep"
  | frozenModule isClass module => s!"can't modify frozen {noun isClass}: {module}"
  | frozenReceiver cls => s!"can't modify frozen {cls}"
  | sealedModule isClass module => s!"can't modify sealed {noun isClass}: {module}"

/-- The name that a name error is about. -/
def name? : Error → Option String
  | custom kind _ name => if kind.isNameError then some name else none
  | wrongConstantName name | uninitializedConstant _ name | constantNotDefined _ name
  | privateConstant _ name | undefinedMethod name _ | methodNotDefinedIn name _
  | methodNotPublic name _ _ | invalidAttributeName name | invalidClassVariableName name _
  | uninitializedClassVariable name _ | classVariableNotDefined name _ | noMethod name _
  | methodNotVisible _ name _ | methodNotImplemented name | noSuperMethod name _ => some name
  | _ => none

/-- Whether this is a name error of either kind. -/
def isNameError (e : Error) : Bool := e.kind.isNameError

end Error

end ObjectModel
