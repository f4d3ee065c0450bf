import ObjectModel.Error
import ObjectModel.Visibility

/-!
# Code

Scripts drive a universe step by step and give bodies to methods.  Steps refer to what earlier
steps made by variables.

* `Operand`: a value written in a script;
* `HierarchyOp`, `ModuleOp`, `ConstantOp`, `ScopeOp`, `ClassVariableOp`, `DefinitionOp`,
  `MethodOp`, `AssumptionOp`, `CallOp`, `ContextOp`: the operations that hold no code, by area;
* `Expr`, `Step`, `Feature`: bodies of methods, steps, and what loading a feature runs.
-/

namespace ObjectModel.Script

/-- A variable of a script. -/
abbrev Var := String

/-- A value written in a script. -/
inductive Operand
  | nil
  | bool (b : Bool)
  | int (n : Int64)
  | string (text : String)
  | symbol (name : String)
  | var (v : Var)
  deriving DecidableEq, Inhabited

/-- The ways to compare a module with a value. -/
inductive Relation
  | lt
  | le
  | gt
  | ge
  | order
  | equal
  deriving DecidableEq

/-- Where the definitions of a context land, as written in a script. -/
inductive DefineeTerm
  | lexical
  | singleton
  | receiver
  | fixed (m : Var)
  deriving DecidableEq

/-- What an assumption is made about. -/
inductive AssumedTable
  | methods
  | constants
  | nothing
  deriving DecidableEq

/-- Classes, objects and values. -/
inductive HierarchyOp
  | defineModule (parent : Var) (name : String)
  | defineClass (parent : Var) (name : String) (superclass : Option Var)
  | newModule
  | newClass (superclass : Option Var)
  | copyModule (m : Var)
  | singletonClass (m : Var)
  | singletonClassOf (x : Operand)
  | classOf (x : Operand)
  | metaclassOf (x : Operand)
  | newObject (m : Var)
  | isA (x : Operand) (m : Var)
  | describe (x : Operand)
  | bindValue (x : Operand)
  | valuesEqual (x y : Operand)
  | truthy (x : Operand)
  | ivarGet (x : Operand) (name : String)
  | ivarSet (x : Operand) (name : String) (y : Operand)
  | teardown
  deriving DecidableEq

/-- Modules and their chains. -/
inductive ModuleOp
  | includeModule (m n : Var)
  | prependModule (m n : Var)
  | ancestors (m : Var)
  | links (m : Var)
  | ownMixins (m : Var)
  | includedModules (m : Var)
  | includesModule (m n : Var)
  | compare (relation : Relation) (m : Var) (x : Operand)
  | info (m : Var)
  | freeze (m : Var)
  | sealOff (m : Var)
  | checkFrozen (m : Var)
  | refinements (m : Var)
  | dump (m : Var)
  deriving DecidableEq

/-- Constants. -/
inductive ConstantOp
  | set (m : Var) (name : String) (x : Operand)
  | setWithSource (m : Var) (name : String) (x : Operand) (file : String) (line : Nat)
  | remove (m : Var) (name : String)
  | makePrivate (m : Var) (names : List String)
  | makePublic (m : Var) (names : List String)
  | markDeprecated (m : Var) (names : List String)
  | autoload (m : Var) (name feature : String)
  | autoloadPath (m : Var) (name : String)
  | names (m : Var) (inherit : Bool)
  | get (m : Var) (path : String) (inherit : Bool)
  | isDefined (m : Var) (path : String) (inherit : Bool)
  | getScoped (m : Var) (name : String)
  | getLexical (s : Var) (name : String)
  | own (m : Var) (name : String)
  | valueOfOwn (m : Var) (name : String)
  | valueOfResult (m : Var) (result : Var)
  | qualifiedName (m : Var) (name : String)
  | find (m : Var) (name : String)
  | findLexical (s : Var) (name : String)
  | findInherit (m : Var) (name : String) (inherit : Bool)
  | findScoped (m : Var) (path : String) (inherit : Bool)
  deriving DecidableEq

/-- Lexical scopes. -/
inductive ScopeOp
  | ofModule (m : Var)
  | push (s m : Var)
  | info (s : Var)
  deriving DecidableEq

/-- Class variables. -/
inductive ClassVariableOp
  | get (m : Var) (name : String)
  | set (m : Var) (name : String) (x : Operand)
  | setUnchecked (m : Var) (name : String) (x : Operand)
  | lookup (m : Var) (name : String)
  | isDefined (m : Var) (name : String)
  | remove (m : Var) (name : String)
  | names (m : Var)
  | all (m : Var)
  | own (m : Var)
  deriving DecidableEq

/-- Changes of method tables. -/
inductive DefinitionOp
  | unimplementedStub (m : Var) (name : String)
  | defineMethod (m : Var) (name : String) (source : Var)
  | add (m f : Var)
  | addWithVisibility (m f : Var) (visibility : Visibility)
  | addAlias (m : Var) (newName oldName : String)
  | remove (m : Var) (name : String)
  | undefine (m : Var) (name : String)
  | setMethodVisibility (m : Var) (names : List String) (visibility : Visibility)
  | publicClassMethod (m : Var) (names : List String)
  | privateClassMethod (m : Var) (names : List String)
  | attrReader (m : Var) (names : List String)
  | attrWriter (m : Var) (names : List String)
  | attrAccessor (m : Var) (names : List String)
  | setVisibility (c m : Var) (names : List String) (visibility : Visibility)
  deriving DecidableEq

/-- The ancestors whose methods are listed. -/
inductive Stretch
  | all
  | beforeLogicalClass
  | untilLogicalClass
  deriving DecidableEq

/-- Methods and their lookup. -/
inductive MethodOp
  | isDefined (m : Var) (name : String) (inherit : Bool)
  | instanceMethods (m : Var) (inherit : Bool)
  | singletonMethods (x : Operand) (mixins : Bool)
  | own (m : Var) (name : String)
  | instanceMethod (m : Var) (name : String)
  | publicInstanceMethod (m : Var) (name : String)
  | bind (f : Var) (x : Operand)
  | unbind (f : Var)
  | info (f : Var)
  | same (f g : Var)
  | withName (f : Var) (name : String)
  | withVisibility (f : Var) (visibility : Visibility)
  | withDeclaringModule (f m : Var)
  | withContext (f c : Var)
  | withActiveRefinements (f c : Var)
  | asUndefined (f : Var)
  | asUnimplemented (f : Var)
  | isVisibleTo (f m : Var)
  | canBind (f m : Var)
  | lookup (m : Var) (name : String) (context : Option Var)
  | lookupSuper (f m : Var)
  | lookupUncached (m : Var) (name : String) (context : Option Var)
  | lookupUpTo (m limit : Var) (name : String) (context : Option Var)
  | lookupVisibility (m : Var) (name : String) (visibility : Visibility)
  | list (stretch : Stretch) (m : Var) (definedOnly : Bool)
  deriving DecidableEq

/-- Assumptions and version counters. -/
inductive AssumptionOp
  | isValid (v : Var)
  | allValid (vs : List Var)
  | assume (m : Var) (table : AssumedTable)
  | newCounter
  | version (counter : Var)
  | invalidate (counter : Var)
  | assumeCounter (counter : Var)
  deriving DecidableEq

/-- Calls and call sites. -/
inductive CallOp
  | call (x : Operand) (name : String) (args : List Operand) (context : Option Var)
  | callPrivate (x : Operand) (name : String) (args : List Operand)
  | dispatch (x : Operand) (name : String) (args : List Operand) (caller context : Option Var)
  | invoke (f : Var) (x : Operand) (args : List Operand)
  | boundCall (f : Var) (args : List Operand)
  | newSite (name : String) (context : Option Var)
  | siteLookup (site : Var) (x : Operand)
  | siteCall (site : Var) (x : Operand) (args : List Operand)
  | siteInfo (site : Var)
  deriving DecidableEq

/-- Declaration contexts. -/
inductive ContextOp
  | make (visibility : Visibility) (definee : DefineeTerm)
  | withVisibility (c : Var) (visibility : Visibility)
  | withDefinee (c : Var) (definee : DefineeTerm)
  | withRefinements (c : Var) (active : List (Var × Var))
  | activate (c m : Var)
  | info (c : Var)
  | resolveDefinee (c s : Var) (x : Operand)
  deriving DecidableEq

/-- The operations that hold no code. -/
inductive Operation
  | hierarchy (op : HierarchyOp)
  | module (op : ModuleOp)
  | constant (op : ConstantOp)
  | scope (op : ScopeOp)
  | classVariable (op : ClassVariableOp)
  | definition (op : DefinitionOp)
  | method (op : MethodOp)
  | assumption (op : AssumptionOp)
  | call (op : CallOp)
  | context (op : ContextOp)
  deriving DecidableEq

mutual

/-- The body of a method. -/
inductive Expr
  | operand (x : Operand)
  /-- The receiver. -/
  | receiver
  /-- An argument of the call, nil when it is missing. -/
  | arg (i : Nat)
  | argCount
  | methodName
  | definedName
  /-- The declaring module of the method. -/
  | owner
  /-- The next definition of the method, with these arguments. -/
  | callSuper (args : List Expr)
  /-- The next definition of the method, with the call's own arguments. -/
  | callSuperSame
  | call (receiver : Expr) (name : String) (args : List Expr)
  | callSelf (name : String) (args : List Expr)
  | add (a b : Expr)
  | mul (a b : Expr)
  /-- The texts of the parts, joined. -/
  | concat (parts : List Expr)
  | cond (test yes no : Expr)
  | constant (name : String)
  | ivar (name : String)
  | setIvar (name : String) (value : Expr)
  | newObject (module : Expr)
  | classOf (value : Expr)
  | metaclassOf (value : Expr)
  | fail (error : Error)
  /-- An expression whose errors become strings. -/
  | rescue (value : Expr)
  /-- Steps and then a value. -/
  | block (steps : List Step) (value : Expr)
  /-- Binds the frame to variables. -/
  | bindFrame (v : Var)

/-- A step of a script. -/
inductive Step
  /-- An operation, its result bound to a variable. -/
  | op (op : Operation) (as : Option Var)
  /-- A method with a body of its own, under a context and scope if these are given. -/
  | define (m : Var) (name : String) (body : Expr) (context scope as : Option Var)
  /-- A closure, for methods made of it. -/
  | closure (body : Expr) (context scope as : Option Var)
  /-- The features that a loader can load. -/
  | setLoader (features : List Feature)
  /-- Steps that run while a constant counts as being autoloaded. -/
  | withAutoloadGuard (m : Var) (name : String) (steps : List Step)
  /-- Steps that run on another thread. -/
  | thread (steps : List Step)
  /-- The refinement of a module; `as` and `contextAs` are bound before the body runs. -/
  | refine (m target : Var) (body : List Step) (as contextAs : Option Var) (strict : Bool)

/-- What loading a feature runs, and what it fails with in the end. -/
inductive Feature
  | mk (name : String) (steps : List Step) (strict : Bool) (failure : Option Error)

end

instance : Inhabited Expr := ⟨.operand .nil⟩
instance : Inhabited Step := ⟨.thread []⟩

/-- The name that a feature is loaded by. -/
def Feature.name : Feature → String
  | mk name _ _ _ => name

/-- The steps that loading a feature runs. -/
def Feature.steps : Feature → List Step
  | mk _ steps _ _ => steps

/-- Whether the first failing step ends the loading. -/
def Feature.strict : Feature → Bool
  | mk _ _ strict _ => strict

/-- What the loading fails with after its steps. -/
def Feature.failure : Feature → Option Error
  | mk _ _ _ failure => failure

end ObjectModel.Script
