import ObjectModel.Action
import ObjectModel.ConstantPath
import ObjectModel.Universe.ConstantLookup
import ObjectModel.Universe.Hierarchy

/-!
# Reading constants

Reading a constant that waits for a feature loads the feature first.  The loader may run any code;
it is given as an action that takes the name of a feature.

* `guardAutoload`: an action during which a constant counts as being loaded;
* `resolveAutoload`, `constantValue`: what a constant is bound to after loading, and its value;
* `lookupScoped`, `constGet`, `constDefined`, `scopedConstantGet`, `lexicalConstantGet`: reading by
  paths, through a module, and from a scope;
* `defineModule`, `defineClass`: opening a module or class, which is made when it is missing.
-/

namespace ObjectModel.Universe

variable {σ α : Type}

/-- Mark an autoload as worked on by a thread, or by none. -/
def markAutoload (a : AutoloadId) (t : Option ThreadId) (w : World σ) : World σ :=
  { w with model := w.model.setAutoload a { w.model.autoload a with thread := t } }

/-- Run an action while the current thread counts as loading; the mark goes when it ends. -/
def guardAutoload (a : AutoloadId) (body : Act σ α) : Act σ α := fun w =>
  Act.ensuring body (markAutoload a none) (markAutoload a (some w.thread) w)

/-- The binding that loading a feature left; a constant that still waits for the feature is
undefined from then on. -/
def settleAutoload (holder : ModuleId) (name : String) : Change (Option Constant) := do
  match (← get).ownConstant holder name with
  | none => return none
  | some c =>
    match c.binding with
    | .value _ => return some c
    | .undefined => return none
    | .autoload _ =>
      changeConstants holder (·.insert name c.withoutBinding)
      return none

/-- Load the feature that a constant of `holder` waits for, and give the binding it left.  There
is none on the thread that is loading it already, none while another thread is loading it and has
not defined the constant, and none if the feature does not define the constant. -/
def resolveAutoload (require : String → Act σ Bool) (holder : ModuleId) (name : String)
    (c : Constant) : Act σ (Option Constant) := do
  match c.autoload? with
  | none => return some c
  | some a =>
    let u ← Act.model
    let autoload := u.autoload a
    if autoload.isLoadingOn (← Act.thread) then return none
    let qualified := u.constantName holder name
    if u.hasLoader then
      if autoload.isLoading then
        report (.autoloadElsewhere qualified)
        return (u.ownConstant holder name).filter fun c => c.value?.isSome
      else
        guardAutoload a do
          report (.autoloading qualified autoload.feature)
          discard <| require autoload.feature
          report (.autoloaded qualified)
        settleAutoload holder name
    else
      report (.noFeatureLoader qualified)
      settleAutoload holder name

/-- The value of a constant found from `m`, loaded if need be. -/
def constantValue (require : String → Act σ Bool) (m : ModuleId) (c : Constant) :
    Act σ (Option Value) := do
  if c.isDeprecated then reportNow fun u => .deprecatedConstant (u.constantName m c.name)
  if c.isAutoload then
    let holder := (← get).holder m c
    return (← resolveAutoload require holder c.name c).bind Constant.value?
  else return c.value?

/-- The value of a constant that a lookup from `m` found. -/
def resultValue (require : String → Act σ Bool) (m : ModuleId) (r : ConstantResult) :
    Act σ (Option Value) :=
  match r.constant with
  | some c => constantValue require m c
  | none => return none

/-- Look a name up in a module, with or without its ancestors. -/
def lookupSegment (m : ModuleId) (name : String) (inherit : Bool) : Act σ ConstantResult := do
  Act.ofExcept ((← Act.model).lookupConstantInherit (← Act.thread) m name inherit)

/-- Look the segments of a path up, each in the module that the one before names; so many bytes of
the text are passed. -/
def walkScoped (require : String → Act σ Bool) (text : String) (inherit : Bool) (passed : Nat)
    (m : ModuleId) : List String → Act σ ConstantResult
  | [] => Act.raise (.wrongConstantName text)
  | [last] =>
    if Name.isConstantName last then lookupSegment m last inherit
    else Act.raise (.wrongConstantName text)
  | segment :: rest => do
    let found ← lookupSegment m segment inherit
    match found.constant with
    | none => return found
    | some c =>
      let passed := passed + segment.utf8ByteSize
      match ← constantValue require m c with
      | some (.module next) => walkScoped require text inherit (passed + 2) next rest
      | some _ => Act.raise (.notNamespace ((ConstantPath.upTo? text passed).getD text))
      | none => return { found with constant := none }

/-- Look a path up from a module; every segment but the last must name a module. -/
def lookupScoped (require : String → Act σ Bool) (m : ModuleId) (text : String)
    (inherit : Bool) : Act σ ConstantResult :=
  let path := ConstantPath.parse text
  walkScoped require text inherit path.anchorSize (if path.absolute then Core.object else m)
    path.segments

/-- The value of a path from a module; privacy does not matter. -/
def constGet (require : String → Act σ Bool) (m : ModuleId) (text : String) (inherit : Bool) :
    Act σ Value := do
  let found ← lookupScoped require m text inherit
  match ← resultValue require m found with
  | some v => return v
  | none =>
    let qualified := (← Act.model).constantName m text
    Act.raise (.uninitializedConstant qualified (ConstantPath.lastSegment text))

/-- Whether a path names a defined constant; the last segment is not loaded. -/
def constDefined (require : String → Act σ Bool) (m : ModuleId) (text : String)
    (inherit : Bool) : Act σ Bool := do
  let found ← lookupScoped require m text inherit
  return found.constant.any ((← Act.model).isDefinedConstant (← Act.thread))

/-- The value of a constant through a module; private constants are refused. -/
def scopedConstantGet (require : String → Act σ Bool) (m : ModuleId) (name : String) :
    Act σ Value := do
  let found ← lookupSegment m name true
  let qualified := (← Act.model).constantName m name
  match found.constant with
  | none => Act.raise (.uninitializedConstant qualified name)
  | some c =>
    if c.isPrivate then Act.raise (.privateConstant qualified name)
    match ← constantValue require m c with
    | some v => return v
    | none => Act.raise (.uninitializedConstant qualified name)

/-- The value of an unqualified constant in a scope. -/
def lexicalConstantGet (require : String → Act σ Bool) (s : LexicalScope) (name : String) :
    Act σ Value := do
  if !Name.isConstantName name then Act.raise (.wrongConstantName name)
  let found := (← Act.model).lookupConstantLexical (← Act.thread) s name
  match ← resultValue require s.live found with
  | some v => return v
  | none => Act.raise (.uninitializedConstant ((← Act.model).constantName s.live name) name)

/-! ### Opening modules -/

/-- The binding that opening a name in a module finds; toplevel also sees what is mixed into the
class of objects. -/
def openedConstant (u : Universe) (parent : ModuleId) (name : String) : Option Constant :=
  match u.ownConstant parent name with
  | some c => some c
  | none =>
    if parent = Core.object then
      (u.module parent).chain.mixins.findSome? (u.ownConstant · name)
    else none

/-- The value that opening a name in a module finds, loaded if need be. -/
def openedValue (require : String → Act σ Bool) (parent : ModuleId) (name : String) :
    Act σ (Option Value) := do
  match (← Act.model).openedConstant parent name with
  | none => return none
  | some c =>
    if c.isAutoload then
      let holder := (← get).holder parent c
      return (← resolveAutoload require holder name c).bind Constant.value?
    else return c.value?

/-- Open a module of a name, making it when there is none. -/
def defineModule (require : String → Act σ Bool) (parent : ModuleId) (name : String) :
    Act σ ModuleId := do
  checkConstantName name
  match ← openedValue require parent name with
  | some (.module m) =>
    if ((← Act.model).module m).isClass then Act.raise (.notModule name) else return m
  | some _ => Act.raise (.notModule name)
  | none =>
    let m ← newModule
    constSet parent name (.module m)
    reportNow fun u => .definedModule (u.display m)
    return m

/-- Open a class of a name, making it when there is none; a superclass that is given must be the
one that an existing class has. -/
def defineClass (require : String → Act σ Bool) (parent : ModuleId) (name : String)
    (superclass : Option ModuleId) : Act σ ModuleId := do
  checkConstantName name
  match ← openedValue require parent name with
  | some (.module m) =>
    let r := (← Act.model).module m
    if !r.isClass then Act.raise (.notClass name)
    if superclass.isSome ∧ r.superclass? ≠ superclass then Act.raise (.superclassMismatch name)
    return m
  | some _ => Act.raise (.notClass name)
  | none =>
    let m ← newClass superclass
    constSet parent name (.module m)
    reportNow fun u => .definedClass (u.display m)
    return m

end ObjectModel.Universe
