import ObjectModel.Script.Answer
import ObjectModel.Universe.ConstantLookup
import ObjectModel.Universe.Hierarchy
import ObjectModel.Universe.MethodLookup
import ObjectModel.Universe.Refinement

/-!
# Views

How values, modules, methods, contexts, constants and lookup results are shown in answers.
-/

namespace ObjectModel.Script.View

/-- Texts in the order of their code points. -/
def sortTexts (ss : List String) : List String := ss.mergeSort fun s t => decide (s ≤ t)

/-- Modules in the order of their numbers. -/
def sortModules (ms : List ModuleId) : List ModuleId :=
  ms.mergeSort fun m n => decide (m.num ≤ n.num)

/-- Entries in the order of the numbers of their modules. -/
def sortEntries {α : Type} (es : List (ModuleId × α)) : List (ModuleId × α) :=
  es.mergeSort fun d e => decide (d.1.num ≤ e.1.num)

/-- Methods in the order of their names. -/
def sortMethods (fs : List Method) : List Method :=
  fs.mergeSort fun f g => decide (f.name ≤ g.name)

variable (u : Universe)

/-- The tag of a module: its number and how it is shown. -/
def tag (m : ModuleId) : String := s!"{m.num}:{u.display m}"

/-- The tag of a module, as data. -/
def module (m : ModuleId) : Answer := .text (tag u m)

/-- The tags of modules. -/
def modules (ms : List ModuleId) : Answer := .list (ms.map (module u))

/-- The tag of a module that may be missing. -/
def module? (m : Option ModuleId) : Answer := .ofOption (module u) m

/-- A value. -/
def value : Value → Answer
  | .nil => .null
  | .bool b => .bool b
  | .int n => .int n.toInt
  | .symbol name => .record [("sym", .text name)]
  | .string text => .text text
  | .module m => .record [("mod", module u m)]
  | .object o => .record [("obj", .text s!"{o.num}:{u.display (u.object o).cls}")]

/-- A value that may be missing where nil is possible. -/
def valueOrMissing : Option Value → Answer
  | some v => value u v
  | none => .missing

/-- A link of a chain. -/
def link : Link → Answer
  | .marker owner => .list [.text "marker", module u owner]
  | .module m => module u m

/-- Where the definitions of a context land. -/
def definee : Definee → String
  | .lexical => "lexical"
  | .singleton => "singleton"
  | .receiver => "self"
  | .fixed m => s!"fixed {tag u m}"

/-- A context. -/
def context (c : Context) : Answer :=
  .record [
    ("vis", .text c.visibility.keyword),
    ("definee", .text (definee u c.definee)),
    ("refinements", .list ((sortEntries c.refinements.entries).map fun e =>
      .list [module u e.1, modules u e.2]))]

/-- A context with whether it is the very context that it was made of. -/
def contextAfter (c before : Context) : Answer :=
  (context u c).extend [("same", .bool (c.same before))]

/-- What a method runs. -/
def methodKind : MethodBody → String
  | .code _ => "native"
  | .closure _ => "proc"
  | .reader ivar => s!"reader {ivar}"
  | .writer ivar => s!"writer {ivar}"
  | .unimplemented => "unimplemented"

/-- A method. -/
def method (f : Method) : Answer :=
  let flags :=
    [(f.undefined, "undefined"), (f.unimplemented, "unimplemented"), (f.builtIn, "built_in")]
  .record [
    ("name", .text f.name),
    ("original", .text f.definedName),
    ("owner", module u f.declaringModule),
    ("vis", .text f.visibility.keyword),
    ("kind", .text (methodKind f.body)),
    ("flags", .texts ((flags.filter Prod.fst).map Prod.snd)),
    ("active", .ofOption (context u) f.active)]

/-- A method that may be missing. -/
def method? (f : Option Method) : Answer := .ofOption (method u) f

/-- A method with whether it is the very method that it was made of. -/
def methodAfter (f before : Method) : Answer :=
  (method u f).extend [("same", .bool (f.same before))]

/-- A method with the place where it was defined. -/
def methodInfo (f : Method) : Answer :=
  let fromClosure := match f.body with
    | .closure _ => true
    | _ => false
  (method u f).extend [
    ("context", context u f.context),
    ("nesting", modules u f.scope.nesting),
    ("from_proc", .bool fromClosure)]

/-- Methods in the order of their names. -/
def methods (fs : List Method) : Answer := .list ((sortMethods fs).map (method u))

/-- What a method lookup found. -/
def methodResult (r : MethodResult) : Answer :=
  .record [
    ("method", method? u r.method),
    ("defined", .bool r.isDefined),
    ("assumptions", .count r.assumptions.length),
    ("valid", .bool (u.isValidMethod r))]

/-- A method detached from a receiver. -/
def unbound (f : UnboundMethod) : Answer :=
  .record [("origin", module u f.origin), ("method", method u f.method)]

/-- A method with its receiver. -/
def bound (f : BoundMethod) : Answer :=
  .record [("receiver", value u f.receiver), ("method", method u f.method)]

/-- The autoload that a constant waits for. -/
def autoload (t : ThreadId) (a : Autoload) : Answer :=
  .record [
    ("feature", .text a.feature),
    ("loading", .bool a.isLoading),
    ("here", .bool (a.isLoadingOn t))]

/-- A constant, on a thread. -/
def constant (t : ThreadId) (c : Constant) : Answer :=
  .record [
    ("name", .text c.name),
    ("value", valueOrMissing u c.value?),
    ("private", .bool c.isPrivate),
    ("deprecated", .bool c.isDeprecated),
    ("autoload", .ofOption (fun a => autoload t (u.autoload a)) c.autoload?),
    ("undefined", .bool c.isUndefined),
    ("defined", .bool (u.isDefinedConstant t c)),
    ("in", module u c.declaringModule),
    ("source", .ofOption (fun s => .list [.text s.file, .count s.line]) c.source)]

/-- Whether each of some assumptions holds; the one that never does counts as neither. -/
def validity (as : List Assumption) : Answer :=
  .list <| as.map fun
    | .never => .null
    | a => .bool (u.holds a)

/-- What a constant lookup found, on a thread. -/
def constantResult (t : ThreadId) (r : ConstantResult) : Answer :=
  .record [
    ("constant", .ofOption (constant u t) r.constant),
    ("found", .bool r.constant.isSome),
    ("deprecated", .bool (r.constant.any Constant.isDeprecated)),
    ("assumptions", validity u r.assumptions),
    ("valid", .bool (u.isValidConstant r))]

/-- A table of values by name. -/
def valueTable (t : Table String Value) : Answer :=
  .record (t.entries.map fun e => (e.1, value u e.2))

/-- What a module is. -/
def moduleInfo (m : ModuleId) : Answer :=
  let r := u.module m
  .record [
    ("string", module u m),
    ("name", .ofOption .text r.name),
    ("has_full_name", .bool r.name.isSome),
    ("class", .bool r.isClass),
    ("singleton", .bool r.isSingletonClass),
    ("refinement", .bool r.isRefinement),
    ("superclass", module? u r.superclass?),
    ("attached", .ofOption (fun a => value u a.value) r.attached?),
    ("refined", module? u r.refined?),
    ("namespace", module? u r.nameSpace?),
    ("singleton_class", module? u r.singleton),
    ("frozen", .bool r.frozen),
    ("sealed", .bool r.isSealed)]

/-- The refinements declared in a module. -/
def refinements (m : ModuleId) : Answer :=
  .list ((sortEntries (u.module m).refinements.entries).map fun e =>
    .list [module u e.1, module u e.2])

/-- The tables of a module. -/
def dump (t : ThreadId) (m : ModuleId) : Answer :=
  let r := u.module m
  .record [
    ("string", module u m),
    ("ancestors", modules u (u.ancestors m)),
    ("methods", methods u r.methods.values),
    ("constants", .list (r.constants.values.map (constant u t))),
    ("class_variables", valueTable u r.classVariables)]

/-- The sizes of the tables of a module. -/
def sizes (m : ModuleId) : Answer :=
  let r := u.module m
  .record [
    ("ancestors", modules u (u.ancestors m)),
    ("methods", .count r.methods.size),
    ("constants", .count r.constants.size),
    ("class_variables", .count r.classVariables.size),
    ("refinements", .count r.refinements.size)]

end ObjectModel.Script.View
