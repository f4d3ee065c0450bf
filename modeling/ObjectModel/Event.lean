/-!
# Events

What the object model reports about its own work, by cause.

* `Event`: the causes, each with the texts that it reports;
* `Event.level`, `Event.render`: how urgent a report is, and its line.
-/

namespace ObjectModel

/-- How urgent a report is. -/
inductive Level
  | warn
  | debug
  | trace
  deriving DecidableEq

namespace Level

/-- The word at the start of a report. -/
def text : Level → String
  | .warn => "WARN"
  | .debug => "DEBUG"
  | .trace => "TRACE"

/-- How much detail a level asks for. -/
def detail : Level → Nat
  | .warn => 1
  | .debug => 2
  | .trace => 3

/-- Whether a log that goes down to `lowest` keeps reports of this level; `none` keeps nothing. -/
def isKept (lowest : Option Level) (l : Level) : Bool := lowest.any fun m => l.detail ≤ m.detail

end Level


/-- The reports; modules and constants are given as they are shown. -/
inductive Event
  | alreadyInitialized (constant : String)
  | deprecatedConstant (constant : String)
  | noFeatureLoader (constant : String)
  | ignoredOption (key value : String)
  | definedModule (module : String)
  | definedClass (cls : String)
  | copiedModule (source copy : String)
  | includedModule (module included : String)
  | prependedModule (module prepended : String)
  | addedMethod (module name : String) (undefined : Bool)
  | definedMethod (module name : String)
  | aliasedMethod (module newName oldName : String)
  | removedMethod (module name : String)
  | undefinedMethod (module name : String)
  | setConstant (constant : String)
  | removedConstant (constant : String)
  | registeredAutoload (constant feature : String)
  | autoloading (constant feature : String)
  | autoloaded (constant : String)
  | autoloadElsewhere (constant : String)
  | definedClassVariable (module name : String)
  | removedClassVariable (module name : String)
  | createdRefinement (nameSpace refinement : String)
  | redeclaredMethods (refinement : String) (updated : Nat)
  | activatedRefinements (nameSpace : String)
  | wentMegamorphic (name : String)
  deriving DecidableEq

namespace Event

/-- How urgent a report is. -/
def level : Event → Level
  | alreadyInitialized _ | deprecatedConstant _ | noFeatureLoader _ | ignoredOption _ _ => .warn
  | addedMethod _ _ _ | setConstant _ | redeclaredMethods _ _ => .trace
  | _ => .debug

/-- What a report says. -/
def message : Event → String
  | alreadyInitialized _ => "already initialized constant"
  | deprecatedConstant _ => "constant is deprecated"
  | noFeatureLoader _ => "no feature loader installed for autoload"
  | ignoredOption _ _ => "ignoring unparsable option"
  | definedModule _ => "defined module"
  | definedClass _ => "defined class"
  | copiedModule _ _ => "copied module"
  | includedModule _ _ => "included module"
  | prependedModule _ _ => "prepended module"
  | addedMethod _ _ _ => "added method"
  | definedMethod _ _ => "defined method"
  | aliasedMethod _ _ _ => "aliased method"
  | removedMethod _ _ => "removed method"
  | undefinedMethod _ _ => "undefined method"
  | setConstant _ => "set constant"
  | removedConstant _ => "removed constant"
  | registeredAutoload _ _ => "registered autoload"
  | autoloading _ _ => "autoloading"
  | autoloaded _ => "autoloaded"
  | autoloadElsewhere _ => "autoload in progress on another thread"
  | definedClassVariable _ _ => "defined class variable"
  | removedClassVariable _ _ => "removed class variable"
  | createdRefinement _ _ => "created refinement"
  | redeclaredMethods _ _ => "redeclared refined methods"
  | activatedRefinements _ => "activated refinements"
  | wentMegamorphic name => s!"call site for `{name}' went megamorphic"

/-- The fields that a report names, in order. -/
def fields : Event → List (String × String)
  | alreadyInitialized c | deprecatedConstant c | noFeatureLoader c | setConstant c
  | removedConstant c | autoloaded c | autoloadElsewhere c => [("constant", c)]
  | ignoredOption key value => [("key", key), ("value", value)]
  | definedModule m => [("module", m)]
  | definedClass c => [("class", c)]
  | copiedModule source copy => [("source", source), ("copy", copy)]
  | includedModule m n => [("module", m), ("included", n)]
  | prependedModule m n => [("module", m), ("prepended", n)]
  | addedMethod m name undefined =>
    [("module", m), ("name", name), ("undefined", if undefined then "true" else "false")]
  | definedMethod m name | removedMethod m name | undefinedMethod m name
  | definedClassVariable m name | removedClassVariable m name => [("module", m), ("name", name)]
  | aliasedMethod m newName oldName =>
    [("module", m), ("new_name", newName), ("old_name", oldName)]
  | registeredAutoload c feature | autoloading c feature =>
    [("constant", c), ("feature", feature)]
  | createdRefinement n r => [("namespace", n), ("refinement", r)]
  | redeclaredMethods r updated => [("refinement", r), ("updated", Nat.repr updated)]
  | activatedRefinements n => [("namespace", n)]
  | wentMegamorphic _ => []

/-- The line of a report: its level, what it says, and its fields. -/
def render (e : Event) : String :=
  String.intercalate " "
    ([e.level.text, e.message] ++ e.fields.map fun f => f.1 ++ "=" ++ f.2)

end Event

end ObjectModel
