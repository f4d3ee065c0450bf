import ObjectModel.Universe.MethodLookup

/-!
# Super lookup

The next definition of a method is searched for along the ancestors of the receiver's metaclass,
from behind the module that declares the method.  The refinements in force are those of the
method's own declaration context, then those under which it was found.

* `SuperResult`: what a stretch of the search found, and whether the declaring module was passed;
* `superTables`, `superRefinements`, `superMethod`: the search along modules, in the parts of
  refinements, and in both;
* `lookupSuper`: the lookup.
-/

namespace ObjectModel

/-- What a stretch of a super search found, whether it or an earlier one passed the declaring
module, and what it relies on. -/
structure SuperResult where
  method : Option Method
  passed : Bool
  assumptions : List Assumption
  deriving Inhabited

/-- The result of a search that relied on more before. -/
def SuperResult.after (as : List Assumption) (r : SuperResult) : SuperResult :=
  { r with assumptions := as ++ r.assumptions }

/-- What a super search is after. -/
structure SuperTarget where
  /-- The module that declares the current method. -/
  declaring : ModuleId
  name : String
  /-- Whether the current method belongs to a refinement. -/
  isRefined : Bool
  /-- The context of the current method. -/
  lexical : Context
  /-- The context under which the current method was found. -/
  caller : Option Context

namespace Universe

/-- What the search for the next definition of a method is after. -/
def superTarget (u : Universe) (f : Method) : SuperTarget where
  declaring := f.declaringModule
  name := f.definedName
  isRefined := (u.module f.declaringModule).isRefinement
  lexical := f.context
  caller := f.active

/-- Pass over the tables of modules up to the declaring one and search those behind it. -/
def superTables (u : Universe) (target : SuperTarget) (passed : Bool) :
    List ModuleId → SuperResult
  | [] => ⟨none, passed, []⟩
  | m :: ms =>
    if passed then
      match u.ownMethod m target.name with
      | some f => ⟨some f, true, [u.assumeMethods m]⟩
      | none => (u.superTables target true ms).after [u.assumeMethods m]
    else u.superTables target (m == target.declaring) ms

/-- Search the parts of refinements in order.  A method of a refinement goes no further than the
part that it belongs to. -/
def superRefinements (u : Universe) (target : SuperTarget) (refined : ModuleId) (passed : Bool) :
    List ModuleId → SuperResult
  | [] => ⟨none, passed, []⟩
  | r :: rs =>
    let part := u.superTables target passed (u.refinementPart r refined)
    match part.method.filter Method.isDefined with
    | some f => ⟨some f, part.passed, part.assumptions⟩
    | none =>
      if part.passed && target.isRefined then ⟨none, part.passed, part.assumptions⟩
      else (u.superRefinements target refined part.passed rs).after part.assumptions

/-- The refinements in force for a module: those of the method's own context, then those that only
the caller's context activates. -/
def mergedRefinements (target : SuperTarget) (m : ModuleId) : List ModuleId :=
  let lexical := target.lexical.refinementsFor m
  lexical ++ (activeFor target.caller m).filter fun r => !lexical.contains r

/-- The context under which a refinement's method is found: the method's own one, with the
refinements in force for the refined module. -/
def superContext (target : SuperTarget) (m : ModuleId) : Context :=
  target.lexical.withRefinements
    (target.lexical.refinements.insert m (mergedRefinements target m))

/-- Pass over modules up to the declaring one and search those behind it, each behind the
refinements in force for it. -/
def superMethod (u : Universe) (target : SuperTarget) (passed : Bool) :
    List ModuleId → SuperResult
  | [] => ⟨none, passed, []⟩
  | m :: ms =>
    let refined := u.superRefinements target m passed (mergedRefinements target m)
    match refined.method with
    | some f => { refined with method := some (f.withActive (superContext target m)) }
    | none =>
      if refined.passed then
        let assumptions := refined.assumptions ++ [u.assumeMethods m]
        match u.ownMethod m target.name with
        | some f => ⟨some f, true, assumptions⟩
        | none => (u.superMethod target true ms).after assumptions
      else (u.superMethod target (m == target.declaring) ms).after refined.assumptions

/-- Look up the next definition of a method for receivers whose methods are searched for from
`metaclass`. -/
def lookupSuper (u : Universe) (f : Method) (metaclass : ModuleId) : MethodResult :=
  let r := u.superMethod (u.superTarget f) false (u.ancestors metaclass)
  ⟨r.method, r.assumptions⟩

end Universe

end ObjectModel
