import ObjectModel.Action
import ObjectModel.Universe.Hierarchy

/-!
# Refinements

A namespace refines a module by a module of its own, whose ancestors continue into the refined
one.  The refinements of one namespace see each other: whenever the namespace is opened for a
refinement, the methods of all its refinements are declared anew under contexts that activate all
of them.

* `refinementOf`: the refinement of a module in a namespace, made when it is missing;
* `redeclare`: the methods of a refinement under another context;
* `openRefinement`: the refinement and the context for the code of its body;
* `refine`: running a body in a refinement;
* `activateNamespace`: a context with the refinements of a namespace put ahead;
* `usedNamespaces`, `resolveDefinee`: what a context stands for.
-/

namespace ObjectModel.Universe

/-- The refinement of a module in a namespace, made when it is missing. -/
def refinementOf (nameSpace target : ModuleId) : Change ModuleId := do
  match ((← get).module nameSpace).refinements.find? target with
  | some r => return r
  | none =>
    let r ← allocate (.refinement target nameSpace) { parent := some target }
    changeModule nameSpace fun k => { k with refinements := k.refinements.insert target r }
    reportNow fun u => .createdRefinement (u.display nameSpace) (u.display r)
    return r

/-- Declare the methods of a refinement under another context. -/
def redeclare (refinement : ModuleId) (context : Context) : Change Unit := do
  let methods := ((← get).module refinement).methods
  if methods.size ≠ 0 then
    let methods ← holdMethods (methods.mapValues fun _ f => f.withContext context)
    changeModule refinement (·.updateMethods fun _ => methods)
    reportNow fun u => .redeclaredMethods (u.display refinement) methods.size

/-- The context for the body of a refinement: public, with definitions landing in the refinement
and with every refinement of its namespace active. -/
def refinementContext (u : Universe) (nameSpace refinement : ModuleId) : Context where
  definee := .fixed refinement
  refinements := (u.module nameSpace).refinements.mapValues fun _ r => [r]

/-- Open a namespace for the refinement of a module. -/
def openRefinement (nameSpace target : ModuleId) : Update (ModuleId × Context) := do
  let u ← get
  if (u.module nameSpace).isClass then throw (.noMethod "refine" (u.display nameSpace))
  checkMutable nameSpace
  let refinement ← refinementOf nameSpace target
  let u ← get
  let context ← holdContext (u.refinementContext nameSpace refinement)
  (u.module nameSpace).refinements.values.forM fun r => do
    let own ← holdContext (context.withDefinee (.fixed r))
    redeclare r own
  return (refinement, context)

/-- Run a body in the refinement of a module.  The body is given the refinement and the context for
what it defines; a refinement that was made for it stays when the body fails. -/
def refine {σ : Type} (nameSpace target : ModuleId) (body : ModuleId → Context → Act σ Unit) :
    Act σ ModuleId := do
  let (refinement, context) ← openRefinement nameSpace target
  body refinement context
  return refinement

/-- A context with the refinements of a namespace put ahead of those that are active. -/
def activateNamespace (c : Context) (nameSpace : ModuleId) : Update Context := do
  let r := (← get).module nameSpace
  if r.isClass then throw .classNotMixin
  let active := r.refinements.entries.foldl (fun t e => Context.activate t e.1 e.2) c.refinements
  reportNow fun u => .activatedRefinements (u.display nameSpace)
  holdContext (c.withRefinements active)

/-- The namespaces of the refinements that a context activates, each once. -/
def usedNamespaces (u : Universe) (c : Context) : List ModuleId :=
  (c.usedRefinements.filterMap fun r => (u.module r).nameSpace?).eraseDups

/-- The module that an unqualified definition lands in. -/
def resolveDefinee (c : Context) (s : LexicalScope) (receiver : Value) : Update ModuleId := do
  match c.definee with
  | .lexical => return s.live
  | .singleton => singletonClassOf receiver
  | .receiver =>
    match receiver with
    | .module m => return m
    | v => return (← get).classOf v
  | .fixed m => return m

end ObjectModel.Universe
