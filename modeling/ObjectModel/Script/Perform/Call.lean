import ObjectModel.Invocation
import ObjectModel.Script.Session

/-!
# Steps on calls, contexts and assumptions

What the operations that call methods, those on call sites, on declaration contexts and on
assumptions do and answer.
-/

namespace ObjectModel.Script

open Scripted Universe Invocation

/-- The values of operands. -/
def evalAll (xs : List Operand) : Scripted (List Value) := xs.mapM eval

/-- The call site of a session. -/
def siteAt (s : SiteId) : Scripted CallSite := do
  return ((← session).sites.find? s).getD default

/-- Replace a call site of the session. -/
def setSite (s : SiteId) (site : CallSite) : Scripted Unit :=
  change fun k => { k with sites := k.sites.insert s site }

/-- Look the method of a call site up for a receiver. -/
def lookupAtSite (s : SiteId) (receiver : Value) : Scripted MethodResult := do
  let (r, after) ← (← siteAt s).lookup receiver
  setSite s after
  return r

/-- The outcome of a step and what it makes; the step does not fail by errors of the model. -/
def attempt (step : Scripted Reply) : Scripted (Outcome × Option Entity) := fun w =>
  match step w with
  | .ok reply w' => .ok (.answered reply.answer, reply.made) w'
  | .error (.raised e) w' => .ok (.failed (.raised e), none) w'
  | .error (.aborted a) w' => .error (.aborted a) w'

/-- A step at a call site: its outcome, beside the state that it leaves the site in.  An error of
the model is an outcome like any other, and what the step makes is bound as ever. -/
def atSite (s : SiteId) (step : Scripted Reply) : Scripted Reply := do
  let (outcome, made) ← attempt step
  let site ← siteAt s
  return {
    answer := .record [
      ("answer", outcome.answer),
      ("len", .count site.entries.length),
      ("empty", .bool site.entries.isEmpty),
      ("megamorphic", .bool site.megamorphic),
      ("hits", .count site.hits),
      ("misses", .count site.misses)]
    made }

/-- Calls and call sites. -/
def CallOp.perform (run : RunMethod Session) : CallOp → Scripted Reply
  | call x name args context => do
    let v ← eval x
    let args ← evalAll args
    let c := (← contextOf? context).getD .toplevel
    showValue (← callPublic run c v name args)
  | callPrivate x name args => do
    let v ← eval x
    showValue (← Invocation.callPrivate run v name (← evalAll args))
  | dispatch x name args caller context => do
    let v ← eval x
    let args ← evalAll args
    let caller ← moduleOf? caller
    let c := (← contextOf? context).getD .toplevel
    showValue (← Invocation.dispatch run c caller v name args)
  | invoke f x args => do
    let f ← methodOf f
    let v ← eval x
    showValue (← run f v (← evalAll args))
  | boundCall f args => do
    let b ← boundOf f
    showValue (← run b.method b.receiver (← evalAll args))
  | newSite name context => do
    let c := (← contextOf? context).getD .toplevel
    let s : SiteId := ⟨(← session).sites.size⟩
    setSite s (.make (← Act.model) name c)
    return { made := some (.site s) }
  | siteLookup site x => do
    let s ← siteOf site
    let v ← eval x
    atSite s do showMethodResult (← lookupAtSite s v)
  | siteCall site x args => do
    let s ← siteOf site
    let v ← eval x
    let args ← evalAll args
    atSite s do
      let r ← lookupAtSite s v
      showValue (← callAtSite run (← siteAt s) r v args)
  | siteInfo site => do
    let s ← siteOf site
    atSite s do return { answer := .text (← siteAt s).name }

/-- Where the definitions of a context land. -/
def DefineeTerm.eval : DefineeTerm → Scripted Definee
  | lexical => return .lexical
  | singleton => return .singleton
  | receiver => return .receiver
  | fixed m => return .fixed (← moduleOf m)

/-- Declaration contexts. -/
def ContextOp.perform : ContextOp → Scripted Reply
  | make v definee => do
    let c ← holdContext { visibility := v, definee := ← definee.eval }
    return { answer := View.context (← Act.model) c, made := some (.context c) }
  | withVisibility c v => do
    let c ← contextOf c
    showContextAfter (c.withVisibility v) c
  | withDefinee c definee => do
    let c ← contextOf c
    showContextAfter (c.withDefinee (← definee.eval)) c
  | withRefinements c active => do
    let c ← contextOf c
    let pairs ← active.mapM fun e => do
      let refined ← moduleOf e.1
      return (refined, ← moduleOf e.2)
    let refinements : Refinements := pairs.foldl
      (fun t e => t.insert e.1 ((t.find? e.1).getD [] ++ [e.2])) .empty
    showContextAfter (c.withRefinements refinements) c
  | activate c m => do
    let c ← contextOf c
    showContextAfter (← activateNamespace c (← moduleOf m)) c
  | info c => do
    let c ← contextOf c
    showView fun u => (View.context u c).extend [
      ("has_refinements", .bool c.hasRefinements),
      ("used_modules", View.modules u (View.sortModules (u.usedNamespaces c))),
      ("used_refinements", View.modules u (View.sortModules c.usedRefinements))]
  | resolveDefinee c s x => do
    let c ← contextOf c
    let s ← scopeOf s
    showModule (← Universe.resolveDefinee c s (← eval x))

/-- The assumptions behind what a variable stands for. -/
def assumptionsOf (v : Var) : Scripted (List Assumption) :=
  findAs v fun
    | .methodResult r => some r.assumptions
    | .constantResult r => some r.assumptions
    | .assumption a => some [a]
    | _ => none

/-- Answer with nothing, having made an assumption. -/
def showAssumption (a : Assumption) : Scripted Reply :=
  return { made := some (.assumption a) }

/-- The current version of a counter. -/
def versionAt (c : CounterId) : Scripted Nat := do
  return (← Act.model).versionOf (.counter c)

/-- Set the version of a counter. -/
def setVersion (c : CounterId) (version : Nat) : Scripted Unit :=
  modify fun w =>
    { w with model := { w.model with counters := w.model.counters.insert c version } }

/-- Assumptions and version counters. -/
def AssumptionOp.perform : AssumptionOp → Scripted Reply
  | isValid v => do
    let as ← assumptionsOf v
    showView fun u => .list [.bool (u.allHold as), View.validity u as]
  | allValid vs => do
    let as ← vs.mapM assumptionOf
    showView fun u => .bool (u.allHold as)
  | assume m table => do
    let m ← moduleOf m
    let u ← Act.model
    match table with
    | .methods => showAssumption (u.assume (.methods m))
    | .constants => showAssumption (u.assume (.constants m))
    | .nothing => showAssumption .never
  | newCounter => do
    let c : CounterId := ⟨← freshSerial⟩
    setVersion c 0
    return { made := some (.counter c) }
  | version counter => do
    return { answer := .count (← versionAt (← counterOf counter)) }
  | invalidate counter => do
    let c ← counterOf counter
    setVersion c ((← versionAt c) + 1)
    return { answer := .count (← versionAt c) }
  | assumeCounter counter => do
    let c ← counterOf counter
    return {
      answer := .count (← versionAt c)
      made := some (.assumption ((← Act.model).assume (.counter c))) }

end ObjectModel.Script
