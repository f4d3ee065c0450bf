import ObjectModel.Script.Perform.Call
import ObjectModel.Script.Perform.Constant
import ObjectModel.Script.Perform.Hierarchy
import ObjectModel.Script.Perform.Method

/-!
# Running scripts

Bodies of methods and steps of scripts run on a session.  Both may call methods and load features,
which run further bodies and steps; how they do so is given by `Calls`.

* `Expr.eval`, `Step.run`, `runSteps`: bodies and steps, by recursion on the code;
* `enterBody`, `loadFeature`: the entry to a body and to a feature;
* `callsWithin`: calls that nest up to a given depth;
* `run`: the answers to the steps of a script.
-/

namespace ObjectModel.Script

open Scripted Universe

/-- How the code of a script calls methods and loads features. -/
structure Calls where
  invoke : RunMethod Session
  require : String → Scripted Bool

/-- How many bodies may run at once on a thread. -/
def bodyLimit : Nat := 150

/-- A value inside a joined text. -/
def textOf (u : Universe) : Value → String
  | .int n => toString n.toInt
  | .symbol name => name
  | .string text => text
  | v => u.describe v

/-- The string that a rescued error becomes. -/
def rescued (e : Error) : Value := .string s!"{e.kind.text}: {e.message}"

/-- Run an action whose errors become strings. -/
def rescue (act : Scripted Value) : Scripted Value := fun w =>
  match act w with
  | .error (.raised e) w' => .ok (rescued e) w'
  | result => result

/-- Perform an operation that holds no code. -/
def Operation.perform (calls : Calls) : Operation → Scripted Reply
  | hierarchy op => op.perform calls.require
  | module op => op.perform
  | constant op => op.perform calls.require
  | scope op => op.perform
  | classVariable op => op.perform
  | definition op => op.perform
  | method op => op.perform
  | assumption op => op.perform
  | call op => op.perform calls.invoke
  | context op => op.perform

/-- Define a method with a body: as code of the body of its module does, unless a context or a
scope is given. -/
def defineWith (m : Var) (name : String) (body : Expr) (context scope : Option Var) :
    Scripted Method := do
  let m ← moduleOf m
  let c := (← contextOf? context).getD .toplevel
  let s ← match scope with
    | some s => scopeOf s
    | none => pure (.ofModule m)
  Universe.define m name s c body

/-- Make a closure, of toplevel code unless a context or a scope is given. -/
def closureWith (body : Expr) (context scope : Option Var) : Scripted Closure := do
  let c := (← contextOf? context).getD .toplevel
  let s ← match scope with
    | some s => scopeOf s
    | none => pure .root
  return ⟨s, c, body⟩

/-- Replace the features that can be loaded. -/
def installLoader (features : List Feature) : Scripted Unit :=
  modify fun w =>
    { w with model := { w.model with hasLoader := true }, host := { w.host with features } }

/-- The autoload that the own constant of a module waits for. -/
def autoloadOf (m : ModuleId) (name : String) : Scripted AutoloadId := do
  match (← expectConstant m name).autoload? with
  | some a => return a
  | none => Act.abort (.noConstant name)

/-- Run an action while a constant counts as being loaded, unless it does already; then tell
whether it did not, and whether it still does. -/
def guarding (m : ModuleId) (name : String) (act : Scripted Unit) : Scripted Reply := do
  let a ← autoloadOf m name
  let started := !((← Act.model).autoload a).isLoading
  if started then guardAutoload a act else act
  return { answer := .record [
    ("started", .bool started),
    ("loading_after", .bool ((← Act.model).autoload a).isLoading)] }

/-- Run an action on a thread of its own, where no bodies are running yet. -/
def onNewThread (act : Scripted Unit) : Scripted Unit := do
  let s ← session
  change fun s => { s with nextThread := s.nextThread + 1, depth := 0 }
  Act.ensuring (Act.onThread ⟨s.nextThread⟩ act)
    fun w => { w with host := { w.host with depth := s.depth } }

/-- Open a refinement, bind it and the context of its body, and run the body. -/
def refineWith (m target : Var) (as contextAs : Option Var) (body : Scripted Unit) :
    Scripted Reply := do
  let m ← moduleOf m
  let r ← refine m (← moduleOf target) fun r c => do
    bind? as (some (.value (.module r)))
    bind? contextAs (some (.context c))
    body
  showView fun u => View.value u (.module r)

/-- Run a nested step and log its answer.  In a strict run an error of the model goes on. -/
def nested (strict : Bool) (step : Scripted Reply) : Scripted Unit := fun w =>
  match step w with
  | .ok reply w' => writeLog (.answer (Outcome.answered reply.answer).answer) w'
  | .error f w' =>
    match writeLog (.answer (Outcome.failed f).answer) w' with
    | .error g w'' => .error g w''
    | .ok _ w'' =>
      match strict, f with
      | true, .raised e => .error (.raised e) w''
      | _, _ => .ok () w''

mutual

/-- The value of a body for a frame and the arguments of the call. -/
def Expr.eval (calls : Calls) (frame : Frame) (args : List Value) : Expr → Scripted Value
  | .operand x => Scripted.eval x
  | .receiver => return frame.receiver
  | .arg i => return args[i]?.getD .nil
  | .argCount => return .int (Int64.ofNat args.length)
  | .methodName => return .symbol frame.method.name
  | .definedName => return .symbol frame.method.definedName
  | .owner => return .module frame.method.declaringModule
  | .callSuper es => do frame.callSuper calls.invoke (← evalEach calls frame args es)
  | .callSuperSame => frame.callSuper calls.invoke args
  | .call e name es => do
    let v ← e.eval calls frame args
    frame.call calls.invoke v name (← evalEach calls frame args es)
  | .callSelf name es => do
    frame.callSelf calls.invoke name (← evalEach calls frame args es)
  | .add a b => do
    let x ← a.eval calls frame args
    let y ← b.eval calls frame args
    return .int (x.toInt + y.toInt)
  | .mul a b => do
    let x ← a.eval calls frame args
    let y ← b.eval calls frame args
    return .int (x.toInt * y.toInt)
  | .concat es => do
    let vs ← evalEach calls frame args es
    return .string (String.join (vs.map (textOf (← Act.model))))
  | .cond test yes no => do
    let v ← test.eval calls frame args
    if v.isTruthy then yes.eval calls frame args else no.eval calls frame args
  | .constant name => lexicalConstantGet calls.require frame.method.scope name
  | .ivar name => do
    return (Invocation.readVariable (← Act.model) frame.receiver name).getD .nil
  | .setIvar name e => do
    let v ← e.eval calls frame args
    match frame.receiver with
    | .object o =>
      Invocation.writeVariable o name v
      return v
    | _ => return v
  | .newObject e => do
    match ← e.eval calls frame args with
    | .module m => Universe.newObject m
    | _ => Act.abort (.badStep "only modules have instances")
  | .classOf e => do
    let v ← e.eval calls frame args
    return .module ((← Act.model).classOf v)
  | .metaclassOf e => do return .module (← Universe.metaclassOf (← e.eval calls frame args))
  | .fail error => Act.raise error
  | .rescue e => Script.rescue (e.eval calls frame args)
  | .block steps e => do
    runSteps calls false steps
    e.eval calls frame args
  | .bindFrame v => do
    Scripted.bind s!"{v}.method" (.method frame.method)
    Scripted.bind s!"{v}.context" (.context frame.method.context)
    Scripted.bind s!"{v}.self" (.value frame.receiver)
    return .nil

/-- The values of expressions, from left to right. -/
def evalEach (calls : Calls) (frame : Frame) (args : List Value) :
    List Expr → Scripted (List Value)
  | [] => return []
  | e :: es => do
    let v ← e.eval calls frame args
    return v :: (← evalEach calls frame args es)

/-- Run a step and bind its variable. -/
def Step.run (calls : Calls) : Step → Scripted Reply
  | .op op as => do
    let reply ← op.perform calls
    bind? as reply.made
    return reply
  | .define m name body context scope as => do
    let reply ← showMethod (← defineWith m name body context scope)
    bind? as reply.made
    return reply
  | .closure body context scope as => do
    bind? as (some (.closure (← closureWith body context scope)))
    done
  | .setLoader features => do
    installLoader features
    done
  | .withAutoloadGuard m name steps => do
    guarding (← moduleOf m) name (runSteps calls false steps)
  | .thread steps => do
    onNewThread (runSteps calls false steps)
    done
  | .refine m target body as contextAs strict =>
    refineWith m target as contextAs (runSteps calls strict body)

/-- Run nested steps. -/
def runSteps (calls : Calls) (strict : Bool) : List Step → Scripted Unit
  | [] => return
  | step :: steps => do
    nested strict (step.run calls)
    runSteps calls strict steps

end

/-- Enter a body, unless too many are running. -/
def enterBody (body : Scripted Value) : Scripted Value := do
  let depth := (← session).depth
  if bodyLimit ≤ depth then Act.raise .stackTooDeep
  change fun s => { s with depth := depth + 1 }
  Act.ensuring body fun w => { w with host := { w.host with depth := depth } }

/-- Load a feature: one that is not known is not loaded. -/
def loadFeature (calls : Calls) (name : String) : Scripted Bool := do
  writeLog (.required name)
  match (← session).features.find? fun f => f.name == name with
  | none => return false
  | some f =>
    runSteps calls f.strict f.steps
    match f.failure with
    | some e => Act.raise e
    | none => return true

/-- Calls that nest up to a given depth. -/
def callsWithin : Nat → Calls
  | 0 => ⟨fun _ _ _ => Act.abort .tooDeep, fun _ => Act.abort .tooDeep⟩
  | n + 1 =>
    let inner := callsWithin n
    { invoke := Invocation.invoke fun e frame args => enterBody (e.eval inner frame args)
      require := loadFeature inner }

/-- The depth that the calls of a script may nest to. -/
def nestingLimit : Nat := 10000

/-- What happened at a step: how it ended, and its log in order. -/
structure StepReport where
  outcome : Outcome
  log : List LogEntry

/-- Run a step on a world and report it; after the universe was torn down no step runs. -/
def reportStep (calls : Calls) (step : Step) (w : World Session) :
    StepReport × World Session :=
  let act : Scripted Reply := do
    if (← session).tornDown then Act.abort .noUniverse
    step.run calls
  let (outcome, after) := match act w with
    | .ok reply w' => (Outcome.answered reply.answer, w')
    | .error f w' => (Outcome.failed f, w')
  let after := match flushReports after with
    | .ok _ w' => w'
    | .error _ w' => w'
  (⟨outcome, after.host.log.reverse⟩, { after with host := { after.host with log := [] } })

/-- Run steps on a world, one after another, whatever their outcomes. -/
def reportSteps (calls : Calls) : List Step → World Session → List StepReport
  | [], _ => []
  | step :: steps, w =>
    let (report, after) := reportStep calls step w
    report :: reportSteps calls steps after

/-- The world that a script starts on. -/
def startWorld (options : Options) (lowest : Option Level) : World Session where
  model := .create options
  thread := ⟨0⟩
  host := .start lowest

/-- Run a script on a universe of its own. -/
def run (options : Options) (lowest : Option Level) (steps : List Step) : List StepReport :=
  reportSteps (callsWithin nestingLimit) steps (startWorld options lowest)

end ObjectModel.Script
