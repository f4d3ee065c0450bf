import ObjectModel.CallSite
import ObjectModel.Script.View

/-!
# Sessions

A session runs a script on one universe.  It keeps what the variables of the script stand for, its
call sites, the features that can be loaded, and a log.

* `Entity`, `LogEntry`, `Session`, `Scripted`;
* `find`, `moduleOf`, `methodOf` and the like: what a variable stands for;
* `Operand.eval`: the value that an operand stands for;
* `Reply`: what a step answers, and what its variable is bound to;
* `writeLog`, `flushReports`: the log.
-/

namespace ObjectModel.Script

/-- The number of a call site of a session. -/
structure SiteId where
  num : Nat
  deriving DecidableEq, Inhabited

/-- What a variable stands for. -/
inductive Entity
  | value (v : Value)
  | context (c : Context)
  | scope (s : LexicalScope)
  | method (f : Method)
  | unbound (f : UnboundMethod)
  | bound (f : BoundMethod)
  | methodResult (r : MethodResult)
  | constantResult (r : ConstantResult)
  | closure (c : Closure)
  | site (s : SiteId)
  | assumption (a : Assumption)
  | counter (c : CounterId)

/-- What happened during a step. -/
inductive LogEntry
  /-- The line of a report. -/
  | report (line : String)
  /-- The answer of a nested step. -/
  | answer (a : Answer)
  /-- The loader was entered for a feature. -/
  | required (feature : String)

/-- What a script has made so far. -/
structure Session where
  bindings : Table Var Entity := .empty
  sites : Table SiteId CallSite := .empty
  features : List Feature := []
  /-- The least urgent reports that the log keeps, if it keeps any. -/
  lowest : Option Level := some .warn
  /-- The log of the current step, newest entry first. -/
  log : List LogEntry := []
  /-- How many bodies are running on the current thread. -/
  depth : Nat := 0
  nextThread : Nat := 1
  tornDown : Bool := false

/-- An action of a script. -/
abbrev Scripted := Act Session

/-- What a step answers, and what it makes. -/
structure Reply where
  answer : Answer := .null
  made : Option Entity := none

namespace Session

/-- The variables that every script starts with. -/
def predefined : Table Var Entity :=
  .ofList <| Core.named.map (fun e => (e.1, .value (.module e.2))) ++
    [("none", .context .toplevel), ("root", .scope .root)]

/-- A session that has run nothing yet. -/
def start (lowest : Option Level) : Session where
  bindings := predefined
  lowest := lowest

end Session

namespace Scripted

/-- Change the session. -/
def change (f : Session → Session) : Scripted Unit :=
  modify fun w => { w with host := f w.host }

/-- The session. -/
def session : Scripted Session := do return (← get).host

/-! ### Variables -/

/-- What a variable stands for. -/
def find (v : Var) : Scripted Entity := do
  match (← session).bindings.find? v with
  | some e => return e
  | none => Act.abort (.noVariable v)

/-- Bind a variable. -/
def bind (v : Var) (e : Entity) : Scripted Unit :=
  change fun s => { s with bindings := s.bindings.insert v e }

/-- Bind a variable that may be missing to something that may not have been made. -/
def bind? (v : Option Var) (e : Option Entity) : Scripted Unit :=
  match v, e with
  | some v, some e => bind v e
  | _, _ => pure ()

/-- What a variable stands for, seen as something of a given sort. -/
def findAs {α : Type} (v : Var) (as? : Entity → Option α) : Scripted α := do
  match as? (← find v) with
  | some a => return a
  | none => Act.abort (.wrongVariable v)

/-- The value of a variable. -/
def valueOf (v : Var) : Scripted Value :=
  findAs v fun
    | .value x => some x
    | _ => none

/-- The module of a variable. -/
def moduleOf (v : Var) : Scripted ModuleId :=
  findAs v fun
    | .value x => x.asModule?
    | _ => none

/-- The module of a variable that may be missing. -/
def moduleOf? (v : Option Var) : Scripted (Option ModuleId) :=
  match v with
  | some v => return some (← moduleOf v)
  | none => return none

/-- The context of a variable. -/
def contextOf (v : Var) : Scripted Context :=
  findAs v fun
    | .context c => some c
    | _ => none

/-- The context of a variable that may be missing. -/
def contextOf? (v : Option Var) : Scripted (Option Context) :=
  match v with
  | some v => return some (← contextOf v)
  | none => return none

/-- The scope of a variable. -/
def scopeOf (v : Var) : Scripted LexicalScope :=
  findAs v fun
    | .scope s => some s
    | _ => none

/-- The method of a variable: a method, detached or with a receiver, or what a lookup found. -/
def methodOf (v : Var) : Scripted Method := do
  match ← find v with
  | .method f => return f
  | .unbound f => return f.method
  | .bound f => return f.method
  | .methodResult r =>
    match r.method with
    | some f => return f
    | none => Act.abort (.foundNoMethod v)
  | _ => Act.abort (.wrongVariable v)

/-- The method with its receiver of a variable. -/
def boundOf (v : Var) : Scripted BoundMethod :=
  findAs v fun
    | .bound f => some f
    | _ => none

/-- The result of a constant lookup of a variable. -/
def constantResultOf (v : Var) : Scripted ConstantResult :=
  findAs v fun
    | .constantResult r => some r
    | _ => none

/-- The call site of a variable. -/
def siteOf (v : Var) : Scripted SiteId :=
  findAs v fun
    | .site s => some s
    | _ => none

/-- The assumption of a variable. -/
def assumptionOf (v : Var) : Scripted Assumption :=
  findAs v fun
    | .assumption a => some a
    | _ => none

/-- The version counter of a variable. -/
def counterOf (v : Var) : Scripted CounterId :=
  findAs v fun
    | .counter c => some c
    | _ => none

/-- The value of an operand. -/
def eval : Operand → Scripted Value
  | .nil => return .nil
  | .bool b => return .bool b
  | .int n => return .int n
  | .string text => return .string text
  | .symbol name => return .symbol name
  | .var v => valueOf v

/-! ### Replies -/

/-- Answer with data about the current universe. -/
def showView (view : Universe → Answer) : Scripted Reply := do
  return { answer := view (← Act.model) }

/-- Answer with a truth value. -/
def showBool (b : Bool) : Scripted Reply := return { answer := .bool b }

/-- Answer with a value. -/
def showValue (v : Value) : Scripted Reply := do
  return { answer := View.value (← Act.model) v, made := some (.value v) }

/-- Answer with a module. -/
def showModule (m : ModuleId) : Scripted Reply := showValue (.module m)

/-- Answer with a value that may be missing. -/
def showValue? (v : Option Value) : Scripted Reply := do
  return { answer := View.valueOrMissing (← Act.model) v, made := v.map .value }

/-- Answer with a method. -/
def showMethod (f : Method) : Scripted Reply := do
  let f ← Universe.holdMethod f
  return { answer := View.method (← Act.model) f, made := some (.method f) }

/-- Answer with a method that may be missing. -/
def showMethod? (f : Option Method) : Scripted Reply :=
  match f with
  | some f => showMethod f
  | none => return {}

/-- Answer with a method made of another. -/
def showMethodAfter (f before : Method) : Scripted Reply := do
  let f ← Universe.holdMethod f
  return { answer := View.methodAfter (← Act.model) f before, made := some (.method f) }

/-- Answer with a context made of another. -/
def showContextAfter (c before : Context) : Scripted Reply := do
  let c ← Universe.holdContext c
  return { answer := View.contextAfter (← Act.model) c before, made := some (.context c) }

/-- Answer with what a method lookup found. -/
def showMethodResult (r : MethodResult) : Scripted Reply := do
  let r ← CallSite.hold r
  return { answer := View.methodResult (← Act.model) r, made := some (.methodResult r) }

/-- Answer with what a constant lookup found. -/
def showConstantResult (r : ConstantResult) : Scripted Reply := do
  return {
    answer := View.constantResult (← Act.model) (← Act.thread) r
    made := some (.constantResult r) }

/-- Answer with nothing. -/
def done : Scripted Reply := return {}

/-! ### The log -/

/-- Move the reports of the universe that are urgent enough to the log. -/
def flushReports : Scripted Unit :=
  modify fun w =>
    let kept := w.model.reports.filter fun e => e.level.isKept w.host.lowest
    let log := kept.map (fun e => LogEntry.report e.render) ++ w.host.log
    { w with model := { w.model with reports := [] }, host := { w.host with log } }

/-- Add to the log, behind what was reported before. -/
def writeLog (e : LogEntry) : Scripted Unit := do
  flushReports
  change fun s => { s with log := e :: s.log }

end Scripted

end ObjectModel.Script
