import ObjectModel.Action
import ObjectModel.CallSite
import ObjectModel.Universe.Hierarchy
import ObjectModel.Universe.SuperLookup

/-!
# Invocation

Calling methods.  How the code of a body runs is given as an action of the frame and the arguments,
how a method runs as an action of the method, the receiver and the arguments.

* `Frame`: what a body knows about the call that runs it;
* `invoke`: running a method that was found;
* `dispatch`, `callPublic`, `callPrivate`: finding a method and running it;
* `Frame.callSuper`, `Frame.call`, `Frame.callSelf`: the calls that a body makes;
* `callAtSite`: running the method that a call site found.
-/

namespace ObjectModel

/-- The activation of a method. -/
structure Frame where
  receiver : Value
  method : Method

/-- How the code of a body runs. -/
abbrev RunCode (σ : Type) := Script.Expr → Frame → List Value → Act σ Value

/-- How a method runs. -/
abbrev RunMethod (σ : Type) := Method → Value → List Value → Act σ Value

namespace Invocation

open Universe

variable {σ : Type}

/-- Fail unless a call has the expected number of arguments. -/
def checkArity (args : List Value) (expected : Nat) : Act σ Unit :=
  if args.length = expected then pure () else Act.raise (.wrongArity args.length expected)

/-- Read an instance variable; other receivers than objects have none. -/
def readVariable (u : Universe) (receiver : Value) (name : String) : Option Value :=
  receiver.asObject?.bind fun o => (u.object o).ivars.find? name

/-- Write an instance variable of an object. -/
def writeVariable (o : ObjectId) (name : String) (v : Value) : Change Unit :=
  modify fun u => u.modifyObject o fun r => { r with ivars := r.ivars.insert name v }

/-- Run a method on a receiver. -/
def invoke (run : RunCode σ) : RunMethod σ := fun f receiver args => do
  if f.undefined then
    Act.raise (.noMethod f.name ((← Act.model).describe receiver))
  if f.unimplemented then Act.raise (.methodNotImplemented f.name)
  match f.body with
  | .code e =>
    let f ← holdMethod f
    run e ⟨receiver, f⟩ args
  | .closure c =>
    let f ← holdMethod f
    run c.code ⟨receiver, f⟩ args
  | .reader name => do
    checkArity args 0
    return (readVariable (← Act.model) receiver name).getD .nil
  | .writer name => do
    checkArity args 1
    let v := args.head?.getD .nil
    match receiver with
    | .object o =>
      writeVariable o name v
      return v
    | receiver =>
      let u ← Act.model
      Act.raise (.frozenReceiver (u.display (u.classOf receiver)))
  | .unimplemented => Act.raise (.methodNotImplemented f.name)

/-- The error for a call of a method that the caller may not see. -/
def notVisible (u : Universe) (f : Method) (receiver : Value) (name : String) : Error :=
  let v := match f.visibility with
    | .moduleFunction => .priv
    | v => v
  .methodNotVisible v name (u.describe receiver)

/-- Run the method that a lookup found, if it is defined and visible to the caller; without a
caller, the receiver calls itself. -/
def callFound (run : RunMethod σ) (found : Option Method) (caller : Option ModuleId)
    (receiver : Value) (name : String) (args : List Value) : Act σ Value := do
  let u ← Act.model
  match found with
  | none => Act.raise (.noMethod name (u.describe receiver))
  | some f =>
    if caller.any fun c => !u.isVisibleTo f c then Act.raise (notVisible u f receiver name)
    run f receiver args

/-- Find a method under a context and run it. -/
def dispatch (run : RunMethod σ) (context : Context) (caller : Option ModuleId)
    (receiver : Value) (name : String) (args : List Value) : Act σ Value := do
  let metaclass ← metaclassOf receiver
  let found := (← Act.model).lookupMethod metaclass name (some context)
  callFound run found.defined? caller receiver name args

/-- Call a method from toplevel code under a context. -/
def callPublic (run : RunMethod σ) (context : Context) (receiver : Value) (name : String)
    (args : List Value) : Act σ Value :=
  dispatch run context (some Core.object) receiver name args

/-- Call a method as the receiver itself would, from toplevel code. -/
def callPrivate (run : RunMethod σ) (receiver : Value) (name : String) (args : List Value) :
    Act σ Value :=
  dispatch run .toplevel none receiver name args

/-- Run the method that a call site found, from toplevel code. -/
def callAtSite (run : RunMethod σ) (site : CallSite) (r : MethodResult) (receiver : Value)
    (args : List Value) : Act σ Value :=
  callFound run r.defined? (some Core.object) receiver site.name args

end Invocation

namespace Frame

open Universe Invocation

variable {σ : Type}

/-- Call the next definition of the method. -/
def callSuper (run : RunMethod σ) (frame : Frame) (args : List Value) : Act σ Value := do
  let metaclass ← metaclassOf frame.receiver
  let u ← Act.model
  match (u.lookupSuper frame.method metaclass).defined? with
  | some f => run f frame.receiver args
  | none => Act.raise (.noSuperMethod frame.method.definedName (u.describe frame.receiver))

/-- Call a method on a receiver; code of the frame's receiver is the caller. -/
def call (run : RunMethod σ) (frame : Frame) (receiver : Value) (name : String)
    (args : List Value) : Act σ Value := do
  let caller ← metaclassOf frame.receiver
  dispatch run frame.method.context (some caller) receiver name args

/-- Call a method on the frame's receiver itself. -/
def callSelf (run : RunMethod σ) (frame : Frame) (name : String) (args : List Value) :
    Act σ Value :=
  dispatch run frame.method.context none frame.receiver name args

end Frame

end ObjectModel
