import ObjectModel.Universe.Basic

/-!
# Actions

An action runs code: it changes a universe, on some thread, together with whatever its host keeps.

* `World`, `World.holder`: a universe with what is around it, and where its constants are resolved;
* `Failure`, `Act`;
* `model`, `thread`, `raise`: reading the world and failing with an error;
* `onThread`: an action on another thread;
* `ensuring`: an action with a last change of the universe, whether it fails or not.
-/

namespace ObjectModel

/-- A universe, the thread that works on it, and what the host of the code keeps. -/
structure World (σ : Type) where
  model : Universe
  thread : ThreadId
  host : σ
  /-- The modules that the host let go of.  Whoever refers to one without keeping it, as a constant
  does to the module that declares it, finds it gone. -/
  gone : List ModuleId := []

/-- The module in which a constant found from `m` is resolved: the one that declares it, or `m` if
that one is gone. -/
def World.holder {σ : Type} (w : World σ) (m : ModuleId) (c : Constant) : ModuleId :=
  if c.declaringModule ∈ w.gone then m else c.declaringModule

theorem World.holder_of_gone {σ : Type} {w : World σ} {c : Constant}
    (h : c.declaringModule ∈ w.gone) (m : ModuleId) : w.holder m c = m := if_pos h

theorem World.holder_of_kept {σ : Type} {w : World σ} {c : Constant}
    (h : c.declaringModule ∉ w.gone) (m : ModuleId) : w.holder m c = c.declaringModule := if_neg h

/-- A constant of the module that it is found from is resolved there. -/
@[simp] theorem World.holder_declaringModule {σ : Type} (w : World σ) (c : Constant) :
    w.holder c.declaringModule c = c.declaringModule := ite_self _

/-- What ends code for a reason outside the model. -/
inductive Abort
  /-- A variable that nothing was bound to. -/
  | noVariable (v : String)
  /-- A variable bound to something of another sort. -/
  | wrongVariable (v : String)
  /-- A method asked of a lookup that found none. -/
  | foundNoMethod (v : String)
  /-- A constant binding that a step relies on is missing. -/
  | noConstant (name : String)
  /-- A step that cannot be read. -/
  | badStep (reason : String)
  /-- A step after the universe was torn down. -/
  | noUniverse
  /-- A run that is nested too deep to be followed. -/
  | tooDeep
  deriving DecidableEq

/-- The wording of a reason. -/
def Abort.message : Abort → String
  | noVariable v => s!"no variable {v}"
  | wrongVariable v => s!"{v} does not fit"
  | foundNoMethod v => s!"{v} found no method"
  | noConstant name => s!"no constant {name}"
  | badStep reason => reason
  | noUniverse => "no universe"
  | tooDeep => "nested too deep"

/-- Why an action ends early. -/
inductive Failure
  | raised (e : Error)
  | aborted (a : Abort)
  deriving DecidableEq

/-- Code that works on a world; what it changed before a failure stays. -/
abbrev Act (σ : Type) := EStateM Failure (World σ)

instance {σ : Type} : MonadLift (EStateM Error Universe) (EStateM Failure (World σ)) where
  monadLift update := fun w =>
    match update w.model with
    | .ok a u => .ok a { w with model := u }
    | .error e u => .error (.raised e) { w with model := u }

namespace Act

variable {σ α : Type}

/-- The current universe. -/
def model : Act σ Universe := do return (← get).model

/-- The current thread. -/
def thread : Act σ ThreadId := do return (← get).thread

/-- Fail with an error. -/
def raise (e : Error) : Act σ α := throw (.raised e)

/-- Give up for a reason outside the model. -/
def abort (a : Abort) : Act σ α := throw (.aborted a)

/-- The value of a computation that may fail with an error. -/
def ofExcept (x : Except Error α) : Act σ α :=
  match x with
  | .ok a => return a
  | .error e => raise e

/-- Run an action and then change the world, whether the action fails or not. -/
def ensuring (body : Act σ α) (last : World σ → World σ) : Act σ α := fun w =>
  match body w with
  | .ok a w' => .ok a (last w')
  | .error e w' => .error e (last w')

/-- Run an action on another thread. -/
def onThread (t : ThreadId) (body : Act σ α) : Act σ α := fun w =>
  ensuring body (fun w' => { w' with thread := w.thread }) { w with thread := t }

end Act

end ObjectModel
