import ObjectModel.Universe.ClassVariable
import ObjectModel.Universe.ConstantAccess
import ObjectModel.Universe.Definition
import ObjectModel.Universe.Mixin
import ObjectModel.Universe.Refinement

/-!
# Moves

A universe changes by moves.  The arguments of a move are known to the universe that it is made
in: no code has a handle on a module or an object before it exists.  Code that runs in between,
such as the body of a refinement or the loader of a feature, makes moves of its own, so opening a
refinement, starting an autoload and settling it are moves on their own.

* `Universe.knows`, `Value.Known`, `Context.Known`, `Method.Known`: what exists in a universe;
* `Move`, `Move.run`, `Move.Known`, `Move.Mixes`: the moves, what they do, which of them can be
  made, and which mix in;
* `Universe.after`, `Universe.afterAll`: the universe that a move or a run of moves leaves, whether
  they succeed or not, and `Universe.allSucceed`: whether they do;
* `Leads`, `Reachable`: runs between universes, and the universes that runs from a fresh one reach.
-/

namespace ObjectModel

/-! ### What a universe knows -/

namespace Universe

/-- The number of a module or an object was given out already. -/
def knows (u : Universe) (m : ModuleId) : Prop := m.num < u.nextId

/-- The number of an object was given out already. -/
def knowsObject (u : Universe) (o : ObjectId) : Prop := o.num < u.nextId

instance (u : Universe) (m : ModuleId) : Decidable (u.knows m) := Nat.decLt _ _
instance (u : Universe) (o : ObjectId) : Decidable (u.knowsObject o) := Nat.decLt _ _

end Universe

/-- The module or object that a value is exists. -/
def Value.Known (u : Universe) : Value → Prop
  | module m => u.knows m
  | object o => u.knowsObject o
  | nil | bool _ | int _ | symbol _ | string _ => True

/-- The modules of a scope exist. -/
def LexicalScope.Known (u : Universe) (s : LexicalScope) : Prop := ∀ m ∈ s.nesting, u.knows m

/-- The modules that a context is about exist. -/
structure Context.Known (u : Universe) (c : Context) : Prop where
  definee : ∀ m, c.definee = .fixed m → u.knows m
  refined : ∀ e ∈ c.refinements.entries, u.knows e.1
  active : ∀ e ∈ c.refinements.entries, ∀ r ∈ e.2, u.knows r

/-- The modules that the closure of a method was made among exist. -/
def MethodBody.Known (u : Universe) : MethodBody → Prop
  | closure c => c.scope.Known u ∧ c.context.Known u
  | code _ | reader _ | writer _ | unimplemented => True

/-- The modules that a method is about exist. -/
structure Method.Known (u : Universe) (f : Method) : Prop where
  declaring : u.knows f.declaringModule
  scope : f.scope.Known u
  context : f.context.Known u
  active : ∀ c, f.active = some c → c.Known u
  body : f.body.Known u

theorem Context.known_toplevel (u : Universe) : Context.toplevel.Known u where
  definee _ h := by cases h
  refined _ h := by cases h
  active _ h := by cases h

/-! ### Moves -/

/-- The elementary operations on a universe, with their arguments. -/
inductive Move
  | newModule
  | newClass (superclass : Option ModuleId)
  | copyModule (source : ModuleId)
  | singletonClass (m : ModuleId)
  | objectSingletonClass (o : ObjectId)
  | newObject (m : ModuleId)
  | writeVariable (o : ObjectId) (name : String) (v : Value)
  | freezeModule (m : ModuleId)
  | sealModule (m : ModuleId)
  | includeModule (m n : ModuleId)
  | prependModule (m n : ModuleId)
  | addMethod (m : ModuleId) (f : Method)
  | removeMethod (m : ModuleId) (name : String)
  | openRefinement (nameSpace target : ModuleId)
  | setConstant (m : ModuleId) (name : String) (v : Value) (source : Option SourceLocation)
  | removeConst (m : ModuleId) (name : String)
  | privateConstants (m : ModuleId) (names : List String)
  | publicConstants (m : ModuleId) (names : List String)
  | deprecateConstants (m : ModuleId) (names : List String)
  | registerAutoload (m : ModuleId) (name feature : String)
  /-- An autoload begins on a thread, or ends. -/
  | markAutoload (a : AutoloadId) (t : Option ThreadId)
  | settleAutoload (m : ModuleId) (name : String)
  | setClassVariable (m : ModuleId) (name : String) (v : Value)
  | removeClassVariable (m : ModuleId) (name : String)
  /-- A version counter of its own is made. -/
  | newCounter
  /-- The version of a counter rises. -/
  | raiseCounter (c : CounterId)
  | installLoader
  /-- A number for an entity that is neither module nor object is drawn. -/
  | drawSerial
  | report (e : Event)
  /-- The reports are taken. -/
  | takeReports

namespace Move

/-- Set the version of a counter. -/
def setVersion (c : CounterId) (version : Nat) : Change Unit :=
  modify fun u => { u with counters := u.counters.insert c version }

open Universe in
/-- What a move does. -/
def run : Move → Update Unit
  | newModule => discard (Universe.newModule : Update ModuleId)
  | newClass s => discard <| Universe.newClass s
  | copyModule m => discard <| Universe.copyModule m
  | singletonClass m => discard (Universe.singletonClass m : Update ModuleId)
  | objectSingletonClass o => discard (Universe.objectSingletonClass o : Update ModuleId)
  | newObject m => discard <| Universe.newObject m
  | writeVariable o name v => modify fun u =>
    u.modifyObject o fun r => { r with ivars := r.ivars.insert name v }
  | freezeModule m => Universe.freezeModule m
  | sealModule m => Universe.sealModule m
  | includeModule m n => Universe.includeModule m n
  | prependModule m n => Universe.prependModule m n
  | addMethod m f => Universe.addMethod m f
  | removeMethod m name => Universe.removeMethod m name
  | openRefinement n t => discard <| Universe.openRefinement n t
  | setConstant m name v source => discard <| Universe.setConstant m name v source
  | removeConst m name => discard <| Universe.removeConst m name
  | privateConstants m names => Universe.privateConstants m names
  | publicConstants m names => Universe.publicConstants m names
  | deprecateConstants m names => Universe.deprecateConstants m names
  | registerAutoload m name feature => Universe.registerAutoload m name feature
  | markAutoload a t => modify fun u => u.setAutoload a { u.autoload a with thread := t }
  | settleAutoload m name => discard (Universe.settleAutoload m name : Update (Option Constant))
  | setClassVariable m name v => Universe.setClassVariable m name v
  | removeClassVariable m name => discard <| Universe.removeClassVariable m name
  | newCounter => do setVersion ⟨← freshSerial⟩ 0
  | raiseCounter c => do setVersion c ((← get).versionOf (.counter c) + 1)
  | installLoader => modify fun u => { u with hasLoader := true }
  | drawSerial => discard (freshSerial : Update Nat)
  | report e => Universe.report e
  | takeReports => modify fun u => { u with reports := [] }

/-- The arguments of a move exist. -/
def Known (u : Universe) : Move → Prop
  | newModule | newCounter | raiseCounter _ | markAutoload _ _ | installLoader | drawSerial
  | report _ | takeReports => True
  | newClass s => ∀ m, s = some m → u.knows m
  | copyModule m | singletonClass m | newObject m | freezeModule m | sealModule m
  | removeMethod m _ | removeConst m _ | privateConstants m _ | publicConstants m _
  | deprecateConstants m _ | registerAutoload m _ _ | settleAutoload m _
  | removeClassVariable m _ => u.knows m
  | includeModule m n | prependModule m n | openRefinement m n => u.knows m ∧ u.knows n
  | objectSingletonClass o => u.knowsObject o
  | writeVariable o _ v => u.knowsObject o ∧ v.Known u
  | addMethod m f => u.knows m ∧ f.Known u
  | setConstant m _ v _ | setClassVariable m _ v => u.knows m ∧ v.Known u

/-- Whether a move mixes a module into another. -/
def Mixes : Move → Prop
  | includeModule _ _ | prependModule _ _ => True
  | _ => False

end Move

/-! ### Runs -/

/-- The universe that an update leaves, whether it succeeds or not. -/
def Update.final {α : Type} (x : Update α) (u : Universe) : Universe :=
  match x u with
  | .ok _ v => v
  | .error _ v => v

/-- What an update gives, if it succeeds. -/
def Update.result? {α : Type} (x : Update α) (u : Universe) : Option α :=
  match x u with
  | .ok a _ => some a
  | .error _ _ => none

namespace Universe

/-- The universe after a move. -/
def after (u : Universe) (mv : Move) : Universe := mv.run.final u

/-- The universe after moves in order. -/
def afterAll (u : Universe) (mvs : List Move) : Universe := mvs.foldl after u

/-- Every move of a run has known arguments when its turn comes. -/
def AllKnown (u : Universe) : List Move → Prop
  | [] => True
  | mv :: mvs => mv.Known u ∧ (u.after mv).AllKnown mvs

@[simp] theorem afterAll_nil (u : Universe) : u.afterAll [] = u := rfl

@[simp] theorem afterAll_cons (u : Universe) (mv : Move) (mvs : List Move) :
    u.afterAll (mv :: mvs) = (u.after mv).afterAll mvs := rfl

theorem afterAll_append (u : Universe) (mvs mvs' : List Move) :
    u.afterAll (mvs ++ mvs') = (u.afterAll mvs).afterAll mvs' := by
  unfold afterAll
  rw [List.foldl_append]

theorem allKnown_append (u : Universe) (mvs mvs' : List Move) :
    u.AllKnown (mvs ++ mvs') ↔ u.AllKnown mvs ∧ (u.afterAll mvs).AllKnown mvs' := by
  induction mvs generalizing u with
  | nil => simp [AllKnown]
  | cons mv mvs ih =>
    rw [List.cons_append, AllKnown, AllKnown, ih, afterAll_cons, and_assoc]

/-- Every move of a run succeeds when its turn comes. -/
def allSucceed (u : Universe) : List Move → Bool
  | [] => true
  | mv :: mvs =>
    match mv.run u with
    | .ok _ v => v.allSucceed mvs
    | .error _ _ => false

/-- Some run of moves leads from one universe to another. -/
def Leads (u v : Universe) : Prop := ∃ mvs, u.AllKnown mvs ∧ u.afterAll mvs = v

/-- Some run of moves leads here from a fresh universe. -/
def Reachable (u : Universe) : Prop := ∃ options, Leads (.create options) u

theorem Leads.refl (u : Universe) : Leads u u := ⟨[], trivial, rfl⟩

theorem Leads.trans {u v w : Universe} (h : Leads u v) (h' : Leads v w) : Leads u w := by
  obtain ⟨mvs, hk, rfl⟩ := h
  obtain ⟨mvs', hk', rfl⟩ := h'
  exact ⟨mvs ++ mvs', (allKnown_append u mvs mvs').2 ⟨hk, hk'⟩, afterAll_append u mvs mvs'⟩

theorem Leads.of_move {u : Universe} {mv : Move} (h : mv.Known u) : Leads u (u.after mv) :=
  ⟨[mv], ⟨h, trivial⟩, rfl⟩

/-- A relation between universes that every move keeps holds along runs. -/
theorem Leads.induction {u : Universe} {motive : Universe → Prop} (start : motive u)
    (step : ∀ v mv, motive v → mv.Known v → motive (v.after mv)) {v : Universe}
    (h : Leads u v) : motive v := by
  obtain ⟨mvs, hk, rfl⟩ := h
  induction mvs generalizing u with
  | nil => exact start
  | cons mv mvs ih => exact ih (step u mv start hk.1) hk.2

theorem Reachable.create (options : Options) : Reachable (.create options) :=
  ⟨options, .refl _⟩

theorem Reachable.leads {u v : Universe} (hu : Reachable u) (h : Leads u v) : Reachable v := by
  obtain ⟨options, ho⟩ := hu
  exact ⟨options, ho.trans h⟩

theorem Reachable.afterAll {u : Universe} (hu : Reachable u) (mvs : List Move)
    (h : u.AllKnown mvs) : Reachable (u.afterAll mvs) :=
  hu.leads ⟨mvs, h, rfl⟩

end Universe

end ObjectModel
