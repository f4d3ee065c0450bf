import ObjectModel.Id

/-!
# Chains

The chain of a module lists the modules mixed into it, before and after itself, and where the
search continues after them.

* `Chain`, its `modules` and its `links`;
* `weaveIncluded`, `weavePrepended`: the ancestors of another module worked into the included or
  the prepended part, those already there keeping their places.
-/

namespace ObjectModel

/-- One step of a walk along chains. -/
inductive Link
  /-- The modules prepended to this one follow. -/
  | marker (owner : ModuleId)
  | module (m : ModuleId)
  deriving DecidableEq

/-- The module that a link stands for; markers stand for none. -/
def Link.module? : Link → Option ModuleId
  | marker _ => none
  | module m => some m

/-- The modules around a module, and the module whose chain continues its own. -/
structure Chain where
  prepended : List ModuleId := []
  included : List ModuleId := []
  parent : Option ModuleId := none
  deriving DecidableEq, Inhabited

namespace Chain

/-- The modules mixed in, prepended ones first. -/
def mixins (c : Chain) : List ModuleId := c.prepended ++ c.included

/-- The modules of the chain of `owner`, itself included. -/
def modules (c : Chain) (owner : ModuleId) : List ModuleId := c.prepended ++ owner :: c.included

/-- The links of the chain of `owner`; a marker announces prepended modules. -/
def links (c : Chain) (owner : ModuleId) : List Link :=
  (if c.prepended.isEmpty then [] else [.marker owner]) ++ (c.modules owner).map .module

/-- The links of a chain stand for its modules. -/
@[simp] theorem filterMap_links (c : Chain) (owner : ModuleId) :
    (c.links owner).filterMap Link.module? = c.modules owner := by
  have h (ms : List ModuleId) : (ms.map Link.module).filterMap Link.module? = ms := by
    induction ms with
    | nil => rfl
    | cons m ms ih => simp [Link.module?, ih]
  unfold links
  split
  · rw [List.nil_append, h]
  · rw [List.cons_append, List.nil_append, List.filterMap_cons_none rfl, h]

end Chain

/-! ### Mixing in -/

/-- A list under insertion: where the next modules go, and those that wait to go there. -/
structure Weave where
  modules : List ModuleId
  position : Nat := 0
  waiting : List ModuleId := []

namespace Weave

/-- Put the waiting modules in. -/
def flush (w : Weave) : Weave where
  modules := w.modules.take w.position ++ w.waiting ++ w.modules.drop w.position
  position := w.position

/-- A module that is there already lets the waiting ones in, and the next ones go behind it;
any other waits, unless it is skipped. -/
def addIncluded (skip : ModuleId → Bool) (w : Weave) (m : ModuleId) : Weave :=
  if m ∈ w.modules then
    let flushed := w.flush
    { flushed with position := flushed.modules.idxOf m + 1 }
  else if skip m then w
  else { w with waiting := w.waiting ++ [m] }

/-- A module that is there already only moves the position behind it; any other goes in at once,
unless it is skipped. -/
def addPrepended (skip : ModuleId → Bool) (w : Weave) (m : ModuleId) : Weave :=
  if m ∈ w.modules then { w with position := w.modules.idxOf m + 1 }
  else if skip m then w
  else { ({ w with waiting := [m] } : Weave).flush with position := w.position + 1 }

end Weave

/-- Work modules into an included part. -/
def weaveIncluded (skip : ModuleId → Bool) (included ms : List ModuleId) : List ModuleId :=
  (ms.foldl (Weave.addIncluded skip) { modules := included }).flush.modules

/-- Work modules into a prepended part. -/
def weavePrepended (skip : ModuleId → Bool) (prepended ms : List ModuleId) : List ModuleId :=
  (ms.foldl (Weave.addPrepended skip) { modules := prepended }).modules

end ObjectModel
