import ObjectModel.Universe.Basic

/-!
# Ancestors

The linearization of a module: its own chain, then the chain of its parent, and so on.  A module
that is met in several chains counts at its first place.

* `links`, `ancestors`: the walk with markers and repetitions, and the linearization;
* `includes`: whether a module is among the ancestors of another;
* `compare?`, `isBelow?`: modules ordered by descent, as far as they are related.
-/

namespace ObjectModel.Universe

/-- The walk along the chain of a module and the chains that continue it.  The parent of a module
is older than the module itself. -/
def links (u : Universe) (m : ModuleId) : List Link :=
  (u.module m).chain.links m ++
    match (u.module m).chain.parent with
    | some p => if p.num < m.num then u.links p else []
    | none => []
termination_by m.num

/-- The modules that a module inherits from, itself included, nearest first. -/
def ancestors (u : Universe) (m : ModuleId) : List ModuleId :=
  ((u.links m).filterMap Link.module?).eraseDups

/-- Whether `n` is among the ancestors of `m`. -/
def includes (u : Universe) (m n : ModuleId) : Bool := (u.ancestors m).contains n

/-- The ancestors of a module that are no classes, itself left out. -/
def includedModules (u : Universe) (m : ModuleId) : List ModuleId :=
  (u.ancestors m).filter fun n => !(u.module n).isClass && n != m

/-- The ancestors of a module, itself left out. -/
def otherAncestors (u : Universe) (m : ModuleId) : List ModuleId :=
  (u.ancestors m).filter fun n => n != m

/-- Whether `m` descends from `n`, for related modules. -/
def descends? (u : Universe) (m n : ModuleId) : Option Bool :=
  if u.includes m n then some true
  else if u.includes n m then some false
  else none

/-- Whether `m` lies strictly below `n`. -/
def isBelow? (u : Universe) (m n : ModuleId) : Option Bool :=
  if m = n then some false else u.descends? m n

/-- Whether `m` lies below `n` or is `n`. -/
def isBelowOrSame? (u : Universe) (m n : ModuleId) : Option Bool :=
  if m = n then some true else u.descends? m n

/-- The order by descent: descendants come first. -/
def compare? (u : Universe) (m n : ModuleId) : Option Ordering :=
  if m = n then some .eq
  else (u.descends? m n).map fun below => if below then .lt else .gt

/-- The module that a value is, for a comparison. -/
def comparable (v : Value) : Except Error ModuleId :=
  match v.asModule? with
  | some m => .ok m
  | none => .error .comparedWithNonModule

theorem mem_ancestors_iff {u : Universe} {m n : ModuleId} :
    n ∈ u.ancestors m ↔ .module n ∈ u.links m := by
  unfold ancestors
  rw [List.mem_eraseDups, List.mem_filterMap]
  constructor
  · rintro ⟨l, hl, hn⟩
    cases l with
    | marker _ => cases hn
    | module k =>
      cases hn
      exact hl
  · exact fun h => ⟨_, h, rfl⟩

/-- A module is among its own ancestors. -/
theorem self_mem_ancestors (u : Universe) (m : ModuleId) : m ∈ u.ancestors m := by
  rw [mem_ancestors_iff, links]
  refine List.mem_append_left _ (List.mem_append_right _ ?_)
  exact List.mem_map_of_mem (List.mem_append_right _ List.mem_cons_self)

@[simp] theorem includes_self (u : Universe) (m : ModuleId) : u.includes m m = true := by
  simp [includes, self_mem_ancestors]

@[simp] theorem compare?_self (u : Universe) (m : ModuleId) : u.compare? m m = some .eq := by
  simp [compare?]

end ObjectModel.Universe
