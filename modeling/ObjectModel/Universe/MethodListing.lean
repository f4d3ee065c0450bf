import ObjectModel.Universe.Hierarchy
import ObjectModel.Universe.MethodLookup

/-!
# Method listings

Which methods a module shows: of each name the nearest one counts, and an undefined one hides the
name.

* `collectMethods`: the nearest method of every name in the tables of some modules;
* `collectMethods_by_name`: where methods are stored under their names, it does not matter whether
  they are gathered by key or by name;
* `allMethods`, `methodsBeforeLogicalClass`, `methodsUntilLogicalClass`: the methods of the
  ancestors, or of a first stretch of them;
* `instanceMethods`, `singletonMethods`: the names that a module or a value shows;
* `visibleMethod?`: the visibility under which a module shows a name.
-/

namespace ObjectModel.Universe

/-- The nearest method of every name in the tables of some modules. -/
def collectMethods (u : Universe) (ms : List ModuleId) : Table String Method :=
  (ms.flatMap fun m => (u.module m).methods.entries).foldl (fun t e => t.insertNew e.1 e.2) .empty

/-- Methods that are stored under their names are gathered by name as they are by key. -/
theorem collectMethods_by_name {u : Universe} {ms : List ModuleId}
    (h : ∀ m ∈ ms, ∀ e ∈ (u.module m).methods.entries, e.2.name = e.1) :
    u.collectMethods ms = (ms.flatMap fun m => (u.module m).methods.values).foldl
      (fun t f => t.insertNew f.name f) .empty := by
  have hentries : (ms.flatMap fun m => (u.module m).methods.entries) =
      (ms.flatMap fun m => (u.module m).methods.values).map fun f => (f.name, f) := by
    rw [List.map_flatMap, List.flatMap_def, List.flatMap_def]
    refine congrArg List.flatten (List.map_congr_left fun m hm => ?_)
    have hentry : ∀ e ∈ (u.module m).methods.entries, e = (e.2.name, e.2) :=
      fun e he => Prod.ext (h m hm e he).symm rfl
    rw [Table.values, List.map_map]
    exact (List.map_id _).symm.trans (List.map_congr_left hentry)
  rw [collectMethods, hentries, List.foldl_map]

/-- The methods of the ancestors of a module; a refinement also has those of the refined one. -/
def allMethods (u : Universe) (m : ModuleId) : Table String Method :=
  let refined := match (u.module m).refined? with
    | some r => u.ancestors r
    | none => []
  u.collectMethods (u.ancestors m ++ refined)

/-- Whether a link leads into a class that instances are made of. -/
def entersLogicalClass (u : Universe) : Link → Bool
  | .marker owner => (u.module owner).isLogicalClass
  | .module m => (u.module m).isLogicalClass

/-- The methods of the ancestors before the first logical class and what is prepended to it. -/
def methodsBeforeLogicalClass (u : Universe) (m : ModuleId) : Table String Method :=
  let stretch := (u.links m).takeWhile fun l => !u.entersLogicalClass l
  u.collectMethods (stretch.filterMap Link.module?)

/-- The methods of the ancestors up to the first logical class, which is included. -/
def methodsUntilLogicalClass (u : Universe) (m : ModuleId) : Table String Method :=
  let isBefore := fun n => !(u.module n).isLogicalClass
  let ancestors := u.ancestors m
  u.collectMethods (ancestors.takeWhile isBefore ++ (ancestors.dropWhile isBefore).take 1)

/-- The methods of a table that are not undefined. -/
def definedMethods (t : Table String Method) : List Method := t.values.filter Method.isDefined

/-- The names of the methods of a given kind of visibility that a module shows, with or without
those of its ancestors. -/
def instanceMethods (u : Universe) (m : ModuleId) (inherit : Bool) (shows : Visibility → Bool) :
    List String :=
  let methods := if inherit then u.allMethods m else (u.module m).methods
  ((definedMethods methods).filter fun f => shows f.visibility).map fun f => f.name

/-- The names of the methods that a value's singleton class shows, with those of the modules mixed
into it if `all`. -/
def singletonMethods (v : Value) (all : Bool) : Change (List String) := do
  let metaclass ← metaclassOf v
  let u ← get
  if (u.module metaclass).isSingletonClass then
    let methods :=
      if all then u.methodsBeforeLogicalClass metaclass else (u.module metaclass).methods
    return ((definedMethods methods).filter fun f => !f.visibility.isPrivate).map fun f => f.name
  else return []

/-- The visibility of the defined method that a module shows under a name. -/
def visibleMethod? (u : Universe) (m : ModuleId) (name : String) (inherit : Bool) :
    Option Visibility :=
  let found := if inherit then u.findMethod m name none else u.ownMethod m name
  (found.filter Method.isDefined).map fun f => f.visibility

/-- Whether a module shows a method of a given kind of visibility. -/
def showsMethod (u : Universe) (m : ModuleId) (name : String) (inherit : Bool)
    (shows : Visibility → Bool) : Bool :=
  (u.visibleMethod? m name inherit).any shows

end ObjectModel.Universe
