import ObjectModel.Universe.Basic

/-!
# Naming

An anonymous module gets its full name when it is first assigned to a constant of a named module,
and passes it on to the anonymous modules among its own constants.

* `nameAll`: name modules and what they hold, each module at most once;
* `adopt`: the naming that an assignment brings about.
-/

namespace ObjectModel

namespace Module

/-- The modules among the constants, under the names that they have inside `fullName`. -/
def children (r : Module) (fullName : String) : List (String × ModuleId) :=
  r.constants.entries.filterMap fun e =>
    (e.2.value?.bind Value.asModule?).map fun child => (s!"{fullName}::{e.1}", child)

/-- How much naming a record may still bring about: itself and each of its constants. -/
def namingWeight (r : Module) : Nat := if r.name.isNone then r.constants.size + 1 else 0

theorem length_children_le (r : Module) (fullName : String) :
    (r.children fullName).length ≤ r.constants.size :=
  List.length_filterMap_le _ _

end Module

namespace Universe

/-- To name a module leaves less to do, even when everything that it holds is to be named next. -/
theorem weight_named_lt {u : Universe} {m : ModuleId} {r : Module}
    (found : u.modules.find? m = some r) (hname : r.name = none) (fullName : String)
    (rest : List (String × ModuleId)) :
    (u.setModule m { r with name := some fullName }).modules.weight Module.namingWeight +
        (r.children fullName ++ rest).length <
      u.modules.weight Module.namingWeight + (rest.length + 1) := by
  have hw := Table.weight_insert Module.namingWeight found { r with name := some fullName }
  have hr : r.namingWeight = r.constants.size + 1 := by simp [Module.namingWeight, hname]
  have hn : ({ r with name := some fullName } : Module).namingWeight = 0 := rfl
  have hc := r.length_children_le fullName
  simp only [setModule, List.length_append]
  omega

/-- Name modules in order, each followed by the modules among its constants; a module that has a
name keeps it. -/
def nameAll (u : Universe) (work : List (String × ModuleId)) : Universe :=
  match work with
  | [] => u
  | (fullName, m) :: rest =>
    match _found : u.modules.find? m with
    | none => u.nameAll rest
    | some r =>
      if r.name = none then
        (u.setModule m { r with name := some fullName }).nameAll (r.children fullName ++ rest)
      else u.nameAll rest
termination_by u.modules.weight Module.namingWeight + work.length
decreasing_by
  · simp
  · next hname => exact weight_named_lt _found hname fullName rest
  · simp

/-- Name `m`, just assigned to a constant of `parent`, unless it has a name or `parent` has none;
constants of the class of objects are named by themselves alone. -/
def adopt (u : Universe) (parent : ModuleId) (name : String) (m : ModuleId) : Universe :=
  if parent = Core.object then u.nameAll [(name, m)]
  else
    match (u.module parent).name with
    | some parentName => u.nameAll [(s!"{parentName}::{name}", m)]
    | none => u

end Universe

end ObjectModel
