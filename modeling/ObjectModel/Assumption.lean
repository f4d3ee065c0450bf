import ObjectModel.Id

/-!
# Assumptions

Every method table and every constant table has a version that each change raises.  A lookup
notes one `Assumption` for each table that it inspects; its result may be used again while all of
them hold.
-/

namespace ObjectModel

/-- What a version belongs to. -/
inductive Guarded
  /-- The method table of a module. -/
  | methods (m : ModuleId)
  /-- The constant table of a module. -/
  | constants (m : ModuleId)
  /-- A version counter on its own. -/
  | counter (c : CounterId)
  deriving DecidableEq

/-- The expectation that something is still at the version it was seen at. -/
inductive Assumption
  /-- Never holds: notes a result that depends on the thread. -/
  | never
  | seen (guarded : Guarded) (version : Nat)
  deriving DecidableEq

/-- Whether an assumption holds under the current versions. -/
def Assumption.holds (versionOf : Guarded → Nat) : Assumption → Bool
  | never => false
  | .seen guarded version => versionOf guarded == version

/-- An assumption made under the current versions. -/
def Assumption.now (versionOf : Guarded → Nat) (guarded : Guarded) : Assumption :=
  .seen guarded (versionOf guarded)

@[simp] theorem Assumption.holds_now (versionOf : Guarded → Nat) (guarded : Guarded) :
    (now versionOf guarded).holds versionOf = true := by
  simp [now, holds]

@[simp] theorem Assumption.holds_never (versionOf : Guarded → Nat) :
    never.holds versionOf = false := rfl

end ObjectModel
