import ObjectModel.Value

/-!
# Constants

A constant of a module is bound to a value, to a feature that is yet to be loaded, or to nothing
after a feature failed to define it.

* `Binding`, `Constant`, `SourceLocation`, `Autoload`;
* `Slots`, `Binding.slots`: a binding as two slots of which one is empty;
* `Constant.withValue` and the other `with…`: constants are never changed, only replaced.
-/

namespace ObjectModel

/-- Where a constant was assigned. -/
structure SourceLocation where
  file : String
  line : Nat
  deriving DecidableEq

/-- A feature to load for constants, and the thread that loads it now. -/
structure Autoload where
  feature : String
  thread : Option ThreadId := none
  deriving DecidableEq, Inhabited

namespace Autoload

/-- Whether some thread loads the feature. -/
def isLoading (a : Autoload) : Bool := a.thread.isSome

/-- Whether this thread loads the feature. -/
def isLoadingOn (a : Autoload) (t : ThreadId) : Bool := a.thread == some t

end Autoload

/-- What a constant is bound to. -/
inductive Binding
  | value (v : Value)
  | autoload (a : AutoloadId)
  | undefined
  deriving DecidableEq, Inhabited

/-- A place for a value and one for a feature to load. -/
structure Slots where
  value : Option Value := none
  autoload : Option AutoloadId := none
  deriving DecidableEq

/-- The slots that a binding fills. -/
def Binding.slots : Binding → Slots
  | value v => { value := some v }
  | autoload a => { autoload := some a }
  | undefined => {}

theorem Binding.slots_injective {b b' : Binding} (h : b.slots = b'.slots) : b = b' := by
  cases b <;> cases b' <;> simp_all [slots]

/-- Bindings are the slots that are not both filled. -/
theorem exists_slots_iff {s : Slots} :
    (∃ b : Binding, b.slots = s) ↔ s.value = none ∨ s.autoload = none := by
  constructor
  · rintro ⟨b, rfl⟩
    cases b with
    | value v => exact .inr rfl
    | autoload a => exact .inl rfl
    | undefined => exact .inl rfl
  · obtain ⟨v, a⟩ := s
    rintro (rfl | rfl)
    · cases a with
      | none => exact ⟨.undefined, rfl⟩
      | some a => exact ⟨.autoload a, rfl⟩
    · cases v with
      | none => exact ⟨.undefined, rfl⟩
      | some v => exact ⟨.value v, rfl⟩

/-- A constant of a module. -/
structure Constant where
  declaringModule : ModuleId
  name : String
  binding : Binding
  isPrivate : Bool := false
  isDeprecated : Bool := false
  source : Option SourceLocation := none
  deriving DecidableEq

namespace Constant

/-- The value of a constant that has one. -/
def value? (c : Constant) : Option Value :=
  match c.binding with
  | .value v => some v
  | .autoload _ | .undefined => none

/-- The autoload of a constant that waits for one. -/
def autoload? (c : Constant) : Option AutoloadId :=
  match c.binding with
  | .autoload a => some a
  | .value _ | .undefined => none

/-- The value and the autoload of a constant are in its slots. -/
theorem slots_eq (c : Constant) : c.binding.slots = ⟨c.value?, c.autoload?⟩ := by
  unfold value? autoload?
  cases c.binding <;> rfl

/-- Whether the constant waits for a feature. -/
def isAutoload (c : Constant) : Bool := c.autoload?.isSome

/-- Whether a feature failed to define the constant. -/
def isUndefined (c : Constant) : Bool := c.binding == .undefined

/-- Then both slots are empty. -/
theorem isUndefined_iff {c : Constant} : c.isUndefined = true ↔ c.binding.slots = {} := by
  rw [isUndefined, beq_iff_eq]
  exact ⟨fun h => by rw [h]; rfl, fun h => Binding.slots_injective h⟩

/-- The constant with a value; nothing is loaded for it any more. -/
def withValue (c : Constant) (v : Value) : Constant := { c with binding := .value v }

/-- The constant after its feature failed to define it. -/
def withoutBinding (c : Constant) : Constant := { c with binding := .undefined }

/-- The constant made private or public. -/
def withPrivate (c : Constant) (b : Bool) : Constant := { c with isPrivate := b }

/-- The constant marked as deprecated. -/
def deprecated (c : Constant) : Constant := { c with isDeprecated := true }

/-- The constant as assigned at another place. -/
def withSource (c : Constant) (s : Option SourceLocation) : Constant := { c with source := s }

end Constant

end ObjectModel
