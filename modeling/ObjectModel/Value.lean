import ObjectModel.Id

/-!
# Values

The values that constants and variables hold and that methods are called on.
-/

namespace ObjectModel

/-- A value; strings are equal when their texts are. -/
inductive Value
  | nil
  | bool (b : Bool)
  | int (n : Int64)
  | symbol (name : String)
  | string (text : String)
  | module (m : ModuleId)
  | object (o : ObjectId)
  deriving DecidableEq, Inhabited

namespace Value

/-- Whether this is nil. -/
def isNil : Value → Bool
  | nil => true
  | _ => false

/-- Whether this is neither nil nor false. -/
def isTruthy : Value → Bool
  | nil | bool false => false
  | _ => true

/-- The module that a value is. -/
def asModule? : Value → Option ModuleId
  | module m => some m
  | _ => none

/-- The plain object that a value is. -/
def asObject? : Value → Option ObjectId
  | object o => some o
  | _ => none

/-- The integer that a value is, or zero. -/
def toInt : Value → Int64
  | int n => n
  | _ => 0

end Value

end ObjectModel
