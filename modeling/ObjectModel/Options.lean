import ObjectModel.Event
import ObjectModel.Text.Blank

/-!
# Options

The tunables of a universe, and their reading from the environment.

* `Options`: the tunables with their defaults;
* `Options.ofEnvironment`: the defaults with the settings of the environment, and a report for
  each setting that cannot be read.
-/

namespace ObjectModel

/-- The tunables of a universe. -/
structure Options where
  /-- How many receiver classes a call site remembers before it gives up. -/
  methodCacheLimit : Nat := 8
  /-- Whether reassigning a constant is reported. -/
  warnOnConstantRedefinition : Bool := true
  /-- Whether the core library is loaded; methods added before are built in. -/
  coreLoaded : Bool := true
  deriving DecidableEq, Inhabited

namespace Options

/-- The first number that does not fit into 64 bits. -/
def numberBound : Nat := 18446744073709551616

/-- The number written by decimal digits. -/
def digitsValue (cs : List Char) : Nat :=
  cs.foldl (fun n c => 10 * n + (c.toNat - '0'.toNat)) 0

/-- Read an unsigned 64-bit number: ASCII digits, at least one, behind an optional plus sign. -/
def parseNumber (cs : List Char) : Option Nat :=
  let digits := match cs with
    | '+' :: ds => ds
    | ds => ds
  if digits.isEmpty || !digits.all Char.isDigit then none
  else if digitsValue digits < numberBound then some (digitsValue digits)
  else none

/-- Read a truth value: exactly `true` or `false`. -/
def parseBool (cs : List Char) : Option Bool :=
  if cs = "true".toList then some true
  else if cs = "false".toList then some false
  else none

/-- The environment's name for the limit of call-site caches. -/
def limitKey : String := "RMO_METHOD_CACHE_LIMIT"

/-- The environment's name for the report of reassigned constants. -/
def warnKey : String := "RMO_WARN_CONSTANT_REDEFINITION"

/-- Read a setting without the blanks around it; one that cannot be read is reported. -/
def readSetting {α : Type} (parse : List Char → Option α) (key : String) (raw : Option String) :
    Option α × List Event :=
  match raw with
  | none => (none, [])
  | some text =>
    match parse (Text.trimChars text.toList) with
    | some a => (some a, [])
    | none => (none, [.ignoredOption key text])

/-- The defaults, overridden by the settings for `limitKey` and `warnKey`. -/
def ofEnvironment (limit warn : Option String) : Options × List Event :=
  let base : Options := {}
  let (limit?, limitEvents) := readSetting parseNumber limitKey limit
  let (warn?, warnEvents) := readSetting parseBool warnKey warn
  ({ base with
      methodCacheLimit := limit?.getD base.methodCacheLimit
      warnOnConstantRedefinition := warn?.getD base.warnOnConstantRedefinition },
    limitEvents ++ warnEvents)

end Options

end ObjectModel
