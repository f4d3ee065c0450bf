import ObjectModel.Text.Uppercase

/-!
# Names

The grammar of the names that constants, variables and methods are stored under.  An identifier is
made of ASCII letters and digits, underscores and any characters outside ASCII, and starts with no
digit.

* `isConstantName`, `isClassVariableName`, `isInstanceVariableName`, `isMethodName`: the four
  grammars;
* `isImplicitlyPrivate`: the methods that are private whatever is asked for.
-/

namespace ObjectModel.Name

/-- Whether a character lies outside ASCII. -/
def isForeign (c : Char) : Bool := 128 ≤ c.toNat

/-- Whether an identifier may start with this character. -/
def isIdentifierStart (c : Char) : Bool := c.isAlpha || c == '_' || isForeign c

/-- Whether an identifier may hold this character. -/
def isIdentifierChar (c : Char) : Bool := c.isAlphanum || c == '_' || isForeign c

/-- Whether the characters form an identifier. -/
def isIdentifier : List Char → Bool
  | [] => false
  | c :: cs => isIdentifierStart c && cs.all isIdentifierChar

/-- Constant names start with an uppercase character. -/
def isConstantName (name : String) : Bool :=
  match name.toList with
  | [] => false
  | c :: cs => Text.isUppercase c && cs.all isIdentifierChar

/-- Class variable names are identifiers behind `@@`. -/
def isClassVariableName (name : String) : Bool :=
  match name.toList with
  | '@' :: '@' :: cs => isIdentifier cs
  | _ => false

/-- Instance variable names are identifiers behind a single `@`. -/
def isInstanceVariableName (name : String) : Bool :=
  match name.toList with
  | '@' :: cs => isIdentifier cs
  | _ => false

/-- The method names that are not made of identifier characters. -/
def operatorNames : List String := [
  "[]", "[]=", "+", "-", "*", "/", "%", "**", "==", "===", "!=", "!", "=~", "!~", "<=>", "<",
  "<=", ">", ">=", "<<", ">>", "&", "|", "^", "~", "+@", "-@", "`"]

/-- Whether a method name may end in this character besides identifier characters. -/
def isMethodSuffix (c : Char) : Bool := c == '?' || c == '!' || c == '='

/-- Whether the characters end in a method suffix. -/
def hasMethodSuffix (cs : List Char) : Bool := cs.getLast?.any isMethodSuffix

/-- The characters without one method suffix. -/
def methodStem (cs : List Char) : List Char := if hasMethodSuffix cs then cs.dropLast else cs

/-- Method names are operators, or identifiers with at most one suffix. -/
def isMethodName (name : String) : Bool :=
  operatorNames.contains name || isIdentifier (methodStem name.toList)

/-- Attribute names are method names without a suffix. -/
def isAttributeName (name : String) : Bool := isMethodName name && !hasMethodSuffix name.toList

/-- Whether methods of this name are private in every module. -/
def isImplicitlyPrivate (name : String) : Bool :=
  ["initialize", "initialize_copy", "initialize_clone", "initialize_dup",
    "respond_to_missing?"].contains name

end ObjectModel.Name
