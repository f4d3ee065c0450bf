/-!
# Constant paths

A path such as `::A::B` names a constant by segments, from the root when it starts with `::`.

* `ConstantPath.parse`: the anchoring and the segments of a text, empty segments included;
* `ConstantPath.render`: the text of a path;
* `anchorSize`, `upTo?`: the bytes before the first segment, and a text up to a byte;
* `lastSegment`: what follows the rightmost separator of a text.
-/

namespace ObjectModel

/-- A constant name relative to a module, or to the root when `absolute`. -/
structure ConstantPath where
  absolute : Bool
  segments : List String
  deriving DecidableEq

namespace ConstantPath

/-- Cut at every `::`, from the left. -/
def splitSegments : List Char → List (List Char)
  | [] => [[]]
  | ':' :: ':' :: cs => [] :: splitSegments cs
  | c :: cs =>
    match splitSegments cs with
    | [] => [[c]]
    | s :: ss => (c :: s) :: ss

/-- Join with `::` between the segments. -/
def joinSegments : List (List Char) → List Char
  | [] => []
  | [s] => s
  | s :: ss => s ++ ':' :: ':' :: joinSegments ss

/-- Read a path: anchored by a leading `::`, then cut at every further one. -/
def parse (text : String) : ConstantPath :=
  match text.toList with
  | ':' :: ':' :: cs => ⟨true, (splitSegments cs).map String.ofList⟩
  | cs => ⟨false, (splitSegments cs).map String.ofList⟩

/-- Write a path. -/
def render (p : ConstantPath) : String :=
  String.ofList ((if p.absolute then [':', ':'] else []) ++
    joinSegments (p.segments.map String.toList))

/-- How many bytes come before the first segment of a path. -/
def anchorSize (p : ConstantPath) : Nat := if p.absolute then 2 else 0

/-- The first bytes of a text, so many of them, if a character ends there. -/
def upTo? (text : String) (bytes : Nat) : Option String :=
  if h : (String.Pos.Raw.mk bytes).IsValid text then some (text.sliceTo ⟨⟨bytes⟩, h⟩).copy
  else none

/-- The characters after the rightmost `::`, if there is one. -/
def afterLastSeparator : List Char → Option (List Char)
  | [] => none
  | c :: cs =>
    match afterLastSeparator cs with
    | some rest => some rest
    | none =>
      match c, cs with
      | ':', ':' :: rest => some rest
      | _, _ => none

/-- The text after the rightmost `::`, or all of it. -/
def lastSegment (text : String) : String :=
  String.ofList ((afterLastSeparator text.toList).getD text.toList)

theorem splitSegments_ne_nil (cs : List Char) : splitSegments cs ≠ [] := by
  fun_induction splitSegments cs <;> simp

end ConstantPath

end ObjectModel
