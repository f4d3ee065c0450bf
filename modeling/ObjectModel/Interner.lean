import ObjectModel.Table

/-!
# Interning

An `Interner` numbers distinct strings from zero in the order in which they were first seen.  It
keeps an index of the numbers by string, and the strings by number; numbers are words of 32 bits.

* `intern`, `get?`, `lookup`: number a string, ask for its number, read a number back;
* `intern_of_seen`, `intern_of_new`: what numbering a string does, by whether it was seen before.
-/

namespace ObjectModel

/-- The strings seen so far, in order, and the numbers that they were given. -/
structure Interner where
  index : Table String Nat := .empty
  names : List String := []
  deriving Inhabited

namespace Interner

variable {t : Interner} {s : String} {n : Nat}

/-- The interner that has seen nothing. -/
def empty : Interner := {}

/-- How many distinct strings were seen. -/
def size (t : Interner) : Nat := t.names.length

/-- Whether no string was seen. -/
def isEmpty (t : Interner) : Bool := t.size == 0

/-- The number of a string seen before. -/
def get? (t : Interner) (s : String) : Option Nat := t.index.find? s

/-- The string with a given number. -/
def lookup? (t : Interner) (n : Nat) : Option String := t.names[n]?

/-- What a number that was never handed out reads as. -/
def unknown : String := "<unknown>"

/-- The string with a given number, as shown. -/
def lookup (t : Interner) (n : Nat) : String := (t.lookup? n).getD unknown

/-- How many numbers there are: as many as words of 32 bits. -/
def capacity : Nat := 0x100000000

/-- The number for the next new string; behind the last number come the first ones again. -/
def next (t : Interner) : Nat := t.size % capacity

/-- Remember a string that was not seen before. -/
def push (t : Interner) (s : String) : Interner where
  index := t.index.insert s t.next
  names := t.names ++ [s]

/-- The number of a string: the old one when it was seen before, the next one otherwise. -/
def intern (t : Interner) (s : String) : Interner × Nat :=
  match t.get? s with
  | some n => (t, n)
  | none => (t.push s, t.next)

theorem intern_of_seen (h : t.get? s = some n) : t.intern s = (t, n) := by
  rw [intern, h]

theorem intern_of_new (h : t.get? s = none) : t.intern s = (t.push s, t.next) := by
  rw [intern, h]

theorem get?_push (t : Interner) (s s' : String) :
    (t.push s).get? s' = if s = s' then some t.next else t.get? s' :=
  Table.find?_insert ..

/-- A number is found again as soon as it was handed out. -/
theorem get?_intern (t : Interner) (s : String) :
    (t.intern s).1.get? s = some (t.intern s).2 := by
  cases h : t.get? s with
  | some n => rw [intern_of_seen h, h]
  | none => rw [intern_of_new h, get?_push, if_pos rfl]

end Interner

end ObjectModel
