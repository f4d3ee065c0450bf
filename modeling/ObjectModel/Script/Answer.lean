import ObjectModel.Action

/-!
# Answers

What a step of a script answers: a tree of plain data, or why the step failed.

* `Answer`, `Outcome`;
* `Answer.ofOption`, `Answer.texts`, `Outcome.answer`: common shapes.
-/

namespace ObjectModel.Script

/-- Plain data. -/
inductive Answer
  | null
  | bool (b : Bool)
  | int (n : Int)
  | text (s : String)
  | list (as : List Answer)
  | record (fields : List (String × Answer))

instance : Inhabited Answer := ⟨.null⟩

namespace Answer

/-- A number that counts something. -/
def count (n : Nat) : Answer := int n

/-- A list of texts. -/
def texts (ss : List String) : Answer := list (ss.map text)

/-- Data that may be missing. -/
def ofOption {α : Type} (f : α → Answer) (x : Option α) : Answer :=
  match x with
  | some a => f a
  | none => null

/-- The fields of a record. -/
def fields : Answer → List (String × Answer)
  | record fs => fs
  | _ => []

/-- A record with more fields. -/
def extend (a : Answer) (fs : List (String × Answer)) : Answer := record (a.fields ++ fs)

/-- A missing value where nil is possible. -/
def missing : Answer := text "<none>"

end Answer

/-- How a step ended. -/
inductive Outcome
  | answered (a : Answer)
  | failed (f : Failure)

namespace Outcome

/-- The fields of a failure: its kind, its wording, and the name of a name error. -/
def failureFields : Failure → List (String × Answer)
  | .raised e =>
    [("error", .text e.kind.text), ("message", .text e.message)] ++
      match e.name? with
      | some name => [("name", .text name)]
      | none => []
  | .aborted a => [("error", .text "BadInput"), ("message", .text a.message)]

/-- An outcome as data. -/
def answer : Outcome → Answer
  | answered a => .record [("r", a)]
  | failed f => .record (failureFields f)

end Outcome

end ObjectModel.Script
