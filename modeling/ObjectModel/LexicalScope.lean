import ObjectModel.Id

/-!
# Lexical scopes

The class and module bodies that enclose some code, innermost first, at toplevel none.
-/

namespace ObjectModel

/-- The modules whose bodies enclose some code, innermost first. -/
structure LexicalScope where
  nesting : List ModuleId
  deriving DecidableEq, Inhabited

namespace LexicalScope

/-- The scope of toplevel code. -/
def root : LexicalScope := ⟨[]⟩

/-- The scope of the body of `m` inside a scope. -/
def push (s : LexicalScope) (m : ModuleId) : LexicalScope := ⟨m :: s.nesting⟩

/-- The scope of the body of `m` at toplevel. -/
def ofModule (m : ModuleId) : LexicalScope := root.push m

/-- The module that code of a scope belongs to; toplevel code belongs to the class of objects. -/
def live (s : LexicalScope) : ModuleId := s.nesting.head?.getD Core.object

/-- Whether this is the scope of toplevel code. -/
def isRoot (s : LexicalScope) : Bool := s.nesting.isEmpty

/-- The enclosing scope; toplevel code has none. -/
def parent? (s : LexicalScope) : Option LexicalScope :=
  match s.nesting with
  | [] => none
  | _ :: ms => some ⟨ms⟩

@[simp] theorem live_root : root.live = Core.object := rfl
@[simp] theorem live_push (s : LexicalScope) (m : ModuleId) : (s.push m).live = m := rfl
@[simp] theorem parent?_push (s : LexicalScope) (m : ModuleId) : (s.push m).parent? = some s := rfl

end LexicalScope

end ObjectModel
