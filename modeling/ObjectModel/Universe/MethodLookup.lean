import ObjectModel.Universe.Ancestors

/-!
# Method lookup

A method is searched for along the ancestors of a module.  Before each ancestor come the parts of
the refinements that the declaration context activates for it: of every such refinement, the
ancestors that precede the refined module.  Each inspected table leaves an assumption.

* `MethodResult`, its validity;
* `searchTables`, `searchRefinements`, `searchMethod`: the search along modules, in the parts of
  refinements, and in both;
* `lookupMethod`, `lookupMethodUpTo`, `lookupMethodVisible`: the lookups;
* `isVisibleTo`, `canBind`: who may call a method and what it may be bound to.
-/

namespace ObjectModel

/-- What the search for a method found, and what it relies on. -/
structure MethodResult where
  method : Option Method
  assumptions : List Assumption
  deriving Inhabited

namespace MethodResult

/-- The method that a call would reach: one that was found and is not undefined. -/
def defined? (r : MethodResult) : Option Method := r.method.filter Method.isDefined

/-- Whether a call would reach a method. -/
def isDefined (r : MethodResult) : Bool := r.defined?.isSome

/-- The result of a search that relied on more before. -/
def after (as : List Assumption) (r : MethodResult) : MethodResult :=
  { r with assumptions := as ++ r.assumptions }

@[simp] theorem method_after (as : List Assumption) (r : MethodResult) :
    (r.after as).method = r.method := rfl

@[simp] theorem assumptions_after (as : List Assumption) (r : MethodResult) :
    (r.after as).assumptions = as ++ r.assumptions := rfl

end MethodResult

namespace Universe

/-- Whether a method result may still be used. -/
def isValidMethod (u : Universe) (r : MethodResult) : Bool := u.allHold r.assumptions

/-- The method of a name in the table of a module itself. -/
def ownMethod (u : Universe) (m : ModuleId) (name : String) : Option Method :=
  (u.module m).methods.find? name

/-- What inspecting the method table of a module relies on. -/
def assumeMethods (u : Universe) (m : ModuleId) : Assumption := u.assume (.methods m)

/-- Search the tables of modules in order. -/
def searchTables (u : Universe) (name : String) : List ModuleId → MethodResult
  | [] => ⟨none, []⟩
  | m :: ms =>
    match u.ownMethod m name with
    | some f => ⟨some f, [u.assumeMethods m]⟩
    | none => (u.searchTables name ms).after [u.assumeMethods m]

/-- The ancestors of a refinement that are searched before the refined module. -/
def refinementPart (u : Universe) (refinement refined : ModuleId) : List ModuleId :=
  (u.ancestors refinement).takeWhile (· != refined)

/-- Search the parts of refinements in order; an undefined method gives up its part only. -/
def searchRefinements (u : Universe) (name : String) (refined : ModuleId) :
    List ModuleId → MethodResult
  | [] => ⟨none, []⟩
  | r :: rs =>
    let part := u.searchTables name (u.refinementPart r refined)
    match part.defined? with
    | some f => ⟨some f, part.assumptions⟩
    | none => (u.searchRefinements name refined rs).after part.assumptions

/-- The refinements that a context activates for a module; without a context, none. -/
def activeFor (context : Option Context) (m : ModuleId) : List ModuleId :=
  match context with
  | some c => c.refinementsFor m
  | none => []

/-- Note on a method that the refinements of a context led to it. -/
def foundUnder (context : Option Context) (f : Method) : Method :=
  match context with
  | some c => f.withActive c
  | none => f

/-- Search the tables of modules in order, each behind the refinements active for it. -/
def searchMethod (u : Universe) (name : String) (context : Option Context) :
    List ModuleId → MethodResult
  | [] => ⟨none, []⟩
  | m :: ms =>
    let refined := u.searchRefinements name m (activeFor context m)
    match refined.method with
    | some f => ⟨some (foundUnder context f), refined.assumptions⟩
    | none =>
      let assumptions := refined.assumptions ++ [u.assumeMethods m]
      match u.ownMethod m name with
      | some f => ⟨some f, assumptions⟩
      | none => (u.searchMethod name context ms).after assumptions

/-- Look a method up from a module, noting what the result relies on. -/
def lookupMethod (u : Universe) (m : ModuleId) (name : String) (context : Option Context) :
    MethodResult :=
  u.searchMethod name context (u.ancestors m)

/-- Find a method from a module. -/
def findMethod (u : Universe) (m : ModuleId) (name : String) (context : Option Context) :
    Option Method :=
  (u.lookupMethod m name context).method

/-- Find a method from a module, before a module among its ancestors. -/
def findMethodUpTo (u : Universe) (m limit : ModuleId) (name : String)
    (context : Option Context) : Option Method :=
  (u.searchMethod name context ((u.ancestors m).takeWhile (· != limit))).method

/-- Find a defined method of exactly the given visibility. -/
def findMethodVisible (u : Universe) (m : ModuleId) (name : String) (v : Visibility) :
    Option Method :=
  (u.findMethod m name none).filter fun f => f.isDefined && f.visibility == v

/-- Whether code running in a class may call a method with an explicit receiver.  A protected
method may be called where its module, or the module that its singleton class belongs to, is an
ancestor. -/
def isVisibleTo (u : Universe) (f : Method) (caller : ModuleId) : Bool :=
  match f.visibility with
  | .pub => true
  | .prot =>
    (u.ancestors caller).any fun m =>
      m == f.declaringModule || (u.module m).singleton == some f.declaringModule
  | .priv | .moduleFunction => false

/-- Whether a method may be bound to instances of a module.  Methods of plain modules may be bound
to anything, those of classes within their hierarchy; a refinement counts as what it refines. -/
def canBind (u : Universe) (f : Method) (m : ModuleId) : Bool :=
  let target := (u.module m).refined?.getD m
  !(u.module f.declaringModule).isClass ||
    ((u.module target).isClass && u.includes target f.declaringModule)

/-! ### Searching -/

/-- What a search along modules finds is the first entry. -/
theorem searchTables_method (u : Universe) (name : String) (ms : List ModuleId) :
    (u.searchTables name ms).method = ms.findSome? (u.ownMethod · name) := by
  induction ms with
  | nil => rfl
  | cons m ms ih =>
    rw [searchTables, List.findSome?_cons]
    cases h : u.ownMethod m name with
    | some f => rfl
    | none => exact ih

@[simp] theorem searchRefinements_nil (u : Universe) (name : String) (m : ModuleId) :
    u.searchRefinements name m [] = ⟨none, []⟩ := rfl

/-- Without a context, the search goes along the modules alone. -/
theorem searchMethod_none (u : Universe) (name : String) (ms : List ModuleId) :
    u.searchMethod name none ms = u.searchTables name ms := by
  induction ms with
  | nil => rfl
  | cons m ms ih =>
    simp only [searchMethod, searchTables, activeFor, searchRefinements_nil, List.nil_append]
    cases u.ownMethod m name with
    | some f => rfl
    | none => rw [ih]

end Universe

end ObjectModel
