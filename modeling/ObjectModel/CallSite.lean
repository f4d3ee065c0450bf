import ObjectModel.Universe.Hierarchy
import ObjectModel.Universe.MethodLookup

/-!
# Call sites

A call site remembers, for each class of receivers, what the lookup of its method found, and uses
it again while what it relies on holds.  A site that meets more classes than it may remember turns
megamorphic and remembers nothing from then on.

* `CallSite`, `CallSite.make`;
* `CallSite.cached?`, `CallSite.remember`: reading the cache and writing it;
* `CallSite.lookup`: the method for a receiver.
-/

namespace ObjectModel

/-- What a site remembers for one class of receivers. -/
structure CacheEntry where
  metaclass : ModuleId
  result : MethodResult
  deriving Inhabited

/-- A place in the code that calls a method of a given name. -/
structure CallSite where
  name : String
  context : Context
  /-- How many classes of receivers may be remembered. -/
  limit : Nat
  entries : List CacheEntry := []
  megamorphic : Bool := false
  hits : Nat := 0
  misses : Nat := 0
  deriving Inhabited

namespace CallSite

/-- A site that has met no receiver yet. -/
def make (u : Universe) (name : String) (context : Context) : CallSite where
  name := name
  context := context
  limit := u.options.methodCacheLimit

/-- The result remembered for a class of receivers, if it may still be used. -/
def cached? (s : CallSite) (u : Universe) (metaclass : ModuleId) : Option MethodResult :=
  ((s.entries.find? fun e => e.metaclass == metaclass).map CacheEntry.result).filter
    u.isValidMethod

/-- The entries for other classes that may still be used. -/
def otherEntries (s : CallSite) (u : Universe) (metaclass : ModuleId) : List CacheEntry :=
  s.entries.filter fun e => e.metaclass != metaclass && u.isValidMethod e.result

/-- Whether there is no room for one more class. -/
def overflows (s : CallSite) (u : Universe) (metaclass : ModuleId) : Bool :=
  s.limit ≤ (s.otherEntries u metaclass).length

/-- The site with a result remembered, or without any result when there is no room for it. -/
def remember (s : CallSite) (u : Universe) (metaclass : ModuleId) (r : MethodResult) : CallSite :=
  if s.megamorphic || !u.isValidMethod r then s
  else if s.overflows u metaclass then { s with entries := [], megamorphic := true }
  else { s with entries := s.otherEntries u metaclass ++ [⟨metaclass, r⟩] }

/-- A result with an identity for its method. -/
def hold (r : MethodResult) : Change MethodResult := do
  match r.method with
  | none => return r
  | some f => return { r with method := some (← Universe.holdMethod f) }

/-- The method called at a site for a receiver, and the site afterwards. -/
def lookup (s : CallSite) (receiver : Value) : Change (MethodResult × CallSite) := do
  let metaclass ← Universe.metaclassOf receiver
  match s.cached? (← get) metaclass with
  | some r => return (r, { s with hits := s.hits + 1 })
  | none =>
    let r ← hold ((← get).lookupMethod metaclass s.name (some s.context))
    let missed := { s with misses := s.misses + 1 }
    let after := missed.remember (← get) metaclass r
    if after.megamorphic && !s.megamorphic then Universe.report (.wentMegamorphic s.name)
    return (r, after)

end CallSite

end ObjectModel
