import ObjectModel.Universe.Ancestors

/-!
# Mixing in

Including a module puts its ancestors behind another module, prepending it puts them in front.
Modules that are in the chain already keep their places, and the others go next to them.
-/

namespace ObjectModel.Universe

/-- The included part of `m` after including `n`; what is prepended to `m` or reached through its
parent stays where it is. -/
def includedAfter (u : Universe) (m n : ModuleId) : List ModuleId :=
  let chain := (u.module m).chain
  let inherited := fun k => chain.parent.any fun p => u.includes p k
  weaveIncluded inherited chain.included
    ((u.ancestors n).filter fun k => !chain.prepended.contains k)

/-- The prepended part of `m` after prepending `n`, whose walk is followed up to the first class;
what is included into `m` stays where it is. -/
def prependedAfter (u : Universe) (m n : ModuleId) : List ModuleId :=
  let chain := (u.module m).chain
  weavePrepended chain.included.contains chain.prepended
    (((u.links n).filterMap Link.module?).takeWhile fun k => !(u.module k).isClass)

/-- Fail if `n` may not be mixed into `m`. -/
def checkMixin (m n : ModuleId) (cycle : Error) : Update Unit := do
  checkMutable m
  let u ← get
  if (u.module n).isClass then throw .classNotMixin
  if u.includes n m then throw cycle

/-- Mix `n` and its ancestors in right after `m`. -/
def includeModule (m n : ModuleId) : Update Unit := do
  checkMixin m n .cyclicInclude
  let u ← get
  let included := u.includedAfter m n
  if included ≠ (u.module m).chain.included then
    changeModule m (·.updateChain fun c => { c with included })
    reportNow fun u => .includedModule (u.display m) (u.display n)

/-- Mix `n` and its ancestors in right before `m`. -/
def prependModule (m n : ModuleId) : Update Unit := do
  checkMixin m n .cyclicPrepend
  let u ← get
  let prepended := u.prependedAfter m n
  if prepended ≠ (u.module m).chain.prepended then
    changeModule m (·.updateChain fun c => { c with prepended })
    reportNow fun u => .prependedModule (u.display m) (u.display n)

end ObjectModel.Universe
