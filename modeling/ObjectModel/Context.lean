import ObjectModel.Id
import ObjectModel.Table
import ObjectModel.Visibility

/-!
# Declaration contexts

What a definition or a call sees at some point of the code: the default visibility of new methods,
where unqualified definitions land, and the active refinements.

* `Context`, `Context.toplevel`;
* `Context.withVisibility`, `withDefinee`, `withRefinements`: contexts are never changed, only
  replaced; the first two keep the very same context when nothing changes;
* `Context.activate`: a refinement put ahead of those active for the same module.
-/

namespace ObjectModel

/-- Where a definition without an explicit receiver lands. -/
inductive Definee
  /-- In the module of the innermost enclosing body. -/
  | lexical
  /-- In the singleton class of the receiver. -/
  | singleton
  /-- In the receiver if it is a module, in its class otherwise. -/
  | receiver
  /-- In this module. -/
  | fixed (m : ModuleId)
  deriving DecidableEq, Inhabited

/-- The active refinements by refined module, most recently activated first. -/
abbrev Refinements := Table ModuleId (List ModuleId)

/-- What a definition or a call sees; the stamp tells very contexts apart, where it is known. -/
structure Context where
  visibility : Visibility := .pub
  definee : Definee := .lexical
  refinements : Refinements := .empty
  stamp : Option Stamp := none
  deriving DecidableEq, Inhabited

namespace Context

/-- The context of toplevel code: public, lexical, no refinements. -/
def toplevel : Context := { stamp := some ⟨0⟩ }

/-- Whether two contexts are the very same one. -/
def same (c d : Context) : Bool := c.stamp.isSome && c.stamp == d.stamp

/-- The context with another default visibility. -/
def withVisibility (c : Context) (v : Visibility) : Context :=
  if v = c.visibility then c else { c with visibility := v, stamp := none }

/-- The context with definitions landing elsewhere. -/
def withDefinee (c : Context) (d : Definee) : Context :=
  if d = c.definee then c else { c with definee := d, stamp := none }

/-- The context with other active refinements; always a new one. -/
def withRefinements (c : Context) (r : Refinements) : Context :=
  { c with refinements := r, stamp := none }

/-- Whether any refinements are active. -/
def hasRefinements (c : Context) : Bool := !c.refinements.entries.isEmpty

/-- The refinements active for a module, in lookup order. -/
def refinementsFor (c : Context) (m : ModuleId) : List ModuleId :=
  (c.refinements.find? m).getD []

/-- Every active refinement, once. -/
def usedRefinements (c : Context) : List ModuleId := c.refinements.values.flatten.eraseDups

/-- Put a refinement ahead of those active for the module it refines; an active one stays. -/
def activate (r : Refinements) (refined refinement : ModuleId) : Refinements :=
  let active := (r.find? refined).getD []
  if refinement ∈ active then r else r.insert refined (refinement :: active)

end Context

end ObjectModel
