import ObjectModel.Action
import ObjectModel.Assumption
import ObjectModel.CallSite
import ObjectModel.Chain
import ObjectModel.Constant
import ObjectModel.ConstantPath
import ObjectModel.Context
import ObjectModel.Error
import ObjectModel.Event
import ObjectModel.Id
import ObjectModel.Interner
import ObjectModel.Invocation
import ObjectModel.LexicalScope
import ObjectModel.Method
import ObjectModel.Module
import ObjectModel.Name
import ObjectModel.Options
import ObjectModel.Proofs.Activation
import ObjectModel.Proofs.Announcing
import ObjectModel.Proofs.Atomicity
import ObjectModel.Proofs.AttributeNames
import ObjectModel.Proofs.Belonging
import ObjectModel.Proofs.Birth
import ObjectModel.Proofs.ClassVariableCells
import ObjectModel.Proofs.Cohesion
import ObjectModel.Proofs.ConstantSearch
import ObjectModel.Proofs.ConstantValidity
import ObjectModel.Proofs.CopiedSearch
import ObjectModel.Proofs.Copies
import ObjectModel.Proofs.Descent
import ObjectModel.Proofs.Drift
import ObjectModel.Proofs.Editing
import ObjectModel.Proofs.Entering
import ObjectModel.Proofs.Enumeration
import ObjectModel.Proofs.Existence
import ObjectModel.Proofs.Finality
import ObjectModel.Proofs.Framing
import ObjectModel.Proofs.Fronting
import ObjectModel.Proofs.FullNames
import ObjectModel.Proofs.Guarding
import ObjectModel.Proofs.ImplicitPrivacy
import ObjectModel.Proofs.Including
import ObjectModel.Proofs.Interning
import ObjectModel.Proofs.Isolation
import ObjectModel.Proofs.Keeping
import ObjectModel.Proofs.Layout
import ObjectModel.Proofs.Lineage
import ObjectModel.Proofs.Marking
import ObjectModel.Proofs.Metaclasses
import ObjectModel.Proofs.MethodEnumeration
import ObjectModel.Proofs.MixedClasses
import ObjectModel.Proofs.Mixing
import ObjectModel.Proofs.Move
import ObjectModel.Proofs.Operation
import ObjectModel.Proofs.Overtaking
import ObjectModel.Proofs.PathText
import ObjectModel.Proofs.Prepending
import ObjectModel.Proofs.Privacy
import ObjectModel.Proofs.Redeclaring
import ObjectModel.Proofs.Registry
import ObjectModel.Proofs.Reloading
import ObjectModel.Proofs.Requests
import ObjectModel.Proofs.Rereading
import ObjectModel.Proofs.Resolving
import ObjectModel.Proofs.Retouching
import ObjectModel.Proofs.Retrying
import ObjectModel.Proofs.ScopedSearch
import ObjectModel.Proofs.ScopedValidity
import ObjectModel.Proofs.Search
import ObjectModel.Proofs.SearchOrder
import ObjectModel.Proofs.Seats
import ObjectModel.Proofs.SegmentReading
import ObjectModel.Proofs.Shadowing
import ObjectModel.Proofs.SharedVariables
import ObjectModel.Proofs.Siblings
import ObjectModel.Proofs.SiteCapacity
import ObjectModel.Proofs.SiteCoherence
import ObjectModel.Proofs.Spine
import ObjectModel.Proofs.Steadiness
import ObjectModel.Proofs.StoredChains
import ObjectModel.Proofs.StoredMethods
import ObjectModel.Proofs.Storing
import ObjectModel.Proofs.SuperEnumeration
import ObjectModel.Proofs.SuperFromClass
import ObjectModel.Proofs.SuperGuarding
import ObjectModel.Proofs.SuperOvertaking
import ObjectModel.Proofs.SuperProgress
import ObjectModel.Proofs.SuperSearch
import ObjectModel.Proofs.SuperValidity
import ObjectModel.Proofs.SuperVisits
import ObjectModel.Proofs.ThreadIndependence
import ObjectModel.Proofs.Through
import ObjectModel.Proofs.Transparency
import ObjectModel.Proofs.Untouched
import ObjectModel.Proofs.VisibilityChange
import ObjectModel.Proofs.Weaving
import ObjectModel.Script.Answer
import ObjectModel.Script.Code
import ObjectModel.Script.Perform.Call
import ObjectModel.Script.Perform.Constant
import ObjectModel.Script.Perform.Hierarchy
import ObjectModel.Script.Perform.Method
import ObjectModel.Script.Run
import ObjectModel.Script.Session
import ObjectModel.Script.View
import ObjectModel.Table
import ObjectModel.Text.Blank
import ObjectModel.Text.Uppercase
import ObjectModel.Universe.Ancestors
import ObjectModel.Universe.Basic
import ObjectModel.Universe.ClassVariable
import ObjectModel.Universe.ConstantAccess
import ObjectModel.Universe.ConstantLookup
import ObjectModel.Universe.ConstantTable
import ObjectModel.Universe.Definition
import ObjectModel.Universe.Hierarchy
import ObjectModel.Universe.MethodListing
import ObjectModel.Universe.MethodLookup
import ObjectModel.Universe.Mixin
import ObjectModel.Universe.Naming
import ObjectModel.Universe.Refinement
import ObjectModel.Universe.SuperLookup
import ObjectModel.Value
import ObjectModel.Visibility
