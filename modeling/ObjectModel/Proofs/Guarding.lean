import ObjectModel.Proofs.Operation
import ObjectModel.Proofs.Search

/-!
# Guarded lookups

A lookup notes the versions of the tables that it inspects.  What it finds depends on more: on the
own chain of every module that its walks entered.  A change of a chain raises the version of the
module that the chain belongs to, but where modules are prepended, a walk may stop in the chain
before it gets to the table of that module.

* `entered`, `chainsRead`: the modules whose own chains a walk and a lookup go along;
* `WellGuarded`: the tables of all these modules were inspected too, or their chains are fixed;
* `through_walk_congr`, `partEntry_congr`: what a walk and a part depend on;
* `findMethod_of_valid`: a guarded lookup gives the same as long as its assumptions hold.
-/

namespace ObjectModel.Universe

variable {u v : Universe} {a k m o r : ModuleId} {name : String} {c : Context}
  {stop : ModuleId → Bool}

/-! ### Chains that walks go along -/

/-- The modules whose own chains a walk goes along until it stops. -/
def entered (u : Universe) (stop : ModuleId → Bool) (m : ModuleId) : List ModuleId :=
  through (fun o => (u.ownChain o).any stop) (u.spine m)

/-- Where the search in the part of a refinement stops: at the refined module or an entry. -/
def partStop (u : Universe) (name : String) (a k : ModuleId) : Bool := k == a || u.hasEntry name k

/-- The modules whose own chains a lookup goes along. -/
def chainsRead (u : Universe) (m : ModuleId) (name : String) (c : Context) : List ModuleId :=
  u.entered (u.answers name (some c)) m ++
    (through (u.answers name (some c)) (u.walk m)).flatMap fun a =>
      (u.tried name (some c) a).flatMap (u.entered (u.partStop name a))

/-- The table of every module whose own chain a lookup went along was inspected too, or the module
can no longer be changed. -/
def WellGuarded (u : Universe) (m : ModuleId) (name : String) (c : Context) : Prop :=
  ∀ o ∈ u.chainsRead m name c,
    o ∈ (u.lookupMethod m name (some c)).tables ∨ (u.module o).Fixed

instance (r : Module) : Decidable r.Fixed := inferInstanceAs (Decidable (_ ∨ _))

instance (u : Universe) (m : ModuleId) (name : String) (c : Context) :
    Decidable (u.WellGuarded m name c) :=
  inferInstanceAs (Decidable (∀ o ∈ u.chainsRead m name c,
    o ∈ (u.lookupMethod m name (some c)).tables ∨ (u.module o).Fixed))

/-- How far a walk goes depends on the chains that it goes along. -/
theorem through_walk_congr (hs : v.spine m = u.spine m)
    (h : ∀ o ∈ u.entered stop m, v.ownChain o = u.ownChain o) :
    through stop (v.walk m) = through stop (u.walk m) := by
  rw [walk_eq_spine, walk_eq_spine, hs]
  exact through_flatMap_congr h

theorem mem_chainsRead : o ∈ u.chainsRead m name c ↔
    o ∈ u.entered (u.answers name (some c)) m ∨
      ∃ a ∈ through (u.answers name (some c)) (u.walk m), ∃ r ∈ u.tried name (some c) a,
        o ∈ u.entered (u.partStop name a) r := by
  simp only [chainsRead, List.mem_append, List.mem_flatMap]

/-! ### Existence -/

theorem knows_walk (hu : u.WellFormed) (hm : u.knows m) (h : k ∈ u.walk m) : u.knows k := by
  rw [walk_eq_spine] at h
  obtain ⟨o, ho, hk⟩ := List.mem_flatMap.1 h
  exact knows_ownChain hu (knows_spine hu hm o ho) hk

theorem knows_tried (hc : c.Known u) (h : r ∈ u.tried name (some c) a) : u.knows r :=
  hc.refinementsFor (mem_of_mem_through h)

theorem knows_tables (hu : u.WellFormed) (hm : u.knows m) (hc : c.Known u)
    (h : k ∈ (u.lookupMethod m name (some c)).tables) : u.knows k := by
  obtain ⟨a, ha, ⟨r, hr, hk, -⟩ | ⟨rfl, -⟩⟩ := mem_tables_lookupMethod.1 h
  · exact knows_walk hu (knows_tried hc hr) (mem_of_mem_through hk)
  · exact knows_walk hu hm (mem_of_mem_through ha)

theorem knows_chainsRead (hu : u.WellFormed) (hm : u.knows m) (hc : c.Known u)
    (h : o ∈ u.chainsRead m name c) : u.knows o := by
  rcases mem_chainsRead.1 h with ho | ⟨a, -, r, hr, ho⟩
  · exact knows_spine hu hm o (mem_of_mem_through ho)
  · exact knows_spine hu (knows_tried hc hr) o (mem_of_mem_through ho)

/-! ### Later states -/

theorem spine_of_follows (hu : u.WellFormed) (hf : u.Follows v) (hm : u.knows m) :
    v.spine m = u.spine m :=
  spine_congr fun o ho => (hf.modules o (knows_spine hu hm o ho)).parent

/-- A lookup's result is valid exactly when the tables that it inspected are at their versions. -/
theorem isValidMethod_lookupMethod {context : Option Context} :
    v.isValidMethod (u.lookupMethod m name context) = true ↔
      ∀ k ∈ (u.lookupMethod m name context).tables,
        (v.module k).methodsVersion = (u.module k).methodsVersion :=
  isValidMethod_iff (assumptions_lookupMethod u m name context)

/-- Where chains and tables are as they were, the part of a refinement gives what it gave. -/
theorem partEntry_congr (hs : v.spine r = u.spine r)
    (hchain : ∀ o ∈ u.entered (u.partStop name a) r, v.ownChain o = u.ownChain o)
    (htable : ∀ k ∈ through (u.partStop name a) (u.walk r), k ≠ a →
      v.ownMethod k name = u.ownMethod k name) :
    v.partEntry name a r = u.partEntry name a r := by
  have hstop : (fun b => !(b != a) || u.hasEntry name b) = u.partStop name a := by
    funext b
    rw [partStop, bne, Bool.not_not]
  -- cut off at the refined module, the part is a stretch of the walk up to where it stops
  have hthrough (w : Universe) : through (u.hasEntry name) ((w.walk r).takeWhile (· != a)) =
      (through (u.partStop name a) (w.walk r)).takeWhile (· != a) := by
    rw [through_takeWhile, hstop]
  rw [partEntry_eq_walk, partEntry_eq_walk]
  refine congrArg (Option.filter Method.isDefined) (findSome?_through ?_ fun k hk => ?_)
  · show through (u.hasEntry name) _ = through (u.hasEntry name) _
    rw [hthrough, hthrough, through_walk_congr hs hchain]
  · obtain ⟨hk, hka⟩ := mem_through_takeWhile.1 hk
    change k ∈ through (fun b => !(b != a) || u.hasEntry name b) _ at hk
    rw [hstop] at hk
    exact htable k hk (by simpa using hka)

/-- A guarded lookup gives the same wherever its assumptions still hold. -/
theorem findMethod_of_valid (hu : u.WellFormed) (hm : u.knows m) (hc : c.Known u)
    (hf : u.Follows v) (hg : u.WellGuarded m name c)
    (hv : v.isValidMethod (u.lookupMethod m name (some c)) = true) :
    v.findMethod m name (some c) = u.findMethod m name (some c) := by
  rw [isValidMethod_lookupMethod] at hv
  -- the versions cover the tables as such, and the chains of modules with a table inspected
  have htable (k : ModuleId) (hk : k ∈ (u.lookupMethod m name (some c)).tables) :
      v.ownMethod k name = u.ownMethod k name := by
    have hsame := (hf.modules k (knows_tables hu hm hc hk)).methods (hv k hk)
    rw [ownMethod, ownMethod, hsame]
  have hchain (o : ModuleId) (ho : o ∈ u.chainsRead m name c) : v.ownChain o = u.ownChain o := by
    have hsame := (hf.modules o (knows_chainsRead hu hm hc ho)).chain ((hg o ho).imp_left (hv o))
    rw [ownChain, ownChain, hsame]
  have hpart {a r : ModuleId} (ha : a ∈ through (u.answers name (some c)) (u.walk m))
      (hr : r ∈ u.tried name (some c) a) : v.partEntry name a r = u.partEntry name a r := by
    refine partEntry_congr (spine_of_follows hu hf (knows_tried hc hr)) (fun o ho => ?_)
      fun k hk hka => ?_
    · exact hchain o (mem_chainsRead.2 (.inr ⟨a, ha, r, hr, ho⟩))
    · exact htable k (mem_tables_lookupMethod.2 ⟨a, ha, .inl ⟨r, hr, hk, hka⟩⟩)
  have hanswer {a : ModuleId} (ha : a ∈ through (u.answers name (some c)) (u.walk m)) :
      v.answerAt name (some c) a = u.answerAt name (some c) a := by
    have hrefined : v.refinedAt name (some c) a = u.refinedAt name (some c) a :=
      findSome?_through rfl fun r hr => hpart ha hr
    rw [answerAt, answerAt, hrefined]
    cases hn : u.refinedAt name (some c) a with
    | some f => rfl
    | none => exact htable a (mem_tables_lookupMethod.2 ⟨a, ha, .inr ⟨rfl, hn⟩⟩)
  rw [findMethod_eq_walk, findMethod_eq_walk]
  refine findSome?_through (Eq.symm ?_) fun a ha => hanswer ha
  exact through_walk_congr (spine_of_follows hu hf hm) fun o ho =>
    hchain o (mem_chainsRead.2 (.inl ho))

end ObjectModel.Universe
