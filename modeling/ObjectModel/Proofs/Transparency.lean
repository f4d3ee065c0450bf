import ObjectModel.Proofs.Existence
import ObjectModel.Proofs.Search
import ObjectModel.Universe.Refinement

/-!
# Transparency of refinements

Active refinements that have nothing to say about a name should not change what a lookup finds.
The part of a refinement does not end with the refinement itself, however: it goes on along the
refined module's own walk, so it also meets modules prepended to the refined module after that was
mixed in.  Lookups agree when none of those has an entry either, unless it stands in front of the
refined module anyway.

* `Unrefined`, `Covered`: no refinement has an entry, and what else is met has none or stands ahead;
* `findMethod_of_unrefined`: then the context makes no difference;
* `not_transparent_of_late_prepend`: without the second condition it can.
-/

namespace ObjectModel.Universe

variable {u : Universe} {c : Context} {name : String} {a k m r : ModuleId}

/-- No refinement that a context activates has an entry for a name, and no module mixed into the
own chain of one has. -/
def Unrefined (u : Universe) (c : Context) (name : String) : Prop :=
  ∀ r ∈ c.usedRefinements, ∀ k ∈ u.ownChain r, u.hasEntry name k = false

/-- What else is met in the parts of the refinements active for the ancestors of `m` stands in
front of the refined module among these ancestors, or has no entry for the name. -/
def Covered (u : Universe) (m : ModuleId) (c : Context) (name : String) : Prop :=
  ∀ a ∈ u.ancestors m, ∀ r ∈ c.refinementsFor a, ∀ k ∈ u.refinementPart r a,
    k ∈ u.ownChain r ∨ k ∈ (u.ancestors m).takeWhile (· != a) ∨ u.hasEntry name k = false

instance (u : Universe) (c : Context) (name : String) : Decidable (u.Unrefined c name) :=
  inferInstanceAs (Decidable (∀ r ∈ c.usedRefinements, ∀ k ∈ u.ownChain r,
    u.hasEntry name k = false))

instance (u : Universe) (m : ModuleId) (c : Context) (name : String) :
    Decidable (u.Covered m c name) :=
  inferInstanceAs (Decidable (∀ a ∈ u.ancestors m, ∀ r ∈ c.refinementsFor a,
    ∀ k ∈ u.refinementPart r a,
      k ∈ u.ownChain r ∨ k ∈ (u.ancestors m).takeWhile (· != a) ∨ u.hasEntry name k = false))

theorem hasEntry_eq_false : u.hasEntry name k = false ↔ u.ownMethod k name = none := by
  rw [hasEntry, Option.isSome_eq_false_iff, Option.isNone_iff_eq_none]

theorem mem_usedRefinements (h : r ∈ c.refinementsFor a) : r ∈ c.usedRefinements := by
  unfold Context.refinementsFor at h
  cases hf : c.refinements.find? a with
  | none =>
    rw [hf] at h
    cases h
  | some rs =>
    rw [hf] at h
    have hv : rs ∈ c.refinements.values := List.mem_map_of_mem (Table.mem_entries_iff.2 hf)
    exact List.mem_eraseDups.2 (List.mem_flatten.2 ⟨rs, hv, h⟩)

/-- Without entries in its part, a refinement gives nothing. -/
theorem partEntry_eq_none (h : ∀ k ∈ u.refinementPart r a, u.hasEntry name k = false) :
    u.partEntry name a r = none := by
  have hnone : (u.searchTables name (u.refinementPart r a)).method = none := by
    rw [searchTables_method, List.findSome?_eq_none_iff]
    exact fun k hk => hasEntry_eq_false.1 (h k hk)
  rw [partEntry, MethodResult.defined?, hnone]
  rfl

/-- What stands in front of an element at its first place is in front of any of its places. -/
theorem mem_of_mem_takeWhile_append {pre rest : List ModuleId}
    (h : k ∈ (pre ++ a :: rest).takeWhile (· != a)) : k ∈ pre := by
  induction pre with
  | nil => simp at h
  | cons b pre ih =>
    rw [List.cons_append] at h
    by_cases hb : b = a
    · simp [hb] at h
    · rw [List.takeWhile_cons_of_pos (by simp [hb])] at h
      rcases List.mem_cons.1 h with rfl | h
      · exact List.mem_cons_self
      · exact List.mem_cons_of_mem b (ih h)

/-- An active context makes no difference to a lookup when no refinement has an entry for the name,
and all else that the parts of the refinements meet is met before or has no entry either. -/
theorem findMethod_of_unrefined (hown : u.Unrefined c name) (hrest : u.Covered m c name) :
    u.findMethod m name (some c) = u.findMethod m name none := by
  rw [findMethod, findMethod, lookupMethod, lookupMethod, searchMethod_none, searchMethod_method,
    searchTables_method]
  -- the modules passed so far have no entry, so meeting them again in a part changes nothing
  suffices h : ∀ pre rest, u.ancestors m = pre ++ rest → (∀ k ∈ pre, u.hasEntry name k = false) →
      rest.findSome? (u.answerAt name (some c)) = rest.findSome? (u.ownMethod · name) from
    h [] (u.ancestors m) rfl fun k hk => absurd hk List.not_mem_nil
  intro pre rest hsplit hpre
  induction rest generalizing pre with
  | nil => rfl
  | cons a rest ih =>
    have ha : a ∈ u.ancestors m := hsplit ▸ List.mem_append_right pre List.mem_cons_self
    have hparts : u.refinedAt name (some c) a = none := by
      rw [refinedAt, List.findSome?_eq_none_iff]
      intro r hr
      refine partEntry_eq_none fun k hk => ?_
      rcases hrest a ha r hr k hk with hk | hk | hk
      · exact hown r (mem_usedRefinements hr) k hk
      · rw [hsplit] at hk
        exact hpre k (mem_of_mem_takeWhile_append hk)
      · exact hk
    rw [List.findSome?_cons, List.findSome?_cons, answerAt, hparts]
    cases he : u.ownMethod a name with
    | some f => rfl
    | none =>
      refine ih (pre ++ [a]) (by rw [hsplit, List.append_assoc]; rfl) fun k hk => ?_
      rcases List.mem_append.1 hk with hk | hk
      · exact hpre k hk
      · rw [List.mem_singleton.1 hk]
        exact hasEntry_eq_false.2 he

/-! ### Early and late prepending -/

/-- Two modules with a method of one name, a class and a namespace; then the first module takes in
the second, and the class the first, in the order of `mixings`; then the namespace refines the
first module. -/
def refining (mixings : List Move) : Universe :=
  (create {}).afterAll <|
    [.newModule, .newModule, .newClass none, .newModule,
      .addMethod ⟨12⟩ (.ofReader "f" "@f" ⟨12⟩ .pub),
      .addMethod ⟨13⟩ (.ofReader "f" "@f" ⟨13⟩ .priv)] ++
    mixings ++ [.openRefinement ⟨15⟩ ⟨12⟩]

/-- The context that activates the refinement. -/
def refiningContext : Context :=
  { refinements := .ofList [(⟨12⟩, [⟨16⟩])], stamp := some ⟨4⟩ }

/-- A module prepended before the refined module is mixed in stands ahead of it. -/
theorem transparent_of_early_prepend :
    (refining [.prependModule ⟨12⟩ ⟨13⟩, .includeModule ⟨14⟩ ⟨12⟩]).findMethod ⟨14⟩ "f"
        (some refiningContext) =
      (refining [.prependModule ⟨12⟩ ⟨13⟩, .includeModule ⟨14⟩ ⟨12⟩]).findMethod ⟨14⟩ "f" none :=
  findMethod_of_unrefined (by decide +kernel) (by decide +kernel)

/-- A module prepended to the refined module afterwards is found through the refinement only. -/
theorem not_transparent_of_late_prepend :
    ∃ u c, Reachable u ∧ Update.result? (activateNamespace .toplevel ⟨15⟩) u = some c ∧
      u.Unrefined c "f" ∧ u.findMethod ⟨14⟩ "f" (some c) ≠ u.findMethod ⟨14⟩ "f" none := by
  have hu : Reachable (refining [.includeModule ⟨14⟩ ⟨12⟩, .prependModule ⟨12⟩ ⟨13⟩]) := by
    refine (Reachable.create {}).afterAll _ ⟨trivial, trivial, nofun, trivial,
      ⟨?_, Method.known_ofReader ?_ _ _ _⟩, ⟨?_, Method.known_ofReader ?_ _ _ _⟩, ⟨?_, ?_⟩,
      ⟨?_, ?_⟩, ⟨?_, ?_⟩, trivial⟩ <;> decide +kernel
  refine ⟨_, refiningContext, hu, ?_, ?_, fun h => ?_⟩
  · decide +kernel
  · decide +kernel
  · have hv := congrArg (Option.map fun f => f.visibility) h
    revert hv
    decide +kernel

end ObjectModel.Universe
