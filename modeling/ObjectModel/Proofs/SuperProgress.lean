import Mathlib.Data.Set.Finite.List
import ObjectModel.Proofs.Operation
import ObjectModel.Proofs.SuperSearch

/-!
# Progress of super calls

A method whose body calls the next definition, and so on, is one chain of lookups in a universe
that stays as it is.  The chain comes to an end without reaching an entry twice exactly when no
search of it looks again into a table that an earlier search for the same name ended in.

* `superChain`, `searchedName`, `source?`, `reached?`: the chain, and the entries that it reaches;
* `SuperProgress`, `NeverBack`: the chain ends and reaches no entry twice, and no search of it goes
  back to an earlier table;
* `superProgress_iff`: these are the same;
* `superProgress_of_order`: chains make progress where methods lie in the modules that declare them
  and all searches go along one order;
* `not_superProgress_of_circle`: elsewhere they can circle.
-/

namespace ObjectModel

/-- The module whose table gave the method. -/
def MethodResult.source? (r : MethodResult) : Option ModuleId :=
  if r.method.isSome then r.tables.getLast? else none

namespace Universe

/-- What a lookup finds, what the next definition of that is, and so on. -/
def superChain (u : Universe) (m : ModuleId) (name : String) (c : Context) : Nat → MethodResult
  | 0 => u.lookupMethod m name (some c)
  | k + 1 =>
    match (u.superChain m name c k).defined? with
    | some f => u.lookupSuper f m
    | none => ⟨none, []⟩

/-- The name that a search of the chain is for. -/
def searchedName (u : Universe) (m : ModuleId) (name : String) (c : Context) : Nat → String
  | 0 => name
  | k + 1 =>
    match (u.superChain m name c k).defined? with
    | some f => f.definedName
    | none => name

/-- The table entry that a search of the chain reaches: the module and the name. -/
def reached? (u : Universe) (m : ModuleId) (name : String) (c : Context) (k : Nat) :
    Option (ModuleId × String) :=
  (u.superChain m name c k).source?.map fun s => (s, u.searchedName m name c k)

/-- The chain reaches no method, or an undefined one, and no table entry twice. -/
structure SuperProgress (u : Universe) (m : ModuleId) (name : String) (c : Context) : Prop where
  ends : ∃ k, (u.superChain m name c k).defined? = none
  distinct : ∀ i j, i < j → ∀ e, u.reached? m name c i = some e → u.reached? m name c j ≠ some e

variable {u : Universe} {m s : ModuleId} {name : String} {c : Context} {i j k : Nat}

/-! ### Entries -/

theorem endsAt_superChain (u : Universe) (m : ModuleId) (name : String) (c : Context) (k : Nat) :
    u.EndsAt (u.searchedName m name c k) (u.superChain m name c k).method
      (u.superChain m name c k).tables := by
  cases k with
  | zero => exact endsAt_lookupMethod u m name (some c)
  | succ k =>
    rw [superChain, searchedName]
    cases (u.superChain m name c k).defined? with
    | some f => exact endsAt_lookupSuper u f m
    | none => exact passed_nil u name

/-- What a search ended in is an entry as defined as the method, and the last table inspected. -/
theorem EndsAt.source {r : MethodResult} (h : u.EndsAt name r.method r.tables)
    (hs : r.source? = some s) : ∃ f g, r.method = some f ∧ u.ownMethod s name = some g ∧
      f.undefined = g.undefined ∧ s ∈ r.tables := by
  unfold MethodResult.source? at hs
  cases hm : r.method with
  | none =>
    rw [hm] at hs
    cases hs
  | some f =>
    rw [hm] at h hs
    obtain ⟨init, t, g, ht, hg, hu, -⟩ := h
    rw [Option.isSome_some, if_pos rfl, ht, List.getLast?_concat, Option.some.injEq] at hs
    subst hs
    exact ⟨f, g, rfl, hg, hu, ht ▸ List.mem_append_right init List.mem_cons_self⟩

/-- A search goes past no defined entry. -/
theorem EndsAt.stops {r : MethodResult} {g : Method} (h : u.EndsAt name r.method r.tables)
    (hs : s ∈ r.tables) (hg : u.ownMethod s name = some g) (hd : g.undefined = false) :
    r.source? = some s := by
  unfold MethodResult.source?
  cases hm : r.method with
  | none =>
    rw [hm] at h
    rw [h s hs g hg] at hd
    cases hd
  | some f =>
    rw [hm] at h
    obtain ⟨init, t, e, ht, -, -, hi⟩ := h
    rw [ht] at hs
    rcases List.mem_append.1 hs with hs | hs
    · rw [hi s hs g hg] at hd
      cases hd
    · rw [Option.isSome_some, if_pos rfl, ht, List.getLast?_concat, List.mem_singleton.1 hs]

/-- A found method comes from some table. -/
theorem EndsAt.exists_source {r : MethodResult} (h : u.EndsAt name r.method r.tables)
    (hd : r.defined? ≠ none) : ∃ s, r.source? = some s := by
  unfold MethodResult.source?
  cases hm : r.method with
  | none =>
    rw [MethodResult.defined?, hm] at hd
    exact absurd rfl hd
  | some f =>
    rw [hm] at h
    obtain ⟨init, t, -, ht, -⟩ := h
    exact ⟨t, by rw [Option.isSome_some, if_pos rfl, ht, List.getLast?_concat]⟩

/-- Nothing follows where the chain has ended. -/
theorem superChain_of_ended (h : (u.superChain m name c i).defined? = none) (hij : i < j) :
    u.superChain m name c j = ⟨none, []⟩ := by
  induction j with
  | zero => exact absurd hij (Nat.not_lt_zero i)
  | succ j ih =>
    rw [superChain]
    rcases Nat.lt_succ_iff_lt_or_eq.1 hij with hlt | rfl
    · rw [ih hlt]
      rfl
    · rw [h]

/-! ### Progress -/

/-- The entries of all method tables. -/
def allEntries (u : Universe) : List (ModuleId × String) :=
  u.modules.entries.flatMap fun e => e.2.methods.keys.map fun name => (e.1, name)

theorem mem_allEntries {g : Method} (h : u.ownMethod s name = some g) :
    (s, name) ∈ u.allEntries := by
  unfold ownMethod module at h
  cases hm : u.modules.find? s with
  | none =>
    rw [hm] at h
    cases h
  | some r =>
    rw [hm] at h
    refine List.mem_flatMap.2 ⟨(s, r), Table.mem_entries_iff.2 hm, List.mem_map.2 ⟨name, ?_, rfl⟩⟩
    exact Table.mem_keys_iff.2 ⟨g, h⟩

/-- A chain that reaches no entry twice ends, as there are finitely many entries. -/
theorem ends_of_distinct
    (h : ∀ i j, i < j → ∀ e, u.reached? m name c i = some e → u.reached? m name c j ≠ some e) :
    ∃ k, (u.superChain m name c k).defined? = none := by
  by_contra hnone
  -- then every search reaches an entry, another one each time
  have hall (k : Nat) : ∃ e ∈ u.allEntries, u.reached? m name c k = some e := by
    have hk : (u.superChain m name c k).defined? ≠ none := fun he => hnone ⟨k, he⟩
    have hends := endsAt_superChain u m name c k
    obtain ⟨s, hs⟩ := hends.exists_source hk
    obtain ⟨f, g, -, hg, -, -⟩ := hends.source hs
    exact ⟨_, mem_allEntries hg, by rw [reached?, hs]; rfl⟩
  choose entry hmem hentry using hall
  have hinj : Function.Injective entry := by
    intro i j hij
    rcases Nat.lt_trichotomy i j with hlt | rfl | hlt
    · exact absurd (hij ▸ hentry j) (h i j hlt _ (hentry i))
    · rfl
    · exact absurd (hij ▸ hentry i) (h j i hlt _ (hentry j))
  exact Set.infinite_of_injective_forall_mem hinj hmem u.allEntries.finite_toSet

/-- No search of the chain looks again into a table that an earlier one for the same name ended
in. -/
def NeverBack (u : Universe) (m : ModuleId) (name : String) (c : Context) : Prop :=
  ∀ i j, i < j → u.searchedName m name c i = u.searchedName m name c j →
    ∀ s, (u.superChain m name c i).source? = some s → s ∉ (u.superChain m name c j).tables

theorem superProgress_of_neverBack (h : u.NeverBack m name c) : u.SuperProgress m name c := by
  have hdistinct : ∀ i j, i < j → ∀ e, u.reached? m name c i = some e →
      u.reached? m name c j ≠ some e := by
    intro i j hij e hi hj
    obtain ⟨s, hs, rfl⟩ := Option.map_eq_some_iff.1 hi
    obtain ⟨t, ht, he⟩ := Option.map_eq_some_iff.1 hj
    rw [Prod.mk.injEq] at he
    obtain ⟨rfl, hname⟩ := he
    obtain ⟨-, -, -, -, -, hmem⟩ := (endsAt_superChain u m name c j).source ht
    exact h i j hij hname.symm t hs hmem
  exact ⟨ends_of_distinct hdistinct, hdistinct⟩

/-- Super calls make progress exactly when no search of the chain goes back. -/
theorem superProgress_iff (u : Universe) (m : ModuleId) (name : String) (c : Context) :
    u.SuperProgress m name c ↔ u.NeverBack m name c := by
  refine ⟨fun h i j hij hname s hs hmem => ?_, superProgress_of_neverBack⟩
  have hdefined : (u.superChain m name c i).defined? ≠ none := by
    intro he
    rw [superChain_of_ended he hij] at hmem
    cases hmem
  obtain ⟨f, g, hf, hg, hu, -⟩ := (endsAt_superChain u m name c i).source hs
  have hd : g.undefined = false := by
    rw [← hu]
    rw [MethodResult.defined?, hf] at hdefined
    simpa [Option.filter, Method.isDefined] using hdefined
  rw [hname] at hg
  -- the entry is defined, so a search that looks into the table again ends there again
  have hagain := (endsAt_superChain u m name c j).stops hmem hg hd
  refine h.distinct i j hij (s, u.searchedName m name c i) ?_ ?_
  · rw [reached?, hs]
    rfl
  · rw [reached?, hagain, hname]
    rfl

/-! ### One order for all searches -/

/-- Where found methods lie in the modules that declare them, and all searches go along parts of
one order without repetitions, a chain makes progress. -/
theorem superProgress_of_order {order : List ModuleId} (hnodup : order.Nodup)
    (hself : ∀ k f, (u.superChain m name c k).defined? = some f →
      (u.superChain m name c k).source? = some f.declaringModule)
    (horder : ∀ k f, (u.superChain m name c k).defined? = some f →
      (u.superOrder (u.superTarget f) (u.ancestors m)).Sublist order) :
    u.SuperProgress m name c := by
  -- later searches inspect tables behind all the earlier sources only
  have hbehind (i : Nat) {s : ModuleId} (hs : (u.superChain m name c i).source? = some s)
      (d : Nat) : ∀ k ∈ (u.superChain m name c (i + d + 1)).tables, k ∈ behind false s order := by
    intro k hk
    induction d generalizing k with
    | zero =>
      rw [Nat.add_zero, superChain] at hk
      cases hd : (u.superChain m name c i).defined? with
      | none =>
        rw [hd] at hk
        cases hk
      | some f =>
        rw [hd] at hk
        obtain rfl : s = f.declaringModule := Option.some.inj (hs.symm.trans (hself i f hd))
        exact (behind_sublist (horder i f hd) hnodup).mem
          ((tables_lookupSuper_sublist u f m).mem hk)
    | succ d ih =>
      rw [superChain] at hk
      cases hd : (u.superChain m name c (i + (d + 1))).defined? with
      | none =>
        rw [hd] at hk
        cases hk
      | some f =>
        rw [hd] at hk
        have hsource := hself _ f hd
        obtain ⟨-, -, -, -, -, hmem⟩ := (endsAt_superChain u m name c _).source hsource
        have hk' := (behind_sublist (horder _ f hd) hnodup).mem
          ((tables_lookupSuper_sublist u f m).mem hk)
        exact mem_behind_trans hnodup (ih f.declaringModule hmem) hk'
  refine superProgress_of_neverBack fun i j hij _ s hs hmem => ?_
  obtain ⟨d, rfl⟩ := Nat.exists_eq_add_of_lt hij
  exact not_mem_behind_self hnodup (hbehind i hs d s hmem)

/-! ### Circling chains -/

/-- A module with a method that calls the next definition, which a second module inherits and keeps
a copy of under another visibility; an object of a class that takes in the one before and the other
behind itself. -/
def copied : Universe :=
  let u := Update.final (define ⟨12⟩ "f" (.ofModule ⟨12⟩) .toplevel .callSuperSame)
    ((create {}).afterAll [.newModule, .newModule])
  let v := Update.final (setMethodVisibility ⟨13⟩ ["f"] .prot) (u.after (.includeModule ⟨13⟩ ⟨12⟩))
  v.afterAll [.newClass none, .prependModule ⟨14⟩ ⟨12⟩, .includeModule ⟨14⟩ ⟨13⟩, .newObject ⟨14⟩]

/-- The context that activates a refinement of the class. -/
def refinedContext : Context := { refinements := .ofList [(⟨13⟩, [⟨15⟩])], stamp := some ⟨2⟩ }

/-- A module with a method that calls the next definition where a refinement of a class is active,
prepended to that class, and an object of the class. -/
def refined : Universe :=
  let u := (create {}).afterAll [.newModule, .newClass none, .newModule, .openRefinement ⟨14⟩ ⟨13⟩]
  let v := Update.final (activateNamespace .toplevel ⟨14⟩) u
  let w := Update.final (define ⟨12⟩ "f" (.ofModule ⟨12⟩) refinedContext .callSuperSame) v
  w.afterAll [.prependModule ⟨13⟩ ⟨12⟩, .newObject ⟨13⟩]

theorem reachable_copied : Reachable copied := by
  have hu : Reachable ((create {}).afterAll [.newModule, .newModule]) :=
    (Reachable.create {}).afterAll _ ⟨trivial, trivial, trivial⟩
  have hm : Universe.knows ((create {}).afterAll [.newModule, .newModule]) ⟨12⟩ := by decide +kernel
  have hv := hu.leads (leads_define hu.wellFormed "f" hm
    (LexicalScope.known_ofModule hm) (Context.known_toplevel _) .callSuperSame)
  have hw := hv.afterAll [.includeModule ⟨13⟩ ⟨12⟩]
    ⟨⟨by decide +kernel, by decide +kernel⟩, trivial⟩
  have hx := hw.leads (leads_setMethodVisibility hw.wellFormed (m := ⟨13⟩) (by decide +kernel)
    ["f"] .prot)
  exact hx.afterAll _ ⟨nofun, ⟨by decide +kernel, by decide +kernel⟩,
    ⟨by decide +kernel, by decide +kernel⟩, (by decide +kernel : Universe.knows _ _), trivial⟩

theorem reachable_refined : Reachable refined := by
  have hu : Reachable ((create {}).afterAll
      [.newModule, .newClass none, .newModule, .openRefinement ⟨14⟩ ⟨13⟩]) :=
    (Reachable.create {}).afterAll _
      ⟨trivial, nofun, trivial, ⟨by decide +kernel, by decide +kernel⟩, trivial⟩
  obtain ⟨hlead, hknown⟩ := leads_activateNamespace hu.wellFormed (n := ⟨14⟩) (by decide +kernel)
    (Context.known_toplevel _)
  have hv := hu.leads hlead
  have hc := Context.known_mono (hlead.nextId hu.wellFormed)
    (hknown refinedContext (by decide +kernel))
  have hm := knows_mono (hlead.nextId hu.wellFormed) (m := ⟨12⟩) (by decide +kernel)
  have hw := hv.leads (leads_define hv.wellFormed "f" hm
    (LexicalScope.known_ofModule hm) hc .callSuperSame)
  exact hw.afterAll _ ⟨⟨by decide +kernel, by decide +kernel⟩,
    (by decide +kernel : Universe.knows _ _), trivial⟩

/-- Chains of super calls can circle: through a copy of an inherited method, which calls the
definitions behind the module that it was copied from, and through the part of a refinement, which
meets the modules prepended to the refined class again. -/
theorem not_superProgress_of_circle :
    (Reachable copied ∧ metaclassOf (.object ⟨15⟩) copied = (⟨14⟩, copied) ∧
      ¬copied.SuperProgress ⟨14⟩ "f" .toplevel) ∧
    Reachable refined ∧ metaclassOf (.object ⟨16⟩) refined = (⟨13⟩, refined) ∧
      ¬refined.SuperProgress ⟨13⟩ "f" refinedContext := by
  refine ⟨⟨reachable_copied, ?_, fun h => ?_⟩, reachable_refined, ?_, fun h => ?_⟩
  · exact Prod.ext (by decide +kernel) rfl
  · exact h.distinct 1 2 (by decide) (⟨13⟩, "f") (by decide +kernel) (by decide +kernel)
  · exact Prod.ext (by decide +kernel) rfl
  · exact h.distinct 0 1 (by decide) (⟨12⟩, "f") (by decide +kernel) (by decide +kernel)

end Universe

end ObjectModel
