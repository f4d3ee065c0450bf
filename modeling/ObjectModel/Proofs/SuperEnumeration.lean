import ObjectModel.Proofs.SuperFromClass

/-!
# Cooperative super calls

Where a lookup starts and every definition calls the next one, the methods that are found are the
entries along the ancestors, provided that each entry is declared by the module that stores it and
that no refinements are in force.  Every super search starts over at the first ancestor, and finds
its place behind the declaring module again.

* `superSequence`: what a lookup finds, what a super search from there finds, and so on;
* `Cooperative`, `Cooperates`: an entry that takes part, and ancestors whose entries all do;
* `SuperVisitsAll`: the entries along the ancestors are found once each, in order;
* `behind_filter`, `behind_eq_drop`: what lies behind a member of an order;
* `superSequence_eq`, `superVisitsAll_of_cooperates`: where all entries take part, all are found.
-/

namespace ObjectModel.Universe

variable {u : Universe} {m k d : ModuleId} {name : String} {f : Method} {ms : List ModuleId}
  {p : ModuleId → Bool}

/-- What a lookup finds, the next definition of that, and so on, undefined ones included. -/
def superSequence (u : Universe) (m : ModuleId) (name : String) : Nat → Option Method
  | 0 => u.findMethod m name none
  | i + 1 => (u.superSequence m name i).bind fun f => (u.lookupSuper f m).method

/-- The ancestors of a module with an entry of a name, nearest first. -/
def definers (u : Universe) (m : ModuleId) (name : String) : List ModuleId :=
  (u.ancestors m).filter (u.hasEntry name)

/-- A defined method of a module, declared there under the name and without refinements. -/
structure Cooperative (name : String) (k : ModuleId) (f : Method) : Prop where
  defined : f.isDefined = true
  declaring : f.declaringModule = k
  definedName : f.definedName = name
  context : f.context.hasRefinements = false
  active : f.active.any Context.hasRefinements = false

instance (name : String) (k : ModuleId) (f : Method) : Decidable (Cooperative name k f) :=
  decidable_of_iff (f.isDefined = true ∧ f.declaringModule = k ∧ f.definedName = name ∧
      f.context.hasRefinements = false ∧ f.active.any Context.hasRefinements = false)
    ⟨fun ⟨hd, hk, hn, hc, ha⟩ => ⟨hd, hk, hn, hc, ha⟩,
      fun ⟨hd, hk, hn, hc, ha⟩ => ⟨hd, hk, hn, hc, ha⟩⟩

/-- All entries of a name along the ancestors of a module take part. -/
def Cooperates (u : Universe) (m : ModuleId) (name : String) : Prop :=
  ∀ k ∈ u.ancestors m, ∀ f ∈ u.ownMethod k name, Cooperative name k f

instance (u : Universe) (m : ModuleId) (name : String) : Decidable (u.Cooperates m name) :=
  inferInstanceAs (Decidable (∀ k ∈ u.ancestors m, ∀ f ∈ u.ownMethod k name, Cooperative name k f))

/-- Super calls find the entries of a name along the ancestors of a module, each once and in the
order of the ancestors, and then nothing. -/
structure SuperVisitsAll (u : Universe) (m : ModuleId) (name : String) : Prop where
  nodup : (u.definers m name).Nodup
  found : ∀ i k, (u.definers m name)[i]? = some k →
    ∃ f, u.ownMethod k name = some f ∧ u.superSequence m name i = some f
  ends : ∀ i, (u.definers m name).length ≤ i → u.superSequence m name i = none

/-! ### Places in an order -/

/-- What lies behind a member of a part is the part of what lies behind it. -/
theorem behind_filter (hd : p d = true) (passed : Bool) (ms : List ModuleId) :
    (behind passed d ms).filter p = behind passed d (ms.filter p) := by
  induction ms generalizing passed with
  | nil => rfl
  | cons m ms ih =>
    cases passed with
    | true => rw [behind_true, behind_true]
    | false =>
      rw [behind, if_neg Bool.false_ne_true, ih]
      cases hm : p m with
      | true =>
        rw [List.filter_cons_of_pos hm, behind, if_neg Bool.false_ne_true]
      | false =>
        have hne : (m == d) = false := by
          refine beq_eq_false_iff_ne.2 fun he => ?_
          rw [he, hd] at hm
          cases hm
        rw [List.filter_cons_of_neg (Bool.eq_false_iff.1 hm), hne]

/-- In an order without repetitions, what follows the place of a member lies behind it. -/
theorem behind_eq_drop (hms : ms.Nodup) {i : Nat} (h : ms[i]? = some d) :
    behind false d ms = ms.drop (i + 1) := by
  induction ms generalizing i with
  | nil => cases h
  | cons m ms ih =>
    rw [List.nodup_cons] at hms
    rw [behind, if_neg Bool.false_ne_true]
    cases i with
    | zero =>
      cases h
      rw [beq_self_eq_true, behind_true]
      rfl
    | succ i =>
      rw [List.getElem?_cons_succ] at h
      have hne : (m == d) = false :=
        beq_eq_false_iff_ne.2 fun he => hms.1 (he ▸ List.mem_of_getElem? h)
      rw [hne]
      exact ih hms.2 h

/-- The first entry is that of the first module that has one. -/
theorem findSome?_ownMethod (u : Universe) (name : String) (ms : List ModuleId) :
    ms.findSome? (u.ownMethod · name) =
      (ms.filter (u.hasEntry name))[0]?.bind (u.ownMethod · name) := by
  induction ms with
  | nil => rfl
  | cons m ms ih =>
    rw [List.findSome?_cons]
    cases hm : u.ownMethod m name with
    | some f =>
      rw [List.filter_cons_of_pos (by rw [hasEntry, hm]; rfl)]
      exact hm.symm
    | none =>
      rw [List.filter_cons_of_neg (by rw [hasEntry, hm]; exact Bool.false_ne_true)]
      exact ih

/-! ### The sequence -/

theorem nodup_definers (u : Universe) (m : ModuleId) (name : String) :
    (u.definers m name).Nodup :=
  (nodup_ancestors u m).filter _

theorem ownMethod_of_definers {i : Nat} (h : (u.definers m name)[i]? = some k) :
    k ∈ u.ancestors m ∧ ∃ f, u.ownMethod k name = some f := by
  obtain ⟨hk, hentry⟩ := List.mem_filter.1 (List.mem_of_getElem? h)
  exact ⟨hk, Option.isSome_iff_exists.1 hentry⟩

/-- From the entry of a module, a super search finds that of the next module that has one. -/
theorem lookupSuper_of_cooperative {i : Nat} (hk : (u.definers m name)[i]? = some k)
    (hf : u.ownMethod k name = some f) (h : Cooperative name k f) :
    (u.lookupSuper f m).method =
      (u.definers m name)[i + 1]?.bind (u.ownMethod · name) := by
  have hentry : u.hasEntry name k = true := by rw [hasEntry, hf]; rfl
  have hsearch : (u.lookupSuper f m).method =
      (behind false k (u.ancestors m)).findSome? (u.ownMethod · name) := by
    have htables : u.superMethod (u.superTarget f) false (u.ancestors m) =
        u.superTables (u.superTarget f) false (u.ancestors m) :=
      superMethod_of_unrefined (mergedRefinements_eq_nil h.context h.active) u false _
    show (u.superMethod (u.superTarget f) false (u.ancestors m)).method = _
    rw [htables, superTables_method, superTarget, h.declaring, h.definedName]
  rw [hsearch, findSome?_ownMethod, behind_filter hentry, ← definers,
    behind_eq_drop (u.nodup_definers m name) hk, List.getElem?_drop, Nat.add_zero]

/-- The entries along the ancestors are found one after another. -/
theorem superSequence_eq (h : u.Cooperates m name) (i : Nat) :
    u.superSequence m name i = (u.definers m name)[i]?.bind (u.ownMethod · name) := by
  induction i with
  | zero =>
    rw [superSequence, findMethod, lookupMethod, searchMethod_none, searchTables_method,
      findSome?_ownMethod]
    rfl
  | succ i ih =>
    rw [superSequence, ih]
    cases hk : (u.definers m name)[i]? with
    | none =>
      have hlast := List.getElem?_eq_none_iff.1 hk
      rw [List.getElem?_eq_none (Nat.le_succ_of_le hlast)]
      rfl
    | some k =>
      obtain ⟨hin, f, hf⟩ := ownMethod_of_definers hk
      rw [Option.bind_some, hf, Option.bind_some]
      exact lookupSuper_of_cooperative hk hf (h k hin f hf)

theorem Cooperates.superVisitsAll (h : u.Cooperates m name) : u.SuperVisitsAll m name := by
  refine ⟨u.nodup_definers m name, fun i k hk => ?_, fun i hi => ?_⟩
  · obtain ⟨-, f, hf⟩ := ownMethod_of_definers hk
    refine ⟨f, hf, ?_⟩
    rw [superSequence_eq h, hk]
    exact hf
  · rw [superSequence_eq h, List.getElem?_eq_none hi]
    rfl

/-- If all entries of a name along the ancestors of a value's metaclass are cooperative, then super
calls find exactly these entries, each once, in the order of the ancestors, and then nothing. -/
theorem superVisitsAll_of_cooperates (x : Value) (u : Universe) (name : String)
    (h : (metaclassOf x u).2.Cooperates (metaclassOf x u).1 name) :
    (metaclassOf x u).2.SuperVisitsAll (metaclassOf x u).1 name :=
  h.superVisitsAll

/-- An object with a singleton class, of a class with one module prepended and another included,
all with the method of a name. -/
def layered : Universe :=
  (create {}).afterAll [.newClass none, .newModule, .newModule, .prependModule ⟨12⟩ ⟨13⟩,
    .includeModule ⟨12⟩ ⟨14⟩, .newObject ⟨12⟩, .objectSingletonClass ⟨15⟩,
    .addMethod ⟨12⟩ (.ofReader "f" "@a" ⟨12⟩ .pub), .addMethod ⟨13⟩ (.ofReader "f" "@b" ⟨13⟩ .pub),
    .addMethod ⟨14⟩ (.ofReader "f" "@c" ⟨14⟩ .pub), .addMethod ⟨16⟩ (.ofReader "f" "@d" ⟨16⟩ .pub)]

/-- Super calls of the object go through its singleton class, the prepended module, the class and
the included module. -/
theorem superVisitsAll_of_layered :
    (metaclassOf (.object ⟨15⟩) layered).2.Cooperates (metaclassOf (.object ⟨15⟩) layered).1 "f" ∧
    layered.definers ⟨16⟩ "f" = [⟨16⟩, ⟨13⟩, ⟨12⟩, ⟨14⟩] ∧
    (∃ f, layered.ownMethod ⟨14⟩ "f" = some f ∧ layered.superSequence ⟨16⟩ "f" 3 = some f) ∧
    layered.superSequence ⟨16⟩ "f" 4 = none := by
  have hx : metaclassOf (.object ⟨15⟩) layered = (⟨16⟩, layered) :=
    Prod.ext (by decide +kernel) rfl
  have hall : layered.Cooperates ⟨16⟩ "f" := by decide +kernel
  have hdefiners : layered.definers ⟨16⟩ "f" = [⟨16⟩, ⟨13⟩, ⟨12⟩, ⟨14⟩] := by decide +kernel
  have hvisits := superVisitsAll_of_cooperates (.object ⟨15⟩) layered "f" (by rwa [hx])
  rw [hx] at hvisits ⊢
  refine ⟨hall, hdefiners, hvisits.found 3 ⟨14⟩ ?_, hvisits.ends 4 ?_⟩
  · rw [hdefiners]
    rfl
  · rw [hdefiners]
    exact Nat.le_refl _

end ObjectModel.Universe
