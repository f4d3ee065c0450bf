import ObjectModel.Proofs.Lineage

/-!
# Classes among mixed-in modules

Mixing in refuses a class, and prepending stops before the first class that it meets.  Including
goes on: it takes in all ancestors of the included module, and those of a refinement include the
classes that the refined module descends from.

* `MixesModules`: no class is mixed into a module;
* `ancestor_class_iff`: the classes among the ancestors of a module that may be mixed in;
* `Move.TakesClass`: a refinement is included that brings a class along;
* `mixesModules_afterAll_iff`: runs without such inclusions, and no others, keep classes out;
* `class_mixed_of_refinement`: a run that lets one in.
-/

namespace ObjectModel

/-- A refinement is included whose refined module is or descends from a class that the receiver
does not inherit from through its parent. -/
def Move.TakesClass (u : Universe) : Move → Prop
  | includeModule m n => u.Mixable m n ∧ ∃ t ∈ (u.module n).refined?, ∃ k ∈ u.spine t,
    (u.module k).isClass = true ∧
      ((u.module m).chain.parent.any fun p => u.includes p k) = false
  | _ => False

/-- The same, as a computation. -/
def Move.takesClass (u : Universe) : Move → Bool
  | includeModule m n => u.Mixable m n && (u.module n).refined?.any fun t => (u.spine t).any fun k =>
    (u.module k).isClass && !((u.module m).chain.parent.any fun p => u.includes p k)
  | _ => false

theorem Move.takesClass_iff {u : Universe} {mv : Move} :
    mv.takesClass u = true ↔ mv.TakesClass u := by
  cases mv with
  | includeModule m n => simp [Move.takesClass, Move.TakesClass, Option.any_eq_true]
  | _ => exact iff_of_false Bool.false_ne_true id

instance (u : Universe) (mv : Move) : Decidable (mv.TakesClass u) :=
  decidable_of_iff (mv.takesClass u = true) Move.takesClass_iff

namespace Universe

variable {u v : Universe} {m n k : ModuleId}

/-- No class is mixed into a module. -/
def MixesModules (u : Universe) : Prop :=
  ∀ m, ∀ k ∈ (u.module m).chain.mixins, (u.module k).isClass = false

/-- Some move of a run takes in a class. -/
def TakesClass (u : Universe) : List Move → Prop
  | [] => False
  | mv :: mvs => mv.TakesClass u ∨ (u.after mv).TakesClass mvs

instance decidableTakesClass (u : Universe) : (mvs : List Move) → Decidable (u.TakesClass mvs)
  | [] => inferInstanceAs (Decidable False)
  | mv :: mvs =>
    have := decidableTakesClass (u.after mv) mvs
    inferInstanceAs (Decidable (mv.TakesClass u ∨ (u.after mv).TakesClass mvs))

/-! ### Classes among ancestors -/

/-- While no class is mixed in, classes come from the spine. -/
theorem mem_spine_of_class (hu : u.MixesModules) (hk : k ∈ u.ancestors n)
    (hc : (u.module k).isClass = true) : k ∈ u.spine n := by
  obtain ⟨o, ho, hko⟩ := mem_ancestors_iff_spine.1 hk
  rcases mem_ownChain.1 hko with rfl | hmix
  · exact ho
  · cases (hu o k hmix).symm.trans hc

/-- The classes among the ancestors of a module that is none are those behind the module that it
refines. -/
theorem ancestor_class_iff (hr : u.Rooted) (hw : u.WellFormed) (hu : u.MixesModules)
    (hn : u.knows n) (hplain : (u.module n).isClass = false) (hc : (u.module k).isClass = true) :
    k ∈ u.ancestors n ↔ ∃ t ∈ (u.module n).refined?, k ∈ u.spine t := by
  constructor
  · intro hk
    rcases mem_spine_iff.1 (mem_spine_of_class hu hk hc) with rfl | ⟨p, hp, -, hkp⟩
    · cases hplain.symm.trans hc
    · cases hkind : (u.module n).kind with
      | plain => cases ((hr.placed n).plain hkind).symm.trans hp
      | cls a =>
        rw [Module.isClass, hkind] at hplain
        cases hplain
      | refinement t s =>
        -- the one kind of module with a parent that is no class
        cases ((hr.placed n).refinement t s hkind).symm.trans hp
        exact ⟨p, by rw [Module.refined?, hkind]; rfl, hkp⟩
  · rintro ⟨t, ht, hk⟩
    unfold Module.refined? at ht
    split at ht
    · next s hkind =>
      cases ht
      have hp := (hr.placed n).refinement t _ hkind
      have hspine : k ∈ u.spine n := mem_spine_iff.2 (.inr ⟨t, hp, hw.older n t hn hp, hk⟩)
      exact mem_ancestors_iff_spine.2 ⟨k, hspine, self_mem_ownChain u k⟩
    · cases ht

/-! ### Moves -/

theorem mixesModules_create (options : Options) : (create options).MixesModules := by
  have hcore : ∀ e ∈ coreChains, ∀ k ∈ e.2.2.mixins, ((create {}).module k).isClass = false := by
    decide
  intro m k hk
  rcases mixins_create options m with hm | ⟨e, he, hm⟩ <;> rw [hm] at hk
  · cases hk
  · exact hcore e he k hk

/-- Chains that were mixed into before keep their members, and these stay what they are. -/
theorem mixesModules_drift_iff (h : Drifts u v) (hu : u.WellFormed) :
    v.MixesModules ↔ u.MixesModules := by
  have hclass {k : ModuleId} (hk : u.knows k) : (v.module k).isClass = (u.module k).isClass :=
    isClass_of_kind (h.follows.modules k hk).kind
  constructor
  · intro hv m k hk
    by_cases hm : u.knows m
    · have hkv := hv m k (by rwa [h.chain m hm])
      rwa [hclass ((hu.modules m hm).mixins k hk)] at hkv
    · rw [hu.module_stranger hm] at hk
      cases hk
  · intro hold m k hk
    rcases h.mixins m with hm | ⟨s, hs, hm⟩ <;> rw [hm] at hk
    · cases hk
    · rw [hclass ((hu.modules s hs).mixins k hk)]
      exact hold s k hk

/-- When one chain takes modules in, what matters is whether one of them is a class. -/
theorem mixesModules_rechains_iff {c : Chain} {ms : List ModuleId} (h : Rechains u v m c)
    (hc : ∀ k, k ∈ c.mixins ↔ k ∈ (u.module m).chain.mixins ∨ k ∈ ms) :
    v.MixesModules ↔ u.MixesModules ∧ ∀ k ∈ ms, (u.module k).isClass = false := by
  have hclass (k : ModuleId) : (v.module k).isClass = (u.module k).isClass :=
    isClass_of_kind (h.kind k)
  constructor
  · intro hv
    refine ⟨fun x k hk => ?_, fun k hk => ?_⟩
    · rw [← hclass]
      by_cases hx : x = m
      · refine hv m k ?_
        rw [h.chain_self, hc]
        exact .inl (hx ▸ hk)
      · exact hv x k (by rwa [h.chain_other hx])
    · rw [← hclass]
      refine hv m k ?_
      rw [h.chain_self, hc]
      exact .inr hk
  · rintro ⟨hu, hms⟩ x k hk
    rw [hclass]
    by_cases hx : x = m
    · rw [hx, h.chain_self, hc] at hk
      exact hk.elim (hu m k) (hms k)
    · rw [h.chain_other hx] at hk
      exact hu x k hk

/-- A move lets a class in exactly when it includes a refinement that brings one along. -/
theorem mixesModules_after_iff (hw : u.WellFormed) (hr : u.Rooted) {mv : Move} (hk : mv.Known u) :
    (u.after mv).MixesModules ↔ u.MixesModules ∧ ¬mv.TakesClass u := by
  by_cases hm : mv.Mixes
  · cases mv with
    | includeModule m n =>
      by_cases h : u.Mixable m n
      · have hmembers (k) : k ∈ (u.chainIncluding m n).mixins ↔ k ∈ (u.module m).chain.mixins ∨
            k ∈ (u.ancestors n).filter fun k =>
              !((u.module m).chain.parent.any fun p => u.includes p k) := by
          rw [mem_mixins_including, List.mem_filter, Bool.not_eq_true']
        rw [mixesModules_rechains_iff (rechains_include h) hmembers]
        refine and_congr_right fun hu => ⟨fun hall => ?_, fun hno k hkn => ?_⟩
        · rintro ⟨-, t, ht, k, hkt, hc, hp⟩
          have hkn := (ancestor_class_iff hr hw hu hk.2 h.2.1 hc).2 ⟨t, ht, hkt⟩
          have hplain := hall k (List.mem_filter.2 ⟨hkn, by rw [hp]; rfl⟩)
          cases hplain.symm.trans hc
        · rw [List.mem_filter, Bool.not_eq_true'] at hkn
          refine Bool.eq_false_iff.2 fun hc => hno ⟨h, ?_⟩
          obtain ⟨t, ht, hkt⟩ := (ancestor_class_iff hr hw hu hk.2 h.2.1 hc).1 hkn.1
          exact ⟨t, ht, k, hkt, hc, hkn.2⟩
      · rw [(after_of_not_mixable h).1]
        exact ⟨fun hu => ⟨hu, fun ht => h ht.1⟩, And.left⟩
    | prependModule m n =>
      by_cases h : u.Mixable m n
      · rw [mixesModules_rechains_iff (rechains_prepend h) fun k => mem_mixins_prepending]
        refine and_congr_right fun hu => ⟨fun _ => id, fun _ k hk => ?_⟩
        simpa using List.all_eq_true.1 List.all_takeWhile k hk
      · rw [(after_of_not_mixable h).2]
        exact ⟨fun hu => ⟨hu, id⟩, And.left⟩
    | _ => exact absurd hm id
  · rw [mixesModules_drift_iff (drifts_after hw hk hm) hw]
    refine ⟨fun hu => ⟨hu, fun ht => hm ?_⟩, And.left⟩
    cases mv with
    | includeModule m n => exact trivial
    | prependModule m n => exact trivial
    | _ => exact ht

/-! ### Runs -/

theorem mixesModules_afterAll_iff (hw : u.WellFormed) (hr : u.Rooted) {mvs : List Move}
    (hg : u.AllGenuine mvs) :
    (u.afterAll mvs).MixesModules ↔ u.MixesModules ∧ ¬u.TakesClass mvs := by
  induction mvs generalizing u with
  | nil => simp [TakesClass]
  | cons mv mvs ih =>
    have hw' := (after_follows hw hg.1).1
    rw [afterAll_cons, ih hw' (rooted_after hw hr hg.1 hg.2.1) hg.2.2,
      mixesModules_after_iff hw hr hg.1, TakesClass, not_or, and_assoc]

/-- No class is among the modules mixed into any module, exactly after the runs that include no
refinement of a class, or of what descends from one, into a module that does not inherit from that
class through its parent. -/
theorem mixesModules_iff_not_takesClass (options : Options) (mvs : List Move)
    (hg : (create options).AllGenuine mvs) :
    ((create options).afterAll mvs).MixesModules ↔ ¬(create options).TakesClass mvs := by
  rw [mixesModules_afterAll_iff (wellFormed_create options) (rooted_create options) hg]
  exact and_iff_right (mixesModules_create options)

/-- A refinement of a class may be included into a class below it. -/
theorem mixesModules_of_subclass :
    ((create {}).afterAll [.newClass none, .newClass (some ⟨12⟩), .newModule,
      .openRefinement ⟨14⟩ ⟨12⟩, .includeModule ⟨13⟩ ⟨15⟩]).MixesModules :=
  (mixesModules_iff_not_takesClass {} [.newClass none, .newClass (some ⟨12⟩), .newModule,
    .openRefinement ⟨14⟩ ⟨12⟩, .includeModule ⟨13⟩ ⟨15⟩]
    ⟨fun _ h => (nomatch h), trivial, by rintro _ ⟨⟩; decide +kernel, trivial,
      trivial, trivial, ⟨by decide +kernel, by decide +kernel⟩, trivial,
      ⟨by decide +kernel, by decide +kernel⟩, trivial, trivial⟩).2 (by decide +kernel)

/-- A refinement of a class is no class, so a module may include it.  Then the class is mixed into
the module, with all that it descends from. -/
theorem class_mixed_of_refinement :
    ∃ mvs, (create {}).AllGenuine mvs ∧ (create {}).allSucceed mvs = true ∧
      ¬((create {}).afterAll mvs).MixesModules ∧
      (((create {}).afterAll mvs).module ⟨15⟩).chain.mixins =
        [⟨14⟩, ⟨12⟩, Core.object, Core.kernel, Core.basicObject] := by
  refine ⟨[.newClass none, .newModule, .openRefinement ⟨13⟩ ⟨12⟩, .newModule,
    .includeModule ⟨15⟩ ⟨14⟩], ?_, by decide +kernel, fun h => ?_, by decide +kernel⟩
  · exact ⟨fun _ h => (nomatch h), trivial, trivial, trivial,
      ⟨by decide +kernel, by decide +kernel⟩, trivial, trivial, trivial,
      ⟨by decide +kernel, by decide +kernel⟩, trivial, trivial⟩
  · have hmixed := h ⟨15⟩ ⟨12⟩ (by decide +kernel)
    have hclass : (((create {}).afterAll [.newClass none, .newModule,
        .openRefinement ⟨13⟩ ⟨12⟩, .newModule, .includeModule ⟨15⟩ ⟨14⟩]).module ⟨12⟩).isClass =
        true := by decide +kernel
    cases hmixed.symm.trans hclass

end Universe

end ObjectModel
