import ObjectModel.Proofs.Guarding

/-!
# Fronting

A new module that nothing is mixed into, prepended to one whose chain may be changed, comes in front
of the own chain of that one, and of every walk where the walk enters the chain.  Included, it
comes right behind the module.

* `Newcomer`: universes with a new module that is mixed into nothing yet;
* `Spliced`, `Fronted`: universes with a new module somewhere in one chain, or in front of it;
* `fronted_prepend`, `spliced_include`: how mixing in leads to one, and what it leaves alone;
* `Spliced.walk_filter`, `Fronted.walk_of_entered`: walks before and after.
-/

namespace ObjectModel.Universe

variable {u v w : Universe} {k m o p : ModuleId}

/-! ### New modules -/

/-- The second universe has a module more, which nothing is mixed into and which is mixed into
nothing. -/
structure Newcomer (u w : Universe) (p : ModuleId) : Prop where
  leads : Leads u w
  fresh : ¬u.knows p
  known : w.knows p
  other : ∀ k, k ≠ p → w.module k = u.module k
  kind : (w.module p).isClass = false
  chain : (w.module p).chain = {}

theorem module_newModule_self (u : Universe) :
    (u.after .newModule).module ⟨u.nextId⟩ = { kind := .plain, chain := {} } :=
  module_setModule_self u ⟨u.nextId⟩ _

theorem newcomer_newModule (u : Universe) : Newcomer u (u.after .newModule) ⟨u.nextId⟩ where
  leads := .of_move trivial
  fresh := Nat.lt_irrefl u.nextId
  known := Nat.lt_succ_self u.nextId
  other _ hk := module_setModule_of_ne u hk.symm _
  kind := by rw [module_newModule_self]; rfl
  chain := by rw [module_newModule_self]

theorem not_fixed_newModule (u : Universe) : ¬((u.after .newModule).module ⟨u.nextId⟩).Fixed := by
  rw [module_newModule_self]
  simp [Module.Fixed]

theorem immutable?_of_not_fixed (h : ¬(u.module m).Fixed) : u.immutable? m = none := by
  rw [Module.Fixed, not_or] at h
  simp [immutable?, h]

/-- The walk of a module that nothing is mixed into and that has no parent. -/
theorem walk_of_lone (h : (u.module m).chain = {}) : u.walk m = [m] := by
  have hspine : u.spine m = [m] := by
    rw [spine, h]
  rw [walk_eq_spine, hspine, List.flatMap_singleton, ownChain, h]
  rfl

namespace Newcomer

variable (h : Newcomer u w p)
include h

theorem ne (hk : u.knows k) : k ≠ p := fun he => h.fresh (he ▸ hk)

/-- It stays one while only its own tables change. -/
theorem later {w' : Universe} (hu : u.WellFormed) (hl : Leads w w')
    (hother : ∀ k, k ≠ p → w'.module k = w.module k)
    (hkind : (w'.module p).isClass = (w.module p).isClass)
    (hchain : (w'.module p).chain = (w.module p).chain) : Newcomer u w' p where
  leads := h.leads.trans hl
  fresh := h.fresh
  known := knows_mono (hl.nextId (h.leads.wellFormed hu)) h.known
  other k hk := (hother k hk).trans (h.other k hk)
  kind := hkind.trans h.kind
  chain := hchain.trans h.chain

/-- Nothing inherits from a new module. -/
theorem ancestors (hu : u.WellFormed) (hk : u.knows k) : w.ancestors k = u.ancestors k := by
  have hspine : w.spine k = u.spine k := spine_congr fun o ho => by
    rw [h.other o (h.ne (knows_spine hu hk o ho))]
  rw [ancestors_eq_walk, ancestors_eq_walk, walk_eq_spine, walk_eq_spine, hspine,
    List.flatMap_def, List.flatMap_def]
  refine congrArg (fun l => (List.flatten l).eraseDups) (List.map_congr_left fun o ho => ?_)
  rw [ownChain, h.other o (h.ne (knows_spine hu hk o ho)), ownChain]

theorem ancestors_self : w.ancestors p = [p] := by
  rw [ancestors_eq_walk, walk_of_lone h.chain]
  rfl

theorem mixable (ho : u.knows o) (hfree : ¬(u.module o).Fixed) : w.Mixable o p := by
  refine ⟨immutable?_of_not_fixed (by rwa [h.other o (h.ne ho)]), h.kind, ?_⟩
  rw [includes, h.ancestors_self]
  simpa using h.ne ho

theorem not_mem_mixins (hu : u.WellFormed) (ho : u.knows o) :
    p ∉ (u.module o).chain.prepended ∧ p ∉ (u.module o).chain.included := by
  rw [← not_or, ← List.mem_append]
  exact fun hm => h.fresh ((hu.modules o ho).mixins p hm)

end Newcomer

/-! ### New modules in chains -/

/-- The second universe has a module more, at a place in the own chain of one that existed. -/
structure Spliced (u v : Universe) (o p : ModuleId) (pre post : List ModuleId) : Prop where
  fresh : ¬u.knows p
  spine : ∀ k, u.knows k → v.spine k = u.spine k
  before : u.ownChain o = pre ++ post
  spliced : v.ownChain o = pre ++ p :: post
  ownChain : ∀ k, u.knows k → k ≠ o → v.ownChain k = u.ownChain k

/-- The second universe has a module more, in front of the own chain of one that existed. -/
abbrev Fronted (u v : Universe) (o p : ModuleId) : Prop := Spliced u v o p [] (u.ownChain o)

theorem weavePrepended_singleton {skip : ModuleId → Bool} {prepended : List ModuleId}
    (hm : m ∉ prepended) (hs : skip m = false) :
    weavePrepended skip prepended [m] = m :: prepended := by
  simp [weavePrepended, Weave.addPrepended, Weave.flush, hm, hs]

theorem weaveIncluded_singleton {skip : ModuleId → Bool} {included : List ModuleId}
    (hm : m ∉ included) (hs : skip m = false) : weaveIncluded skip included [m] = m :: included := by
  simp [weaveIncluded, Weave.addIncluded, Weave.flush, hm, hs]

theorem others_prepend (u : Universe) (m n : ModuleId) :
    (u.after (.prependModule m n)).objects = u.objects ∧
      (u.after (.prependModule m n)).autoloads = u.autoloads := by
  by_cases h : u.Mixable m n
  · unfold after Move.run prependModule
    rw [final_checkMixin_bind, if_pos h]
    show (Update.final (if _ then _ else _) u).objects = _ ∧
      (Update.final (if _ then _ else _) u).autoloads = _
    split <;> exact ⟨rfl, rfl⟩
  · rw [(after_of_not_mixable h).2]
    exact ⟨rfl, rfl⟩

/-- A new module, prepended to one that may be changed, comes in front of its chain, and nothing
else changes. -/
theorem fronted_prepend (hu : u.WellFormed) (ho : u.knows o) (hfree : ¬(u.module o).Fixed)
    (h : Newcomer u w p) :
    Leads u (w.after (.prependModule o p)) ∧ Fronted u (w.after (.prependModule o p)) o p ∧
      (∀ k, k ≠ o → (w.after (.prependModule o p)).module k = w.module k) ∧
      (w.after (.prependModule o p)).module o = (u.module o).updateChain fun c =>
        { c with prepended := p :: c.prepended } := by
  have hold := h.other o (h.ne ho)
  have hre := rechains_prepend (h.mixable ho hfree)
  have hafter : w.chainPrepending o p =
      { (u.module o).chain with prepended := p :: (u.module o).chain.prepended } := by
    have hclass : (!(w.module p).isClass) = true := by rw [h.kind]; rfl
    have hbrought : w.prependable p = [p] := by
      rw [prependable, walk_of_lone h.chain]
      simp [hclass]
    have hwoven : w.prependedAfter o p = p :: (u.module o).chain.prepended := by
      show weavePrepended _ _ (w.prependable p) = _
      rw [hbrought, hold]
      obtain ⟨hprepended, hincluded⟩ := h.not_mem_mixins hu ho
      exact weavePrepended_singleton hprepended (by simpa using hincluded)
    rw [chainPrepending, hwoven, hold]
  rw [hafter] at hre
  have hall := h.leads.move (.prependModule o p) ⟨knows_mono (h.leads.nextId hu) ho, h.known⟩
  refine ⟨hall, ⟨h.fresh, fun k hk => spine_of_follows hu (hall.follows hu).2 hk, rfl, ?_,
    fun k hk hko => ?_⟩, fun k hko => hre.other hko, ?_⟩
  · rw [ownChain, hre.chain_self]
    rfl
  · rw [ownChain, hre.chain_other hko, h.other k (h.ne hk), ownChain]
  · rcases hre.self with ⟨-, hc⟩ | he
    · rw [hold] at hc
      have hlength := congrArg (fun c => c.prepended.length) hc
      exact absurd hlength.symm (Nat.succ_ne_self _)
    · rw [he, hold]
      rfl

/-- Included, it comes right behind the module. -/
theorem spliced_include (hu : u.WellFormed) (ho : u.knows o) (hfree : ¬(u.module o).Fixed)
    (h : Newcomer u w p) :
    Leads u (w.after (.includeModule o p)) ∧
      Spliced u (w.after (.includeModule o p)) o p ((u.module o).chain.prepended ++ [o])
        (u.module o).chain.included ∧
      (∀ k, k ≠ o → (w.after (.includeModule o p)).module k = w.module k) ∧
      ((w.after (.includeModule o p)).module o).methods = (u.module o).methods := by
  have hold := h.other o (h.ne ho)
  have hre := rechains_include (h.mixable ho hfree)
  obtain ⟨hprepended, hincluded⟩ := h.not_mem_mixins hu ho
  have hinherited : ((u.module o).chain.parent.any fun q => w.includes q p) = false := by
    cases hq : (u.module o).chain.parent with
    | none => rfl
    | some q =>
      have hqu := (hu.modules o ho).parent q hq
      rw [Option.any_some, includes, h.ancestors hu hqu]
      refine Bool.eq_false_iff.2 fun hc => h.fresh ?_
      exact knows_ancestors hu hqu (List.contains_iff_mem.1 hc)
  have hafter : w.chainIncluding o p =
      { (u.module o).chain with included := p :: (u.module o).chain.included } := by
    have hbrought : [p].filter (fun k => !(u.module o).chain.prepended.contains k) = [p] := by
      simp [hprepended]
    have hwoven : w.includedAfter o p = p :: (u.module o).chain.included := by
      simp only [includedAfter, hold, h.ancestors_self, hbrought]
      exact weaveIncluded_singleton hincluded hinherited
    rw [chainIncluding, hwoven, hold]
  rw [hafter] at hre
  have hall := h.leads.move (.includeModule o p) ⟨knows_mono (h.leads.nextId hu) ho, h.known⟩
  refine ⟨hall, ⟨h.fresh, fun k hk => spine_of_follows hu (hall.follows hu).2 hk, ?_, ?_,
    fun k hk hko => ?_⟩, fun k hko => hre.other hko, ?_⟩
  · rw [ownChain, Chain.modules, List.append_assoc]
    rfl
  · rw [ownChain, hre.chain_self, Chain.modules, List.append_assoc]
    rfl
  · rw [ownChain, hre.chain_other hko, h.other k (h.ne hk), ownChain]
  · rw [hre.methods_self, hold]

/-! ### Walks -/

namespace Spliced

variable {pre post : List ModuleId} (h : Spliced u v o p pre post)
include h

theorem ne (hk : u.knows k) : k ≠ p := fun he => h.fresh (he ▸ hk)

/-- Apart from the new module, chains and walks are as they were. -/
theorem ownChain_filter (hu : u.WellFormed) (hk : u.knows k) :
    (v.ownChain k).filter (fun b => !b == p) = u.ownChain k := by
  have hold : (u.ownChain k).filter (fun b => !b == p) = u.ownChain k :=
    List.filter_eq_self.2 fun b hb => by simpa using h.ne (knows_ownChain hu hk hb)
  by_cases hko : k = o
  · rw [hko, h.before] at hold
    rw [hko, h.spliced, h.before, List.filter_append, List.filter_cons_of_neg (by simp),
      ← List.filter_append, hold]
  · rw [h.ownChain k hk hko, hold]

theorem walk_filter (hu : u.WellFormed) (hk : u.knows k) :
    (v.walk k).filter (fun b => !b == p) = u.walk k := by
  rw [walk_eq_spine, walk_eq_spine, h.spine k hk, List.filter_flatMap, List.flatMap_def,
    List.flatMap_def]
  exact congrArg List.flatten (List.map_congr_left fun b hb =>
    h.ownChain_filter hu (knows_spine hu hk b hb))

theorem knows_of_mem_walk (hu : u.WellFormed) (hk : u.knows k) {b : ModuleId}
    (hb : b ∈ v.walk k) (hne : b ≠ p) : u.knows b := by
  refine knows_walk hu hk (h.walk_filter hu hk ▸ List.mem_filter.2 ⟨hb, ?_⟩)
  simpa using hne

end Spliced

namespace Fronted

variable (h : Fronted u v o p)
include h

theorem front : v.ownChain o = p :: u.ownChain o := h.spliced

/-- A walk that entered the chain meets the new module before it stops. -/
theorem walk_of_entered (hu : u.WellFormed) {stop : ModuleId → Bool} (hk : u.knows k)
    (ho : o ∈ u.entered stop k) :
    ∃ pre post, v.walk k = pre ++ p :: post ∧ ∀ b ∈ pre, b = p ∨ u.knows b ∧ stop b = false := by
  obtain ⟨pre, post, hspine, hpre⟩ := append_of_mem_through ho
  refine ⟨pre.flatMap v.ownChain, u.ownChain o ++ post.flatMap v.ownChain, ?_, fun b hb => ?_⟩
  · rw [walk_eq_spine, h.spine k hk, hspine, List.flatMap_append, List.flatMap_cons, h.front]
    rfl
  · obtain ⟨q, hq, hb⟩ := List.mem_flatMap.1 hb
    have hqk : u.knows q :=
      knows_spine hu hk q (hspine ▸ List.mem_append_left _ hq)
    by_cases hbp : b = p
    · exact .inl hbp
    · have hbq : b ∈ u.ownChain q := by
        rw [← h.ownChain_filter hu hqk]
        exact List.mem_filter.2 ⟨hb, by simpa using hbp⟩
      have hstop := hpre q hq
      rw [List.any_eq_false] at hstop
      exact .inr ⟨knows_ownChain hu hqk hbq, Bool.eq_false_iff.2 (hstop b hbq)⟩

end Fronted

end ObjectModel.Universe
