import ObjectModel.Proofs.Storing

/-!
# Belonging

A constant names the module that declares it, and a feature that it waits for is loaded for that
module.  Whoever stores a constant anew declares it, but a copy of a module takes the constants of
the original over as they are, and they go on belonging to the original: assigned, flagged or given
up by their features, they keep their declaring module until they are removed or registered anew.

* `ConstantsBelong`: the constants of every module are its own;
* `takenOver`: the places of the constants that came with a copy, kept up along a run;
* `isCopy_of_bound_stranger`: only a copy has constants from the start;
* `Belongs.after`: what one move does, and `Belongs.afterAll`: what a run does;
* `constantsBelong_iff`: which constants belong to the module that stores them;
* `not_constantsBelong_of_copy`: a constant of a copy that belongs to the original.
-/

namespace ObjectModel

/-- Whether a move makes a copy of a module. -/
def Move.isCopy : Move → Bool
  | copyModule _ => true
  | _ => false

namespace Universe

variable {u v : Universe} {k m : ModuleId} {name : String} {c : Constant} {mv : Move}
  {mvs : List Move} {taken : ModuleId → String → Bool}

/-- A constant is stored under its name by the module that declares it, and has a value or waits for
a feature, but not both. -/
def ConstantsBelong (u : Universe) : Prop :=
  ∀ m name c, u.ownConstant m name = some c →
    c.name = name ∧ c.declaringModule = m ∧ (c.value? = none ∨ c.autoload? = none)

/-! ### What is taken over -/

/-- The places of the constants that were taken over, after one more move: all those of a copy just
made, and those from before that are still bound and not registered anew. -/
def takenAfter (u : Universe) (taken : ModuleId → String → Bool) (mv : Move) (k : ModuleId)
    (name : String) : Bool :=
  ((u.after mv).ownConstant k name).isSome &&
    if u.knows k then taken k name && mv.pending? u != some (k, name) else mv.isCopy

/-- The same after a run. -/
def takenAfterAll (u : Universe) (taken : ModuleId → String → Bool) :
    List Move → ModuleId → String → Bool
  | [] => taken
  | mv :: mvs => (u.after mv).takenAfterAll (u.takenAfter taken mv) mvs

/-- The places of the constants that were taken over in a run from `u`. -/
def takenOver (u : Universe) (mvs : List Move) : ModuleId → String → Bool :=
  u.takenAfterAll (fun _ _ => false) mvs

/-! ### One move -/

/-- A module that is new and has constants is a copy. -/
theorem isCopy_of_bound_stranger (hu : u.WellFormed) (hmv : mv.Known u) (hk : ¬u.knows k)
    (hc : (u.after mv).ownConstant k name = some c) : mv.isCopy = true := by
  have hstart : Stores (fun k _ _ => u.knows k ∨ mv.isCopy = true) u.autoloads u :=
    ⟨fun _ _ _ hc => .inl (hu.knows_of_ownConstant hc), rfl⟩
  have hfit : Fits u mv fun k _ _ => u.knows k ∨ mv.isCopy = true :=
    { flagged := fun h _ _ _ => h
      settled := fun hc => .inl (hu.knows_of_ownConstant hc)
      copied := fun he _ _ => .inr (he ▸ rfl)
      registered := fun hp => .inl (knows_of_pending hmv hp)
      assigned := fun he => .inl (by subst he; exact hmv.1) }
  exact ((hstart.after hfit).constants k name c hc).resolve_left hk

/-- The places are bound, and a constant belongs to the module that stores it unless its place is
among them. -/
structure Belongs (u : Universe) (taken : ModuleId → String → Bool) : Prop where
  bound : ∀ k name, taken k name = true → (u.ownConstant k name).isSome = true
  declaring : ∀ k name c, u.ownConstant k name = some c →
    (c.declaringModule = k ↔ taken k name = false)

theorem belongs_create (options : Options) : Belongs (create options) fun _ _ => false where
  bound _ _ h := nomatch h
  declaring k name c hc := by
    obtain ⟨rfl, hd, -⟩ := ownConstant_create hc
    exact iff_of_true hd rfl

/-- Storing a constant anew declares it, and everything else keeps its declaring module. -/
theorem Belongs.after (h : Belongs u taken) (hu : u.WellFormed) (hs : u.Sourced)
    (hk : mv.Known u) : Belongs (u.after mv) (u.takenAfter taken mv) := by
  refine ⟨fun k name ht => (Bool.and_eq_true _ _ ▸ ht).1, fun k name c hc => ?_⟩
  have hplace : u.takenAfter taken mv k name =
      if u.knows k then taken k name && mv.pending? u != some (k, name) else mv.isCopy := by
    rw [takenAfter, hc, Option.isSome_some, Bool.true_and]
  rw [hplace]
  by_cases hp : mv.pending? u = some (k, name)
  · -- registered here and now
    rw [(after_of_pending hp).1, if_pos ⟨rfl, rfl⟩] at hc
    cases hc
    refine iff_of_true rfl ?_
    cases mv with
    | registerAutoload => simp [hp, Move.isCopy]
    | _ => cases hp
  · have hne : (mv.pending? u != some (k, name)) = true := bne_iff_ne.2 hp
    rw [hne, Bool.and_true]
    cases (stores_after hk).constants k name c hc with
    | kept h₀ from_ =>
      rw [if_pos (hu.knows_of_ownConstant h₀), from_.declaring]
      exact h.declaring k name _ h₀
    | made free hkn declaring =>
      rw [if_pos hkn]
      refine iff_of_true declaring (Bool.eq_false_iff.2 fun ht => ?_)
      have hbound := h.bound k name ht
      rw [free] at hbound
      cases hbound
    | registered hp' => exact absurd hp' hp
    | copied hkn h₀ from_ =>
      rw [if_neg hkn, isCopy_of_bound_stranger hu hk hkn hc, from_.declaring]
      refine iff_of_false (fun he => hkn ?_) nofun
      exact he ▸ (hs _ name _ h₀).declaring

/-! ### Runs -/

theorem Belongs.afterAll (h : Belongs u taken) (hu : u.WellFormed) (hs : u.Sourced)
    (hk : u.AllKnown mvs) :
    Belongs (u.afterAll mvs) (u.takenAfterAll taken mvs) ∧ (u.afterAll mvs).Sourced := by
  induction mvs generalizing u taken with
  | nil => exact ⟨h, hs⟩
  | cons mv mvs ih =>
    have hlead := Leads.of_move hk.1
    exact ih (h.after hu hs hk.1) (hlead.wellFormed hu)
      (hs.step (hlead.nextId hu) (stores_after hk.1)) hk.2

/-- No constant has a value and waits for a feature. -/
theorem value?_or_autoload? (c : Constant) : c.value? = none ∨ c.autoload? = none := by
  obtain ⟨_, _, binding⟩ := c
  cases binding with
  | value | undefined => exact .inr rfl
  | autoload => exact .inl rfl

/-- After every run, a constant is stored under its name and has at most one of a value and a
feature to wait for.  It belongs to the module that stores it unless it was taken over by a copy;
all constants belong where they are stored exactly if none was. -/
theorem constantsBelong_iff {options : Options} (hk : (create options).AllKnown mvs) :
    (∀ m name c, ((create options).afterAll mvs).ownConstant m name = some c →
      c.name = name ∧ (c.value? = none ∨ c.autoload? = none) ∧
      (c.declaringModule = m ↔ (create options).takenOver mvs m name = false)) ∧
    (((create options).afterAll mvs).ConstantsBelong ↔
      ∀ m name, (create options).takenOver mvs m name = false) := by
  obtain ⟨h, hs⟩ := (belongs_create options).afterAll (wellFormed_create options)
    (sourced_create options) hk
  have hall (m : ModuleId) (name : String) (c : Constant)
      (hc : ((create options).afterAll mvs).ownConstant m name = some c) :
      c.name = name ∧ (c.value? = none ∨ c.autoload? = none) ∧
      (c.declaringModule = m ↔ (create options).takenOver mvs m name = false) :=
    ⟨(hs m name c hc).same, value?_or_autoload? c, h.declaring m name c hc⟩
  refine ⟨hall, fun hb m name => Bool.eq_false_iff.2 fun ht => ?_, fun ht m name c hc => ?_⟩
  · obtain ⟨c, hc⟩ := Option.isSome_iff_exists.1 (h.bound m name ht)
    have := (hall m name c hc).2.2.1 (hb m name c hc).2.1
    exact Bool.false_ne_true (this.symm.trans ht)
  · obtain ⟨hn, hone, hd⟩ := hall m name c hc
    exact ⟨hn, hd.2 (ht m name), hone⟩

/-- In a copy, a constant that was removed and assigned again belongs to the copy, and one that was
only assigned again belongs to the original. -/
theorem constantsBelong_of_reassigned :
    let mvs : List Move := [.newModule, .setConstant ⟨12⟩ "C" (.int 1) none,
      .registerAutoload ⟨12⟩ "D" "lib", .copyModule ⟨12⟩, .removeConst ⟨13⟩ "C",
      .setConstant ⟨13⟩ "C" (.int 2) none, .setConstant ⟨13⟩ "D" (.int 3) none]
    let u := (create {}).afterAll mvs
    (create {}).AllKnown mvs ∧
      (∃ c, u.ownConstant ⟨13⟩ "C" = some c ∧ c.declaringModule = ⟨13⟩) ∧
      ∃ c, u.ownConstant ⟨13⟩ "D" = some c ∧ c.declaringModule ≠ ⟨13⟩ := by
  intro mvs u
  have hk : (create {}).AllKnown mvs := by
    have hknown (n : Nat) (v : Universe) (h : decide (n < v.nextId) = true) : v.knows ⟨n⟩ :=
      of_decide_eq_true h
    exact ⟨trivial, ⟨hknown 12 _ (by decide +kernel), trivial⟩, hknown 12 _ (by decide +kernel),
      hknown 12 _ (by decide +kernel), hknown 13 _ (by decide +kernel),
      ⟨hknown 13 _ (by decide +kernel), trivial⟩, ⟨hknown 13 _ (by decide +kernel), trivial⟩,
      trivial⟩
  have hlaw := (constantsBelong_iff hk).1
  obtain ⟨c, hc⟩ : ∃ c, u.ownConstant ⟨13⟩ "C" = some c :=
    Option.isSome_iff_exists.1 (by decide +kernel)
  obtain ⟨d, hd⟩ : ∃ d, u.ownConstant ⟨13⟩ "D" = some d :=
    Option.isSome_iff_exists.1 (by decide +kernel)
  refine ⟨hk, ⟨c, hc, (hlaw ⟨13⟩ "C" c hc).2.2.2 (by decide +kernel)⟩, d, hd, fun he => ?_⟩
  have htaken := (hlaw ⟨13⟩ "D" d hd).2.2.1 he
  exact absurd htaken (by decide +kernel)

/-- A constant of a copy belongs to the original. -/
theorem not_constantsBelong_of_copy :
    let mvs : List Move := [.newModule, .setConstant ⟨12⟩ "C" (.int 1) none, .copyModule ⟨12⟩]
    let u := (create {}).afterAll mvs
    (create {}).AllKnown mvs ∧ (create {}).allSucceed mvs = true ∧
      (u.ownConstant ⟨13⟩ "C").map Constant.declaringModule = some ⟨12⟩ ∧
      ¬u.ConstantsBelong := by
  intro mvs u
  have hd : (u.ownConstant ⟨13⟩ "C").map Constant.declaringModule = some ⟨12⟩ := by decide +kernel
  refine ⟨?_, by decide +kernel, hd, fun hb => ?_⟩
  · have hknown (n : Nat) (v : Universe) (h : decide (n < v.nextId) = true) : v.knows ⟨n⟩ :=
      of_decide_eq_true h
    exact ⟨trivial, ⟨hknown 12 _ (by decide +kernel), trivial⟩, hknown 12 _ (by decide +kernel),
      trivial⟩
  · obtain ⟨c, hc, hm⟩ := Option.map_eq_some_iff.1 hd
    have h13 := (hb ⟨13⟩ "C" c hc).2.1
    exact absurd (hm.symm.trans h13) (by decide)

end Universe

end ObjectModel
