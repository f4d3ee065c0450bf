import ObjectModel.Proofs.Editing

/-!
# Finality

A frozen or sealed module refuses changes, but some moves do not ask it.  An assignment of a class
variable asks the module that it is made from, not the one that holds the variable; settling an
autoload asks nobody; and opening a refinement asks the namespace, not the refinements whose
methods it declares anew.  These are the only ways to change the tables of a fixed module.  Its
chain and its registry of refinements never change.

* `Intruded`: some move of a run writes to a module without asking it;
* `sameTables_after_iff`: what one move does to the tables of a fixed module;
* `final_iff_not_intruded`: what a whole run does to them;
* `rewritten_through_subclass`: a class variable of a frozen class, assigned from its subclass.
-/

namespace ObjectModel.Universe

variable {u v : Universe} {m n : ModuleId} {mv : Move} {mvs : List Move}

instance (u : Universe) (m : ModuleId) : (mv : Move) → Decidable (mv.Intrudes u m)
  | .settleAutoload n name =>
    inferInstanceAs (Decidable (n = m ∧ (u.ownConstant n name).any Constant.isAutoload = true))
  | .openRefinement n _ =>
    inferInstanceAs (Decidable ((u.module n).isClass = false ∧ u.immutable? n = none ∧
      m ∈ (u.module n).refinements.values ∧ (u.module m).methods.size ≠ 0))
  | .setClassVariable n name x =>
    inferInstanceAs (Decidable (u.immutable? n = none ∧
      u.classVariableHolder? n name = some m ∧ u.ownClassVariable m name ≠ some x))
  | .newModule | .newClass _ | .copyModule _ | .singletonClass _ | .objectSingletonClass _
  | .newObject _ | .writeVariable _ _ _ | .freezeModule _ | .sealModule _ | .includeModule _ _
  | .prependModule _ _ | .addMethod _ _ | .removeMethod _ _ | .setConstant _ _ _ _
  | .removeConst _ _ | .privateConstants _ _ | .publicConstants _ _ | .deprecateConstants _ _
  | .registerAutoload _ _ _ | .markAutoload _ _ | .removeClassVariable _ _ | .newCounter
  | .raiseCounter _ | .installLoader | .drawSerial | .report _ | .takeReports =>
    inferInstanceAs (Decidable False)

/-- Some move of a run writes to the tables of a module without checking it. -/
def Intruded (u : Universe) (m : ModuleId) : List Move → Prop
  | [] => False
  | mv :: mvs => mv.Intrudes u m ∨ (u.after mv).Intruded m mvs

instance decidableIntruded (u : Universe) (m : ModuleId) :
    (mvs : List Move) → Decidable (u.Intruded m mvs)
  | [] => inferInstanceAs (Decidable False)
  | mv :: mvs =>
    have := decidableIntruded (u.after mv) m mvs
    inferInstanceAs (Decidable (mv.Intrudes u m ∨ (u.after mv).Intruded m mvs))

/-! ### Intruding moves -/

/-- Settling an autoload leaves a new version of the constant table. -/
theorem constantsVersion_settleAutoload {name : String}
    (h : (u.ownConstant m name).any Constant.isAutoload = true) :
    ((u.after (.settleAutoload m name)).module m).constantsVersion =
      (u.module m).constantsVersion + 1 := by
  obtain ⟨c, hc, ha⟩ := (Option.any_eq_true _ _).1 h
  obtain ⟨declaring, own, binding⟩ := c
  cases binding with
  | value _ | undefined => cases ha
  | autoload a =>
    show ((settleAutoload m name u).2.module m).constantsVersion = _
    rw [settleAutoload, Change.get_bind, hc]
    exact congrArg Module.constantsVersion (module_setModule_self u m _)

/-- Opening a refinement leaves a new version of the methods of its siblings. -/
theorem methodsVersion_openRefinement (hm : u.knows m) (hn : u.knows n) {t : ModuleId}
    (h : (Move.openRefinement n t).Intrudes u m) :
    (u.module m).methodsVersion <
      ((u.after (.openRefinement n t)).module m).methodsVersion := by
  obtain ⟨hc, hi, hr, hs⟩ := h
  rw [after, Move.run, Update.final_discard, final_openRefinement, if_pos ⟨hc, hi⟩]
  have hmethods := methods_refinementOf hm n t
  have hvalues := (mem_values_refinementOf hm hn t).2 hr
  generalize refinementOf n t u = made at hmethods hvalues
  obtain ⟨r, w⟩ := made
  have hsame := modules_holdContext (w.refinementContext n r) w
  dsimp only at hmethods hvalues ⊢
  generalize holdContext (w.refinementContext n r) w = held at hsame
  have hm : held.2.module m = w.module m := by rw [module, hsame, module]
  rw [methodsVersion_redeclareEach _ _ _ (by rwa [hm, hmethods.1]), hm, hmethods.2]
  exact Nat.lt_add_of_pos_right (List.count_pos_iff.2 hvalues)

/-- An assignment of a class variable changes the table of the module that holds it. -/
theorem ownClassVariable_setClassVariable {name : String} {x : Value}
    (hi : u.immutable? n = none) (h : u.classVariableHolder? n name = some m) :
    (u.after (.setClassVariable n name x)).ownClassVariable m name = some x := by
  have he : u.after (.setClassVariable n name x) = (bindClassVariable m name x u).2 := by
    rw [after, Move.run, setClassVariable, final_checkMutable_bind, if_pos hi]
    rw [Update.final_get_bind, h]
    rfl
  rw [he, ownClassVariable, bindClassVariable]
  refine (congrArg (·.classVariables.find? name) (module_setModule_self u m _)).trans ?_
  exact Table.find?_insert_self _ _ _

/-- A move leaves the tables of a fixed module alone exactly when it does not intrude on it. -/
theorem sameTables_after_iff (hm : u.knows m) (hf : (u.module m).Fixed) (hk : mv.Known u) :
    (u.module m).SameTables ((u.after mv).module m) ↔ ¬mv.Intrudes u m := by
  constructor
  · intro hs hi
    cases mv with
    | settleAutoload n name =>
      obtain ⟨rfl, ha⟩ := hi
      exact Nat.succ_ne_self _ ((constantsVersion_settleAutoload ha).symm.trans hs.constantsVersion)
    | openRefinement n t =>
      exact Nat.ne_of_gt (methodsVersion_openRefinement hm hk.1 hi) hs.methodsVersion
    | setClassVariable n name x =>
      have hset : ((u.after (.setClassVariable n name x)).module m).classVariables.find? name =
          some x := ownClassVariable_setClassVariable hi.1 hi.2.1
      rw [hs.classVariables] at hset
      exact hi.2.2 hset
    | _ => exact hi
  · exact (stems_after hm hk).sameTables hf

/-! ### Runs -/

theorem fixed_after (hm : u.knows m) (hf : (u.module m).Fixed) (hk : mv.Known u) :
    (u.after mv).knows m ∧ ((u.after mv).module m).Fixed :=
  have hs := stems_after hm hk
  ⟨knows_mono hs.nextId hm, hs.fixed hf⟩

/-- No run changes the chain of a fixed module or its registry of refinements. -/
theorem Leads.chain_refinements (h : Leads u v) (hm : u.knows m) (hf : (u.module m).Fixed) :
    (v.module m).chain = (u.module m).chain ∧
      (v.module m).refinements = (u.module m).refinements := by
  refine ⟨(h.constantsFollow hm).chain (.inr hf), ?_⟩
  refine (Leads.induction (motive := fun v => (v.knows m ∧ (v.module m).Fixed) ∧
    (v.module m).refinements = (u.module m).refinements) ⟨⟨hm, hf⟩, rfl⟩ ?_ h).2
  intro v mv ⟨⟨hv, hfv⟩, hr⟩ hk
  exact ⟨fixed_after hv hfv hk, ((stems_after hv hk).refinements_eq hfv).trans hr⟩

/-- Along a run, the tables of a fixed module stay as they are exactly when no move intrudes. -/
theorem sameTables_afterAll_iff (hm : u.knows m) (hf : (u.module m).Fixed)
    (hk : u.AllKnown mvs) :
    (∀ pre, pre <+: mvs → (u.module m).SameTables ((u.afterAll pre).module m)) ↔
      ¬u.Intruded m mvs := by
  induction mvs generalizing u with
  | nil =>
    refine iff_of_true (fun pre hpre => ?_) id
    rw [List.prefix_nil.1 hpre]
    exact .refl _
  | cons mv mvs ih =>
    obtain ⟨hm', hf'⟩ := fixed_after hm hf hk.1
    rw [Intruded, not_or, ← sameTables_after_iff hm hf hk.1, ← ih hm' hf' hk.2]
    constructor
    · intro h
      have hfirst := h [mv] ⟨mvs, rfl⟩
      refine ⟨hfirst, fun pre hpre => ?_⟩
      exact hfirst.symm.trans (h (mv :: pre) (List.cons_prefix_cons.2 ⟨rfl, hpre⟩))
    · rintro ⟨hfirst, hrest⟩ pre hpre
      rcases List.prefix_cons_iff.1 hpre with rfl | ⟨rest, rfl, hr⟩
      · exact .refl _
      · exact hfirst.trans (hrest rest hr)

/-- Along a whole run, the chain of a fixed module and its registry of refinements stay as they
are, and its tables do so exactly when no move intrudes on it. -/
theorem final_iff_not_intruded (hm : u.knows m) (hf : (u.module m).Fixed)
    (hk : u.AllKnown mvs) :
    (∀ pre, pre <+: mvs → ((u.afterAll pre).module m).chain = (u.module m).chain ∧
        ((u.afterAll pre).module m).refinements = (u.module m).refinements) ∧
      ((∀ pre, pre <+: mvs → (u.module m).SameTables ((u.afterAll pre).module m)) ↔
        ¬u.Intruded m mvs) := by
  refine ⟨fun pre hpre => ?_, sameTables_afterAll_iff hm hf hk⟩
  obtain ⟨rest, rfl⟩ := hpre
  have hled : Leads u (u.afterAll pre) := ⟨pre, ((allKnown_append u pre rest).1 hk).1, rfl⟩
  exact hled.chain_refinements hm hf

/-- A frozen class refuses to be changed itself. -/
theorem sameTables_of_refused_changes :
    let u := (create {}).afterAll
      [.newClass none, .setClassVariable ⟨12⟩ "@@v" (.int 1), .freezeModule ⟨12⟩, .newModule]
    let v := u.afterAll [.setClassVariable ⟨12⟩ "@@v" (.int 2), .includeModule ⟨12⟩ ⟨13⟩,
      .setConstant ⟨12⟩ "C" .nil none]
    (u.module ⟨12⟩).SameTables (v.module ⟨12⟩) := by
  intro u v
  have hlast : [Move.setClassVariable ⟨12⟩ "@@v" (.int 2), .includeModule ⟨12⟩ ⟨13⟩,
      .setConstant ⟨12⟩ "C" .nil none] <+: [.setClassVariable ⟨12⟩ "@@v" (.int 2),
      .includeModule ⟨12⟩ ⟨13⟩, .setConstant ⟨12⟩ "C" .nil none] := List.prefix_rfl
  refine (final_iff_not_intruded (u := u) (m := ⟨12⟩) ?_ ?_ ?_).2.2 ?_ _ hlast
  · decide +kernel
  · exact .inl (by decide +kernel)
  · exact ⟨⟨by decide +kernel, trivial⟩, ⟨by decide +kernel, by decide +kernel⟩,
      ⟨by decide +kernel, trivial⟩, trivial⟩
  · decide +kernel

/-- The class variable of a frozen class is assigned through its subclass, which is asked instead;
a second assignment from the class itself fails. -/
theorem rewritten_through_subclass :
    let made : List Move := [.newClass none, .setClassVariable ⟨12⟩ "@@v" (.int 1),
      .freezeModule ⟨12⟩, .newClass (some ⟨12⟩)]
    let u := (create {}).afterAll made
    (create {}).AllKnown (made ++ [.setClassVariable ⟨13⟩ "@@v" (.int 2)]) ∧
      (create {}).allSucceed (made ++ [.setClassVariable ⟨13⟩ "@@v" (.int 2)]) = true ∧
      (u.module ⟨12⟩).frozen = true ∧ u.ownClassVariable ⟨12⟩ "@@v" = some (.int 1) ∧
      (u.after (.setClassVariable ⟨13⟩ "@@v" (.int 2))).ownClassVariable ⟨12⟩ "@@v" =
        some (.int 2) ∧
      u.allSucceed [.setClassVariable ⟨12⟩ "@@v" (.int 2)] = false := by
  intro made u
  refine ⟨?_, by decide +kernel⟩
  have hknown (k : Nat) (v : Universe) (h : decide (k < v.nextId) = true) : v.knows ⟨k⟩ :=
    of_decide_eq_true h
  exact ⟨nofun, ⟨hknown _ _ (by decide +kernel), trivial⟩, hknown _ _ (by decide +kernel),
    fun _ h => Option.some.inj h ▸ hknown _ _ (by decide +kernel),
    ⟨hknown _ _ (by decide +kernel), trivial⟩, trivial⟩

end ObjectModel.Universe
