import ObjectModel.Proofs.Copies
import ObjectModel.Proofs.Framing
import ObjectModel.Proofs.Seats

/-!
# Cells of class variables

A class variable is meant to live in one module of a hierarchy.  An assignment looks for it upwards,
from the module that it is made from.  What lies below that module, or joins its ancestors later,
may have the variable already, and then somebody has two modules with it on the path.

* `HasCell`, `OneCell`, `Collide`: the modules that have a class variable, and paths with one of
  them;
* `MetBelow`, `CollideBelow`: the paths that a change of a module joins;
* `Move.Splits`, `SplitsIn`: the moves that put two of them on one path;
* `hasCell_after`, `hasCell_setClassVariable`: the cells there are after a move;
* `oneCell_mixed`, `oneCell_copied`, `oneCell_born`: what becomes of the paths;
* `oneCell_after_iff`, `oneCell_iff_not_splits`: one move, and whole runs.
-/

namespace ObjectModel

namespace Universe

/-- A module has a class variable in its own table. -/
def HasCell (u : Universe) (k : ModuleId) (name : String) : Prop :=
  (u.ownClassVariable k name).isSome = true

instance (u : Universe) (k : ModuleId) (name : String) : Decidable (u.HasCell k name) :=
  inferInstanceAs (Decidable (_ = true))

/-- On every path, at most one module has a class variable. -/
def OneCell (u : Universe) : Prop :=
  ∀ k name, ∀ a ∈ u.classVariablePath k, ∀ b ∈ u.classVariablePath k,
    u.HasCell a name → u.HasCell b name → a = b

/-- Two modules, one of each list, have a class variable in common. -/
def Collide (u : Universe) (ms ns : List ModuleId) : Prop :=
  ∃ a ∈ ms, ∃ b ∈ ns, a ≠ b ∧ ∃ name ∈ (u.module a).classVariables.keys, u.HasCell b name

instance (u : Universe) (ms ns : List ModuleId) : Decidable (u.Collide ms ns) :=
  inferInstanceAs (Decidable (∃ a ∈ ms, ∃ b ∈ ns, a ≠ b ∧ ∃ name ∈ _, u.HasCell b name))

/-- What is decidable of modules is so for some module that exists. -/
instance decidableExistsKnown (u : Universe) (P : ModuleId → Prop) [DecidablePred P] :
    Decidable (∃ k, u.knows k ∧ P k) :=
  decidable_of_iff (∃ i, i < u.nextId ∧ P ⟨i⟩)
    ⟨fun ⟨i, hi, hp⟩ => ⟨⟨i⟩, hi, hp⟩, fun ⟨k, hk, hp⟩ => ⟨k.num, hk, hp⟩⟩

/-- Some module that has the module on its path meets the class variable there. -/
def MetBelow (u : Universe) (m : ModuleId) (name : String) : Prop :=
  ∃ k, u.knows k ∧ m ∈ u.classVariablePath k ∧ ∃ b ∈ u.classVariablePath k, u.HasCell b name

instance (u : Universe) (m : ModuleId) (name : String) : Decidable (u.MetBelow m name) :=
  inferInstanceAs (Decidable (∃ k, u.knows k ∧ m ∈ u.classVariablePath k ∧
    ∃ b ∈ u.classVariablePath k, u.HasCell b name))

/-- Some path that goes along the chain of the module has a class variable in common with the
modules `ms`. -/
def CollideBelow (u : Universe) (m : ModuleId) (ms : List ModuleId) : Prop :=
  ∃ k, u.knows k ∧ m ∈ u.spine (u.seat k) ∧ u.Collide (u.classVariablePath k) ms

instance (u : Universe) (m : ModuleId) (ms : List ModuleId) : Decidable (u.CollideBelow m ms) :=
  inferInstanceAs (Decidable (∃ k, u.knows k ∧ m ∈ u.spine (u.seat k) ∧
    u.Collide (u.classVariablePath k) ms))

end Universe

/-- A move puts two modules that have a class variable on one path: it defines the variable above a
module that has it, brings modules along that have it, or makes a module that sees more than the one
that it is made for. -/
def Move.Splits (u : Universe) : Move → Prop
  | setClassVariable m name _ =>
    (u.immutable? m = none ∧ u.classVariableHolder? m name = none) ∧ u.MetBelow m name
  | includeModule m n => u.Mixable m n ∧ u.CollideBelow m (u.ancestors n)
  | prependModule m n => u.Mixable m n ∧ u.CollideBelow m (u.prependable n)
  | singletonClass m => (u.module m).singleton = none ∧ u.Collide (u.ancestors m) (u.ancestors m)
  | openRefinement n t => (u.Refinable n ∧ (u.module n).refinements.find? t = none) ∧
    u.Collide (u.ancestors t) (u.ancestors t)
  | _ => False

instance (u : Universe) : (mv : Move) → Decidable (mv.Splits u)
  | .setClassVariable m name _ => inferInstanceAs (Decidable
    ((u.immutable? m = none ∧ u.classVariableHolder? m name = none) ∧ u.MetBelow m name))
  | .includeModule m n =>
    inferInstanceAs (Decidable (u.Mixable m n ∧ u.CollideBelow m (u.ancestors n)))
  | .prependModule m n =>
    inferInstanceAs (Decidable (u.Mixable m n ∧ u.CollideBelow m (u.prependable n)))
  | .singletonClass m => inferInstanceAs (Decidable
    ((u.module m).singleton = none ∧ u.Collide (u.ancestors m) (u.ancestors m)))
  | .openRefinement n t => inferInstanceAs (Decidable
    ((u.Refinable n ∧ (u.module n).refinements.find? t = none) ∧
      u.Collide (u.ancestors t) (u.ancestors t)))
  | .newModule | .newClass _ | .copyModule _ | .objectSingletonClass _ | .newObject _
  | .writeVariable _ _ _ | .freezeModule _ | .sealModule _ | .addMethod _ _ | .removeMethod _ _
  | .setConstant _ _ _ _ | .removeConst _ _ | .privateConstants _ _ | .publicConstants _ _
  | .deprecateConstants _ _ | .registerAutoload _ _ _ | .markAutoload _ _ | .settleAutoload _ _
  | .removeClassVariable _ _ | .newCounter | .raiseCounter _ | .installLoader | .drawSerial
  | .report _ | .takeReports => inferInstanceAs (Decidable False)

namespace Universe

variable {u v : Universe} {mv : Move} {mvs : List Move} {a b k m n s y : ModuleId}
  {ms ns ms' ns' : List ModuleId} {name other : String} {x : Value}

/-- Some move of a run puts two modules that have a class variable on one path. -/
def SplitsIn (u : Universe) : List Move → Prop
  | [] => False
  | mv :: mvs => mv.Splits u ∨ (u.after mv).SplitsIn mvs

instance decidableSplitsIn (u : Universe) : (mvs : List Move) → Decidable (u.SplitsIn mvs)
  | [] => inferInstanceAs (Decidable False)
  | mv :: mvs =>
    have := decidableSplitsIn (u.after mv) mvs
    inferInstanceAs (Decidable (mv.Splits u ∨ (u.after mv).SplitsIn mvs))

/-! ### Collisions -/

theorem collide_iff : u.Collide ms ns ↔
    ∃ a ∈ ms, ∃ b ∈ ns, a ≠ b ∧ ∃ name, u.HasCell a name ∧ u.HasCell b name := by
  have hkeys (a : ModuleId) (name : String) :
      name ∈ (u.module a).classVariables.keys ↔ u.HasCell a name := by
    rw [Table.mem_keys_iff, HasCell, Option.isSome_iff_exists]
    rfl
  simp only [Collide, hkeys]

theorem oneCell_iff :
    u.OneCell ↔ ∀ k, ¬u.Collide (u.classVariablePath k) (u.classVariablePath k) := by
  constructor
  · intro h k hk
    obtain ⟨a, ha, b, hb, hne, name, hac, hbc⟩ := collide_iff.1 hk
    exact hne (h k name a ha b hb hac hbc)
  · intro h k name a ha b hb hac hbc
    by_contra hne
    exact h k (collide_iff.2 ⟨a, ha, b, hb, hne, name, hac, hbc⟩)

/-- Collisions stay where modules and cells do. -/
theorem Collide.mono (h : u.Collide ms ns) (hm : ∀ a ∈ ms, a ∈ ms') (hn : ∀ b ∈ ns, b ∈ ns')
    (hc : ∀ a name, u.HasCell a name → v.HasCell a name) : v.Collide ms' ns' := by
  obtain ⟨a, ha, b, hb, hne, name, hac, hbc⟩ := collide_iff.1 h
  exact collide_iff.2 ⟨a, hm a ha, b, hn b hb, hne, name, hc a name hac, hc b name hbc⟩

/-- What does not exist sees itself only. -/
theorem knows_of_mem_path (hw : u.WellFormed) (hm : u.knows m) (h : m ∈ u.classVariablePath k) :
    u.knows k := by
  by_contra hk
  exact hk (path_of_default (hw.module_stranger hk) h ▸ hm)

/-- A module whose seat is its own sees all its ancestors. -/
theorem ancestors_subset_path (h : u.seat k = k) : ∀ a ∈ u.ancestors k, a ∈ u.classVariablePath k :=
  fun _ ha => (mem_path_of_seat h).2 ha

/-! ### Cells that stay -/

/-- All tables of class variables are the same, and those of new modules are empty. -/
structure KeepsCells (u v : Universe) : Prop where
  tables : ∀ k, (v.module k).classVariables = (u.module k).classVariables
  strangers : ∀ k, ¬v.knows k → (u.module k).classVariables = .empty

theorem KeepsCells.frame {ps : List Part} (hp : .classVariables ∉ ps) :
    Frame ps (KeepsCells u) where
  neutral h hm hn _ _ _ _ :=
    ⟨fun k => by rw [module_congr hm, h.tables k], fun k hk =>
      h.strangers k fun hv => hk (knows_mono hn hv)⟩
  allocate kind chain v h := by
    have hb := bears_allocate kind chain v
    refine ⟨fun k => ?_, fun k hk => h.strangers k fun hv => hk ?_⟩
    · rcases hb.read k with ⟨rfl, he⟩ | ⟨-, he⟩ | he <;> rw [he]
      · exact (h.strangers _ (Nat.lt_irrefl _)).symm
      · exact h.tables k
      · exact h.tables k
    · rw [knows, hb.nextId]
      exact Nat.lt_succ_of_lt hv
  edit {v m f} h hf := by
    refine ⟨fun k => ?_, h.strangers⟩
    rw [module_modifyModule]
    split
    · next he => exact he ▸ (hf.classVariables hp).trans (he ▸ h.tables _)
    · exact h.tables k

/-- A move that does not write class variables leaves all cells alone. -/
theorem hasCell_after (hw : u.WellFormed) (hp : .classVariables ∉ mv.parts) (k : ModuleId)
    (name : String) : (u.after mv).HasCell k name ↔ u.HasCell k name := by
  have hkept : KeepsCells u (u.after mv) := (KeepsCells.frame hp).after
    ⟨fun _ => rfl, fun k hk => by rw [hw.module_stranger hk]; rfl⟩
  rw [HasCell, ownClassVariable, hkept.tables, HasCell, ownClassVariable]

/-- What does not exist has no cells. -/
theorem HasCell.knows (h : u.HasCell k name) (hw : u.WellFormed) : u.knows k := by
  by_contra hk
  rw [HasCell, ownClassVariable, hw.module_stranger hk] at h
  cases h

/-! ### Assignments and removals -/

/-- An assignment makes a cell where no module on the path has one, in the module itself. -/
theorem hasCell_setClassVariable (u : Universe) (m k : ModuleId) (name other : String) (x : Value) :
    (u.after (.setClassVariable m name x)).HasCell k other ↔ u.HasCell k other ∨
      (u.immutable? m = none ∧ u.classVariableHolder? m name = none) ∧ k = m ∧ other = name := by
  have hinserted (h : ModuleId) : (bindClassVariable h name x u).2.HasCell k other ↔
      u.HasCell k other ∨ k = h ∧ other = name := by
    rw [HasCell, ownClassVariable_insert, HasCell]
    split
    · next he => exact iff_of_true rfl (.inr he)
    · next he => exact (or_iff_left he).symm
  have hset := setClassVariable_apply u m name x
  rw [after, Move.run, Update.final, hset]
  cases u.immutable? m with
  | some e => simp
  | none =>
    cases hh : u.classVariableHolder? m name with
    | none => exact Iff.trans (hinserted m) (by simp)
    | some h =>
      have hcell : u.HasCell h name := by
        rw [HasCell]
        simpa using List.find?_some hh
      refine (hinserted h).trans ?_
      simp only [reduceCtorEq, and_false, false_and, or_false, or_iff_left_iff_imp]
      rintro ⟨rfl, rfl⟩
      exact hcell

theorem oneCell_assigned (hw : u.WellFormed) (h1 : u.OneCell) (hm : u.knows m) (name : String)
    (x : Value) : (u.after (.setClassVariable m name x)).OneCell ↔
      ¬(Move.setClassVariable m name x).Splits u := by
  have hretouch : Retouches _ u (u.after (.setClassVariable m name x)) :=
    retouches_after trivial id id
  have hpath := hretouch.classVariablePath
  have hcell (k : ModuleId) (other : String) := hasCell_setClassVariable u m k name other x
  constructor
  · rintro hv ⟨hnew, k, -, hmk, b, hb, hbc⟩
    have hmb : m = b := by
      refine hv k name m ?_ b ?_ ((hcell m name).2 (.inr ⟨hnew, rfl, rfl⟩))
        ((hcell b name).2 (.inl hbc))
      · rwa [hpath]
      · rwa [hpath]
    have hnone := classVariableHolder?_eq_none_iff.1 hnew.2 m (self_mem_path u m)
    rw [← hmb, HasCell, hnone] at hbc
    cases hbc
  · intro hno k other a ha b hb hac hbc
    rw [hpath] at ha hb
    have hsplit {c : ModuleId} (hmk : m ∈ u.classVariablePath k) (hc : c ∈ u.classVariablePath k)
        (hnew : u.immutable? m = none ∧ u.classVariableHolder? m name = none)
        (hcc : u.HasCell c name) : False :=
      hno ⟨hnew, k, knows_of_mem_path hw hm hmk, hmk, c, hc, hcc⟩
    rw [hcell] at hac hbc
    rcases hac with hac | ⟨hnew, rfl, rfl⟩
    · rcases hbc with hbc | ⟨hnew, rfl, rfl⟩
      · exact h1 k other a ha b hb hac hbc
      · exact (hsplit hb ha hnew hac).elim
    · rcases hbc with hbc | ⟨-, rfl, -⟩
      · exact (hsplit ha hb hnew hbc).elim
      · rfl

theorem hasCell_of_removeClassVariable
    (h : (u.after (.removeClassVariable m name)).HasCell k other) : u.HasCell k other := by
  let I (v : Universe) : Prop := v.HasCell k other → u.HasCell k other
  have hreport (e : Universe → Event) : Change.Keeps I (reportNow e) := fun _ h => h
  have hname : Update.Keeps I (checkClassVariableName m name) := by
    unfold checkClassVariableName
    split
    · exact Update.keeps_get_bind fun v h => h
    · exact Update.keeps_pure ()
  have hremoved : Update.Keeps I (removeClassVariable m name) := by
    refine Update.keeps_bind hname fun _ => Update.keeps_checked fun v hv => ?_
    cases v.ownClassVariable m name with
    | none => exact hv
    | some x =>
      have herased : I (v.modifyModule m fun r =>
          { r with classVariables := r.classVariables.erase name }) := by
        intro hk
        refine hv ?_
        rw [HasCell, ownClassVariable, module_modifyModule] at hk
        split at hk
        · next he =>
          rw [Table.find?_erase] at hk
          split at hk
          · cases hk
          · exact he ▸ hk
        · exact hk
      exact Update.keeps_bind (Update.keeps_lift (hreport _)) (fun _ => Update.keeps_pure x) _
        herased
  exact Update.keeps_discard hremoved u id h

theorem oneCell_removed (h1 : u.OneCell) (m : ModuleId) (name : String) :
    (u.after (.removeClassVariable m name)).OneCell := by
  have hretouch : Retouches _ u (u.after (.removeClassVariable m name)) :=
    retouches_after trivial id id
  have hpath := hretouch.classVariablePath
  intro k other a ha b hb hac hbc
  rw [hpath] at ha hb
  exact h1 k other a ha b hb (hasCell_of_removeClassVariable hac)
    (hasCell_of_removeClassVariable hbc)

/-! ### Mixing in -/

/-- Mixing in adds to the paths whose seats go along the chain that grows. -/
theorem mem_path_mixed (hkind : ∀ o, (v.module o).kind = (u.module o).kind)
    (hincludes : ∀ x k, v.includes x k = true ↔ u.includes x k = true ∨ m ∈ u.spine x ∧ k ∈ ms)
    (k a : ModuleId) : a ∈ v.classVariablePath k ↔
      a ∈ u.classVariablePath k ∨ m ∈ u.spine (u.seat k) ∧ a ∈ ms := by
  have hanc := hincludes (u.seat k) a
  rw [includes, List.contains_iff_mem, includes, List.contains_iff_mem] at hanc
  rw [mem_classVariablePath, seat_congr (hkind k), hanc, mem_classVariablePath, or_assoc]

/-- Modules that share no cells among themselves split a path when they share one with it. -/
theorem oneCell_mixed (hw : u.WellFormed) (h1 : u.OneCell) (hm : u.knows m)
    (hkind : ∀ o, (v.module o).kind = (u.module o).kind)
    (hincludes : ∀ x k, v.includes x k = true ↔ u.includes x k = true ∨ m ∈ u.spine x ∧ k ∈ ms)
    (hcell : ∀ k name, v.HasCell k name ↔ u.HasCell k name) (hms : ¬u.Collide ms ms) :
    v.OneCell ↔ ¬u.CollideBelow m ms := by
  have hpath := mem_path_mixed hkind hincludes
  constructor
  · rintro hv ⟨k, -, hmk, hc⟩
    exact oneCell_iff.1 hv k (hc.mono (fun a ha => (hpath k a).2 (.inl ha))
      (fun b hb => (hpath k b).2 (.inr ⟨hmk, hb⟩)) fun a name => (hcell a name).2)
  · intro hno k name a ha b hb hac hbc
    rw [hpath] at ha hb
    rw [hcell] at hac hbc
    have hsplit (hmk : m ∈ u.spine (u.seat k)) {a b : ModuleId} (ha : a ∈ u.classVariablePath k)
        (hb : b ∈ ms) (hac : u.HasCell a name) (hbc : u.HasCell b name) : a = b := by
      by_contra hne
      have hmp : m ∈ u.classVariablePath k :=
        mem_classVariablePath.2 (.inr (mem_ancestors_of_spine hmk))
      exact hno ⟨k, knows_of_mem_path hw hm hmp, hmk,
        collide_iff.2 ⟨a, ha, b, hb, hne, name, hac, hbc⟩⟩
    rcases ha with ha | ⟨hmk, ha⟩
    · rcases hb with hb | ⟨hmk, hb⟩
      · exact h1 k name a ha b hb hac hbc
      · exact hsplit hmk ha hb hac hbc
    · rcases hb with hb | ⟨-, hb⟩
      · exact (hsplit hmk hb ha hbc hac).symm
      · by_contra hne
        exact hms (collide_iff.2 ⟨a, ha, b, hb, hne, name, hac, hbc⟩)

/-- What a module that is mixed in brings along is on its path. -/
theorem not_collide_brought (h1 : u.OneCell) (h : u.Mixable m n)
    (hms : ∀ a ∈ ms, a ∈ u.ancestors n) : ¬u.Collide ms ms := by
  intro hc
  have hsub (a : ModuleId) (ha : a ∈ ms) : a ∈ u.classVariablePath n :=
    ancestors_subset_path (seat_of_not_isClass h.2.1) a (hms a ha)
  exact oneCell_iff.1 h1 n (hc.mono hsub hsub fun _ _ => id)

theorem oneCell_included (hw : u.WellFormed) (h1 : u.OneCell) (hm : u.knows m) (n : ModuleId) :
    (u.after (.includeModule m n)).OneCell ↔ ¬(Move.includeModule m n).Splits u := by
  by_cases h : u.Mixable m n
  · rw [oneCell_mixed hw h1 hm (rechains_include h).kind (includes_including hw hm h)
      (hasCell_after hw (by simp [Move.parts])) (not_collide_brought h1 h fun _ => id), Move.Splits,
      and_iff_right h]
  · rw [(after_of_not_mixable h).1]
    exact iff_of_true h1 fun hs => h hs.1

theorem oneCell_prepended (hw : u.WellFormed) (h1 : u.OneCell) (hm : u.knows m) (n : ModuleId) :
    (u.after (.prependModule m n)).OneCell ↔ ¬(Move.prependModule m n).Splits u := by
  by_cases h : u.Mixable m n
  · rw [oneCell_mixed hw h1 hm (rechains_prepend h).kind (includes_prepending h)
      (hasCell_after hw (by simp [Move.parts]))
      (not_collide_brought h1 h fun _ => prependable_subset_ancestors), Move.Splits,
      and_iff_right h]
  · rw [(after_of_not_mixable h).2]
    exact iff_of_true h1 fun hs => h hs.1

/-! ### New modules -/

/-- A path leads to what exists. -/
theorem knows_path (hw : u.WellFormed) (hs : u.Seated) (hk : u.knows k)
    (ha : a ∈ u.classVariablePath k) : u.knows a := by
  rcases mem_classVariablePath.1 ha with rfl | ha
  · exact hk
  · exact knows_ancestors hw (hs.knows_seat hk) ha

theorem Copied.hasCell_iff (h : Copied u v s k) (ha : a ≠ k) (name : String) :
    v.HasCell a name ↔ u.HasCell a name := by
  rw [HasCell, ownClassVariable, h.others a ha, HasCell, ownClassVariable]

/-- Who has a cell on the path of a copy stands for somebody who has it on that of the source. -/
theorem Copied.exists_source (h : Copied u v s k) (ha : Arises u)
    (hak : a ∈ v.classVariablePath k) (hac : v.HasCell a name) :
    ∃ c ∈ u.classVariablePath s, a = replacing s k c ∧ u.HasCell c name := by
  have hw := ha.reachable.wellFormed
  have hcopy : v.seat k = k := by
    refine seat_of_unattached ?_
    rw [Module.attached?, h.kind, ← Module.attached?, h.unattached]
  have hsource : u.seat s = s := seat_of_unattached (h.others s h.source_ne ▸ h.unattached)
  rw [mem_path_of_seat hcopy, h.ancestors_copy ha, ancestors_drift h.drifts hw h.known] at hak
  obtain ⟨c, hc, rfl⟩ := List.mem_map.1 hak
  refine ⟨c, ancestors_subset_path hsource c hc, rfl, ?_⟩
  by_cases hcs : c = s
  · rw [hcs, replacing_self, HasCell, ownClassVariable, h.classVariables] at hac
    rw [hcs]
    exact (h.hasCell_iff h.source_ne name).1 hac
  · rw [replacing_of_ne hcs] at hac
    exact (h.hasCell_iff (h.ne_of_knows (knows_ancestors hw h.known hc)) name).1 hac

/-- A copy has the cells of its source, with itself in the place of the source. -/
theorem oneCell_copied (ha : Arises u) (h1 : u.OneCell) (h : Copied u v s k) : v.OneCell := by
  have hw := ha.reachable.wellFormed
  intro j name a haj b hbj hac hbc
  by_cases hj : j = k
  · subst hj
    obtain ⟨c, hc, rfl, hcc⟩ := h.exists_source ha haj hac
    obtain ⟨d, hd, rfl, hdc⟩ := h.exists_source ha hbj hbc
    rw [h1 s name c hc d hd hcc hdc]
  · by_cases hu : u.knows j
    · rw [mem_path_drift h.drifts hw ha.seated hu] at haj hbj
      have hold {c : ModuleId} (hc : c ∈ u.classVariablePath j) : c ≠ k :=
        h.ne_of_knows (knows_path hw ha.seated hu hc)
      exact h1 j name a haj b hbj ((h.hasCell_iff (hold haj) name).1 hac)
        ((h.hasCell_iff (hold hbj) name).1 hbc)
    · have hblank : v.module j = default := (h.others j hj).trans (hw.module_stranger hu)
      rw [path_of_default hblank haj, path_of_default hblank hbj]

/-- A new module has no cells itself: those on its path are among the ancestors that it continues
into. -/
theorem mem_ancestors_of_risesFrom (h : Drifts u v) (hw : u.WellFormed) (hk : ¬u.knows k)
    (hx : u.knows n) (hrises : v.RisesFrom k n) (ha : a ∈ v.classVariablePath k)
    (hac : u.HasCell a name) : a ∈ u.ancestors n := by
  rw [← ancestors_drift h hw hx]
  refine ((hrises a).1 ha).resolve_left ?_
  rintro rfl
  exact hk (hac.knows hw)

/-- A new module splits its path when the move overlays a module whose ancestors share a cell. -/
theorem oneCell_born (ha : Arises u) (h1 : u.OneCell) (hk : mv.Known u) (hg : mv.Genuine u)
    (hm : ¬mv.Mixes) (hcopy : ∀ s, mv ≠ .copyModule s) (hp : .classVariables ∉ mv.parts) :
    (u.after mv).OneCell ↔
      ¬∃ y, mv.Overlays u y ∧ u.Collide (u.ancestors y) (u.ancestors y) := by
  have hw := ha.reachable.wellFormed
  have hdrifts := drifts_after hw hk hm
  have hcell : ∀ k name, (u.after mv).HasCell k name ↔ u.HasCell k name := hasCell_after hw hp
  constructor
  · rintro hv ⟨y, hy, hc⟩
    obtain ⟨s, hs⟩ := exists_risesFrom ha hk hg hy
    have hsub (a : ModuleId) (hay : a ∈ u.ancestors y) : a ∈ (u.after mv).classVariablePath s :=
      (hs a).2 (.inr ((ancestors_drift hdrifts hw (knows_of_overlays hy hk)).symm ▸ hay))
    exact oneCell_iff.1 hv s (hc.mono hsub hsub fun a name => (hcell a name).2)
  · intro hno k name a hak b hbk hac hbc
    rw [hcell] at hac hbc
    by_cases hu : u.knows k
    · rw [mem_path_drift hdrifts hw ha.seated hu] at hak hbk
      exact h1 k name a hak b hbk hac hbc
    · have hbehind {x c : ModuleId} (hx : u.knows x) (hrises : (u.after mv).RisesFrom k x)
          (hck : c ∈ (u.after mv).classVariablePath k) (hcc : u.HasCell c name) :
          c ∈ u.ancestors x := mem_ancestors_of_risesFrom hdrifts hw hu hx hrises hck hcc
      cases newPath_after ha hk hg hm hcopy hu with
      | alone h => rw [h a hak, h b hbk]
      | @behind x hx h hseat =>
        have hsub := ancestors_subset_path hseat
        exact h1 x name a (hsub a (hbehind hx h hak hac)) b (hsub b (hbehind hx h hbk hbc)) hac hbc
      | @overlaid x y hx h hy hxy =>
        by_contra hne
        exact hno ⟨y, hy, collide_iff.2 ⟨a, hxy a (hbehind hx h hak hac), b,
          hxy b (hbehind hx h hbk hbc), hne, name, hac, hbc⟩⟩

/-! ### Moves and runs -/

/-- Where every path has one cell of a name, a move leaves it so exactly when it does not split
one. -/
theorem oneCell_after_iff (ha : Arises u) (h1 : u.OneCell) (hk : mv.Known u) (hg : mv.Genuine u) :
    (u.after mv).OneCell ↔ ¬mv.Splits u := by
  have hw := ha.reachable.wellFormed
  cases mv with
  | setClassVariable m name x => exact oneCell_assigned hw h1 hk.1 name x
  | removeClassVariable m name => exact iff_of_true (oneCell_removed h1 m name) id
  | includeModule m n => exact oneCell_included hw h1 hk.1 n
  | prependModule m n => exact oneCell_prepended hw h1 hk.1 n
  | copyModule s =>
    refine iff_of_true ?_ id
    cases h : copyModule s u with
    | ok k v =>
      have hv : u.after (.copyModule s) = v := by
        rw [after, Move.run, Update.final_discard, Update.final, h]
      rw [hv]
      exact oneCell_copied ha h1 (copied_of_copyModule hw hk h)
    | error e v => rwa [after_copyModule_of_error h]
  | singletonClass m =>
    rw [oneCell_born ha h1 hk hg id (fun s h => by cases h) (by simp [Move.parts])]
    simp [Move.Splits, Move.Overlays, and_assoc]
  | openRefinement n t =>
    rw [oneCell_born ha h1 hk hg id (fun s h => by cases h) (by simp [Move.parts])]
    simp [Move.Splits, Move.Overlays, and_assoc]
  | _ =>
    rw [oneCell_born ha h1 hk hg id (fun s h => by cases h) (by simp [Move.parts])]
    refine iff_of_true ?_ id
    rintro ⟨y, hy, -⟩
    exact hy

theorem oneCell_create (options : Options) : (create options).OneCell := by
  intro k name a _ b _ hac _
  have hnone : (create options).ownClassVariable a name = none := by
    rw [ownClassVariable]
    rcases module_create options a with hr | ⟨e, -, -, hr⟩ <;> rw [hr]
    · rfl
    · unfold coreRecord
      split <;> rfl
  rw [HasCell, hnone] at hac
  cases hac

/-- Along a run, every path has one cell of a name exactly when no move splits one. -/
theorem oneCell_along_iff (ha : Arises u) (h1 : u.OneCell) (hg : u.AllGenuine mvs) :
    (∀ pre, pre <+: mvs → (u.afterAll pre).OneCell) ↔ ¬u.SplitsIn mvs := by
  induction mvs generalizing u with
  | nil =>
    refine iff_of_true (fun pre hpre => ?_) id
    rw [List.prefix_nil.1 hpre]
    exact h1
  | cons mv mvs ih =>
    have hstep := oneCell_after_iff ha h1 hg.1 hg.2.1
    have hrest (h : (u.after mv).OneCell) := ih (ha.after hg.1 hg.2.1) h hg.2.2
    rw [SplitsIn, not_or, ← hstep]
    constructor
    · intro h
      have hfirst : (u.after mv).OneCell := h [mv] ⟨mvs, rfl⟩
      exact ⟨hfirst, (hrest hfirst).1 fun pre hpre =>
        h (mv :: pre) (List.cons_prefix_cons.2 ⟨rfl, hpre⟩)⟩
    · rintro ⟨hfirst, hno⟩ pre hpre
      rcases List.prefix_cons_iff.1 hpre with rfl | ⟨rest, rfl, hr⟩
      · exact h1
      · exact (hrest hfirst).2 hno rest hr

/-- Throughout a run, a class variable lives in at most one module of every path, exactly when no
assignment defines it above a module that has it, no module that is mixed in brings another one
with it along, and no singleton class or refinement is made that sees more of them than what it
is made for. -/
theorem oneCell_iff_not_splits (options : Options) (mvs : List Move)
    (hg : (create options).AllGenuine mvs) :
    (∀ pre, pre <+: mvs → ((create options).afterAll pre).OneCell) ↔
      ¬(create options).SplitsIn mvs :=
  oneCell_along_iff ⟨options, [], trivial, rfl⟩ (oneCell_create options) hg

/-- A class variable that the superclass has is assigned from below, where a module and a singleton
class join the paths. -/
theorem oneCell_of_early_definition :
    let mvs : List Move := [.newClass none, .newClass (some ⟨12⟩), .newModule,
      .setClassVariable ⟨12⟩ "@@v" (.int 1), .setClassVariable ⟨13⟩ "@@v" (.int 2),
      .setClassVariable ⟨14⟩ "@@w" (.int 3), .includeModule ⟨13⟩ ⟨14⟩, .singletonClass ⟨13⟩]
    (create {}).AllGenuine mvs ∧ ((create {}).afterAll mvs).OneCell := by
  intro mvs
  have hg : (create {}).AllGenuine mvs :=
    ⟨fun _ h => (nomatch h), trivial, by rintro _ ⟨⟩; decide +kernel, trivial, trivial, trivial,
      ⟨by decide +kernel, trivial⟩, trivial, ⟨by decide +kernel, trivial⟩, trivial,
      ⟨by decide +kernel, trivial⟩, trivial, ⟨by decide +kernel, by decide +kernel⟩, trivial,
      by show Universe.knows _ _; decide +kernel, trivial, trivial⟩
  exact ⟨hg, (oneCell_iff_not_splits {} mvs hg).2 (by decide +kernel) mvs List.prefix_rfl⟩

/-- A variable that a subclass has is defined in the superclass, too: the superclass does not see
the first one. -/
theorem not_oneCell_of_late_definition :
    ∃ mvs, (create {}).AllGenuine mvs ∧ (create {}).allSucceed mvs = true ∧
      ¬((create {}).afterAll mvs).OneCell ∧
      ((create {}).afterAll mvs).classVariablePath ⟨13⟩ =
        [⟨13⟩, ⟨12⟩, Core.object, Core.kernel, Core.basicObject] ∧
      ((create {}).afterAll mvs).ownClassVariable ⟨13⟩ "@@v" = some (.int 1) ∧
      ((create {}).afterAll mvs).ownClassVariable ⟨12⟩ "@@v" = some (.int 2) := by
  refine ⟨[.newClass none, .newClass (some ⟨12⟩), .setClassVariable ⟨13⟩ "@@v" (.int 1),
    .setClassVariable ⟨12⟩ "@@v" (.int 2)], ?_, by decide +kernel, fun h => ?_, by decide +kernel⟩
  · exact ⟨fun _ h => (nomatch h), trivial, by rintro _ ⟨⟩; decide +kernel, trivial,
      ⟨by decide +kernel, trivial⟩, trivial, ⟨by decide +kernel, trivial⟩, trivial, trivial⟩
  · have hsame := h ⟨13⟩ "@@v" ⟨12⟩ (by decide +kernel) ⟨13⟩ (by decide +kernel)
      (by decide +kernel) (by decide +kernel)
    cases hsame

end Universe

end ObjectModel
