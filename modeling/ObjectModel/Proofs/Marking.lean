import Mathlib.Data.List.Nodup
import Mathlib.Logic.Relation
import ObjectModel.Proofs.Reloading

/-!
# Marks of autoloads

A thread that runs the loader for a constant, or that holds a guard for it, has marked the autoload
that the constant waits for.  Nothing else sets a mark, and the mark goes when the loader comes
back, whatever it comes back with.

* `Marking`, `Marking.Step`: a universe with the autoloads that are worked on, and what may happen
  to them;
* `Marking.Disciplined`, `Disciplined.steps`: the marks that are set are those of the autoloads that
  are worked on;
* `GoesBy`: an action goes by steps, and works on nothing any more when it ends;
* `goesBy_bind`, `goesBy_guardAutoload` and their kin: what goes by steps if its parts do;
* `Issued`, `goesBy_constantValue`: constants that code may have come by, and reading them.
-/

namespace ObjectModel

open Universe

variable {σ α β : Type}

/-- A universe, and the autoloads that are worked on: some thread runs the loader for them or holds
a guard. -/
structure Marking where
  now : Universe
  active : List (AutoloadId × ThreadId) := []

namespace Marking

/-- What may happen: a move that leaves the marks alone, or the begin or the end of the work on an
autoload that was registered at some time, by any thread. -/
inductive Step : Marking → Marking → Prop
  | move {s : Marking} {mv : Move} (known : mv.Known s.now) (genuine : mv.Genuine s.now)
    (free : ¬mv.Marks) : Step s { s with now := s.now.after mv }
  | start {s : Marking} {a : AutoloadId} (t : ThreadId) (issued : a.num < s.now.nextSerial)
    (idle : (s.now.autoload a).isLoading = false) :
    Step s { now := s.now.after (.markAutoload a (some t)), active := (a, t) :: s.active }
  | stop {s : Marking} {a : AutoloadId} {t : ThreadId} (working : (a, t) ∈ s.active) :
    Step s { now := s.now.after (.markAutoload a none), active := s.active.erase (a, t) }

/-- Steps lead from one state to another. -/
abbrev Steps : Marking → Marking → Prop := Relation.ReflTransGen Step

/-- The work that was begun last may end. -/
theorem Step.stop_head (u : Universe) (a : AutoloadId) (t : ThreadId)
    (active : List (AutoloadId × ThreadId)) :
    Step ⟨u, (a, t) :: active⟩ ⟨u.after (.markAutoload a none), active⟩ := by
  have hstop : Step ⟨u, (a, t) :: active⟩ _ := .stop List.mem_cons_self
  rwa [List.erase_cons_head] at hstop

/-- The marks that are set are those of the autoloads that are worked on. -/
structure Disciplined (s : Marking) : Prop where
  arises : Arises s.now
  marked : ∀ a t, (s.now.autoload a).thread = some t ↔ (a, t) ∈ s.active
  once : (s.active.map Prod.fst).Nodup
  issued : ∀ e ∈ s.active, e.1.num < s.now.nextSerial

variable {s s' : Marking} {a b : AutoloadId} {t : ThreadId} {mv : Move}

theorem disciplined_create (options : Options) : Disciplined { now := create options } where
  arises := ⟨options, [], trivial, rfl⟩
  marked _ _ := by
    constructor <;> intro h <;> cases h
  once := .nil
  issued := List.forall_mem_nil _

namespace Disciplined

theorem move (h : s.Disciplined) (hk : mv.Known s.now) (hg : mv.Genuine s.now)
    (hm : ¬mv.Marks) : Disciplined { s with now := s.now.after mv } where
  arises := h.arises.after hk hg
  marked a t := by
    rcases thread_after hk hm a with he | ⟨rfl, he⟩
    · rw [he]
      exact h.marked a t
    · -- the autoload is new, so that nobody works on it
      have hno : (⟨s.now.nextSerial⟩, t) ∉ s.active :=
        fun hmem => Nat.lt_irrefl _ (h.issued _ hmem)
      simp [he, hno]
  once := h.once
  issued e he :=
    Nat.lt_of_lt_of_le (h.issued e he) (nextSerial_le_after h.arises.reachable.wellFormed hk hg)

theorem start (h : s.Disciplined) (t : ThreadId) (hissued : a.num < s.now.nextSerial)
    (hidle : (s.now.autoload a).isLoading = false) :
    Disciplined
      { now := s.now.after (.markAutoload a (some t)), active := (a, t) :: s.active } := by
  have hfree (t' : ThreadId) : (a, t') ∉ s.active := by
    intro hmem
    rw [Autoload.isLoading, (h.marked a t').2 hmem] at hidle
    cases hidle
  refine ⟨h.arises.marked a (some t), fun b t' => ?_, ?_, ?_⟩
  · rw [autoload_after_markAutoload, List.mem_cons, Prod.mk.injEq]
    by_cases he : a = b
    · subst he
      simp [hfree, eq_comm]
    · simp [he, Ne.symm he, h.marked b t']
  · refine List.nodup_cons.2 ⟨fun hmem => ?_, h.once⟩
    obtain ⟨⟨b, t'⟩, hmem', he⟩ := List.mem_map.1 hmem
    exact hfree t' ((show b = a from he) ▸ hmem')
  · exact List.forall_mem_cons.2 ⟨hissued, h.issued⟩

theorem stop (h : s.Disciplined) (hmem : (a, t) ∈ s.active) :
    Disciplined { now := s.now.after (.markAutoload a none), active := s.active.erase (a, t) } := by
  refine ⟨h.arises.marked a none, fun b t' => ?_, ?_, ?_⟩
  · rw [autoload_after_markAutoload, (List.Nodup.of_map _ h.once).mem_erase_iff]
    by_cases he : a = b
    · subst he
      -- no other thread works on it
      have hone : (a, t') ∈ s.active → t' = t := fun hmem' =>
        Option.some.inj (((h.marked a t').2 hmem').symm.trans ((h.marked a t).2 hmem))
      simpa using fun hne hmem' => hne (hone hmem')
    · simp [he, Ne.symm he, h.marked b t']
  · exact h.once.sublist ((List.erase_sublist).map Prod.fst)
  · exact fun e he => h.issued e (List.mem_of_mem_erase he)

theorem step (h : s.Disciplined) (hs : Step s s') : s'.Disciplined := by
  cases hs with
  | move known genuine free => exact h.move known genuine free
  | start t issued idle => exact h.start t issued idle
  | stop working => exact h.stop working

/-- At every point of every run, the marks that are set are those of the autoloads that are worked
on. -/
theorem steps (h : s.Disciplined) (hs : Steps s s') : s'.Disciplined := by
  induction hs with
  | refl => exact h
  | tail _ hstep ih => exact ih.step hstep

/-- Where the same autoloads are worked on, the same marks are set. -/
theorem thread_eq (h : s.Disciplined) (h' : s'.Disciplined) (he : s'.active = s.active)
    (a : AutoloadId) : (s'.now.autoload a).thread = (s.now.autoload a).thread :=
  Option.ext fun t => by rw [h'.marked, h.marked, he]

end Disciplined

theorem Step.leads (h : Step s s') : Leads s.now s'.now := by
  cases h with
  | move known => exact .of_move known
  | start | stop => exact @Leads.of_move s.now (.markAutoload _ _) trivial

theorem Steps.leads (h : Steps s s') : Leads s.now s'.now := by
  induction h with
  | refl => exact .refl _
  | tail _ hstep ih => exact ih.trans hstep.leads

end Marking

/-! ### Actions -/

open Marking

variable {x : Act σ α} {f : α → Act σ β} {w w' : World σ} {a : AutoloadId} {mv : Move}

/-- An action goes by steps, whether it fails or not, and all work that it begins on autoloads has
ended when it ends. -/
def GoesBy (x : Act σ α) (w : World σ) : Prop :=
  ∀ active, Disciplined ⟨w.model, active⟩ →
    Steps ⟨w.model, active⟩ ⟨(x.final w).model, active⟩

theorem GoesBy.steps_of_ok {y : α} {active : List (AutoloadId × ThreadId)} (h : GoesBy x w)
    (hd : Disciplined ⟨w.model, active⟩) (hrun : x w = .ok y w') :
    Steps ⟨w.model, active⟩ ⟨w'.model, active⟩ := by
  have hsteps := h active hd
  rwa [Act.final, hrun] at hsteps

theorem GoesBy.steps_of_error {e : Failure} {active : List (AutoloadId × ThreadId)}
    (h : GoesBy x w) (hd : Disciplined ⟨w.model, active⟩) (hrun : x w = .error e w') :
    Steps ⟨w.model, active⟩ ⟨w'.model, active⟩ := by
  have hsteps := h active hd
  rwa [Act.final, hrun] at hsteps

/-- Only universes that arise matter. -/
theorem goesBy_of_arises (h : Arises w.model → GoesBy x w) : GoesBy x w :=
  fun active hd => h hd.arises active hd

theorem goesBy_of_same (h : (x.final w).model = w.model) : GoesBy x w := by
  intro active _
  rw [h]

theorem goesBy_of_move (hk : mv.Known w.model) (hg : mv.Genuine w.model) (hm : ¬mv.Marks)
    (h : (x.final w).model = w.model.after mv) : GoesBy x w := by
  intro active _
  rw [h]
  exact .single (.move hk hg hm)

theorem goesBy_congr {y : Act σ α} (h : x w = y w) (hy : GoesBy y w) : GoesBy x w := by
  intro active hd
  have hrun := hy active hd
  rwa [Act.final, ← h] at hrun

theorem goesBy_report (e : Event) (w : World σ) : GoesBy (report e : Act σ Unit) w :=
  @goesBy_of_move _ _ _ _ (.report e) trivial trivial id rfl

theorem steps_settleAutoload {u : Universe} {active : List (AutoloadId × ThreadId)}
    (h : Disciplined ⟨u, active⟩) (n : ModuleId) (name : String) :
    Steps ⟨u, active⟩ ⟨(settleAutoload n name u).2, active⟩ := by
  by_cases hn : u.knows n
  · have hstep : Step ⟨u, active⟩ ⟨u.after (.settleAutoload n name), active⟩ :=
      .move hn trivial id
    rw [after_settleAutoload] at hstep
    exact .single hstep
  · rw [settleAutoload_of_not_knows h.arises.reachable.wellFormed hn]

theorem goesBy_bind (hx : GoesBy x w)
    (hf : ∀ a w', x w = .ok a w' → Leads w.model w'.model → GoesBy (f a) w') :
    GoesBy (x >>= f) w := by
  intro active h
  rw [Act.final]
  cases hrun : x w with
  | error e w₁ =>
    rw [Act.bind_of_error hrun]
    exact hx.steps_of_error h hrun
  | ok a w₁ =>
    have hfirst := hx.steps_of_ok h hrun
    rw [Act.bind_of_ok hrun]
    exact hfirst.trans (hf a w₁ hrun hfirst.leads active (h.steps hfirst))

/-- The mark that is set for an action goes when it ends. -/
theorem goesBy_guardAutoload (hissued : a.num < w.model.nextSerial)
    (hidle : (w.model.autoload a).isLoading = false)
    (hx : GoesBy x (markAutoload a (some w.thread) w)) : GoesBy (guardAutoload a x) w := by
  intro active h
  have hstart : Step ⟨w.model, active⟩
      ⟨w.model.after (.markAutoload a (some w.thread)), (a, w.thread) :: active⟩ :=
    .start w.thread hissued hidle
  have hinner := hx _ (h.step hstart)
  have hfinal : ((guardAutoload a x).final w).model =
      (x.final (markAutoload a (some w.thread) w)).model.after (.markAutoload a none) := by
    rw [Act.final, guardAutoload, Act.ensuring, Act.final]
    cases x (markAutoload a (some w.thread) w) <;> rfl
  rw [hfinal]
  exact (Relation.ReflTransGen.single hstart).trans
    (hinner.tail (.stop_head _ a w.thread active))

/-! ### Reading a constant -/

variable {require : String → Act σ Bool} {n : ModuleId} {c : Constant}
  {active : List (AutoloadId × ThreadId)}

/-- A constant that code may have come by: the module that declares it exists, and the autoload
that it waits for was registered. -/
structure Universe.Issued (u : Universe) (c : Constant) : Prop where
  declaring : u.knows c.declaringModule
  registered : ∀ a, c.autoload? = some a → a.num < u.nextSerial

theorem Universe.Issued.of_reported {u v : Universe} (hc : u.Issued c) (h : u.Reported v) :
    v.Issued c := by
  refine ⟨(h.knows _).2 hc.declaring, ?_⟩
  rw [h]
  exact hc.registered

/-- What is told of a constant that is read changes no marks. -/
theorem steps_noting (m : ModuleId) (c : Constant) (w : World σ)
    (active : List (AutoloadId × ThreadId)) :
    Steps ⟨w.model, active⟩ ⟨(noting m c w).model, active⟩ := by
  unfold noting
  split
  · exact .single (@Step.move _ (.report _) trivial trivial id)
  · exact .refl

/-- Wherever the loader is entered later on, it goes by steps. -/
def Loads (require : String → Act σ Bool) (w : World σ) : Prop :=
  ∀ feature w', Leads w.model w'.model → GoesBy (require feature) w'

theorem Loads.later (h : Loads require w) (hl : Leads w.model w'.model) : Loads require w' :=
  fun feature w'' hl' => h feature w'' (hl.trans hl')

/-- Where the loader is entered, it is at work. -/
theorem steps_entering (n : ModuleId) (name : String) (hissued : a.num < w.model.nextSerial)
    (hidle : (w.model.autoload a).isLoading = false) (active : List (AutoloadId × ThreadId)) :
    Steps ⟨w.model, active⟩ ⟨(entering n name a w).model, (a, w.thread) :: active⟩ := by
  have hstart : Step ⟨w.model, active⟩
      ⟨w.model.after (.markAutoload a (some w.thread)), (a, w.thread) :: active⟩ :=
    .start w.thread hissued hidle
  exact (Relation.ReflTransGen.single hstart).tail
    (@Step.move _ (.report (.autoloading (w.model.constantName n name)
      (w.model.autoload a).feature)) trivial trivial id)

theorem goesBy_loadFeature (hr : Loads require w) (n : ModuleId) (name : String)
    (hissued : a.num < w.model.nextSerial) (hidle : (w.model.autoload a).isLoading = false) :
    GoesBy (loadFeature require n name a) w := by
  intro active h
  have hentered := steps_entering n name hissued hidle active
  have hworking := h.steps hentered
  have hrun := hr (w.model.autoload a).feature _ hentered.leads _ hworking
  -- the mark is dropped on both ways out
  have hdrop (v : Universe) := Step.stop_head v a w.thread active
  refine hentered.trans (hrun.trans ?_)
  have hdone := hworking.steps hrun
  rw [Act.final] at hdone ⊢
  rw [Act.final, loadFeature_apply]
  cases hrequire : require (w.model.autoload a).feature (entering n name a w) with
  | error f w₁ => exact .single (hdrop w₁.model)
  | ok b w₁ =>
    rw [hrequire] at hdone
    let last : Event := .autoloaded (w.model.constantName n name)
    have htold : Step ⟨w₁.model, (a, w.thread) :: active⟩
        ⟨(report last w₁.model).2, (a, w.thread) :: active⟩ :=
      @Step.move _ (.report last) trivial trivial id
    have hleft := (Relation.ReflTransGen.single htold).tail (hdrop _)
    exact hleft.trans (steps_settleAutoload (hdone.steps hleft) n name)

theorem goesBy_resolveAutoload (hr : Loads require w) (n : ModuleId) (name : String)
    (hissued : ∀ a, c.autoload? = some a → a.num < w.model.nextSerial) :
    GoesBy (resolveAutoload require n name c) w := by
  cases ha : c.autoload? with
  | none =>
    refine goesBy_of_same ?_
    rw [Act.final, resolveAutoload, ha]
    rfl
  | some a =>
    have hrun := resolveAutoload_apply require n name ha w
    split at hrun
    · exact goesBy_of_same (by rw [Act.final, hrun])
    · split at hrun
      · split at hrun
        · refine goesBy_congr (y := fun w => .ok _ { w with model := (report
            (.autoloadElsewhere (w.model.constantName n name)) w.model).2 }) hrun ?_
          exact goesBy_report _ w
        · next hidle =>
          exact goesBy_congr hrun
            (goesBy_loadFeature hr n name (hissued a ha) (eq_false_of_ne_true hidle))
      · refine goesBy_congr (y := do
          report (.noFeatureLoader (w.model.constantName n name)); settleAutoload n name) hrun ?_
        exact goesBy_bind (goesBy_report _ w) fun _ w₁ _ _ active h =>
          steps_settleAutoload h n name

theorem goesBy_constantValue (hr : Loads require w) (m : ModuleId) (hc : w.model.Issued c) :
    GoesBy (constantValue require m c) w := by
  intro active h
  have hnoted := steps_noting m c w active
  have hissued := hc.of_reported (reported_noting m c w).model
  have hresolved : GoesBy (resolveAutoload require (w.holder m c) c.name c) (noting m c w) :=
    goesBy_resolveAutoload (hr.later hnoted.leads) _ c.name hissued.registered
  have hrun := constantValue_eq require m c w
  split at hrun
  · have hread := goesBy_bind hresolved fun x w' _ _ =>
      goesBy_of_same (x := (pure (x.bind Constant.value?) : Act σ (Option Value))) rfl
    have hlast := hread active (h.steps hnoted)
    rw [Act.final] at hlast ⊢
    rw [hrun]
    exact hnoted.trans hlast
  · rw [Act.final, hrun]
    exact hnoted

end ObjectModel
