import ObjectModel.Proofs.Framing
import ObjectModel.Proofs.Search

/-!
# Constants that moves leave alone

What a module binds to a name changes only by moves that are about the module and the name.  All
others leave the binding alone, and a loader that was installed stays.

* `Move.Writes`: the moves that are about a constant of a module;
* `Retains`: the constant of a module is as given, and there is a loader;
* `retains_after`, `retains_afterAll`: moves and runs that write to other constants only.
-/

namespace ObjectModel

/-- A move is about the constant of a module. -/
def Move.Writes (m : ModuleId) (name : String) : Move → Prop
  | setConstant n other _ _ | removeConst n other | registerAutoload n other _
  | settleAutoload n other => n = m ∧ other = name
  | privateConstants n names | publicConstants n names | deprecateConstants n names =>
    n = m ∧ name ∈ names
  | _ => False

namespace Universe

variable {u v w : Universe} {m n : ModuleId} {name other : String} {x : Option Constant}

/-- A module that exists binds a name to this, and there is a loader. -/
structure Retains (m : ModuleId) (name : String) (x : Option Constant) (v : Universe) : Prop where
  known : v.knows m
  constant : v.ownConstant m name = x
  hasLoader : v.hasLoader = true

namespace Retains

theorem neutral (h : Retains m name x v) (hm : w.modules = v.modules) (hn : w.nextId = v.nextId)
    (hl : w.hasLoader = v.hasLoader) : Retains m name x w where
  known := by
    rw [knows, hn]
    exact h.known
  constant := by
    rw [ownConstant, module_congr hm]
    exact h.constant
  hasLoader := hl.trans h.hasLoader

/-- A change of one record, apart from the constant. -/
theorem edit (h : Retains m name x v) {f : Module → Module}
    (hf : n = m → (f (v.module n)).constants.find? name = (v.module n).constants.find? name) :
    Retains m name x (v.modifyModule n f) where
  known := h.known
  constant := by
    rw [ownConstant, module_modifyModule]
    split
    · next he => exact he ▸ (hf he).trans (he ▸ h.constant)
    · exact h.constant
  hasLoader := h.hasLoader

/-! ### Building blocks -/

theorem keeps_reportNow (e : Universe → Event) : Change.Keeps (Retains m name x) (reportNow e) :=
  fun _ h => h.neutral rfl rfl rfl

theorem keeps_changeModule {f : Module → Module}
    (hf : n = m → ∀ r, (f r).constants.find? name = r.constants.find? name) :
    Change.Keeps (Retains m name x) (changeModule n f) :=
  fun _ h => h.edit fun he => hf he _

/-- A change of a table that leaves the name alone if it is the table in question. -/
theorem keeps_changeConstants {f : Table String Constant → Table String Constant}
    (hf : n = m → ∀ t, (f t).find? name = t.find? name) :
    Change.Keeps (Retains m name x) (changeConstants n f) :=
  keeps_changeModule fun he _ => hf he _

/-- One constant is stored, under another name or in another module. -/
theorem keeps_insert (hne : ¬(n = m ∧ other = name)) (c : Constant) :
    Change.Keeps (Retains m name x) (changeConstants n (·.insert other c)) :=
  keeps_changeConstants fun hn t => Table.find?_insert_of_ne t (fun ho => hne ⟨hn, ho⟩) c

/-- New records are those of other modules. -/
theorem keeps_allocate (kind : ModuleKind) (chain : Chain) :
    Change.Keeps (Retains m name x) (allocate kind chain) := by
  refine fun v h => ⟨knows_mono (Nat.le_succ _) h.known, ?_, h.hasLoader⟩
  rw [ownConstant, module_allocate kind chain h.known]
  exact h.constant

/-- A constant is retained by whatever leaves constants and the loader alone. -/
theorem frame {ps : List Part} (hc : .constants ∉ ps) (hl : .loader ∉ ps) :
    Frame ps (Retains m name x) where
  neutral {v w} h hm hn _ _ hload _ := by
    refine ⟨knows_mono hn h.known, ?_, (hload hl).trans h.hasLoader⟩
    rw [ownConstant, module_congr hm]
    exact h.constant
  allocate := keeps_allocate
  edit h hf := h.edit fun _ => congrArg (·.find? name) (hf.constants hc)

/-! ### Operations on constants -/

theorem keeps_removeConst (hne : ¬(n = m ∧ other = name)) :
    Update.Keeps (Retains m name x) (removeConst n other) := by
  refine Update.keeps_bind (Stems.keeps_checkConstantName other) fun _ =>
    Update.keeps_checked fun v h => ?_
  have herased : Change.Keeps (Retains m name x) (changeConstants n (·.erase other)) :=
    keeps_changeConstants fun hn t => Table.find?_erase_of_ne t fun ho => hne ⟨hn, ho⟩
  refine Update.keeps_bind (Update.keeps_lift herased) (fun _ => ?_) v h
  cases v.ownConstant n other with
  | none => exact Update.keeps_throw _
  | some c =>
    exact Update.keeps_bind (Update.keeps_lift (keeps_reportNow _)) fun _ => Update.keeps_pure _

theorem keeps_updateConstants {names : List String} (hne : ¬(n = m ∧ name ∈ names))
    (f : Constant → Constant) : Update.Keeps (Retains m name x) (updateConstants n names f) := by
  refine Update.keeps_bind (Update.keeps_checkMutable n) fun _ =>
    Update.keeps_forM fun other ho => ?_
  refine Update.keeps_bind (Stems.keeps_checkConstantName other) fun _ => ?_
  refine Update.keeps_get_bind fun v h => ?_
  cases v.ownConstant n other with
  | none => exact keeps_changeConstants (fun _ _ => rfl) v h
  | some c =>
    have hother : ¬(n = m ∧ other = name) := fun he => hne ⟨he.1, he.2 ▸ ho⟩
    exact keeps_insert hother (f c) v h

theorem keeps_setConstant (hne : ¬(n = m ∧ other = name)) (y : Value)
    (source : Option SourceLocation) :
    Update.Keeps (Retains m name x) (setConstant n other y source) := by
  refine Update.keeps_checked fun v h => ?_
  refine Update.keeps_bind (Update.keeps_lift (keeps_insert hne _)) (fun _ => ?_) v h
  cases y with
  | module child =>
    have hname : Frame [.name] (Retains m name x) := frame (by simp) (by simp)
    exact Update.keeps_reported keeps_reportNow fun w hw => hname.adopt (.head _) hw n other child
  | nil | bool | int | symbol | string | object =>
    exact Update.keeps_reported keeps_reportNow (Update.keeps_pure _)

theorem keeps_registerAutoload (hne : ¬(n = m ∧ other = name)) (feature : String) :
    Update.Keeps (Retains m name x) (registerAutoload n other feature) := by
  refine Update.keeps_bind (Stems.keeps_checkConstantName other) fun _ =>
    Update.keeps_guard fun _ => Update.keeps_checked fun v h => ?_
  have hmade : Change.Keeps (Retains m name x) (allocateAutoload feature) :=
    fun w hw => hw.neutral rfl rfl rfl
  refine Update.keeps_ite
    (fun _ => Update.keeps_lift (keeps_changeConstants fun _ _ => rfl)) (fun _ => ?_) v h
  exact Update.keeps_bind (Update.keeps_lift hmade) fun a => Update.keeps_bind
    (Update.keeps_lift (keeps_insert hne _)) fun _ => Update.keeps_lift (keeps_reportNow _)

theorem keeps_settleAutoload (hne : ¬(n = m ∧ other = name)) :
    Change.Keeps (Retains m name x) (settleAutoload n other) := by
  refine Change.keeps_get_bind fun v h => ?_
  cases v.ownConstant n other with
  | none => exact h
  | some c =>
    obtain ⟨declaring, own, binding⟩ := c
    cases binding with
    | value _ | undefined => exact h
    | autoload a => exact keeps_insert hne _ v h

/-- The copy is another module. -/
theorem keeps_copyRecord (source : ModuleId) (r : Module) :
    Update.Keeps (Retains m name x) (copyRecord source r) := by
  intro v h
  have hmade := keeps_allocate r.kind r.chain v h
  have hne : (allocate r.kind r.chain v).1 ≠ m := by
    rintro rfl
    exact Nat.lt_irrefl _ h.known
  unfold copyRecord
  rw [Update.final_lift_bind]
  refine Update.keeps_bind (Update.keeps_lift fun w hw => ?_) (fun _ => ?_) _ hmade
  · exact hw.neutral rfl rfl rfl
  · refine Update.keeps_bind (Update.keeps_lift ?_) fun _ => ?_
    · exact keeps_changeModule fun he => absurd he hne
    · exact Update.keeps_bind (Update.keeps_lift (keeps_reportNow _)) fun _ => Update.keeps_pure _

theorem keeps_copyModule (source : ModuleId) :
    Update.Keeps (Retains m name x) (copyModule source) := by
  unfold copyModule
  refine Update.keeps_guard fun _ => Update.keeps_get_bind fun v h => ?_
  have hcopy : Retains m name x (Update.final (copyRecord source (v.module source)) v) :=
    keeps_copyRecord source _ v h
  unfold copyRecord at hcopy
  generalize v.module source = r at hcopy
  obtain ⟨kind⟩ := r
  cases kind with
  | plain => exact hcopy
  | refinement _ _ => exact h
  | cls attached =>
    cases attached with
    | none => exact hcopy
    | some _ => exact h

end Retains

/-! ### Moves -/

/-- A move that is not about the constant of a module leaves it alone. -/
theorem retains_after (h : Retains m name x u) {mv : Move} (hw : ¬mv.Writes m name) :
    Retains m name x (u.after mv) := by
  cases mv with
  | copyModule n => exact Update.keeps_discard (Retains.keeps_copyModule n) u h
  | setConstant n other y source =>
    exact Update.keeps_discard (Retains.keeps_setConstant hw y source) u h
  | removeConst n other => exact Update.keeps_discard (Retains.keeps_removeConst hw) u h
  | privateConstants n names => exact Retains.keeps_updateConstants hw _ u h
  | publicConstants n names => exact Retains.keeps_updateConstants hw _ u h
  | deprecateConstants n names => exact Retains.keeps_updateConstants hw _ u h
  | registerAutoload n other feature => exact Retains.keeps_registerAutoload hw feature u h
  | settleAutoload n other =>
    rw [after, Move.run, Update.final_discard]
    exact Retains.keeps_settleAutoload hw u h
  | installLoader => exact ⟨h.known, h.constant, rfl⟩
  | _ => exact Frame.after (Retains.frame (by simp [Move.parts]) (by simp [Move.parts])) h

/-- So does a run of such moves. -/
theorem retains_afterAll (h : Retains m name x u) {mvs : List Move}
    (hw : ∀ mv ∈ mvs, ¬mv.Writes m name) : Retains m name x (u.afterAll mvs) := by
  induction mvs generalizing u with
  | nil => exact h
  | cons mv mvs ih =>
    exact ih (retains_after h (hw mv List.mem_cons_self))
      fun mv' hmv => hw mv' (List.mem_cons_of_mem mv hmv)

end Universe

end ObjectModel
