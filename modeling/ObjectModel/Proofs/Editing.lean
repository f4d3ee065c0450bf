import Mathlib.Logic.Relation
import ObjectModel.Proofs.Mixing

/-!
# Editing

A move changes the record of a module by elementary edits.  Most edits of tables and chains happen
behind a check that the module may be changed.  Three moves write to tables that they do not
check: the assignment of a class variable that another module holds, the settling of an autoload,
and the opening of a refinement, which declares the methods of its siblings anew.

* `Module.Edit`: the edits, with a proposition that stands for going past the check;
* `Move.Intrudes`: the moves that write to the tables of a module without checking it;
* `Stems`, `stems_after`: a record after a move stems from the record before it by edits;
* `Module.SameTables`, `Module.ConstantsFollow`: what edits keep, and what each of them may change.
-/

namespace ObjectModel

/-! ### Edits -/

/-- The elementary changes of a record.  Those that a fixed record ought to be spared happen to
one only `past` the check. -/
inductive Module.Edit (past : Prop) : Module → Module → Prop
  | named (r : Module) (name : Option String) : Edit past r { r with name }
  | frozen (r : Module) : Edit past r { r with frozen := true }
  | isSealed (r : Module) : Edit past r { r with isSealed := true }
  | singled (r : Module) (s : ModuleId) : Edit past r { r with singleton := some s }
  | methods (r : Module) (f : Table String Method → Table String Method) (h : r.Fixed → past) :
    Edit past r (r.updateMethods f)
  | constants (r : Module) (f : Table String Constant → Table String Constant) (h : ¬r.Fixed) :
    Edit past r (r.updateConstants f)
  | settled (r : Module) (name : String) (c : Constant) (hc : r.constants.find? name = some c)
    (ha : c.isAutoload = true) (h : r.Fixed → past) :
    Edit past r (r.updateConstants (·.insert name c.withoutBinding))
  | classVariables (r : Module) (t : Table String Value) (h : r.Fixed → past) :
    Edit past r { r with classVariables := t }
  | refinements (r : Module) (t : Table ModuleId ModuleId) (h : ¬r.Fixed) :
    Edit past r { r with refinements := t }
  | chained (r : Module) (c : Chain) (h : ¬r.Fixed) : Edit past r (r.updateChain fun _ => c)

/-- The tables and the chain of the second record are those of the first, at the same versions. -/
structure Module.SameTables (r r' : Module) : Prop where
  methods : r'.methods = r.methods
  methodsVersion : r'.methodsVersion = r.methodsVersion
  constants : r'.constants = r.constants
  constantsVersion : r'.constantsVersion = r.constantsVersion
  classVariables : r'.classVariables = r.classVariables
  refinements : r'.refinements = r.refinements
  chain : r'.chain = r.chain

/-- The constant table of the second record is a later state of that of the first.  In a fixed
record, the only bindings that change are autoloads. -/
structure Module.ConstantsFollow (r r' : Module) : Prop where
  version : r.constantsVersion ≤ r'.constantsVersion
  constants : r'.constantsVersion = r.constantsVersion → r'.constants = r.constants
  chain : r'.constantsVersion = r.constantsVersion ∨ r.Fixed → r'.chain = r.chain
  fixed : r.Fixed → r'.Fixed
  binding : r.Fixed → ∀ name, (r.constants.find? name).any Constant.isAutoload = false →
    r'.constants.find? name = r.constants.find? name

namespace Module

variable {past : Prop} {r r' r'' : Module}

namespace SameTables

theorem refl (r : Module) : r.SameTables r := ⟨rfl, rfl, rfl, rfl, rfl, rfl, rfl⟩

theorem trans (h : r.SameTables r') (h' : r'.SameTables r'') : r.SameTables r'' where
  methods := h'.methods.trans h.methods
  methodsVersion := h'.methodsVersion.trans h.methodsVersion
  constants := h'.constants.trans h.constants
  constantsVersion := h'.constantsVersion.trans h.constantsVersion
  classVariables := h'.classVariables.trans h.classVariables
  refinements := h'.refinements.trans h.refinements
  chain := h'.chain.trans h.chain

theorem symm (h : r.SameTables r') : r'.SameTables r where
  methods := h.methods.symm
  methodsVersion := h.methodsVersion.symm
  constants := h.constants.symm
  constantsVersion := h.constantsVersion.symm
  classVariables := h.classVariables.symm
  refinements := h.refinements.symm
  chain := h.chain.symm

end SameTables

namespace ConstantsFollow

theorem refl (r : Module) : r.ConstantsFollow r :=
  ⟨Nat.le_refl _, fun _ => rfl, fun _ => rfl, id, fun _ _ _ => rfl⟩

theorem trans (h : r.ConstantsFollow r') (h' : r'.ConstantsFollow r'') :
    r.ConstantsFollow r'' where
  version := Nat.le_trans h.version h'.version
  constants he := by
    have := h.version
    have := h'.version
    rw [h'.constants (by omega), h.constants (by omega)]
  chain he := by
    have := h.version
    have := h'.version
    rcases he with he | hr
    · rw [h'.chain (.inl (by omega)), h.chain (.inl (by omega))]
    · rw [h'.chain (.inr (h.fixed hr)), h.chain (.inr hr)]
  fixed hr := h'.fixed (h.fixed hr)
  binding hr name hn := by
    have he := h.binding hr name hn
    rw [h'.binding (h.fixed hr) name (by rwa [he]), he]

/-- A change that leaves the constant table and the chain alone. -/
theorem of_same (hc : r'.constants = r.constants) (hv : r'.constantsVersion = r.constantsVersion)
    (hl : r'.chain = r.chain) (hf : r.Fixed → r'.Fixed) : r.ConstantsFollow r' :=
  ⟨Nat.le_of_eq hv.symm, fun _ => hc, fun _ => hl, hf, fun _ _ _ => by rw [hc]⟩

end ConstantsFollow

namespace Edit

theorem fixed (h : Edit past r r') (hr : r.Fixed) : r'.Fixed := by
  cases h with
  | frozen => exact .inl rfl
  | isSealed => exact .inr rfl
  | named | singled | methods | constants | settled | classVariables | refinements | chained =>
    exact hr

/-- An edit that does not go past the check leaves the tables of a fixed record alone. -/
theorem sameTables (h : Edit past r r') (hr : r.Fixed) (hp : ¬past) : r.SameTables r' := by
  cases h with
  | named | frozen | isSealed | singled => exact ⟨rfl, rfl, rfl, rfl, rfl, rfl, rfl⟩
  | methods _ h | settled _ _ _ _ h | classVariables _ h => exact absurd (h hr) hp
  | constants _ h | refinements _ h | chained _ h => exact absurd hr h

/-- No edit at all changes the registry of refinements of a fixed record. -/
theorem refinements_eq (h : Edit past r r') (hr : r.Fixed) : r'.refinements = r.refinements := by
  cases h with
  | refinements _ h => exact absurd hr h
  | named | frozen | isSealed | singled | methods | constants | settled | classVariables
  | chained => rfl

theorem constantsFollow (h : Edit past r r') : r.ConstantsFollow r' := by
  have hf := h.fixed
  cases h with
  | named | frozen | isSealed | singled | methods | classVariables | refinements =>
    exact .of_same rfl rfl rfl hf
  | constants f h =>
    refine ⟨Nat.le_succ _, fun he => absurd he (Nat.succ_ne_self _), fun _ => rfl, hf, ?_⟩
    exact fun hr => absurd hr h
  | settled name c hc ha h =>
    refine ⟨Nat.le_succ _, fun he => absurd he (Nat.succ_ne_self _), fun _ => rfl, hf, ?_⟩
    intro _ k hk
    refine Table.find?_insert_of_ne _ (fun he => ?_) _
    rw [← he, hc, Option.any_some, ha] at hk
    cases hk
  | chained c h =>
    refine ⟨Nat.le_succ _, fun _ => rfl, fun he => ?_, hf, fun _ _ _ => rfl⟩
    rcases he with he | hr
    · exact absurd he (Nat.succ_ne_self _)
    · exact absurd hr h

end Edit

end Module

/-- A move writes to the tables of a module that it does not check. -/
def Move.Intrudes (u : Universe) (m : ModuleId) : Move → Prop
  | settleAutoload n name => n = m ∧ (u.ownConstant n name).any Constant.isAutoload = true
  | openRefinement n _ => (u.module n).isClass = false ∧ u.immutable? n = none ∧
    m ∈ (u.module n).refinements.values ∧ (u.module m).methods.size ≠ 0
  | setClassVariable n name x => u.immutable? n = none ∧
    u.classVariableHolder? n name = some m ∧ u.ownClassVariable m name ≠ some x
  | _ => False

theorem Table.insert_of_find? {κ α : Type} [DecidableEq κ] {t : Table κ α} {k : κ} {a : α}
    (h : t.find? k = some a) : t.insert k a = t := by
  suffices hs : ∀ es : List (κ × α), findIn k es = some a → insertIn k a es = es by
    cases t
    simp only [insert, hs _ h]
  intro es he
  induction es with
  | nil => cases he
  | cons e es ih =>
    rw [findIn] at he
    by_cases hk : e.1 = k
    · rw [if_pos hk, Option.some.injEq] at he
      rw [insertIn, if_pos hk, ← hk, ← he]
    · rw [if_neg hk] at he
      rw [insertIn, if_neg hk, ih he]

theorem Table.size_mapValues {κ α β : Type} (f : κ → α → β) (t : Table κ α) :
    (t.mapValues f).size = t.size :=
  List.length_map _

theorem Table.mem_values_iff {κ α : Type} [DecidableEq κ] {t : Table κ α} {a : α} :
    a ∈ t.values ↔ ∃ k, t.find? k = some a := by
  rw [values, List.mem_map]
  constructor
  · rintro ⟨e, he, rfl⟩
    exact ⟨e.1, mem_entries_iff.1 he⟩
  · rintro ⟨k, hk⟩
    exact ⟨(k, a), mem_entries_iff.2 hk, rfl⟩

namespace Universe

variable {u v : Universe} {m n : ModuleId} {past : Prop}

/-- What follows the check happens where it passes; otherwise nothing does. -/
theorem final_checkMutable_bind {α : Type} (n : ModuleId) (f : Unit → Update α) (u : Universe) :
    Update.final (checkMutable n >>= f) u =
      if u.immutable? n = none then Update.final (f ()) u else u := by
  rw [Update.final_bind]
  unfold checkMutable
  rw [Update.get_bind]
  cases u.immutable? n <;> rfl

/-- The record of `m` stems from the one in `u` by edits. -/
structure Stems (past : Prop) (u : Universe) (m : ModuleId) (v : Universe) : Prop where
  nextId : u.nextId ≤ v.nextId
  edits : Relation.ReflTransGen (Module.Edit past) (u.module m) (v.module m)

namespace Stems

theorem refl (past : Prop) (u : Universe) (m : ModuleId) : Stems past u m u :=
  ⟨Nat.le_refl _, .refl⟩

/-- A change of no record. -/
theorem neutral (h : Stems past u m v) {w : Universe} (hm : w.modules = v.modules)
    (hn : w.nextId = v.nextId) : Stems past u m w := by
  refine ⟨Nat.le_trans h.nextId (Nat.le_of_eq hn.symm), ?_⟩
  have he : w.module m = v.module m := by rw [module, hm, module]
  exact he ▸ h.edits

/-- A change of one record, an edit if it is the one in question. -/
theorem edit (h : Stems past u m v) {f : Module → Module}
    (hf : n = m → Module.Edit past (v.module m) (f (v.module m))) :
    Stems past u m (v.modifyModule n f) := by
  refine ⟨h.nextId, ?_⟩
  rw [module_modifyModule]
  split
  · next he => exact h.edits.tail (hf he)
  · exact h.edits

/-! ### Building blocks -/

theorem keeps_reportNow (e : Universe → Event) : Change.Keeps (Stems past u m) (reportNow e) :=
  fun _ h => h.neutral rfl rfl

/-- New records are those of other modules. -/
theorem keeps_allocate (hm : u.knows m) (kind : ModuleKind) (chain : Chain) :
    Change.Keeps (Stems past u m) (allocate kind chain) := by
  intro v h
  refine ⟨Nat.le_succ_of_le h.nextId, ?_⟩
  rw [module_allocate kind chain (knows_mono h.nextId hm)]
  exact h.edits

theorem keeps_changeModule {f : Module → Module}
    (hf : ∀ v, Stems past u m v → n = m → Module.Edit past (v.module m) (f (v.module m))) :
    Change.Keeps (Stems past u m) (changeModule n f) :=
  fun v h => h.edit (hf v h)

/-- What follows the check happens where it passes. -/
theorem keeps_checked {α : Type} {I : Universe → Prop} {f : Unit → Update α}
    (h : ∀ v, I v → ¬(v.module n).Fixed → I (Update.final (f ()) v)) :
    Update.Keeps I (checkMutable n >>= f) := by
  intro v hv
  rw [final_checkMutable_bind]
  split
  · next hn => exact h v hv (not_fixed_of_immutable? hn)
  · exact hv

/-- The same with the universe read first. -/
theorem keeps_checked_get {α : Type} {I : Universe → Prop} {f : Universe → Update α}
    (h : ∀ v, I v → ¬(v.module n).Fixed → I (Update.final (f v) v)) :
    Update.Keeps I (checkMutable n >>= fun _ => get >>= f) :=
  keeps_checked h

theorem nameAll (h : Stems past u m v) (work : List (String × ModuleId)) :
    Stems past u m (v.nameAll work) := by
  fun_induction Universe.nameAll v work with
  | case1 v => exact h
  | case2 v fullName k rest hn ih => exact ih h
  | case3 v fullName k rest r hr hn ih =>
    have he : v.module k = r := by rw [module, hr]; rfl
    subst he
    exact ih (h.edit (f := fun r => { r with name := some fullName })
      fun hk => hk ▸ .named _ _)
  | case4 v fullName k rest r hr hn ih => exact ih h

theorem adopt (h : Stems past u m v) (parent : ModuleId) (name : String) (k : ModuleId) :
    Stems past u m (v.adopt parent name k) := by
  unfold Universe.adopt
  split
  · exact h.nameAll _
  · split
    · exact h.nameAll _
    · exact h

/-! ### Operations in several steps -/

theorem singletonClass (h : Stems past u m v) (hm : u.knows m) (n : ModuleId) :
    Stems past u m (singletonClass n v).2 := by
  cases hs : (v.module n).singleton with
  | some s =>
    rw [singletonClass_of_some hs]
    exact h
  | none =>
    have hsuper : Stems past u m (singletonSuper n v).2 := by
      unfold singletonSuper
      rw [Change.get_bind]
      split
      · cases (v.module n).chain.parent with
        | none => exact h
        | some p =>
          by_cases hp : p.num < n.num
          · simp only [if_pos hp]
            exact singletonClass h hm p
          · simp only [if_neg hp]
            exact h
      · exact h
    rw [singletonClass_of_none hs, Change.bind_apply]
    generalize singletonSuper n v = made at hsuper
    have hborn := keeps_allocate hm (.cls (some (.module n))) { parent := some made.1 } _ hsuper
    exact hborn.edit (f := fun r => { r with singleton := some _ }) fun _ => .singled _ _
termination_by n.num

theorem objectSingletonClass (h : Stems past u m v) (hm : u.knows m) (o : ObjectId) :
    Stems past u m (objectSingletonClass o v).2 := by
  unfold Universe.objectSingletonClass
  rw [Change.get_bind]
  cases (v.object o).singleton with
  | some s => exact h
  | none => exact (keeps_allocate hm _ _ v h).neutral rfl rfl

theorem keeps_newClass (hm : u.knows m) (s : Option ModuleId) :
    Update.Keeps (Stems past u m) (newClass s) := by
  unfold newClass
  cases s with
  | none => exact Update.keeps_lift (keeps_allocate hm _ _)
  | some p =>
    refine Update.keeps_get_bind fun v h => ?_
    refine Update.keeps_guard (fun _ => Update.keeps_guard fun _ => ?_) v h
    exact Update.keeps_guard fun _ => Update.keeps_lift (keeps_allocate hm _ _)

theorem keeps_newObject (n : ModuleId) : Update.Keeps (Stems past u m) (newObject n) := by
  refine Update.keeps_get_bind fun v h => ?_
  refine Update.keeps_guard (fun _ => Update.keeps_guard fun _ => ?_) v h
  refine Update.keeps_bind (Update.keeps_lift fun w hw => ?_) fun _ => Update.keeps_pure _
  exact ⟨Nat.le_succ_of_le hw.nextId, hw.edits⟩

/-- A copy fills in the record that it made itself. -/
theorem keeps_copyRecord (hm : u.knows m) (source : ModuleId) (r : Module) :
    Update.Keeps (Stems past u m) (copyRecord source r) := by
  intro v h
  have hmade : Stems past u m (allocate r.kind r.chain v).2 := keeps_allocate hm _ _ v h
  have hne : (allocate r.kind r.chain v).1 ≠ m := by
    rintro rfl
    exact Nat.lt_irrefl _ (knows_mono h.nextId hm)
  unfold copyRecord
  rw [Update.final_lift_bind]
  refine Update.keeps_bind (Update.keeps_lift fun w hw => ?_) (fun _ => ?_) _ hmade
  · exact hw.neutral rfl rfl
  · refine Update.keeps_bind (Update.keeps_lift ?_) fun _ => ?_
    · exact keeps_changeModule fun _ _ he => absurd he hne
    · exact Update.keeps_bind (Update.keeps_lift (keeps_reportNow _)) fun _ => Update.keeps_pure _

theorem keeps_copyModule (hm : u.knows m) (source : ModuleId) :
    Update.Keeps (Stems past u m) (copyModule source) := by
  unfold copyModule
  refine Update.keeps_guard fun _ => Update.keeps_get_bind fun v h => ?_
  have hcopy : Stems past u m (Update.final (copyRecord source (v.module source)) v) :=
    keeps_copyRecord hm source _ v h
  unfold copyRecord at hcopy
  generalize v.module source = r at hcopy
  obtain ⟨kind⟩ := r
  cases kind with
  | plain => exact hcopy
  | refinement _ _ => exact h
  | cls attached =>
    cases attached with
    | none => exact hcopy
    | some _ => exact h

theorem refinementOf (h : Stems past u m v) (hm : u.knows m) (hn : v.knows n)
    (hf : ¬(v.module n).Fixed) (t : ModuleId) :
    Stems past u m (refinementOf n t v).2 := by
  unfold Universe.refinementOf
  rw [Change.get_bind]
  cases (v.module n).refinements.find? t with
  | some r => exact h
  | none =>
    have hborn := keeps_allocate hm (.refinement t n) { parent := some t } v h
    refine (hborn.edit (f := fun k => { k with refinements := k.refinements.insert t _ })
      fun he => .refinements _ _ ?_).neutral rfl rfl
    rwa [← he, module_allocate _ _ hn]

theorem redeclare (h : Stems past u m v) {r : ModuleId}
    (hr : r = m → (v.module m).methods.size ≠ 0 → (v.module m).Fixed → past) (c : Context) :
    Stems past u m (redeclare r c v).2 := by
  unfold Universe.redeclare
  rw [Change.get_bind]
  split
  · next hs =>
    have hheld : Stems past u m (holdMethods ((v.module r).methods.mapValues fun _ f =>
      f.withContext c) v).2 := h.neutral rfl rfl
    exact (hheld.edit fun he => .methods _ _ (hr he (he ▸ hs))).neutral rfl rfl
  · exact h

end Stems

/-! ### Opening refinements -/

/-- Declare the methods of refinements anew, each under its own version of a context. -/
def redeclareEach (c : Context) (rs : List ModuleId) : Update Unit :=
  rs.forM fun r => do
    let own ← holdContext (c.withDefinee (.fixed r))
    redeclare r own

theorem modules_holdContext (c : Context) (v : Universe) :
    (holdContext c v).2.modules = v.modules := by
  unfold holdContext
  cases c.stamp <;> rfl

theorem size_holdMethods (t : Table String Method) (v : Universe) :
    (holdMethods t v).1.size = t.size :=
  Table.size_mapValues _ t

theorem module_redeclare (r k : ModuleId) (c : Context) (v : Universe) :
    (redeclare r c v).2.module k =
      if r = k ∧ (v.module k).methods.size ≠ 0 then
        (v.module k).updateMethods fun t =>
          (holdMethods (t.mapValues fun _ f => f.withContext c) v).1
      else v.module k := by
  unfold redeclare
  rw [Change.get_bind]
  by_cases hs : (v.module r).methods.size = 0
  · have hkept : ¬(r = k ∧ (v.module k).methods.size ≠ 0) := fun h => h.2 (h.1 ▸ hs)
    simp only [hs, ne_eq, not_true_eq_false, if_false, if_neg hkept]
    rfl
  · simp only [hs, ne_eq, not_false_eq_true, if_true]
    refine (module_setModule _ r k _).trans ?_
    by_cases hr : r = k
    · subst hr
      rw [if_pos rfl, if_pos ⟨rfl, hs⟩]
      rfl
    · rw [if_neg hr, if_neg fun h => hr h.1]
      rfl

/-- What a refinement leaves to those behind it in the loop. -/
theorem final_redeclareEach_cons (c : Context) (r : ModuleId) (rs : List ModuleId)
    (v : Universe) : Update.final (redeclareEach c (r :: rs)) v =
      Update.final (redeclareEach c rs) (redeclare r (holdContext (c.withDefinee (.fixed r)) v).1
        (holdContext (c.withDefinee (.fixed r)) v).2).2 := rfl

theorem Stems.redeclareEach (h : Stems past u m v) {rs : List ModuleId}
    (hp : m ∈ rs → (v.module m).methods.size ≠ 0 → past) (c : Context) :
    Stems past u m (Update.final (redeclareEach c rs) v) := by
  induction rs generalizing v with
  | nil => exact h
  | cons r rs ih =>
    rw [final_redeclareEach_cons]
    have hheld := nextId_holdContext (c.withDefinee (.fixed r)) v
    have hsame := modules_holdContext (c.withDefinee (.fixed r)) v
    generalize holdContext (c.withDefinee (.fixed r)) v = held at hheld hsame
    obtain ⟨own, w⟩ := held
    have hm : w.module m = v.module m := by rw [module, hsame, module]
    have hstep := (h.neutral hsame hheld).redeclare (r := r)
      (fun he hs _ => hp (he ▸ List.mem_cons_self) (hm ▸ hs)) own
    refine ih hstep fun hr hs => hp (List.mem_cons_of_mem r hr) ?_
    rw [module_redeclare, hm] at hs
    split at hs
    · next hrm => exact hrm.2
    · exact hs

/-- A refinement with methods gets a new version each time that the loop comes to it. -/
theorem methodsVersion_redeclareEach (c : Context) (rs : List ModuleId) (v : Universe)
    (hs : (v.module m).methods.size ≠ 0) :
    ((Update.final (redeclareEach c rs) v).module m).methodsVersion =
      (v.module m).methodsVersion + rs.count m := by
  induction rs generalizing v with
  | nil => rfl
  | cons r rs ih =>
    rw [final_redeclareEach_cons]
    have hsame := modules_holdContext (c.withDefinee (.fixed r)) v
    generalize holdContext (c.withDefinee (.fixed r)) v = held at hsame
    obtain ⟨own, w⟩ := held
    have hm : w.module m = v.module m := by rw [module, hsame, module]
    have hstep := module_redeclare r m own w
    rw [hm] at hstep
    by_cases hr : r = m
    · rw [if_pos ⟨hr, hs⟩] at hstep
      have hsize : ((redeclare r own w).2.module m).methods.size ≠ 0 := by
        rw [hstep, Module.updateMethods, size_holdMethods, Table.size_mapValues]
        exact hs
      rw [ih _ hsize, hstep, hr, List.count_cons_self]
      exact Nat.add_right_comm _ 1 _
    · rw [if_neg fun h => hr h.1] at hstep
      rw [ih _ (by rwa [hstep]), hstep, List.count_cons_of_ne hr]

theorem module_refinementOf_of_none {t : ModuleId} (hm : u.knows m)
    (h : (u.module n).refinements.find? t = none) :
    (refinementOf n t u).2.module m =
      if n = m then
        { u.module m with refinements := (u.module m).refinements.insert t ⟨u.nextId⟩ }
      else u.module m := by
  rw [refinementOf, Change.get_bind, h]
  have hmade := module_modifyModule (allocate (.refinement t n) { parent := some t } u).2 n m
    fun k => { k with refinements := k.refinements.insert t ⟨u.nextId⟩ }
  rw [module_allocate _ _ hm] at hmade
  exact hmade

/-- Making a refinement leaves the methods of what exists alone. -/
theorem methods_refinementOf (hm : u.knows m) (n t : ModuleId) :
    ((refinementOf n t u).2.module m).methods = (u.module m).methods ∧
      ((refinementOf n t u).2.module m).methodsVersion = (u.module m).methodsVersion := by
  cases hr : (u.module n).refinements.find? t with
  | some r =>
    rw [refinementOf, Change.get_bind, hr]
    exact ⟨rfl, rfl⟩
  | none =>
    rw [module_refinementOf_of_none hm hr]
    split <;> exact ⟨rfl, rfl⟩

/-- It adds nothing but itself to the registry of the namespace. -/
theorem mem_values_refinementOf (hm : u.knows m) (hn : u.knows n) (t : ModuleId) :
    m ∈ ((refinementOf n t u).2.module n).refinements.values ↔
      m ∈ (u.module n).refinements.values := by
  cases hr : (u.module n).refinements.find? t with
  | some r => rw [refinementOf, Change.get_bind, hr]; rfl
  | none =>
    have hnew : (⟨u.nextId⟩ : ModuleId) ≠ m := by
      rintro rfl
      exact Nat.lt_irrefl _ hm
    rw [module_refinementOf_of_none hn hr, if_pos rfl, Table.mem_values_iff, Table.mem_values_iff]
    constructor
    · rintro ⟨k, hk⟩
      rw [Table.find?_insert] at hk
      split at hk
      · exact absurd (Option.some.inj hk) hnew
      · exact ⟨k, hk⟩
    · rintro ⟨k, hk⟩
      have hkt : t ≠ k := by
        rintro rfl
        cases hr.symm.trans hk
      exact ⟨k, (Table.find?_insert_of_ne _ hkt _).trans hk⟩

/-- The methods that are declared anew when a namespace is opened, if it can be. -/
theorem final_openRefinement (n t : ModuleId) (u : Universe) :
    Update.final (openRefinement n t) u =
      if (u.module n).isClass = false ∧ u.immutable? n = none then
        let made := refinementOf n t u
        let held := holdContext (made.2.refinementContext n made.1) made.2
        Update.final (redeclareEach held.1 (made.2.module n).refinements.values) held.2
      else u := by
  unfold openRefinement
  show Update.final (if (u.module n).isClass then throw _ >>= _ else checkMutable n >>= _) u = _
  cases hc : (u.module n).isClass with
  | true => simp only [if_true, Bool.true_eq_false, false_and, if_false]; rfl
  | false =>
    have hloop (c : Context) (rs : List ModuleId) (r : ModuleId × Context) (w : Universe) :
        Update.final (redeclareEach c rs >>= fun _ => pure r) w =
          Update.final (redeclareEach c rs) w := by
      rw [Update.final_bind]
      unfold Update.final
      cases redeclareEach c rs w <;> rfl
    simp only [Bool.false_eq_true, if_false, true_and]
    rw [final_checkMutable_bind]
    split
    · exact hloop _ _ _ _
    · rfl

/-- Opening a refinement edits its namespace behind the check, and the methods of its siblings
past it. -/
theorem stems_openRefinement (hm : u.knows m) (hn : u.knows n) (t : ModuleId) :
    Stems ((Move.openRefinement n t).Intrudes u m) u m (Update.final (openRefinement n t) u) := by
  rw [final_openRefinement]
  split
  · next h =>
    have hmade := (Stems.refl ((Move.openRefinement n t).Intrudes u m) u m).refinementOf hm hn
      (not_fixed_of_immutable? h.2) t
    have hmethods := (methods_refinementOf hm n t).1
    have hvalues := mem_values_refinementOf hm hn t
    generalize refinementOf n t u = made at hmade hmethods hvalues
    obtain ⟨r, w⟩ := made
    have hnext := nextId_holdContext (w.refinementContext n r) w
    have hsame := modules_holdContext (w.refinementContext n r) w
    refine (hmade.neutral hsame hnext).redeclareEach (fun hr hs => ?_) _
    rw [module, hsame, ← module, hmethods] at hs
    exact ⟨h.1, h.2, hvalues.1 hr, hs⟩
  · exact .refl _ u m

/-! ### Methods, constants and class variables -/

namespace Stems

theorem keeps_addMethod (n : ModuleId) (f : Method) :
    Update.Keeps (Stems past u m) (addMethod n f) := by
  refine keeps_checked_get fun v h hf => ?_
  rw [Update.final_lift_bind]
  have hsame : (holdMethod (f.withBuiltIn !v.options.coreLoaded) v).2.modules = v.modules ∧
      (holdMethod (f.withBuiltIn !v.options.coreLoaded) v).2.nextId = v.nextId := by
    unfold holdMethod
    cases (f.withBuiltIn !v.options.coreLoaded).stamp <;> exact ⟨rfl, rfl⟩
  generalize holdMethod (f.withBuiltIn !v.options.coreLoaded) v = held at hsame
  obtain ⟨g, w⟩ := held
  have hfw : ¬(w.module n).Fixed := by rwa [module, hsame.1, ← module]
  refine ((h.neutral hsame.1 hsame.2).edit (f := (·.updateMethods (·.insert g.name g)))
    fun he => ?_).neutral rfl rfl
  exact .methods _ _ fun hr => absurd (he ▸ hr) hfw

theorem keeps_removeMethod (n : ModuleId) (name : String) :
    Update.Keeps (Stems past u m) (removeMethod n name) := by
  refine keeps_checked_get fun v h hf => ?_
  cases v.ownMethod n name with
  | none => exact h
  | some f =>
    refine (h.edit (f := (·.updateMethods (·.erase name))) fun he => ?_).neutral rfl rfl
    exact .methods _ _ fun hr => absurd (he ▸ hr) hf

/-- A changed constant table of a module that was checked. -/
theorem changeConstants (h : Stems past u m v) (hf : ¬(v.module n).Fixed)
    (f : Table String Constant → Table String Constant) :
    Stems past u m (changeConstants n f v).2 :=
  h.edit fun he => .constants _ f (he ▸ hf)

theorem keeps_setConstant (n : ModuleId) (name : String) (x : Value)
    (source : Option SourceLocation) :
    Update.Keeps (Stems past u m) (setConstant n name x source) := by
  refine keeps_checked_get fun v h hf => ?_
  have hset := h.changeConstants hf
    (·.insert name (assigned (v.ownConstant n name) n name x source))
  show Stems past u m (Update.final ((liftM (Universe.changeConstants n _) : Update Unit) >>= _) v)
  rw [Update.final_lift_bind]
  suffices hrest : Update.Keeps (Stems past u m) _ from hrest _ hset
  cases x with
  | module child =>
    exact Update.keeps_reported keeps_reportNow fun w hw => hw.adopt n name child
  | nil | bool | int | symbol | string | object =>
    exact Update.keeps_reported keeps_reportNow (Update.keeps_pure _)

theorem keeps_checkConstantName {I : Universe → Prop} (name : String) :
    Update.Keeps I (checkConstantName name) :=
  Update.keeps_ite (fun _ => Update.keeps_pure ()) fun _ => Update.keeps_throw _

theorem keeps_removeConst (n : ModuleId) (name : String) :
    Update.Keeps (Stems past u m) (removeConst n name) := by
  refine Update.keeps_bind (keeps_checkConstantName name) fun _ => keeps_checked_get fun v h hf => ?_
  have herased := h.changeConstants hf (·.erase name)
  rw [Update.final_lift_bind]
  cases v.ownConstant n name with
  | none => exact herased
  | some c => exact herased.neutral rfl rfl

/-- The loop edits the table of one module, whose mutability it does not change. -/
theorem keeps_updateConstants (n : ModuleId) (names : List String) (f : Constant → Constant) :
    Update.Keeps (Stems past u m) (updateConstants n names f) := by
  have hstep {v : Universe} (h : Stems past u m v ∧ ¬(v.module n).Fixed)
      (g : Table String Constant → Table String Constant) :
      Stems past u m (Universe.changeConstants n g v).2 ∧
        ¬((Universe.changeConstants n g v).2.module n).Fixed := by
    refine ⟨h.1.changeConstants h.2 g, ?_⟩
    have he : (Universe.changeConstants n g v).2.module n = (v.module n).updateConstants g :=
      module_setModule_self _ _ _
    rw [he]
    exact h.2
  refine keeps_checked fun v h hf => ?_
  refine (Update.keeps_forM (I := fun w => Stems past u m w ∧ ¬(w.module n).Fixed)
    (fun name _ => Update.keeps_bind (keeps_checkConstantName name) fun _ =>
      Update.keeps_get_bind fun w hw => ?_) v ⟨h, hf⟩).1
  cases w.ownConstant n name with
  | none => exact hstep hw id
  | some c => exact hstep hw (·.insert name (f c))

theorem keeps_registerAutoload (n : ModuleId) (name feature : String) :
    Update.Keeps (Stems past u m) (registerAutoload n name feature) := by
  refine Update.keeps_bind (keeps_checkConstantName name) fun _ => Update.keeps_guard fun _ =>
    keeps_checked_get fun v h hf => ?_
  have hset {w : Universe} (hw : w.modules = v.modules) (hn : w.nextId = v.nextId)
      (g : Table String Constant → Table String Constant) :
      Stems past u m (Universe.changeConstants n g w).2 :=
    (h.neutral hw hn).changeConstants (by rwa [module, hw, ← module]) g
  split
  · exact hset rfl rfl id
  · exact (hset (w := (allocateAutoload feature v).2) rfl rfl _).neutral rfl rfl

end Stems

theorem stems_settleAutoload (n : ModuleId) (name : String) :
    Stems ((Move.settleAutoload n name).Intrudes u m) u m (settleAutoload n name u).2 := by
  have hstart := Stems.refl ((Move.settleAutoload n name).Intrudes u m) u m
  unfold settleAutoload
  rw [Change.get_bind]
  cases hc : u.ownConstant n name with
  | none => exact hstart
  | some c =>
    obtain ⟨declaring, own, binding⟩ := c
    cases binding with
    | value _ | undefined => exact hstart
    | autoload a =>
      refine hstart.edit fun he => ?_
      subst he
      refine .settled _ name _ hc rfl fun _ => ?_
      exact ⟨rfl, by rw [hc]; rfl⟩

theorem stems_setClassVariable (n : ModuleId) (name : String) (x : Value) :
    Stems ((Move.setClassVariable n name x).Intrudes u m) u m
      (Update.final (setClassVariable n name x) u) := by
  have hstart := Stems.refl ((Move.setClassVariable n name x).Intrudes u m) u m
  unfold setClassVariable
  rw [final_checkMutable_bind]
  split
  · next hi =>
    rw [Update.final_get_bind]
    cases hn : u.classVariableHolder? n name with
    | none =>
      have hset := hstart.edit (n := n)
        (f := fun r => { r with classVariables := r.classVariables.insert name x })
        fun he => .classVariables _ _ fun hr => absurd (he ▸ hr) (not_fixed_of_immutable? hi)
      exact hset.neutral rfl rfl
    | some k =>
      by_cases hk : k = m ∧ u.ownClassVariable m name = some x
      · -- binding a variable to the value that it has changes nothing
        obtain ⟨rfl, hx⟩ := hk
        have he : (u.modifyModule k fun r =>
            { r with classVariables := r.classVariables.insert name x }).module k =
            u.module k := by
          rw [module_modifyModule, if_pos rfl, Table.insert_of_find? hx]
        exact ⟨Nat.le_refl _, he ▸ .refl⟩
      · refine hstart.edit (f := fun r => { r with classVariables := r.classVariables.insert name x })
          fun he => .classVariables _ _ fun _ => ⟨hi, he ▸ hn, fun hx => hk ⟨he, hx⟩⟩
  · exact hstart

theorem Stems.keeps_removeClassVariable (n : ModuleId) (name : String) :
    Update.Keeps (Stems past u m) (removeClassVariable n name) := by
  have hname : Update.Keeps (Stems past u m) (checkClassVariableName n name) := by
    unfold checkClassVariableName
    split
    · exact Update.keeps_get_bind fun v h => h
    · exact Update.keeps_pure ()
  refine Update.keeps_bind hname fun _ => keeps_checked_get fun v h hf => ?_
  cases v.ownClassVariable n name with
  | none => exact h
  | some x =>
    refine (h.edit (n := n)
      (f := fun r => { r with classVariables := r.classVariables.erase name }) fun he => ?_).neutral
      rfl rfl
    exact .classVariables _ _ fun hr => absurd (he ▸ hr) hf

/-! ### Moves -/

theorem stems_rechains {c : Chain} (h : Rechains u v n c) (hf : ¬(u.module n).Fixed) :
    Stems past u m v := by
  refine ⟨Nat.le_of_eq h.nextId.symm, ?_⟩
  by_cases hm : m = n
  · subst hm
    rcases h.self with ⟨he, -⟩ | he
    · exact he ▸ .refl
    · exact he ▸ .single (.chained _ _ hf)
  · exact h.other hm ▸ .refl

/-- Every move changes a record by edits, and goes past the check only where it intrudes. -/
theorem stems_after (hm : u.knows m) {mv : Move} (hk : mv.Known u) :
    Stems (mv.Intrudes u m) u m (u.after mv) := by
  have hstart := Stems.refl (mv.Intrudes u m) u m
  cases mv with
  | newModule => exact Stems.keeps_allocate hm _ _ u hstart
  | newClass s => exact Update.keeps_discard (Stems.keeps_newClass hm s) u hstart
  | copyModule n => exact Update.keeps_discard (Stems.keeps_copyModule hm n) u hstart
  | singletonClass n => exact hstart.singletonClass hm n
  | objectSingletonClass o => exact hstart.objectSingletonClass hm o
  | newObject n => exact Update.keeps_discard (Stems.keeps_newObject n) u hstart
  | writeVariable o name x => exact hstart.neutral rfl rfl
  | freezeModule n =>
    exact hstart.edit (f := fun r => { r with frozen := true }) fun _ => .frozen _
  | sealModule n =>
    exact hstart.edit (f := fun r => { r with isSealed := true }) fun _ => .isSealed _
  | includeModule n k =>
    by_cases h : u.Mixable n k
    · exact stems_rechains (rechains_include h) (not_fixed_of_immutable? h.1)
    · rwa [(after_of_not_mixable h).1]
  | prependModule n k =>
    by_cases h : u.Mixable n k
    · exact stems_rechains (rechains_prepend h) (not_fixed_of_immutable? h.1)
    · rwa [(after_of_not_mixable h).2]
  | addMethod n f => exact Stems.keeps_addMethod n f u hstart
  | removeMethod n name => exact Stems.keeps_removeMethod n name u hstart
  | openRefinement n t =>
    rw [after, Move.run, Update.final_discard]
    exact stems_openRefinement hm hk.1 t
  | setConstant n name x source =>
    exact Update.keeps_discard (Stems.keeps_setConstant n name x source) u hstart
  | removeConst n name => exact Update.keeps_discard (Stems.keeps_removeConst n name) u hstart
  | privateConstants n names => exact Stems.keeps_updateConstants n names _ u hstart
  | publicConstants n names => exact Stems.keeps_updateConstants n names _ u hstart
  | deprecateConstants n names => exact Stems.keeps_updateConstants n names _ u hstart
  | registerAutoload n name feature => exact Stems.keeps_registerAutoload n name feature u hstart
  | markAutoload a t => exact hstart.neutral rfl rfl
  | settleAutoload n name => exact stems_settleAutoload n name
  | setClassVariable n name x => exact stems_setClassVariable n name x
  | removeClassVariable n name =>
    exact Update.keeps_discard (Stems.keeps_removeClassVariable n name) u hstart
  | newCounter => exact hstart.neutral rfl rfl
  | raiseCounter c => exact hstart.neutral rfl rfl
  | installLoader => exact hstart.neutral rfl rfl
  | drawSerial => exact hstart.neutral rfl rfl
  | report e => exact hstart.neutral rfl rfl
  | takeReports => exact hstart.neutral rfl rfl

/-! ### What edits keep -/

namespace Stems

theorem fixed (h : Stems past u m v) (hf : (u.module m).Fixed) : (v.module m).Fixed := by
  obtain ⟨-, he⟩ := h
  generalize v.module m = r at he ⊢
  induction he with
  | refl => exact hf
  | tail _ he ih => exact he.fixed ih

theorem sameTables (h : Stems past u m v) (hf : (u.module m).Fixed) (hp : ¬past) :
    (u.module m).SameTables (v.module m) := by
  suffices hs : (v.module m).Fixed ∧ (u.module m).SameTables (v.module m) from hs.2
  obtain ⟨-, he⟩ := h
  generalize v.module m = r at he ⊢
  induction he with
  | refl => exact ⟨hf, .refl _⟩
  | tail _ he ih => exact ⟨he.fixed ih.1, ih.2.trans (he.sameTables ih.1 hp)⟩

theorem refinements_eq (h : Stems past u m v) (hf : (u.module m).Fixed) :
    (v.module m).refinements = (u.module m).refinements := by
  suffices hs : (v.module m).Fixed ∧ (v.module m).refinements = (u.module m).refinements from hs.2
  obtain ⟨-, he⟩ := h
  generalize v.module m = r at he ⊢
  induction he with
  | refl => exact ⟨hf, rfl⟩
  | tail _ he ih => exact ⟨he.fixed ih.1, (he.refinements_eq ih.1).trans ih.2⟩

theorem constantsFollow (h : Stems past u m v) :
    (u.module m).ConstantsFollow (v.module m) := by
  obtain ⟨-, he⟩ := h
  generalize v.module m = r at he ⊢
  induction he with
  | refl => exact .refl _
  | tail _ he ih => exact ih.trans he.constantsFollow

end Stems

/-- Along a run, constant tables and chains change together with their versions only, and in fixed
modules only autoloads are settled. -/
theorem Leads.constantsFollow (h : Leads u v) (hm : u.knows m) :
    (u.module m).ConstantsFollow (v.module m) := by
  refine (Leads.induction (motive := fun v => v.knows m ∧
    (u.module m).ConstantsFollow (v.module m)) ⟨hm, .refl _⟩ ?_ h).2
  intro v mv ⟨hv, hf⟩ hk
  have hs := stems_after hv hk
  exact ⟨knows_mono hs.nextId hv, hf.trans hs.constantsFollow⟩

end Universe

end ObjectModel
