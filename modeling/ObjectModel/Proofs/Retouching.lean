import ObjectModel.Proofs.Editing
import ObjectModel.Proofs.Operation

/-!
# Genuine moves and retouching

The arguments of a move are genuine if its object was made as one, and if the contexts that it
brings were given their identities by the universe.  Most moves only retouch the records that there
are: their names, marks and tables.

* `Move.Genuine`, `Universe.Arises`: genuine moves, and what runs of them reach;
* `Retouches`: a change of names, marks and tables, with the methods of few modules;
* `Retouches.keeps_addMethod` and its kin: the operations that retouch.
-/

namespace ObjectModel

/-! ### Genuine moves -/

/-- The identity of a context, if it has one, was given out. -/
def Context.Issued (u : Universe) (c : Context) : Prop :=
  ∀ s, c.stamp = some s → s.num < u.nextSerial

/-- The object that a move is about was made, and the context of a method that is stored did not
invent its identity. -/
def Move.Genuine (u : Universe) : Move → Prop
  | objectSingletonClass o | writeVariable o _ _ => u.objects.contains o = true
  | addMethod _ f => f.context.Issued u
  | _ => True

namespace Universe

/-- Every move of a run is known and genuine when its turn comes. -/
def AllGenuine (u : Universe) : List Move → Prop
  | [] => True
  | mv :: mvs => mv.Known u ∧ mv.Genuine u ∧ (u.after mv).AllGenuine mvs

/-- Some run of genuine moves leads here from a fresh universe. -/
def Arises (u : Universe) : Prop :=
  ∃ options mvs, (create options).AllGenuine mvs ∧ (create options).afterAll mvs = u

theorem AllGenuine.allKnown {u : Universe} {mvs : List Move} (h : u.AllGenuine mvs) :
    u.AllKnown mvs := by
  induction mvs generalizing u with
  | nil => trivial
  | cons mv mvs ih => exact ⟨h.1, ih h.2.2⟩

/-- Genuine runs are runs. -/
theorem Arises.reachable {u : Universe} (h : Arises u) : Reachable u := by
  obtain ⟨options, mvs, hg, he⟩ := h
  exact ⟨options, mvs, hg.allKnown, he⟩

theorem allGenuine_append (u : Universe) (mvs mvs' : List Move) :
    u.AllGenuine (mvs ++ mvs') ↔ u.AllGenuine mvs ∧ (u.afterAll mvs).AllGenuine mvs' := by
  induction mvs generalizing u with
  | nil => simp [AllGenuine]
  | cons mv mvs ih =>
    rw [List.cons_append, AllGenuine, AllGenuine, ih, afterAll_cons, and_assoc, and_assoc]

/-- Genuine runs lead to what arises. -/
theorem Arises.afterAll {u : Universe} (h : Arises u) (mvs : List Move)
    (hg : u.AllGenuine mvs) : Arises (u.afterAll mvs) := by
  obtain ⟨options, before, hbefore, rfl⟩ := h
  exact ⟨options, before ++ mvs, (allGenuine_append _ before mvs).2 ⟨hbefore, hg⟩,
    afterAll_append _ before mvs⟩

theorem Arises.after {u : Universe} (h : Arises u) {mv : Move} (hk : mv.Known u)
    (hg : mv.Genuine u) : Arises (u.after mv) :=
  h.afterAll [mv] ⟨hk, hg, trivial⟩

/-- What holds of a fresh universe, and after every genuine move if it held before, holds of
whatever arises. -/
theorem Arises.induction {motive : Universe → Prop} (start : ∀ options, motive (create options))
    (step : ∀ v mv, Reachable v → motive v → mv.Known v → mv.Genuine v → motive (v.after mv))
    {u : Universe} (h : Arises u) : motive u := by
  obtain ⟨options, mvs, hg, rfl⟩ := h
  have hrun (v : Universe) (hr : Reachable v) (hv : motive v) (mvs : List Move)
      (hg : v.AllGenuine mvs) : motive (v.afterAll mvs) := by
    induction mvs generalizing v with
    | nil => exact hv
    | cons mv mvs ih =>
      have hnext := step v mv hr hv hg.1 hg.2.1
      exact ih (v.after mv) (hr.leads (.of_move hg.1)) hnext hg.2.2
  exact hrun _ (.create options) (start options) mvs hg

end Universe

theorem Method.context_withDeclaringModule (f : Method) (m : ModuleId) :
    (f.withDeclaringModule m).context = f.context := by
  unfold Method.withDeclaringModule
  split <;> rfl

/-! ### Retouching -/

/-- What a module is, its chain, its singleton class and its registry of refinements stay. -/
structure Module.Retouched (r r' : Module) : Prop where
  kind : r'.kind = r.kind
  chain : r'.chain = r.chain
  singleton : r'.singleton = r.singleton
  refinements : r'.refinements = r.refinements

theorem Module.Retouched.refl (r : Module) : r.Retouched r := ⟨rfl, rfl, rfl, rfl⟩

theorem Module.Retouched.trans {r r' r'' : Module} (h : r.Retouched r') (h' : r'.Retouched r'') :
    r.Retouched r'' where
  kind := h'.kind.trans h.kind
  chain := h'.chain.trans h.chain
  singleton := h'.singleton.trans h.singleton
  refinements := h'.refinements.trans h.refinements

/-- The class of an object and its singleton class. -/
def Object.classes (r : Object) : ModuleId × Option ModuleId := (r.cls, r.singleton)

/-- The second universe has the modules and objects of the first, their records retouched, and
methods changed in the modules `touched` at most. -/
structure Universe.Retouches (touched : ModuleId → Prop) (u v : Universe) : Prop where
  nextId : v.nextId = u.nextId
  nextSerial : u.nextSerial ≤ v.nextSerial
  modules : ∀ m, (u.module m).Retouched (v.module m)
  methods : ∀ m, ¬touched m → (v.module m).methods = (u.module m).methods
  objects : ∀ o, (v.objects.find? o).map Object.classes = (u.objects.find? o).map Object.classes

/-- The modules whose methods a move that mixes nothing in may change. -/
def Move.Touches (u : Universe) : Move → ModuleId → Prop
  | addMethod m _, k | removeMethod m _, k => k = m
  | openRefinement n _, k => k ∈ (u.module n).refinements.values
  | _, _ => False

namespace Universe

variable {u v w : Universe} {m n t : ModuleId} {touched : ModuleId → Prop}

namespace Retouches

theorem refl (touched : ModuleId → Prop) (u : Universe) : Retouches touched u u :=
  ⟨rfl, Nat.le_refl _, fun _ => .refl _, fun _ _ => rfl, fun _ => rfl⟩

theorem trans (h : Retouches touched u v) (h' : Retouches touched v w) :
    Retouches touched u w where
  nextId := h'.nextId.trans h.nextId
  nextSerial := Nat.le_trans h.nextSerial h'.nextSerial
  modules m := (h.modules m).trans (h'.modules m)
  methods m hm := (h'.methods m hm).trans (h.methods m hm)
  objects o := (h'.objects o).trans (h.objects o)

/-- A change of neither modules nor objects. -/
theorem neutral (h : Retouches touched u v) (hm : w.modules = v.modules)
    (ho : w.objects = v.objects) (hn : w.nextId = v.nextId) (hs : v.nextSerial ≤ w.nextSerial) :
    Retouches touched u w := by
  have hmodule (m) : w.module m = v.module m := by rw [module, hm, module]
  refine h.trans ⟨hn, hs, fun m => ?_, fun m _ => ?_, fun o => ?_⟩
  · rw [hmodule]
    exact .refl _
  · rw [hmodule]
  · rw [ho]

/-- A change of one record. -/
theorem edit (h : Retouches touched u v) {f : Module → Module}
    (hf : (v.module n).Retouched (f (v.module n)))
    (hm : ¬touched n → (f (v.module n)).methods = (v.module n).methods) :
    Retouches touched u (v.modifyModule n f) := by
  refine h.trans ⟨rfl, Nat.le_refl _, fun m => ?_, fun m ht => ?_, fun o => rfl⟩
  · rw [module_modifyModule]
    split
    · next he => exact he ▸ hf
    · exact .refl _
  · rw [module_modifyModule]
    split
    · next he => exact he ▸ hm (he ▸ ht)
    · rfl

/-! ### Building blocks -/

theorem keeps_report (e : Event) : Change.Keeps (Retouches touched u) (report e) :=
  fun _ h => h.neutral rfl rfl rfl (Nat.le_refl _)

theorem keeps_reportNow (e : Universe → Event) :
    Change.Keeps (Retouches touched u) (reportNow e) :=
  fun _ h => h.neutral rfl rfl rfl (Nat.le_refl _)

theorem keeps_freshSerial : Change.Keeps (Retouches touched u) freshSerial :=
  fun _ h => h.neutral rfl rfl rfl (Nat.le_succ _)

theorem keeps_holdMethod (f : Method) : Change.Keeps (Retouches touched u) (holdMethod f) :=
  Change.keeps_holdMethod keeps_freshSerial f

theorem keeps_holdContext (c : Context) : Change.Keeps (Retouches touched u) (holdContext c) :=
  Change.keeps_holdContext keeps_freshSerial c

theorem keeps_holdMethods (t : Table String Method) :
    Change.Keeps (Retouches touched u) (holdMethods t) :=
  fun _ h => h.neutral rfl rfl rfl (Nat.le_add_right _ _)

/-- A change of a record that leaves its methods alone. -/
theorem keeps_changeModule {f : Module → Module} (hf : ∀ r : Module, r.Retouched (f r))
    (hm : ∀ r, (f r).methods = r.methods) :
    Change.Keeps (Retouches touched u) (changeModule n f) :=
  fun v h => h.edit (hf (v.module n)) fun _ => hm _

theorem keeps_changeConstants (f : Table String Constant → Table String Constant) :
    Change.Keeps (Retouches touched u) (changeConstants n f) :=
  keeps_changeModule (fun _ => ⟨rfl, rfl, rfl, rfl⟩) fun _ => rfl

theorem keeps_bindClassVariable (name : String) (x : Value) :
    Change.Keeps (Retouches touched u) (bindClassVariable n name x) :=
  keeps_changeModule (fun _ => ⟨rfl, rfl, rfl, rfl⟩) fun _ => rfl

/-- A change of the methods of a module that may be touched. -/
theorem keeps_updateMethods (ht : touched n) (f : Table String Method → Table String Method) :
    Change.Keeps (Retouches touched u) (changeModule n (·.updateMethods f)) :=
  fun _ h => h.edit ⟨rfl, rfl, rfl, rfl⟩ fun hn => absurd ht hn

theorem nameAll (h : Retouches touched u v) (work : List (String × ModuleId)) :
    Retouches touched u (v.nameAll work) := by
  fun_induction Universe.nameAll v work with
  | case1 v => exact h
  | case2 v fullName k rest hn ih => exact ih h
  | case3 v fullName k rest r hr hn ih =>
    have he : v.module k = r := by rw [module, hr]; rfl
    subst he
    exact ih (h.edit (f := fun r => { r with name := some fullName }) ⟨rfl, rfl, rfl, rfl⟩
      fun _ => rfl)
  | case4 v fullName k rest r hr hn ih => exact ih h

theorem adopt (h : Retouches touched u v) (parent : ModuleId) (name : String) (k : ModuleId) :
    Retouches touched u (v.adopt parent name k) := by
  unfold Universe.adopt
  split
  · exact h.nameAll _
  · split
    · exact h.nameAll _
    · exact h

/-! ### Operations -/

theorem keeps_addMethod (ht : touched n) (f : Method) :
    Update.Keeps (Retouches touched u) (addMethod n f) := by
  refine Update.keeps_checked fun v h => ?_
  rw [Update.final_lift_bind]
  have hheld := keeps_holdMethod (f.withBuiltIn !v.options.coreLoaded) v h
  generalize holdMethod (f.withBuiltIn !v.options.coreLoaded) v = held at hheld
  exact Update.keeps_bind (Update.keeps_lift (keeps_updateMethods ht (·.insert held.1.name held.1)))
    (fun _ => Update.keeps_lift (keeps_reportNow _)) _ hheld

theorem keeps_removeMethod (ht : touched n) (name : String) :
    Update.Keeps (Retouches touched u) (removeMethod n name) := by
  refine Update.keeps_checked fun v h => ?_
  cases v.ownMethod n name with
  | none => exact h
  | some f =>
    exact Update.keeps_bind (Update.keeps_lift (keeps_updateMethods ht (·.erase name)))
      (fun _ => Update.keeps_lift (keeps_reportNow _)) v h

theorem keeps_setConstant (n : ModuleId) (name : String) (x : Value)
    (source : Option SourceLocation) :
    Update.Keeps (Retouches touched u) (setConstant n name x source) := by
  refine Update.keeps_checked fun v h => ?_
  refine Update.keeps_bind (Update.keeps_lift (keeps_changeConstants _)) (fun _ => ?_) v h
  cases x with
  | module child =>
    exact Update.keeps_reported keeps_reportNow fun w hw => hw.adopt n name child
  | nil | bool | int | symbol | string | object =>
    exact Update.keeps_reported keeps_reportNow (Update.keeps_pure _)

theorem keeps_removeConst (n : ModuleId) (name : String) :
    Update.Keeps (Retouches touched u) (removeConst n name) := by
  refine Update.keeps_bind (Stems.keeps_checkConstantName name) fun _ =>
    Update.keeps_checked fun v h => ?_
  refine Update.keeps_bind (Update.keeps_lift (keeps_changeConstants _)) (fun _ => ?_) v h
  cases v.ownConstant n name with
  | none => exact Update.keeps_throw _
  | some c =>
    exact Update.keeps_bind (Update.keeps_lift (keeps_reportNow _)) fun _ => Update.keeps_pure _

theorem keeps_updateConstants (n : ModuleId) (names : List String) (f : Constant → Constant) :
    Update.Keeps (Retouches touched u) (updateConstants n names f) := by
  refine Update.keeps_bind (Update.keeps_checkMutable n) fun _ => Update.keeps_forM fun name _ => ?_
  refine Update.keeps_bind (Stems.keeps_checkConstantName name) fun _ => ?_
  refine Update.keeps_get_bind fun v h => ?_
  cases v.ownConstant n name with
  | none => exact keeps_changeConstants id v h
  | some c => exact keeps_changeConstants (·.insert name (f c)) v h

theorem keeps_registerAutoload (n : ModuleId) (name feature : String) :
    Update.Keeps (Retouches touched u) (registerAutoload n name feature) := by
  refine Update.keeps_bind (Stems.keeps_checkConstantName name) fun _ => Update.keeps_guard fun _ =>
    Update.keeps_checked fun v h => ?_
  have hmade : Change.Keeps (Retouches touched u) (allocateAutoload feature) :=
    fun w hw => hw.neutral rfl rfl rfl (Nat.le_succ _)
  refine Update.keeps_ite (fun _ => Update.keeps_lift (keeps_changeConstants id)) (fun _ => ?_) v h
  exact Update.keeps_bind (Update.keeps_lift hmade) fun a => Update.keeps_bind
    (Update.keeps_lift (keeps_changeConstants _)) fun _ => Update.keeps_lift (keeps_reportNow _)

theorem keeps_settleAutoload (n : ModuleId) (name : String) :
    Change.Keeps (Retouches touched u) (settleAutoload n name) := by
  refine Change.keeps_get_bind fun v h => ?_
  cases v.ownConstant n name with
  | none => exact h
  | some c =>
    obtain ⟨declaring, own, binding⟩ := c
    cases binding with
    | value _ | undefined => exact h
    | autoload a => exact keeps_changeConstants _ v h

theorem keeps_setClassVariable (n : ModuleId) (name : String) (x : Value) :
    Update.Keeps (Retouches touched u) (setClassVariable n name x) := by
  refine Update.keeps_checked fun v h => ?_
  cases v.classVariableHolder? n name with
  | none =>
    exact Update.keeps_bind (Update.keeps_lift (keeps_bindClassVariable name x))
      (fun _ => Update.keeps_lift (keeps_reportNow _)) v h
  | some k => exact keeps_bindClassVariable name x v h

theorem keeps_removeClassVariable (n : ModuleId) (name : String) :
    Update.Keeps (Retouches touched u) (removeClassVariable n name) := by
  have hname : Update.Keeps (Retouches touched u) (checkClassVariableName n name) := by
    unfold checkClassVariableName
    split
    · exact Update.keeps_get_bind fun v h => h
    · exact Update.keeps_pure ()
  refine Update.keeps_bind hname fun _ => Update.keeps_checked fun v h => ?_
  cases v.ownClassVariable n name with
  | none => exact h
  | some x =>
    have herased : Change.Keeps (Retouches touched u) (changeModule n fun r =>
        { r with classVariables := r.classVariables.erase name }) :=
      keeps_changeModule (fun _ => ⟨rfl, rfl, rfl, rfl⟩) fun _ => rfl
    exact Update.keeps_bind (Update.keeps_lift herased)
      (fun _ => Update.keeps_bind (Update.keeps_lift (keeps_reportNow _))
        fun _ => Update.keeps_pure _) v h

/-- A change of an object that exists, apart from its classes. -/
theorem editObject (h : Retouches touched u v) {o : ObjectId} (ho : v.objects.contains o = true)
    {f : Object → Object} (hf : ∀ r, (f r).classes = r.classes) :
    Retouches touched u (v.modifyObject o f) := by
  refine h.trans ⟨rfl, Nat.le_refl _, fun m => .refl _, fun m _ => rfl, fun p => ?_⟩
  show ((v.objects.insert o (f (v.object o))).find? p).map _ = _
  obtain ⟨r, hr⟩ := Option.isSome_iff_exists.1 ho
  rw [Table.find?_insert]
  split
  · next he =>
    subst he
    rw [object, hr]
    exact congrArg some (hf r)
  · rfl

theorem redeclare (h : Retouches touched u v) (hn : touched n ∨ (v.module n).methods.size = 0)
    (c : Context) : Retouches touched u (redeclare n c v).2 := by
  unfold Universe.redeclare
  rw [Change.get_bind]
  split
  · next hs =>
    have ht := hn.resolve_right hs
    exact Change.keeps_bind (keeps_holdMethods _) (fun t => Change.keeps_bind
      (keeps_updateMethods ht fun _ => t) fun _ => keeps_reportNow _) v h
  · exact h

theorem redeclareEach (h : Retouches touched u v) {rs : List ModuleId}
    (hr : ∀ r ∈ rs, touched r ∨ (v.module r).methods.size = 0) (c : Context) :
    Retouches touched u (Update.final (redeclareEach c rs) v) := by
  induction rs generalizing v with
  | nil => exact h
  | cons r rs ih =>
    rw [final_redeclareEach_cons]
    have hheld := keeps_holdContext (c.withDefinee (.fixed r)) v h
    have hsame := modules_holdContext (c.withDefinee (.fixed r)) v
    generalize holdContext (c.withDefinee (.fixed r)) v = held at hheld hsame
    obtain ⟨own, w⟩ := held
    have hmodule (k) : w.module k = v.module k := by rw [module, hsame, module]
    have hfirst := hr r List.mem_cons_self
    rw [← hmodule] at hfirst
    refine ih (hheld.redeclare hfirst own) fun k hk => ?_
    refine (hr k (List.mem_cons_of_mem r hk)).imp_right fun hs => ?_
    rw [module_redeclare, hmodule, if_neg fun h => h.2 hs, hs]

end Retouches

end Universe

end ObjectModel
