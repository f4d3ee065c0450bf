import ObjectModel.Proofs.Editing

/-!
# Frames

A move writes to few parts of the records, and leaves the others alone.  Whatever survives new
records and changes of those parts survives the move.

* `Part`, `Move.parts`: the parts there are, and those that a move writes to;
* `Module.SameBut`: records that agree on all parts but some;
* `Frame`: a predicate that survives changes of some parts;
* `Frame.keeps_addMethod` and its kin: the operations, and `Frame.after`: the moves.
-/

namespace ObjectModel

/-! ### Parts -/

/-- What moves write to: the parts of a record, the states of autoloads, the loader, and the version
counters. -/
inductive Part
  | name
  | marks
  | chain
  | methods
  | constants
  | classVariables
  | refinements
  | singleton
  | autoloads
  | loader
  | counters
  deriving DecidableEq

/-- The parts that a move writes to, in records that were there or in new ones. -/
def Move.parts : Move → List Part
  | newModule | newClass _ | objectSingletonClass _ | newObject _ | writeVariable _ _ _
  | drawSerial | report _ | takeReports => []
  | copyModule _ => [.methods, .constants, .classVariables]
  | singletonClass _ => [.singleton]
  | freezeModule _ | sealModule _ => [.marks]
  | includeModule _ _ | prependModule _ _ => [.chain]
  | addMethod _ _ | removeMethod _ _ => [.methods]
  | openRefinement _ _ => [.refinements, .methods]
  | setConstant _ _ _ _ => [.constants, .name]
  | removeConst _ _ | privateConstants _ _ | publicConstants _ _ | deprecateConstants _ _
  | settleAutoload _ _ => [.constants]
  | registerAutoload _ _ _ => [.constants, .autoloads]
  | markAutoload _ _ => [.autoloads]
  | setClassVariable _ _ _ | removeClassVariable _ _ => [.classVariables]
  | installLoader => [.loader]
  | newCounter | raiseCounter _ => [.counters]

/-- The second record agrees with the first, except for the parts given. -/
structure Module.SameBut (ps : List Part) (r r' : Module) : Prop where
  kind : r'.kind = r.kind
  name : .name ∉ ps → r'.name = r.name
  marks : .marks ∉ ps → r'.frozen = r.frozen ∧ r'.isSealed = r.isSealed
  chain : .chain ∉ ps → r'.chain = r.chain
  methods : .methods ∉ ps → r'.methods = r.methods
  constants : .constants ∉ ps → r'.constants = r.constants
  classVariables : .classVariables ∉ ps → r'.classVariables = r.classVariables
  refinements : .refinements ∉ ps → r'.refinements = r.refinements
  singleton : .singleton ∉ ps → r'.singleton = r.singleton

namespace Module.SameBut

variable {ps : List Part} {r r' r'' : Module}

theorem refl (ps : List Part) (r : Module) : r.SameBut ps r where
  kind := rfl
  name _ := rfl
  marks _ := ⟨rfl, rfl⟩
  chain _ := rfl
  methods _ := rfl
  constants _ := rfl
  classVariables _ := rfl
  refinements _ := rfl
  singleton _ := rfl

theorem trans (h : r.SameBut ps r') (h' : r'.SameBut ps r'') : r.SameBut ps r'' where
  kind := h'.kind.trans h.kind
  name hp := (h'.name hp).trans (h.name hp)
  marks hp := ⟨(h'.marks hp).1.trans (h.marks hp).1, (h'.marks hp).2.trans (h.marks hp).2⟩
  chain hp := (h'.chain hp).trans (h.chain hp)
  methods hp := (h'.methods hp).trans (h.methods hp)
  constants hp := (h'.constants hp).trans (h.constants hp)
  classVariables hp := (h'.classVariables hp).trans (h.classVariables hp)
  refinements hp := (h'.refinements hp).trans (h.refinements hp)
  singleton hp := (h'.singleton hp).trans (h.singleton hp)

theorem named (hp : .name ∈ ps) (r : Module) (name : Option String) :
    r.SameBut ps { r with name } :=
  { refl ps r with name := absurd hp }

theorem marked (hp : .marks ∈ ps) (r : Module) (frozen isSealed : Bool) :
    r.SameBut ps { r with frozen, isSealed } :=
  { refl ps r with marks := absurd hp }

theorem chained (hp : .chain ∈ ps) (r : Module) (f : Chain → Chain) :
    r.SameBut ps (r.updateChain f) :=
  { refl ps r with chain := absurd hp }

theorem withMethods (hp : .methods ∈ ps) (r : Module)
    (f : Table String Method → Table String Method) : r.SameBut ps (r.updateMethods f) :=
  { refl ps r with methods := absurd hp }

theorem withConstants (hp : .constants ∈ ps) (r : Module)
    (f : Table String Constant → Table String Constant) : r.SameBut ps (r.updateConstants f) :=
  { refl ps r with constants := absurd hp }

theorem withClassVariables (hp : .classVariables ∈ ps) (r : Module) (t : Table String Value) :
    r.SameBut ps { r with classVariables := t } :=
  { refl ps r with classVariables := absurd hp }

theorem withRefinements (hp : .refinements ∈ ps) (r : Module) (t : Table ModuleId ModuleId) :
    r.SameBut ps { r with refinements := t } :=
  { refl ps r with refinements := absurd hp }

theorem singled (hp : .singleton ∈ ps) (r : Module) (s : Option ModuleId) :
    r.SameBut ps { r with singleton := s } :=
  { refl ps r with singleton := absurd hp }

/-- A record that is filled in as a copy. -/
theorem filled (hm : .methods ∈ ps) (hc : .constants ∈ ps) (hv : .classVariables ∈ ps) (r : Module)
    (methods : Table String Method) (constants : Table String Constant)
    (classVariables : Table String Value) : r.SameBut ps
      (({ r with methods, classVariables } : Module).updateConstants fun _ => constants) :=
  { refl ps r with
    methods := absurd hm
    constants := absurd hc
    classVariables := absurd hv }

end Module.SameBut

/-! ### Frames -/

namespace Universe

/-- The predicate survives whatever writes to the given parts only. -/
structure Frame (ps : List Part) (I : Universe → Prop) : Prop where
  /-- Changes of no record. -/
  neutral : ∀ {v w : Universe}, I v → w.modules = v.modules → v.nextId ≤ w.nextId →
    v.nextSerial ≤ w.nextSerial → (.autoloads ∉ ps → w.autoloads = v.autoloads) →
    (.loader ∉ ps → w.hasLoader = v.hasLoader) → (.counters ∉ ps → w.counters = v.counters) → I w
  allocate : ∀ kind chain, Change.Keeps I (allocate kind chain)
  edit : ∀ {v : Universe} {m : ModuleId} {f : Module → Module}, I v →
    (v.module m).SameBut ps (f (v.module m)) → I (v.modifyModule m f)

namespace Frame

variable {ps : List Part} {I : Universe → Prop} {u v w : Universe} {m n t : ModuleId}

/-- A change of neither records nor autoloads nor the loader nor counters. -/
theorem quiet (F : Frame ps I) (h : I v) (hm : w.modules = v.modules) (hn : v.nextId ≤ w.nextId)
    (hs : v.nextSerial ≤ w.nextSerial) (ha : w.autoloads = v.autoloads)
    (hl : w.hasLoader = v.hasLoader) (hc : w.counters = v.counters) : I w :=
  F.neutral h hm hn hs (fun _ => ha) (fun _ => hl) fun _ => hc

theorem keeps_reportNow (F : Frame ps I) (e : Universe → Event) :
    Change.Keeps I (reportNow e) :=
  fun _ h => F.quiet h rfl (Nat.le_refl _) (Nat.le_refl _) rfl rfl rfl

theorem keeps_freshSerial (F : Frame ps I) : Change.Keeps I freshSerial :=
  fun _ h => F.quiet h rfl (Nat.le_refl _) (Nat.le_succ _) rfl rfl rfl

theorem keeps_holdMethods (F : Frame ps I) (t : Table String Method) :
    Change.Keeps I (holdMethods t) :=
  fun _ h => F.quiet h rfl (Nat.le_refl _) (Nat.le_add_right _ _) rfl rfl rfl

theorem keeps_changeModule (F : Frame ps I) {f : Module → Module}
    (hf : ∀ r : Module, r.SameBut ps (f r)) : Change.Keeps I (changeModule m f) :=
  fun v h => F.edit h (hf (v.module m))

theorem keeps_updateMethods (F : Frame ps I) (hp : .methods ∈ ps)
    (f : Table String Method → Table String Method) :
    Change.Keeps I (changeModule m (·.updateMethods f)) :=
  F.keeps_changeModule fun r => .withMethods hp r f

theorem keeps_changeConstants (F : Frame ps I) (hp : .constants ∈ ps)
    (f : Table String Constant → Table String Constant) :
    Change.Keeps I (changeConstants m f) :=
  F.keeps_changeModule fun r => .withConstants hp r f

theorem nameAll (F : Frame ps I) (hp : .name ∈ ps) (h : I v) (work : List (String × ModuleId)) :
    I (v.nameAll work) := by
  fun_induction Universe.nameAll v work with
  | case1 v => exact h
  | case2 v fullName k rest hn ih => exact ih h
  | case3 v fullName k rest r hr hn ih =>
    have he : v.module k = r := by rw [module, hr]; rfl
    subst he
    exact ih (F.edit (f := fun r => { r with name := some fullName }) h (.named hp _ _))
  | case4 v fullName k rest r hr hn ih => exact ih h

theorem adopt (F : Frame ps I) (hp : .name ∈ ps) (h : I v) (parent : ModuleId) (name : String)
    (k : ModuleId) : I (v.adopt parent name k) := by
  unfold Universe.adopt
  split
  · exact F.nameAll hp h _
  · split
    · exact F.nameAll hp h _
    · exact h

/-! ### Operations -/

theorem singletonClass (F : Frame ps I) (hp : .singleton ∈ ps) (h : I v) (n : ModuleId) :
    I (singletonClass n v).2 := by
  cases hs : (v.module n).singleton with
  | some s =>
    rw [singletonClass_of_some hs]
    exact h
  | none =>
    have hsuper : I (singletonSuper n v).2 := by
      unfold singletonSuper
      rw [Change.get_bind]
      split
      · cases (v.module n).chain.parent with
        | none => exact h
        | some p =>
          by_cases hp : p.num < n.num
          · simp only [if_pos hp]
            exact singletonClass F ‹_› h p
          · simp only [if_neg hp]
            exact h
      · exact h
    rw [singletonClass_of_none hs, Change.bind_apply]
    generalize singletonSuper n v = made at hsuper
    have hborn := F.allocate (.cls (some (.module n))) { parent := some made.1 } _ hsuper
    exact F.edit hborn (f := fun r => { r with singleton := some _ }) (.singled hp _ _)
termination_by n.num

theorem objectSingletonClass (F : Frame ps I) (h : I v) (o : ObjectId) :
    I (objectSingletonClass o v).2 := by
  unfold Universe.objectSingletonClass
  rw [Change.get_bind]
  cases (v.object o).singleton with
  | some s => exact h
  | none => exact F.quiet (F.allocate _ _ v h) rfl (Nat.le_refl _) (Nat.le_refl _) rfl rfl rfl

theorem keeps_newClass (F : Frame ps I) (s : Option ModuleId) : Update.Keeps I (newClass s) := by
  unfold newClass
  cases s with
  | none => exact Update.keeps_lift (F.allocate _ _)
  | some p =>
    refine Update.keeps_get_bind fun v h => ?_
    refine Update.keeps_guard (fun _ => Update.keeps_guard fun _ => ?_) v h
    exact Update.keeps_guard fun _ => Update.keeps_lift (F.allocate _ _)

theorem keeps_newObject (F : Frame ps I) (n : ModuleId) : Update.Keeps I (newObject n) := by
  refine Update.keeps_get_bind fun v h => ?_
  refine Update.keeps_guard (fun _ => Update.keeps_guard fun _ => ?_) v h
  exact Update.keeps_bind (Update.keeps_lift fun w hw =>
    F.quiet hw rfl (Nat.le_succ _) (Nat.le_refl _) rfl rfl rfl) fun _ => Update.keeps_pure _

theorem keeps_addMethod (F : Frame ps I) (hp : .methods ∈ ps) (n : ModuleId) (f : Method) :
    Update.Keeps I (addMethod n f) := by
  refine Update.keeps_checked fun v h => ?_
  exact Update.keeps_bind (Update.keeps_lift (Change.keeps_holdMethod F.keeps_freshSerial _))
    (fun f => Update.keeps_bind (Update.keeps_lift (F.keeps_updateMethods hp (·.insert f.name f)))
      fun _ => Update.keeps_lift (F.keeps_reportNow _)) v h

theorem keeps_removeMethod (F : Frame ps I) (hp : .methods ∈ ps) (n : ModuleId) (name : String) :
    Update.Keeps I (removeMethod n name) := by
  refine Update.keeps_checked fun v h => ?_
  cases v.ownMethod n name with
  | none => exact h
  | some f =>
    exact Update.keeps_bind (Update.keeps_lift (F.keeps_updateMethods hp (·.erase name)))
      (fun _ => Update.keeps_lift (F.keeps_reportNow _)) v h

theorem keeps_refinementOf (F : Frame ps I) (hp : .refinements ∈ ps) (n t : ModuleId) :
    Change.Keeps I (refinementOf n t) := by
  refine Change.keeps_get_bind fun v h => ?_
  cases (v.module n).refinements.find? t with
  | some r => exact h
  | none =>
    have hnoted (r : ModuleId) : Change.Keeps I (changeModule n fun k =>
        { k with refinements := k.refinements.insert t r }) :=
      F.keeps_changeModule fun k => .withRefinements hp k _
    exact Change.keeps_bind (F.allocate _ _) (fun r => Change.keeps_bind (hnoted r) fun _ =>
      Change.keeps_bind (F.keeps_reportNow _) fun _ => Change.keeps_pure r) v h

theorem keeps_redeclareEach (F : Frame ps I) (hp : .methods ∈ ps) (c : Context)
    (rs : List ModuleId) : Update.Keeps I (redeclareEach c rs) := by
  refine Update.keeps_forM fun r _ => Update.keeps_bind
    (Update.keeps_lift (Change.keeps_holdContext F.keeps_freshSerial _)) fun own =>
      Update.keeps_lift fun v h => ?_
  unfold redeclare
  rw [Change.get_bind]
  split
  · exact Change.keeps_bind (F.keeps_holdMethods _) (fun t => Change.keeps_bind
      (F.keeps_updateMethods hp fun _ => t) fun _ => F.keeps_reportNow _) v h
  · exact h

theorem openRefinement (F : Frame ps I) (hr : .refinements ∈ ps) (hm : .methods ∈ ps) (h : I u)
    (n t : ModuleId) : I (Update.final (openRefinement n t) u) := by
  rw [final_openRefinement]
  split
  · have hmade := F.keeps_refinementOf hr n t u h
    generalize refinementOf n t u = made at hmade
    obtain ⟨r, w⟩ := made
    exact F.keeps_redeclareEach hm _ _ _
      (Change.keeps_holdContext F.keeps_freshSerial (w.refinementContext n r) w hmade)
  · exact h

theorem keeps_setClassVariable (F : Frame ps I) (hp : .classVariables ∈ ps) (n : ModuleId)
    (name : String) (x : Value) : Update.Keeps I (setClassVariable n name x) := by
  refine Update.keeps_checked fun v h => ?_
  have hbound (k : ModuleId) : Change.Keeps I (bindClassVariable k name x) :=
    F.keeps_changeModule fun r => .withClassVariables hp r _
  cases v.classVariableHolder? n name with
  | none =>
    exact Update.keeps_bind (Update.keeps_lift (hbound n))
      (fun _ => Update.keeps_lift (F.keeps_reportNow _)) v h
  | some k => exact hbound k v h

theorem keeps_removeClassVariable (F : Frame ps I) (hp : .classVariables ∈ ps) (n : ModuleId)
    (name : String) : Update.Keeps I (removeClassVariable n name) := by
  have hname : Update.Keeps I (checkClassVariableName n name) := by
    unfold checkClassVariableName
    split
    · exact Update.keeps_get_bind fun v h => h
    · exact Update.keeps_pure ()
  refine Update.keeps_bind hname fun _ => Update.keeps_checked fun v h => ?_
  cases v.ownClassVariable n name with
  | none => exact h
  | some x =>
    have herased : Change.Keeps I (changeModule n fun r =>
        { r with classVariables := r.classVariables.erase name }) :=
      F.keeps_changeModule fun r => .withClassVariables hp r _
    exact Update.keeps_bind (Update.keeps_lift herased)
      (fun _ => Update.keeps_bind (Update.keeps_lift (F.keeps_reportNow _))
        fun _ => Update.keeps_pure _) v h

theorem mixed (F : Frame ps I) (hp : .chain ∈ ps) (h : I u) {mv : Move} (hm : mv.Mixes) :
    I (u.after mv) := by
  have hchained (m : ModuleId) (f : Chain → Chain) :
      Change.Keeps I (changeModule m (·.updateChain f)) :=
    F.keeps_changeModule fun r => .chained hp r f
  cases mv with
  | includeModule m n =>
    unfold after Move.run includeModule
    rw [final_checkMixin_bind]
    split
    · exact Update.keeps_ite (fun _ => Update.keeps_bind (Update.keeps_lift (hchained m _))
        fun _ => Update.keeps_lift (F.keeps_reportNow _)) (fun _ => Update.keeps_pure ()) u h
    · exact h
  | prependModule m n =>
    unfold after Move.run prependModule
    rw [final_checkMixin_bind]
    split
    · exact Update.keeps_ite (fun _ => Update.keeps_bind (Update.keeps_lift (hchained m _))
        fun _ => Update.keeps_lift (F.keeps_reportNow _)) (fun _ => Update.keeps_pure ()) u h
    · exact h
  | _ => exact absurd hm id

theorem keeps_setConstant (F : Frame ps I) (hc : .constants ∈ ps) (hn : .name ∈ ps)
    (n : ModuleId) (name : String) (x : Value) (source : Option SourceLocation) :
    Update.Keeps I (setConstant n name x source) := by
  refine Update.keeps_checked fun v h => ?_
  refine Update.keeps_bind (Update.keeps_lift (F.keeps_changeConstants hc _)) (fun _ => ?_) v h
  cases x with
  | module child =>
    exact Update.keeps_reported F.keeps_reportNow fun w hw => F.adopt hn hw n name child
  | nil | bool | int | symbol | string | object =>
    exact Update.keeps_reported F.keeps_reportNow (Update.keeps_pure _)

theorem keeps_removeConst (F : Frame ps I) (hp : .constants ∈ ps) (n : ModuleId) (name : String) :
    Update.Keeps I (removeConst n name) := by
  refine Update.keeps_bind (Stems.keeps_checkConstantName name) fun _ =>
    Update.keeps_checked fun v h => ?_
  refine Update.keeps_bind (Update.keeps_lift (F.keeps_changeConstants hp _)) (fun _ => ?_) v h
  cases v.ownConstant n name with
  | none => exact Update.keeps_throw _
  | some c =>
    exact Update.keeps_bind (Update.keeps_lift (F.keeps_reportNow _)) fun _ => Update.keeps_pure _

theorem keeps_updateConstants (F : Frame ps I) (hp : .constants ∈ ps) (n : ModuleId)
    (names : List String) (f : Constant → Constant) :
    Update.Keeps I (updateConstants n names f) := by
  refine Update.keeps_bind (Update.keeps_checkMutable n) fun _ => Update.keeps_forM fun name _ => ?_
  refine Update.keeps_bind (Stems.keeps_checkConstantName name) fun _ => ?_
  refine Update.keeps_get_bind fun v h => ?_
  cases v.ownConstant n name with
  | none => exact F.keeps_changeConstants hp id v h
  | some c => exact F.keeps_changeConstants hp (·.insert name (f c)) v h

theorem keeps_registerAutoload (F : Frame ps I) (hp : .constants ∈ ps) (ha : .autoloads ∈ ps)
    (n : ModuleId) (name feature : String) :
    Update.Keeps I (registerAutoload n name feature) := by
  refine Update.keeps_bind (Stems.keeps_checkConstantName name) fun _ => Update.keeps_guard fun _ =>
    Update.keeps_checked fun v h => ?_
  have hmade : Change.Keeps I (allocateAutoload feature) :=
    fun w hw => F.neutral hw rfl (Nat.le_refl _) (Nat.le_succ _) (absurd ha) (fun _ => rfl)
      fun _ => rfl
  refine Update.keeps_ite (fun _ => Update.keeps_lift (F.keeps_changeConstants hp id))
    (fun _ => ?_) v h
  exact Update.keeps_bind (Update.keeps_lift hmade) fun a => Update.keeps_bind
    (Update.keeps_lift (F.keeps_changeConstants hp _)) fun _ =>
      Update.keeps_lift (F.keeps_reportNow _)

theorem keeps_settleAutoload (F : Frame ps I) (hp : .constants ∈ ps) (n : ModuleId)
    (name : String) : Change.Keeps I (settleAutoload n name) := by
  refine Change.keeps_get_bind fun v h => ?_
  cases v.ownConstant n name with
  | none => exact h
  | some c =>
    obtain ⟨declaring, own, binding⟩ := c
    cases binding with
    | value _ | undefined => exact h
    | autoload a => exact F.keeps_changeConstants hp _ v h

theorem keeps_copyModule (F : Frame ps I) (hm : .methods ∈ ps) (hc : .constants ∈ ps)
    (hv : .classVariables ∈ ps) (n : ModuleId) : Update.Keeps I (copyModule n) := by
  have hcopied (r : Module) : Update.Keeps I (copyRecord n r) :=
    Update.keeps_bind (Update.keeps_lift (F.allocate _ _)) fun copy =>
      Update.keeps_bind (Update.keeps_lift (F.keeps_holdMethods _)) fun _ =>
        Update.keeps_bind (Update.keeps_lift (F.keeps_changeModule fun r =>
          .filled hm hc hv r _ _ _)) fun _ =>
            Update.keeps_bind (Update.keeps_lift (F.keeps_reportNow _)) fun _ => Update.keeps_pure _
  unfold copyModule
  refine Update.keeps_guard fun _ => Update.keeps_get_bind fun v h => ?_
  have hcopy := hcopied (v.module n) v h
  unfold copyRecord at hcopy
  generalize v.module n = r at hcopy
  obtain ⟨kind⟩ := r
  cases kind with
  | plain => exact hcopy
  | refinement _ _ => exact h
  | cls attached =>
    cases attached with
    | none => exact hcopy
    | some _ => exact h

/-! ### Moves -/

/-- What survives changes of the parts that a move writes to survives the move. -/
theorem after {mv : Move} (F : Frame mv.parts I) (h : I u) : I (u.after mv) := by
  cases mv with
  | newModule => exact F.allocate _ _ u h
  | newClass s => exact Update.keeps_discard (F.keeps_newClass s) u h
  | copyModule m =>
    exact Update.keeps_discard
      (F.keeps_copyModule (.head _) (.tail _ (.head _)) (.tail _ (.tail _ (.head _))) m) u h
  | singletonClass m => exact F.singletonClass (.head _) h m
  | objectSingletonClass o => exact F.objectSingletonClass h o
  | newObject m => exact Update.keeps_discard (F.keeps_newObject m) u h
  | writeVariable o name x => exact F.quiet h rfl (Nat.le_refl _) (Nat.le_refl _) rfl rfl rfl
  | freezeModule m =>
    exact F.edit h (f := fun r => { r with frozen := true }) (.marked (.head _) _ _ _)
  | sealModule m =>
    exact F.edit h (f := fun r => { r with isSealed := true }) (.marked (.head _) _ _ _)
  | includeModule m n => exact F.mixed (.head _) h trivial
  | prependModule m n => exact F.mixed (.head _) h trivial
  | addMethod m f => exact F.keeps_addMethod (.head _) m f u h
  | removeMethod m name => exact F.keeps_removeMethod (.head _) m name u h
  | openRefinement n t =>
    rw [Universe.after, Move.run, Update.final_discard]
    exact F.openRefinement (.head _) (.tail _ (.head _)) h n t
  | setConstant m name x source =>
    exact Update.keeps_discard
      (F.keeps_setConstant (.head _) (.tail _ (.head _)) m name x source) u h
  | removeConst m name => exact Update.keeps_discard (F.keeps_removeConst (.head _) m name) u h
  | privateConstants m names => exact F.keeps_updateConstants (.head _) m names _ u h
  | publicConstants m names => exact F.keeps_updateConstants (.head _) m names _ u h
  | deprecateConstants m names => exact F.keeps_updateConstants (.head _) m names _ u h
  | registerAutoload m name feature =>
    exact F.keeps_registerAutoload (.head _) (.tail _ (.head _)) m name feature u h
  | markAutoload a t =>
    exact F.neutral h rfl (Nat.le_refl _) (Nat.le_refl _) (absurd (.head _)) (fun _ => rfl)
      fun _ => rfl
  | settleAutoload m name => exact F.keeps_settleAutoload (.head _) m name u h
  | setClassVariable m name x => exact F.keeps_setClassVariable (.head _) m name x u h
  | removeClassVariable m name =>
    exact Update.keeps_discard (F.keeps_removeClassVariable (.head _) m name) u h
  | newCounter =>
    exact F.neutral h rfl (Nat.le_refl _) (Nat.le_succ _) (fun _ => rfl) (fun _ => rfl)
      (absurd (.head _))
  | raiseCounter c =>
    exact F.neutral h rfl (Nat.le_refl _) (Nat.le_refl _) (fun _ => rfl) (fun _ => rfl)
      (absurd (.head _))
  | installLoader =>
    exact F.neutral h rfl (Nat.le_refl _) (Nat.le_refl _) (fun _ => rfl) (absurd (.head _))
      fun _ => rfl
  | drawSerial => exact F.quiet h rfl (Nat.le_refl _) (Nat.le_succ _) rfl rfl rfl
  | report e => exact F.quiet h rfl (Nat.le_refl _) (Nat.le_refl _) rfl rfl rfl
  | takeReports => exact F.quiet h rfl (Nat.le_refl _) (Nat.le_refl _) rfl rfl rfl

end Frame

end Universe

end ObjectModel
