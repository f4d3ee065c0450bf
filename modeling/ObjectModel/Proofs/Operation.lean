import ObjectModel.CallSite
import ObjectModel.Proofs.Mixing

/-!
# Operations

The operations that code calls on methods, singleton classes and contexts are made of moves: what
they find in the universe exists in it, so they leave a universe that some run of moves leads to.

* `leads_keeps_…`: operations that fit into longer ones;
* `known_findMethod`, `knows_metaclassOf`: what lookups give exists;
* `MetaclassIs`, `metaclassIs_metaclassOf`: the metaclass of a value is there once it was asked for;
* `leads_define` and its kin: whole operations are runs of moves.
-/

namespace ObjectModel

/-! ### Known methods and contexts -/

/-- The scope of a module's own code. -/
theorem LexicalScope.known_ofModule {u : Universe} {m : ModuleId} (hm : u.knows m) :
    (LexicalScope.ofModule m).Known u :=
  fun _ hn => List.mem_singleton.1 hn ▸ hm

namespace Method

variable {u : Universe} {f : Method}

theorem known_withName (name : String) (hf : f.Known u) : (f.withName name).Known u := by
  unfold withName
  split
  · exact hf
  · exact ⟨hf.declaring, hf.scope, hf.context, hf.active, hf.body⟩

theorem known_withVisibility (v : Visibility) (hf : f.Known u) : (f.withVisibility v).Known u := by
  unfold withVisibility
  split
  · exact hf
  · exact ⟨hf.declaring, hf.scope, hf.context, hf.active, hf.body⟩

theorem known_asUndefined (hf : f.Known u) : f.asUndefined.Known u :=
  ⟨hf.declaring, hf.scope, hf.context, hf.active, hf.body⟩

/-- A method as first defined is about its module, scope, context and body. -/
theorem known_define {m : ModuleId} {s : LexicalScope} {c : Context} {b : MethodBody}
    (name : String) (v : Visibility) (hm : u.knows m) (hs : s.Known u) (hc : c.Known u)
    (hb : b.Known u) : (Method.define name m v s c b).Known u :=
  ⟨hm, hs, hc, fun _ h => (nomatch h), hb⟩

end Method

namespace Context

variable {u : Universe} {c : Context}

/-- The modules that active refinements are about exist. -/
def RefinementsKnown (u : Universe) (t : Refinements) : Prop :=
  ∀ m rs, t.find? m = some rs → u.knows m ∧ ∀ r ∈ rs, u.knows r

theorem Known.refinementsKnown (hc : c.Known u) : RefinementsKnown u c.refinements := by
  intro m rs h
  have he := Table.mem_entries_iff.2 h
  exact ⟨hc.refined _ he, hc.active _ he⟩

theorem Known.withRefinements {t : Refinements} (hc : c.Known u) (ht : RefinementsKnown u t) :
    (c.withRefinements t).Known u where
  definee := hc.definee
  refined e he := (ht e.1 e.2 (Table.mem_entries_iff.1 he)).1
  active e he := (ht e.1 e.2 (Table.mem_entries_iff.1 he)).2

/-- One more active refinement. -/
theorem RefinementsKnown.activate {t : Refinements} {m r : ModuleId} (ht : RefinementsKnown u t)
    (hm : u.knows m) (hr : u.knows r) : RefinementsKnown u (activate t m r) := by
  unfold Context.activate
  dsimp only
  split
  · exact ht
  · intro n rs hn
    rw [Table.find?_insert] at hn
    split at hn
    · next he =>
      cases hn
      refine ⟨he ▸ hm, fun k hk => ?_⟩
      rcases List.mem_cons.1 hk with rfl | hk
      · exact hr
      · cases hf : t.find? m with
        | none =>
          rw [hf] at hk
          cases hk
        | some ks =>
          rw [hf] at hk
          exact (ht m ks hf).2 k hk
    · exact ht n rs hn

theorem Known.refinementsFor {m r : ModuleId} (hc : c.Known u) (h : r ∈ c.refinementsFor m) :
    u.knows r := by
  unfold Context.refinementsFor at h
  cases hf : c.refinements.find? m with
  | none =>
    rw [hf] at h
    cases h
  | some rs =>
    rw [hf] at h
    exact (hc.refinementsKnown m rs hf).2 r h

end Context

namespace Universe

variable {u v : Universe} {m n : ModuleId} {f : Method} {name : String} {x : Value} {c : Context}

/-- The refinements that are active when those of a namespace are put ahead. -/
def activatedBy (u : Universe) (c : Context) (n : ModuleId) : Refinements :=
  (u.module n).refinements.entries.foldl (fun t e => Context.activate t e.1 e.2) c.refinements

/-! ### Moves within operations -/

theorem Leads.wellFormed (h : Leads u v) (hu : u.WellFormed) : v.WellFormed := (h.follows hu).1

theorem Leads.nextId (h : Leads u v) (hu : u.WellFormed) : u.nextId ≤ v.nextId :=
  (h.follows hu).2.nextId

theorem Leads.move (h : Leads u v) (mv : Move) (hk : mv.Known v) : Leads u (v.after mv) :=
  h.trans (.of_move hk)

/-- An operation that leads on from where a run has led. -/
theorem Leads.keeps {α : Type} {y : Update α} (h : Leads u v) (hy : Update.Keeps (Leads v) y) :
    Leads u (Update.final y v) :=
  h.trans (hy v (.refl v))

theorem leads_keeps_reportNow (e : Universe → Event) : Change.Keeps (Leads u) (reportNow e) :=
  fun v h => h.move (.report (e v)) trivial

theorem leads_keeps_freshSerial : Change.Keeps (Leads u) freshSerial :=
  fun _ h => h.move .drawSerial trivial

theorem leads_keeps_holdMethod (f : Method) : Change.Keeps (Leads u) (holdMethod f) :=
  Change.keeps_holdMethod leads_keeps_freshSerial f

theorem leads_keeps_holdContext (c : Context) : Change.Keeps (Leads u) (holdContext c) :=
  Change.keeps_holdContext leads_keeps_freshSerial c

variable (hu : u.WellFormed)
include hu

theorem leads_keeps_addMethod (hm : u.knows m) (hf : f.Known u) :
    Update.Keeps (Leads u) (addMethod m f) := by
  intro v h
  have hle := h.nextId hu
  exact h.move (.addMethod m f) ⟨knows_mono hle hm, Method.known_mono hle hf⟩

theorem leads_keeps_singletonClass (hm : u.knows m) : Change.Keeps (Leads u) (singletonClass m) :=
  fun _ h => h.move (.singletonClass m) (knows_mono (h.nextId hu) hm)

theorem knows_singletonClass (hm : u.knows m) :
    (singletonClass m u).2.knows (singletonClass m u).1 :=
  (drifts_singletonClass (.refl hu) hm).2.1

/-- What is done with a singleton class starts from a universe that knows it. -/
theorem leads_keeps_singletonClass_bind {α : Type} {y : ModuleId → Update α} (hm : u.knows m)
    (h : ∀ v s, Leads u v → v.knows s → Update.Keeps (Leads v) (y s)) :
    Update.Keeps (Leads u) (singletonClass m >>= y : Update α) := by
  intro v hv
  rw [Update.final_lift_bind]
  have hmv := knows_mono (hv.nextId hu) hm
  have hs := leads_keeps_singletonClass hu hm v hv
  exact hs.keeps (h _ _ hs (knows_singletonClass (hv.wellFormed hu) hmv))

/-- A method stored under a visibility is stored, and as a module function stored twice. -/
theorem leads_keeps_addMethodWithVisibility (hm : u.knows m) (hf : f.Known u) (v : Visibility) :
    Update.Keeps (Leads u) (addMethodWithVisibility m f v) := by
  have hstored (w : Visibility) : Update.Keeps (Leads u) (addMethod m (f.withVisibility w)) :=
    leads_keeps_addMethod hu hm (f.known_withVisibility w hf)
  unfold addMethodWithVisibility
  cases effectiveVisibility f.name v with
  | moduleFunction =>
    refine Update.keeps_bind (hstored .priv) fun _ => ?_
    refine leads_keeps_singletonClass_bind hu hm fun w s hw hs => ?_
    have hfw := Method.known_mono (hw.nextId hu) hf
    exact leads_keeps_addMethod (hw.wellFormed hu) hs
      (Method.known_withVisibility _ (Method.known_withDeclaringModule hs hfw))
  | pub => exact hstored .pub
  | prot => exact hstored .prot
  | priv => exact hstored .priv

/-! ### What lookups give -/

theorem known_ownMethod (hm : u.knows m) (h : u.ownMethod m name = some f) : f.Known u :=
  (hu.modules m hm).methods name f h

theorem known_findMethod (hm : u.knows m) (h : u.findMethod m name none = some f) : f.Known u := by
  rw [findMethod, lookupMethod, searchMethod_none, searchTables_method] at h
  obtain ⟨a, ha, hf⟩ := List.exists_of_findSome?_eq_some h
  exact known_ownMethod hu (knows_ancestors hu hm ha) hf

theorem known_findMethodDeep (hm : u.knows m) (h : u.findMethodDeep m name = some f) :
    f.Known u := by
  unfold findMethodDeep at h
  cases hf : u.findMethod m name none with
  | some g =>
    rw [hf] at h
    cases h
    exact known_findMethod hu hm hf
  | none =>
    rw [hf] at h
    dsimp only at h
    split at h
    · cases h
    · have hobject : u.knows Core.object :=
        Nat.lt_of_le_of_lt (by decide : Core.object.num ≤ coreChains.length) hu.core
      exact known_findMethod hu hobject h

/-- A change by name acts on a method that exists, or fails. -/
theorem leads_keeps_findDefined_bind {α : Type} {y : Method → Update α} (hm : u.knows m)
    (h : ∀ v f, Leads u v → f.Known v → Update.Keeps (Leads v) (y f)) :
    Update.Keeps (Leads u) (findDefined m name >>= y) := by
  intro v hv
  unfold findDefined
  rw [Update.final_bind, Update.get_bind]
  have hmv := knows_mono (hv.nextId hu) hm
  cases hf : (v.findMethodDeep m name).filter Method.isDefined with
  | none => exact hv
  | some f =>
    have hk := known_findMethodDeep (hv.wellFormed hu) hmv (Option.filter_eq_some_iff.1 hf).1
    exact hv.keeps (h v f hv hk)

theorem leads_keeps_metaclassOf (hx : x.Known u) : Change.Keeps (Leads u) (metaclassOf x) := by
  cases x with
  | module m => exact leads_keeps_singletonClass hu hx
  | nil | bool | int | symbol | string | object => exact fun _ h => h

/-- The module that the search for a value's methods starts from exists. -/
theorem knows_metaclassOf (hx : x.Known u) : (metaclassOf x u).2.knows (metaclassOf x u).1 := by
  have hcore {n : ModuleId} (hn : n.num ≤ coreChains.length) : u.knows n :=
    Nat.lt_of_le_of_lt hn hu.core
  cases x with
  | module m => exact knows_singletonClass hu hx
  | object o =>
    have hr := hu.objects o hx
    show u.knows ((u.object o).singleton.getD (u.object o).cls)
    cases hs : (u.object o).singleton with
    | none => exact hr.cls
    | some s => exact hr.singleton s hs
  | nil => exact hcore (n := Core.nilClass) (by decide)
  | bool b => cases b with
    | true => exact hcore (n := Core.trueClass) (by decide)
    | false => exact hcore (n := Core.falseClass) (by decide)
  | int => exact hcore (n := Core.integer) (by decide)
  | symbol => exact hcore (n := Core.symbol) (by decide)
  | string => exact hcore (n := Core.string) (by decide)

/-! ### Metaclasses -/

/-- The search for the methods of a value starts here, and no class has to be made for it. -/
def MetaclassIs (u : Universe) (x : Value) (m : ModuleId) : Prop :=
  match x with
  | .module k => (u.module k).singleton = some m
  | .object o => (u.object o).singleton.getD (u.object o).cls = m
  | x => u.classOf x = m

omit hu in
theorem metaclassOf_of_metaclassIs (h : u.MetaclassIs x m) : metaclassOf x u = (m, u) := by
  cases x with
  | module k => exact singletonClass_of_some h
  | object o => exact congrArg (·, u) h
  | nil | bool | int | symbol | string => exact congrArg (·, u) h

omit hu in
theorem singleton_singletonClass (u : Universe) (m : ModuleId) :
    ((singletonClass m u).2.module m).singleton = some (singletonClass m u).1 := by
  cases hs : (u.module m).singleton with
  | some s =>
    rw [singletonClass_of_some hs]
    exact hs
  | none =>
    rw [singletonClass_of_none hs]
    show ((modifyModule _ m _).module m).singleton = _
    rw [module_modifyModule, if_pos rfl]
    rfl

omit hu in
/-- Once asked for, the metaclass is there. -/
theorem metaclassIs_metaclassOf (x : Value) (u : Universe) :
    (metaclassOf x u).2.MetaclassIs x (metaclassOf x u).1 := by
  cases x with
  | module k => exact singleton_singletonClass u k
  | nil | bool | int | symbol | string | object => rfl

omit hu in
/-- It stays as long as objects and the singleton classes of modules do. -/
theorem MetaclassIs.later (h : u.MetaclassIs x m) (hm : ∀ k s, x = .module k →
    (u.module k).singleton = some s → (v.module k).singleton = some s)
    (ho : v.objects = u.objects) : v.MetaclassIs x m := by
  cases x with
  | module k => exact hm k m rfl h
  | object o =>
    show (v.object o).singleton.getD (v.object o).cls = m
    rw [object, ho]
    exact h
  | bool b => cases b <;> exact h
  | nil | int | symbol | string => exact h

/-! ### Whole operations -/

theorem leads_metaclassOf (hx : x.Known u) : Leads u (metaclassOf x u).2 :=
  leads_keeps_metaclassOf hu hx u (.refl u)

/-- Code defines a method. -/
theorem leads_define (name : String) {s : LexicalScope} (hm : u.knows m) (hs : s.Known u)
    (hc : c.Known u) (body : Script.Expr) : Leads u (Update.final (define m name s c body) u) := by
  unfold define
  rw [Update.final_lift_bind]
  have hheld := leads_keeps_holdMethod (.define name m c.visibility s c (.code body)) u (.refl u)
  have hle := hheld.nextId hu
  have hk := known_holdMethod (Method.known_define name c.visibility hm hs hc
    (b := .code body) trivial) u
  exact hheld.keeps (Update.keeps_bind (leads_keeps_addMethodWithVisibility (hheld.wellFormed hu)
    (knows_mono hle hm) (Method.known_mono hle hk) _) fun _ =>
    Update.keeps_bind (Update.keeps_lift (leads_keeps_reportNow _)) fun _ => Update.keeps_pure _)

/-- The methods and closures that a method is made of exist. -/
def SourceKnown (u : Universe) : Closure ⊕ Method → Prop
  | .inl c => c.scope.Known u ∧ c.context.Known u
  | .inr f => f.Known u

/-- A method is made of a closure or of another method. -/
theorem leads_defineMethod (name : String) {source : Closure ⊕ Method} (hm : u.knows m)
    (hs : SourceKnown u source) : Leads u (Update.final (defineMethod m name source) u) := by
  have hmade (f : Method) (hf : f.Known u) : Leads u (Update.final (do
      let f ← holdMethod (f.withName name)
      addMethodWithVisibility m f .pub
      reportNow fun u => .definedMethod (u.display m) name
      return f : Update Method) u) := by
    rw [Update.final_lift_bind]
    have hheld := leads_keeps_holdMethod (f.withName name) u (.refl u)
    have hle := hheld.nextId hu
    have hk := known_holdMethod (f.known_withName name hf) u
    exact hheld.keeps (Update.keeps_bind (leads_keeps_addMethodWithVisibility (hheld.wellFormed hu)
      (knows_mono hle hm) (Method.known_mono hle hk) _) fun _ =>
      Update.keeps_bind (Update.keeps_lift (leads_keeps_reportNow _)) fun _ => Update.keeps_pure _)
  unfold defineMethod
  cases source with
  | inl k => exact hmade _ (Method.known_define name .pub hm hs.1 hs.2 hs)
  | inr f =>
    show Leads u (Update.final (get >>= fun w => MonadExcept.ofExcept (w.rebind m f) >>= _) u)
    rw [Update.final_bind]
    show Leads u (Update.final (MonadExcept.ofExcept (u.rebind m f) >>= _) u)
    unfold rebind
    split
    · exact hmade _ (Method.known_withDeclaringModule hm hs)
    · exact .refl u

theorem leads_aliasMethod (hm : u.knows m) (newName oldName : String) :
    Leads u (Update.final (aliasMethod m newName oldName) u) := by
  refine leads_keeps_findDefined_bind hu hm (fun v f hv hf => ?_) u (.refl u)
  exact Update.keeps_bind (leads_keeps_addMethod (hv.wellFormed hu) (knows_mono (hv.nextId hu) hm)
    (f.known_withName newName hf)) fun _ => Update.keeps_lift (leads_keeps_reportNow _)

theorem leads_undefineMethod (hm : u.knows m) (name : String) :
    Leads u (Update.final (undefineMethod m name) u) := by
  refine Update.keeps_bind (Update.keeps_checkMutable m) (fun _ => ?_) u (.refl u)
  refine leads_keeps_findDefined_bind hu hm fun v f hv hf => ?_
  have hmv := knows_mono (hv.nextId hu) hm
  exact Update.keeps_bind (leads_keeps_addMethod (hv.wellFormed hu) hmv
    (Method.known_asUndefined (Method.known_withDeclaringModule hmv hf))) fun _ =>
    Update.keeps_lift (leads_keeps_reportNow _)

theorem leads_keeps_setOneVisibility (hm : u.knows m) (name : String) (v : Visibility) :
    Update.Keeps (Leads u) (setOneVisibility m name v) := by
  refine leads_keeps_findDefined_bind hu hm fun w f hw hf => ?_
  have hmw := knows_mono (hw.nextId hu) hm
  refine Update.keeps_ite (fun _ => ?_) fun _ => Update.keeps_ite (fun _ => ?_) fun _ => ?_
  · exact leads_keeps_addMethodWithVisibility (hw.wellFormed hu) hmw hf v
  · exact leads_keeps_addMethod (hw.wellFormed hu) hmw (f.known_withVisibility v hf)
  · exact Update.keeps_pure ()

theorem leads_keeps_setMethodVisibility (hm : u.knows m) (names : List String) (v : Visibility) :
    Update.Keeps (Leads u) (setMethodVisibility m names v) := by
  refine Update.keeps_bind (Update.keeps_get_bind fun w hw => ?_) fun _ =>
    Update.keeps_forM fun name _ => leads_keeps_setOneVisibility hu hm name v
  exact Update.keeps_ite (fun _ => Update.keeps_throw _) (fun _ => Update.keeps_pure ()) w hw

theorem leads_setMethodVisibility (hm : u.knows m) (names : List String) (v : Visibility) :
    Leads u (Update.final (setMethodVisibility m names v) u) :=
  leads_keeps_setMethodVisibility hu hm names v u (.refl u)

theorem leads_setVisibility (hm : u.knows m) (c : Context) (names : List String) (v : Visibility) :
    Leads u (Update.final (setVisibility c m names v) u) := by
  unfold setVisibility
  split
  · refine Update.keeps_bind (Update.keeps_get_bind fun w hw => ?_)
      (fun _ => Update.keeps_lift (leads_keeps_holdContext _)) u (.refl u)
    exact Update.keeps_ite (fun _ => Update.keeps_throw _) (fun _ => Update.keeps_pure ()) w hw
  · exact Update.keeps_bind (leads_keeps_setMethodVisibility hu hm names v)
      (fun _ => Update.keeps_pure c) u (.refl u)

theorem leads_setClassMethodVisibility (hm : u.knows m) (names : List String) (v : Visibility) :
    Leads u (Update.final (setClassMethodVisibility m names v) u) :=
  leads_keeps_singletonClass_bind hu hm (fun _ _ hw hs =>
    leads_keeps_setMethodVisibility (hw.wellFormed hu) hs names v) u (.refl u)

theorem leads_keeps_defineAccessor (hm : u.knows m) (name : String) (writer : Bool) :
    Update.Keeps (Leads u) (defineAccessor m name writer) := by
  have hmade (n : String) {b : MethodBody} (hb : b.Known u) : Update.Keeps (Leads u)
      (addMethodWithVisibility m (.define n m .pub (.ofModule m) .toplevel b) .pub) :=
    leads_keeps_addMethodWithVisibility hu hm (Method.known_define n .pub hm
      (LexicalScope.known_ofModule hm) (Context.known_toplevel u) hb) .pub
  unfold defineAccessor
  refine Update.keeps_guard fun _ => ?_
  cases writer with
  | true => exact hmade _ trivial
  | false => exact hmade _ trivial

/-- Accessors are defined one after the other. -/
theorem leads_attrAccessor (hm : u.knows m) (names : List String) :
    Leads u (Update.final (attrReader m names) u) ∧
      Leads u (Update.final (attrWriter m names) u) ∧
      Leads u (Update.final (attrAccessor m names) u) := by
  have hreader (name : String) := leads_keeps_defineAccessor hu hm name false
  have hwriter (name : String) := leads_keeps_defineAccessor hu hm name true
  refine ⟨?_, ?_, ?_⟩
  · exact Update.keeps_forM (fun name _ => hreader name) u (.refl u)
  · exact Update.keeps_forM (fun name _ => hwriter name) u (.refl u)
  · exact Update.keeps_forM (fun name _ => Update.keeps_bind (hreader name) fun _ => hwriter name)
      u (.refl u)

omit hu in
theorem activateNamespace_apply (c : Context) (n : ModuleId) (u : Universe) :
    activateNamespace c n u =
      if (u.module n).isClass then .error .classNotMixin u
      else
        let held := holdContext (c.withRefinements (u.activatedBy c n))
          (reportNow (fun u => .activatedRefinements (u.display n)) u).2
        .ok held.1 held.2 := by
  unfold activateNamespace
  rw [Update.get_bind]
  dsimp only
  split <;> rfl

theorem refinementsKnown_activatedBy (hn : u.knows n) (hc : c.Known u) :
    Context.RefinementsKnown u (u.activatedBy c n) := by
  have hall (es : List (ModuleId × ModuleId)) (hes : ∀ e ∈ es, u.knows e.1 ∧ u.knows e.2)
      (t : Refinements) (ht : Context.RefinementsKnown u t) : Context.RefinementsKnown u
      (es.foldl (fun t e => Context.activate t e.1 e.2) t) := by
    induction es generalizing t with
    | nil => exact ht
    | cons e es ih =>
      obtain ⟨he, hr⟩ := hes e List.mem_cons_self
      exact ih (fun d hd => hes d (List.mem_cons_of_mem e hd)) _ (ht.activate he hr)
  refine hall _ (fun e he => ?_) c.refinements hc.refinementsKnown
  exact (hu.modules n hn).refinements e.1 e.2 (Table.mem_entries_iff.1 he)

/-- Activating the refinements of a namespace gives a context about what exists. -/
theorem leads_activateNamespace (hn : u.knows n) (hc : c.Known u) :
    Leads u (Update.final (activateNamespace c n) u) ∧
      ∀ d, Update.result? (activateNamespace c n) u = some d → d.Known u := by
  rw [Update.final, Update.result?, activateNamespace_apply]
  by_cases h : (u.module n).isClass = true
  · rw [if_pos h]
    exact ⟨.refl u, fun d hd => nomatch hd⟩
  · rw [if_neg h]
    refine ⟨leads_keeps_holdContext _ _ (leads_keeps_reportNow _ u (.refl u)), fun d hd => ?_⟩
    cases hd
    exact known_holdContext (hc.withRefinements (refinementsKnown_activatedBy hu hn hc)) _

omit hu in
theorem leads_keeps_hold (r : MethodResult) : Change.Keeps (Leads u) (CallSite.hold r) := by
  unfold CallSite.hold
  split
  · exact Change.keeps_pure r
  · exact Change.keeps_bind (leads_keeps_holdMethod _) fun _ => Change.keeps_pure _

/-- A lookup at a call site makes the receiver's singleton class where that is missing. -/
theorem leads_lookup (s : CallSite) (hx : x.Known u) : Leads u (s.lookup x u).2 := by
  refine Change.keeps_bind (leads_keeps_metaclassOf hu hx) (fun m => ?_) u (.refl u)
  refine Change.keeps_get_bind fun v hv => ?_
  cases s.cached? v m with
  | some r => exact hv
  | none =>
    dsimp only
    refine Change.keeps_get_bind (fun v hv => ?_) v hv
    refine Change.keeps_bind (leads_keeps_hold _) (fun r => ?_) v hv
    refine Change.keeps_get_bind fun w hw => ?_
    split
    · exact Leads.move hw (.report (.wentMegamorphic s.name)) trivial
    · exact hw

end Universe

end ObjectModel
