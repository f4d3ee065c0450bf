import ObjectModel.Proofs.Birth

/-!
# Stored methods

A method gets into a table by being added there, with its name as key.  All that happens to it
afterwards is that it is copied with its module or declared anew, which changes its identity, its
context or its declaring module.

* `Method.Akin`: methods that differ in such things at most;
* `Stocks`, `stocks_after`: a property of all stored methods, and what a move does to it;
* `Reachable.named`: every method is stored under its name.
-/

namespace ObjectModel

/-- The second method is the first with another identity, context, mark or declaring module. -/
structure Method.Akin (f g : Method) : Prop where
  definedName : g.definedName = f.definedName
  name : g.name = f.name
  visibility : g.visibility = f.visibility
  undefined : g.undefined = f.undefined
  body : g.body = f.body

namespace Method.Akin

variable {f g h : Method}

theorem trans (hfg : f.Akin g) (hgh : g.Akin h) : f.Akin h where
  definedName := hgh.definedName.trans hfg.definedName
  name := hgh.name.trans hfg.name
  visibility := hgh.visibility.trans hfg.visibility
  undefined := hgh.undefined.trans hfg.undefined
  body := hgh.body.trans hfg.body

theorem of_content (hc : g.toMethodContent = f.toMethodContent) : f.Akin g where
  definedName := congrArg MethodContent.definedName hc
  name := congrArg MethodContent.name hc
  visibility := congrArg MethodContent.visibility hc
  undefined := congrArg MethodContent.undefined hc
  body := congrArg MethodContent.body hc

theorem withDeclaringModule (f : Method) (m : ModuleId) : f.Akin (f.withDeclaringModule m) := by
  unfold Method.withDeclaringModule
  split <;> exact ⟨rfl, rfl, rfl, rfl, rfl⟩

theorem withContext (f : Method) (c : Context) : f.Akin (f.withContext c) := by
  unfold Method.withContext
  split <;> exact ⟨rfl, rfl, rfl, rfl, rfl⟩

theorem withBuiltIn (f : Method) (b : Bool) : f.Akin (f.withBuiltIn b) := by
  unfold Method.withBuiltIn
  split <;> exact ⟨rfl, rfl, rfl, rfl, rfl⟩

theorem holdMethod (f : Method) (u : Universe) : f.Akin (Universe.holdMethod f u).1 := by
  unfold Universe.holdMethod
  cases f.stamp <;> exact ⟨rfl, rfl, rfl, rfl, rfl⟩

theorem isDefined (h : f.Akin g) : g.isDefined = f.isDefined := by
  rw [Method.isDefined, h.undefined, Method.isDefined]

end Method.Akin

theorem Method.name_withVisibility (f : Method) (v : Visibility) :
    (f.withVisibility v).name = f.name := by
  unfold withVisibility
  split <;> rfl

/-- The context of toplevel code has an identity from the start. -/
theorem Context.issued_toplevel {u : Universe} (h : 0 < u.nextSerial) :
    Context.toplevel.Issued u := by
  intro s hs
  cases hs
  exact h

namespace Universe

variable {u v w : Universe} {m n t : ModuleId} {f : Method} {name : String}
  {P : String → Method → Prop}

/-- All methods that are stored, each under its key, satisfy `P`. -/
def Stocks (P : String → Method → Prop) (v : Universe) : Prop :=
  ∀ k name f, v.ownMethod k name = some f → P name f

/-- The property does not depend on identities, contexts, marks and declaring modules. -/
def Indifferent (P : String → Method → Prop) : Prop :=
  ∀ ⦃name : String⦄ ⦃f g : Method⦄, P name f → f.Akin g → P name g

namespace Stocks

theorem of_eq (h : Stocks P v) (hm : ∀ k, (w.module k).methods = (v.module k).methods) :
    Stocks P w := by
  intro k name f hf
  rw [ownMethod, hm] at hf
  exact h k name f hf

theorem neutral (h : Stocks P v) (hm : w.modules = v.modules) : Stocks P w :=
  h.of_eq fun k => by rw [module, hm, module]

/-- A change that retouches no methods. -/
theorem retouched (h : Stocks P v) (hr : Retouches (fun _ => False) v w) : Stocks P w :=
  h.of_eq fun k => hr.methods k id

/-- One record is changed, with methods that satisfy `P`. -/
theorem edit (h : Stocks P v) {r : Module → Module}
    (hr : ∀ name f, (r (v.module m)).methods.find? name = some f → P name f) :
    Stocks P (v.modifyModule m r) := by
  intro k name f hf
  rw [ownMethod, module_modifyModule] at hf
  split at hf
  · next he => exact hr name f (he ▸ hf)
  · exact h k name f hf

/-- A record is changed apart from its methods. -/
theorem editOther (h : Stocks P v) {r : Module → Module}
    (hr : (r (v.module m)).methods = (v.module m).methods) : Stocks P (v.modifyModule m r) :=
  h.edit fun name f hf => h m name f (by rwa [hr] at hf)

/-! ### Operations -/

theorem keeps_reportNow (e : Universe → Event) : Change.Keeps (Stocks P) (reportNow e) :=
  fun _ h => h.neutral rfl

theorem keeps_freshSerial : Change.Keeps (Stocks P) freshSerial :=
  fun _ h => h.neutral rfl

/-- A new module has no methods. -/
theorem keeps_allocate (kind : ModuleKind) (chain : Chain) :
    Change.Keeps (Stocks P) (allocate kind chain) := by
  intro v h k name f hf
  change ((v.setModule ⟨v.nextId⟩ { kind, chain }).module k).methods.find? name = some f at hf
  rw [module_setModule] at hf
  split at hf
  · cases hf
  · exact h k name f hf

theorem singletonClass (h : Stocks P v) (n : ModuleId) : Stocks P (singletonClass n v).2 := by
  cases hs : (v.module n).singleton with
  | some s =>
    rw [singletonClass_of_some hs]
    exact h
  | none =>
    have hsuper : Stocks P (singletonSuper n v).2 := by
      unfold singletonSuper
      rw [Change.get_bind]
      split
      · cases (v.module n).chain.parent with
        | none => exact h
        | some p =>
          by_cases hp : p.num < n.num
          · simp only [if_pos hp]
            exact singletonClass h p
          · simp only [if_neg hp]
            exact h
      · exact h
    rw [singletonClass_of_none hs, Change.bind_apply]
    generalize singletonSuper n v = made at hsuper
    have hborn := keeps_allocate (.cls (some (.module n))) { parent := some made.1 } _ hsuper
    exact hborn.editOther (r := fun r => { r with singleton := some _ }) rfl
termination_by n.num

theorem objectSingletonClass (h : Stocks P v) (o : ObjectId) :
    Stocks P (objectSingletonClass o v).2 := by
  unfold Universe.objectSingletonClass
  rw [Change.get_bind]
  cases (v.object o).singleton with
  | some s => exact h
  | none => exact (keeps_allocate _ _ v h).neutral rfl

theorem keeps_newClass (s : Option ModuleId) : Update.Keeps (Stocks P) (newClass s) := by
  unfold newClass
  cases s with
  | none => exact Update.keeps_lift (keeps_allocate _ _)
  | some p =>
    refine Update.keeps_get_bind fun v h => ?_
    refine Update.keeps_guard (fun _ => Update.keeps_guard fun _ => ?_) v h
    exact Update.keeps_guard fun _ => Update.keeps_lift (keeps_allocate _ _)

theorem keeps_newObject (n : ModuleId) : Update.Keeps (Stocks P) (newObject n) := by
  refine Update.keeps_get_bind fun v h => ?_
  refine Update.keeps_guard (fun _ => Update.keeps_guard fun _ => ?_) v h
  exact Update.keeps_bind (Update.keeps_lift fun w hw => hw.neutral rfl)
    fun _ => Update.keeps_pure _

theorem keeps_removeMethod (n : ModuleId) (name : String) :
    Update.Keeps (Stocks P) (removeMethod n name) := by
  refine Update.keeps_checked fun v h => ?_
  cases v.ownMethod n name with
  | none => exact h
  | some f =>
    have herased : Change.Keeps (Stocks P) (changeModule n (·.updateMethods (·.erase name))) := by
      refine fun v h => h.edit fun other g hg => ?_
      change ((v.module n).methods.erase name).find? other = some g at hg
      rw [Table.find?_erase] at hg
      split at hg
      · cases hg
      · exact h n other g hg
    exact Update.keeps_bind (Update.keeps_lift herased)
      (fun _ => Update.keeps_lift (keeps_reportNow _)) v h

theorem keeps_refinementOf (n t : ModuleId) : Change.Keeps (Stocks P) (refinementOf n t) := by
  refine Change.keeps_get_bind fun v h => ?_
  cases (v.module n).refinements.find? t with
  | some r => exact h
  | none =>
    have hnoted (r : ModuleId) : Change.Keeps (Stocks P) (changeModule n fun k =>
        { k with refinements := k.refinements.insert t r }) := fun _ h => h.editOther rfl
    exact Change.keeps_bind (keeps_allocate _ _) (fun r => Change.keeps_bind (hnoted r) fun _ =>
      Change.keeps_bind (keeps_reportNow _) fun _ => Change.keeps_pure r) v h

/-- Mixing in leaves methods alone. -/
theorem mixed (h : Stocks P u) (mv : Move) (hm : mv.Mixes) : Stocks P (u.after mv) := by
  obtain ⟨m, c, hr, -⟩ := rechains_of_mixes u hm
  exact h.of_eq fun k => (hr.tables k).1

section Akin

/-! ### Copying and declaring anew -/

variable (hP : Indifferent P)
include hP

/-- A method is added under its name. -/
theorem keeps_addMethod (hf : P f.name f) (n : ModuleId) :
    Update.Keeps (Stocks P) (addMethod n f) := by
  refine Update.keeps_checked fun v h => ?_
  rw [Update.final_lift_bind]
  have hakin := (Method.Akin.withBuiltIn f !v.options.coreLoaded).trans (.holdMethod _ v)
  have hheld := Change.keeps_holdMethod keeps_freshSerial (f.withBuiltIn !v.options.coreLoaded) v h
  generalize holdMethod (f.withBuiltIn !v.options.coreLoaded) v = held at hakin hheld
  obtain ⟨g, w⟩ := held
  dsimp only at hakin hheld ⊢
  have hstored : Stocks P (w.modifyModule n (·.updateMethods (·.insert g.name g))) := by
    refine hheld.edit fun name x hx => ?_
    change ((w.module n).methods.insert g.name g).find? name = some x at hx
    rw [Table.find?_insert] at hx
    split at hx
    · next he =>
      cases hx
      rw [← he, hakin.name]
      exact hP hf hakin
    · exact hheld n name x hx
  exact hstored.neutral rfl

/-- A table whose methods are given identities. -/
theorem held {t : Table String Method} (ht : ∀ name f, t.find? name = some f → P name f)
    {g : Method} (hg : (holdMethods t v).1.find? name = some g) : P name g := by
  obtain ⟨f, hf, hc⟩ := content_holdMethods hg
  exact hP (ht name f hf) (.of_content hc)

theorem redeclare (h : Stocks P v) (r : ModuleId) (c : Context) :
    Stocks P (redeclare r c v).2 := by
  intro k name g hg
  rw [ownMethod, module_redeclare] at hg
  split at hg
  · refine held hP (fun name f hf => ?_) hg
    obtain ⟨f₀, hf₀, rfl⟩ := Option.map_eq_some_iff.1 ((Table.find?_mapValues _ _ _).symm.trans hf)
    exact hP (h k name f₀ hf₀) (.withContext f₀ c)
  · exact h k name g hg

theorem redeclareEach (h : Stocks P v) (c : Context) (rs : List ModuleId) :
    Stocks P (Update.final (redeclareEach c rs) v) := by
  induction rs generalizing v with
  | nil => exact h
  | cons r rs ih =>
    rw [final_redeclareEach_cons]
    exact ih ((h.neutral (modules_holdContext _ v)).redeclare hP r _)

theorem openRefinement (h : Stocks P u) (n t : ModuleId) :
    Stocks P (Update.final (openRefinement n t) u) := by
  rw [final_openRefinement]
  split
  · have hmade := keeps_refinementOf n t u h
    generalize refinementOf n t u = made at hmade
    obtain ⟨r, w⟩ := made
    exact (hmade.neutral (modules_holdContext _ w)).redeclareEach hP _ _
  · exact h

theorem copyRecord (h : Stocks P u) (n : ModuleId) :
    Stocks P (Update.final (copyRecord n (u.module n)) u) := by
  have hborn := keeps_allocate (u.module n).kind (u.module n).chain u h
  unfold Universe.copyRecord
  rw [Update.final_lift_bind]
  generalize allocate (u.module n).kind (u.module n).chain u = made at hborn
  obtain ⟨copy, v⟩ := made
  rw [Update.final_lift_bind]
  -- the methods of the source, as declared by the copy, are all that the copy has
  generalize ht : (u.module n).methods.mapValues (fun _ f => f.withDeclaringModule copy) = t
  have hheld : Stocks P (holdMethods t v).2 := hborn.neutral rfl
  have hfilled : Stocks P ((holdMethods t v).2.modifyModule copy fun k => ({ k with
      methods := (holdMethods t v).1
      classVariables := (u.module n).classVariables } : Module).updateConstants
        fun _ => (u.module n).constants) := by
    refine hheld.edit fun name g hg => held hP (t := t) (v := v) (fun name f hf => ?_) hg
    rw [← ht, Table.find?_mapValues] at hf
    obtain ⟨f₀, hf₀, rfl⟩ := Option.map_eq_some_iff.1 hf
    exact hP (h n name f₀ hf₀) (.withDeclaringModule f₀ copy)
  exact hfilled.neutral rfl

theorem copyModule (h : Stocks P u) (n : ModuleId) :
    Stocks P (Update.final (copyModule n) u) := by
  have hcopied := h.copyRecord hP n
  unfold Universe.copyModule
  split
  · exact h
  · rw [Update.final_get_bind]
    unfold Universe.copyRecord at hcopied
    dsimp only
    split
    · exact h
    · exact h
    · exact hcopied
    · exact hcopied

end Akin

end Stocks

/-! ### Moves -/

/-- What holds of methods whatever their identities, contexts and declaring modules are goes on
holding of all that are stored, if it holds of a method that is added. -/
theorem stocks_after (hP : Indifferent P) (h : Stocks P u)
    {mv : Move} (hadd : ∀ m f, mv = .addMethod m f → P f.name f) : Stocks P (u.after mv) := by
  have hretouch {y : Update Unit} (hy : Update.Keeps (Retouches (fun _ => False) u) y) :
      Stocks P (Update.final y u) := h.retouched (hy u (.refl _ u))
  unfold after
  cases mv with
  | newModule => exact Stocks.keeps_allocate _ _ u h
  | newClass s => exact Update.keeps_discard (Stocks.keeps_newClass s) u h
  | copyModule m =>
    rw [Move.run, Update.final_discard]
    exact h.copyModule hP m
  | singletonClass m => exact h.singletonClass m
  | objectSingletonClass o => exact h.objectSingletonClass o
  | newObject m => exact Update.keeps_discard (Stocks.keeps_newObject m) u h
  | includeModule m n => exact h.mixed (.includeModule m n) trivial
  | prependModule m n => exact h.mixed (.prependModule m n) trivial
  | addMethod m f => exact Stocks.keeps_addMethod hP (hadd m f rfl) m u h
  | removeMethod m name => exact Stocks.keeps_removeMethod m name u h
  | openRefinement n t =>
    rw [Move.run, Update.final_discard]
    exact h.openRefinement hP n t
  | freezeModule m => exact hretouch (keeps_marked (fun _ => ⟨rfl, rfl, rfl, rfl⟩) fun _ => rfl)
  | sealModule m => exact hretouch (keeps_marked (fun _ => ⟨rfl, rfl, rfl, rfl⟩) fun _ => rfl)
  | setConstant m name x source =>
    exact hretouch (Update.keeps_discard (Retouches.keeps_setConstant m name x source))
  | removeConst m name => exact hretouch (Update.keeps_discard (Retouches.keeps_removeConst m name))
  | privateConstants m names => exact hretouch (Retouches.keeps_updateConstants m names _)
  | publicConstants m names => exact hretouch (Retouches.keeps_updateConstants m names _)
  | deprecateConstants m names => exact hretouch (Retouches.keeps_updateConstants m names _)
  | registerAutoload m name feature =>
    exact hretouch (Retouches.keeps_registerAutoload m name feature)
  | settleAutoload m name =>
    exact hretouch (Update.keeps_discard
      (Update.keeps_lift (Retouches.keeps_settleAutoload m name)))
  | setClassVariable m name x => exact hretouch (Retouches.keeps_setClassVariable m name x)
  | removeClassVariable m name =>
    exact hretouch (Update.keeps_discard (Retouches.keeps_removeClassVariable m name))
  | writeVariable o name x => exact h.neutral rfl
  | markAutoload a t => exact h.neutral rfl
  | newCounter => exact h.neutral rfl
  | raiseCounter c => exact h.neutral rfl
  | installLoader => exact h.neutral rfl
  | drawSerial => exact h.neutral rfl
  | report e => exact h.neutral rfl
  | takeReports => exact h.neutral rfl

/-- No method is stored in a fresh universe. -/
theorem stocks_create (options : Options) : Stocks P (create options) := by
  intro k name f hf
  rcases module_create options k with hr | ⟨e, -, rfl, hr⟩
  · rw [ownMethod, hr] at hf
    cases hf
  · rw [ownMethod, hr, coreRecord_methods] at hf
    cases hf

/-- Every method is stored under its name. -/
def Named : Universe → Prop := Stocks fun name f => f.name = name

theorem named_after (h : u.Named) (mv : Move) : (u.after mv).Named := by
  refine stocks_after (fun name f g hf hg => ?_) h fun _ _ _ => rfl
  exact hg.name.trans hf

theorem Reachable.named (h : Reachable u) : u.Named := by
  obtain ⟨options, hrun⟩ := h
  exact hrun.induction (stocks_create options) fun _ mv hv _ => named_after hv mv

/-- A reader may be added to any module at the start of a run. -/
theorem AllGenuine.addReader {ivar : String} {k : ModuleId} {v : Visibility} {mvs : List Move}
    (hm : u.knows m) (hk : u.knows k) (hs : 0 < u.nextSerial)
    (h : (u.after (.addMethod m (.ofReader name ivar k v))).AllGenuine mvs) :
    u.AllGenuine (.addMethod m (.ofReader name ivar k v) :: mvs) :=
  ⟨⟨hm, Method.known_ofReader hk name ivar v⟩, Context.issued_toplevel hs, h⟩

/-- So may one be under another name. -/
theorem AllGenuine.addReaderAs {ivar other : String} {k : ModuleId} {v : Visibility}
    {mvs : List Move} (hm : u.knows m) (hk : u.knows k) (hs : 0 < u.nextSerial)
    (h : (u.after (.addMethod m ((Method.ofReader name ivar k v).withName other))).AllGenuine mvs) :
    u.AllGenuine (.addMethod m ((Method.ofReader name ivar k v).withName other) :: mvs) := by
  have hknown := (Method.ofReader name ivar k v).known_withName other
    (Method.known_ofReader hk name ivar v)
  refine ⟨⟨hm, hknown⟩, ?_, h⟩
  have hcontext : ((Method.ofReader name ivar k v).withName other).context = .toplevel := by
    unfold Method.withName
    split <;> rfl
  show Context.Issued u _
  rw [hcontext]
  exact Context.issued_toplevel hs

end Universe

end ObjectModel
