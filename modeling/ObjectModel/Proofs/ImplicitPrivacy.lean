import ObjectModel.Proofs.Atomicity
import ObjectModel.Proofs.StoredMethods

/-!
# Implicit privacy

Methods of some names, initializers first of all, are private whatever is asked for.  The rule is
applied where a method is stored under a visibility, by the name that it is stored under.  Copying
and declaring anew keep names and visibilities.  An alias is stored as it was found, so the new name
does not make it private.

* `PrivateByName`, `ImplicitlyPrivate`: the rule for one method, and for all that are stored;
* `MethodStep`, `MethodStep.ByRule`: what code does by and by, and the steps that neither store a
  ready method nor ask for another visibility of an implicitly private one;
* `MethodStep.Exposes`: an alias that gives such a name to a method that is not private;
* `keeps_addMethodWithVisibility` and its kin: the operations that follow the rule;
* `implicitlyPrivate_throughout_iff`: the rule holds at every point of a history exactly if no step
  of it exposes a method;
* `exposed_initializer`: a history that ends with a public initializer.
-/

namespace ObjectModel

/-- Unless it only hides the name, a method stored under an implicitly private name is private. -/
def PrivateByName (name : String) (f : Method) : Prop :=
  Name.isImplicitlyPrivate name = true → f.isDefined = true → f.visibility = .priv

/-! ### Steps -/

/-- What code does by and by: operations on methods, and moves. -/
inductive MethodStep
  | define (m : ModuleId) (name : String) (scope : LexicalScope) (context : Context)
    (body : Script.Expr)
  | defineMethod (m : ModuleId) (name : String) (source : Closure ⊕ Method)
  | addWithVisibility (m : ModuleId) (f : Method) (v : Visibility)
  | aliasMethod (m : ModuleId) (newName oldName : String)
  | undefineMethod (m : ModuleId) (name : String)
  | setVisibility (m : ModuleId) (names : List String) (v : Visibility)
  | attrReader (m : ModuleId) (names : List String)
  | attrWriter (m : ModuleId) (names : List String)
  | attrAccessor (m : ModuleId) (names : List String)
  | move (mv : Move)

namespace MethodStep

/-- What a step does. -/
def run : MethodStep → Update Unit
  | define m name scope context body => discard <| Universe.define m name scope context body
  | defineMethod m name source => discard <| Universe.defineMethod m name source
  | addWithVisibility m f v => Universe.addMethodWithVisibility m f v
  | aliasMethod m newName oldName => Universe.aliasMethod m newName oldName
  | undefineMethod m name => Universe.undefineMethod m name
  | setVisibility m names v => Universe.setMethodVisibility m names v
  | attrReader m names => Universe.attrReader m names
  | attrWriter m names => Universe.attrWriter m names
  | attrAccessor m names => Universe.attrAccessor m names
  | move mv => mv.run

/-- The universe after a step, whether it succeeds or not. -/
def after (u : Universe) (s : MethodStep) : Universe := Update.final s.run u

/-- No ready method is stored as it is, and no implicitly private method is asked by its name to
have another visibility. -/
def ByRule : MethodStep → Prop
  | setVisibility _ names _ => ∀ name ∈ names, Name.isImplicitlyPrivate name = false
  | move (.addMethod _ _) => False
  | _ => True

/-- An alias gives an implicitly private name to a method that is not private. -/
def Exposes (u : Universe) : MethodStep → Prop
  | aliasMethod m newName oldName =>
    Name.isImplicitlyPrivate newName = true ∧ u.immutable? m = none ∧
      ∃ f ∈ (u.findMethodDeep m oldName).filter Method.isDefined, f.visibility ≠ .priv
  | _ => False

instance (s : MethodStep) : Decidable s.ByRule := by
  unfold ByRule
  split <;> infer_instance

instance (u : Universe) (s : MethodStep) : Decidable (s.Exposes u) := by
  unfold Exposes
  split <;> infer_instance

end MethodStep

namespace Universe

variable {u v : Universe} {m : ModuleId} {f : Method} {name : String} {s : MethodStep}
  {P : String → Method → Prop}

/-- The rule of implicit privacy holds of all stored methods. -/
def ImplicitlyPrivate : Universe → Prop := Stocks PrivateByName

/-- A property of universes holds now and after every step of a history. -/
def Throughout (P : Universe → Prop) (u : Universe) : List MethodStep → Prop
  | [] => P u
  | s :: ss => P u ∧ (s.after u).Throughout P ss

/-- Some step of a history exposes a method. -/
def Exposes (u : Universe) : List MethodStep → Prop
  | [] => False
  | s :: ss => s.Exposes u ∨ (s.after u).Exposes ss

instance decidableExposes (u : Universe) : (ss : List MethodStep) → Decidable (u.Exposes ss)
  | [] => inferInstanceAs (Decidable False)
  | s :: ss =>
    have := decidableExposes (s.after u) ss
    inferInstanceAs (Decidable (s.Exposes u ∨ (s.after u).Exposes ss))

/-! ### Methods that follow the rule -/

/-- A method is stored under its own name, and by the rule. -/
def Lawful (name : String) (f : Method) : Prop := f.name = name ∧ PrivateByName name f

theorem indifferent_lawful : Indifferent Lawful := by
  rintro name f g ⟨hn, hf⟩ h
  refine ⟨h.name.trans hn, fun hname hd => ?_⟩
  rw [h.visibility]
  exact hf hname (h.isDefined ▸ hd)

theorem stocks_lawful_iff : Stocks Lawful u ↔ u.Named ∧ u.ImplicitlyPrivate :=
  ⟨fun h => ⟨fun k name f hf => (h k name f hf).1, fun k name f hf => (h k name f hf).2⟩,
    fun h k name f hf => ⟨h.1 k name f hf, h.2 k name f hf⟩⟩

theorem lawful_of_not_implicit (h : Name.isImplicitlyPrivate f.name = false) : Lawful f.name f :=
  ⟨rfl, fun hname => absurd hname (by rw [h]; exact Bool.false_ne_true)⟩

theorem lawful_of_priv (h : f.visibility = .priv) : Lawful f.name f := ⟨rfl, fun _ _ => h⟩

theorem name_withDeclaringModule (f : Method) (m : ModuleId) :
    (f.withDeclaringModule m).name = f.name :=
  (Method.Akin.withDeclaringModule f m).name

/-- The visibility that a method is stored with fits its name. -/
theorem lawful_effective (f : Method) (v : Visibility) :
    Lawful (f.withVisibility (effectiveVisibility f.name v)).name
      (f.withVisibility (effectiveVisibility f.name v)) := by
  by_cases hname : Name.isImplicitlyPrivate f.name = true
  · refine lawful_of_priv ?_
    rw [Method.withVisibility_visibility, effectiveVisibility, if_pos hname]
  · refine lawful_of_not_implicit ?_
    rw [Method.name_withVisibility]
    exact Bool.eq_false_iff.2 hname

/-! ### Operations -/

/-- What is found from a module, or from the class of objects, is stored under the name. -/
theorem Stocks.of_findMethodDeep (h : Stocks P u) (hf : u.findMethodDeep m name = some f) :
    P name f := by
  have hfound (k : ModuleId) (hf : u.findMethod k name none = some f) : P name f := by
    rw [findMethod, lookupMethod, searchMethod_none, searchTables_method] at hf
    obtain ⟨a, -, ha⟩ := List.exists_of_findSome?_eq_some hf
    exact h a name f ha
  unfold findMethodDeep at hf
  split at hf
  · next hm => exact hfound m (hm.trans hf)
  · split at hf
    · cases hf
    · exact hfound Core.object hf

/-- A change by name acts on a method that is stored under the name, or fails. -/
theorem Stocks.keeps_findDefined_bind {α : Type} {y : Method → Update α}
    (h : ∀ f, P name f → Update.Keeps (Stocks P) (y f)) :
    Update.Keeps (Stocks P) (findDefined m name >>= y) := by
  intro v hv
  rw [Update.final_bind, findDefined_apply]
  cases hf : (v.findMethodDeep m name).filter Method.isDefined with
  | none => exact hv
  | some f => exact h f (hv.of_findMethodDeep (Option.filter_eq_some_iff.1 hf).1) v hv

theorem keeps_storeLawful (hf : Lawful f.name f) (m : ModuleId) :
    Update.Keeps (Stocks Lawful) (addMethod m f) :=
  Stocks.keeps_addMethod indifferent_lawful hf m

/-- Storing under a visibility follows the rule, in the singleton class as well. -/
theorem keeps_addMethodWithVisibility (m : ModuleId) (f : Method) (v : Visibility) :
    Update.Keeps (Stocks Lawful) (addMethodWithVisibility m f v) := by
  have hstored := lawful_effective f v
  rw [addMethodWithVisibility]
  cases heff : effectiveVisibility f.name v with
  | pub | prot | priv =>
    rw [heff] at hstored
    exact keeps_storeLawful hstored m
  | moduleFunction =>
    -- a module function has no implicitly private name
    have hname : Name.isImplicitlyPrivate f.name = false := by
      refine Bool.eq_false_iff.2 fun hname => ?_
      rw [effectiveVisibility, if_pos hname] at heff
      cases heff
    refine Update.keeps_bind (keeps_storeLawful (lawful_of_priv (by simp)) m) fun _ => ?_
    refine Update.keeps_bind (Update.keeps_lift fun v hv => hv.singletonClass m) fun s => ?_
    refine keeps_storeLawful (lawful_of_not_implicit ?_) s
    rw [Method.name_withVisibility, name_withDeclaringModule]
    exact hname

/-- A method is held and stored under a visibility, and that is reported. -/
theorem keeps_heldAndStored (m : ModuleId) (f : Method) (v : Visibility)
    (e : Universe → Event) : Update.Keeps (Stocks Lawful) (do
      let f ← holdMethod f
      addMethodWithVisibility m f v
      reportNow e
      return f : Update Method) :=
  Update.keeps_bind
    (Update.keeps_lift (Change.keeps_holdMethod Stocks.keeps_freshSerial f)) fun f =>
    Update.keeps_bind (keeps_addMethodWithVisibility m f v) fun _ =>
    Update.keeps_bind (Update.keeps_lift (Stocks.keeps_reportNow e)) fun _ => Update.keeps_pure f

theorem keeps_defineMethod (m : ModuleId) (name : String) (source : Closure ⊕ Method) :
    Update.Keeps (Stocks Lawful) (defineMethod m name source) := by
  unfold defineMethod
  cases source with
  | inl c => exact keeps_heldAndStored m _ .pub _
  | inr f =>
    refine Update.keeps_get_bind fun v hv => ?_
    cases v.rebind m f with
    | ok g => exact keeps_heldAndStored m (g.withName name) .pub _ v hv
    | error e => exact hv

theorem keeps_undefineMethod (m : ModuleId) (name : String) :
    Update.Keeps (Stocks Lawful) (undefineMethod m name) := by
  refine Update.keeps_bind (Update.keeps_checkMutable m) fun _ =>
    Stocks.keeps_findDefined_bind fun f _ => ?_
  -- what only hides a name need not be private
  have hhidden : Lawful (f.withDeclaringModule m).asUndefined.name
      (f.withDeclaringModule m).asUndefined := ⟨rfl, fun _ hd => nomatch hd⟩
  exact Update.keeps_bind (keeps_storeLawful hhidden m) fun _ =>
    Update.keeps_lift (Stocks.keeps_reportNow _)

theorem keeps_setOneVisibility (hname : Name.isImplicitlyPrivate name = false) (m : ModuleId)
    (v : Visibility) : Update.Keeps (Stocks Lawful) (setOneVisibility m name v) := by
  refine Stocks.keeps_findDefined_bind fun f hf => ?_
  refine Update.keeps_ite (fun _ => keeps_addMethodWithVisibility m f v) fun _ =>
    Update.keeps_ite (fun _ => keeps_storeLawful (lawful_of_not_implicit ?_) m) fun _ =>
    Update.keeps_pure ()
  rw [Method.name_withVisibility, hf.1]
  exact hname

theorem keeps_setMethodVisibility {names : List String}
    (hnames : ∀ name ∈ names, Name.isImplicitlyPrivate name = false) (m : ModuleId)
    (v : Visibility) : Update.Keeps (Stocks Lawful) (setMethodVisibility m names v) := by
  refine Update.keeps_bind (Update.keeps_get_bind fun w hw => ?_) fun _ =>
    Update.keeps_forM fun name hn => keeps_setOneVisibility (hnames name hn) m v
  exact Update.keeps_ite (fun _ => Update.keeps_throw _) (fun _ => Update.keeps_pure ()) w hw

theorem keeps_defineAccessor (m : ModuleId) (name : String) (writer : Bool) :
    Update.Keeps (Stocks Lawful) (defineAccessor m name writer) := by
  unfold defineAccessor
  refine Update.keeps_guard fun _ => ?_
  cases writer <;> exact keeps_addMethodWithVisibility m _ .pub

/-- An alias of a private method is one, and under other names anything goes. -/
theorem lawful_after_aliasMethod {newName oldName : String} (hu : Stocks Lawful u)
    (h : ¬(MethodStep.aliasMethod m newName oldName).Exposes u) :
    Stocks Lawful (Update.final (aliasMethod m newName oldName) u) := by
  unfold aliasMethod
  rw [Update.final_bind, findDefined_apply]
  cases hf : (u.findMethodDeep m oldName).filter Method.isDefined with
  | none => exact hu
  | some f =>
    dsimp only
    cases hi : u.immutable? m with
    | some e =>
      rw [Update.final_bind, addMethod_of_immutable hi]
      exact hu
    | none =>
      refine Update.keeps_bind (keeps_storeLawful ⟨rfl, fun hname _ => ?_⟩ m) (fun _ =>
        Update.keeps_lift (Stocks.keeps_reportNow _)) u hu
      rw [Method.withName_name] at hname
      have hvisibility : (f.withName newName).visibility = f.visibility := by
        unfold Method.withName
        split <;> rfl
      rw [hvisibility]
      exact Classical.byContradiction fun hne => h ⟨hname, hi, f, hf, hne⟩

/-- An alias that exposes a method leaves it exposed. -/
theorem not_implicitlyPrivate_of_exposes {newName oldName : String}
    (h : (MethodStep.aliasMethod m newName oldName).Exposes u) :
    ¬(Update.final (aliasMethod m newName oldName) u).ImplicitlyPrivate := by
  obtain ⟨hname, hi, f, hf, hne⟩ := h
  have hd : f.isDefined = true := (Option.filter_eq_some_iff.1 hf).2
  have hf' : (u.findMethodDeep m oldName).filter Method.isDefined = some f := hf
  have hfinal : Update.final (aliasMethod m newName oldName) u =
      (reportNow (fun u => .aliasedMethod (u.display m) newName oldName)
        (u.after (.addMethod m (f.withName newName)))).2 := by
    unfold aliasMethod
    rw [Update.final_bind, findDefined_apply, hf']
    dsimp only
    rw [Update.final_bind, addMethod_of_mutable hi]
    rfl
  have hentry : (Update.final (aliasMethod m newName oldName) u).ownMethod m newName =
      some (u.storedMethod (f.withName newName)) := by
    rw [hfinal]
    show ((u.after (.addMethod m (f.withName newName))).module m).methods.find? newName = _
    rw [module_addMethod hi, if_pos rfl, Method.withName_name]
    exact Table.find?_insert_self _ _ _
  have hnamed : (f.withName newName).visibility = f.visibility ∧
      (f.withName newName).isDefined = f.isDefined := by
    unfold Method.withName
    split <;> exact ⟨rfl, rfl⟩
  have hakin : (f.withName newName).Akin (u.storedMethod (f.withName newName)) :=
    (Method.Akin.withBuiltIn _ _).trans (.holdMethod _ u)
  intro hall
  have hpriv := hall m newName _ hentry hname (by rw [hakin.isDefined, hnamed.2, hd])
  rw [hakin.visibility, hnamed.1] at hpriv
  exact hne hpriv

/-! ### Steps and histories -/

/-- A step that exposes no method follows the rule. -/
theorem lawful_after (hu : Stocks Lawful u) (hs : s.ByRule) (h : ¬s.Exposes u) :
    Stocks Lawful (s.after u) := by
  unfold MethodStep.after
  cases s with
  | define m name scope context body =>
    exact Update.keeps_discard (keeps_heldAndStored m _ context.visibility _) u hu
  | defineMethod m name source => exact Update.keeps_discard (keeps_defineMethod m name source) u hu
  | addWithVisibility m f v => exact keeps_addMethodWithVisibility m f v u hu
  | aliasMethod m newName oldName => exact lawful_after_aliasMethod hu h
  | undefineMethod m name => exact keeps_undefineMethod m name u hu
  | setVisibility m names v => exact keeps_setMethodVisibility hs m v u hu
  | attrReader m names =>
    exact Update.keeps_forM (fun name _ => keeps_defineAccessor m name false) u hu
  | attrWriter m names =>
    exact Update.keeps_forM (fun name _ => keeps_defineAccessor m name true) u hu
  | attrAccessor m names =>
    exact Update.keeps_forM (fun name _ => Update.keeps_bind (keeps_defineAccessor m name false)
      fun _ => keeps_defineAccessor m name true) u hu
  | move mv =>
    refine stocks_after indifferent_lawful hu fun m f he => ?_
    subst he
    exact hs.elim

/-- One that exposes a method breaks it. -/
theorem not_implicitlyPrivate_after (h : s.Exposes u) : ¬(s.after u).ImplicitlyPrivate := by
  cases s with
  | aliasMethod m newName oldName => exact not_implicitlyPrivate_of_exposes h
  | _ => exact absurd h id

theorem throughout_iff_not_exposes (hu : Stocks Lawful u) {ss : List MethodStep}
    (hs : ∀ s ∈ ss, s.ByRule) : u.Throughout ImplicitlyPrivate ss ↔ ¬u.Exposes ss := by
  have hnow := (stocks_lawful_iff.1 hu).2
  induction ss generalizing u with
  | nil => exact iff_of_true hnow id
  | cons s ss ih =>
    obtain ⟨hfirst, hrest⟩ := List.forall_mem_cons.1 hs
    rw [Throughout, Exposes, not_or, and_iff_right hnow]
    by_cases hexposes : s.Exposes u
    · refine iff_of_false (fun hlater => not_implicitlyPrivate_after hexposes ?_)
        fun h => h.1 hexposes
      cases ss with
      | nil => exact hlater
      | cons t ts => exact hlater.1
    · have hnext := lawful_after hu hfirst hexposes
      rw [and_iff_right hexposes]
      exact ih hnext hrest (stocks_lawful_iff.1 hnext).2

/-- Along every history in which no ready method is stored as it is and no implicitly private method
is named to change its visibility, all defined methods that are stored under implicitly private
names are private, exactly as long as no alias gives such a name to a method that is not. -/
theorem implicitlyPrivate_throughout_iff (options : Options) (ss : List MethodStep)
    (hs : ∀ s ∈ ss, s.ByRule) :
    (create options).Throughout ImplicitlyPrivate ss ↔ ¬(create options).Exposes ss :=
  throughout_iff_not_exposes (stocks_create options) hs

/-- A class with an initializer, a second name for it, an accessor, and a copy of the class. -/
def copiedInitializer : List MethodStep := [
  .move (.newClass none),
  .define ⟨12⟩ "initialize" (.ofModule ⟨12⟩) .toplevel .receiver,
  .aliasMethod ⟨12⟩ "respond_to_missing?" "initialize",
  .attrAccessor ⟨12⟩ ["size"],
  .move (.copyModule ⟨12⟩)]

theorem implicitlyPrivate_copiedInitializer :
    (∀ s ∈ copiedInitializer, s.ByRule) ∧
      (create {}).Throughout ImplicitlyPrivate copiedInitializer := by
  have hs : ∀ s ∈ copiedInitializer, s.ByRule := by decide +kernel
  exact ⟨hs, (implicitlyPrivate_throughout_iff {} copiedInitializer hs).2 (by decide +kernel)⟩

/-- A class with a public method, and the alias that makes it the initializer. -/
def aliasedInitializer : List MethodStep := [
  .move (.newClass none),
  .define ⟨12⟩ "f" (.ofModule ⟨12⟩) .toplevel .receiver,
  .aliasMethod ⟨12⟩ "initialize" "f"]

/-- The universe at the end of a history. -/
def afterSteps (u : Universe) (ss : List MethodStep) : Universe :=
  ss.foldl MethodStep.after u

theorem exposed_initializer :
    (∀ s ∈ aliasedInitializer, s.ByRule) ∧
      ¬((create {}).afterSteps aliasedInitializer).ImplicitlyPrivate := by
  have hstored : (((create {}).afterSteps aliasedInitializer).ownMethod ⟨12⟩ "initialize").any
      (fun f => f.isDefined = true ∧ f.visibility = .pub) = true := by decide +kernel
  refine ⟨by decide +kernel, fun h => ?_⟩
  cases hf : ((create {}).afterSteps aliasedInitializer).ownMethod ⟨12⟩ "initialize" with
  | none => simp [hf] at hstored
  | some f =>
    rw [hf] at hstored
    obtain ⟨hd, hpub⟩ := of_decide_eq_true hstored
    have hpriv := h ⟨12⟩ "initialize" f hf (by decide +kernel) hd
    exact absurd (hpub.symm.trans hpriv) (by decide)

end Universe

end ObjectModel
