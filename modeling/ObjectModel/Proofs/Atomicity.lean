import ObjectModel.Proofs.Fronting
import ObjectModel.Proofs.Redeclaring

/-!
# Atomicity

A call that amends a module makes its checks before it writes, so one that fails has changed
nothing.  The one exception is a module function: its private half is stored in the module before
the singleton class, where the public half goes, is asked whether it may be changed.

* `Module.SameContents`, `Unchanged`: records, and all records, with the tables and chains of old;
* `Update.Sure`, `Update.Clean`: updates that cannot fail, and updates that change nothing that
  matters when they do;
* `Amendment`, `Amendment.run`: the calls in question;
* `LeavesHalf`: when a module function is left half stored;
* `addMethodWithVisibility_error`, `unchanged_iff_not_amendsHalf`: what a failure leaves;
* `leavesHalf_of_frozen_metaclass`: a failed call that made a method private.
-/

namespace ObjectModel

/-- The tables and the chain of the second record are those of the first. -/
structure Module.SameContents (r r' : Module) : Prop where
  methods : r'.methods = r.methods
  constants : r'.constants = r.constants
  classVariables : r'.classVariables = r.classVariables
  refinements : r'.refinements = r.refinements
  chain : r'.chain = r.chain

theorem Module.SameContents.refl (r : Module) : r.SameContents r := ⟨rfl, rfl, rfl, rfl, rfl⟩

theorem Module.SameContents.trans {r r' r'' : Module} (h : r.SameContents r')
    (h' : r'.SameContents r'') : r.SameContents r'' where
  methods := h'.methods.trans h.methods
  constants := h'.constants.trans h.constants
  classVariables := h'.classVariables.trans h.classVariables
  refinements := h'.refinements.trans h.refinements
  chain := h'.chain.trans h.chain

/-- The tables and the chain of every module are as they were in `u`. -/
def Universe.Unchanged (u v : Universe) : Prop := ∀ k, (u.module k).SameContents (v.module k)

/-! ### Failing -/

namespace Update

variable {α β : Type} {I : Universe → Prop}

/-- The update never fails. -/
def Sure (x : Update α) : Prop := ∀ u, ∃ a v, x u = .ok a v

/-- If the update fails, the predicate holds afterwards if it held before. -/
def Clean (I : Universe → Prop) (x : Update α) : Prop :=
  ∀ u e v, I u → x u = .error e v → I v

theorem sure_pure (a : α) : Sure (pure a) := fun u => ⟨a, u, rfl⟩

theorem sure_lift (x : Change α) : Sure (liftM x) := fun u => ⟨(x u).1, (x u).2, rfl⟩

theorem sure_bind {x : Update α} {f : α → Update β} (hx : Sure x) (hf : ∀ a, Sure (f a)) :
    Sure (x >>= f) := by
  intro u
  obtain ⟨a, v, hv⟩ := hx u
  rw [bind_apply, hv]
  exact hf a v

theorem sure_ite {p : Prop} [Decidable p] {x y : Update α} (hx : Sure x) (hy : Sure y) :
    Sure (if p then x else y) := by
  split
  · exact hx
  · exact hy

theorem Sure.clean {x : Update α} (h : Sure x) : Clean I x := by
  intro u e v _ hx
  obtain ⟨a, w, hw⟩ := h u
  cases hw.symm.trans hx

/-- What comes before the step that fails has to keep the predicate. -/
theorem clean_bind {x : Update α} {f : α → Update β} (hx : Update.Keeps I x)
    (hf : ∀ a, Clean I (f a)) : Clean I (x >>= f) := by
  intro u e v hu h
  have hmid := hx u hu
  rw [bind_apply] at h
  cases hrun : x u with
  | ok a w =>
    rw [hrun] at h
    rw [Update.final, hrun] at hmid
    exact hf a w e v hmid h
  | error e' w =>
    rw [hrun] at h
    rw [Update.final, hrun] at hmid
    cases h
    exact hmid

/-- What comes after the last step that can fail does not matter. -/
theorem error_of_bind_sure {x : Update α} {f : α → Update β} {u v : Universe} {e : Error}
    (hf : ∀ a, Sure (f a)) (h : (x >>= f) u = .error e v) : x u = .error e v := by
  rw [bind_apply] at h
  cases hrun : x u with
  | ok a w =>
    rw [hrun] at h
    obtain ⟨b, w', hw⟩ := hf a w
    cases hw.symm.trans h
  | error e' w =>
    rw [hrun] at h
    cases h
    rfl

theorem clean_bind_sure {x : Update α} {f : α → Update β} (hx : Clean I x)
    (hf : ∀ a, Sure (f a)) : Clean I (x >>= f) :=
  fun u e v hu h => hx u e v hu (error_of_bind_sure hf h)

theorem error_of_result? {x : Update α} {u : Universe} (h : Update.result? x u = none) :
    ∃ e, x u = .error e (Update.final x u) := by
  unfold result? final at *
  cases hrun : x u with
  | ok a v =>
    rw [hrun] at h
    cases h
  | error e v => exact ⟨e, rfl⟩

/-- The same from the universe just read. -/
theorem clean_get_bind {f : Universe → Update β}
    (h : ∀ u e v, I u → f u u = .error e v → I v) : Clean I (get >>= f) := h

/-- What follows a failing check only matters where the check passes. -/
theorem clean_guard {p : Prop} [Decidable p] {e : Error} {f : Unit → Update α}
    (h : ¬p → Clean I (f ())) : Clean I (if p then throw e >>= f else f ()) := by
  split
  · intro u e' v hu hx
    cases hx
    exact hu
  · next hp => exact h hp

theorem error_of_discard {x : Update α} {u v : Universe} {e : Error}
    (h : (discard x : Update Unit) u = .error e v) : x u = .error e v := by
  simp only [discard, Functor.mapConst, EStateM.map, Function.comp_apply] at h
  cases hrun : x u with
  | ok a w =>
    rw [hrun] at h
    cases h
  | error e' w =>
    rw [hrun] at h
    cases h
    rfl

theorem clean_discard {x : Update α} (h : Clean I x) : Clean I (discard x : Update Unit) :=
  fun u e v hu hx => h u e v hu (error_of_discard hx)

end Update

namespace Universe

variable {u v w : Universe} {m n k s : ModuleId} {f : Method} {name : String} {e : Error}
  {vis : Visibility} {I : Universe → Prop}

namespace Unchanged

theorem refl (u : Universe) : Unchanged u u := fun _ => .refl _

theorem neutral (h : Unchanged u v) (hm : w.modules = v.modules) : Unchanged u w := by
  intro k
  rw [module_congr hm]
  exact h k

/-- A change of what does not count in one record. -/
theorem edit (h : Unchanged u v) {f : Module → Module}
    (hf : (v.module n).SameContents (f (v.module n))) : Unchanged u (v.modifyModule n f) := by
  intro k
  rw [module_modifyModule]
  split
  · next he => exact (h k).trans (he ▸ hf)
  · exact h k

theorem keeps_holdMethod (f : Method) : Change.Keeps (Unchanged u) (holdMethod f) :=
  Change.keeps_holdMethod (fun _ h => h.neutral rfl) f

end Unchanged

/-! ### Storing methods -/

/-- The entry that is made when a method is stored. -/
def storedMethod (u : Universe) (f : Method) : Method :=
  (holdMethod (f.withBuiltIn !u.options.coreLoaded) u).1

theorem immutable?_eq_none_iff : u.immutable? m = none ↔ ¬(u.module m).Fixed :=
  ⟨not_fixed_of_immutable?, immutable?_of_not_fixed⟩

theorem addMethod_of_immutable (h : u.immutable? m = some e) (f : Method) :
    addMethod m f u = .error e u := by
  rw [addMethod, Update.bind_apply, checkMutable, Update.get_bind, h]
  rfl

theorem addMethod_of_mutable (h : u.immutable? m = none) (f : Method) :
    addMethod m f u = .ok () (u.after (.addMethod m f)) := by
  have hok : ∃ v, addMethod m f u = .ok () v := by
    rw [addMethod, Update.bind_apply, checkMutable, Update.get_bind, h]
    exact ⟨_, rfl⟩
  obtain ⟨v, hv⟩ := hok
  show _ = EStateM.Result.ok () (Update.final (addMethod m f) u)
  rw [Update.final, hv]

/-- Storing a method makes one entry in one table. -/
theorem module_addMethod (h : u.immutable? m = none) (f : Method) (k : ModuleId) :
    (u.after (.addMethod m f)).module k =
      if m = k then (u.module k).updateMethods (·.insert f.name (u.storedMethod f))
      else u.module k := by
  obtain ⟨hcontent, hmodules⟩ := holdMethod_spec (f.withBuiltIn !u.options.coreLoaded) u
  have hname : (u.storedMethod f).name = f.name :=
    (congrArg MethodContent.name hcontent).trans (name_withBuiltIn f _)
  show (Update.final (addMethod m f) u).module k = _
  unfold addMethod
  rw [final_checkMutable_bind, if_pos h, ← hname]
  show ((holdMethod (f.withBuiltIn !u.options.coreLoaded) u).2.modifyModule m
    (·.updateMethods (·.insert (u.storedMethod f).name (u.storedMethod f)))).module k = _
  rw [module_modifyModule, module_congr hmodules]

/-- The tables are as before only if the entry was there. -/
theorem unchanged_addMethod_iff (hm : u.knows m) (h : u.immutable? m = none) (f : Method) :
    (∀ k, u.knows k → (u.module k).SameContents ((u.after (.addMethod m f)).module k)) ↔
      u.ownMethod m f.name = some (u.storedMethod f) := by
  constructor
  · intro hsame
    have hmethods := (hsame m hm).methods
    rw [module_addMethod h, if_pos rfl] at hmethods
    rw [ownMethod, ← hmethods]
    exact Table.find?_insert_self _ _ _
  · intro hentry k _
    rw [module_addMethod h]
    split
    · next he =>
      subst he
      exact ⟨Table.insert_of_find? hentry, rfl, rfl, rfl, rfl⟩
    · exact .refl _

theorem clean_addMethod (m : ModuleId) (f : Method) : Update.Clean I (addMethod m f) := by
  intro w e v hw h
  cases hi : w.immutable? m with
  | none => cases (addMethod_of_mutable hi f).symm.trans h
  | some e' =>
    cases (addMethod_of_immutable hi f).symm.trans h
    exact hw

/-- A singleton class that is made on demand may be changed. -/
theorem immutable?_singletonClass_of_none (h : (u.module m).singleton = none) :
    (singletonClass m u).2.immutable? (singletonClass m u).1 = none := by
  refine immutable?_of_not_fixed fun hf => ?_
  rw [singletonClass_of_none h, Change.bind_apply] at hf
  generalize singletonSuper m u = made at hf
  obtain ⟨p, w⟩ := made
  change Module.Fixed (((allocate (.cls (some (.module m))) { parent := some p } w).2.modifyModule m
    fun r => { r with singleton := some ⟨w.nextId⟩ }).module ⟨w.nextId⟩) at hf
  have hborn : (allocate (.cls (some (.module m))) { parent := some p } w).2.module ⟨w.nextId⟩ =
      { kind := .cls (some (.module m)), chain := { parent := some p } } :=
    module_setModule_self w _ _
  rw [module_modifyModule, hborn] at hf
  split at hf
  · exact Bool.false_ne_true (hf.elim id id)
  · exact Bool.false_ne_true (hf.elim id id)

/-- The singleton class of a module is there, and may not be changed. -/
def FixedMetaclass (u : Universe) (m : ModuleId) : Prop :=
  ∃ s, (u.module m).singleton = some s ∧ u.immutable? s ≠ none

/-- Storing under a visibility fails before anything is written, or, for a module function, after the
private half is. -/
theorem addMethodWithVisibility_error (h : addMethodWithVisibility m f vis u = .error e v) :
    (u.immutable? m ≠ none ∧ v = u) ∨
    (effectiveVisibility f.name vis = .moduleFunction ∧ u.immutable? m = none ∧
      u.FixedMetaclass m ∧ v = u.after (.addMethod m (f.withVisibility .priv))) := by
  have hone {g : Method} (h : addMethod m g u = .error e v) : u.immutable? m ≠ none ∧ v = u := by
    cases hi : u.immutable? m with
    | none => cases (addMethod_of_mutable hi g).symm.trans h
    | some e' =>
      cases (addMethod_of_immutable hi g).symm.trans h
      exact ⟨nofun, rfl⟩
  rw [addMethodWithVisibility] at h
  cases heff : effectiveVisibility f.name vis with
  | pub | prot | priv =>
    rw [heff] at h
    exact .inl (hone h)
  | moduleFunction =>
    rw [heff] at h
    cases hi : u.immutable? m with
    | some e' =>
      dsimp only at h
      rw [Update.bind_apply, addMethod_of_immutable hi] at h
      cases h
      exact .inl ⟨nofun, rfl⟩
    | none =>
      refine .inr ⟨rfl, rfl, ?_⟩
      dsimp only at h
      rw [Update.bind_apply, addMethod_of_mutable hi] at h
      have hmodule := module_addMethod hi (f.withVisibility .priv)
      generalize u.after (.addMethod m (f.withVisibility .priv)) = w at h hmodule
      have hsingleton (k : ModuleId) : (w.module k).singleton = (u.module k).singleton := by
        rw [hmodule]
        split <;> rfl
      have hfixed (k : ModuleId) : (w.module k).Fixed ↔ (u.module k).Fixed := by
        rw [hmodule]
        split <;> rfl
      change addMethod (singletonClass m w).1 _ (singletonClass m w).2 = .error e v at h
      cases hs : (w.module m).singleton with
      | none =>
        cases (addMethod_of_mutable (immutable?_singletonClass_of_none hs) _).symm.trans h
      | some s =>
        rw [singletonClass_of_some hs] at h
        cases his : w.immutable? s with
        | none => cases (addMethod_of_mutable his _).symm.trans h
        | some e' =>
          cases (addMethod_of_immutable his _).symm.trans h
          refine ⟨⟨s, (hsingleton m).symm.trans hs, fun hnone => ?_⟩, rfl⟩
          have := immutable?_of_not_fixed fun hf =>
            immutable?_eq_none_iff.1 hnone ((hfixed s).1 hf)
          rw [this] at his
          cases his

/-- What is stored as public is stored at once. -/
theorem addMethodWithVisibility_pub (m : ModuleId) (f : Method) :
    ∃ vis, addMethodWithVisibility m f .pub = addMethod m (f.withVisibility vis) := by
  have heff : effectiveVisibility f.name .pub = .priv ∨ effectiveVisibility f.name .pub = .pub := by
    unfold effectiveVisibility
    split
    · exact .inl rfl
    · exact .inr rfl
  rw [addMethodWithVisibility]
  rcases heff with h | h
  · exact ⟨.priv, by rw [h]⟩
  · exact ⟨.pub, by rw [h]⟩

theorem clean_addMethodWithVisibility_pub (m : ModuleId) (f : Method) :
    Update.Clean I (addMethodWithVisibility m f .pub) := by
  obtain ⟨vis, h⟩ := addMethodWithVisibility_pub m f
  rw [h]
  exact clean_addMethod m _

/-! ### Clean operations -/

theorem keeps_findDefined (m : ModuleId) (name : String) :
    Update.Keeps I (findDefined m name) := by
  refine Update.keeps_get_bind fun u hu => ?_
  cases (u.findMethodDeep m name).filter Method.isDefined with
  | some f => exact hu
  | none => exact hu

theorem clean_aliasMethod (m : ModuleId) (newName oldName : String) :
    Update.Clean I (aliasMethod m newName oldName) :=
  Update.clean_bind (keeps_findDefined m oldName) fun f =>
    Update.clean_bind_sure (clean_addMethod m (f.withName newName)) fun _ => Update.sure_lift _

theorem clean_undefineMethod (m : ModuleId) (name : String) :
    Update.Clean I (undefineMethod m name) :=
  Update.clean_bind (Update.keeps_checkMutable m) fun _ =>
    Update.clean_bind (keeps_findDefined m name) fun _ =>
      Update.clean_bind_sure (clean_addMethod m _) fun _ => Update.sure_lift _

theorem clean_removeMethod (m : ModuleId) (name : String) :
    Update.Clean I (removeMethod m name) := by
  refine Update.clean_bind (Update.keeps_checkMutable m) fun _ => Update.clean_get_bind ?_
  intro u e v hu h
  cases hf : u.ownMethod m name with
  | none =>
    rw [hf] at h
    cases h
    exact hu
  | some f =>
    rw [hf] at h
    exact (Update.sure_bind (Update.sure_lift _) fun _ => Update.sure_lift _).clean u e v hu h

theorem clean_defineAccessor (m : ModuleId) (name : String) (writer : Bool) :
    Update.Clean I (defineAccessor m name writer) := by
  unfold defineAccessor
  refine Update.clean_guard fun _ => ?_
  cases writer <;> exact clean_addMethodWithVisibility_pub m _

theorem clean_defineMethod (hI : ∀ f, Change.Keeps I (holdMethod f)) (m : ModuleId)
    (name : String) (source : Closure ⊕ Method) : Update.Clean I (defineMethod m name source) := by
  have hmade (f : Method) : Update.Clean I (do
      let f ← holdMethod (f.withName name)
      addMethodWithVisibility m f .pub
      reportNow fun u => .definedMethod (u.display m) name
      return f : Update Method) :=
    Update.clean_bind (Update.keeps_lift (hI _)) fun _ =>
      Update.clean_bind_sure (clean_addMethodWithVisibility_pub m _) fun _ =>
        Update.sure_bind (Update.sure_lift _) fun _ => Update.sure_pure _
  unfold defineMethod
  cases source with
  | inl k => exact hmade _
  | inr f =>
    refine Update.clean_get_bind fun u e v hu h => Update.clean_bind ?_ hmade u e v hu h
    unfold rebind
    split
    · exact Update.keeps_pure _
    · exact Update.keeps_throw _

/-- Mixing in checks everything first. -/
theorem clean_mixed (m n : ModuleId) :
    Update.Clean I (includeModule m n) ∧ Update.Clean I (prependModule m n) := by
  have hcheck (cycle : Error) : Update.Keeps I (checkMixin m n cycle) :=
    Update.keeps_checked fun u hu => Update.keeps_guard (fun _ => Update.keeps_ite
      (fun _ => Update.keeps_throw _) fun _ => Update.keeps_pure _) u hu
  have hrest {p : Prop} [Decidable p] (x y : Change Unit) :
      Update.Sure (if p then (do x; y : Update Unit) else pure ()) :=
    Update.sure_ite (Update.sure_bind (Update.sure_lift x) fun _ => Update.sure_lift y)
      (Update.sure_pure _)
  exact ⟨Update.clean_bind (hcheck _) fun _ => Update.clean_get_bind fun u => (hrest _ _).clean u,
    Update.clean_bind (hcheck _) fun _ => Update.clean_get_bind fun u => (hrest _ _).clean u⟩

/-- An assignment reports once or twice and may name a module, but it cannot fail any more. -/
theorem sure_reported {α : Type} {p : Prop} [Decidable p] {e e' : Universe → Event} {y : Update α}
    (hy : Update.Sure y) : Update.Sure
      (if p then reportNow e' >>= fun _ => reportNow e >>= fun _ => y
        else reportNow e >>= fun _ => y) := by
  have hlast : Update.Sure (reportNow e >>= fun _ => y) :=
    Update.sure_bind (Update.sure_lift _) fun _ => hy
  exact Update.sure_ite (Update.sure_bind (Update.sure_lift _) fun _ => hlast) hlast

theorem clean_constSet (m : ModuleId) (name : String) (x : Value) :
    Update.Clean I (constSet m name x) := by
  refine Update.clean_bind (Stems.keeps_checkConstantName name) fun _ => Update.clean_discard ?_
  refine Update.clean_bind (Update.keeps_checkMutable m) fun _ => Update.clean_get_bind fun u => ?_
  refine (Update.sure_bind (Update.sure_lift _) fun _ => ?_).clean u
  cases x with
  | module child =>
    have hadopted : Update.Sure (modify fun u => u.adopt m name child) :=
      fun u => ⟨(), u.adopt m name child, rfl⟩
    exact sure_reported (Update.sure_bind hadopted fun _ => Update.sure_pure _)
  | nil | bool | int | symbol | string | object => exact sure_reported (Update.sure_pure _)

/-- The table that a constant is dropped from in vain stays as it is. -/
theorem Table.erase_of_find? {κ α : Type} [DecidableEq κ] {t : Table κ α} {k : κ}
    (h : t.find? k = none) : t.erase k = t := by
  have hne : ∀ e ∈ t.entries, decide (e.1 ≠ k) = true := fun e he =>
    decide_eq_true fun hk => Table.find?_eq_none_iff.1 h (hk ▸ List.mem_map_of_mem he)
  cases t
  simp only [Table.erase, List.filter_eq_self.2 hne]

theorem clean_removeConst (m : ModuleId) (name : String) :
    Update.Clean (Unchanged u) (removeConst m name) := by
  refine Update.clean_bind (Stems.keeps_checkConstantName name) fun _ =>
    Update.clean_bind (Update.keeps_checkMutable m) fun _ => Update.clean_get_bind ?_
  intro w e v hw h
  cases hc : w.ownConstant m name with
  | some c =>
    rw [hc] at h
    exact (Update.sure_bind (Update.sure_lift _) fun _ => Update.sure_bind (Update.sure_lift _)
      fun _ => Update.sure_pure _).clean w e v hw h
  | none =>
    rw [hc] at h
    cases h
    exact hw.edit (f := (·.updateConstants (·.erase name)))
      ⟨rfl, Table.erase_of_find? hc, rfl, rfl, rfl⟩

theorem clean_updateConstants (m : ModuleId) (name : String) (f : Constant → Constant) :
    Update.Clean (Unchanged u) (updateConstants m [name] f) := by
  refine Update.clean_bind (Update.keeps_checkMutable m) fun _ =>
    Update.clean_bind_sure ?_ fun _ => Update.sure_pure _
  refine Update.clean_bind (Stems.keeps_checkConstantName name) fun _ => Update.clean_get_bind ?_
  intro w e v hw h
  cases hc : w.ownConstant m name with
  | some c =>
    rw [hc] at h
    exact (Update.sure_lift _).clean w e v hw h
  | none =>
    rw [hc] at h
    cases h
    exact hw.edit (f := (·.updateConstants id)) ⟨rfl, rfl, rfl, rfl, rfl⟩

theorem clean_registerAutoload (m : ModuleId) (name feature : String) :
    Update.Clean I (registerAutoload m name feature) := by
  refine Update.clean_bind (Stems.keeps_checkConstantName name) fun _ =>
    Update.clean_guard fun _ => Update.clean_bind (Update.keeps_checkMutable m) fun _ =>
      Update.clean_get_bind fun u => ?_
  exact (Update.sure_ite (Update.sure_lift _) (Update.sure_bind (Update.sure_lift _) fun _ =>
    Update.sure_bind (Update.sure_lift _) fun _ => Update.sure_lift _)).clean u

theorem keeps_checkClassVariableName (m : ModuleId) (name : String) :
    Update.Keeps I (checkClassVariableName m name) := by
  unfold checkClassVariableName
  split
  · exact Update.keeps_get_bind fun _ h => h
  · exact Update.keeps_pure ()

theorem clean_classVariableSet (m : ModuleId) (name : String) (x : Value) :
    Update.Clean I (classVariableSet m name x) := by
  refine Update.clean_bind (keeps_checkClassVariableName m name) fun _ =>
    Update.clean_bind (Update.keeps_checkMutable m) fun _ => Update.clean_get_bind ?_
  intro u e v hu h
  cases hh : u.classVariableHolder? m name with
  | some n =>
    rw [hh] at h
    exact (Update.sure_lift _).clean u e v hu h
  | none =>
    rw [hh] at h
    exact (Update.sure_bind (Update.sure_lift _) fun _ => Update.sure_lift _).clean u e v hu h

theorem clean_removeClassVariable (m : ModuleId) (name : String) :
    Update.Clean I (removeClassVariable m name) := by
  refine Update.clean_bind (keeps_checkClassVariableName m name) fun _ =>
    Update.clean_bind (Update.keeps_checkMutable m) fun _ => Update.clean_get_bind ?_
  intro u e v hu h
  cases hx : u.ownClassVariable m name with
  | none =>
    rw [hx] at h
    cases h
    exact hu
  | some x =>
    rw [hx] at h
    exact (Update.sure_bind (Update.sure_lift _) fun _ => Update.sure_bind (Update.sure_lift _)
      fun _ => Update.sure_pure _).clean u e v hu h

/-! ### Accessors -/

/-- Storing a method leaves it open or closed to changes who was. -/
theorem fixed_addMethod (h : u.immutable? m = none) (f : Method) (k : ModuleId) :
    ((u.after (.addMethod m f)).module k).Fixed ↔ (u.module k).Fixed := by
  rw [module_addMethod h]
  split <;> rfl

/-- Where a reader could be defined, a writer can be too. -/
theorem defineAccessor_writer {v : Universe} {a : Unit}
    (h : defineAccessor m name false u = .ok a v) :
    ∃ w, defineAccessor m name true v = .ok () w := by
  unfold defineAccessor at h ⊢
  split at h
  · cases h
  · next hname =>
    rw [if_neg hname]
    obtain ⟨vis, hvis⟩ := addMethodWithVisibility_pub m
      (.define name m .pub (.ofModule m) .toplevel (.reader s!"@{name}"))
    obtain ⟨vis', hvis'⟩ := addMethodWithVisibility_pub m
      (.define s!"{name}=" m .pub (.ofModule m) .toplevel (.writer s!"@{name}"))
    change addMethodWithVisibility m _ .pub u = .ok a v at h
    show ∃ w, addMethodWithVisibility m _ .pub v = .ok () w
    rw [hvis] at h
    rw [hvis']
    cases hi : u.immutable? m with
    | some e => cases (addMethod_of_immutable hi _).symm.trans h
    | none =>
      rw [addMethod_of_mutable hi] at h
      cases h
      refine ⟨_, addMethod_of_mutable (immutable?_of_not_fixed fun hf => ?_) _⟩
      exact immutable?_eq_none_iff.1 hi ((fixed_addMethod hi _ m).1 hf)

theorem clean_attrAccessor (m : ModuleId) (name : String) :
    Update.Clean I (attrAccessor m [name]) := by
  refine Update.clean_bind_sure ?_ fun _ => Update.sure_pure _
  intro u e v hu h
  change (defineAccessor m name false >>= fun _ => defineAccessor m name true) u = _ at h
  rw [Update.bind_apply] at h
  cases hread : defineAccessor m name false u with
  | error e' w =>
    rw [hread] at h
    cases h
    exact clean_defineAccessor m name false u e v hu hread
  | ok a w =>
    rw [hread] at h
    obtain ⟨w', hw'⟩ := defineAccessor_writer hread
    cases hw'.symm.trans h

end Universe

/-! ### Amendments -/

/-- The calls that amend the tables or the chain of a module, each for one name. -/
inductive Amendment
  | define (m : ModuleId) (name : String) (scope : LexicalScope) (context : Context)
    (body : Script.Expr)
  | defineMethod (m : ModuleId) (name : String) (source : Closure ⊕ Method)
  | aliasMethod (m : ModuleId) (newName oldName : String)
  | removeMethod (m : ModuleId) (name : String)
  | undefineMethod (m : ModuleId) (name : String)
  | setVisibility (m : ModuleId) (name : String) (v : Visibility)
  | attrReader (m : ModuleId) (name : String)
  | attrWriter (m : ModuleId) (name : String)
  | attrAccessor (m : ModuleId) (name : String)
  | includeModule (m n : ModuleId)
  | prependModule (m n : ModuleId)
  | constSet (m : ModuleId) (name : String) (x : Value)
  | removeConst (m : ModuleId) (name : String)
  | privateConstant (m : ModuleId) (name : String)
  | publicConstant (m : ModuleId) (name : String)
  | deprecateConstant (m : ModuleId) (name : String)
  | registerAutoload (m : ModuleId) (name feature : String)
  | classVariableSet (m : ModuleId) (name : String) (x : Value)
  | removeClassVariable (m : ModuleId) (name : String)

namespace Amendment

/-- The module that a call is made on. -/
def target : Amendment → ModuleId
  | define m _ _ _ _ | defineMethod m _ _ | aliasMethod m _ _ | removeMethod m _
  | undefineMethod m _ | setVisibility m _ _ | attrReader m _ | attrWriter m _
  | attrAccessor m _ | includeModule m _ | prependModule m _ | constSet m _ _ | removeConst m _
  | privateConstant m _ | publicConstant m _ | deprecateConstant m _ | registerAutoload m _ _
  | classVariableSet m _ _ | removeClassVariable m _ => m

/-- What a call does. -/
def run : Amendment → Update Unit
  | define m name scope context body => discard <| Universe.define m name scope context body
  | defineMethod m name source => discard <| Universe.defineMethod m name source
  | aliasMethod m newName oldName => Universe.aliasMethod m newName oldName
  | removeMethod m name => Universe.removeMethod m name
  | undefineMethod m name => Universe.undefineMethod m name
  | setVisibility m name v => Universe.setMethodVisibility m [name] v
  | attrReader m name => Universe.attrReader m [name]
  | attrWriter m name => Universe.attrWriter m [name]
  | attrAccessor m name => Universe.attrAccessor m [name]
  | includeModule m n => Universe.includeModule m n
  | prependModule m n => Universe.prependModule m n
  | constSet m name x => Universe.constSet m name x
  | removeConst m name => discard <| Universe.removeConst m name
  | privateConstant m name => Universe.privateConstants m [name]
  | publicConstant m name => Universe.publicConstants m [name]
  | deprecateConstant m name => Universe.deprecateConstants m [name]
  | registerAutoload m name feature => Universe.registerAutoload m name feature
  | classVariableSet m name x => Universe.classVariableSet m name x
  | removeClassVariable m name => discard <| Universe.removeClassVariable m name

end Amendment

namespace Universe

variable {u v : Universe} {m : ModuleId} {f : Method} {name : String} {e : Error}
  {vis : Visibility} {a : Amendment}

/-- Storing a module function leaves its private half behind: the module may be changed but not its
singleton class, and the private half is not there yet. -/
def LeavesHalf (u : Universe) (m : ModuleId) (f : Method) (vis : Visibility) : Prop :=
  effectiveVisibility f.name vis = .moduleFunction ∧ u.immutable? m = none ∧ u.FixedMetaclass m ∧
    u.ownMethod m f.name ≠ some (u.storedMethod (f.withVisibility .priv))

/-- A call leaves the private half of a module function behind: a definition under a context of
module functions, or making a method one. -/
def AmendsHalf (u : Universe) : Amendment → Prop
  | .define m name scope context body =>
    let held := holdMethod (.define name m context.visibility scope context (.code body)) u
    held.2.LeavesHalf m held.1 context.visibility
  | .setVisibility m name vis => vis = .moduleFunction ∧ (u.module m).isClass = false ∧
      ∃ f, (u.findMethodDeep m name).filter Method.isDefined = some f ∧ u.LeavesHalf m f vis
  | _ => False

/-- Storing under a visibility that fails leaves all as it was, or half of a module function. -/
theorem unchanged_addMethodWithVisibility_iff (hm : u.knows m)
    (h : addMethodWithVisibility m f vis u = .error e v) :
    (∀ k, u.knows k → (u.module k).SameContents (v.module k)) ↔ ¬u.LeavesHalf m f vis := by
  rcases addMethodWithVisibility_error h with ⟨hi, rfl⟩ | ⟨heff, hi, hmeta, rfl⟩
  · exact iff_of_true (fun _ _ => .refl _) fun hleaves => hi hleaves.2.1
  · have hname : (f.withVisibility .priv).name = f.name := by
      unfold Method.withVisibility
      split <;> rfl
    rw [unchanged_addMethod_iff hm hi, hname]
    constructor
    · exact fun hentry hleaves => hleaves.2.2.2 hentry
    · exact fun hleaves => Classical.byContradiction fun hne => hleaves ⟨heff, hi, hmeta, hne⟩

/-! ### Failed amendments -/

theorem findDefined_apply (u : Universe) (m : ModuleId) (name : String) :
    findDefined m name u =
      match (u.findMethodDeep m name).filter Method.isDefined with
      | some f => .ok f u
      | none => .error (.undefinedMethod name (u.display m)) u := by
  rw [findDefined, Update.get_bind]
  cases (u.findMethodDeep m name).filter Method.isDefined <;> rfl

theorem checkModuleFunction_apply (u : Universe) (m : ModuleId) (vis : Visibility) :
    checkModuleFunction m vis u =
      if vis = .moduleFunction ∧ (u.module m).isClass = true then .error .moduleFunctionInClass u
      else .ok () u := by
  rw [checkModuleFunction, Update.get_bind]
  split <;> rfl

/-- A failed change of one visibility. -/
theorem unchanged_setVisibility_iff (hm : u.knows m)
    (h : setMethodVisibility m [name] vis u = .error e v) :
    (∀ k, u.knows k → (u.module k).SameContents (v.module k)) ↔
      ¬u.AmendsHalf (.setVisibility m name vis) := by
  change (checkModuleFunction m vis >>= fun _ => setOneVisibility m name vis >>= fun _ => pure ()) u
    = _ at h
  rw [Update.bind_apply, checkModuleFunction_apply] at h
  split at h
  · next w he =>
    split at he
    · cases he
    · next hclass =>
      cases he
      have hone := Update.error_of_bind_sure (fun _ => Update.sure_pure ()) h
      rw [setOneVisibility, Update.bind_apply, findDefined_apply] at hone
      cases hf : (u.findMethodDeep m name).filter Method.isDefined with
      | none =>
        rw [hf] at hone
        cases hone
        refine iff_of_true (fun _ _ => .refl _) ?_
        rintro ⟨-, -, f, hfound, -⟩
        cases hf.symm.trans hfound
      | some f =>
        rw [hf] at hone
        dsimp only at hone
        split at hone
        · next hmf =>
          rw [unchanged_addMethodWithVisibility_iff hm hone]
          refine not_congr ⟨fun hhalf => ⟨hmf, ?_, f, hf, hhalf⟩, ?_⟩
          · exact Bool.eq_false_iff.2 fun hc => hclass ⟨hmf, hc⟩
          · rintro ⟨-, -, g, hg, hhalf⟩
            cases hf.symm.trans hg
            exact hhalf
        · next hmf =>
          refine iff_of_true (fun k _ => ?_) fun hhalf => hmf hhalf.1
          split at hone
          · exact clean_addMethod m _ u e v (Unchanged.refl u) hone k
          · cases hone
  · next e' w he =>
    split at he
    · next hclass =>
      cases he
      cases h
      refine iff_of_true (fun _ _ => .refl _) ?_
      rintro ⟨-, hc, -⟩
      rw [hclass.2] at hc
      cases hc
    · cases he

/-- A failed definition. -/
theorem unchanged_define_iff {scope : LexicalScope} {context : Context} {body : Script.Expr}
    (hm : u.knows m) (h : define m name scope context body u = .error e v) :
    (∀ k, u.knows k → (u.module k).SameContents (v.module k)) ↔
      ¬u.AmendsHalf (.define m name scope context body) := by
  -- only a number is drawn before the method is stored
  let held := holdMethod (.define name m context.visibility scope context (.code body)) u
  have hstored : addMethodWithVisibility m held.1 context.visibility held.2 = .error e v :=
    Update.error_of_bind_sure
      (fun _ => Update.sure_bind (Update.sure_lift _) fun _ => Update.sure_pure held.1) h
  exact unchanged_addMethodWithVisibility_iff (u := held.2) hm hstored

/-- A call that fails leaves every module as it was, unless it leaves half of a module function. -/
theorem unchanged_iff_not_amendsHalf (hm : u.knows a.target) (h : a.run u = .error e v) :
    (∀ k, u.knows k → (u.module k).SameContents (v.module k)) ↔ ¬u.AmendsHalf a := by
  have hclean {x : Update Unit} (hx : Update.Clean (Unchanged u) x) (h : x u = .error e v) :
      (∀ k, u.knows k → (u.module k).SameContents (v.module k)) ↔ ¬False :=
    iff_of_true (fun k _ => hx u e v (.refl u) h k) id
  cases a with
  | define m name scope context body => exact unchanged_define_iff hm (Update.error_of_discard h)
  | setVisibility m name vis => exact unchanged_setVisibility_iff hm h
  | defineMethod m name source =>
    exact hclean (Update.clean_discard (clean_defineMethod Unchanged.keeps_holdMethod m name _)) h
  | aliasMethod m newName oldName => exact hclean (clean_aliasMethod m newName oldName) h
  | removeMethod m name => exact hclean (clean_removeMethod m name) h
  | undefineMethod m name => exact hclean (clean_undefineMethod m name) h
  | attrReader m name =>
    exact hclean (Update.clean_bind_sure (clean_defineAccessor m name false)
      fun _ => Update.sure_pure _) h
  | attrWriter m name =>
    exact hclean (Update.clean_bind_sure (clean_defineAccessor m name true)
      fun _ => Update.sure_pure _) h
  | attrAccessor m name => exact hclean (clean_attrAccessor m name) h
  | includeModule m n => exact hclean (clean_mixed m n).1 h
  | prependModule m n => exact hclean (clean_mixed m n).2 h
  | constSet m name x => exact hclean (clean_constSet m name x) h
  | removeConst m name => exact hclean (Update.clean_discard (clean_removeConst m name)) h
  | privateConstant m name | publicConstant m name | deprecateConstant m name =>
    exact hclean (clean_updateConstants m name _) h
  | registerAutoload m name feature => exact hclean (clean_registerAutoload m name feature) h
  | classVariableSet m name x => exact hclean (clean_classVariableSet m name x) h
  | removeClassVariable m name =>
    exact hclean (Update.clean_discard (clean_removeClassVariable m name)) h

/-- A refused inclusion leaves everything as it was. -/
theorem unchanged_of_cyclic_include :
    let u := (create {}).afterAll [.newModule, .newModule, .includeModule ⟨12⟩ ⟨13⟩]
    let a : Amendment := .includeModule ⟨13⟩ ⟨12⟩
    Update.result? a.run u = none ∧ ∀ k, u.knows k →
      (u.module k).SameContents ((Update.final a.run u).module k) := by
  intro u a
  have hfails : Update.result? a.run u = none := by decide +kernel
  obtain ⟨e, he⟩ := Update.error_of_result? hfails
  exact ⟨hfails, (unchanged_iff_not_amendsHalf (by decide +kernel) he).2 id⟩

/-- Making a method a module function fails, as the singleton class is frozen, and leaves the method
private. -/
theorem leavesHalf_of_frozen_metaclass :
    let made : List Move := [.newModule, .addMethod ⟨12⟩ (.ofReader "f" "@f" ⟨12⟩ .pub),
      .singletonClass ⟨12⟩, .freezeModule ⟨13⟩]
    let u := (create {}).afterAll made
    let a : Amendment := .setVisibility ⟨12⟩ "f" .moduleFunction
    (create {}).AllKnown made ∧ u.knows a.target ∧ Update.result? a.run u = none ∧
      (u.ownMethod ⟨12⟩ "f").map (·.visibility) = some .pub ∧
      ((Update.final a.run u).ownMethod ⟨12⟩ "f").map (·.visibility) = some .priv ∧
      ¬(u.module ⟨12⟩).SameContents ((Update.final a.run u).module ⟨12⟩) := by
  intro made u a
  have hknown (n : Nat) (v : Universe) (h : decide (n < v.nextId) = true) : v.knows ⟨n⟩ :=
    of_decide_eq_true h
  have hpub : (u.ownMethod ⟨12⟩ "f").map (·.visibility) = some .pub := by decide +kernel
  have hpriv : ((Update.final a.run u).ownMethod ⟨12⟩ "f").map (·.visibility) =
    some .priv := by decide +kernel
  refine ⟨⟨trivial, ⟨hknown 12 _ (by decide +kernel), ?_⟩, hknown 12 _ (by decide +kernel),
    hknown 13 _ (by decide +kernel), trivial⟩, hknown 12 _ (by decide +kernel),
    by decide +kernel, hpub, hpriv, fun hsame => ?_⟩
  · exact Method.known_ofReader (hknown 12 _ (by decide +kernel)) _ _ _
  · rw [ownMethod, hsame.methods, ← ownMethod, hpub] at hpriv
    cases hpriv

end Universe

end ObjectModel
