import ObjectModel.Proofs.Lineage
import ObjectModel.Proofs.Through

/-!
# Declaring anew

When a namespace is opened for a refinement, the methods of all its refinements are declared anew
under contexts that activate the refinements of the namespace, and nothing else.

* `Declared`, `declared_redeclareEach`: the methods of a module under contexts that activate what a
  given one does;
* `Opened`, `opened_openRefinement`: all that a successful opening does to registry and methods;
* `ContextsIssued`, `Arises.contextsIssued`: the contexts of stored methods did not invent their
  identities;
* `ActiveIn`, `activeIn_iff`: the methods whose contexts lose nothing by an opening;
* `not_activeIn_of_using`: a method that loses a refinement of another namespace.
-/

namespace ObjectModel

/-! ### Contexts -/

theorem Context.issued_mono {u v : Universe} {c : Context} (h : c.Issued u)
    (hs : u.nextSerial ≤ v.nextSerial) : c.Issued v :=
  fun s hc => Nat.lt_of_lt_of_le (h s hc) hs

namespace Universe

variable {u v w : Universe} {m n t r k : ModuleId} {c : Context} {name : String} {f g : Method}

/-- A context with an identity keeps it, and is given a new one otherwise. -/
theorem holdContext_spec (hc : c.Issued v) :
    (holdContext c v).1.refinements = c.refinements ∧
    (holdContext c v).1.Issued (holdContext c v).2 ∧
    v.nextSerial ≤ (holdContext c v).2.nextSerial ∧
    ∃ s, (holdContext c v).1.stamp = some s ∧ (c.stamp = some s ∨ v.nextSerial ≤ s.num) := by
  unfold holdContext
  cases hs : c.stamp with
  | some s => exact ⟨rfl, hc, Nat.le_refl _, s, hs, .inl rfl⟩
  | none =>
    refine ⟨rfl, fun s hs' => ?_, Nat.le_succ _, ⟨v.nextSerial⟩, rfl, .inr (Nat.le_refl _)⟩
    cases hs'
    exact Nat.lt_succ_self _

/-- A context with another target has no identity, unless the target stays. -/
theorem withDefinee_spec (c : Context) (d : Definee) :
    (c.withDefinee d).refinements = c.refinements ∧
    ((c.withDefinee d).stamp = c.stamp ∨ (c.withDefinee d).stamp = none) := by
  unfold Context.withDefinee
  split
  · exact ⟨rfl, .inl rfl⟩
  · exact ⟨rfl, .inr rfl⟩

/-- The methods of a module are declared under contexts that activate what `c` does. -/
def Declared (v : Universe) (c : Context) (k : ModuleId) : Prop :=
  ∀ name g, (v.module k).methods.find? name = some g →
    g.context.refinements = c.refinements ∧ g.context.Issued v

/-- A method is declared as `c` asks for, or its context is older than the number `i`. -/
def DeclaredSince (v : Universe) (c : Context) (i : Nat) (k : ModuleId) : Prop :=
  ∀ name g, (v.module k).methods.find? name = some g →
    g.context.refinements = c.refinements ∧ g.context.Issued v ∨
      ∀ s, g.context.stamp = some s → s.num < i

theorem Declared.later (h : Declared v c k) (hm : (w.module k).methods = (v.module k).methods)
    (hs : v.nextSerial ≤ w.nextSerial) : Declared w c k := by
  intro name g hg
  obtain ⟨hr, hi⟩ := h name g (hm ▸ hg)
  exact ⟨hr, Context.issued_mono hi hs⟩

theorem DeclaredSince.later {i : Nat} (h : DeclaredSince v c i k)
    (hm : (w.module k).methods = (v.module k).methods) (hs : v.nextSerial ≤ w.nextSerial) :
    DeclaredSince w c i k := by
  intro name g hg
  refine (h name g (hm ▸ hg)).imp_left fun h => ?_
  exact ⟨h.1, Context.issued_mono h.2 hs⟩

theorem Declared.since (h : Declared v c k) (i : Nat) : DeclaredSince v c i k :=
  fun name g hg => .inl (h name g hg)

theorem nextSerial_redeclare (r : ModuleId) (c : Context) (v : Universe) :
    v.nextSerial ≤ (redeclare r c v).2.nextSerial := by
  unfold redeclare
  rw [Change.get_bind]
  split
  · exact Nat.le_add_right _ _
  · exact Nat.le_refl _

theorem keys_holdMethods (t : Table String Method) (v : Universe) :
    (holdMethods t v).1.keys = t.keys :=
  Table.keys_mapValues _ t

theorem keys_redeclare (r k : ModuleId) (c : Context) (v : Universe) :
    ((redeclare r c v).2.module k).methods.keys = (v.module k).methods.keys := by
  rw [module_redeclare]
  split
  · rw [Module.updateMethods, keys_holdMethods, Table.keys_mapValues]
  · rfl

/-- A method declared anew has the new context, or already had it. -/
theorem find?_redeclare (h : ((redeclare r c v).2.module r).methods.find? name = some g) :
    ∃ f, (v.module r).methods.find? name = some f ∧
      (g.context = c ∨ g.context = f.context ∧ f.context.same c = true) := by
  rw [module_redeclare] at h
  split at h
  · obtain ⟨f', hf', hcontent⟩ := content_holdMethods h
    rw [Table.find?_mapValues] at hf'
    obtain ⟨f, hf, rfl⟩ := Option.map_eq_some_iff.1 hf'
    refine ⟨f, hf, ?_⟩
    have hcontext := congrArg MethodContent.context hcontent
    unfold Method.withContext at hcontext
    split at hcontext
    · next hs => exact .inr ⟨hcontext, hs⟩
    · exact .inl hcontext
  · next hs =>
    have hempty : (v.module r).methods.size = 0 := Decidable.by_contra fun h' => hs ⟨rfl, h'⟩
    have hnil : (v.module r).methods.entries = [] := List.eq_nil_of_length_eq_zero hempty
    rw [← Table.mem_entries_iff, hnil] at h
    cases h

/-- One refinement is declared anew, under a context that is no older than `i`. -/
theorem declared_redeclare {own : Context} {i : Nat} (hown : own.refinements = c.refinements)
    (hissued : own.Issued v) (hstamp : ∃ s, own.stamp = some s ∧ i ≤ s.num)
    (h : DeclaredSince v c i r) : Declared (redeclare r own v).2 c r := by
  intro name g hg
  obtain ⟨f, hf, rfl | ⟨he, hsame⟩⟩ := find?_redeclare hg
  · exact ⟨hown, Context.issued_mono hissued (nextSerial_redeclare r _ v)⟩
  · rw [he]
    rcases h name f hf with ⟨hr, hi⟩ | hold
    · exact ⟨hr, Context.issued_mono hi (nextSerial_redeclare r own v)⟩
    · -- the very context would be older than itself
      obtain ⟨s, hs, hle⟩ := hstamp
      unfold Context.same at hsame
      rw [Bool.and_eq_true, beq_iff_eq, hs] at hsame
      exact absurd (hold s hsame.2) (Nat.not_lt_of_le hle)

/-- The loop retouches, and changes the methods of the refinements that it goes through only. -/
theorem retouches_redeclareEach (c : Context) (rs : List ModuleId) (v : Universe) :
    Retouches (· ∈ rs) v (Update.final (redeclareEach c rs) v) :=
  (Retouches.refl _ v).redeclareEach (fun _ hr => .inl hr) c

/-- The loop keeps the names of all methods. -/
theorem keys_redeclareEach (c : Context) (rs : List ModuleId) (v : Universe) (k : ModuleId) :
    ((Update.final (redeclareEach c rs) v).module k).methods.keys = (v.module k).methods.keys := by
  induction rs generalizing v with
  | nil => rfl
  | cons r rs ih =>
    rw [final_redeclareEach_cons, ih, keys_redeclare, module, modules_holdContext, module]

/-- The context for the methods of one refinement activates what `c` does, and is no older. -/
theorem ownContext_spec {s : Stamp} (hs : c.stamp = some s) (hc : c.Issued v) (r : ModuleId) :
    (holdContext (c.withDefinee (.fixed r)) v).1.refinements = c.refinements ∧
    (holdContext (c.withDefinee (.fixed r)) v).1.Issued
      (holdContext (c.withDefinee (.fixed r)) v).2 ∧
    v.nextSerial ≤ (holdContext (c.withDefinee (.fixed r)) v).2.nextSerial ∧
    ∃ s', (holdContext (c.withDefinee (.fixed r)) v).1.stamp = some s' ∧ s.num ≤ s'.num := by
  obtain ⟨hsame, hstamp⟩ := withDefinee_spec c (.fixed r)
  have hissued : (c.withDefinee (.fixed r)).Issued v := by
    intro s' hs'
    rcases hstamp with he | he
    · exact hc s' (he ▸ hs')
    · cases he.symm.trans hs'
  obtain ⟨hown, hnow, hle, s', hs', hnew⟩ := holdContext_spec hissued
  refine ⟨hown.trans hsame, hnow, hle, s', hs', ?_⟩
  rcases hnew with he | he
  · rcases hstamp with hd | hd
    · cases hs.symm.trans (hd.symm.trans he)
      exact Nat.le_refl _
    · cases hd.symm.trans he
  · exact Nat.le_trans (Nat.le_of_lt (hc s hs)) he

/-- The loop declares the methods of the refinements that it goes through. -/
theorem declared_redeclareEach {i : Nat} {s : Stamp} (hs : c.stamp = some s) (hi : i ≤ s.num)
    (hc : c.Issued v) (h : DeclaredSince v c i k) {rs : List ModuleId} (hk : k ∈ rs) :
    Declared (Update.final (redeclareEach c rs) v) c k := by
  induction rs generalizing v with
  | nil => cases hk
  | cons r rs ih =>
    rw [final_redeclareEach_cons]
    have hmodules := modules_holdContext (c.withDefinee (.fixed r)) v
    obtain ⟨hown, hissued, hle, s', hs', hyoung⟩ := ownContext_spec hs hc r
    generalize holdContext (c.withDefinee (.fixed r)) v = held at hmodules hown hissued hle hs' ⊢
    obtain ⟨own, w⟩ := held
    dsimp only at hmodules hown hissued hle hs' ⊢
    have hmodule (x) : w.module x = v.module x := by rw [module, hmodules, module]
    have hle' := Nat.le_trans hle (nextSerial_redeclare r own w)
    have hfirst (hk : r = k) : Declared (redeclare r own w).2 c k := by
      subst hk
      exact declared_redeclare hown hissued ⟨s', hs', Nat.le_trans hi hyoung⟩
        (h.later (by rw [hmodule]) hle)
    by_cases hrest : k ∈ rs
    · -- the loop comes to the refinement once more
      refine ih (Context.issued_mono hc hle') ?_ hrest
      by_cases hk : r = k
      · exact (hfirst hk).since i
      · refine h.later ?_ hle'
        rw [module_redeclare, if_neg fun h => hk h.1, hmodule]
    · have hkr : r = k := ((List.mem_cons.1 hk).resolve_right hrest).symm
      have hbehind := retouches_redeclareEach c rs (redeclare r own w).2
      exact (hfirst hkr).later (hbehind.methods k hrest) hbehind.nextSerial

/-! ### Opening -/

/-- A module is a namespace in which refinements may be declared. -/
def Refinable (u : Universe) (n : ModuleId) : Prop :=
  (u.module n).isClass = false ∧ u.immutable? n = none

instance (u : Universe) (n : ModuleId) : Decidable (u.Refinable n) :=
  decidable_of_iff ((u.module n).isClass = false ∧ (u.immutable? n).isNone)
    (by rw [Refinable, Option.isNone_iff_eq_none])

/-- The context for the body of a refinement that was just opened, with its identity. -/
def openedContext (u : Universe) (n t : ModuleId) : Context :=
  (holdContext ((refinementOf n t u).2.refinementContext n (refinementOf n t u).1)
    (refinementOf n t u).2).1

theorem after_openRefinement (n t : ModuleId) (u : Universe) :
    u.after (.openRefinement n t) = Update.final (openRefinement n t) u :=
  Update.final_discard _ u

theorem openRefinement_of_refinable (h : u.Refinable n) (t : ModuleId) :
    openRefinement n t u =
      .ok ((refinementOf n t u).1, u.openedContext n t) (u.after (.openRefinement n t)) := by
  have hloop (c : Context) (rs : List ModuleId) (x : ModuleId × Context) (w : Universe) :
      (redeclareEach c rs >>= fun _ => pure x : Update (ModuleId × Context)) w =
        .ok x (Update.final (redeclareEach c rs) w) := by
    induction rs generalizing w with
    | nil => rfl
    | cons r rs ih => exact ih _
  have hcheck : checkMutable n u = .ok () u := by
    unfold checkMutable
    rw [Update.get_bind, h.2]
    rfl
  rw [after_openRefinement, final_openRefinement, if_pos (show _ ∧ _ from h)]
  unfold openRefinement
  show (if (u.module n).isClass then throw _ >>= _ else checkMutable n >>= _ : Update _) u = _
  rw [h.1, if_neg Bool.false_ne_true, Update.bind_apply, hcheck]
  exact hloop _ _ _ _

theorem after_openRefinement_of_not_refinable (h : ¬u.Refinable n) (t : ModuleId) :
    u.after (.openRefinement n t) = u := by
  rw [after_openRefinement, final_openRefinement]
  exact if_neg h

/-- A module that is no namespace, or closed to changes, is not opened. -/
theorem openRefinement_of_not_refinable (h : ¬u.Refinable n) (t : ModuleId) :
    ∃ e, openRefinement n t u = .error e u := by
  unfold openRefinement
  show ∃ e, (if (u.module n).isClass then throw _ >>= _ else checkMutable n >>= _ : Update _) u = _
  by_cases hc : (u.module n).isClass = true
  · rw [if_pos hc]
    exact ⟨_, rfl⟩
  · rw [if_neg hc, Update.bind_apply, checkMutable, Update.get_bind]
    cases hi : u.immutable? n with
    | none => exact absurd ⟨Bool.eq_false_iff.2 hc, hi⟩ h
    | some e => exact ⟨_, rfl⟩

/-- The registry of a namespace once the refinement of a module is there. -/
theorem registry_refinementOf (hn : u.knows n) (t k : ModuleId) :
    ((refinementOf n t u).2.module n).refinements.find? k =
      if t = k then some (refinementOf n t u).1 else (u.module n).refinements.find? k := by
  cases hr : (u.module n).refinements.find? t with
  | some r =>
    rw [refinementOf, Change.get_bind, hr]
    split
    · next he => exact he ▸ hr
    · rfl
  | none =>
    rw [module_refinementOf_of_none hn hr, if_pos rfl, Table.find?_insert]
    rw [refinementOf, Change.get_bind, hr]
    rfl

/-- Only the refinement itself is made. -/
theorem methods_refinementOf_of_notMem (hn : u.knows n)
    (hk : k ∉ ((refinementOf n t u).2.module n).refinements.values) :
    ((refinementOf n t u).2.module k).methods = (u.module k).methods := by
  cases hr : (u.module n).refinements.find? t with
  | some r => rw [refinementOf, Change.get_bind, hr]; rfl
  | none =>
    rcases (bears_refinementOf hn hr).read k with ⟨rfl, -⟩ | ⟨-, he⟩ | he
    · refine absurd (Table.mem_values_iff.2 ⟨t, ?_⟩) hk
      rw [registry_refinementOf hn, if_pos rfl, refinementOf, Change.get_bind, hr]
      rfl
    · rw [he]
    · rw [he]

/-! ### What an opening does -/

/-- The contexts of all stored methods that have identities were given them. -/
def ContextsIssued (u : Universe) : Prop :=
  ∀ m name f, (u.module m).methods.find? name = some f → f.context.Issued u

/-- The second universe is the first with the refinement `r` of `t` registered in a namespace.
The methods of refinements that are registered there were stored before, if there are any. -/
structure Enrolled (u v : Universe) (n t r : ModuleId) : Prop where
  registry : ∀ k, (v.module n).refinements.find? k =
    if t = k then some r else (u.module n).refinements.find? k
  fresh : (u.module n).refinements.find? t = some r ∨
    (u.module n).refinements.find? t = none ∧ ¬u.knows r
  methods : ∀ k, u.knows k → (v.module k).methods = (u.module k).methods
  others : ∀ k ∉ (v.module n).refinements.values, (v.module k).methods = (u.module k).methods
  issued : ∀ k ∈ (v.module n).refinements.values, ∀ name g,
    (v.module k).methods.find? name = some g → g.context.Issued u
  nextSerial : u.nextSerial ≤ v.nextSerial

theorem enrolled_refinementOf (hw : u.WellFormed) (hi : u.ContextsIssued) (hn : u.knows n)
    (ht : u.knows t) (hc : (u.module n).isClass = false) :
    Enrolled u (refinementOf n t u).2 n t (refinementOf n t u).1 := by
  have hevolves : Evolves (fun _ => False) (· = n) u (refinementOf n t u).2 :=
    evolves_refinementOf rfl hn ht hc
  have hmethods (k) (hk : u.knows k) :
      ((refinementOf n t u).2.module k).methods = (u.module k).methods :=
    (hevolves.spares hk).methods id
  refine ⟨registry_refinementOf hn t, ?_, hmethods, fun _ => methods_refinementOf_of_notMem hn,
    fun k hk name g hg => ?_, hevolves.nextSerial_le⟩
  · rw [refinementOf, Change.get_bind]
    cases hr : (u.module n).refinements.find? t with
    | some r => exact .inl rfl
    | none => exact .inr ⟨rfl, Nat.lt_irrefl _⟩
  · rcases mem_values_of_refinementOf hn hk with hold | hzero
    · obtain ⟨j, hj⟩ := Table.mem_values_iff.1 hold
      rw [hmethods k ((hw.modules n hn).refinements j k hj).2] at hg
      exact hi k name g hg
    · have hnil : ((refinementOf n t u).2.module k).methods.entries = [] :=
        List.eq_nil_of_length_eq_zero hzero
      rw [← Table.mem_entries_iff, hnil] at hg
      cases hg

/-- The second universe is the first after a namespace was opened for the refinement `r` of `t`:
the refinement is registered, and the methods of all refinements of the namespace are declared
under contexts that activate what the context `c` of the body does. -/
structure Opened (u v : Universe) (n t r : ModuleId) (c : Context) : Prop where
  registry : ∀ k, (v.module n).refinements.find? k =
    if t = k then some r else (u.module n).refinements.find? k
  fresh : (u.module n).refinements.find? t = some r ∨
    (u.module n).refinements.find? t = none ∧ ¬u.knows r
  context : c.refinements = (v.module n).refinements.mapValues fun _ x => [x]
  issued : c.Issued v
  declared : ∀ x ∈ (v.module n).refinements.values, Declared v c x
  keys : ∀ x, u.knows x → (v.module x).methods.keys = (u.module x).methods.keys
  others : ∀ x ∉ (v.module n).refinements.values, (v.module x).methods = (u.module x).methods
  nextSerial : u.nextSerial ≤ v.nextSerial

/-- With the refinement registered, the context of the body is held, and then the loop goes through
all refinements.  The context is younger than those of the methods that it meets. -/
theorem Enrolled.opened (h : Enrolled u v n t r) : Opened u
    (Update.final (redeclareEach (holdContext (v.refinementContext n r) v).1
      (v.module n).refinements.values) (holdContext (v.refinementContext n r) v).2)
    n t r (holdContext (v.refinementContext n r) v).1 := by
  have hblank : (v.refinementContext n r).Issued v := fun s hs => nomatch hs
  have hmodules := modules_holdContext (v.refinementContext n r) v
  obtain ⟨hrefs, hissued, hle, s, hs, hnew⟩ := holdContext_spec hblank
  generalize holdContext (v.refinementContext n r) v = held at hmodules hrefs hissued hle hs ⊢
  obtain ⟨c, y⟩ := held
  dsimp only at hmodules hrefs hissued hle hs ⊢
  have hmodule (k) : y.module k = v.module k := by rw [module, hmodules, module]
  -- the context had no identity yet, so the one that it has now is new
  have hyoung : u.nextSerial ≤ s.num := by
    rcases hnew with he | he
    · cases he
    · exact Nat.le_trans h.nextSerial he
  have hdone {k} (hsince : DeclaredSince y c u.nextSerial k)
      (hk : k ∈ (v.module n).refinements.values) :=
    declared_redeclareEach hs hyoung hissued hsince hk
  have hkept (k) := keys_redeclareEach c (v.module n).refinements.values y k
  have hretouch := retouches_redeclareEach c (v.module n).refinements.values y
  have hsame := (hretouch.modules n).refinements
  generalize Update.final (redeclareEach c (v.module n).refinements.values) y = w
    at hdone hkept hretouch hsame
  rw [hmodule] at hsame
  refine ⟨fun k => ?_, h.fresh, ?_, Context.issued_mono hissued hretouch.nextSerial,
    fun k hk => ?_, fun k hk => ?_, fun k hk => ?_, ?_⟩
  · rw [hsame]
    exact h.registry k
  · rw [hrefs, hsame]
    rfl
  · rw [hsame] at hk
    refine hdone (fun name g hg => .inr ?_) hk
    rw [hmodule] at hg
    exact h.issued k hk name g hg
  · rw [hkept, hmodule, h.methods k hk]
  · rw [hsame] at hk
    rw [hretouch.methods k hk, hmodule, h.others k hk]
  · exact Nat.le_trans h.nextSerial (Nat.le_trans hle hretouch.nextSerial)

theorem opened_openRefinement (hw : u.WellFormed) (hi : u.ContextsIssued) (hn : u.knows n)
    (ht : u.knows t) (h : u.Refinable n) :
    Opened u (u.after (.openRefinement n t)) n t (refinementOf n t u).1 (u.openedContext n t) := by
  rw [after_openRefinement, final_openRefinement, if_pos (show _ ∧ _ from h), openedContext]
  exact (enrolled_refinementOf hw hi hn ht h.1).opened

/-! ### Stored methods -/

theorem after_of_immutable (h : u.immutable? m ≠ none) (f : Method) (name : String) :
    u.after (.addMethod m f) = u ∧ u.after (.removeMethod m name) = u := by
  constructor
  · show Update.final (addMethod m f) u = u
    unfold addMethod
    rw [final_checkMutable_bind, if_neg h]
  · show Update.final (removeMethod m name) u = u
    unfold removeMethod
    rw [final_checkMutable_bind, if_neg h]

theorem context_withBuiltIn (f : Method) (b : Bool) : (f.withBuiltIn b).context = f.context := by
  unfold Method.withBuiltIn
  split <;> rfl

theorem name_withBuiltIn (f : Method) (b : Bool) : (f.withBuiltIn b).name = f.name := by
  unfold Method.withBuiltIn
  split <;> rfl

theorem holdMethod_spec (f : Method) (v : Universe) :
    (holdMethod f v).1.toMethodContent = f.toMethodContent ∧
    (holdMethod f v).2.modules = v.modules := by
  unfold holdMethod
  cases f.stamp <;> exact ⟨rfl, rfl⟩

/-- A method is stored under its name, with its context. -/
theorem methods_after_addMethod (h : u.immutable? m = none) (f : Method) :
    ∃ g, g.context = f.context ∧ ∀ k, ((u.after (.addMethod m f)).module k).methods =
      if m = k then (u.module k).methods.insert f.name g else (u.module k).methods := by
  obtain ⟨hcontent, hmodules⟩ := holdMethod_spec (f.withBuiltIn !u.options.coreLoaded) u
  have hcontext := congrArg MethodContent.context hcontent
  have hname := (congrArg MethodContent.name hcontent).trans (name_withBuiltIn f _)
  refine ⟨_, hcontext.trans (context_withBuiltIn f _), fun k => ?_⟩
  show ((Update.final (addMethod m f) u).module k).methods = _
  unfold addMethod
  rw [final_checkMutable_bind, if_pos h]
  let held := holdMethod (f.withBuiltIn !u.options.coreLoaded) u
  show ((held.2.modifyModule m (·.updateMethods (·.insert held.1.name held.1))).module k).methods =
    if m = k then (u.module k).methods.insert f.name held.1 else (u.module k).methods
  have hmodule : held.2.module k = u.module k := by rw [module, hmodules, module]
  rw [module_modifyModule, hmodule, show held.1.name = f.name from hname]
  split <;> rfl

/-- A method is dropped under its name. -/
theorem find?_after_removeMethod (h : u.immutable? m = none) (name : String) (k : ModuleId)
    (other : String) : ((u.after (.removeMethod m name)).module k).methods.find? other =
      if m = k ∧ name = other then none else (u.module k).methods.find? other := by
  show ((Update.final (removeMethod m name) u).module k).methods.find? other = _
  unfold removeMethod
  rw [final_checkMutable_bind, if_pos h, Update.final_get_bind]
  cases ho : u.ownMethod m name with
  | none =>
    show (u.module k).methods.find? other = _
    split
    · next he => exact he.1 ▸ he.2 ▸ ho
    · rfl
  | some f =>
    show ((u.modifyModule m (·.updateMethods (·.erase name))).module k).methods.find? other = _
    rw [module_modifyModule]
    by_cases hk : m = k
    · rw [if_pos hk, Module.updateMethods, Table.find?_erase]
      simp [hk]
    · rw [if_neg hk, if_neg fun h => hk h.1]

/-! ### Issued contexts -/

theorem contextsIssued_create (options : Options) : (create options).ContextsIssued := by
  intro m name f hf
  rw [(blank_create options m).1] at hf
  cases hf

theorem ContextsIssued.of_eq (h : u.ContextsIssued) (hs : u.nextSerial ≤ v.nextSerial)
    (hm : ∀ k, (v.module k).methods = (u.module k).methods) : v.ContextsIssued :=
  fun m name f hf => Context.issued_mono (h m name f (hm m ▸ hf)) hs

variable {touched registers : ModuleId → Prop}

theorem Bears.contextsIssued {x : Module} {noted : Module → Module} (h : Bears u v x n noted)
    (hu : u.ContextsIssued) (hm : ∀ x : Module, (noted x).methods = x.methods)
    (hx : ∀ name g, x.methods.find? name = some g → g.context.Issued u) : v.ContextsIssued := by
  intro k name g hg
  refine Context.issued_mono ?_ h.nextSerial
  rcases h.read k with ⟨-, he⟩ | ⟨-, he⟩ | he <;> rw [he] at hg
  · exact hx name g hg
  · exact hu k name g (hm _ ▸ hg)
  · exact hu k name g hg

theorem Step.contextsIssued (h : Step touched registers u v) (ht : ∀ m, ¬touched m)
    (hu : u.ContextsIssued) : v.ContextsIssued := by
  have hnone : ∀ name g, (Table.empty : Table String Method).find? name = some g →
      g.context.Issued u := fun _ _ hg => nomatch hg
  cases h with
  | retouched h => exact hu.of_eq h.nextSerial fun k => h.methods k (ht k)
  | born hr h =>
    refine h.contextsIssued hu (fun _ => rfl) fun name g hg => ?_
    cases hr with
    | plain | top | below => exact hnone name g hg
    | @copy s _ _ _ _ _ _ _ _ methods =>
      obtain ⟨f, hf, he⟩ := methods name g hg
      rw [he]
      exact hu s name f hf
  | singled _ _ _ h | singledObject _ _ h | refined _ _ _ _ _ h =>
    exact h.contextsIssued hu (fun _ => rfl) hnone
  | madeObject _ _ _ hs hm =>
    exact hu.of_eq hs fun k => by rw [module, hm, module]

theorem Evolves.contextsIssued (h : Evolves touched registers u v) (ht : ∀ m, ¬touched m)
    (hu : u.ContextsIssued) : v.ContextsIssued := by
  induction h with
  | refl => exact hu
  | tail _ hstep ih => exact hstep.contextsIssued ht ih

theorem contextsIssued_addMethod (hu : u.ContextsIssued) (hf : f.context.Issued u)
    (hs : u.nextSerial ≤ (u.after (.addMethod m f)).nextSerial) :
    (u.after (.addMethod m f)).ContextsIssued := by
  by_cases h : u.immutable? m = none
  · obtain ⟨g, hg, hmethods⟩ := methods_after_addMethod h f
    intro k name x hx
    refine Context.issued_mono ?_ hs
    rw [hmethods] at hx
    split at hx
    · rw [Table.find?_insert] at hx
      split at hx
      · cases hx
        exact hg ▸ hf
      · exact hu k name x hx
    · exact hu k name x hx
  · rwa [(after_of_immutable h f f.name).1]

theorem contextsIssued_removeMethod (hu : u.ContextsIssued)
    (hs : u.nextSerial ≤ (u.after (.removeMethod m name)).nextSerial) :
    (u.after (.removeMethod m name)).ContextsIssued := by
  by_cases h : u.immutable? m = none
  · intro k other x hx
    rw [find?_after_removeMethod h] at hx
    split at hx
    · cases hx
    · exact Context.issued_mono (hu k other x hx) hs
  · rwa [(after_of_immutable h default name).2]

theorem contextsIssued_openRefinement (hw : u.WellFormed) (hu : u.ContextsIssued) (hn : u.knows n)
    (ht : u.knows t) : (u.after (.openRefinement n t)).ContextsIssued := by
  by_cases h : u.Refinable n
  · have ho := opened_openRefinement hw hu hn ht h
    intro k name x hx
    by_cases hk : k ∈ ((u.after (.openRefinement n t)).module n).refinements.values
    · exact (ho.declared k hk name x hx).2
    · rw [ho.others k hk] at hx
      exact Context.issued_mono (hu k name x hx) ho.nextSerial
  · rwa [after_openRefinement_of_not_refinable h]

theorem contextsIssued_after (hw : u.WellFormed) (hu : u.ContextsIssued) {mv : Move}
    (hk : mv.Known u) (hg : mv.Genuine u) : (u.after mv).ContextsIssued := by
  have hs := nextSerial_le_after hw hk hg
  by_cases hmix : mv.Mixes
  · obtain ⟨m, c, h, -⟩ := rechains_of_mixes u hmix
    exact hu.of_eq hs fun k => (h.tables k).1
  · have hstill (ht : ∀ m, ¬mv.Touches u m) : (u.after mv).ContextsIssued :=
      (evolves_after hw hk hg hmix).contextsIssued ht hu
    cases mv with
    | addMethod m f => exact contextsIssued_addMethod hu hg hs
    | removeMethod m name => exact contextsIssued_removeMethod hu hs
    | openRefinement n t => exact contextsIssued_openRefinement hw hu hk.1 hk.2
    | _ => exact hstill fun _ => id

theorem Arises.contextsIssued (h : Arises u) : u.ContextsIssued :=
  h.induction contextsIssued_create fun _ _ hr hv => contextsIssued_after hr.wellFormed hv

/-! ### What stays active -/

/-- What a context activates for a module is active under another, in the same order. -/
def ActiveIn (c d : Context) : Prop :=
  ∀ m, (c.refinementsFor m).eraseDups.Sublist (d.refinementsFor m)

theorem refinementsFor_of_registry {c : Context} {reg : Table ModuleId ModuleId}
    (h : c.refinements = reg.mapValues fun _ x => [x]) (m : ModuleId) :
    c.refinementsFor m = (reg.find? m).toList := by
  rw [Context.refinementsFor, h, Table.find?_mapValues]
  cases reg.find? m <;> rfl

theorem mem_refinementsFor_of_registry {c : Context} {reg : Table ModuleId ModuleId}
    (h : c.refinements = reg.mapValues fun _ x => [x]) {m x : ModuleId} :
    x ∈ c.refinementsFor m ↔ reg.find? m = some x := by
  rw [refinementsFor_of_registry h, Option.mem_toList]

/-- An opening keeps what is registered. -/
theorem Opened.kept (h : Opened u v n t r c) {m x : ModuleId}
    (hx : (u.module n).refinements.find? m = some x) :
    (v.module n).refinements.find? m = some x := by
  rw [h.registry]
  split
  · next he =>
    subst he
    rcases h.fresh with hr | ⟨hr, -⟩
    · exact hr.symm.trans hx
    · cases hr.symm.trans hx
  · exact hx

/-- Of what existed, an opening registers nothing new. -/
theorem Opened.registered (h : Opened u v n t r c) {m x : ModuleId} (hx : u.knows x)
    (hreg : (v.module n).refinements.find? m = some x) :
    (u.module n).refinements.find? m = some x := by
  rw [h.registry] at hreg
  split at hreg
  · next he =>
    cases hreg
    rcases h.fresh with hr | ⟨-, hr⟩
    · exact he ▸ hr
    · exact absurd hx hr
  · exact hreg

theorem sublist_singleton {α : Type} {l : List α} {x : α} (hl : l.Nodup) (h : ∀ a ∈ l, a = x) :
    l.Sublist [x] := by
  cases l with
  | nil => exact List.nil_sublist _
  | cons a l =>
    obtain ⟨ha, -⟩ := List.nodup_cons.1 hl
    obtain rfl : a = x := h a List.mem_cons_self
    obtain rfl : l = [] := by
      refine List.eq_nil_iff_forall_not_mem.2 fun b hb => ha ?_
      rw [← h b (List.mem_cons_of_mem a hb)]
      exact hb
    exact List.Sublist.refl _

/-- Whenever a namespace is opened, every method stored in one of its refinements stays, and what
its context activated stays active exactly when that was nothing but the namespace's own refinements
of the modules that they were active for.  Its new context activates the refinements of the
namespace, and nothing else. -/
theorem activeIn_iff (ha : Arises u) (hk : (Move.openRefinement n t).Known u)
    (h : u.Refinable n) (hr : r ∈ (u.module n).refinements.values)
    (hf : (u.module r).methods.find? name = some f) :
    ∃ g, ((u.after (.openRefinement n t)).module r).methods.find? name = some g ∧
      (∀ m, g.context.refinementsFor m =
        (((u.after (.openRefinement n t)).module n).refinements.find? m).toList) ∧
      (ActiveIn f.context g.context ↔
        ∀ m, ∀ x ∈ f.context.refinementsFor m, (u.module n).refinements.find? m = some x) := by
  have hw := ha.reachable.wellFormed
  have ho := opened_openRefinement hw ha.contextsIssued hk.1 hk.2 h
  generalize u.after (.openRefinement n t) = v at ho
  obtain ⟨j, hj⟩ := Table.mem_values_iff.1 hr
  have hknown : u.knows r := ((hw.modules n hk.1).refinements j r hj).2
  have hrv : r ∈ (v.module n).refinements.values := Table.mem_values_iff.2 ⟨j, ho.kept hj⟩
  obtain ⟨g, hg⟩ : ∃ g, (v.module r).methods.find? name = some g := by
    rw [← Table.mem_keys_iff, ho.keys r hknown, Table.mem_keys_iff]
    exact ⟨f, hf⟩
  have hcontext := (ho.declared r hrv name g hg).1.trans ho.context
  refine ⟨g, hg, refinementsFor_of_registry hcontext, fun hactive m x hx => ?_, fun hown m => ?_⟩
  · -- what was active existed, and of what existed an opening registers nothing anew
    have hxk : u.knows x :=
      ((hw.modules r hknown).methods name f hf).context.refinementsFor hx
    have hxg := (hactive m).mem (List.mem_eraseDups.2 hx)
    exact ho.registered hxk ((mem_refinementsFor_of_registry hcontext).1 hxg)
  · rw [refinementsFor_of_registry hcontext]
    cases hl : (f.context.refinementsFor m).eraseDups with
    | nil => exact List.nil_sublist _
    | cons x xs =>
      -- then only the one refinement that is registered was active for the module
      have hall : ∀ a ∈ (f.context.refinementsFor m).eraseDups,
          (u.module n).refinements.find? m = some a :=
        fun a ha => hown m a (List.mem_eraseDups.1 ha)
      have hx := hall x (hl ▸ List.mem_cons_self)
      rw [ho.kept hx, ← hl]
      refine sublist_singleton (nodup_eraseDups _) fun a ha => ?_
      exact Option.some.inj ((hall a ha).symm.trans hx)

/-! ### Bodies that use another namespace -/

/-- Two namespaces and two classes; the second namespace refines the second class. -/
def beforeBody : Universe :=
  (create {}).afterAll [.newModule, .newModule, .newClass none, .newClass none,
    .openRefinement ⟨13⟩ ⟨15⟩]

/-- The first namespace is opened for the first class. -/
def inBody : Universe := beforeBody.after (.openRefinement ⟨12⟩ ⟨14⟩)

/-- The body uses the second namespace. -/
def inBodyUsing : Universe :=
  inBody.afterAll [.report (.activatedRefinements (inBody.display ⟨13⟩)), .drawSerial]

/-- The context of the body. -/
def bodyContext : Context where
  definee := .fixed ⟨17⟩
  refinements := Table.empty.insert ⟨14⟩ [⟨17⟩]
  stamp := some ⟨2⟩

/-- The context of the body once it uses the second namespace. -/
def usingContext : Context where
  definee := .fixed ⟨17⟩
  refinements := (Table.empty.insert ⟨14⟩ [⟨17⟩]).insert ⟨15⟩ [⟨16⟩]
  stamp := some ⟨3⟩

/-- A method that a body defines under a context. -/
def bodyMethod (r : ModuleId) (c : Context) : Method :=
  .define "f" r .pub (.ofModule r) c (.reader "@f")

/-- A body may define a method under a context about what exists. -/
theorem known_bodyMethod {c : Context} (hr : u.knows r)
    (hd : ∃ m, c.definee = .fixed m ∧ u.knows m)
    (hc : ∀ e ∈ c.refinements.entries, u.knows e.1 ∧ ∀ x ∈ e.2, u.knows x)
    (hs : ∃ s, c.stamp = some s ∧ s.num < u.nextSerial) :
    (Move.addMethod r (bodyMethod r c)).Known u ∧
      (Move.addMethod r (bodyMethod r c)).Genuine u := by
  have hk : c.Known u := by
    refine ⟨fun m hm => ?_, fun e he => (hc e he).1, fun e he => (hc e he).2⟩
    obtain ⟨d, hd, hkd⟩ := hd
    cases hd.symm.trans hm
    exact hkd
  refine ⟨⟨hr, ?_⟩, fun s h => ?_⟩
  · exact Method.known_define _ _ hr (LexicalScope.known_ofModule hr) hk trivial
  · obtain ⟨s', hs', hlt⟩ := hs
    cases hs'.symm.trans h
    exact hlt

/-- The body defines a method under a context. -/
def defining (c : Context) : Move := .addMethod ⟨17⟩ (bodyMethod ⟨17⟩ c)

theorem arises_inBody : Arises inBody := by
  refine ⟨{}, [.newModule, .newModule, .newClass none, .newClass none, .openRefinement ⟨13⟩ ⟨15⟩,
    .openRefinement ⟨12⟩ ⟨14⟩], ?_, rfl⟩
  exact ⟨trivial, trivial, trivial, trivial, nofun, trivial, nofun, trivial,
    ⟨by decide +kernel, by decide +kernel⟩, trivial, ⟨by decide +kernel, by decide +kernel⟩,
    trivial, trivial⟩

/-- The method of a body that used nothing else goes on seeing what it saw when the namespace is
opened for another class. -/
theorem activeIn_of_plain_body : ∃ f g,
    ((inBody.after (defining bodyContext)).module ⟨17⟩).methods.find? "f" = some f ∧
    (((inBody.after (defining bodyContext)).after (.openRefinement ⟨12⟩ ⟨15⟩)).module
      ⟨17⟩).methods.find? "f" = some g ∧ ActiveIn f.context g.context := by
  have hmethod := known_bodyMethod (u := inBody) (r := ⟨17⟩) (c := bodyContext)
    (by decide +kernel) ⟨⟨17⟩, rfl, by decide +kernel⟩ (by decide +kernel)
    ⟨_, rfl, by decide +kernel⟩
  have ha : Arises (inBody.after (defining bodyContext)) :=
    arises_inBody.after hmethod.1 hmethod.2
  have hall := (by decide +kernel :
    (((inBody.after (defining bodyContext)).module ⟨17⟩).methods.find? "f").map
      (fun f => f.context) = some bodyContext)
  obtain ⟨f, hf, hcontext⟩ := Option.map_eq_some_iff.1 hall
  have hown : bodyContext.refinements =
      ((inBody.after (defining bodyContext)).module ⟨12⟩).refinements.mapValues fun _ x => [x] := by
    decide +kernel
  obtain ⟨g, hg, -, hiff⟩ := activeIn_iff (n := ⟨12⟩) (t := ⟨15⟩) ha
    ⟨by decide +kernel, by decide +kernel⟩ (by decide +kernel) (by decide +kernel) hf
  refine ⟨f, g, hf, hg, hiff.2 fun m x hx => ?_⟩
  exact (mem_refinementsFor_of_registry (hcontext ▸ hown)).1 hx

theorem activateNamespace_bodyContext :
    activateNamespace bodyContext ⟨13⟩ inBody = .ok usingContext inBodyUsing := by
  have hcontext : (holdContext (bodyContext.withRefinements (inBody.activatedBy bodyContext ⟨13⟩))
      (reportNow (fun u => .activatedRefinements (u.display ⟨13⟩)) inBody).2).1 = usingContext := by
    decide +kernel
  rw [activateNamespace_apply, if_neg (by decide +kernel)]
  exact congrArg₂ _ hcontext rfl

/-- The method of a body that uses another namespace loses what it saw of that, whenever the
namespace of the body is opened again. -/
theorem not_activeIn_of_using :
    openRefinement ⟨12⟩ ⟨14⟩ beforeBody = .ok (⟨17⟩, bodyContext) inBody ∧
    activateNamespace bodyContext ⟨13⟩ inBody = .ok usingContext inBodyUsing ∧
    Arises (inBodyUsing.after (defining usingContext)) ∧ ∃ f g,
      ((inBodyUsing.after (defining usingContext)).module ⟨17⟩).methods.find? "f" = some f ∧
      (((inBodyUsing.after (defining usingContext)).after (.openRefinement ⟨12⟩ ⟨14⟩)).module
        ⟨17⟩).methods.find? "f" = some g ∧
      f.context.refinementsFor ⟨15⟩ = [⟨16⟩] ∧ g.context.refinementsFor ⟨15⟩ = [] ∧
      ¬ActiveIn f.context g.context := by
  have hopen : openRefinement ⟨12⟩ ⟨14⟩ beforeBody = .ok (⟨17⟩, bodyContext) inBody := by
    have hcontext : ((refinementOf ⟨12⟩ ⟨14⟩ beforeBody).1, beforeBody.openedContext ⟨12⟩ ⟨14⟩) =
        (⟨17⟩, bodyContext) := by decide +kernel
    rw [openRefinement_of_refinable (by decide +kernel), hcontext]
    rfl
  have husing : Arises inBodyUsing :=
    arises_inBody.afterAll _ ⟨trivial, trivial, trivial, trivial, trivial⟩
  have hmethod := known_bodyMethod (u := inBodyUsing) (r := ⟨17⟩) (c := usingContext)
    (by decide +kernel) ⟨⟨17⟩, rfl, by decide +kernel⟩ (by decide +kernel)
    ⟨_, rfl, by decide +kernel⟩
  have ha : Arises (inBodyUsing.after (defining usingContext)) := husing.after hmethod.1 hmethod.2
  have hbefore := (by decide +kernel :
    (((inBodyUsing.after (defining usingContext)).module ⟨17⟩).methods.find? "f").map
      (fun f => f.context.refinementsFor ⟨15⟩) = some [⟨16⟩])
  have hafter := (by decide +kernel :
    ((((inBodyUsing.after (defining usingContext)).after (.openRefinement ⟨12⟩ ⟨14⟩)).module
      ⟨17⟩).methods.find? "f").map (fun f => f.context.refinementsFor ⟨15⟩) = some [])
  obtain ⟨f, hf, hseen⟩ := Option.map_eq_some_iff.1 hbefore
  obtain ⟨g, hg, hlost⟩ := Option.map_eq_some_iff.1 hafter
  refine ⟨hopen, activateNamespace_bodyContext, ha, f, g, hf, hg, hseen, hlost, fun h => ?_⟩
  have hsub := h ⟨15⟩
  rw [hseen, hlost] at hsub
  revert hsub
  decide

end Universe

end ObjectModel
