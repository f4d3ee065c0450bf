import ObjectModel.Proofs.Registry
import ObjectModel.Proofs.SuperFromClass
import ObjectModel.Proofs.Transparency

/-!
# Isolation of refinements

Opening a namespace makes a refinement and declares the methods of all its refinements anew, and the
body of the refinement stores methods in it.  Whoever looks methods up without meeting a refinement
of the namespace sees nothing of that, and neither do the results that were found before.

* `Outside`: modules and contexts that a namespace has no part in;
* `Definition`, `OnlyDefines`: bodies that define methods in their refinement, and do nothing else;
* `searchedAlike_refine`: what running such a body leaves alone;
* `Leads.mem_ancestors`: what a module inherits from once, it inherits from ever after;
* `isolated_refine`: the lookups that running such a body leaves alone.
-/

namespace ObjectModel

namespace Universe

variable {u v w : Universe} {a k m n r t : ModuleId} {c : Context} {name : String}

/-- Neither a module nor the refinements that a context activates inherit from a refinement that
was declared in the namespace. -/
def Outside (u : Universe) (n m : ModuleId) (c : Context) : Prop :=
  (∀ k ∈ u.ancestors m, (u.module k).nameSpace? ≠ some n) ∧
    ∀ r ∈ c.usedRefinements, ∀ k ∈ u.ancestors r, (u.module k).nameSpace? ≠ some n

instance (u : Universe) (n m : ModuleId) (c : Context) : Decidable (u.Outside n m c) :=
  inferInstanceAs (Decidable (_ ∧ _))

/-! ### Bodies -/

/-- A method that a body defines in its refinement: with a body of its own, or made of a closure or
of another method. -/
inductive Definition
  | code (name : String) (scope : LexicalScope) (body : Script.Expr)
  | made (name : String) (source : Closure ⊕ Method)

/-- Define a method in a refinement, under a context. -/
def Definition.perform (refinement : ModuleId) (context : Context) : Definition → Update Method
  | code name scope body => define refinement name scope context body
  | made name source => defineMethod refinement name source

/-- The universe after definitions in order, whether they succeed or not. -/
def defineAll (refinement : ModuleId) (context : Context) (u : Universe) (ds : List Definition) :
    Universe :=
  ds.foldl (fun u d => Update.final (d.perform refinement context) u) u

/-- All that a body changes in the universe are methods that it defines in the refinement that it is
given, under the context that it is given. -/
def OnlyDefines {σ : Type} (body : ModuleId → Context → Act σ Unit) : Prop :=
  ∀ r c w, ∃ ds, (Act.final (body r c) w).model = defineAll r c w.model ds

/-! ### What is left alone -/

/-- Storing a method changes one record. -/
theorem keeps_addMethod_elsewhere {x : Module} (h : r ≠ k) (f : Method) :
    Update.Keeps (fun v => v.module k = x) (addMethod r f) := by
  refine Update.keeps_checked fun v hv => ?_
  rw [Update.final_lift_bind]
  have hsame := (holdMethod_spec (f.withBuiltIn !v.options.coreLoaded) v).2
  generalize holdMethod (f.withBuiltIn !v.options.coreLoaded) v = held at hsame
  obtain ⟨g, w⟩ := held
  show (w.modifyModule r (·.updateMethods (·.insert g.name g))).module k = x
  rw [module_modifyModule, if_neg h, module_congr hsame, hv]

/-- So does a method that is stored as a public one. -/
theorem keeps_addPublic_elsewhere {x : Module} (h : r ≠ k) (f : Method) :
    Update.Keeps (fun v => v.module k = x) (addMethodWithVisibility r f .pub) := by
  unfold addMethodWithVisibility effectiveVisibility
  split
  · next he => split at he <;> cases he
  · exact keeps_addMethod_elsewhere h _

theorem Definition.keeps_elsewhere {x : Module} (h : r ≠ k) (hc : c.visibility = .pub)
    (d : Definition) : Update.Keeps (fun v => v.module k = x) (d.perform r c) := by
  have hheld (f : Method) :
      Update.Keeps (fun v => v.module k = x) (holdMethod f : Update Method) := fun v hv =>
    (module_congr (holdMethod_spec f v).2 k).trans hv
  have hreported (e : Universe → Event) (f : Method) : Update.Keeps (fun v => v.module k = x)
      (reportNow e >>= fun _ => pure f) := fun _ hv => hv
  cases d with
  | code name scope body =>
    refine Update.keeps_bind (hheld _) fun f => ?_
    rw [hc]
    exact Update.keeps_bind (keeps_addPublic_elsewhere h f) fun _ => hreported _ f
  | made name source =>
    have hstored (f : Method) : Update.Keeps (fun v => v.module k = x) (do
        let f ← holdMethod (f.withName name)
        addMethodWithVisibility r f .pub
        reportNow fun u => .definedMethod (u.display r) name
        return f) :=
      Update.keeps_bind (hheld _) fun f =>
        Update.keeps_bind (keeps_addPublic_elsewhere h f) fun _ => hreported _ f
    cases source with
    | inl closure => exact hstored _
    | inr f =>
      refine Update.keeps_get_bind fun v hv => ?_
      cases hf : v.rebind r f with
      | error e => exact hv
      | ok g => exact hstored g v hv

theorem module_defineAll (h : r ≠ k) (hc : c.visibility = .pub) (ds : List Definition) :
    (u.defineAll r c ds).module k = u.module k := by
  induction ds generalizing u with
  | nil => rfl
  | cons d ds ih => exact ih.trans (d.keeps_elsewhere h hc u rfl)

/-- Declaring methods anew changes the records of the refinements that are gone through only. -/
theorem module_redeclareEach {rs : List ModuleId} (hk : k ∉ rs) (c : Context) (v : Universe) :
    (Update.final (redeclareEach c rs) v).module k = v.module k := by
  induction rs generalizing v with
  | nil => rfl
  | cons r rs ih =>
    have hr : ¬r = k := fun he => hk (he ▸ List.mem_cons_self)
    rw [final_redeclareEach_cons, ih fun h => hk (List.mem_cons_of_mem r h), module_redeclare,
      if_neg fun h => hr h.1]
    exact module_congr (modules_holdContext _ v) k

/-- Opening a namespace changes the methods of its refinements only, and no chain. -/
theorem searchedAlike_openRefinement (hk : u.knows k) (hn : u.knows n)
    (hout : k ∉ (u.module n).refinements.values) (t : ModuleId) :
    SearchedAlike u (u.after (.openRefinement n t)) k := by
  rw [after_openRefinement, final_openRefinement]
  split
  · have hmade : SearchedAlike u (refinementOf n t u).2 k := by
      cases hr : (u.module n).refinements.find? t with
      | some r =>
        rw [refinementOf, Change.get_bind, hr]
        exact .of_eq rfl
      | none =>
        have he := module_refinementOf_of_none hk hr
        constructor <;> rw [he] <;> split <;> rfl
    have hvalues := mt (mem_values_refinementOf hk hn t).1 hout
    generalize refinementOf n t u = made at hmade hvalues
    obtain ⟨r, w⟩ := made
    refine hmade.trans (.of_eq ?_)
    rw [module_redeclareEach]
    · exact module_congr (modules_holdContext _ w) k
    · exact hvalues
  · exact .of_eq rfl

theorem notMem_values_of_nameSpace (ha : Arises u) (h : (u.module k).nameSpace? ≠ some n) :
    k ∉ (u.module n).refinements.values := by
  intro hk
  obtain ⟨t, ht⟩ := Table.mem_values_iff.1 hk
  rw [Module.nameSpace?, ha.rooted.registry n t k ht] at h
  exact h rfl

section Running

variable {σ : Type} {body : ModuleId → Context → Act σ Unit} {x : World σ}

/-- The refinement that is opened was declared in the namespace, if it existed. -/
theorem refinementOf_ne (ha : Arises u) (hopen : (Move.openRefinement n t).Known u)
    (hr : u.Refinable n) (hk : u.knows k) (h : (u.module k).nameSpace? ≠ some n) :
    (refinementOf n t u).1 ≠ k := by
  rintro rfl
  have ho := opened_openRefinement ha.reachable.wellFormed ha.contextsIssued hopen.1 hopen.2 hr
  rcases ho.fresh with he | ⟨-, hno⟩
  · exact notMem_values_of_nameSpace ha h (Table.mem_values_iff.2 ⟨t, he⟩)
  · exact hno hk

/-- A body that defines methods in its refinement leaves alone what was declared elsewhere. -/
theorem searchedAlike_refine (ha : Arises x.model) (hopen : (Move.openRefinement n t).Known x.model)
    (hb : OnlyDefines body) (hk : x.model.knows k)
    (hout : (x.model.module k).nameSpace? ≠ some n) :
    SearchedAlike x.model (Act.final (refine n t body) x).model k := by
  by_cases hr : x.model.Refinable n
  · have hfinal (r : ModuleId) (c : Context) (y : World σ) :
        Act.final (do body r c; return r : Act σ ModuleId) y = Act.final (body r c) y := by
      simp only [Act.final, Bind.bind, EStateM.bind]
      cases body r c y <;> rfl
    have hpublic : (x.model.openedContext n t).visibility = .pub := rfl
    obtain ⟨ds, hds⟩ := hb (refinementOf n t x.model).1 (x.model.openedContext n t)
      { x with model := x.model.after (.openRefinement n t) }
    rw [Act.final, refine_of_refinable hr, ← Act.final, hfinal, hds]
    exact (searchedAlike_openRefinement hk hopen.1 (notMem_values_of_nameSpace ha hout) t).trans
      (.of_eq (module_defineAll (refinementOf_ne ha hopen hr hk hout) hpublic ds))
  · obtain ⟨e, he⟩ := refine_of_not_refinable hr t body
    rw [Act.final, he]
    exact .of_eq rfl

end Running

/-! ### Lookups -/

/-- What a module inherits from once, it inherits from ever after. -/
theorem Leads.mem_ancestors (hl : Leads u v) (hu : u.WellFormed) (hm : u.knows m)
    (h : k ∈ u.ancestors m) : k ∈ v.ancestors m := by
  obtain ⟨o, ho, hk⟩ := mem_ancestors_iff_spine.1 h
  have hkept := (hl.grows hu (knows_spine hu hm o ho)).keeps k hk
  rw [← spine_of_follows hu (hl.follows hu).2 hm] at ho
  exact mem_ancestors_iff_spine.2 ⟨o, ho, hkept⟩

/-- The refinements that a context activates exist. -/
theorem knows_usedRefinements (hc : c.Known u) (h : r ∈ c.usedRefinements) : u.knows r := by
  obtain ⟨rs, hrs, hr⟩ := List.mem_flatten.1 (List.mem_eraseDups.1 h)
  obtain ⟨a, ha⟩ := Table.mem_values_iff.1 hrs
  exact (hc.refinementsKnown a rs ha).2 r hr

/-- The tables that a lookup inspects belong to ancestors of the module or of active refinements. -/
theorem ancestor_of_table (h : k ∈ (u.lookupMethod m name (some c)).tables) :
    k ∈ u.ancestors m ∨ ∃ r ∈ c.usedRefinements, k ∈ u.ancestors r := by
  have hwalk {o : ModuleId} (ho : k ∈ u.walk o) : k ∈ u.ancestors o := by
    rwa [ancestors_eq_walk, List.mem_eraseDups]
  obtain ⟨a, ha, ⟨r, hr, hk, -⟩ | ⟨rfl, -⟩⟩ := mem_tables_lookupMethod.1 h
  · exact .inr ⟨r, mem_usedRefinements (mem_of_mem_through hr), hwalk (mem_of_mem_through hk)⟩
  · exact .inl (hwalk (mem_of_mem_through ha))

/-- Running a body that defines methods in its refinement, however it ends, makes no difference to
those who look methods up without meeting a refinement of the namespace: they find the very
methods that they found before, and every result that was found at some time before and was valid
until now remains valid. -/
theorem isolated_refine {σ : Type} {body : ModuleId → Context → Act σ Unit} {x : World σ}
    (ha : Arises x.model) (hopen : (Move.openRefinement n t).Known x.model) (hb : OnlyDefines body)
    (hm : x.model.knows m) (hc : c.Known x.model) (hout : x.model.Outside n m c) (name : String) :
    (Act.final (refine n t body) x).model.findMethod m name (some c) =
        x.model.findMethod m name (some c) ∧
      ∀ u, Reachable u → Leads u x.model → u.knows m → c.Known u →
        x.model.isValidMethod (u.lookupMethod m name (some c)) = true →
        (Act.final (refine n t body) x).model.isValidMethod
          (u.lookupMethod m name (some c)) = true := by
  have hw := ha.reachable.wellFormed
  have hown (k) (hk : k ∈ x.model.ancestors m) :=
    searchedAlike_refine ha hopen hb (knows_ancestors hw hm hk) (hout.1 k hk)
  have hused (r) (hr : r ∈ c.usedRefinements) (k) (hk : k ∈ x.model.ancestors r) :=
    searchedAlike_refine ha hopen hb (knows_ancestors hw (knows_usedRefinements hc hr) hk)
      (hout.2 r hr k hk)
  constructor
  · have hsame : (Act.final (refine n t body) x).model.lookupMethod m name (some c) =
        x.model.lookupMethod m name (some c) :=
      lookupMethod_congr hown fun _ r hr => hused r (mem_usedRefinements hr)
    rw [findMethod, hsame, findMethod]
  · intro u hu hl hmu hcu hvalid
    rw [isValidMethod_lookupMethod] at hvalid ⊢
    intro k hk
    -- what was an ancestor when the result was found is one still
    have hsame : SearchedAlike x.model (Act.final (refine n t body) x).model k := by
      rcases ancestor_of_table hk with h | ⟨r, hr, h⟩
      · exact hown k (hl.mem_ancestors hu.wellFormed hmu h)
      · exact hused r hr k (hl.mem_ancestors hu.wellFormed (knows_usedRefinements hcu hr) h)
    exact hsame.methodsVersion.trans (hvalid k hk)

/-! ### Two namespaces that refine one class -/

/-- Two namespaces and a class are made, and the second namespace refines the class. -/
def refinedSecond : Universe :=
  (create {}).afterAll [.newModule, .newModule, .newClass none, .openRefinement ⟨13⟩ ⟨14⟩]

/-- The refinement gets a method. -/
def refinedElsewhere : Universe :=
  refinedSecond.after (.addMethod ⟨15⟩ (bodyMethod ⟨15⟩ .toplevel))

/-- The context of code that uses the second namespace. -/
def usingSecond : Context where
  refinements := Table.empty.insert ⟨14⟩ [⟨15⟩]
  stamp := some ⟨0⟩

/-- A body that defines a method. -/
def definingBody (r : ModuleId) (c : Context) : Act Unit Unit :=
  discard (liftM (define r "f" (.ofModule r) c .receiver) : Act Unit Method)

theorem onlyDefines_definingBody : OnlyDefines definingBody := by
  refine fun r c w => ⟨[.code "f" (.ofModule r) .receiver], ?_⟩
  show (Act.final (discard (liftM (define r "f" (.ofModule r) c .receiver) : Act Unit Method))
    w).model = Update.final (define r "f" (.ofModule r) c .receiver) w.model
  simp only [Act.final, Update.final, discard, Functor.mapConst, EStateM.map, liftM, monadLift,
    MonadLift.monadLift, Function.comp_apply]
  cases define r "f" (.ofModule r) c .receiver w.model <;> rfl

/-- The first namespace refines the class too, with a method of the same name. -/
def refinedTwice : Universe :=
  (Act.final (refine ⟨12⟩ ⟨14⟩ definingBody) ⟨refinedElsewhere, ⟨0⟩, (), []⟩).model

/-- Code that uses the second namespace goes on finding its method, and may use the result that it
has. -/
theorem isolated_from_other_namespace :
    (refinedTwice.ownMethod ⟨16⟩ "f").isSome = true ∧
    (refinedElsewhere.findMethod ⟨14⟩ "f" (some usingSecond)).isSome = true ∧
    refinedTwice.findMethod ⟨14⟩ "f" (some usingSecond) =
      refinedElsewhere.findMethod ⟨14⟩ "f" (some usingSecond) ∧
    refinedTwice.isValidMethod
      (refinedElsewhere.lookupMethod ⟨14⟩ "f" (some usingSecond)) = true := by
  have hknown : refinedSecond.knows ⟨15⟩ := by decide +kernel
  have hsecond : Arises refinedSecond :=
    ⟨{}, [.newModule, .newModule, .newClass none, .openRefinement ⟨13⟩ ⟨14⟩], ⟨trivial, trivial,
      trivial, trivial, nofun, trivial, ⟨by decide +kernel, by decide +kernel⟩, trivial, trivial⟩,
      rfl⟩
  have ha : Arises refinedElsewhere := by
    refine hsecond.after ⟨hknown, ?_⟩ fun s hs => ?_
    · exact Method.known_define "f" .pub hknown (LexicalScope.known_ofModule hknown)
        (Context.known_toplevel _) trivial
    · cases hs
      decide +kernel
  have hc : usingSecond.Known refinedElsewhere :=
    ⟨nofun, by decide +kernel, by decide +kernel⟩
  obtain ⟨hfound, hvalid⟩ := isolated_refine (n := ⟨12⟩) (t := ⟨14⟩) (m := ⟨14⟩)
    (c := usingSecond) (x := ⟨refinedElsewhere, ⟨0⟩, (), []⟩) ha
    ⟨by decide +kernel, by decide +kernel⟩ onlyDefines_definingBody (by decide +kernel) hc
    (by decide +kernel) "f"
  refine ⟨by decide +kernel, by decide +kernel, hfound, ?_⟩
  exact hvalid refinedElsewhere ha.reachable (.refl _) (by decide +kernel) hc (by decide +kernel)

end Universe

end ObjectModel
