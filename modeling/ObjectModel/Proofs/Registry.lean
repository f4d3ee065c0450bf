import ObjectModel.Proofs.Redeclaring

/-!
# Registries of refinements

A namespace registers the refinements that are declared in it by the modules that they refine.  The
registries and the kinds of the modules say the same, whatever is made, copied or mixed in, and
nothing that was registered goes.

* `RegistersAll`, `Arises.registersAll`: every refinement is registered in its namespace;
* `registered_iff`: what is registered are the refinements of the namespace;
* `refine_of_refinable`, `refined_of_ok`: how a body is run in a refinement;
* `RefinesTo`: what running some body gives;
* `one_refinement_each`: one refinement for each namespace and module, along every run.
-/

namespace ObjectModel.Universe

variable {u v : Universe} {k m n r t : ModuleId} {touched registers : ModuleId → Prop}

/-- Every refinement is registered in its namespace, for the module that it refines. -/
def RegistersAll (u : Universe) : Prop :=
  ∀ r t n, (u.module r).kind = .refinement t n →
    u.knows n ∧ (u.module n).refinements.find? t = some r

/-! ### Changes -/

theorem registersAll_create (options : Options) : (create options).RegistersAll := by
  intro r t n hr
  rcases module_create options r with he | ⟨e, he, rfl, hmodule⟩
  · rw [he] at hr
    cases hr
  · rw [hmodule, coreRecord_kind] at hr
    rcases coreChains_placed e he with ⟨hk, -⟩ | ⟨hk, -⟩ <;> cases hk.symm.trans hr

/-- What a change has to respect: modules that are refinements only now are registered, and what was
registered stays. -/
theorem RegistersAll.later (hu : u.RegistersAll) (hnext : u.nextId ≤ v.nextId)
    (hkind : ∀ r t n, (v.module r).kind = .refinement t n →
      (u.module r).kind = .refinement t n ∨
        v.knows n ∧ (v.module n).refinements.find? t = some r)
    (hkept : ∀ n t r, u.knows n → (u.module n).refinements.find? t = some r →
      (v.module n).refinements.find? t = some r) : v.RegistersAll := by
  intro r t n hr
  rcases hkind r t n hr with h | h
  · obtain ⟨hn, hreg⟩ := hu r t n h
    exact ⟨knows_mono hnext hn, hkept n t r hn hreg⟩
  · exact h

theorem RegistersAll.of_eq (hu : u.RegistersAll) (hnext : u.nextId ≤ v.nextId)
    (h : ∀ m, (v.module m).kind = (u.module m).kind ∧
      (v.module m).refinements = (u.module m).refinements) : v.RegistersAll := by
  refine hu.later hnext (fun r t n hr => .inl ?_) fun n t r _ hreg => ?_
  · rwa [(h r).1] at hr
  · rwa [(h n).2]

/-- A birth may fill a place of the registry of the host that was free. -/
theorem Bears.registersAll {x : Module} {noted : Module → Module} (h : Bears u v x n noted)
    (hu : u.RegistersAll) (hkind : ∀ x : Module, (noted x).kind = x.kind)
    (hkept : ∀ t r, (u.module n).refinements.find? t = some r →
      (noted (u.module n)).refinements.find? t = some r)
    (hself : ∀ t n, x.kind = .refinement t n →
      v.knows n ∧ (v.module n).refinements.find? t = some ⟨u.nextId⟩) : v.RegistersAll := by
  refine hu.later (by rw [h.nextId]; exact Nat.le_succ _) (fun r t k hr => ?_)
    fun k t r hk hreg => ?_
  · rcases h.read r with ⟨rfl, he⟩ | ⟨-, he⟩ | he <;> rw [he] at hr
    · exact .inr (hself t k hr)
    · exact .inl ((hkind _).symm.trans hr)
    · exact .inl hr
  · -- the new module is no namespace that was known
    have hne : k ≠ ⟨u.nextId⟩ := by
      rintro rfl
      exact Nat.lt_irrefl _ hk
    rw [h.others k hne]
    split
    · next he => exact he ▸ hkept t r (he ▸ hreg)
    · exact hreg

theorem Newborn.kind_ne_refinement {x : Module} (h : u.Newborn x) :
    x.kind ≠ .refinement t n := by
  cases h with
  | plain | top | below => exact nofun
  | copy _ _ hkind kind =>
    rw [kind]
    rcases hkind with hk | hk <;> rw [hk] <;> exact nofun

theorem RegistersAll.step (hu : u.RegistersAll) (h : Step touched registers u v) :
    v.RegistersAll := by
  cases h with
  | retouched h =>
    exact hu.of_eq (Nat.le_of_eq h.nextId.symm) fun m =>
      ⟨(h.modules m).kind, (h.modules m).refinements⟩
  | born hr h =>
    exact h.registersAll hu (fun _ => rfl) (fun _ _ => id) fun t n hk =>
      absurd hk hr.kind_ne_refinement
  | singled _ _ _ h => exact h.registersAll hu (fun _ => rfl) (fun _ _ => id) nofun
  | singledObject _ _ h => exact h.registersAll hu (fun _ => rfl) (fun _ _ => id) nofun
  | @refined n t _ hn _ _ hnone h =>
    refine h.registersAll hu (fun _ => rfl) (fun t' r hreg => ?_) fun t' n' hk => ?_
    · rw [Table.find?_insert, if_neg]
      · exact hreg
      · rintro rfl
        cases hnone.symm.trans hreg
    · cases hk
      have hne : n ≠ ⟨u.nextId⟩ := by
        rintro rfl
        exact Nat.lt_irrefl _ hn
      rw [h.others n hne, if_pos rfl]
      exact ⟨knows_mono (by rw [h.nextId]; exact Nat.le_succ _) hn, Table.find?_insert_self _ _ _⟩
  | madeObject _ _ hn _ hm =>
    exact hu.of_eq (by rw [hn]; exact Nat.le_succ _) fun m => by
      rw [module, hm, module]
      exact ⟨rfl, rfl⟩

theorem Evolves.registersAll (h : Evolves touched registers u v) (hu : u.RegistersAll) :
    v.RegistersAll := by
  induction h with
  | refl => exact hu
  | tail _ hstep ih => exact ih.step hstep

theorem registersAll_after (hw : u.WellFormed) (hu : u.RegistersAll) {mv : Move}
    (hk : mv.Known u) (hg : mv.Genuine u) : (u.after mv).RegistersAll := by
  by_cases hm : mv.Mixes
  · obtain ⟨m, c, h, -⟩ := rechains_of_mixes u hm
    exact hu.of_eq (Nat.le_of_eq h.nextId.symm) fun k => ⟨h.kind k, (h.tables k).2.1⟩
  · exact (evolves_after hw hk hg hm).registersAll hu

theorem Arises.registersAll (h : Arises u) : u.RegistersAll :=
  h.induction registersAll_create fun _ _ hr hv => registersAll_after hr.wellFormed hv

/-- What a namespace has registered for a module is its refinement of that module. -/
theorem registered_iff (h : Arises u) :
    (u.module n).refinements.find? t = some r ↔ (u.module r).kind = .refinement t n :=
  ⟨h.rooted.registry n t r, fun hk => (h.registersAll r t n hk).2⟩

/-! ### Running bodies -/

section Running

variable {σ : Type} {body : ModuleId → Context → Act σ Unit} {w w' : World σ}

/-- In a namespace that may be changed, the refinement is opened and the body runs. -/
theorem refine_of_refinable (h : w.model.Refinable n) (t : ModuleId)
    (body : ModuleId → Context → Act σ Unit) :
    refine n t body w =
      (do body (refinementOf n t w.model).1 (w.model.openedContext n t)
          return (refinementOf n t w.model).1 : Act σ ModuleId)
        { w with model := w.model.after (.openRefinement n t) } :=
  Act.bind_of_ok (Act.lift_of_ok (openRefinement_of_refinable h t))

/-- Elsewhere nothing happens. -/
theorem refine_of_not_refinable (h : ¬w.model.Refinable n) (t : ModuleId)
    (body : ModuleId → Context → Act σ Unit) : ∃ e, refine n t body w = .error e w := by
  obtain ⟨e, he⟩ := openRefinement_of_not_refinable h t
  exact ⟨.raised e, Act.bind_of_error (Act.lift_of_error he)⟩

/-- Running a body gives the module that opening its refinement did. -/
theorem refined_of_ok (h : refine n t body w = .ok r w') :
    w.model.Refinable n ∧ r = (refinementOf n t w.model).1 := by
  by_cases hr : w.model.Refinable n
  · rw [refine_of_refinable hr] at h
    simp only [Bind.bind, EStateM.bind] at h
    split at h
    · cases h
      exact ⟨hr, rfl⟩
    · cases h
  · obtain ⟨e, he⟩ := refine_of_not_refinable hr t body
    cases he.symm.trans h

end Running

/-- Some body ends that is run in the refinement of a module, and running it gives `r`. -/
def RefinesTo (u : Universe) (n t r : ModuleId) : Prop :=
  (Move.openRefinement n t).Known u ∧
    ∃ (σ : Type) (body : ModuleId → Context → Act σ Unit) (w w' : World σ),
      w.model = u ∧ refine n t body w = .ok r w'

theorem refinesTo_of_refinable (hk : (Move.openRefinement n t).Known u) (h : u.Refinable n) :
    u.RefinesTo n t (refinementOf n t u).1 :=
  ⟨hk, Unit, fun _ _ => pure (), ⟨u, default, (), []⟩, _, rfl, refine_of_refinable h t _⟩

/-- From the opening on, what running a body gives is the refinement that was asked for. -/
theorem RefinesTo.kind (h : u.RefinesTo n t r) (ha : Arises u) :
    ((u.after (.openRefinement n t)).module r).kind = .refinement t n := by
  obtain ⟨hk, σ, body, w, w', rfl, hrun⟩ := h
  obtain ⟨hr, rfl⟩ := refined_of_ok hrun
  have ho := opened_openRefinement ha.reachable.wellFormed ha.contextsIssued hk.1 hk.2 hr
  refine (registered_iff (ha.after hk trivial)).1 ?_
  rw [ho.registry, if_pos rfl]

/-- Along a run every module stays what it is. -/
theorem kind_afterAll (ha : Arises u) {mvs : List Move} (hg : u.AllGenuine mvs)
    (hk : (u.module r).kind = .refinement t n) :
    ((u.afterAll mvs).module r).kind = .refinement t n := by
  have hknown : u.knows r := (ha.rooted.placed r).known (by rw [hk]; exact nofun)
  have hf := (Leads.follows ⟨mvs, hg.allKnown, rfl⟩ ha.reachable.wellFormed).2
  exact (hf.modules r hknown).kind.trans hk

/-- There is one refinement for each namespace and module.  In whatever arises, a registry holds
under each module a refinement of it in that namespace that continues into it, and every refinement
is held at this place only.  From the time at which a body is run on, in that body and after it,
running bodies for the same namespace and module gives the same refinement, and for any others
another one. -/
theorem one_refinement_each (ha : Arises u) :
    (∀ n t r, (u.module n).refinements.find? t = some r →
      (u.module r).kind = .refinement t n ∧ (u.module r).chain.parent = some t) ∧
    (∀ n t r, (u.module r).kind = .refinement t n →
      ∀ m k, (u.module m).refinements.find? k = some r ↔ m = n ∧ k = t) ∧
    ∀ n t r, u.RefinesTo n t r → ∀ mvs, (u.after (.openRefinement n t)).AllGenuine mvs →
      ∀ m k s, ((u.after (.openRefinement n t)).afterAll mvs).RefinesTo m k s →
        (s = r ↔ m = n ∧ k = t) := by
  refine ⟨fun n t r hreg => ?_, fun n t r hk m k => ?_, fun n t r hr mvs hg m k s hs => ?_⟩
  · have hk := (registered_iff ha).1 hreg
    exact ⟨hk, (ha.rooted.placed r).refinement t n hk⟩
  · rw [registered_iff ha, hk]
    simp only [ModuleKind.refinement.injEq, eq_comm, and_comm]
  · -- when the second body has begun, both modules are refinements that are registered
    have hnow : Arises ((u.after (.openRefinement n t)).afterAll mvs) :=
      (ha.after hr.1 trivial).afterAll mvs hg
    have hr' := kind_afterAll (ha.after hr.1 trivial) hg (hr.kind ha)
    have hopen : ((u.after (.openRefinement n t)).afterAll mvs).AllGenuine [.openRefinement m k] :=
      ⟨hs.1, trivial, trivial⟩
    have hlast := kind_afterAll hnow hopen hr'
    have hs' := hs.kind hnow
    constructor
    · rintro rfl
      have hsame := hs'.symm.trans hlast
      simp only [ModuleKind.refinement.injEq] at hsame
      exact hsame.symm
    · rintro ⟨rfl, rfl⟩
      have hdone := hnow.after hs.1 trivial
      exact Option.some.inj (((registered_iff hdone).2 hs').symm.trans
        ((registered_iff hdone).2 hlast))

/-- A namespace and a class. -/
def namespaceAndClass : Universe := (create {}).afterAll [.newModule, .newClass none]

/-- The body that is run for them runs another one, which fails, and copies both; then the copy of
the namespace is opened. -/
def copyingBody : List Move :=
  [.openRefinement ⟨12⟩ ⟨13⟩, .copyModule ⟨12⟩, .copyModule ⟨13⟩, .openRefinement ⟨15⟩ ⟨13⟩]

/-- A universe in which the body was run. -/
def withCopies : Universe :=
  (namespaceAndClass.after (.openRefinement ⟨12⟩ ⟨13⟩)).afterAll copyingBody

/-- Nested and failing bodies share the refinement of a namespace, and a copy of the namespace has
refinements of its own. -/
theorem one_refinement_of_copied_namespace :
    Arises namespaceAndClass ∧ namespaceAndClass.RefinesTo ⟨12⟩ ⟨13⟩ ⟨14⟩ ∧
    withCopies.RefinesTo ⟨12⟩ ⟨13⟩ ⟨14⟩ ∧ withCopies.RefinesTo ⟨15⟩ ⟨13⟩ ⟨17⟩ ∧
    ∀ m k s, withCopies.RefinesTo m k s → (s = ⟨14⟩ ↔ m = ⟨12⟩ ∧ k = ⟨13⟩) := by
  have ha : Arises namespaceAndClass :=
    ⟨{}, [.newModule, .newClass none], ⟨trivial, trivial, nofun, trivial, trivial⟩, rfl⟩
  have hfirst : namespaceAndClass.RefinesTo ⟨12⟩ ⟨13⟩ ⟨14⟩ :=
    refinesTo_of_refinable ⟨by decide +kernel, by decide +kernel⟩ (by decide +kernel)
  have hsecond : withCopies.RefinesTo ⟨12⟩ ⟨13⟩ ⟨14⟩ := by
    have he : (refinementOf ⟨12⟩ ⟨13⟩ withCopies).1 = ⟨14⟩ := by decide +kernel
    rw [← he]
    exact refinesTo_of_refinable ⟨by decide +kernel, by decide +kernel⟩ (by decide +kernel)
  have hcopy : withCopies.RefinesTo ⟨15⟩ ⟨13⟩ ⟨17⟩ := by
    have he : (refinementOf ⟨15⟩ ⟨13⟩ withCopies).1 = ⟨17⟩ := by decide +kernel
    rw [← he]
    exact refinesTo_of_refinable ⟨by decide +kernel, by decide +kernel⟩ (by decide +kernel)
  have hbody : (namespaceAndClass.after (.openRefinement ⟨12⟩ ⟨13⟩)).AllGenuine copyingBody :=
    ⟨⟨by decide +kernel, by decide +kernel⟩, trivial,
      (by decide +kernel : Universe.knows _ _), trivial, (by decide +kernel : Universe.knows _ _),
      trivial, ⟨by decide +kernel, by decide +kernel⟩, trivial, trivial⟩
  exact ⟨ha, hfirst, hsecond, hcopy,
    (one_refinement_each ha).2.2 ⟨12⟩ ⟨13⟩ ⟨14⟩ hfirst copyingBody hbody⟩

end ObjectModel.Universe
