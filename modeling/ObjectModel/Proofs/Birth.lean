import ObjectModel.Proofs.Retouching

/-!
# Births

Apart from mixing in, a move makes modules and objects one at a time, and retouches the records that
there are.  What a new module starts with depends on why it was made.

* `Newborn`, `Bears`, `Step`: what new modules start with, and the steps that moves are made of;
* `evolves_after`: a genuine move that does not mix in goes by such steps;
* `Spares`, `spares_after`: the methods and the registries that a move leaves alone.
-/

namespace ObjectModel

/-- The namespace that a move may register a refinement in. -/
def Move.Registers : Move → ModuleId → Prop
  | openRefinement n _, k => k = n
  | _, _ => False

/-- Whether a move may make modules or objects. -/
def Move.Makes : Move → Prop
  | newModule | newClass _ | copyModule _ | singletonClass _ | objectSingletonClass _
  | newObject _ | openRefinement _ _ => True
  | _ => False

namespace Universe

variable {u v w : Universe} {m n t : ModuleId} {touched registers : ModuleId → Prop}

/-! ### Steps -/

/-- What a new module starts with that is neither a singleton class nor a refinement: nothing, a
superclass, or what the module that it is a copy of has. -/
inductive Newborn (u : Universe) : Module → Prop
  | plain : Newborn u {}
  | top : Newborn u { kind := .cls none, chain := { parent := some Core.object } }
  | below {p : ModuleId} (hp : (u.module p).isClass = true) :
    Newborn u { kind := .cls none, chain := { parent := some p } }
  | copy {s : ModuleId} {r : Module} (hs : u.knows s) (hroot : s ≠ Core.basicObject)
    (hkind : (u.module s).kind = .plain ∨ (u.module s).kind = .cls none)
    (kind : r.kind = (u.module s).kind) (chain : r.chain = (u.module s).chain)
    (singleton : r.singleton = none) (refinements : r.refinements = .empty)
    (methods : ∀ name g, r.methods.find? name = some g →
      ∃ f, (u.module s).methods.find? name = some f ∧ g.context = f.context) : Newborn u r

/-- The class that a new singleton class of a module goes below. -/
inductive MetaParent (u : Universe) (m : ModuleId) : ModuleId → Prop
  | super {q s : ModuleId} (hm : (u.module m).isClass = true)
    (hq : (u.module m).chain.parent = some q) (hs : (u.module q).singleton = some s) :
    MetaParent u m s
  | root (hm : (u.module m).isClass = true) (hq : (u.module m).chain.parent = none) :
    MetaParent u m Core.cls
  | plain (hm : (u.module m).isClass = false) : MetaParent u m Core.module

/-- The second universe has one module more, with the record `r`, and the record of its host says
so in its way. -/
structure Bears (u v : Universe) (r : Module) (host : ModuleId) (noted : Module → Module) :
    Prop where
  nextId : v.nextId = u.nextId + 1
  nextSerial : u.nextSerial ≤ v.nextSerial
  self : v.module ⟨u.nextId⟩ = r
  others : ∀ k, k ≠ ⟨u.nextId⟩ →
    v.module k = if host = k then noted (u.module k) else u.module k

/-- What moves are made of, apart from mixing in. -/
inductive Step (touched registers : ModuleId → Prop) (u v : Universe) : Prop
  | retouched (h : Retouches touched u v)
  | born {r : Module} (hr : u.Newborn r) (h : Bears u v r ⟨u.nextId⟩ id)
    (objects : v.objects = u.objects)
  | singled {m p : ModuleId} (hm : u.knows m) (hs : (u.module m).singleton = none)
    (hp : u.MetaParent m p)
    (h : Bears u v { kind := .cls (some (.module m)), chain := { parent := some p } } m
      fun r => { r with singleton := some ⟨u.nextId⟩ })
    (objects : v.objects = u.objects)
  | singledObject {o : ObjectId} (ho : u.objects.contains o = true)
    (hs : (u.object o).singleton = none)
    (h : Bears u v
      { kind := .cls (some (.object o)), chain := { parent := some (u.object o).cls } }
      ⟨u.nextId⟩ id)
    (objects : v.objects =
      u.objects.insert o { u.object o with singleton := some ⟨u.nextId⟩ })
  | refined {n t : ModuleId} (hr : registers n) (hn : u.knows n) (ht : u.knows t)
    (hclass : (u.module n).isClass = false)
    (hnone : (u.module n).refinements.find? t = none)
    (h : Bears u v { kind := .refinement t n, chain := { parent := some t } } n
      fun r => { r with refinements := r.refinements.insert t ⟨u.nextId⟩ })
    (objects : v.objects = u.objects)
  | madeObject {c : ModuleId} (hc : (u.module c).isClass = true)
    (hl : (u.module c).isSingletonClass = false) (nextId : v.nextId = u.nextId + 1)
    (nextSerial : u.nextSerial ≤ v.nextSerial) (modules : v.modules = u.modules)
    (objects : v.objects = u.objects.insert ⟨u.nextId⟩ { cls := c })

/-- A universe after steps. -/
abbrev Evolves (touched registers : ModuleId → Prop) : Universe → Universe → Prop :=
  Relation.ReflTransGen (Step touched registers)

/-- After a birth a record is the new one, that of the host, or as it was. -/
theorem Bears.read {r : Module} {noted : Module → Module} (h : Bears u v r n noted) (k : ModuleId) :
    k = ⟨u.nextId⟩ ∧ v.module k = r ∨ k = n ∧ v.module k = noted (u.module k) ∨
      v.module k = u.module k := by
  by_cases hk : k = ⟨u.nextId⟩
  · exact .inl ⟨hk, hk ▸ h.self⟩
  · rw [h.others k hk]
    split
    · next he => exact .inr (.inl ⟨he.symm, rfl⟩)
    · exact .inr (.inr rfl)

theorem Bears.knows_self {r : Module} {noted : Module → Module} (h : Bears u v r n noted) :
    v.knows ⟨u.nextId⟩ := by
  rw [knows, h.nextId]
  exact Nat.lt_succ_self _

/-- What a known module keeps when methods change in the modules `touched` at most, and refinements
are registered in those of `registers` at most. -/
structure Spares (touched registers : ModuleId → Prop) (u v : Universe) (k : ModuleId) : Prop where
  knows : v.knows k
  methods : ¬touched k → (v.module k).methods = (u.module k).methods
  refinements : ¬registers k → (v.module k).refinements = (u.module k).refinements

theorem Spares.of_eq {k : ModuleId} (hn : u.nextId ≤ v.nextId) (hk : u.knows k)
    (hm : (v.module k).methods = (u.module k).methods)
    (hr : (v.module k).refinements = (u.module k).refinements) : Spares touched registers u v k :=
  ⟨knows_mono hn hk, fun _ => hm, fun _ => hr⟩

/-- A birth changes the record of the host only, and in what its noting changes. -/
theorem Bears.spares {r : Module} {noted : Module → Module} (h : Bears u v r n noted)
    {k : ModuleId} (hk : u.knows k) (hm : ∀ x : Module, (noted x).methods = x.methods)
    (hr : ¬registers n → ∀ x : Module, (noted x).refinements = x.refinements) :
    Spares touched registers u v k := by
  have hne : k ≠ ⟨u.nextId⟩ := by
    rintro rfl
    exact Nat.lt_irrefl _ hk
  have hread := h.others k hne
  refine ⟨?_, fun _ => ?_, fun hreg => ?_⟩
  · rw [Universe.knows, h.nextId]
    exact Nat.lt_succ_of_lt hk
  · rw [hread]
    split
    · exact hm _
    · rfl
  · rw [hread]
    split
    · next he => exact hr (he ▸ hreg) _
    · rfl

theorem Step.spares (h : Step touched registers u v) {k : ModuleId} (hk : u.knows k) :
    Spares touched registers u v k := by
  cases h with
  | retouched h =>
    exact ⟨Nat.lt_of_lt_of_eq hk h.nextId.symm, h.methods k, fun _ => (h.modules k).refinements⟩
  | born _ h | singled _ _ _ h | singledObject _ _ h =>
    exact h.spares hk (fun _ => rfl) fun _ _ => rfl
  | refined hreg _ _ _ _ h => exact h.spares hk (fun _ => rfl) fun hno => absurd hreg hno
  | madeObject _ _ hn _ hm =>
    have hmodule : v.module k = u.module k := by rw [module, hm, module]
    exact .of_eq (hn ▸ Nat.le_succ _) hk (by rw [hmodule]) (by rw [hmodule])

theorem Newborn.blank {r : Module} (h : u.Newborn r) :
    r.singleton = none ∧ r.refinements = .empty := by
  cases h with
  | plain | top | below => exact ⟨rfl, rfl⟩
  | copy _ _ _ _ _ hs hr => exact ⟨hs, hr⟩

/-- Where a step registers nothing, the registry stays, or is that of a new module. -/
theorem Step.refinements (h : Step touched registers u v) {k : ModuleId} (hk : ¬registers k) :
    (v.module k).refinements = (u.module k).refinements ∨
      ¬u.knows k ∧ (v.module k).refinements = .empty := by
  have hborn {r : Module} {n : ModuleId} {noted : Module → Module} (hb : Bears u v r n noted)
      (hr : r.refinements = .empty)
      (hn : k = n → (noted (u.module k)).refinements = (u.module k).refinements) :
      (v.module k).refinements = (u.module k).refinements ∨
        ¬u.knows k ∧ (v.module k).refinements = .empty := by
    rcases hb.read k with ⟨rfl, he⟩ | ⟨hkn, he⟩ | he <;> rw [he]
    · exact .inr ⟨Nat.lt_irrefl _, hr⟩
    · exact .inl (hn hkn)
    · exact .inl rfl
  cases h with
  | retouched h => exact .inl (h.modules k).refinements
  | born hr h => exact hborn h hr.blank.2 fun _ => rfl
  | singled _ _ _ h | singledObject _ _ h => exact hborn h rfl fun _ => rfl
  | refined hreg _ _ _ _ h => exact hborn h rfl fun he => absurd (he ▸ hreg) hk
  | madeObject _ _ _ _ hm => exact .inl (by rw [module, hm, module])

theorem Step.nextSerial_le (h : Step touched registers u v) : u.nextSerial ≤ v.nextSerial := by
  cases h with
  | retouched h | born _ h | singled _ _ _ h | singledObject _ _ h | refined _ _ _ _ _ h =>
    exact h.nextSerial
  | madeObject _ _ _ hs => exact hs

theorem Evolves.spares {k : ModuleId} (h : Evolves touched registers u v) (hk : u.knows k) :
    Spares touched registers u v k := by
  induction h with
  | refl => exact .of_eq (Nat.le_refl _) hk rfl rfl
  | tail _ hstep ih =>
    have hnext := hstep.spares ih.knows
    exact ⟨hnext.knows, fun ht => (hnext.methods ht).trans (ih.methods ht),
      fun hr => (hnext.refinements hr).trans (ih.refinements hr)⟩

theorem Evolves.refinements (h : Evolves touched registers u v) {k : ModuleId}
    (hk : ¬registers k) : (v.module k).refinements = (u.module k).refinements ∨
      ¬u.knows k ∧ (v.module k).refinements = .empty := by
  induction h with
  | refl => exact .inl rfl
  | tail hsteps hstep ih =>
    rcases hstep.refinements hk with he | ⟨hno, he⟩
    · rw [he]
      exact ih
    · exact .inr ⟨fun hu => hno (Evolves.spares hsteps hu).knows, he⟩

theorem Evolves.nextSerial_le (h : Evolves touched registers u v) :
    u.nextSerial ≤ v.nextSerial := by
  induction h with
  | refl => exact Nat.le_refl _
  | tail _ hstep ih => exact Nat.le_trans ih hstep.nextSerial_le

/-! ### Moves by steps -/

theorem Retouches.evolves (h : Retouches touched u v) : Evolves touched registers u v :=
  .single (.retouched h)

theorem bears_allocate (kind : ModuleKind) (chain : Chain) (u : Universe) :
    Bears u (allocate kind chain u).2 { kind, chain } ⟨u.nextId⟩ id where
  nextId := rfl
  nextSerial := Nat.le_refl _
  self := module_setModule_self u _ _
  others k hk := by
    rw [if_neg fun h => hk h.symm]
    exact module_setModule_of_ne u (fun h => hk h.symm) _

/-- A new module that its host takes note of. -/
theorem bears_noted (kind : ModuleKind) (chain : Chain) (noted : Module → Module)
    (hn : u.knows n) :
    Bears u ((allocate kind chain u).2.modifyModule n noted) { kind, chain } n noted where
  nextId := rfl
  nextSerial := Nat.le_refl _
  self := by
    have hne : n ≠ ⟨u.nextId⟩ := by
      rintro rfl
      exact Nat.lt_irrefl _ hn
    rw [module_modifyModule, if_neg hne]
    exact (bears_allocate kind chain u).self
  others k hk := by
    have hold : (allocate kind chain u).2.module k = u.module k :=
      module_setModule_of_ne u (fun h => hk h.symm) _
    rw [module_modifyModule, hold]

/-- A new record is filled in before anything refers to it. -/
theorem Bears.fill {r : Module} (h : Bears u v r ⟨u.nextId⟩ id) (hm : w.modules = v.modules)
    (hn : w.nextId = v.nextId) (hs : v.nextSerial ≤ w.nextSerial) (f : Module → Module) :
    Bears u (w.modifyModule ⟨u.nextId⟩ f) (f r) ⟨u.nextId⟩ id := by
  have hmodule (k) : w.module k = v.module k := by rw [module, hm, module]
  refine ⟨hn.trans h.nextId, Nat.le_trans h.nextSerial hs, ?_, fun k hk => ?_⟩
  · rw [module_modifyModule, if_pos rfl, hmodule, h.self]
  · rw [module_modifyModule, if_neg fun he => hk he.symm, hmodule]
    exact h.others k hk

theorem Newborn.evolves {kind : ModuleKind} {chain : Chain} (h : u.Newborn { kind, chain }) :
    Evolves touched registers u (allocate kind chain u).2 :=
  .single (.born h (bears_allocate kind chain u) rfl)

theorem evolves_newClass (s : Option ModuleId) :
    Evolves touched registers u (Update.final (newClass s) u) := by
  unfold newClass
  cases s with
  | none => exact Newborn.top.evolves
  | some p =>
    rw [Update.final_get_bind]
    dsimp only
    split
    · exact .refl
    · next hc =>
      have hp : (u.module p).isClass = true := by simpa using hc
      split
      · exact .refl
      · split
        · exact .refl
        · exact (Newborn.below hp).evolves

theorem evolves_singled {p : ModuleId} (hm : u.knows m) (hs : (u.module m).singleton = none)
    (hp : u.MetaParent m p) : Evolves touched registers u
      ((allocate (.cls (some (.module m))) { parent := some p } u).2.modifyModule m fun r =>
        { r with singleton := some ⟨u.nextId⟩ }) :=
  .single (.singled hm hs hp (bears_noted _ _ _ hm) rfl)

/-- The singleton classes of the classes above are made first. -/
theorem evolves_singletonClass (hu : u.WellFormed) {m : ModuleId} (hm : u.knows m) :
    Evolves touched registers u (singletonClass m u).2 := by
  cases hs : (u.module m).singleton with
  | some s => rw [singletonClass_of_some hs]
  | none =>
    rw [singletonClass_of_none hs, Change.bind_apply]
    -- whichever class it goes below, the new one is made last
    have hfinal {w : Universe} {p : ModuleId} (hw : Evolves touched registers u w) (hmw : w.knows m)
        (hsw : (w.module m).singleton = none) (hp : w.MetaParent m p)
        (he : singletonSuper m u = (p, w)) : Evolves touched registers u ((do
          let s ← allocate (.cls (some (.module m))) { parent := some (singletonSuper m u).1 }
          changeModule m fun r => { r with singleton := some s }
          return s : Change ModuleId) (singletonSuper m u).2).2 := by
      rw [he]
      exact hw.trans (evolves_singled hmw hsw hp)
    cases hc : (u.module m).isClass with
    | false =>
      refine hfinal .refl hm hs (.plain hc) ?_
      rw [singletonSuper, Change.get_bind, hc]
      rfl
    | true =>
      cases hq : (u.module m).chain.parent with
      | none =>
        refine hfinal .refl hm hs (.root hc hq) ?_
        rw [singletonSuper, Change.get_bind, hc, hq]
        rfl
      | some q =>
        -- the parent is older, so the induction reaches it, and its records are not those of `m`
        have hqm := hu.older m q hm hq
        have hqu := (hu.modules m hm).parent q hq
        have hmade : Evolves touched registers u (singletonClass q u).2 :=
          evolves_singletonClass hu hqu
        obtain ⟨hmw, hsame⟩ := (drifts_singletonClass (.refl hu) hqu).2.2 m hm hqm
        refine hfinal hmade hmw (by rw [hsame, hs]) (.super (q := q) ?_ ?_
          (singleton_singletonClass u q)) ?_
        · rw [hsame, hc]
        · rw [hsame, hq]
        · rw [singletonSuper, Change.get_bind, hc, hq]
          simp only [if_pos hqm]
          rfl
termination_by m.num

theorem evolves_objectSingletonClass {o : ObjectId} (ho : u.objects.contains o = true) :
    Evolves touched registers u (objectSingletonClass o u).2 := by
  unfold objectSingletonClass
  rw [Change.get_bind]
  cases hs : (u.object o).singleton with
  | some s => exact .refl
  | none =>
    have hb := bears_allocate (.cls (some (.object o))) { parent := some (u.object o).cls } u
    exact .single (.singledObject ho hs ⟨hb.nextId, hb.nextSerial, hb.self, hb.others⟩ rfl)

theorem evolves_newObject (m : ModuleId) :
    Evolves touched registers u (Update.final (newObject m) u) := by
  unfold newObject
  rw [Update.final_get_bind]
  dsimp only
  split
  · exact .refl
  · next hc =>
    have hm : (u.module m).isClass = true := by simpa using hc
    split
    · exact .refl
    · next hl => exact .single (.madeObject hm (by simpa using hl) rfl (Nat.le_refl _) rfl rfl)

/-- Methods are given identities, and nothing else. -/
theorem content_holdMethods {t : Table String Method} {name : String} {g : Method}
    (h : (holdMethods t u).1.find? name = some g) :
    ∃ f, t.find? name = some f ∧ g.toMethodContent = f.toMethodContent := by
  obtain ⟨f, hf, rfl⟩ := Option.map_eq_some_iff.1 ((Table.find?_mapValues _ t name).symm.trans h)
  refine ⟨f, hf, ?_⟩
  split <;> rfl

/-- A copy keeps the contexts of the methods. -/
theorem evolves_copyRecord (hm : u.knows m) (hroot : m ≠ Core.basicObject)
    (hkind : (u.module m).kind = .plain ∨ (u.module m).kind = .cls none) :
    Evolves touched registers u (Update.final (copyRecord m (u.module m)) u) := by
  unfold copyRecord
  rw [Update.final_lift_bind]
  have hb := bears_allocate (u.module m).kind (u.module m).chain u
  have ho : (allocate (u.module m).kind (u.module m).chain u).2.objects = u.objects := rfl
  have hn : (allocate (u.module m).kind (u.module m).chain u).1 = ⟨u.nextId⟩ := rfl
  generalize allocate (u.module m).kind (u.module m).chain u = made at hb ho hn
  obtain ⟨copy, v⟩ := made
  obtain rfl : copy = ⟨u.nextId⟩ := hn
  dsimp only at hb ho ⊢
  rw [Update.final_lift_bind]
  generalize hcopied : (u.module m).methods.mapValues
    (fun _ f => f.withDeclaringModule ⟨u.nextId⟩) = copied
  -- the copy was allocated empty, and is filled with methods that were given identities
  have hsource : ∀ name g, (holdMethods copied v).1.find? name = some g →
      ∃ f, (u.module m).methods.find? name = some f ∧ g.context = f.context := by
    intro name g hg
    obtain ⟨f', hf', hc⟩ := content_holdMethods hg
    rw [← hcopied, Table.find?_mapValues] at hf'
    obtain ⟨f, hf, rfl⟩ := Option.map_eq_some_iff.1 hf'
    refine ⟨f, hf, (congrArg MethodContent.context hc).trans ?_⟩
    exact f.context_withDeclaringModule _
  have hnew : u.Newborn (({
      kind := (u.module m).kind
      chain := (u.module m).chain
      methods := (holdMethods copied v).1
      classVariables := (u.module m).classVariables } : Module).updateConstants
        fun _ => (u.module m).constants) :=
    .copy hm hroot hkind rfl rfl rfl rfl hsource
  have hfilled := hb.fill (w := (holdMethods copied v).2) rfl rfl (Nat.le_add_right _ _)
    fun k => ({ k with
      methods := (holdMethods copied v).1
      classVariables := (u.module m).classVariables } : Module).updateConstants
        fun _ => (u.module m).constants
  exact .single (.born hnew
    ⟨hfilled.nextId, hfilled.nextSerial, hfilled.self, hfilled.others⟩ ho)

theorem evolves_copyModule (hm : u.knows m) :
    Evolves touched registers u (Update.final (copyModule m) u) := by
  unfold copyModule
  split
  · exact .refl
  · next hroot =>
    rw [Update.final_get_bind]
    have hcopy (hk : (u.module m).kind = .plain ∨ (u.module m).kind = .cls none) :
        Evolves touched registers u (Update.final (copyRecord m (u.module m)) u) :=
      evolves_copyRecord hm hroot hk
    unfold copyRecord at hcopy
    dsimp only
    split
    · exact .refl
    · exact .refl
    · next hk => exact hcopy (.inl hk)
    · next hk => exact hcopy (.inr hk)

/-- A missing refinement is made and noted by its namespace. -/
theorem bears_refinementOf {n t : ModuleId} (hn : u.knows n)
    (hnone : (u.module n).refinements.find? t = none) :
    Bears u (refinementOf n t u).2 { kind := .refinement t n, chain := { parent := some t } } n
      fun r => { r with refinements := r.refinements.insert t ⟨u.nextId⟩ } := by
  rw [refinementOf, Change.get_bind, hnone]
  have hb := bears_noted (.refinement t n) { parent := some t }
    (fun k => { k with refinements := k.refinements.insert t ⟨u.nextId⟩ }) hn
  exact ⟨hb.nextId, hb.nextSerial, hb.self, hb.others⟩

theorem evolves_refinementOf {n t : ModuleId} (hreg : registers n) (hn : u.knows n) (ht : u.knows t)
    (hc : (u.module n).isClass = false) : Evolves touched registers u (refinementOf n t u).2 := by
  cases hr : (u.module n).refinements.find? t with
  | some r => rw [refinementOf, Change.get_bind, hr]; exact .refl
  | none =>
    refine .single (.refined hreg hn ht hc hr (bears_refinementOf hn hr) ?_)
    rw [refinementOf, Change.get_bind, hr]
    rfl

/-- A refinement that was just made has no methods. -/
theorem mem_values_of_refinementOf {n t : ModuleId} (hn : u.knows n) {k : ModuleId}
    (hk : k ∈ ((refinementOf n t u).2.module n).refinements.values) :
    k ∈ (u.module n).refinements.values ∨
      ((refinementOf n t u).2.module k).methods.size = 0 := by
  cases hr : (u.module n).refinements.find? t with
  | some r =>
    rw [refinementOf, Change.get_bind, hr] at hk
    exact .inl hk
  | none =>
    rw [module_refinementOf_of_none hn hr, if_pos rfl, Table.mem_values_iff] at hk
    obtain ⟨j, hj⟩ := hk
    rw [Table.find?_insert] at hj
    split at hj
    · cases hj
      rw [(bears_refinementOf hn hr).self]
      exact .inr rfl
    · exact .inl (Table.mem_values_iff.2 ⟨j, hj⟩)

/-- What is declared anew when a namespace is opened are the methods of refinements that it had. -/
theorem retouches_openRefinement {n t : ModuleId} (hn : u.knows n)
    (h : (u.module n).isClass = false ∧ u.immutable? n = none) :
    Retouches ((Move.openRefinement n t).Touches u) (refinementOf n t u).2
      (Update.final (openRefinement n t) u) := by
  rw [final_openRefinement, if_pos h]
  have hvalues {k} := mem_values_of_refinementOf (t := t) hn (k := k)
  generalize refinementOf n t u = made at hvalues
  obtain ⟨r, w⟩ := made
  dsimp only at hvalues ⊢
  have hheld : Retouches ((Move.openRefinement n t).Touches u) w
      (holdContext (w.refinementContext n r) w).2 := Retouches.keeps_holdContext _ w (.refl _ w)
  have hsame := modules_holdContext (w.refinementContext n r) w
  generalize holdContext (w.refinementContext n r) w = held at hheld hsame
  obtain ⟨c, x⟩ := held
  have hmodule (k) : x.module k = w.module k := by rw [module, hsame, module]
  refine hheld.redeclareEach (fun k hk => ?_) c
  rw [hmodule]
  exact hvalues hk

theorem evolves_openRefinement {n t : ModuleId} (hn : u.knows n) (ht : u.knows t) :
    Evolves ((Move.openRefinement n t).Touches u) (· = n) u
      (Update.final (openRefinement n t) u) := by
  by_cases h : (u.module n).isClass = false ∧ u.immutable? n = none
  · have hmade : Evolves ((Move.openRefinement n t).Touches u) (· = n) u (refinementOf n t u).2 :=
      evolves_refinementOf rfl hn ht h.1
    exact hmade.trans (Retouches.evolves (retouches_openRefinement hn h))
  · rw [final_openRefinement, if_neg h]

/-! ### Moves -/

theorem keeps_modify {f : Universe → Universe} (hm : ∀ v, (f v).modules = v.modules)
    (ho : ∀ v, (f v).objects = v.objects) (hn : ∀ v, (f v).nextId = v.nextId)
    (hs : ∀ v, (f v).nextSerial = v.nextSerial) :
    Update.Keeps (Retouches touched u) (modify f) :=
  fun v h => h.neutral (hm v) (ho v) (hn v) (Nat.le_of_eq (hs v).symm)

theorem keeps_marked {f : Module → Module} (hf : ∀ r : Module, r.Retouched (f r))
    (hm : ∀ r, (f r).methods = r.methods) :
    Update.Keeps (Retouches touched u) (changeModule m f : Change Unit) :=
  Update.keeps_lift (Retouches.keeps_changeModule hf hm)

/-- A genuine move that neither mixes in nor makes anything only retouches. -/
theorem retouches_after {mv : Move} (hg : mv.Genuine u) (hm : ¬mv.Mixes) (hb : ¬mv.Makes) :
    Retouches (mv.Touches u) u (u.after mv) := by
  have hretouch {y : Update Unit} (h : Update.Keeps (Retouches (mv.Touches u) u) y) :
      Retouches (mv.Touches u) u (Update.final y u) := h u (.refl _ u)
  unfold after
  cases mv with
  | newModule | newClass _ | copyModule _ | singletonClass _ | objectSingletonClass _
  | newObject _ | openRefinement _ _ => exact absurd trivial hb
  | includeModule _ _ | prependModule _ _ => exact absurd trivial hm
  | writeVariable o name x =>
    exact (Retouches.refl _ u).editObject hg
      (f := fun r => { r with ivars := r.ivars.insert name x }) fun _ => rfl
  | freezeModule m => exact hretouch (keeps_marked (fun _ => ⟨rfl, rfl, rfl, rfl⟩) fun _ => rfl)
  | sealModule m => exact hretouch (keeps_marked (fun _ => ⟨rfl, rfl, rfl, rfl⟩) fun _ => rfl)
  | addMethod m f =>
    have ht : (Move.addMethod m f).Touches u m := rfl
    exact hretouch (Retouches.keeps_addMethod ht f)
  | removeMethod m name =>
    have ht : (Move.removeMethod m name).Touches u m := rfl
    exact hretouch (Retouches.keeps_removeMethod ht name)
  | setConstant m name x source =>
    exact hretouch (Update.keeps_discard (Retouches.keeps_setConstant m name x source))
  | removeConst m name => exact hretouch (Update.keeps_discard (Retouches.keeps_removeConst m name))
  | privateConstants m names => exact hretouch (Retouches.keeps_updateConstants m names _)
  | publicConstants m names => exact hretouch (Retouches.keeps_updateConstants m names _)
  | deprecateConstants m names => exact hretouch (Retouches.keeps_updateConstants m names _)
  | registerAutoload m name feature =>
    exact hretouch (Retouches.keeps_registerAutoload m name feature)
  | markAutoload a t =>
    exact hretouch (keeps_modify (fun _ => rfl) (fun _ => rfl) (fun _ => rfl) fun _ => rfl)
  | settleAutoload m name =>
    exact hretouch (Update.keeps_discard
      (Update.keeps_lift (Retouches.keeps_settleAutoload m name)))
  | setClassVariable m name x => exact hretouch (Retouches.keeps_setClassVariable m name x)
  | removeClassVariable m name =>
    exact hretouch (Update.keeps_discard (Retouches.keeps_removeClassVariable m name))
  | newCounter => exact hretouch fun v h => h.neutral rfl rfl rfl (Nat.le_succ _)
  | raiseCounter c => exact hretouch fun v h => h.neutral rfl rfl rfl (Nat.le_refl _)
  | installLoader =>
    exact hretouch (keeps_modify (fun _ => rfl) (fun _ => rfl) (fun _ => rfl) fun _ => rfl)
  | drawSerial =>
    exact hretouch (Update.keeps_discard (Update.keeps_lift Retouches.keeps_freshSerial))
  | report e => exact hretouch (Update.keeps_lift (Retouches.keeps_report e))
  | takeReports =>
    exact hretouch (keeps_modify (fun _ => rfl) (fun _ => rfl) (fun _ => rfl) fun _ => rfl)

/-- A genuine move that does not mix in goes by steps. -/
theorem evolves_after (hu : u.WellFormed) {mv : Move} (hk : mv.Known u) (hg : mv.Genuine u)
    (hm : ¬mv.Mixes) : Evolves (mv.Touches u) mv.Registers u (u.after mv) := by
  have hdrop {α : Type} {y : Update α}
      (h : Evolves (mv.Touches u) mv.Registers u (Update.final y u)) :
      Evolves (mv.Touches u) mv.Registers u (Update.final (discard y : Update Unit) u) := by
    rwa [Update.final_discard]
  cases mv with
  | newModule => exact Newborn.plain.evolves
  | newClass s => exact hdrop (evolves_newClass s)
  | copyModule m => exact hdrop (evolves_copyModule hk)
  | singletonClass m => exact evolves_singletonClass hu hk
  | objectSingletonClass o => exact evolves_objectSingletonClass hg
  | newObject m => exact hdrop (evolves_newObject m)
  | openRefinement n t => exact hdrop (evolves_openRefinement hk.1 hk.2)
  | _ => exact Retouches.evolves (retouches_after hg hm id)

/-- Mixing in draws no numbers. -/
theorem nextSerial_after_of_mixes {mv : Move} (hm : mv.Mixes) :
    u.nextSerial ≤ (u.after mv).nextSerial := by
  cases mv with
  | includeModule m n =>
    unfold after Move.run includeModule
    rw [final_checkMixin_bind]
    split
    · show _ ≤ (Update.final (if _ then _ else _) u).nextSerial
      split <;> exact Nat.le_refl _
    · exact Nat.le_refl _
  | prependModule m n =>
    unfold after Move.run prependModule
    rw [final_checkMixin_bind]
    split
    · show _ ≤ (Update.final (if _ then _ else _) u).nextSerial
      split <;> exact Nat.le_refl _
    · exact Nat.le_refl _
  | _ => exact absurd hm id

/-- Mixing in replaces at most one chain, whose parent stays. -/
theorem rechains_of_mixes (u : Universe) {mv : Move} (hm : mv.Mixes) :
    ∃ m c, Rechains u (u.after mv) m c ∧ c.parent = (u.module m).chain.parent := by
  cases mv with
  | includeModule m n =>
    by_cases h : u.Mixable m n
    · exact ⟨m, _, rechains_include h, rfl⟩
    · rw [(after_of_not_mixable h).1]
      exact ⟨m, _, rechains_refl rfl, rfl⟩
  | prependModule m n =>
    by_cases h : u.Mixable m n
    · exact ⟨m, _, rechains_prepend h, rfl⟩
    · rw [(after_of_not_mixable h).2]
      exact ⟨m, _, rechains_refl rfl, rfl⟩
  | _ => exact absurd hm id

/-- A replaced chain leaves tables alone. -/
theorem Rechains.tables {c : Chain} (h : Rechains u v m c) (k : ModuleId) :
    (v.module k).methods = (u.module k).methods ∧
    (v.module k).refinements = (u.module k).refinements ∧
    (v.module k).singleton = (u.module k).singleton := by
  by_cases hkm : k = m
  · subst hkm
    rcases h.self with ⟨he, -⟩ | he <;> rw [he] <;> exact ⟨rfl, rfl, rfl⟩
  · rw [h.other hkm]
    exact ⟨rfl, rfl, rfl⟩

/-- What a genuine move leaves alone. -/
theorem spares_after (hu : u.WellFormed) {mv : Move} (hk : mv.Known u) (hg : mv.Genuine u)
    {k : ModuleId} (hm : u.knows k) : Spares (mv.Touches u) mv.Registers u (u.after mv) k := by
  by_cases hmix : mv.Mixes
  · obtain ⟨m, c, h, -⟩ := rechains_of_mixes u hmix
    obtain ⟨hmethods, hrefinements, -⟩ := h.tables k
    exact .of_eq (Nat.le_of_eq h.nextId.symm) hm hmethods hrefinements
  · exact (evolves_after hu hk hg hmix).spares hm

/-- Where a genuine move registers nothing, the registry stays. -/
theorem refinements_after (hu : u.WellFormed) {mv : Move} (hk : mv.Known u) (hg : mv.Genuine u)
    {k : ModuleId} (hr : ¬mv.Registers k) :
    ((u.after mv).module k).refinements = (u.module k).refinements := by
  by_cases hmix : mv.Mixes
  · obtain ⟨m, c, h, -⟩ := rechains_of_mixes u hmix
    exact (h.tables k).2.1
  · rcases (evolves_after hu hk hg hmix).refinements hr with he | ⟨hno, he⟩
    · exact he
    · rw [he, hu.module_stranger hno]
      rfl

theorem nextSerial_le_after (hu : u.WellFormed) {mv : Move} (hk : mv.Known u)
    (hg : mv.Genuine u) : u.nextSerial ≤ (u.after mv).nextSerial := by
  by_cases hmix : mv.Mixes
  · exact nextSerial_after_of_mixes hmix
  · exact (evolves_after hu hk hg hmix).nextSerial_le

end Universe

end ObjectModel
