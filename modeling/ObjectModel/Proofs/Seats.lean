import ObjectModel.Proofs.Metaclasses
import ObjectModel.Proofs.Redeclaring
import ObjectModel.Proofs.SharedVariables

/-!
# Seats

The path that a class variable is searched along goes from a module to all ancestors of its seat:
the module that a singleton class belongs to, or the module itself.  What exists keeps its seat, and
a new module brings its path along from a module that exists.

* `seat`, `mem_classVariablePath`: where a path goes;
* `Seated`, `Arises.seated`: the modules that singleton classes belong to, and the classes of
  objects;
* `RisesFrom`: a module whose path goes on as the ancestors of another one;
* `Move.Overlays`: a move that puts a new module in front of all ancestors of a module;
* `path_of_born`, `exists_risesFrom`: the paths of new modules.
-/

namespace ObjectModel

/-- A move makes a new module whose path goes on as all ancestors of a module. -/
def Move.Overlays (u : Universe) (y : ModuleId) : Move → Prop
  | singletonClass m => y = m ∧ (u.module m).singleton = none
  | openRefinement n t => y = t ∧ u.Refinable n ∧ (u.module n).refinements.find? t = none
  | _ => False

namespace Universe

variable {u v : Universe} {mv : Move} {j k m n s t x y : ModuleId}
  {touched registers : ModuleId → Prop}

/-! ### Paths -/

/-- The module whose ancestors the path of a module goes along. -/
def seat (u : Universe) (k : ModuleId) : ModuleId :=
  match (u.module k).attached? with
  | some (.module n) => n
  | _ => k

theorem seat_congr (h : (v.module k).kind = (u.module k).kind) : v.seat k = u.seat k := by
  rw [seat, Module.attached?, h, seat, Module.attached?]

theorem seat_of_unattached (h : (u.module k).attached? = none) : u.seat k = k := by
  rw [seat, h]

theorem seat_of_kind (h : (u.module k).kind = .cls (some (.module n))) : u.seat k = n := by
  rw [seat, Module.attached?, h]

theorem seat_eq_self (h : ∀ n, (u.module k).kind ≠ .cls (some (.module n))) : u.seat k = k := by
  unfold seat Module.attached?
  cases hk : (u.module k).kind with
  | plain | refinement _ _ => rfl
  | cls a =>
    cases a with
    | none => rfl
    | some a =>
      cases a with
      | object o => rfl
      | module n => exact absurd hk (h n)

/-- A path has the module itself and the ancestors of its seat. -/
theorem mem_classVariablePath :
    j ∈ u.classVariablePath k ↔ j = k ∨ j ∈ u.ancestors (u.seat k) := by
  have hothers (n : ModuleId) : j = n ∨ j ∈ u.otherAncestors n ↔ j ∈ u.ancestors n := by
    rw [otherAncestors, List.mem_filter]
    by_cases h : j = n
    · simp [h, self_mem_ancestors]
    · simp [h]
  unfold classVariablePath seat
  cases (u.module k).attached? with
  | none =>
    rw [List.mem_cons, ← hothers k, ← or_assoc, or_self]
  | some a =>
    cases a with
    | object o => rw [List.mem_cons, ← hothers k, ← or_assoc, or_self]
    | module n => rw [List.mem_cons, List.mem_cons, hothers]

theorem self_mem_path (u : Universe) (k : ModuleId) : k ∈ u.classVariablePath k :=
  mem_classVariablePath.2 (.inl rfl)

/-- Where the seat is the module itself, the path has its ancestors. -/
theorem mem_path_of_seat (h : u.seat k = k) : j ∈ u.classVariablePath k ↔ j ∈ u.ancestors k := by
  rw [mem_classVariablePath, h]
  exact or_iff_right_of_imp fun he => he ▸ self_mem_ancestors u k

/-! ### Seats that exist -/

/-- The modules that singleton classes belong to exist, and no object is an instance of such a
class. -/
structure Seated (u : Universe) : Prop where
  attached : ∀ s n, (u.module s).kind = .cls (some (.module n)) → u.knows n
  objects : ∀ o r, u.objects.find? o = some r → ∀ n, (u.module r.cls).kind ≠ .cls (some (.module n))

theorem kind_create (options : Options) (m : ModuleId) :
    ((create options).module m).kind = .plain ∨ ((create options).module m).kind = .cls none := by
  rcases module_create options m with hr | ⟨e, he, -, hr⟩
  · rw [hr]
    exact .inl rfl
  · rw [hr, coreRecord_kind]
    exact (coreChains_placed e he).imp And.left And.left

theorem seated_create (options : Options) : (create options).Seated where
  attached s n h := by rcases kind_create options s with hk | hk <;> cases hk.symm.trans h
  objects _ _ h := nomatch h

/-- What a change has to respect: new singleton classes belong to what exists, and new objects are
not instances of such classes. -/
theorem Seated.later (hu : u.Seated) (hr : u.Rooted) (hnext : u.nextId ≤ v.nextId)
    (hkind : ∀ s, (v.module s).kind = (u.module s).kind ∨ ¬u.knows s ∧
      ∀ n, (v.module s).kind = .cls (some (.module n)) → v.knows n)
    (hobjects : ∀ o r, v.objects.find? o = some r →
      (∃ r', u.objects.find? o = some r' ∧ r.cls = r'.cls) ∨
        (u.module r.cls).isClass = true ∧ (u.module r.cls).isSingletonClass = false) :
    v.Seated := by
  have hclass {c : ModuleId} (hc : (u.module c).isClass = true) :
      (v.module c).kind = (u.module c).kind := by
    refine (hkind c).resolve_right fun h => h.1 ?_
    exact (hr.placed c).known (kind_ne_plain_of_isClass hc)
  refine ⟨fun s n hs => ?_, fun o r ho n hn => ?_⟩
  · rcases hkind s with h | ⟨-, h⟩
    · exact knows_mono hnext (hu.attached s n (h ▸ hs))
    · exact h n hs
  · rcases hobjects o r ho with ⟨r', ho', hc⟩ | ⟨hc, hl⟩
    · rw [hc, hclass (hr.objects o r' ho').1] at hn
      exact hu.objects o r' ho' n hn
    · rw [hclass hc] at hn
      rw [Module.isSingletonClass, hn] at hl
      cases hl

theorem Bears.seated {r : Module} {noted : Module → Module} (h : Bears u v r m noted)
    (hu : u.Seated) (hr : u.Rooted) (hnoted : ∀ x : Module, (noted x).kind = x.kind)
    (hself : ∀ n, r.kind = .cls (some (.module n)) → u.knows n)
    (hobjects : ∀ o r, v.objects.find? o = some r →
      ∃ r', u.objects.find? o = some r' ∧ r.cls = r'.cls) : v.Seated := by
  have hnext : u.nextId ≤ v.nextId := by
    rw [h.nextId]
    exact Nat.le_succ _
  refine hu.later hr hnext (fun s => ?_) fun o r ho => .inl (hobjects o r ho)
  rcases h.read s with ⟨rfl, he⟩ | ⟨-, he⟩ | he
  · exact .inr ⟨Nat.lt_irrefl _, fun n hn => knows_mono hnext (hself n (he ▸ hn))⟩
  · exact .inl (by rw [he, hnoted])
  · exact .inl (by rw [he])

theorem Newborn.kind {r : Module} (h : u.Newborn r) : r.kind ≠ .cls (some (.module n)) := by
  cases h with
  | plain | top | below => exact nofun
  | copy _ _ hkind kind =>
    rw [kind]
    rcases hkind with hk | hk <;> rw [hk] <;> exact nofun

theorem Seated.step (hu : u.Seated) (hr : u.Rooted) (h : Step touched registers u v) :
    v.Seated := by
  have hsame (ho : v.objects = u.objects) : ∀ o r, v.objects.find? o = some r →
      ∃ r', u.objects.find? o = some r' ∧ r.cls = r'.cls := fun o r h => ⟨r, ho ▸ h, rfl⟩
  cases h with
  | retouched h =>
    refine hu.later hr (Nat.le_of_eq h.nextId.symm) (fun s => .inl (h.modules s).kind)
      fun o r ho => .inl ?_
    have hmap := h.objects o
    rw [ho] at hmap
    obtain ⟨r', hr', he⟩ := Option.map_eq_some_iff.1 hmap.symm
    exact ⟨r', hr', (congrArg Prod.fst he).symm⟩
  | born hnew h ho =>
    exact h.seated hu hr (fun _ => rfl) (fun n hn => absurd hn hnew.kind) (hsame ho)
  | singled hm _ _ h ho =>
    exact h.seated hu hr (fun _ => rfl) (fun n hn => by cases hn; exact hm) (hsame ho)
  | @singledObject o hc _ h ho =>
    refine h.seated hu hr (fun _ => rfl) (fun n hn => by cases hn) fun i r hi => ?_
    rw [ho, Table.find?_insert] at hi
    split at hi
    · next he =>
      subst he
      obtain ⟨r', hr'⟩ := Option.isSome_iff_exists.1 hc
      cases hi
      exact ⟨r', hr', by rw [object, hr']; rfl⟩
    · exact ⟨r, hi, rfl⟩
  | refined _ _ _ _ _ h ho =>
    exact h.seated hu hr (fun _ => rfl) (fun n hn => by cases hn) (hsame ho)
  | @madeObject c hc hl hn _ hm ho =>
    refine hu.later hr (by rw [hn]; exact Nat.le_succ _)
      (fun s => .inl (by rw [module, hm, module])) fun o r hr => ?_
    rw [ho, Table.find?_insert] at hr
    split at hr
    · cases hr
      exact .inr ⟨hc, hl⟩
    · exact .inl ⟨r, hr, rfl⟩

theorem Evolves.seated (h : Evolves touched registers u v) (hu : u.Seated) (hr : u.Rooted) :
    v.Seated := by
  induction h with
  | refl => exact hu
  | tail hsteps hstep ih => exact ih.step (Evolves.rooted hsteps hr) hstep

theorem seated_after (hw : u.WellFormed) (hu : u.Seated) (hr : u.Rooted) {mv : Move}
    (hk : mv.Known u) (hg : mv.Genuine u) : (u.after mv).Seated := by
  by_cases hm : mv.Mixes
  · obtain ⟨m, c, h, -⟩ := rechains_of_mixes u hm
    exact hu.later hr (Nat.le_of_eq h.nextId.symm) (fun s => .inl (h.kind s))
      fun o r ho => .inl ⟨r, h.objects ▸ ho, rfl⟩
  · exact (evolves_after hw hk hg hm).seated hu hr

theorem Arises.seated (h : Arises u) : u.Seated := by
  refine (h.induction (motive := fun u => u.Rooted ∧ u.Seated)
    (fun options => ⟨rooted_create options, seated_create options⟩)
    fun v mv hv hvs hk hg => ?_).2
  exact ⟨rooted_after hv.wellFormed hvs.1 hk hg, seated_after hv.wellFormed hvs.2 hvs.1 hk hg⟩

theorem Seated.knows_seat (hu : u.Seated) (hk : u.knows k) : u.knows (u.seat k) := by
  by_cases h : ∃ n, (u.module k).kind = .cls (some (.module n))
  · obtain ⟨n, hn⟩ := h
    rw [seat_of_kind hn]
    exact hu.attached k n hn
  · rw [seat_eq_self fun n hn => h ⟨n, hn⟩]
    exact hk

theorem seat_of_not_singleton (h : (u.module k).isSingletonClass = false) : u.seat k = k := by
  refine seat_eq_self fun n hn => ?_
  rw [Module.isSingletonClass, hn] at h
  cases h

theorem seat_of_not_isClass (h : (u.module k).isClass = false) : u.seat k = k := by
  refine seat_eq_self fun n hn => ?_
  rw [Module.isClass, hn] at h
  cases h

/-- The root of classes that are made without a superclass is no singleton class. -/
theorem seat_object (h : Reachable u) : u.seat Core.object = Core.object := by
  obtain ⟨options, ho⟩ := h
  have hkept := (ho.follows (wellFormed_create options)).2.modules Core.object
    (Nat.lt_trans (by decide) (wellFormed_create options).core)
  refine seat_eq_self fun n hn => ?_
  rcases kind_create options Core.object with hk | hk <;> cases (hkept.kind.trans hk).symm.trans hn

/-- The path of a module that exists stays, mixing in apart. -/
theorem mem_path_drift (h : Drifts u v) (hw : u.WellFormed) (hu : u.Seated) (hk : u.knows k) :
    j ∈ v.classVariablePath k ↔ j ∈ u.classVariablePath k := by
  rw [mem_classVariablePath, seat_congr (h.follows.modules k hk).kind,
    ancestors_drift h hw (hu.knows_seat hk), mem_classVariablePath]

/-! ### New paths -/

/-- The path of the first module goes on as the ancestors of the second. -/
def RisesFrom (u : Universe) (k x : ModuleId) : Prop :=
  ∀ j, j ∈ u.classVariablePath k ↔ j = k ∨ j ∈ u.ancestors x

theorem risesFrom_of_attached (h : (u.module k).kind = .cls (some (.module x))) :
    u.RisesFrom k x := by
  intro j
  rw [mem_classVariablePath, seat_of_kind h]

theorem risesFrom_of_parent (hseat : u.seat k = k) (hm : (u.module k).chain.mixins = [])
    (hp : (u.module k).chain.parent = some x) (hlt : x.num < k.num) : u.RisesFrom k x := by
  intro j
  have hown : j ∈ u.ownChain k ↔ j = k := by
    rw [mem_ownChain, hm]
    exact or_iff_left List.not_mem_nil
  rw [mem_path_of_seat hseat, mem_ancestors_iff_spine, mem_ancestors_iff_spine]
  constructor
  · rintro ⟨o, ho, hj⟩
    rcases mem_spine_iff.1 ho with rfl | ⟨p, hp', -, ho⟩
    · exact .inl (hown.1 hj)
    · obtain rfl : x = p := Option.some.inj (hp.symm.trans hp')
      exact .inr ⟨o, ho, hj⟩
  · rintro (hj | ⟨o, ho, hj⟩)
    · exact ⟨k, self_mem_spine u k, hown.2 hj⟩
    · exact ⟨o, mem_spine_iff.2 (.inr ⟨x, hp, hlt, ho⟩), hj⟩

/-- A module without a chain is alone on its path. -/
theorem path_of_blank (hseat : u.seat k = k) (hc : (u.module k).chain = {})
    (hj : j ∈ u.classVariablePath k) : j = k := by
  rw [mem_path_of_seat hseat, mem_ancestors_iff_spine] at hj
  obtain ⟨o, ho, hj⟩ := hj
  rcases mem_spine_iff.1 ho with rfl | ⟨p, hp, -⟩
  · rw [mem_ownChain, hc] at hj
    exact hj.resolve_right List.not_mem_nil
  · rw [hc] at hp
    cases hp

theorem path_of_default (h : u.module k = default) (hj : j ∈ u.classVariablePath k) : j = k := by
  refine path_of_blank (seat_eq_self fun n hn => ?_) (by rw [h]; rfl) hj
  rw [h] at hn
  cases hn

section Births

variable {r : Module} {noted : Module → Module} (h : Bears u v r n noted)
include h

theorem Bears.eq_of_born (hk : ¬u.knows k) (hv : v.knows k) : k = ⟨u.nextId⟩ := by
  rw [knows, h.nextId] at hv
  exact congrArg ModuleId.mk (Nat.le_antisymm (Nat.le_of_lt_succ hv) (Nat.le_of_not_lt hk))

theorem Bears.risesFrom (hkind : ∀ n, r.kind ≠ .cls (some (.module n)))
    (hchain : r.chain = { parent := some x }) (hx : u.knows x) : v.RisesFrom ⟨u.nextId⟩ x := by
  refine risesFrom_of_parent (seat_eq_self fun n hn => hkind n ?_) ?_ ?_ hx
  · rwa [h.self] at hn
  · rw [h.self, hchain]
    rfl
  · rw [h.self, hchain]

end Births

/-- The singleton classes that are made for the one of a module belong to the module and to what
it descends from by superclasses. -/
theorem kind_of_born_singletonClass (hw : u.WellFormed) {m : ModuleId} (hm : u.knows m)
    (hk : ¬u.knows k) (hv : (singletonClass m u).2.knows k) :
    ∃ n ∈ u.spine m, ((singletonClass m u).2.module k).kind = .cls (some (.module n)) := by
  cases hs : (u.module m).singleton with
  | some s =>
    rw [singletonClass_of_some hs] at hv
    exact absurd hv hk
  | none =>
    -- the new class itself is made last, behind those above it
    have hsuper : (singletonSuper m u).2.knows m ∧ ((singletonSuper m u).2.knows k →
        ∃ n ∈ u.spine m, ((singletonSuper m u).2.module k).kind = .cls (some (.module n))) := by
      unfold singletonSuper
      rw [Change.get_bind]
      split
      · cases hp : (u.module m).chain.parent with
        | none => exact ⟨hm, fun hv => absurd hv hk⟩
        | some p =>
          have hlt := hw.older m p hm hp
          have hpu := (hw.modules m hm).parent p hp
          simp only [if_pos hlt]
          refine ⟨((drifts_singletonClass (.refl hw) hpu).2.2 m hm hlt).1, fun hv => ?_⟩
          obtain ⟨n, hn, hkind⟩ := kind_of_born_singletonClass hw hpu hk hv
          exact ⟨n, mem_spine_iff.2 (.inr ⟨p, hp, hlt, hn⟩), hkind⟩
      · exact ⟨hm, fun hv => absurd hv hk⟩
    rw [singletonClass_of_none hs, Change.bind_apply] at hv ⊢
    generalize singletonSuper m u = made at hsuper hv
    have hb := bears_noted (.cls (some (.module m))) { parent := some made.1 }
      (fun r => { r with singleton := some ⟨made.2.nextId⟩ }) hsuper.1
    by_cases hmade : made.2.knows k
    · obtain ⟨n, hn, hkind⟩ := hsuper.2 hmade
      have hne : k ≠ ⟨made.2.nextId⟩ := by
        rintro rfl
        exact Nat.lt_irrefl _ hmade
      exact ⟨n, hn, (hb.kept (fun _ => ⟨rfl, rfl⟩) hne).1.trans hkind⟩
    · obtain rfl := hb.eq_of_born hmade hv
      exact ⟨m, self_mem_spine u m, congrArg Module.kind hb.self⟩
termination_by m.num

/-- The path of a new module: it is alone there, or the path goes on as the ancestors of a module
that existed, and which that module saw itself or the move overlays. -/
inductive NewPath (u v : Universe) (mv : Move) (k : ModuleId) : Prop
  | alone (h : ∀ j ∈ v.classVariablePath k, j = k)
  | behind {x : ModuleId} (hx : u.knows x) (h : v.RisesFrom k x) (hseat : u.seat x = x)
  | overlaid {x y : ModuleId} (hx : u.knows x) (h : v.RisesFrom k x) (hy : mv.Overlays u y)
    (hxy : ∀ j ∈ u.ancestors x, j ∈ u.ancestors y)

/-- A class is made below one that is no singleton class, or not at all. -/
theorem final_newClass (p : ModuleId) (u : Universe) :
    Update.final (newClass (some p)) u = u ∨ (u.module p).isSingletonClass = false ∧
      Update.final (newClass (some p)) u = (allocate (.cls none) { parent := some p } u).2 := by
  unfold newClass
  rw [Update.final_get_bind]
  dsimp only
  split
  · exact .inl rfl
  · split
    · exact .inl rfl
    · next hl =>
      split
      · exact .inl rfl
      · exact .inr ⟨by simpa using hl, rfl⟩

theorem newPath_newClass (hr : Reachable u) {superclass : Option ModuleId}
    (hs : ∀ p, superclass = some p → u.knows p) (hk : ¬u.knows k)
    (hv : (Update.final (newClass superclass) u).knows k) :
    NewPath u (Update.final (newClass superclass) u) mv k := by
  have hborn {x : ModuleId} (hx : u.knows x) (hseat : u.seat x = x)
      (hv : (allocate (.cls none) { parent := some x } u).2.knows k) :
      NewPath u (allocate (.cls none) { parent := some x } u).2 mv k := by
    have hb := bears_allocate (.cls none) { parent := some x } u
    obtain rfl := hb.eq_of_born hk hv
    exact .behind hx (hb.risesFrom (fun n hn => by cases hn) rfl hx) hseat
  cases superclass with
  | none =>
    have hobject : u.knows Core.object := Nat.lt_trans (by decide) hr.wellFormed.core
    exact hborn hobject (seat_object hr) hv
  | some p =>
    rcases final_newClass p u with he | ⟨hl, he⟩ <;> rw [he] at hv ⊢
    · exact absurd hv hk
    · exact hborn (hs p rfl) (seat_of_not_singleton hl) hv

theorem newPath_objectSingletonClass (hu : u.Seated) (hw : u.WellFormed) {o : ObjectId}
    (ho : u.objects.contains o = true) (hk : ¬u.knows k)
    (hv : (objectSingletonClass o u).2.knows k) :
    NewPath u (objectSingletonClass o u).2 mv k := by
  unfold objectSingletonClass at hv ⊢
  rw [Change.get_bind] at hv ⊢
  cases hs : (u.object o).singleton with
  | some s =>
    rw [hs] at hv
    exact absurd hv hk
  | none =>
    obtain ⟨r, hr⟩ := Option.isSome_iff_exists.1 ho
    have hcls : (u.object o).cls = r.cls := by
      rw [object, hr]
      rfl
    have hb := bears_allocate (.cls (some (.object o))) { parent := some (u.object o).cls } u
    rw [hs] at hv
    obtain rfl := hb.eq_of_born hk hv
    have hc : u.knows (u.object o).cls := (hw.objects o (knowsObject_of_contains hw ho)).cls
    have hborn : Bears u ((allocate (.cls (some (.object o)))
        { parent := some (u.object o).cls } u).2.modifyObject o fun r =>
          { r with singleton := some ⟨u.nextId⟩ }) _ ⟨u.nextId⟩ id :=
      ⟨hb.nextId, hb.nextSerial, hb.self, hb.others⟩
    have hseat : u.seat (u.object o).cls = (u.object o).cls :=
      seat_eq_self fun n => hcls ▸ hu.objects o r hr n
    exact .behind hc (hborn.risesFrom (fun n hn => by cases hn) rfl hc) hseat

theorem modules_newObject (c : ModuleId) (u : Universe) :
    (Update.final (newObject c) u).modules = u.modules := by
  unfold newObject
  rw [Update.final_get_bind]
  dsimp only
  split
  · rfl
  · split <;> rfl

theorem Retouches.classVariablePath (h : Retouches touched u v) (k : ModuleId) :
    v.classVariablePath k = u.classVariablePath k :=
  classVariablePath_congr (fun o => (h.modules o).kind) (fun o => (h.modules o).chain) k

theorem Retouches.risesFrom (h : Retouches touched u v) (hk : u.RisesFrom k x) :
    v.RisesFrom k x := by
  intro j
  rw [h.classVariablePath, ancestors_of_chains fun o _ => (h.modules o).chain]
  exact hk j

/-- A new refinement continues into the module that it refines. -/
theorem risesFrom_openRefinement (hn : u.knows n) (ht : u.knows t) (h : u.Refinable n)
    (hr : (u.module n).refinements.find? t = none) :
    (Update.final (openRefinement n t) u).RisesFrom ⟨u.nextId⟩ t := by
  have hmade : (refinementOf n t u).2.RisesFrom ⟨u.nextId⟩ t :=
    (bears_refinementOf hn hr).risesFrom (fun m hm => by cases hm) rfl ht
  exact (retouches_openRefinement hn h).risesFrom hmade

theorem newPath_openRefinement (hk : ¬u.knows k) (hn : u.knows n) (ht : u.knows t)
    (hv : (Update.final (openRefinement n t) u).knows k) :
    NewPath u (Update.final (openRefinement n t) u) (.openRefinement n t) k := by
  by_cases h : u.Refinable n
  · rw [knows, (retouches_openRefinement hn h).nextId] at hv
    cases hr : (u.module n).refinements.find? t with
    | some r =>
      rw [refinementOf, Change.get_bind, hr] at hv
      exact absurd hv hk
    | none =>
      obtain rfl := (bears_refinementOf hn hr).eq_of_born hk hv
      exact .overlaid ht (risesFrom_openRefinement hn ht h hr) ⟨rfl, h, hr⟩ fun _ => id
  · rw [final_openRefinement, if_neg (show ¬(_ ∧ _) from h)] at hv
    exact absurd hv hk

theorem newPath_singletonClass (hw : u.WellFormed) (hm : u.knows m) (hk : ¬u.knows k)
    (hv : (singletonClass m u).2.knows k) :
    NewPath u (singletonClass m u).2 (.singletonClass m) k := by
  cases hs : (u.module m).singleton with
  | some s =>
    rw [singletonClass_of_some hs] at hv
    exact absurd hv hk
  | none =>
    obtain ⟨n, hn, hkind⟩ := kind_of_born_singletonClass hw hm hk hv
    refine .overlaid (knows_spine hw hm n hn) (risesFrom_of_attached hkind) ⟨rfl, hs⟩ fun j hj => ?_
    exact List.contains_iff_mem.1 (includes_of_spine hn (List.contains_iff_mem.2 hj))

/-- The paths of the modules that a genuine move makes, mixing in and copying apart. -/
theorem newPath_after (ha : Arises u) (hk : mv.Known u) (hg : mv.Genuine u) (hm : ¬mv.Mixes)
    (hcopy : ∀ s, mv ≠ .copyModule s) (hj : ¬u.knows j) : NewPath u (u.after mv) mv j := by
  have hw := ha.reachable.wellFormed
  have hdrifts := drifts_after hw hk hm
  by_cases hv : (u.after mv).knows j
  · unfold after at hv ⊢
    cases mv with
    | newModule =>
      have hb := bears_allocate .plain {} u
      obtain rfl := hb.eq_of_born hj hv
      refine .alone fun i => path_of_blank (seat_of_not_isClass ?_) (congrArg Module.chain hb.self)
      exact congrArg Module.isClass hb.self
    | newClass s =>
      rw [Move.run, Update.final_discard] at hv ⊢
      exact newPath_newClass ha.reachable hk hj hv
    | copyModule s => exact absurd rfl (hcopy s)
    | singletonClass m => exact newPath_singletonClass hw hk hj hv
    | objectSingletonClass o => exact newPath_objectSingletonClass ha.seated hw hg hj hv
    | newObject c =>
      rw [Move.run, Update.final_discard]
      refine .alone fun i => path_of_default ?_
      rw [module_congr (modules_newObject c u)]
      exact hw.module_stranger hj
    | openRefinement n t =>
      rw [Move.run, Update.final_discard] at hv ⊢
      exact newPath_openRefinement hj hk.1 hk.2 hv
    | includeModule _ _ | prependModule _ _ => exact absurd trivial hm
    | _ =>
      have hsame := (retouches_after hg hm id).nextId
      exact absurd (Nat.lt_of_lt_of_eq hv hsame) hj
  · exact .alone fun i => path_of_default (hdrifts.wellFormed.module_stranger hv)

theorem knows_of_overlays (hy : mv.Overlays u y) (hk : mv.Known u) : u.knows y := by
  cases mv with
  | singletonClass m => exact hy.1 ▸ hk
  | openRefinement n t => exact hy.1 ▸ hk.2
  | _ => exact absurd hy id

/-- A module that a move overlays gets a new module in front. -/
theorem exists_risesFrom (ha : Arises u) (hk : mv.Known u) (hg : mv.Genuine u)
    (hy : mv.Overlays u y) : ∃ s, (u.after mv).RisesFrom s y := by
  cases mv with
  | singletonClass m =>
    obtain ⟨rfl, -⟩ := hy
    have hparallel := (ha.after hk hg).paralleled
    exact ⟨_, risesFrom_of_attached (hparallel.modules y _ (singleton_singletonClass u y)).1⟩
  | openRefinement n t =>
    obtain ⟨rfl, h, hr⟩ := hy
    rw [after_openRefinement]
    exact ⟨_, risesFrom_openRefinement hk.1 hk.2 h hr⟩
  | _ => exact absurd hy id

end Universe

end ObjectModel
