import ObjectModel.Proofs.Birth

/-!
# Lineages

What the chain of a module continues into depends on what the module is: classes continue into
classes, up to the root class, refinements into the modules that they refine, and other modules
into nothing.

* `Placed`, `Rooted`: this, and what singleton classes, the classes of objects and registered
  refinements are;
* `Rooted.later`: what a change has to respect to keep it;
* `Rooted.step`, `Arises.rooted`: steps and moves keep it, so that it holds of whatever arises;
* `Rooted.ascends_root`: from every class, parents lead to the root class.
-/

namespace ObjectModel.Universe

variable {u v : Universe} {m n : ModuleId} {touched registers : ModuleId → Prop}

/-- The classes that others are put below without being asked for. -/
def coreClasses : List ModuleId := [Core.basicObject, Core.object, Core.module, Core.cls]

/-- The chain of a module continues as the kind of the module asks for. -/
structure Placed (u : Universe) (m : ModuleId) : Prop where
  known : (u.module m).kind ≠ .plain → u.knows m
  plain : (u.module m).kind = .plain → (u.module m).chain.parent = none
  cls : (u.module m).isClass = true → m ≠ Core.basicObject →
    ∃ p, (u.module m).chain.parent = some p ∧ (u.module p).isClass = true
  refinement : ∀ t n, (u.module m).kind = .refinement t n → (u.module m).chain.parent = some t

/-- All modules are placed, below a root class, and references point to modules of the kinds that
they are for. -/
structure Rooted (u : Universe) : Prop where
  core : ∀ m ∈ coreClasses, (u.module m).isClass = true
  root : (u.module Core.basicObject).chain.parent = none
  placed : ∀ m, u.Placed m
  singletons : ∀ m s, (u.module m).singleton = some s → (u.module s).isClass = true
  objects : ∀ o r, u.objects.find? o = some r →
    (u.module r.cls).isClass = true ∧ ∀ s, r.singleton = some s → (u.module s).isClass = true
  registry : ∀ n t r, (u.module n).refinements.find? t = some r →
    (u.module r).kind = .refinement t n

theorem kind_ne_plain_of_isClass {r : Module} (h : r.isClass = true) : r.kind ≠ .plain := by
  intro hk
  rw [Module.isClass, hk] at h
  cases h

/-! ### The fresh universe -/

/-- What each core module starts with fits its kind. -/
theorem coreChains_placed : ∀ e ∈ coreChains, (e.2.1 = .plain ∧ e.2.2.parent = none) ∨
    (e.2.1 = .cls none ∧ (e.1 ≠ Core.basicObject → ∃ p ∈ coreClasses, e.2.2.parent = some p)) := by
  decide

theorem coreRecord_kind (m : ModuleId) (kind : ModuleKind) (chain : Chain) :
    (coreRecord m kind chain).kind = kind := by
  unfold coreRecord
  split <;> rfl

theorem isClass_create (options : Options) :
    ∀ m ∈ coreClasses, ((create options).module m).isClass = true := by
  have h : ∀ m ∈ coreClasses, ((create {}).module m).isClass = true := by decide
  exact h

theorem placed_create (options : Options) (m : ModuleId) : (create options).Placed m := by
  rcases module_create options m with hr | ⟨e, he, rfl, hr⟩
  · constructor
    · rw [hr]
      exact fun h => absurd rfl h
    · rw [hr]
      exact fun _ => rfl
    · rw [hr]
      exact fun h => nomatch h
    · rw [hr]
      exact fun _ _ h => nomatch h
  · have hknown : (create options).knows e.1 := Nat.lt_succ_of_le (coreChains_older e he).1
    rcases coreChains_placed e he with ⟨hk, hp⟩ | ⟨hk, hp⟩
    · have hkind : ((create options).module e.1).kind = .plain := by rw [hr, coreRecord_kind, hk]
      refine ⟨fun _ => hknown, fun _ => ?_, fun hc => ?_, fun t n h => ?_⟩
      · rw [hr, coreRecord_chain, hp]
      · exact absurd hkind (kind_ne_plain_of_isClass hc)
      · cases hkind.symm.trans h
    · have hkind : ((create options).module e.1).kind = .cls none := by
        rw [hr, coreRecord_kind, hk]
      refine ⟨fun _ => hknown, fun h => ?_, fun _ hne => ?_, fun t n h => ?_⟩
      · cases hkind.symm.trans h
      · obtain ⟨p, hpc, hpp⟩ := hp hne
        rw [hr, coreRecord_chain]
        exact ⟨p, hpp, isClass_create options p hpc⟩
      · cases hkind.symm.trans h

/-- No module starts with methods, refinements or a singleton class. -/
theorem blank_create (options : Options) (m : ModuleId) :
    ((create options).module m).methods = .empty ∧
    ((create options).module m).refinements = .empty ∧
    ((create options).module m).singleton = none := by
  rcases module_create options m with hr | ⟨e, he, rfl, hr⟩ <;> rw [hr]
  · exact ⟨rfl, rfl, rfl⟩
  · rw [coreRecord_methods, coreRecord_refinements, coreRecord_singleton]
    exact ⟨rfl, rfl, rfl⟩

/-- What modules start with among their mixed-in modules. -/
theorem mixins_create (options : Options) (m : ModuleId) :
    ((create options).module m).chain.mixins = [] ∨
      ∃ e ∈ coreChains, ((create options).module m).chain.mixins = e.2.2.mixins := by
  rcases module_create options m with hr | ⟨e, he, rfl, hr⟩ <;> rw [hr]
  · exact .inl rfl
  · rw [coreRecord_chain]
    exact .inr ⟨e, he, rfl⟩

theorem rooted_create (options : Options) : (create options).Rooted where
  core := isClass_create options
  root := by
    have h : ((create {}).module Core.basicObject).chain.parent = none := by decide
    exact h
  placed := placed_create options
  singletons m s h := by cases (blank_create options m).2.2.symm.trans h
  objects _ _ h := nomatch h
  registry n t r h := by
    rw [(blank_create options n).2.1] at h
    cases h

/-! ### Changes -/

/-- What a change has to respect: kinds and parents of what is no plain module stay, and what is
new is as it should be. -/
theorem Rooted.later (hu : u.Rooted) (hnext : u.nextId ≤ v.nextId)
    (hkind : ∀ m, (u.module m).kind ≠ .plain → (v.module m).kind = (u.module m).kind)
    (hplaced : ∀ m, (v.module m).kind = (u.module m).kind ∧
      (v.module m).chain.parent = (u.module m).chain.parent ∨ ¬u.knows m ∧ v.Placed m)
    (hsingletons : ∀ m s, (v.module m).singleton = some s →
      (u.module m).singleton = some s ∨ (v.module s).isClass = true)
    (hobjects : ∀ o r, v.objects.find? o = some r →
      (∃ r', u.objects.find? o = some r' ∧ r'.classes = r.classes) ∨
      (v.module r.cls).isClass = true ∧ ∀ s, r.singleton = some s → (v.module s).isClass = true)
    (hregistry : ∀ n t r, (v.module n).refinements.find? t = some r →
      (u.module n).refinements.find? t = some r ∨ (v.module r).kind = .refinement t n) :
    v.Rooted := by
  have hclass {m} (hm : (u.module m).isClass = true) : (v.module m).isClass = true :=
    (isClass_of_kind (hkind m (kind_ne_plain_of_isClass hm))).trans hm
  constructor
  · exact fun m hm => hclass (hu.core m hm)
  · -- the root class exists, so it is not what is new
    have hroot : (u.module Core.basicObject).isClass = true := hu.core _ (by decide)
    rcases hplaced Core.basicObject with h | h
    · exact h.2.trans hu.root
    · exact absurd ((hu.placed _).known (kind_ne_plain_of_isClass hroot)) h.1
  · intro m
    rcases hplaced m with ⟨hk, hp⟩ | h
    · have hm := hu.placed m
      refine ⟨fun h => ?_, fun h => ?_, fun h hne => ?_, fun t n h => ?_⟩
      · exact Nat.lt_of_lt_of_le (hm.known (hk ▸ h)) hnext
      · exact hp.trans (hm.plain (hk.symm.trans h))
      · obtain ⟨p, hq, hc⟩ := hm.cls ((isClass_of_kind hk).symm.trans h) hne
        exact ⟨p, hp.trans hq, hclass hc⟩
      · exact hp.trans (hm.refinement t n (hk.symm.trans h))
    · exact h.2
  · intro m s hs
    exact (hsingletons m s hs).elim (fun h => hclass (hu.singletons m s h)) id
  · intro o r hr
    rcases hobjects o r hr with ⟨r', hr', he⟩ | h
    · have hcls : r'.cls = r.cls := congrArg Prod.fst he
      have hsing : r'.singleton = r.singleton := congrArg Prod.snd he
      obtain ⟨hc, hs⟩ := hu.objects o r' hr'
      rw [← hcls, ← hsing]
      exact ⟨hclass hc, fun s h => hclass (hs s h)⟩
    · exact h
  · intro n t r hr
    rcases hregistry n t r hr with h | h
    · have hk := hu.registry n t r h
      exact (hkind r (by rw [hk]; exact nofun)).trans hk
    · exact h

theorem Retouches.rooted (h : Retouches touched u v) (hu : u.Rooted) : v.Rooted := by
  refine hu.later (Nat.le_of_eq h.nextId.symm) (fun m _ => (h.modules m).kind)
    (fun m => .inl ⟨(h.modules m).kind, by rw [(h.modules m).chain]⟩) (fun m s hs => .inl ?_)
    (fun o r hr => .inl ?_) fun n t r hr => .inl ?_
  · rwa [(h.modules m).singleton] at hs
  · have hmap := h.objects o
    rw [hr] at hmap
    exact Option.map_eq_some_iff.1 hmap.symm
  · rwa [(h.modules n).refinements] at hr

theorem Rechains.rooted {c : Chain} (h : Rechains u v m c) (hu : u.Rooted)
    (hp : c.parent = (u.module m).chain.parent) : v.Rooted := by
  refine hu.later (Nat.le_of_eq h.nextId.symm) (fun k _ => h.kind k)
    (fun k => .inl ⟨h.kind k, h.parent hp k⟩) (fun k s hs => .inl ?_) (fun o r hr => .inl ?_)
    fun n t r hr => .inl ?_
  · rwa [(h.tables k).2.2] at hs
  · exact ⟨r, by rwa [h.objects] at hr, rfl⟩
  · rwa [(h.tables n).2.1] at hr

/-! ### Births -/

section Births

variable {r : Module} {noted : Module → Module} (h : Bears u v r n noted)
include h

variable (hnoted : ∀ x : Module, (noted x).kind = x.kind ∧ (noted x).chain = x.chain)
include hnoted

theorem Bears.kept {k : ModuleId} (hk : k ≠ ⟨u.nextId⟩) :
    (v.module k).kind = (u.module k).kind ∧ (v.module k).chain = (u.module k).chain := by
  rw [h.others k hk]
  split
  · exact hnoted _
  · exact ⟨rfl, rfl⟩

variable (hu : u.Rooted)
include hu

theorem Bears.kind {k : ModuleId} (hk : (u.module k).kind ≠ .plain) :
    (v.module k).kind = (u.module k).kind := by
  refine (h.kept hnoted ?_).1
  rintro rfl
  exact Nat.lt_irrefl _ ((hu.placed _).known hk)

theorem Bears.isClass {k : ModuleId} (hk : (u.module k).isClass = true) :
    (v.module k).isClass = true :=
  (isClass_of_kind (h.kind hnoted hu (kind_ne_plain_of_isClass hk))).trans hk

/-- A new module is placed and refers to nothing yet, and its host notes what is so. -/
theorem Bears.rooted (hplaced : v.Placed ⟨u.nextId⟩)
    (hblank : r.singleton = none ∧ r.refinements = .empty)
    (hsingleton : ∀ x s, (noted x).singleton = some s →
      x.singleton = some s ∨ (v.module s).isClass = true)
    (hregistry : ∀ x t s, (noted x).refinements.find? t = some s →
      x.refinements.find? t = some s ∨ (v.module s).kind = .refinement t n)
    (hobjects : ∀ o x, v.objects.find? o = some x →
      (∃ x', u.objects.find? o = some x' ∧ x'.classes = x.classes) ∨
      (v.module x.cls).isClass = true ∧ ∀ s, x.singleton = some s → (v.module s).isClass = true) :
    v.Rooted := by
  refine hu.later (by rw [h.nextId]; exact Nat.le_succ _) (fun k => h.kind hnoted hu)
    (fun k => ?_) (fun k s hs => ?_) hobjects fun k t s hs => ?_
  · by_cases hk : k = ⟨u.nextId⟩
    · exact .inr ⟨hk ▸ Nat.lt_irrefl _, hk ▸ hplaced⟩
    · have he := h.kept hnoted hk
      exact .inl ⟨he.1, by rw [he.2]⟩
  · rcases h.read k with ⟨-, he⟩ | ⟨-, he⟩ | he <;> rw [he] at hs
    · cases hblank.1.symm.trans hs
    · exact hsingleton _ s hs
    · exact .inl hs
  · rcases h.read k with ⟨-, he⟩ | ⟨rfl, he⟩ | he <;> rw [he] at hs
    · rw [hblank.2] at hs
      cases hs
    · exact hregistry _ t s hs
    · exact .inl hs

end Births

theorem placed_of_plain (hk : (v.module m).kind = .plain) (hp : (v.module m).chain.parent = none) :
    v.Placed m where
  known h := absurd hk h
  plain _ := hp
  cls h := absurd hk (kind_ne_plain_of_isClass h)
  refinement t n h := by cases hk.symm.trans h

theorem placed_of_class {p : ModuleId} {a : Option Attachment} (hm : v.knows m)
    (hk : (v.module m).kind = .cls a) (hp : (v.module m).chain.parent = some p)
    (hc : (v.module p).isClass = true) : v.Placed m where
  known _ := hm
  plain h := by cases hk.symm.trans h
  cls _ _ := ⟨p, hp, hc⟩
  refinement t n h := by cases hk.symm.trans h

theorem placed_of_refinement {t : ModuleId} (hm : v.knows m)
    (hk : (v.module m).kind = .refinement t n) (hp : (v.module m).chain.parent = some t) :
    v.Placed m where
  known _ := hm
  plain h := by cases hk.symm.trans h
  cls h := by
    rw [Module.isClass, hk] at h
    cases h
  refinement t' n' h := by
    cases hk.symm.trans h
    exact hp

theorem Newborn.placed {r : Module} (h : u.Newborn r) (hu : u.Rooted) (hm : v.knows m)
    (hr : v.module m = r)
    (hclass : ∀ k, (u.module k).isClass = true → (v.module k).isClass = true) : v.Placed m := by
  cases h with
  | plain => exact placed_of_plain (by rw [hr]) (by rw [hr])
  | top =>
    have hobject : (u.module Core.object).isClass = true := hu.core _ (by decide)
    exact placed_of_class hm (by rw [hr]) (by rw [hr]) (hclass _ hobject)
  | below hp => exact placed_of_class hm (by rw [hr]) (by rw [hr]) (hclass _ hp)
  | @copy s _ hs hroot hkind kind chain =>
    rcases hkind with hk | hk
    · refine placed_of_plain (by rw [hr, kind, hk]) ?_
      rw [hr, chain]
      exact (hu.placed s).plain hk
    · have hc : (u.module s).isClass = true := by rw [Module.isClass, hk]
      obtain ⟨p, hp, hpc⟩ := (hu.placed s).cls hc hroot
      exact placed_of_class hm (by rw [hr, kind, hk]) (by rw [hr, chain, hp]) (hclass p hpc)

/-- The class that a singleton class goes below is one. -/
theorem MetaParent.isClass {p : ModuleId} (h : u.MetaParent m p) (hu : u.Rooted) :
    (u.module p).isClass = true := by
  cases h with
  | super _ _ hs => exact hu.singletons _ _ hs
  | root => exact hu.core _ (by decide)
  | plain => exact hu.core _ (by decide)

/-! ### Steps and moves -/

theorem Rooted.step (hu : u.Rooted) (h : Step touched registers u v) : v.Rooted := by
  cases h with
  | retouched h => exact h.rooted hu
  | born hr h ho =>
    have hplaced := hr.placed hu h.knows_self h.self fun k => h.isClass (fun _ => ⟨rfl, rfl⟩) hu
    exact h.rooted (fun _ => ⟨rfl, rfl⟩) hu hplaced hr.blank (fun _ _ => .inl)
      (fun _ _ _ => .inl) fun o x hx => .inl ⟨x, ho ▸ hx, rfl⟩
  | singled hm hnone hp h ho =>
    have hself : (v.module ⟨u.nextId⟩).isClass = true := by rw [h.self]; rfl
    have hclass := h.isClass (fun _ => ⟨rfl, rfl⟩) hu (hp.isClass hu)
    have hplaced := placed_of_class h.knows_self (by rw [h.self]) (by rw [h.self]) hclass
    exact h.rooted (fun _ => ⟨rfl, rfl⟩) hu hplaced ⟨rfl, rfl⟩
      (fun _ s hs => .inr (Option.some.inj hs ▸ hself)) (fun _ _ _ => .inl)
      fun o x hx => .inl ⟨x, ho ▸ hx, rfl⟩
  | @singledObject o hc hnone h ho =>
    -- the object was made, so its class is one
    obtain ⟨r, hr⟩ := Option.isSome_iff_exists.1 hc
    have hobject : u.object o = r := by rw [object, hr]; rfl
    have hself : (v.module ⟨u.nextId⟩).isClass = true := by rw [h.self]; rfl
    have hclass := h.isClass (fun _ => ⟨rfl, rfl⟩) hu (k := (u.object o).cls)
      (hobject ▸ (hu.objects o r hr).1)
    have hplaced := placed_of_class h.knows_self (by rw [h.self]) (by rw [h.self]) hclass
    refine h.rooted (fun _ => ⟨rfl, rfl⟩) hu hplaced ⟨rfl, rfl⟩ (fun _ _ => .inl)
      (fun _ _ _ => .inl) fun q x hx => ?_
    rw [ho, Table.find?_insert] at hx
    split at hx
    · cases hx
      exact .inr ⟨hclass, fun s hs => Option.some.inj hs ▸ hself⟩
    · exact .inl ⟨x, hx, rfl⟩
  | @refined n t _ hn ht hc hnone h ho =>
    have hplaced := placed_of_refinement h.knows_self (by rw [h.self]) (by rw [h.self])
    refine h.rooted (fun _ => ⟨rfl, rfl⟩) hu hplaced ⟨rfl, rfl⟩ (fun _ _ => .inl)
      (fun x k s hs => ?_) fun o x hx => .inl ⟨x, ho ▸ hx, rfl⟩
    rw [Table.find?_insert] at hs
    split at hs
    · next he =>
      cases hs
      rw [h.self, he]
      exact .inr rfl
    · exact .inl hs
  | madeObject hc _ hn hs hm ho =>
    have hmodule (k) : v.module k = u.module k := by rw [module, hm, module]
    refine hu.later (by rw [hn]; exact Nat.le_succ _) (fun k _ => by rw [hmodule])
      (fun k => .inl (by rw [hmodule]; exact ⟨rfl, rfl⟩)) (fun k s hs => .inl (hmodule k ▸ hs))
      (fun o x hx => ?_) fun k t s hs => .inl (hmodule k ▸ hs)
    rw [ho, Table.find?_insert] at hx
    split at hx
    · cases hx
      refine .inr ⟨by rw [hmodule]; exact hc, fun s hs => ?_⟩
      cases hs
    · exact .inl ⟨x, hx, rfl⟩

theorem Evolves.rooted (h : Evolves touched registers u v) (hu : u.Rooted) : v.Rooted := by
  induction h with
  | refl => exact hu
  | tail _ hstep ih => exact ih.step hstep

theorem rooted_after (hw : u.WellFormed) (hu : u.Rooted) {mv : Move} (hk : mv.Known u)
    (hg : mv.Genuine u) : (u.after mv).Rooted := by
  by_cases hm : mv.Mixes
  · obtain ⟨m, c, h, hp⟩ := rechains_of_mixes u hm
    exact h.rooted hu hp
  · exact (evolves_after hw hk hg hm).rooted hu

theorem Arises.rooted (h : Arises u) : u.Rooted :=
  h.induction rooted_create fun _ _ hr hv => rooted_after hr.wellFormed hv

/-! ### The way up -/

/-- The chain of the first module continues into the second. -/
def Ascends (u : Universe) (m p : ModuleId) : Prop := (u.module m).chain.parent = some p

/-- From every class, parents lead to the root class. -/
theorem Rooted.ascends_root (hu : u.Rooted) (hw : u.WellFormed) {m : ModuleId}
    (hc : (u.module m).isClass = true) :
    Relation.ReflTransGen u.Ascends m Core.basicObject := by
  by_cases hm : m = Core.basicObject
  · exact hm ▸ .refl
  · obtain ⟨p, hp, hpc⟩ := (hu.placed m).cls hc hm
    have hknown := (hu.placed m).known (kind_ne_plain_of_isClass hc)
    have holder : p.num < m.num := hw.older m p hknown hp
    exact .head hp (hu.ascends_root hw hpc)
termination_by m.num

end ObjectModel.Universe
