import ObjectModel.Proofs.Descent
import ObjectModel.Proofs.Lineage
import ObjectModel.Proofs.Search

/-!
# The hierarchy of metaclasses

Singleton classes are made when they are asked for, each below that of the superclass, which is
made first.  Whatever the order of requests is, the singleton classes that there are inherit from
each other as the classes that they belong to do, and making one moves nothing else.

* `Paralleled`, `Arises.paralleled`: what singleton classes belong to, and what they go below;
* `Superclass`, `Paralleled.above`: superclass steps, and the singleton classes along them;
* `singletonClassUnmeasured`, `singletonClass_eq_unmeasured`: the recursion ends by itself;
* `SingletonLaw`, `ObjectSingletonLaw`: what a request for a singleton class gives and leaves;
* `metaclasses_parallel`: the laws hold in whatever arises, and values are instances of their
  classes.
-/

namespace ObjectModel.Universe

variable {u v w : Universe} {m n q s p : ModuleId} {o : ObjectId} {x : Value}
  {touched registers : ModuleId → Prop}

/-! ### What singleton classes go below -/

/-- Singleton classes belong to the module or object that refers to them.  That of a module goes
below the singleton class of the superclass, or below a core class, and that of an object below the
class of the object. -/
structure Paralleled (u : Universe) : Prop where
  known : ∀ m s, (u.module m).singleton = some s → u.knows m
  modules : ∀ m s, (u.module m).singleton = some s →
    (u.module s).kind = .cls (some (.module m)) ∧
      ∃ p, (u.module s).chain.parent = some p ∧ u.MetaParent m p
  objects : ∀ o s, (u.object o).singleton = some s →
    (u.module s).kind = .cls (some (.object o)) ∧
      (u.module s).chain.parent = some (u.object o).cls

theorem MetaParent.later (h : u.MetaParent m p) (hk : (v.module m).kind = (u.module m).kind)
    (hp : (v.module m).chain.parent = (u.module m).chain.parent)
    (hs : ∀ k s, (u.module k).singleton = some s → (v.module k).singleton = some s) :
    v.MetaParent m p := by
  have hclass := isClass_of_kind hk
  cases h with
  | super hm hq ht => exact .super (hclass.trans hm) (hp.trans hq) (hs _ _ ht)
  | root hm hq => exact .root (hclass.trans hm) (hp.trans hq)
  | plain hm => exact .plain (hclass.trans hm)

/-- What a change has to respect: kinds, parents and singleton classes stay, and new singleton
classes are as they should be. -/
theorem Paralleled.later (hu : u.Paralleled) (hr : u.Rooted) (hnext : u.nextId ≤ v.nextId)
    (hkept : ∀ k, u.knows k → (v.module k).kind = (u.module k).kind ∧
      (v.module k).chain.parent = (u.module k).chain.parent)
    (hgrown : ∀ k s, (u.module k).singleton = some s → (v.module k).singleton = some s)
    (hmodules : ∀ m s, (v.module m).singleton = some s → (u.module m).singleton = some s ∨
      v.knows m ∧ (v.module s).kind = .cls (some (.module m)) ∧
        ∃ p, (v.module s).chain.parent = some p ∧ v.MetaParent m p)
    (hobjects : ∀ o s, (v.object o).singleton = some s →
      (u.object o).singleton = some s ∧ (v.object o).cls = (u.object o).cls ∨
      (v.module s).kind = .cls (some (.object o)) ∧
        (v.module s).chain.parent = some (v.object o).cls) : v.Paralleled := by
  have hclass {s : ModuleId} {a : Option Attachment} (hk : (u.module s).kind = .cls a) :
      u.knows s := (hr.placed s).known (by rw [hk]; exact nofun)
  refine ⟨fun m s hs => ?_, fun m s hs => ?_, fun o s hs => ?_⟩
  · rcases hmodules m s hs with h | h
    · exact knows_mono hnext (hu.known m s h)
    · exact h.1
  · rcases hmodules m s hs with h | h
    · obtain ⟨hkind, p, hp, hmeta⟩ := hu.modules m s h
      obtain ⟨hks, hps⟩ := hkept s (hclass hkind)
      obtain ⟨hkm, hpm⟩ := hkept m (hu.known m s h)
      exact ⟨hks.trans hkind, p, hps.trans hp, hmeta.later hkm hpm hgrown⟩
    · exact h.2
  · rcases hobjects o s hs with ⟨h, hc⟩ | h
    · obtain ⟨hkind, hp⟩ := hu.objects o s h
      obtain ⟨hks, hps⟩ := hkept s (hclass hkind)
      exact ⟨hks.trans hkind, hc ▸ hps.trans hp⟩
    · exact h

theorem paralleled_create (options : Options) : (create options).Paralleled where
  known m s h := by cases (blank_create options m).2.2.symm.trans h
  modules m s h := by cases (blank_create options m).2.2.symm.trans h
  objects _ _ h := nomatch h

/-! ### Steps -/

/-- Where no object changes, nothing is new about their singleton classes. -/
theorem object_of_objects (ho : v.objects = u.objects) (hs : (v.object o).singleton = some s) :
    (u.object o).singleton = some s ∧ (v.object o).cls = (u.object o).cls := by
  have hsame : v.object o = u.object o := by rw [object, ho, object]
  rw [hsame] at hs ⊢
  exact ⟨hs, rfl⟩

/-- Where one object changes, nothing is new about those of the others. -/
theorem object_of_insert {i : ObjectId} {r : Object} (ho : v.objects = u.objects.insert o r)
    (hs : (v.object i).singleton = some s) : i = o ∧ v.object i = r ∨
      (u.object i).singleton = some s ∧ (v.object i).cls = (u.object i).cls := by
  have hread : v.object i = if o = i then r else u.object i := by
    rw [object, ho, Table.find?_insert]
    split <;> rfl
  rw [hread] at hs ⊢
  split at hs
  · next he => exact .inl ⟨he.symm, if_pos he⟩
  · next he =>
    rw [if_neg he]
    exact .inr ⟨hs, rfl⟩

theorem Retouches.classes (h : Retouches touched u v) (o : ObjectId) :
    (v.object o).classes = (u.object o).classes := by
  have hmap := h.objects o
  rw [object, object]
  cases hv : v.objects.find? o with
  | none =>
    rw [hv] at hmap
    rw [Option.map_eq_none_iff.1 hmap.symm]
  | some r =>
    rw [hv] at hmap
    obtain ⟨r', hr', he⟩ := Option.map_eq_some_iff.1 hmap.symm
    rw [hr']
    exact he.symm

theorem Retouches.paralleled (h : Retouches touched u v) (hu : u.Paralleled) (hr : u.Rooted) :
    v.Paralleled := by
  refine hu.later hr (Nat.le_of_eq h.nextId.symm)
    (fun k _ => ⟨(h.modules k).kind, by rw [(h.modules k).chain]⟩) (fun k s hs => ?_)
    (fun k s hs => .inl ?_) fun o s hs => .inl ?_
  · rw [(h.modules k).singleton, hs]
  · rwa [(h.modules k).singleton] at hs
  · have hsame := h.classes o
    exact ⟨(congrArg Prod.snd hsame).symm.trans hs, congrArg Prod.fst hsame⟩

theorem Rechains.paralleled {c : Chain} (h : Rechains u v m c) (hu : u.Paralleled)
    (hr : u.Rooted) (hp : c.parent = (u.module m).chain.parent) : v.Paralleled := by
  refine hu.later hr (Nat.le_of_eq h.nextId.symm) (fun k _ => ⟨h.kind k, h.parent hp k⟩)
    (fun k s hs => ?_) (fun k s hs => .inl ?_) fun o s hs => .inl (object_of_objects h.objects hs)
  · rw [(h.tables k).2.2, hs]
  · rwa [(h.tables k).2.2] at hs

section Births

variable {r : Module} {noted : Module → Module} (h : Bears u v r n noted)
include h

/-- A birth keeps what the modules that exist are, and adds to their singleton classes. -/
theorem Bears.paralleled (hu : u.Paralleled) (hr : u.Rooted)
    (hnoted : ∀ x : Module, (noted x).kind = x.kind ∧ (noted x).chain = x.chain)
    (hgrown : ∀ s, (u.module n).singleton = some s → (noted (u.module n)).singleton = some s)
    (hblank : r.singleton = none)
    (hmodule : ∀ s, (noted (u.module n)).singleton = some s → (u.module n).singleton = some s ∨
      v.knows n ∧ (v.module s).kind = .cls (some (.module n)) ∧
        ∃ p, (v.module s).chain.parent = some p ∧ v.MetaParent n p)
    (hobjects : ∀ o s, (v.object o).singleton = some s →
      (u.object o).singleton = some s ∧ (v.object o).cls = (u.object o).cls ∨
      (v.module s).kind = .cls (some (.object o)) ∧
        (v.module s).chain.parent = some (v.object o).cls) : v.Paralleled := by
  have hold {k : ModuleId} (hk : u.knows k) : k ≠ ⟨u.nextId⟩ := by
    rintro rfl
    exact Nat.lt_irrefl _ hk
  refine hu.later hr (by rw [h.nextId]; exact Nat.le_succ _) (fun k hk => ?_) (fun k s hs => ?_)
    (fun k s hs => ?_) hobjects
  · have he := h.kept hnoted (hold hk)
    exact ⟨he.1, by rw [he.2]⟩
  · rcases h.read k with ⟨rfl, -⟩ | ⟨rfl, he⟩ | he
    · exact absurd rfl (hold (hu.known _ s hs))
    · rw [he]
      exact hgrown s hs
    · rw [he, hs]
  · rcases h.read k with ⟨-, he⟩ | ⟨rfl, he⟩ | he <;> rw [he] at hs
    · cases hblank.symm.trans hs
    · exact hmodule s hs
    · exact .inl hs

/-- So does that of the singleton class of a module. -/
theorem Bears.paralleled_singled (hu : u.Paralleled) (hr : u.Rooted) (hn : u.knows n)
    (hnone : (u.module n).singleton = none) (hp : u.MetaParent n p) (ho : v.objects = u.objects)
    (hkind : r.kind = .cls (some (.module n))) (hparent : r.chain.parent = some p)
    (hblank : r.singleton = none) (hnoted : ∀ x : Module,
      noted x = { x with singleton := some ⟨u.nextId⟩ }) : v.Paralleled := by
  have hplain (x : Module) : (noted x).kind = x.kind ∧ (noted x).chain = x.chain := by
    rw [hnoted]
    exact ⟨rfl, rfl⟩
  have hne : n ≠ ⟨u.nextId⟩ := by
    rintro rfl
    exact Nat.lt_irrefl _ hn
  have hkept := h.kept hplain hne
  have hgrown (k s : ModuleId) (hs : (u.module k).singleton = some s) :
      (v.module k).singleton = some s := by
    rcases h.read k with ⟨rfl, -⟩ | ⟨rfl, -⟩ | he
    · exact absurd (hu.known _ s hs) (Nat.lt_irrefl _)
    · cases hnone.symm.trans hs
    · rw [he, hs]
  refine h.paralleled hu hr hplain (fun s hs => ?_) hblank (fun s hs => .inr ?_)
    fun _ _ hs => .inl (object_of_objects ho hs)
  · cases hnone.symm.trans hs
  · rw [hnoted] at hs
    cases hs
    rw [h.self]
    exact ⟨knows_mono (by rw [h.nextId]; exact Nat.le_succ _) hn, hkind, p, hparent,
      hp.later hkept.1 (by rw [hkept.2]) hgrown⟩

end Births

theorem Paralleled.step (hu : u.Paralleled) (hr : u.Rooted) (h : Step touched registers u v) :
    v.Paralleled := by
  cases h with
  | retouched h => exact h.paralleled hu hr
  | born hnew h ho =>
    exact h.paralleled hu hr (fun _ => ⟨rfl, rfl⟩) (fun _ => id) hnew.blank.1 (fun _ => .inl)
      fun _ _ hs => .inl (object_of_objects ho hs)
  | singled hm hnone hp h ho =>
    exact h.paralleled_singled hu hr hm hnone hp ho rfl rfl rfl fun _ => rfl
  | @singledObject o hc hnone h ho =>
    refine h.paralleled hu hr (fun _ => ⟨rfl, rfl⟩) (fun _ => id) rfl (fun _ => .inl)
      fun i s hs => ?_
    rcases object_of_insert ho hs with ⟨rfl, he⟩ | hold
    · rw [he] at hs ⊢
      cases hs
      rw [h.self]
      exact .inr ⟨rfl, rfl⟩
    · exact .inl hold
  | refined hreg hn ht hc hnone h ho =>
    exact h.paralleled hu hr (fun _ => ⟨rfl, rfl⟩) (fun _ => id) rfl (fun _ => .inl)
      fun _ _ hs => .inl (object_of_objects ho hs)
  | @madeObject c hc _ hn _ hm ho =>
    have hmodule (k) : v.module k = u.module k := by rw [module, hm, module]
    refine hu.later hr (by rw [hn]; exact Nat.le_succ _)
      (fun k _ => by rw [hmodule]; exact ⟨rfl, rfl⟩) (fun k s hs => by rw [hmodule, hs])
      (fun k s hs => .inl (hmodule k ▸ hs)) fun i s hs => ?_
    rcases object_of_insert ho hs with ⟨rfl, he⟩ | hold
    · rw [he] at hs
      cases hs
    · exact .inl hold

theorem Evolves.paralleled (h : Evolves touched registers u v) (hu : u.Paralleled)
    (hr : u.Rooted) : v.Paralleled := by
  induction h with
  | refl => exact hu
  | tail hsteps hstep ih => exact ih.step (Evolves.rooted hsteps hr) hstep

theorem paralleled_after (hw : u.WellFormed) (hu : u.Paralleled) (hr : u.Rooted) {mv : Move}
    (hk : mv.Known u) (hg : mv.Genuine u) : (u.after mv).Paralleled := by
  by_cases hm : mv.Mixes
  · obtain ⟨m, c, h, hp⟩ := rechains_of_mixes u hm
    exact h.paralleled hu hr hp
  · exact (evolves_after hw hk hg hm).paralleled hu hr

theorem Arises.paralleled (h : Arises u) : u.Paralleled := by
  refine (h.induction (motive := fun u => u.Rooted ∧ u.Paralleled)
    (fun options => ⟨rooted_create options, paralleled_create options⟩)
    fun v mv hv hvp hk hg => ?_).2
  exact ⟨rooted_after hv.wellFormed hvp.1 hk hg, paralleled_after hv.wellFormed hvp.2 hvp.1 hk hg⟩

/-! ### Superclass steps -/

/-- The second module is the superclass of the first. -/
def Superclass (u : Universe) (m q : ModuleId) : Prop := (u.module m).superclass? = some q

theorem superclass_iff : u.Superclass m q ↔
    (u.module m).isClass = true ∧ (u.module m).chain.parent = some q := by
  rw [Superclass, Module.superclass?]
  cases (u.module m).isClass <;> simp

/-- Kinds and parents decide about superclasses. -/
theorem superclass_congr (hk : (v.module m).kind = (u.module m).kind)
    (hp : (v.module m).chain.parent = (u.module m).chain.parent) :
    v.Superclass m q ↔ u.Superclass m q := by
  rw [superclass_iff, superclass_iff, isClass_of_kind hk, hp]

theorem Superclass.older (h : u.Superclass m q) (hw : u.WellFormed) (hm : u.knows m) :
    q.num < m.num :=
  hw.older m q hm (superclass_iff.1 h).2

/-- What is one step up is in the spine. -/
theorem Superclass.mem_spine (h : u.Superclass m q) (hw : u.WellFormed) (hm : u.knows m) :
    q ∈ u.spine m :=
  mem_spine_iff.2 (.inr ⟨q, (superclass_iff.1 h).2, h.older hw hm, self_mem_spine u q⟩)

namespace Paralleled

variable (hu : u.Paralleled)
include hu

theorem superclass_of_meta (hs : (u.module m).singleton = some s) :
    ∃ p, u.Superclass s p ∧ u.MetaParent m p := by
  obtain ⟨hk, p, hp, hmeta⟩ := hu.modules m s hs
  exact ⟨p, superclass_iff.2 ⟨by rw [Module.isClass, hk], hp⟩, hmeta⟩

/-- The singleton class of a class with a superclass goes below that of the superclass. -/
theorem super (hs : (u.module m).singleton = some s) (hq : u.Superclass m q) :
    ∃ t, (u.module q).singleton = some t ∧ u.Superclass s t := by
  obtain ⟨hc, hp⟩ := superclass_iff.1 hq
  obtain ⟨p, hsuper, hmeta⟩ := hu.superclass_of_meta hs
  cases hmeta with
  | super _ hq' ht =>
    cases hp.symm.trans hq'
    exact ⟨p, ht, hsuper⟩
  | root _ hnone => cases hp.symm.trans hnone
  | plain hno => cases hc.symm.trans hno

/-- The singleton class of a class without a superclass goes below the class of classes. -/
theorem root (hs : (u.module m).singleton = some s) (hc : (u.module m).isClass = true)
    (hp : (u.module m).chain.parent = none) : u.Superclass s Core.cls := by
  obtain ⟨p, hsuper, hmeta⟩ := hu.superclass_of_meta hs
  cases hmeta with
  | super _ hq => cases hp.symm.trans hq
  | root => exact hsuper
  | plain hno => cases hc.symm.trans hno

/-- That of any other module goes below the class of modules. -/
theorem plain (hs : (u.module m).singleton = some s) (hc : (u.module m).isClass = false) :
    u.Superclass s Core.module := by
  obtain ⟨p, hsuper, hmeta⟩ := hu.superclass_of_meta hs
  cases hmeta with
  | super hyes => cases hc.symm.trans hyes
  | root hyes => cases hc.symm.trans hyes
  | plain => exact hsuper

variable (hw : u.WellFormed) (hr : u.Rooted)
include hw hr

/-- Singleton classes lie in each other's spines as the classes that they belong to do. -/
theorem above (hs : (u.module m).singleton = some s)
    (h : Relation.ReflTransGen u.Superclass m q) :
    ∃ t, (u.module q).singleton = some t ∧ t ∈ u.spine s := by
  induction h with
  | refl => exact ⟨s, hs, self_mem_spine u s⟩
  | tail _ hstep ih =>
    obtain ⟨t, ht, hin⟩ := ih
    obtain ⟨t', ht', hsuper⟩ := hu.super ht hstep
    have hclass := hr.singletons _ t ht
    have hknown := (hr.placed t).known (kind_ne_plain_of_isClass hclass)
    exact ⟨t', ht', spine_trans hin (hsuper.mem_spine hw hknown)⟩

/-- The spine of the singleton class of a class leads to the class of classes. -/
theorem cls_mem_spine {m s : ModuleId} (hs : (u.module m).singleton = some s)
    (hc : (u.module m).isClass = true) : Core.cls ∈ u.spine s := by
  have hsk := (hr.placed s).known (kind_ne_plain_of_isClass (hr.singletons m s hs))
  by_cases hm : m = Core.basicObject
  · have hp : (u.module m).chain.parent = none := hm ▸ hr.root
    exact (hu.root hs hc hp).mem_spine hw hsk
  · obtain ⟨q, hq, hqc⟩ := (hr.placed m).cls hc hm
    have hstep : u.Superclass m q := superclass_iff.2 ⟨hc, hq⟩
    have holder : q.num < m.num := hstep.older hw (hu.known m s hs)
    obtain ⟨t, ht, hsuper⟩ := hu.super hs hstep
    exact spine_trans (hsuper.mem_spine hw hsk) (cls_mem_spine ht hqc)
termination_by m.num

end Paralleled

/-! ### Requests -/

/-- A request for a singleton class, with a recursion that no measure guards. -/
def singletonClassUnmeasured (m : ModuleId) : Change ModuleId := do
  let r := (← get).module m
  match r.singleton with
  | some s => return s
  | none =>
    let superclass ←
      if r.isClass then
        match r.superclass? with
        | some q => singletonClass q
        | none => pure Core.cls
      else pure Core.module
    let s ← allocate (.cls (some (.module m))) { parent := some superclass }
    changeModule m fun r => { r with singleton := some s }
    return s

/-- Superclasses are older, so the measure never stops the recursion. -/
theorem singletonClass_eq_unmeasured (hw : u.WellFormed) (hm : u.knows m) :
    singletonClass m u = singletonClassUnmeasured m u := by
  rw [singletonClass, singletonClassUnmeasured, Change.get_bind, Change.get_bind]
  cases (u.module m).singleton with
  | some s => rfl
  | none =>
    rw [Module.superclass?]
    cases (u.module m).isClass with
    | false => rfl
    | true =>
      cases hq : (u.module m).chain.parent with
      | none => rfl
      | some q =>
        simp only [if_pos (hw.older m q hm hq)]
        rfl

/-- What a request for the singleton class `s` of a module gives and leaves. -/
structure SingletonLaw (u : Universe) (m s : ModuleId) (v : Universe) : Prop where
  /-- The recursion ends by itself, as superclasses are older. -/
  unmeasured : singletonClass m u = singletonClassUnmeasured m u
  older : ∀ q, u.Superclass m q → q.num < m.num
  /-- Later requests give the same class, and change nothing. -/
  same : ∀ w, Leads v w → singletonClass m w = (s, w)
  /-- The superclass is the singleton class of the superclass, or a core class. -/
  super : ∀ q, u.Superclass m q → ∃ t, singletonClass q v = (t, v) ∧ v.Superclass s t
  root : m = Core.basicObject → v.Superclass s Core.cls
  plain : (u.module m).isClass = false → v.Superclass s Core.module
  /-- What existed inherits from the same modules. -/
  ancestors : ∀ k, u.knows k → v.ancestors k = u.ancestors k
  /-- Singleton classes inherit from each other as the classes do. -/
  above : ∀ q, Relation.ReflTransGen u.Superclass m q →
    ∃ t, singletonClass q v = (t, v) ∧ t ∈ v.ancestors s

/-- What a request for the singleton class `s` of an object gives and leaves. -/
structure ObjectSingletonLaw (u : Universe) (o : ObjectId) (s : ModuleId) (v : Universe) :
    Prop where
  same : ∀ w, Leads v w → objectSingletonClass o w = (s, w)
  super : v.Superclass s (u.object o).cls
  ancestors : ∀ k, u.knows k → v.ancestors k = u.ancestors k

theorem singletonLaw (ha : Arises u) (hm : u.knows m) :
    SingletonLaw u m (singletonClass m u).1 (singletonClass m u).2 := by
  have hw := ha.reachable.wellFormed
  have hd : Drifts u (singletonClass m u).2 := (drifts_singletonClass (.refl hw) hm).1
  have hav : Arises (singletonClass m u).2 := @Arises.after u ha (.singletonClass m) hm trivial
  have hs := singleton_singletonClass u m
  have hunmeasured := singletonClass_eq_unmeasured hw hm
  generalize hmade : singletonClass m u = made at hd hav hs hunmeasured ⊢
  obtain ⟨s, v⟩ := made
  dsimp only at hd hav hs ⊢
  have hpar := hav.paralleled
  have hkept {k : ModuleId} (hk : u.knows k) : ∀ q, u.Superclass k q → v.Superclass k q := by
    have hf := hd.follows.modules k hk
    exact fun q => (superclass_congr hf.kind hf.parent).2
  have hclass := isClass_of_kind (hd.follows.modules m hm).kind
  refine ⟨hmade.trans hunmeasured, fun q hq => hq.older hw hm, fun w hl => ?_, fun q hq => ?_,
    fun he => ?_, fun hc => ?_, fun k hk => ancestors_drift hd hw hk, fun q hq => ?_⟩
  · have hf := (hl.follows hd.wellFormed).2
    exact singletonClass_of_some ((hf.modules m (knows_mono hd.follows.nextId hm)).singleton s hs)
  · obtain ⟨t, ht, hsuper⟩ := hpar.super hs (hkept hm q hq)
    exact ⟨t, singletonClass_of_some ht, hsuper⟩
  · subst he
    exact hpar.root hs (hav.rooted.core _ (by decide)) hav.rooted.root
  · exact hpar.plain hs (hclass.trans hc)
  · -- the steps go along what existed, so they are steps afterwards too
    have hreach : Relation.ReflTransGen v.Superclass m q ∧ u.knows q := by
      induction hq with
      | refl => exact ⟨.refl, hm⟩
      | tail _ hstep ih =>
        obtain ⟨hpath, hk⟩ := ih
        exact ⟨hpath.tail (hkept hk _ hstep), (hw.modules _ hk).parent _ (superclass_iff.1 hstep).2⟩
    obtain ⟨t, ht, hin⟩ := hpar.above hav.reachable.wellFormed hav.rooted hs hreach.1
    exact ⟨t, singletonClass_of_some ht, mem_ancestors_of_spine hin⟩

/-- An object that was made has a number that was given out. -/
theorem knowsObject_of_contains (hw : u.WellFormed) (ho : u.objects.contains o = true) :
    u.knowsObject o := by
  refine Decidable.by_contra fun hno => ?_
  rw [Table.contains, hw.objectStrangers o hno] at ho
  cases ho

theorem objectSingletonClass_of_some (h : (u.object o).singleton = some s) :
    objectSingletonClass o u = (s, u) := by
  rw [objectSingletonClass, Change.get_bind, h]
  rfl

theorem singleton_objectSingletonClass (u : Universe) (o : ObjectId) :
    ((objectSingletonClass o u).2.object o).singleton = some (objectSingletonClass o u).1 := by
  rw [objectSingletonClass, Change.get_bind]
  cases hs : (u.object o).singleton with
  | some s => exact hs
  | none =>
    show ((setObject _ o _).object o).singleton = _
    rw [object_setObject, if_pos rfl]
    rfl

theorem objectSingletonLaw (ha : Arises u) (ho : u.objects.contains o = true) :
    ObjectSingletonLaw u o (objectSingletonClass o u).1 (objectSingletonClass o u).2 := by
  have hw := ha.reachable.wellFormed
  have hk := knowsObject_of_contains hw ho
  have hd : Drifts u (objectSingletonClass o u).2 := drifts_objectSingletonClass (.refl hw) hk
  have hav : Arises (objectSingletonClass o u).2 :=
    @Arises.after u ha (.objectSingletonClass o) hk ho
  have hs := singleton_objectSingletonClass u o
  generalize objectSingletonClass o u = made at hd hav hs ⊢
  obtain ⟨s, v⟩ := made
  dsimp only at hd hav hs ⊢
  refine ⟨fun w hl => ?_, ?_, fun k hk => ancestors_drift hd hw hk⟩
  · have hf := (hl.follows hd.wellFormed).2
    have hkv : v.knowsObject o := Nat.lt_of_lt_of_le hk hd.follows.nextId
    exact objectSingletonClass_of_some ((hf.objects o hkv).singleton s hs)
  · obtain ⟨hkind, hp⟩ := hav.paralleled.objects o s hs
    rw [(hd.follows.objects o hk).cls] at hp
    exact superclass_iff.2 ⟨by rw [Module.isClass, hkind], hp⟩

/-! ### Classes of values -/

/-- The class of a value is an ancestor of its metaclass. -/
theorem classOf_mem_ancestors (ha : Arises u) (hx : x.Known u) :
    u.classOf x ∈ (metaclassOf x u).2.ancestors (metaclassOf x u).1 := by
  cases x with
  | module m =>
    have hw := ha.reachable.wellFormed
    have hd : Drifts u (singletonClass m u).2 := (drifts_singletonClass (.refl hw) hx).1
    have hav : Arises (singletonClass m u).2 := @Arises.after u ha (.singletonClass m) hx trivial
    have hs := singleton_singletonClass u m
    have hclass := isClass_of_kind (hd.follows.modules m hx).kind
    show u.classOf (.module m) ∈ (singletonClass m u).2.ancestors (singletonClass m u).1
    generalize singletonClass m u = made at hav hs hclass ⊢
    obtain ⟨s, v⟩ := made
    dsimp only at hav hs hclass ⊢
    have hwv := hav.reachable.wellFormed
    refine mem_ancestors_of_spine ?_
    rw [classOf, ← hclass]
    cases hc : (v.module m).isClass with
    | true => exact hav.paralleled.cls_mem_spine hwv hav.rooted hs hc
    | false =>
      have hsk := (hav.rooted.placed s).known
        (kind_ne_plain_of_isClass (hav.rooted.singletons m s hs))
      exact (hav.paralleled.plain hs hc).mem_spine hwv hsk
  | object o =>
    show (u.object o).cls ∈ u.ancestors ((u.object o).singleton.getD (u.object o).cls)
    cases hs : (u.object o).singleton with
    | none => exact self_mem_ancestors u _
    | some s =>
      obtain ⟨hkind, hp⟩ := ha.paralleled.objects o s hs
      have hclass : (u.module s).isClass = true := by rw [Module.isClass, hkind]
      have hsuper : u.Superclass s (u.object o).cls := superclass_iff.2 ⟨hclass, hp⟩
      have hknown := (ha.rooted.placed s).known (kind_ne_plain_of_isClass hclass)
      exact mem_ancestors_of_spine (hsuper.mem_spine ha.reachable.wellFormed hknown)
  | nil | bool | int | symbol | string => exact self_mem_ancestors u _

/-- In whatever arises, singleton classes can be asked for in any order: each request ends and
gives the same class ever after, below the class that the hierarchy asks for, changes the ancestors
of no module that exists, and leaves singleton classes that inherit from each other as the classes
do.  Every value is an instance of its class. -/
theorem metaclasses_parallel (ha : Arises u) :
    (∀ m, u.knows m → SingletonLaw u m (singletonClass m u).1 (singletonClass m u).2) ∧
    (∀ o, u.objects.contains o = true →
      ObjectSingletonLaw u o (objectSingletonClass o u).1 (objectSingletonClass o u).2) ∧
    ∀ x : Value, x.Known u →
      u.classOf x ∈ (metaclassOf x u).2.ancestors (metaclassOf x u).1 ∧
        (isA x (u.classOf x) u).1 = true := by
  refine ⟨fun m => singletonLaw ha, fun o => objectSingletonLaw ha, fun x hx => ?_⟩
  have hmem := classOf_mem_ancestors ha hx
  exact ⟨hmem, List.contains_iff_mem.2 hmem⟩

/-- A class, a subclass of it, an instance of that, and the singleton class of the first one. -/
def stacking : List Move :=
  [.newClass none, .newClass (some ⟨12⟩), .newObject ⟨13⟩, .singletonClass ⟨12⟩]

/-- The universe that stacking leaves. -/
def stacked : Universe := (create {}).afterAll stacking

theorem arises_stacked : Arises stacked := by
  have hgenuine : (create {}).AllGenuine stacking := by
    refine ⟨nofun, trivial, ?_, trivial, (?_ : Universe.knows _ _), trivial,
      (?_ : Universe.knows _ _), trivial, trivial⟩
    · rintro m ⟨⟩
      decide +kernel
    all_goals decide +kernel
  exact ⟨{}, stacking, hgenuine, rfl⟩

/-- The singleton class of the subclass inherits from that of the class, which was made first, and
that of the instance goes below the subclass, which the instance is one of. -/
theorem metaclasses_parallel_stacked : Arises stacked ∧
    (∃ t, singletonClass ⟨12⟩ (singletonClass ⟨13⟩ stacked).2 =
        (t, (singletonClass ⟨13⟩ stacked).2) ∧
      t ∈ (singletonClass ⟨13⟩ stacked).2.ancestors (singletonClass ⟨13⟩ stacked).1) ∧
    (objectSingletonClass ⟨14⟩ stacked).2.Superclass (objectSingletonClass ⟨14⟩ stacked).1 ⟨13⟩ ∧
    (isA (.object ⟨14⟩) ⟨13⟩ stacked).1 = true := by
  obtain ⟨hmodules, hobjects, hvalues⟩ := metaclasses_parallel arises_stacked
  have hstep : stacked.Superclass ⟨13⟩ ⟨12⟩ :=
    (by decide +kernel : (stacked.module ⟨13⟩).superclass? = some ⟨12⟩)
  have hclass : (stacked.object ⟨14⟩).cls = ⟨13⟩ := by decide +kernel
  refine ⟨arises_stacked, (hmodules ⟨13⟩ (by decide +kernel)).above ⟨12⟩ (.single hstep), ?_, ?_⟩
  · exact hclass ▸ (hobjects ⟨14⟩ (by decide +kernel)).super
  · have hknown : (Value.object ⟨14⟩).Known stacked :=
      (by decide +kernel : stacked.knowsObject ⟨14⟩)
    have hisA := (hvalues (.object ⟨14⟩) hknown).2
    rwa [show stacked.classOf (.object ⟨14⟩) = ⟨13⟩ from hclass] at hisA

end ObjectModel.Universe
