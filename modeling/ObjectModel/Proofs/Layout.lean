import Mathlib.Data.List.Nodup
import ObjectModel.Proofs.Lineage
import ObjectModel.Proofs.Through

/-!
# The layout of chains

How chains look in every universe that arises, whatever was mixed in, copied or refined before, and
what linearizations look like because of it.

* `nodup_weaveIncluded`, `nodup_weavePrepended`: weaving repeats nothing;
* `MixesOnce`: no module is mixed in twice;
* `ancestors_eq_prepended`: what stands before a module in its linearization;
* `LaidOut`, `laidOut_afterAll`: the layout, after every run of genuine moves.
-/

namespace ObjectModel

/-! ### Weaving without repetitions -/

section Weaving

variable {skip : ModuleId → Bool} {w : Weave} {m : ModuleId} {ms : List ModuleId}

namespace Weave

theorem perm_flush (w : Weave) : w.flush.modules.Perm (w.modules ++ w.waiting) := by
  have hsplit := List.take_append_drop w.position w.modules
  calc w.flush.modules
      = w.modules.take w.position ++ (w.waiting ++ w.modules.drop w.position) :=
        List.append_assoc _ _ _
    _ |>.Perm (w.modules.take w.position ++ (w.modules.drop w.position ++ w.waiting)) :=
        List.perm_append_comm.append_left _
    _ = w.modules ++ w.waiting := by rw [← List.append_assoc, hsplit]

/-- What a module added to an included part leaves waiting was waiting, or is that module. -/
theorem waiting_addIncluded {k : ModuleId} (hk : k ∈ (w.addIncluded skip m).waiting) :
    k ∈ w.waiting ∨ k = m := by
  unfold addIncluded at hk
  split at hk
  · cases hk
  · split at hk
    · exact .inl hk
    · exact (List.mem_append.1 hk).imp_right List.mem_singleton.1

theorem nodup_addIncluded (hw : (w.modules ++ w.waiting).Nodup) (hm : m ∉ w.waiting) :
    ((w.addIncluded skip m).modules ++ (w.addIncluded skip m).waiting).Nodup := by
  unfold addIncluded
  split
  · show (w.flush.modules ++ []).Nodup
    rw [List.append_nil]
    exact w.perm_flush.nodup_iff.2 hw
  · next hin =>
    split
    · exact hw
    · show (w.modules ++ (w.waiting ++ [m])).Nodup
      rw [← List.append_assoc, List.perm_append_comm.nodup_iff, List.singleton_append,
        List.nodup_cons, List.mem_append, not_or]
      exact ⟨⟨hin, hm⟩, hw⟩

theorem nodup_addPrepended (hw : w.modules.Nodup) : (w.addPrepended skip m).modules.Nodup := by
  unfold addPrepended
  split
  · exact hw
  · next hin =>
    split
    · exact hw
    · refine (perm_flush { w with waiting := [m] }).nodup_iff.2 ?_
      rw [List.perm_append_comm.nodup_iff, List.singleton_append, List.nodup_cons]
      exact ⟨hin, hw⟩

end Weave

/-- A module that waits is not met again, as the modules worked in are all different. -/
theorem nodup_foldl_addIncluded (hw : (w.modules ++ w.waiting).Nodup) (hms : ms.Nodup)
    (hwait : ∀ k ∈ ms, k ∉ w.waiting) :
    ((ms.foldl (Weave.addIncluded skip) w).modules ++
      (ms.foldl (Weave.addIncluded skip) w).waiting).Nodup := by
  induction ms generalizing w with
  | nil => exact hw
  | cons m ms ih =>
    obtain ⟨hm, hms⟩ := List.nodup_cons.1 hms
    refine ih (Weave.nodup_addIncluded hw (hwait m List.mem_cons_self)) hms fun k hk hin => ?_
    rcases Weave.waiting_addIncluded hin with h | rfl
    · exact hwait k (List.mem_cons_of_mem m hk) h
    · exact hm hk

theorem nodup_weaveIncluded {included : List ModuleId} (h : included.Nodup) (hms : ms.Nodup) :
    (weaveIncluded skip included ms).Nodup := by
  refine (Weave.perm_flush _).nodup_iff.2 (nodup_foldl_addIncluded ?_ hms fun _ _ hk => nomatch hk)
  rwa [List.append_nil]

theorem nodup_weavePrepended {prepended : List ModuleId} (h : prepended.Nodup) :
    (weavePrepended skip prepended ms).Nodup := by
  unfold weavePrepended
  suffices hfold : ∀ w : Weave, w.modules.Nodup →
      (ms.foldl (Weave.addPrepended skip) w).modules.Nodup from hfold _ h
  induction ms with
  | nil => exact fun _ hw => hw
  | cons m ms ih => exact fun w hw => ih _ (Weave.nodup_addPrepended hw)

end Weaving

namespace Universe

variable {u v : Universe} {m n : ModuleId}

/-! ### Mixed in once -/

/-- No module is mixed into a module twice. -/
def MixesOnce (u : Universe) : Prop := ∀ m, (u.module m).chain.mixins.Nodup

theorem mixesOnce_create (options : Options) : (create options).MixesOnce := by
  intro m
  have hcore : ∀ e ∈ coreChains, e.2.2.mixins.Nodup := by decide
  rcases mixins_create options m with hm | ⟨e, he, hm⟩ <;> rw [hm]
  · exact List.nodup_nil
  · exact hcore e he

theorem mixesOnce_drift (h : Drifts u v) (hu : u.MixesOnce) : v.MixesOnce := by
  intro m
  rcases h.mixins m with hm | ⟨s, -, hm⟩ <;> rw [hm]
  · exact List.nodup_nil
  · exact hu s

theorem mixesOnce_rechains {c : Chain} (h : Rechains u v m c) (hc : c.mixins.Nodup)
    (hu : u.MixesOnce) : v.MixesOnce := by
  intro k
  by_cases hk : k = m
  · rw [hk, h.chain_self]
    exact hc
  · rw [h.chain_other hk]
    exact hu k

/-- Including leaves out what is prepended already. -/
theorem nodup_chainIncluding (hu : u.MixesOnce) (m n : ModuleId) :
    (u.chainIncluding m n).mixins.Nodup := by
  obtain ⟨hp, hi, hapart⟩ := List.nodup_append.1 (hu m)
  refine List.nodup_append.2 ⟨hp, ?_, fun a ha b hb he => ?_⟩
  · exact nodup_weaveIncluded hi ((nodup_eraseDups _).filter _)
  · rcases mem_weaveIncluded.1 hb with hb | ⟨hb, -⟩
    · exact hapart a ha b hb he
    · have hout : b ∉ (u.module m).chain.prepended := by simpa using (List.mem_filter.1 hb).2
      exact hout (he ▸ ha)

/-- Prepending leaves out what is included already. -/
theorem nodup_chainPrepending (hu : u.MixesOnce) (m n : ModuleId) :
    (u.chainPrepending m n).mixins.Nodup := by
  obtain ⟨hp, hi, hapart⟩ := List.nodup_append.1 (hu m)
  refine List.nodup_append.2 ⟨nodup_weavePrepended hp, hi, fun a ha b hb he => ?_⟩
  rcases mem_weavePrepended.1 ha with ha | ⟨-, hout⟩
  · exact hapart a ha b hb he
  · have hout : a ∉ (u.module m).chain.included := by simpa using hout
    exact hout (he ▸ hb)

theorem mixesOnce_after (hw : u.WellFormed) (hu : u.MixesOnce) {mv : Move} (hk : mv.Known u) :
    (u.after mv).MixesOnce := by
  by_cases hm : mv.Mixes
  · cases mv with
    | includeModule m n =>
      by_cases h : u.Mixable m n
      · exact mixesOnce_rechains (rechains_include h) (nodup_chainIncluding hu m n) hu
      · rwa [(after_of_not_mixable h).1]
    | prependModule m n =>
      by_cases h : u.Mixable m n
      · exact mixesOnce_rechains (rechains_prepend h) (nodup_chainPrepending hu m n) hu
      · rwa [(after_of_not_mixable h).2]
    | _ => exact absurd hm id
  · exact mixesOnce_drift (drifts_after hw hk hm) hu

theorem Reachable.mixesOnce (h : Reachable u) : u.MixesOnce := by
  obtain ⟨options, ho⟩ := h
  refine (Leads.induction (motive := fun v => v.WellFormed ∧ v.MixesOnce)
    ⟨wellFormed_create options, mixesOnce_create options⟩ ?_ ho).2
  intro w mv ⟨hw, ha⟩ hk
  exact ⟨(after_follows hw hk).1, mixesOnce_after hw ha hk⟩

/-! ### Linearizations -/

/-- The own chain of a module repeats nothing. -/
theorem nodup_ownChain (hu : u.MixesOnce) (ha : u.ApartFromSelf) (m : ModuleId) :
    (u.ownChain m).Nodup := by
  refine List.perm_middle.nodup_iff.2 (List.nodup_cons.2 ⟨?_, hu m⟩)
  exact ha m

theorem eraseDups_of_nodup {α : Type} [BEq α] [LawfulBEq α] {l : List α} (h : l.Nodup) :
    l.eraseDups = l := by
  induction l with
  | nil => rfl
  | cons a l ih =>
    obtain ⟨ha, hl⟩ := List.nodup_cons.1 h
    have hkept : (l.filter fun b => !b == a) = l := by
      refine List.filter_eq_self.2 fun b hb => ?_
      have hne : b ≠ a := fun he => ha (he ▸ hb)
      simpa using hne
    rw [List.eraseDups_cons, hkept, ih hl]

/-- Only what is prepended to a module stands before it in its linearization. -/
theorem ancestors_eq_prepended (hu : u.MixesOnce) (ha : u.ApartFromSelf) (m : ModuleId) :
    ∃ rest, u.ancestors m = (u.module m).chain.prepended ++ m :: rest := by
  obtain ⟨behind, hspine⟩ : ∃ behind, u.spine m = m :: behind := ⟨_, by rw [spine]⟩
  have hwalk : u.walk m = ((u.module m).chain.prepended ++ [m]) ++
      ((u.module m).chain.included ++ behind.flatMap u.ownChain) := by
    rw [walk_eq_spine, hspine, List.flatMap_cons, ownChain, Chain.modules]
    simp
  have hfront : ((u.module m).chain.prepended ++ [m]).Nodup := by
    refine (nodup_ownChain hu ha m).sublist ?_
    exact List.sublist_append_left (_ ++ [m]) (u.module m).chain.included |>.trans
      (by simp [ownChain, Chain.modules])
  -- repetitions are dropped where they come last, so the front of the walk stays
  rw [ancestors_eq_walk, hwalk, List.eraseDups_append, eraseDups_of_nodup hfront]
  exact ⟨_, List.append_assoc _ _ _⟩

/-- The walk goes along the own chain and on along that of the parent; no parent is too young. -/
theorem links_eq_parent (hw : u.WellFormed) (m : ModuleId) :
    u.links m = (u.module m).chain.links m ++ (u.module m).chain.parent.elim [] u.links := by
  rw [links]
  congr 1
  cases hp : (u.module m).chain.parent with
  | none => rfl
  | some p =>
    by_cases hm : u.knows m
    · simp [if_pos (hw.older m p hm hp)]
    · rw [hw.module_stranger hm] at hp
      cases hp

/-! ### The layout -/

/-- How the chain of a module looks, what it continues into, and what the linearization is like. -/
structure LaidOut (u : Universe) (m : ModuleId) : Prop where
  /-- The module itself is in its chain, at one place. -/
  origin : ((u.module m).chain.links m).count (.module m) = 1
  /-- A marker is the first link, and modules follow it before the module itself. -/
  marker : ∀ i o, ((u.module m).chain.links m)[i]? = some (.marker o) → i = 0 ∧
    ∃ p rest, (u.module m).chain.links m = .marker m :: .module p :: rest ∧ .module m ∈ rest
  /-- The modules mixed in are different from each other, and from the module itself. -/
  mixins : (u.module m).chain.mixins.Nodup
  apart : m ∉ (u.module m).chain.mixins
  older : ∀ p, (u.module m).chain.parent = some p → p.num < m.num
  /-- Classes continue into classes, up to the root class. -/
  cls : (u.module m).isClass = true →
    (∀ p, (u.module m).chain.parent = some p → (u.module p).isClass = true) ∧
    ((u.module m).chain.parent = none ↔ m = Core.basicObject) ∧
    Relation.ReflTransGen u.Ascends m Core.basicObject
  plain : (u.module m).kind = .plain → (u.module m).chain.parent = none
  refinement : ∀ t n, (u.module m).kind = .refinement t n → (u.module m).chain.parent = some t
  /-- The walk goes along the whole way up. -/
  walk : u.links m = (u.module m).chain.links m ++ (u.module m).chain.parent.elim [] u.links
  /-- The linearization repeats nothing, and only what is prepended precedes the module itself. -/
  nodup : (u.ancestors m).Nodup
  before : ∃ rest, u.ancestors m = (u.module m).chain.prepended ++ m :: rest

theorem marker_notMem_map (o : ModuleId) (ms : List ModuleId) : Link.marker o ∉ ms.map .module := by
  intro h
  obtain ⟨k, -, hk⟩ := List.mem_map.1 h
  cases hk

theorem nodup_links (hu : u.MixesOnce) (ha : u.ApartFromSelf) (m : ModuleId) :
    ((u.module m).chain.links m).Nodup := by
  have hmodules : ((u.ownChain m).map Link.module).Nodup :=
    (nodup_ownChain hu ha m).map fun _ _ h => Link.module.inj h
  unfold Chain.links
  split
  · exact hmodules
  · exact List.nodup_cons.2 ⟨marker_notMem_map m _, hmodules⟩

/-- The only marker announces what is prepended. -/
theorem links_marker {m o : ModuleId} {c : Chain} {i : Nat}
    (h : (c.links m)[i]? = some (.marker o)) :
    i = 0 ∧ ∃ p rest, c.links m = .marker m :: .module p :: rest ∧ .module m ∈ rest := by
  obtain ⟨prepended, included, parent⟩ := c
  cases prepended with
  | nil => exact absurd (List.mem_of_getElem? h) (marker_notMem_map o (m :: included))
  | cons p ps =>
    have hlinks : ({ prepended := p :: ps, included, parent } : Chain).links m =
        .marker m :: .module p :: (ps ++ m :: included).map .module := rfl
    cases i with
    | zero =>
      refine ⟨rfl, p, _, hlinks, ?_⟩
      exact List.mem_map_of_mem (List.mem_append_right ps List.mem_cons_self)
    | succ i =>
      rw [hlinks, List.getElem?_cons_succ] at h
      exact absurd (List.mem_of_getElem? h) (marker_notMem_map o (p :: (ps ++ m :: included)))

/-- After every run of genuine moves, every module is laid out. -/
theorem laidOut_afterAll (options : Options) (mvs : List Move)
    (hg : (create options).AllGenuine mvs) (m : ModuleId) :
    ((create options).afterAll mvs).LaidOut m := by
  have harises : Arises ((create options).afterAll mvs) := ⟨options, mvs, hg, rfl⟩
  generalize (create options).afterAll mvs = u at harises
  have hreach := harises.reachable
  have hw := hreach.wellFormed
  have hr := harises.rooted
  have hplaced := hr.placed m
  refine ⟨?_, fun i o => links_marker, hreach.mixesOnce m, hreach.apartFromSelf m, fun p hp => ?_,
    fun hc => ⟨fun p hp => ?_, ⟨fun hp => ?_, fun hm => hm ▸ hr.root⟩, hr.ascends_root hw hc⟩,
    hplaced.plain, hplaced.refinement, links_eq_parent hw m, nodup_eraseDups _,
    ancestors_eq_prepended hreach.mixesOnce hreach.apartFromSelf m⟩
  · refine List.count_eq_one_of_mem (nodup_links hreach.mixesOnce hreach.apartFromSelf m) ?_
    exact List.mem_append_right _ (List.mem_map_of_mem (self_mem_ownChain u m))
  · by_cases hm : u.knows m
    · exact hw.older m p hm hp
    · rw [hw.module_stranger hm] at hp
      cases hp
  · by_cases hm : m = Core.basicObject
    · rw [hm, hr.root] at hp
      cases hp
    · obtain ⟨q, hq, hqc⟩ := hplaced.cls hc hm
      cases hp.symm.trans hq
      exact hqc
  · refine Decidable.by_contra fun hm => ?_
    obtain ⟨q, hq, -⟩ := hplaced.cls hc hm
    cases hp.symm.trans hq

/-- A copy of a class that a module was prepended to, with the singleton classes made before. -/
theorem laidOut_of_copied_class :
    ((create {}).afterAll [.newClass none, .newModule, .prependModule ⟨12⟩ ⟨13⟩,
      .singletonClass ⟨12⟩, .copyModule ⟨12⟩]).LaidOut ⟨17⟩ :=
  laidOut_afterAll {} [.newClass none, .newModule, .prependModule ⟨12⟩ ⟨13⟩,
    .singletonClass ⟨12⟩, .copyModule ⟨12⟩] ⟨fun _ h => (nomatch h), trivial, trivial, trivial,
    ⟨by decide +kernel, by decide +kernel⟩, trivial,
    (by decide +kernel : Universe.knows _ _), trivial,
    (by decide +kernel : Universe.knows _ _), trivial, trivial⟩ ⟨17⟩

/-- Its linearization starts with the prepended module. -/
example : ((create {}).afterAll [.newClass none, .newModule, .prependModule ⟨12⟩ ⟨13⟩,
    .singletonClass ⟨12⟩, .copyModule ⟨12⟩]).ancestors ⟨17⟩ =
    [⟨13⟩, ⟨17⟩, Core.object, Core.kernel, Core.basicObject] := by
  decide +kernel

end Universe

end ObjectModel
