import ObjectModel.Proofs.Birth
import ObjectModel.Proofs.Cohesion

/-!
# Copies

A copy of a module has the chain of its source and the methods of its source, each declared by the
copy.  The rest of the universe stays as it is.

* `Method.RedeclaredBy`: a method as declared by another module;
* `Copied`, `copied_of_copyModule`: a universe with a copy, and what copying leaves;
* `replacing`, `ancestors_copy`: the copy descends from what its source descends from.
-/

namespace ObjectModel

/-- The second method is the first as declared by `k`. -/
def Method.RedeclaredBy (k : ModuleId) (f g : Method) : Prop :=
  g.toMethodContent = { f.toMethodContent with declaringModule := k }

theorem Method.redeclaredBy_withDeclaringModule (f : Method) (k : ModuleId) :
    f.RedeclaredBy k (f.withDeclaringModule k) := by
  unfold Method.RedeclaredBy Method.withDeclaringModule
  split
  · next h =>
    subst h
    rfl
  · rfl

/-- One module in the place of another. -/
def replacing (s k m : ModuleId) : ModuleId := if m = s then k else m

section Replacing

variable {s k m n : ModuleId} {ms : List ModuleId}

@[simp] theorem replacing_self (s k : ModuleId) : replacing s k s = k := if_pos rfl

theorem replacing_of_ne (h : m ≠ s) : replacing s k m = m := if_neg h

theorem map_replacing_of_not_mem (h : s ∉ ms) : ms.map (replacing s k) = ms := by
  refine (List.map_congr_left fun m hm => ?_).trans (List.map_id' ms)
  exact replacing_of_ne fun he => h (he ▸ hm)

/-- Distinct modules stay distinct, unless the new one was among them. -/
theorem replacing_inj (hm : m ≠ k) (hn : n ≠ k) (h : replacing s k m = replacing s k n) :
    m = n := by
  unfold replacing at h
  split at h
  · next hms =>
    split at h
    · next hns => rw [hms, hns]
    · exact absurd h.symm hn
  · split at h
    · exact absurd h hm
    · exact h

end Replacing

/-- Dropping repetitions does not depend on names. -/
theorem eraseDups_map {α β : Type} [BEq α] [LawfulBEq α] [BEq β] [LawfulBEq β] {f : α → β}
    (l : List α) (hf : ∀ a ∈ l, ∀ b ∈ l, f a = f b → a = b) :
    (l.map f).eraseDups = l.eraseDups.map f := by
  induction hn : l.length using Nat.strongRecOn generalizing l with
  | ind n ih =>
    subst hn
    cases l with
    | nil => rfl
    | cons a l =>
      have hkept : (l.map f).filter (fun b => !b == f a) = (l.filter fun b => !b == a).map f := by
        rw [List.filter_map]
        congr 1
        refine List.filter_congr fun b hb => ?_
        show (!f b == f a) = !b == a
        congr 1
        rw [Bool.eq_iff_iff, beq_iff_eq, beq_iff_eq]
        exact ⟨hf b (List.mem_cons_of_mem a hb) a List.mem_cons_self, fun he => he ▸ rfl⟩
      have hshort : (l.filter fun b => !b == a).length < (a :: l).length :=
        Nat.lt_succ_of_le (List.length_filter_le _ l)
      have hrest := ih _ hshort (l.filter fun b => !b == a) (fun b hb c hc =>
        hf b (List.mem_cons_of_mem a (List.mem_filter.1 hb).1) c
          (List.mem_cons_of_mem a (List.mem_filter.1 hc).1)) rfl
      rw [List.map_cons, List.eraseDups_cons, hkept, hrest, List.eraseDups_cons, List.map_cons]

namespace Universe

variable {u v : Universe} {s k m : ModuleId} {name : String}

/-- The second universe is the first with a new copy `k` of `s`. -/
structure Copied (u v : Universe) (s k : ModuleId) : Prop where
  known : u.knows s
  fresh : ¬u.knows k
  drifts : Drifts u v
  others : ∀ m, m ≠ k → v.module m = u.module m
  unrefined : (v.module s).isRefinement = false
  unattached : (v.module s).attached? = none
  kind : (v.module k).kind = (v.module s).kind
  chain : (v.module k).chain = (v.module s).chain
  methods : ∀ name, Option.Rel (Method.RedeclaredBy k) (v.ownMethod s name) (v.ownMethod k name)
  classVariables : (v.module k).classVariables = (v.module s).classVariables

/-! ### Copying -/

/-- Giving identities to methods changes nothing else about a table. -/
theorem find?_holdMethods (t : Table String Method) (u : Universe) (name : String) :
    Option.Rel (fun f g => g.toMethodContent = f.toMethodContent) (t.find? name)
      ((holdMethods t u).1.find? name) := by
  have hheld : (holdMethods t u).1.find? name = _ := Table.find?_mapValues _ t name
  rw [hheld]
  cases t.find? name with
  | none => exact .none
  | some f =>
    refine .some ?_
    dsimp only
    cases f.stamp <;> rfl

/-- The record of a copy. -/
theorem bears_copyRecord (u : Universe) (s : ModuleId) :
    ∃ r, Bears u (Update.final (copyRecord s (u.module s)) u) r ⟨u.nextId⟩ id ∧
      r.kind = (u.module s).kind ∧ r.chain = (u.module s).chain ∧
      r.classVariables = (u.module s).classVariables ∧
      ∀ name, Option.Rel (Method.RedeclaredBy ⟨u.nextId⟩) (u.ownMethod s name)
        (r.methods.find? name) := by
  have hb := bears_allocate (u.module s).kind (u.module s).chain u
  let t := (u.module s).methods.mapValues fun _ f => f.withDeclaringModule ⟨u.nextId⟩
  let held := holdMethods t (allocate (u.module s).kind (u.module s).chain u).2
  have hfilled := hb.fill (w := held.2) rfl rfl (Nat.le_add_right _ _) fun k => ({ k with
    methods := held.1
    classVariables := (u.module s).classVariables } : Module).updateConstants
      fun _ => (u.module s).constants
  refine ⟨_, ⟨hfilled.nextId, hfilled.nextSerial, hfilled.self, hfilled.others⟩, rfl, rfl,
    rfl, fun name => ?_⟩
  have hheld : Option.Rel _ (t.find? name) (held.1.find? name) := find?_holdMethods t _ name
  have hsource : t.find? name =
      (u.ownMethod s name).map fun f => f.withDeclaringModule ⟨u.nextId⟩ :=
    Table.find?_mapValues _ _ name
  show Option.Rel _ (u.ownMethod s name) (held.1.find? name)
  rw [hsource] at hheld
  generalize held.1.find? name = found at hheld
  cases hf : u.ownMethod s name with
  | none =>
    rw [hf] at hheld
    cases hheld
    exact .none
  | some f =>
    rw [hf] at hheld
    cases hheld with
    | some hg => exact .some (hg.trans (f.redeclaredBy_withDeclaringModule _))

/-- A copy is not made of a refinement or singleton class, and consists of its record. -/
theorem copyRecord_of_copyModule (h : copyModule s u = .ok k v) :
    (u.module s).isRefinement = false ∧ (u.module s).attached? = none ∧
      copyRecord s (u.module s) u = .ok k v := by
  unfold copyModule at h
  split at h
  · cases h
  · change (get >>= _ : Update ModuleId) u = _ at h
    rw [Update.get_bind] at h
    unfold Module.isRefinement Module.attached?
    cases hkind : (u.module s).kind with
    | plain =>
      unfold copyRecord
      simp only [hkind] at h ⊢
      exact ⟨trivial, trivial, h⟩
    | refinement t n =>
      simp only [hkind] at h
      cases h
    | cls a =>
      unfold copyRecord
      simp only [hkind] at h ⊢
      cases a with
      | some a => cases h
      | none => exact ⟨trivial, rfl, h⟩

/-- A copy that fails leaves everything as it is. -/
theorem after_copyModule_of_error {e : Error} (h : copyModule s u = .error e v) :
    u.after (.copyModule s) = u := by
  have hmade : ∃ k w, copyRecord s (u.module s) u = .ok k w := ⟨_, _, rfl⟩
  unfold copyRecord at hmade
  rw [after, Move.run, Update.final_discard, Update.final, h]
  unfold copyModule at h
  split at h
  · cases h
    rfl
  · change (get >>= _ : Update ModuleId) u = _ at h
    rw [Update.get_bind] at h
    obtain ⟨k, w, hmade⟩ := hmade
    cases hkind : (u.module s).kind with
    | plain =>
      simp only [hkind] at h hmade
      cases hmade.symm.trans h
    | refinement t n =>
      simp only [hkind] at h
      cases h
      rfl
    | cls a =>
      simp only [hkind] at h hmade
      cases a with
      | some a =>
        cases h
        rfl
      | none => cases hmade.symm.trans h

/-- What copying leaves, if it succeeds. -/
theorem copied_of_copyModule (hw : u.WellFormed) (hs : u.knows s)
    (h : copyModule s u = .ok k v) : Copied u v s k := by
  have hdrifts : Drifts u (u.after (.copyModule s)) :=
    @drifts_after u hw (.copyModule s) hs fun hmix => hmix
  have hv : u.after (.copyModule s) = v := by
    rw [after, Move.run, Update.final_discard, Update.final, h]
  rw [hv] at hdrifts
  obtain ⟨hkind, hattached, hrecord⟩ := copyRecord_of_copyModule h
  obtain ⟨r, hb, hrkind, hrchain, hrvariables, hmethods⟩ := bears_copyRecord u s
  obtain ⟨rfl, hfinal⟩ : ⟨u.nextId⟩ = k ∧ Update.final (copyRecord s (u.module s)) u = v := by
    rw [Update.final, hrecord]
    injection hrecord with hk hv
    exact ⟨hk, rfl⟩
  rw [hfinal] at hb
  have hother (m : ModuleId) (hm : m ≠ ⟨u.nextId⟩) : v.module m = u.module m :=
    (hb.others m hm).trans (ite_self _)
  have hsource := hother s fun he => Nat.lt_irrefl _ (he ▸ hs : u.knows ⟨u.nextId⟩)
  refine ⟨hs, Nat.lt_irrefl _, hdrifts, hother, ?_, ?_, ?_, ?_, fun name => ?_, ?_⟩
  · rw [hsource, hkind]
  · rw [hsource, hattached]
  · rw [hsource, hb.self, hrkind]
  · rw [hsource, hb.self, hrchain]
  · rw [ownMethod, hsource, ownMethod, hb.self]
    exact hmethods name
  · rw [hsource, hb.self, hrvariables]

/-! ### Descent -/

namespace Copied

variable (h : Copied u v s k)
include h

theorem source_ne : s ≠ k := fun he => h.fresh (he ▸ h.known)

theorem ne_of_knows (hm : u.knows m) : m ≠ k := fun he => h.fresh (he ▸ hm)

theorem ownMethod_other (hm : m ≠ k) (name : String) : v.ownMethod m name = u.ownMethod m name := by
  rw [ownMethod, h.others m hm, ownMethod]

theorem ownChain_copy (ha : Arises u) : v.ownChain k = (v.ownChain s).map (replacing s k) := by
  have hchain : (v.module s).chain = (u.module s).chain := h.drifts.chain s h.known
  have hapart := ha.reachable.apartFromSelf s
  rw [← hchain, Chain.mixins, List.mem_append, not_or] at hapart
  rw [ownChain, h.chain, ownChain, Chain.modules, Chain.modules, List.map_append, List.map_cons,
    replacing_self, map_replacing_of_not_mem hapart.1, map_replacing_of_not_mem hapart.2]

/-- The source is not met again behind its own chain. -/
theorem not_mem_behind (ha : Arises u) :
    s ∉ (v.spine s).tail.flatMap v.ownChain := by
  have hw := ha.reachable.wellFormed
  rw [spine_drift h.drifts hw h.known, List.mem_flatMap]
  rintro ⟨p, hp, hs⟩
  have hspine : u.spine s = s :: (u.spine s).tail := by rw [spine_eq_parent hw, List.tail_cons]
  have hmem : p ∈ u.spine s := List.mem_of_mem_tail hp
  rw [ownChain_drift h.drifts (knows_spine hw h.known p hmem)] at hs
  rcases mem_ownChain.1 hs with rfl | hmix
  · have hnodup := nodup_spine u s
    rw [hspine, List.nodup_cons] at hnodup
    exact hnodup.1 hp
  · cases hc : (u.module s).isClass with
    | true => exact ha.reachable.cohesive.apart s hc p hmem hmix
    | false =>
      have hplain : (u.module s).kind = .plain := by
        have hunrefined := h.unrefined
        rw [h.others s h.source_ne] at hunrefined
        cases hkind : (u.module s).kind with
        | plain => rfl
        | cls a => simp [Module.isClass, hkind] at hc
        | refinement t n => simp [Module.isRefinement, hkind] at hunrefined
      rw [spine_eq_parent hw, (ha.rooted.placed s).plain hplain] at hp
      cases hp

theorem walk_copy (ha : Arises u) : v.walk k = (v.walk s).map (replacing s k) := by
  have hw := ha.reachable.wellFormed
  have hspine : v.spine s = s :: (v.spine s).tail := by
    rw [spine_eq_parent h.drifts.wellFormed, List.tail_cons]
  have hcopied : v.spine k = k :: (v.spine s).tail := by
    rw [spine_drift h.drifts hw h.known]
    exact spine_copied h.drifts hw h.known (h.chain.trans (h.drifts.chain s h.known))
  rw [walk_eq_spine, walk_eq_spine, hcopied, hspine, List.tail_cons, List.flatMap_cons,
    List.flatMap_cons, List.map_append, h.ownChain_copy ha,
    map_replacing_of_not_mem (h.not_mem_behind ha)]

/-- The copy descends from what its source descends from. -/
theorem ancestors_copy (ha : Arises u) : v.ancestors k = (v.ancestors s).map (replacing s k) := by
  have hw := ha.reachable.wellFormed
  rw [ancestors_eq_walk, h.walk_copy ha, ancestors_eq_walk]
  have hne (m : ModuleId) (hm : m ∈ v.walk s) : m ≠ k := by
    rw [← List.mem_eraseDups, ← ancestors_eq_walk, ancestors_drift h.drifts hw h.known] at hm
    exact h.ne_of_knows (knows_ancestors hw h.known hm)
  exact eraseDups_map _ fun a hma b hmb => replacing_inj (hne a hma) (hne b hmb)

end Copied

end Universe

end ObjectModel
