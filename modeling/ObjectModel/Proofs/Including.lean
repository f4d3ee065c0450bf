import Mathlib.Data.List.Perm.Subperm
import ObjectModel.Proofs.Descent
import ObjectModel.Proofs.Fronting
import ObjectModel.Proofs.Weaving

/-!
# Including as merging

A module that includes another one takes in what it does not inherit yet.  Its linearization, and
that of everything below it, grows without a change of order, and including once more changes
nothing.

* `checkMixin_bind`, `mixable_of_checkMixin_ok`: operations that mix in go on where the checks pass;
* `Rechains.mixable`, `Rechains.ancestors_of_not_mem_spine`: mixing in leaves the module that is
  mixed in as it is;
* `sublist_eraseDups`, `sublist_ancestors_including`: how linearizations grow with a chain;
* `MergesIncluded`, `mergesIncluded_of_include`: what including does to linearizations;
* `mergesIncluded_sharedMixin`: a module that has some of what it includes.
-/

namespace ObjectModel

section Growing

variable {α : Type} [DecidableEq α] {l l' : List α}

/-- A list without repetitions has each of its sublists as the elements that are in it. -/
theorem filter_mem_of_sublist (h : l.Sublist l') (hl : l'.Nodup) : l'.filter (· ∈ l) = l := by
  have hsub : l.Sublist (l'.filter (· ∈ l)) := by
    have hself : l.filter (· ∈ l) = l := List.filter_eq_self.2 fun a ha => by simpa using ha
    have hfilter := h.filter (· ∈ l)
    rwa [hself] at hfilter
  have hlength : (l'.filter (· ∈ l)).length ≤ l.length := by
    refine (List.subperm_of_subset (hl.filter _) fun a ha => ?_).length_le
    simpa using (List.mem_filter.1 ha).2
  exact (hsub.eq_of_length_le hlength).symm

/-- A list that grows within a longer one takes no place away from what follows, if nothing that is
new follows.  Repetitions are left out. -/
theorem sublist_eraseDups (front back : List α) (h : l.Sublist l') (hl : l'.Nodup)
    (hnew : ∀ a ∈ l', a ∉ l → a ∉ back) :
    (front ++ l ++ back).eraseDups.Sublist (front ++ l' ++ back).eraseDups := by
  have hmem (a : α) : a ∈ front ++ l'.filter (· ∈ front ++ l ++ back) ↔ a ∈ front ++ l := by
    simp only [List.mem_append, List.mem_filter, decide_eq_true_eq]
    constructor
    · rintro (ha | ⟨ha, (ha' | ha') | hb⟩)
      · exact .inl ha
      · exact .inl ha'
      · exact .inr ha'
      · exact .inr (Decidable.by_contra fun hout => hnew a ha hout hb)
    · rintro (ha | ha)
      · exact .inl ha
      · exact .inr ⟨h.mem ha, .inl (.inr ha)⟩
  have hmiddle : (l'.filter (· ∈ front ++ l ++ back)).removeAll front = l.removeAll front := by
    conv_rhs => rw [← filter_mem_of_sublist h hl]
    rw [List.removeAll, List.removeAll, List.filter_filter, List.filter_filter]
    refine List.filter_congr fun a ha => ?_
    by_cases hf : a ∈ front
    · simp [hf]
    · have hold := hmem a
      simp only [List.mem_append, List.mem_filter, decide_eq_true_eq, hf, false_or, ha,
        true_and] at hold
      simp [hf, hold]
  have hkept : (front ++ l' ++ back).eraseDups.filter (· ∈ front ++ l ++ back) =
      (front ++ l ++ back).eraseDups := by
    have hsame (ms : List α) : ms.filter (· ∈ front ++ l ++ back) = ms ↔
        ∀ a ∈ ms, a ∈ front ++ l ++ back := by simp [List.filter_eq_self]
    have hfront := (hsame front).2 fun a ha => by simp [ha]
    have hback := (hsame back).2 fun a ha => by simp [ha]
    have hbehind : back.removeAll (front ++ l'.filter (· ∈ front ++ l ++ back)) =
        back.removeAll (front ++ l) :=
      List.filter_congr fun a _ => congrArg (!·) <| Bool.eq_iff_iff.2 <| by
        rw [List.elem_iff, List.elem_iff, hmem]
    rw [filter_eraseDups, List.filter_append, List.filter_append, hfront, hback,
      List.eraseDups_append, List.eraseDups_append, hmiddle, hbehind, List.eraseDups_append,
      List.eraseDups_append]
  exact hkept ▸ List.filter_sublist

end Growing

namespace Universe

variable {u v : Universe} {m n k x : ModuleId} {c : Chain}

/-! ### Success -/

theorem checkMixin_bind {α : Type} (h : u.Mixable m n) (e : Error) (f : Unit → Update α) :
    (checkMixin m n e >>= f) u = f () u := by
  obtain ⟨hm, hc, hi⟩ := h
  simp [Update.bind_apply, checkMixin_apply, hm, hc, hi]

theorem mixable_of_checkMixin_ok {α : Type} {e : Error} {f : Unit → Update α} {a : α}
    (h : (checkMixin m n e >>= f) u = .ok a v) : u.Mixable m n := by
  rw [Update.bind_apply, checkMixin_apply] at h
  cases hm : u.immutable? m with
  | some e' => simp [hm] at h
  | none =>
    cases hc : (u.module n).isClass with
    | true => simp [hm, hc] at h
    | false =>
      cases hi : u.includes n m with
      | true => simp [hm, hc, hi] at h
      | false => exact ⟨hm, hc, hi⟩

theorem after_of_run_ok {mv : Move} (h : mv.run u = .ok () v) : u.after mv = v := by
  rw [after, Update.final, h]

/-! ### The module mixed in -/

/-- The module that takes another one in is on no chain that the other one's walk goes along. -/
theorem not_mem_spine_of_mixable (h : u.Mixable m n) : m ∉ u.spine n := fun hm => by
  have hi : u.includes n m = true := includes_iff_spine.2 ⟨m, hm, self_mem_ownChain u m⟩
  rw [h.2.2] at hi
  cases hi

namespace Rechains

/-- Walks that do not come along the chain stay as they are. -/
theorem walk_of_not_mem_spine (h : Rechains u v m c) (hp : c.parent = (u.module m).chain.parent)
    (hx : m ∉ u.spine x) : v.walk x = u.walk x := by
  have hchains : (u.spine x).map v.ownChain = (u.spine x).map u.ownChain :=
    List.map_congr_left fun o ho => by
      rw [ownChain, h.chain_other fun he => hx (he ▸ ho), ownChain]
  rw [walk_eq_spine, walk_eq_spine, h.spine hp, List.flatMap_def, hchains, List.flatMap_def]

theorem ancestors_of_not_mem_spine (h : Rechains u v m c)
    (hp : c.parent = (u.module m).chain.parent) (hx : m ∉ u.spine x) :
    v.ancestors x = u.ancestors x := by
  rw [ancestors_eq_walk, h.walk_of_not_mem_spine hp hx, ancestors_eq_walk]

/-- What was mixed in may be mixed in again. -/
theorem mixable (h : Rechains u v m c) (hp : c.parent = (u.module m).chain.parent)
    (hmix : u.Mixable m n) : v.Mixable m n := by
  refine ⟨immutable?_of_not_fixed ?_, ?_, ?_⟩
  · have hfree := not_fixed_of_immutable? hmix.1
    rcases h.self with ⟨he, -⟩ | he <;> rw [he]
    · exact hfree
    · exact hfree
  · rw [isClass_of_kind (h.kind n)]
    exact hmix.2.1
  · rw [includes, h.ancestors_of_not_mem_spine hp (not_mem_spine_of_mixable hmix)]
    exact hmix.2.2

/-- A walk that comes along the chain goes along what it went along, and what the chain has now. -/
theorem walk_of_mem_spine (h : Rechains u v m c) (hp : c.parent = (u.module m).chain.parent)
    (hx : m ∈ u.spine x) : ∃ front behind, u.spine m = m :: behind ∧
      u.walk x = front ++ u.ownChain m ++ behind.flatMap u.ownChain ∧
      v.walk x = front ++ v.ownChain m ++ behind.flatMap u.ownChain := by
  obtain ⟨ks, ls, hspine⟩ := List.append_of_mem hx
  have hnodup := u.nodup_spine x
  rw [hspine] at hnodup
  have hother (os : List ModuleId) (hos : m ∉ os) :
      os.flatMap v.ownChain = os.flatMap u.ownChain := by
    rw [List.flatMap_def, List.flatMap_def]
    refine congrArg List.flatten (List.map_congr_left fun o ho => ?_)
    rw [ownChain, h.chain_other fun he => hos (he ▸ ho), ownChain]
  have hls : m ∉ ls := fun hm =>
    (List.nodup_cons.1 (List.nodup_middle.1 hnodup)).1 (List.mem_append_right ks hm)
  refine ⟨ks.flatMap u.ownChain, ls, spine_of_eq_append hspine, ?_, ?_⟩
  · rw [walk_eq_spine, hspine, List.flatMap_append, List.flatMap_cons, List.append_assoc]
  · rw [walk_eq_spine, h.spine hp, hspine, List.flatMap_append, List.flatMap_cons,
      hother ks (not_mem_of_nodup_middle hnodup), hother ls hls, List.append_assoc]

end Rechains

/-! ### Including -/

/-- What including one module into another does to linearizations. -/
structure MergesIncluded (u v : Universe) (m n : ModuleId) : Prop where
  /-- A module inherits from what it inherited from, and from what the included one does. -/
  merged : ∀ k, k ∈ v.ancestors m ↔ k ∈ u.ancestors m ∨ k ∈ u.ancestors n
  /-- No linearization loses a module, or changes the order of those it had. -/
  sublist : ∀ x, (u.ancestors x).Sublist (v.ancestors x)
  prepended : (v.module m).chain.prepended = (u.module m).chain.prepended
  /-- An included part that is in the order of what is included stays in that order. -/
  sameOrder : SameOrder (u.module m).chain.included (u.ancestors n) →
    SameOrder (v.module m).chain.included (u.ancestors n)
  /-- Including once more changes nothing at all. -/
  again : includeModule m n v = .ok () v

/-- What is inherited through the parent is left out of the chain. -/
theorem inherited_of_behind {behind : List ModuleId} (hspine : u.spine m = m :: behind)
    (hk : k ∈ behind.flatMap u.ownChain) :
    ((u.module m).chain.parent.any fun p => u.includes p k) = true := by
  obtain ⟨o, ho, hk⟩ := List.mem_flatMap.1 hk
  rw [spine] at hspine
  have hbehind := (List.cons.inj hspine).2
  cases hp : (u.module m).chain.parent with
  | none =>
    rw [hp] at hbehind
    rw [← hbehind] at ho
    cases ho
  | some p =>
    rw [hp] at hbehind
    dsimp only at hbehind
    split at hbehind
    · exact includes_iff_spine.2 ⟨o, hbehind ▸ ho, hk⟩
    · rw [← hbehind] at ho
      cases ho

/-- Linearizations grow with the chain that includes, in their order. -/
theorem sublist_ancestors_including (h : u.Mixable m n)
    (hv : ((u.after (.includeModule m n)).ownChain m).Nodup) (x : ModuleId) :
    (u.ancestors x).Sublist ((u.after (.includeModule m n)).ancestors x) := by
  have hr := rechains_include h
  by_cases hx : m ∈ u.spine x
  · obtain ⟨front, behind, hspine, hold, hnew⟩ := hr.walk_of_mem_spine rfl hx
    have hown : (u.after (.includeModule m n)).ownChain m =
        (u.module m).chain.prepended ++ m :: u.includedAfter m n := by
      rw [ownChain, hr.chain_self]
      rfl
    rw [ancestors_eq_walk, ancestors_eq_walk, hold, hnew]
    refine sublist_eraseDups front _ ?_ hv fun k hk hout hbehind => ?_
    · rw [hown]
      exact (((sublist_weaveIncluded _ _ _).cons_cons m).append_left _)
    · -- what is new in the chain is not inherited through the parent
      have hmixin : k ∈ (u.chainIncluding m n).mixins := by
        have hne : k ≠ m := fun he => hout (he ▸ self_mem_ownChain u m)
        rw [← hr.chain_self]
        exact (mem_ownChain.1 hk).resolve_left hne
      rcases mem_mixins_including.1 hmixin with hk | ⟨-, hi⟩
      · exact hout (mem_ownChain.2 (.inr hk))
      · rw [inherited_of_behind hspine hbehind] at hi
        cases hi
  · rw [hr.ancestors_of_not_mem_spine rfl hx]

/-- What was included is woven in already. -/
theorem includedAfter_again (hu : u.WellFormed) (hm : u.knows m) (h : u.Mixable m n) :
    (u.after (.includeModule m n)).includedAfter m n = u.includedAfter m n := by
  have hr := rechains_include h
  have hchain := hr.chain_self
  have hn := hr.ancestors_of_not_mem_spine rfl (not_mem_spine_of_mixable h)
  have hinherited (k : ModuleId) :
      (((u.module m).chain.parent.any fun p => (u.after (.includeModule m n)).includes p k)) =
        ((u.module m).chain.parent.any fun p => u.includes p k) := by
    cases hp : (u.module m).chain.parent with
    | none => rfl
    | some p =>
      have hpm : m ∉ u.spine p := fun hin => by
        have hlt := hu.older m p hm hp
        rcases le_of_mem_spine hin with rfl | hgt
        · exact Nat.lt_irrefl _ hlt
        · exact Nat.lt_asymm hlt hgt
      simp only [Option.any_some, includes, hr.ancestors_of_not_mem_spine rfl hpm]
  have hold : u.includedAfter m n = weaveIncluded
      (fun k => (u.module m).chain.parent.any fun p => u.includes p k) (u.module m).chain.included
      ((u.ancestors n).filter fun k => !(u.module m).chain.prepended.contains k) := rfl
  rw [includedAfter, hchain, hn]
  show weaveIncluded (fun k => (u.module m).chain.parent.any fun p =>
    (u.after (.includeModule m n)).includes p k) (u.includedAfter m n)
    ((u.ancestors n).filter fun k => !(u.module m).chain.prepended.contains k) = _
  simp only [hinherited]
  refine weaveIncluded_eq_self fun k hk => ?_
  cases hi : (u.module m).chain.parent.any fun p => u.includes p k with
  | true => exact .inr rfl
  | false => exact .inl (by rw [hold]; exact mem_weaveIncluded.2 (.inr ⟨hk, hi⟩))

/-- Including what is woven in already changes nothing. -/
theorem includeModule_of_settled (h : u.Mixable m n)
    (hs : u.includedAfter m n = (u.module m).chain.included) :
    includeModule m n u = .ok () u := by
  rw [includeModule, checkMixin_bind h, Update.get_bind]
  show (if _ then _ else _ : Update Unit) _ = _
  rw [if_neg (not_not_intro hs)]
  rfl

/-- The included part stays in the order of what is included, as nothing of it is prepended. -/
theorem sameOrder_includedAfter (hu : u.MixesOnce)
    (h : SameOrder (u.module m).chain.included (u.ancestors n)) :
    SameOrder (u.includedAfter m n) (u.ancestors n) := by
  have hapart {included : List ModuleId}
      (hnodup : ((u.module m).chain.prepended ++ included).Nodup) :
      ∀ k ∈ included, (!(u.module m).chain.prepended.contains k) = true := fun k hk => by
    have hout : k ∉ (u.module m).chain.prepended := fun hp =>
      (List.nodup_append.1 hnodup).2.2 k hp k hk rfl
    simpa using hout
  refine (sameOrder_filter (hapart (nodup_chainIncluding hu m n))).1 ?_
  exact sameOrder_weaveIncluded ((sameOrder_filter (hapart (hu m))).2 h)
    ((nodup_eraseDups _).filter _)

/-- Including one module into another merges linearizations. -/
theorem mergesIncluded_of_include (hu : Reachable u) (hm : u.knows m) (hn : u.knows n)
    (h : includeModule m n u = .ok () v) : MergesIncluded u v m n := by
  have hmix : u.Mixable m n := mixable_of_checkMixin_ok h
  obtain rfl : u.after (.includeModule m n) = v := after_of_run_ok h
  have hr := rechains_include hmix
  have hv : Reachable (u.after (.includeModule m n)) := hu.leads (.of_move ⟨hm, hn⟩)
  constructor
  · intro k
    have hk := includes_including hu.wellFormed hm hmix m k
    rw [and_iff_right (self_mem_spine u m)] at hk
    simpa [includes] using hk
  · exact sublist_ancestors_including hmix (nodup_ownChain hv.mixesOnce hv.apartFromSelf m)
  · rw [hr.chain_self]
    rfl
  · intro hsame
    rw [hr.chain_self]
    exact sameOrder_includedAfter hu.mixesOnce hsame
  · have hsettled := includedAfter_again hu.wellFormed hm hmix
    have hchain : (u.after (.includeModule m n)).includedAfter m n =
        ((u.after (.includeModule m n)).module m).chain.included := by
      rw [hsettled, hr.chain_self]
      rfl
    exact includeModule_of_settled (hr.mixable rfl hmix) hchain

/-- Two modules, one with two others included, the other one with the later of them. -/
def sharedMixin : List Move := [.newModule, .newModule, .newModule, .newModule,
  .includeModule ⟨13⟩ ⟨14⟩, .includeModule ⟨13⟩ ⟨15⟩, .includeModule ⟨12⟩ ⟨14⟩]

theorem reachable_sharedMixin : Reachable ((create {}).afterAll sharedMixin) := by
  refine (Reachable.create {}).afterAll _
    ⟨trivial, trivial, trivial, trivial, ⟨?_, ?_⟩, ⟨?_, ?_⟩, ⟨?_, ?_⟩, trivial⟩
  all_goals decide +kernel

theorem mergesIncluded_sharedMixin :
    MergesIncluded ((create {}).afterAll sharedMixin)
      ((create {}).afterAll (sharedMixin ++ [.includeModule ⟨12⟩ ⟨13⟩])) ⟨12⟩ ⟨13⟩ := by
  rw [afterAll_append]
  refine mergesIncluded_of_include reachable_sharedMixin (by decide +kernel) (by decide +kernel) ?_
  exact Update.eq_ok (by decide +kernel)

/-- What was there comes last, as it does behind the included module. -/
example : ((create {}).afterAll (sharedMixin ++ [.includeModule ⟨12⟩ ⟨13⟩])).ancestors ⟨12⟩ =
    [⟨12⟩, ⟨13⟩, ⟨15⟩, ⟨14⟩] := by
  decide +kernel

end Universe

end ObjectModel
