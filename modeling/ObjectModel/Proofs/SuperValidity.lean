import ObjectModel.Proofs.SuperFromClass
import ObjectModel.Proofs.SuperOvertaking

/-!
# Validity of super lookups

The result of a super lookup notes the tables inspected behind the declaring module.  Nothing notes
a change of the chain that the declaring module itself stands in, although what is mixed in behind
it comes first in the search.

* `exists_included`: a new module right behind another one;
* `Overtaken.superTables_of_entered`: the part of a refinement with a new module in it;
* `OutsideParts`: the refinements in force do not lead to the declaring module;
* `CanMeet`, `canMeet_of_mem_superChains`: where a new module can take the place of what is found;
* `exists_stale_super`: how a super lookup goes stale unnoticed;
* `super_current`: when results can be relied on.
-/

namespace ObjectModel.Universe

variable {u v : Universe} {f g : Method} {passed : Bool} {a d k m o p r : ModuleId}
  {os : List ModuleId} {name : String}

/-! ### Right behind a module -/

/-- A new module with a method of any visibility can be included right behind any that may be
changed. -/
theorem exists_included (hu : u.WellFormed) (hd : u.knows d) (hfree : ¬(u.module d).Fixed)
    (name : String) (w : Visibility) : ∃ v p g, Leads u v ∧
      Joined u v d p ((u.module d).chain.prepended ++ [d]) (u.module d).chain.included name g ∧
      g.visibility = w ∧ g.undefined = false := by
  obtain ⟨u₂, p, g, hnew, hentry, -, hgv, hgu⟩ := exists_newcomer hu name w
  obtain ⟨hall, hspliced, hother, hmethods⟩ := spliced_include hu hd hfree hnew
  refine ⟨_, p, g, hall, ⟨hspliced, fun k hk => ?_, ?_, fun k hk hkd => ?_⟩, hgv, hgu⟩
  · by_cases hkd : k = d
    · rw [ownMethod, hkd, hmethods, ownMethod]
    · rw [ownMethod, hother k hkd, hnew.other k (hnew.ne hk), ownMethod]
  · rw [ownMethod, hother p (hnew.ne hd).symm, ← ownMethod]
    exact hentry
  · rw [hother k hkd, hnew.other k (hnew.ne hk)]

/-- Ancestors with a module more: those that the walk meets before it, and the module. -/
theorem Spliced.ancestors_eq {pre post ks ls : List ModuleId} (h : Spliced u v o p pre post)
    (hu : u.WellFormed) (hm : u.knows m) (hs : u.spine m = ks ++ o :: ls) :
    (∃ rest, u.ancestors m = (ks.flatMap u.ownChain ++ pre).eraseDups ++ rest) ∧
      ∃ rest, v.ancestors m = (ks.flatMap u.ownChain ++ pre).eraseDups ++ p :: rest := by
  have hknown (k : ModuleId) (hk : k ∈ ks ++ o :: ls) : u.knows k := knows_spine hu hm k (hs ▸ hk)
  have hks : ks.flatMap v.ownChain = ks.flatMap u.ownChain := by
    rw [List.flatMap_def, List.flatMap_def]
    refine congrArg List.flatten (List.map_congr_left fun k hk => ?_)
    refine h.ownChain k (hknown k (List.mem_append_left _ hk)) fun hko => ?_
    have hnodup := List.nodup_append.1 (hs ▸ nodup_spine u m)
    exact hnodup.2.2 k hk o List.mem_cons_self hko
  have hpA : p ∉ ks.flatMap u.ownChain ++ pre := by
    intro hp
    refine h.fresh ?_
    rcases List.mem_append.1 hp with hp | hp
    · obtain ⟨k, hk, hp⟩ := List.mem_flatMap.1 hp
      exact knows_ownChain hu (hknown k (List.mem_append_left _ hk)) hp
    · refine knows_ownChain hu (hknown o (List.mem_append_right _ List.mem_cons_self)) ?_
      rw [h.before]
      exact List.mem_append_left _ hp
  have hold : u.walk m =
      (ks.flatMap u.ownChain ++ pre) ++ (post ++ ls.flatMap u.ownChain) := by
    rw [walk_eq_spine, hs, List.flatMap_append, List.flatMap_cons, h.before]
    simp only [List.append_assoc]
  have hnew : v.walk m =
      (ks.flatMap u.ownChain ++ pre) ++ p :: (post ++ ls.flatMap v.ownChain) := by
    rw [walk_eq_spine, h.spine m hm, hs, List.flatMap_append, List.flatMap_cons, hks, h.spliced]
    simp only [List.append_assoc, List.cons_append]
  rw [ancestors_eq_walk, ancestors_eq_walk, hold, hnew]
  generalize ks.flatMap u.ownChain ++ pre = met at hpA ⊢
  rw [List.eraseDups_append, List.eraseDups_append, List.removeAll,
    List.removeAll, List.filter_cons_of_pos (by simpa using hpA), List.eraseDups_cons]
  exact ⟨⟨_, rfl⟩, _, rfl⟩

/-! ### Meeting a new module -/

/-- The search gives the entry of a module more that comes after the declaring one was passed and
before anything was found. -/
theorem Joined.lookupSuper_of_met {pre post ks ls : List ModuleId}
    (h : Joined u v o p pre post f.definedName g) (hu : u.WellFormed) (hm : u.knows m)
    (hf : f.Known u) (hl : Leads u v) (hg : g.undefined = false)
    (hs : u.spine m = ks ++ o :: ls)
    (hnone : (u.superMethod (u.superTarget f) false
      (ks.flatMap u.ownChain ++ pre).eraseDups).method = none)
    (hd : f.declaringModule ∈ ks.flatMap u.ownChain ++ pre) :
    (v.lookupSuper f m).method.map (·.visibility) = some g.visibility := by
  obtain ⟨⟨_, hold⟩, rest, hnew⟩ := h.spliced.ancestors_eq hu hm hs
  have hknown (k : ModuleId) (hk : k ∈ (ks.flatMap u.ownChain ++ pre).eraseDups) : u.knows k :=
    knows_ancestors hu hm (hold ▸ List.mem_append_left _ hk)
  have hfilter : (ks.flatMap u.ownChain ++ pre).eraseDups.filter (fun b => !b == p) =
      (ks.flatMap u.ownChain ++ pre).eraseDups :=
    List.filter_eq_self.2 fun b hb => by simpa using h.spliced.ne (hknown b hb)
  have hpassed : (u.superMethod (u.superTarget f) false
      (ks.flatMap u.ownChain ++ pre).eraseDups).passed = true := by
    rw [passed_superMethod hnone, Bool.false_or, List.contains_iff_mem]
    refine List.mem_flatMap.2 ⟨_, List.mem_eraseDups.2 hd, ?_⟩
    exact List.mem_append_right _ (List.mem_singleton.2 rfl)
  show ((v.superMethod (v.superTarget f) false (v.ancestors m)).method.map _) = _
  rw [superTarget_of_follows hf (hl.follows hu).2, hnew]
  exact h.superMethod_of_met hf hu hg (fun k hk _ => hknown k hk) (by rwa [hfilter])
    (by rwa [hfilter])

/-- The part of a refinement that entered the overtaken chain gives the new entry. -/
theorem Overtaken.superTables_of_entered (h : u.Overtaken v o p f.definedName g)
    (hu : u.WellFormed) (ha : u.knows a) (hr : u.knows r)
    (ho : o ∈ u.entered (u.superPartStop (u.superTarget f) a true r) r) :
    (v.superTables (u.superTarget f) true (v.refinementPart r a)).method = some g := by
  rw [superTables_method, behind_true, refinementPart, ancestors_eq_walk, takeWhile_eraseDups,
    findSome?_eraseDups]
  refine h.findSome?_part hu ha hr (fun b hb hn => ?_) ho
  rwa [superStop, behind_true, List.contains_iff_mem.2 hb, Bool.true_and] at hn

/-! ### Stale results -/

/-- The refinements in force for the ancestors do not lead to the declaring module. -/
def OutsideParts (u : Universe) (f : Method) (m : ModuleId) : Prop :=
  ∀ a ∈ u.ancestors m, ∀ r ∈ mergedRefinements (u.superTarget f) a,
    f.declaringModule ∉ u.refinementPart r a

instance (u : Universe) (f : Method) (m : ModuleId) : Decidable (u.OutsideParts f m) :=
  inferInstanceAs (Decidable (∀ a ∈ u.ancestors m, ∀ r ∈ mergedRefinements (u.superTarget f) a,
    f.declaringModule ∉ u.refinementPart r a))

/-- A chain behind the declaring module comes after that module itself, or after a chain that
holds it. -/
theorem append_of_mem_markBehind (h : (o, true) ∈ u.markBehind d passed os) :
    ∃ ks ls, os = ks ++ o :: ls ∧ (passed = true ∨ o = d ∨ ∃ k ∈ ks, d ∈ u.ownChain k) := by
  induction os generalizing passed with
  | nil => cases h
  | cons k os ih =>
    rcases List.mem_cons.1 h with he | h
    · obtain ⟨rfl, hb⟩ := Prod.mk.inj he
      refine ⟨[], os, rfl, ?_⟩
      rw [eq_comm, Bool.or_eq_true, beq_iff_eq] at hb
      exact hb.imp_right .inl
    · obtain ⟨ks, ls, rfl, hd⟩ := ih h
      refine ⟨k :: ks, ls, rfl, ?_⟩
      rw [Bool.or_eq_true, List.contains_iff_mem] at hd
      rcases hd with (hp | hk) | hd | ⟨b, hb, hd⟩
      · exact .inl hp
      · exact .inr (.inr ⟨k, List.mem_cons_self, hk⟩)
      · exact .inr (.inl hd)
      · exact .inr (.inr ⟨b, List.mem_cons_of_mem k hb, hd⟩)

/-- Up to the own place of the declaring module, nothing is searched. -/
theorem superMethod_of_own_place {ks : List ModuleId} (hp : u.OutsideParts f m)
    (hks : ∀ k ∈ ks, k ∈ u.ancestors m ∧ k ≠ f.declaringModule)
    (hd : f.declaringModule ∈ u.ancestors m) :
    (u.superMethod (u.superTarget f) false (ks ++ [f.declaringModule])).method = none := by
  refine superMethod_of_not_behind ?_
  have hbefore : f.declaringModule ∉ u.superOrder (u.superTarget f) ks ++
      (mergedRefinements (u.superTarget f) f.declaringModule).flatMap
        (u.refinementPart · f.declaringModule) := by
    intro h
    rcases List.mem_append.1 h with h | h
    · obtain ⟨k, hk, h⟩ := List.mem_flatMap.1 h
      rcases List.mem_append.1 h with h | h
      · obtain ⟨r, hr, h⟩ := List.mem_flatMap.1 h
        exact hp k (hks k hk).1 r hr h
      · exact (hks k hk).2 (List.mem_singleton.1 h).symm
    · obtain ⟨r, hr, h⟩ := List.mem_flatMap.1 h
      exact hp _ hd r hr h
  have horder : u.superOrder (u.superTarget f) (ks ++ [f.declaringModule]) =
      (u.superOrder (u.superTarget f) ks ++
        (mergedRefinements (u.superTarget f) f.declaringModule).flatMap
          (u.refinementPart · f.declaringModule)) ++ [f.declaringModule] := by
    simp only [superOrder, List.flatMap_append, List.flatMap_singleton, List.append_assoc]
  rw [horder, behind_append, show (u.superTarget f).declaring = f.declaringModule from rfl,
    behind_of_not_mem hbefore, List.contains_eq_mem, decide_eq_false hbefore]
  simp [behind]

/-- A later state where the search finds a method of a given visibility, with no change to the version
of any table but one. -/
def CanMeet (u : Universe) (f : Method) (m o : ModuleId) (w : Visibility) : Prop :=
  ∃ v, Leads u v ∧
    (∀ k, u.knows k → k ≠ o → (v.module k).methodsVersion = (u.module k).methodsVersion) ∧
    (v.lookupSuper f m).method.map (·.visibility) = some w

section Meeting

variable (hu : Reachable u) (hm : u.knows m) (hf : f.Known u) {ks ls : List ModuleId}
  (ho : u.knows o) (hfree : ¬(u.module o).Fixed)
include hu hm hf ho hfree

/-- A chain of the ancestors that comes after the one that holds the declaring module. -/
theorem canMeet_behind (hs : u.spine m = ks ++ o :: ls)
    (hquiet : ∀ k ∈ ks, (u.ownChain k).any (u.superEnds (u.superTarget f) false (u.ancestors m)) =
      false)
    (hd : f.declaringModule ∈ ks.flatMap u.ownChain) (w : Visibility) : u.CanMeet f m o w := by
  have hwf := hu.wellFormed
  obtain ⟨v, p, g, hl, hover, rfl, hg⟩ := exists_overtaken hwf ho hfree f.definedName w
  refine ⟨v, hl, hover.version, hover.joined.lookupSuper_of_met hwf hm hf hl hg hs ?_ ?_⟩
  · obtain ⟨rest, hrest⟩ := (hover.joined.spliced.ancestors_eq hwf hm hs).1
    refine superMethod_eq_none rest fun k hk => ?_
    rw [← hrest]
    rw [List.append_nil, List.mem_eraseDups] at hk
    obtain ⟨q, hq, hk⟩ := List.mem_flatMap.1 hk
    exact Bool.eq_false_iff.2 (List.any_eq_false.1 (hquiet q hq) k hk)
  · rwa [List.append_nil]

/-- The chain of the declaring module itself, where there is a place right behind it. -/
theorem canMeet_own_place (hs : u.spine m = ks ++ o :: ls) (hp : u.OutsideParts f m)
    (hod : o = f.declaringModule) (hd : f.declaringModule ∉ ks.flatMap u.ownChain)
    (w : Visibility) : u.CanMeet f m o w := by
  have hwf := hu.wellFormed
  obtain ⟨v, p, g, hl, hjoined, rfl, hg⟩ := exists_included hwf ho hfree f.definedName w
  rw [← hod] at hd
  have hfront : o ∉ ks.flatMap u.ownChain ++ (u.module o).chain.prepended := fun hmem =>
    (List.mem_append.1 hmem).elim hd fun hmem =>
      hu.apartFromSelf o (List.mem_append_left _ hmem)
  have hsplit : (ks.flatMap u.ownChain ++ ((u.module o).chain.prepended ++ [o])).eraseDups =
      (ks.flatMap u.ownChain ++ (u.module o).chain.prepended).eraseDups ++ [o] := by
    rw [← List.append_assoc, eraseDups_concat hfront]
  have hin (k : ModuleId)
      (hk : k ∈ ks.flatMap u.ownChain ++ ((u.module o).chain.prepended ++ [o])) :
      k ∈ u.ancestors m := by
    obtain ⟨rest, hrest⟩ := (hjoined.spliced.ancestors_eq hwf hm hs).1
    rw [hrest]
    exact List.mem_append_left _ (List.mem_eraseDups.2 hk)
  refine ⟨v, hl, hjoined.version, hjoined.lookupSuper_of_met hwf hm hf hl hg hs ?_ ?_⟩
  · rw [hsplit, hod]
    refine superMethod_of_own_place hp (fun k hk => ?_) (hod ▸ hin o (by simp))
    rw [← hod] at hk ⊢
    rw [List.mem_eraseDups] at hk
    refine ⟨hin k ?_, fun he => hfront (he ▸ hk)⟩
    rw [← List.append_assoc]
    exact List.mem_append_left _ hk
  · simp [hod]

/-- A chain in the part of a refinement that is searched. -/
theorem canMeet_in_part {x : ModuleId × Bool}
    (hvisit : x ∈ u.superVisits (u.superTarget f) false (u.ancestors m))
    (hpart : (r, true) ∈
      u.superParts (u.superTarget f) x.1 x.2 (mergedRefinements (u.superTarget f) x.1))
    (hentered : o ∈ u.entered (u.superPartStop (u.superTarget f) x.1 true r) r)
    (w : Visibility) : u.CanMeet f m o w := by
  have hwf := hu.wellFormed
  obtain ⟨v, p, g, hl, hover, rfl, hg⟩ := exists_overtaken hwf ho hfree f.definedName w
  have ha := knows_ancestors hwf hm (mem_of_mem_superVisits hvisit)
  have hrs (s : ModuleId) (hs : s ∈ mergedRefinements (u.superTarget f) x.1) : u.knows s :=
    knows_merged hf hs
  have hgive := Joined.superRefinements_of_part (u.superTarget f) hover.joined hwf
    (hover.joined.ne_declaring hf) hg ha hrs hpart
    (hover.superTables_of_entered hwf ha (hrs r (mem_of_mem_superParts hpart)) hentered)
  refine ⟨v, hl, hover.version, ?_⟩
  show ((v.superMethod (v.superTarget f) false (v.ancestors m)).method.map _) = _
  rw [superTarget_of_follows hf (hl.follows hwf).2]
  refine hover.joined.superMethod_of_visit hf hwf hg
    (fun k hk hne => hover.joined.knows_of_mem_ancestors hwf hm hk hne) ?_ hgive
  rw [hover.joined.ancestors_filter hwf hm]
  exact hvisit

end Meeting

/-- So in every chain behind the declaring module that the search goes along and that may be
changed. -/
theorem canMeet_of_mem_superChains (hu : Reachable u) (hm : u.knows m) (hf : f.Known u)
    {x : ModuleId × Bool} (hx : x ∈ u.superChains f m) (hb : x.2 = true)
    (hp : x.1 = f.declaringModule → u.OutsideParts f m) (hfree : ¬(u.module x.1).Fixed)
    (w : Visibility) : u.CanMeet f m x.1 w := by
  have ho := knows_superChains hu.wellFormed hm hf hx
  obtain ⟨o, b⟩ := x
  obtain rfl : b = true := hb
  rcases List.mem_append.1 hx with hx | hx
  · -- along the ancestors themselves
    obtain ⟨ks, ls, hentered, hbehind⟩ := append_of_mem_markBehind hx
    obtain ⟨ls', hs, hquiet⟩ := append_of_through_eq hentered
    by_cases hd : f.declaringModule ∈ ks.flatMap u.ownChain
    · exact canMeet_behind hu hm hf ho hfree hs hquiet hd w
    · have hod : o = f.declaringModule := by
        rcases hbehind with hb | hb | ⟨k, hk, hb⟩
        · cases hb
        · exact hb
        · exact absurd (List.mem_flatMap.2 ⟨k, hk, hb⟩) hd
      exact canMeet_own_place hu hm hf ho hfree hs (hp hod) hod hd w
  · -- along the part of a refinement
    obtain ⟨x, hvisit, hx⟩ := List.mem_flatMap.1 hx
    obtain ⟨y, hpart, hx⟩ := List.mem_flatMap.1 hx
    obtain ⟨o', ho', he⟩ := List.mem_map.1 hx
    obtain ⟨rfl, hy⟩ := Prod.mk.inj he
    obtain ⟨r, b⟩ := y
    obtain rfl : b = true := hy
    exact canMeet_in_part hu hm hf ho hfree hvisit hpart ho' w

/-- Where such a chain is not guarded, the result can become stale while its assumptions hold. -/
theorem exists_stale_super (hu : Reachable u) (hm : u.knows m) (hf : f.Known u)
    {x : ModuleId × Bool} (hx : x ∈ u.superChains f m) (hb : x.2 = true)
    (hp : x.1 = f.declaringModule → u.OutsideParts f m)
    (hx' : ¬(x.1 ∈ (u.lookupSuper f m).tables ∨ (u.module x.1).Fixed)) :
    ∃ v, Leads u v ∧ v.isValidMethod (u.lookupSuper f m) = true ∧
      (v.lookupSuper f m).method ≠ (u.lookupSuper f m).method := by
  rw [not_or] at hx'
  obtain ⟨w, hw⟩ := exists_other_visibility (u.lookupSuper f m).method
  obtain ⟨v, hl, hversion, hv⟩ := canMeet_of_mem_superChains hu hm hf hx hb hp hx'.2 w
  refine ⟨v, hl, isValidMethod_lookupSuper.2 fun k hk => ?_, fun heq => hw ?_⟩
  · exact hversion k (knows_superTables hu.wellFormed hm hf hk) fun hkx => hx'.1 (hkx ▸ hk)
  · rw [← heq, hv]

/-! ### Results -/

theorem FromClass.outsideParts (h : u.FromClass f m) : u.OutsideParts f m := by
  intro a _ r hr
  rw [mergedRefinements_eq_nil h.context h.active] at hr
  cases hr

/-- The result of a super lookup can be relied on, as long as its assumptions hold, if the tables of
all modules whose own chains it went along were inspected or these modules are fixed.  From a class
it is enough that this is so of the chains behind the class, and it is needed.  In general it is
needed of the chains behind the declaring module, but for the chain of that module itself where a
refinement in force leads there too. -/
theorem super_current (hu : Reachable u) (hm : u.knows m) (hf : f.Known u) :
    (u.SuperGuarded f m → u.SuperCurrent f m) ∧
    (u.FromClass f m → (u.SuperCurrent f m ↔ u.BehindGuarded f m)) ∧
    (u.SuperCurrent f m → ∀ x ∈ u.superChains f m, x.2 = true →
      (x.1 = f.declaringModule → u.OutsideParts f m) →
      x.1 ∈ (u.lookupSuper f m).tables ∨ (u.module x.1).Fixed) := by
  have hneeded (h : u.SuperCurrent f m) (x : ModuleId × Bool) (hx : x ∈ u.superChains f m)
      (hb : x.2 = true) (hp : x.1 = f.declaringModule → u.OutsideParts f m) :
      x.1 ∈ (u.lookupSuper f m).tables ∨ (u.module x.1).Fixed := by
    refine Decidable.by_contra fun hx' => ?_
    obtain ⟨v, hl, hv, hne⟩ := exists_stale_super hu hm hf hx hb hp hx'
    exact hne (h v hl hv)
  refine ⟨fun hg v hl hv => ?_, fun hc => ⟨fun h x hx hb => ?_, fun hg v hl hv => ?_⟩, hneeded⟩
  · exact lookupSuper_of_valid hu.wellFormed hm hf (hl.follows hu.wellFormed).2 hg hv
  · exact hneeded h x hx hb fun _ => hc.outsideParts
  · exact lookupSuper_of_fromClass hu hm hf hl hc hg hv

/-- A class, a subclass and a subclass of that; the first two have a method, and a module has it
too. -/
def overriding : Universe :=
  (create {}).afterAll [.newClass (some Core.object), .newClass (some ⟨12⟩), .newClass (some ⟨13⟩),
    .newModule, .addMethod ⟨12⟩ (.ofReader "f" "@a" ⟨12⟩ .pub),
    .addMethod ⟨13⟩ (.ofReader "f" "@b" ⟨13⟩ .pub), .addMethod ⟨15⟩ (.ofReader "f" "@c" ⟨15⟩ .pub)]

theorem reachable_overriding : Reachable overriding := by
  refine (Reachable.create {}).afterAll _ ⟨?_, ?_, ?_, trivial,
    ⟨?_, Method.known_ofReader ?_ _ _ _⟩, ⟨?_, Method.known_ofReader ?_ _ _ _⟩,
    ⟨?_, Method.known_ofReader ?_ _ _ _⟩, trivial⟩
  case refine_1 | refine_2 | refine_3 =>
    rintro m ⟨⟩
    decide +kernel
  all_goals decide +kernel

/-- The same with the class in the middle frozen. -/
def frozenOverriding : Universe := overriding.after (.freezeModule ⟨13⟩)

/-- From a frozen class, `super` can be relied on to reach its superclass, whatever is prepended to
a subclass. -/
theorem current_of_frozen_class : ∃ f, frozenOverriding.ownMethod ⟨13⟩ "f" = some f ∧
    frozenOverriding.FromClass f ⟨14⟩ ∧ frozenOverriding.BehindGuarded f ⟨14⟩ ∧
    ((frozenOverriding.after (.prependModule ⟨14⟩ ⟨15⟩)).lookupSuper f ⟨14⟩).method =
      (frozenOverriding.lookupSuper f ⟨14⟩).method := by
  have hu : Reachable frozenOverriding :=
    reachable_overriding.leads (.of_move (by decide +kernel : Universe.knows _ _))
  have hall := (by decide +kernel : (frozenOverriding.ownMethod ⟨13⟩ "f").map (fun f =>
    decide (frozenOverriding.FromClass f ⟨14⟩ ∧ frozenOverriding.BehindGuarded f ⟨14⟩ ∧
      (frozenOverriding.after (.prependModule ⟨14⟩ ⟨15⟩)).isValidMethod
        (frozenOverriding.lookupSuper f ⟨14⟩) = true)) = some true)
  obtain ⟨f, hf, hdata⟩ := Option.map_eq_some_iff.1 hall
  obtain ⟨hc, hg, hv⟩ := of_decide_eq_true hdata
  have hknown : f.Known frozenOverriding :=
    (hu.wellFormed.modules ⟨13⟩ (by decide +kernel)).methods "f" f hf
  have hcurrent := ((super_current hu (by decide +kernel) hknown).2.1 hc).2 hg
  exact ⟨f, hf, hc, hg, hcurrent _ (.of_move ⟨by decide +kernel, by decide +kernel⟩) hv⟩

/-- From a class that is not, a module that is included right behind the method is reached first,
and the result, which notes the table of the superclass only, counts as valid still. -/
theorem not_current_of_late_include : Reachable overriding ∧ overriding.knows ⟨13⟩ ∧
    Leads overriding (overriding.after (.includeModule ⟨13⟩ ⟨15⟩)) ∧
    ∃ f, overriding.ownMethod ⟨13⟩ "f" = some f ∧ f.Known overriding ∧
      (overriding.after (.includeModule ⟨13⟩ ⟨15⟩)).isValidMethod
        (overriding.lookupSuper f ⟨13⟩) = true ∧
      (overriding.lookupSuper f ⟨13⟩).method.map (·.declaringModule) = some ⟨12⟩ ∧
      ((overriding.after (.includeModule ⟨13⟩ ⟨15⟩)).lookupSuper f ⟨13⟩).method.map
        (·.declaringModule) = some ⟨15⟩ := by
  have hm : overriding.knows ⟨13⟩ := by decide +kernel
  have hall := (by decide +kernel : (overriding.ownMethod ⟨13⟩ "f").map (fun f =>
    ((overriding.after (.includeModule ⟨13⟩ ⟨15⟩)).isValidMethod (overriding.lookupSuper f ⟨13⟩),
      (overriding.lookupSuper f ⟨13⟩).method.map (·.declaringModule),
      ((overriding.after (.includeModule ⟨13⟩ ⟨15⟩)).lookupSuper f ⟨13⟩).method.map
        (·.declaringModule))) = some (true, some ⟨12⟩, some ⟨15⟩))
  obtain ⟨f, hf, hdata⟩ := Option.map_eq_some_iff.1 hall
  simp only [Prod.mk.injEq] at hdata
  refine ⟨reachable_overriding, hm, .of_move ⟨by decide +kernel, by decide +kernel⟩, f, hf, ?_,
    hdata⟩
  exact (reachable_overriding.wellFormed.modules _ hm).methods "f" f hf

end ObjectModel.Universe
