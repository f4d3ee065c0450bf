import ObjectModel.Proofs.SuperGuarding

/-!
# Super lookups from classes

Where no refinements are in force, a super lookup searches the tables behind the declaring module.
If that is a class, and the search ends at a class or not at all, it stays the same whatever is
mixed in before the declaring class: chains keep what they hold, and mixing in moves no class to
the front.

* `Grows`, `Leads.grows`: what becomes of a chain;
* `superMethod_of_unrefined`, `behind_ancestors`: the search where no refinements are in force;
* `FromClass`: a super lookup in a class that ends at a class or finds nothing;
* `lookupSuper_of_fromClass`: it stays the same if the chains behind the class are guarded.
-/

namespace ObjectModel.Universe

variable {u v : Universe} {target : SuperTarget} {f : Method} {passed : Bool}
  {c d k m o : ModuleId} {ks ls ms os : List ModuleId}

/-! ### Growing chains -/

/-- A chain keeps what it holds, and takes in no class that its module inherits from by parents. -/
structure Grows (u v : Universe) (o : ModuleId) : Prop where
  keeps : ∀ k ∈ u.ownChain o, k ∈ v.ownChain o
  outside : ∀ c ∈ u.spine o, c ≠ o → (u.module c).isClass = true → c ∈ v.ownChain o →
    c ∈ u.ownChain o

theorem grows_of_chain (h : (v.module o).chain = (u.module o).chain) : Grows u v o := by
  have hsame : v.ownChain o = u.ownChain o := by rw [ownChain, h, ownChain]
  exact ⟨fun k hk => hsame ▸ hk, fun c _ _ _ hc => hsame ▸ hc⟩

theorem grows_rechains {chain : Chain} (h : Rechains u v m chain)
    (hkeeps : ∀ k ∈ (u.module m).chain.mixins, k ∈ chain.mixins)
    (houtside : ∀ c ∈ u.spine m, c ≠ m → (u.module c).isClass = true → c ∈ chain.mixins →
      c ∈ (u.module m).chain.mixins) (o : ModuleId) : Grows u v o := by
  by_cases hom : o = m
  · subst hom
    refine ⟨fun k hk => ?_, fun c hc hne hclass hin => ?_⟩
    · rw [mem_ownChain] at hk ⊢
      rw [h.chain_self]
      exact hk.imp_right (hkeeps k)
    · rw [mem_ownChain, h.chain_self] at hin
      exact mem_ownChain.2 (hin.imp_right (houtside c hc hne hclass))
  · exact grows_of_chain (h.chain_other hom)

theorem grows_after (hu : u.WellFormed) (ho : u.knows o) {mv : Move} (hk : mv.Known u) :
    Grows u (u.after mv) o := by
  by_cases hm : mv.Mixes
  · cases mv with
    | includeModule m n =>
      by_cases h : u.Mixable m n
      · refine grows_rechains (rechains_include h) (fun k hk => mem_mixins_including.2 (.inl hk))
          (fun c hc hne _ hin => (mem_mixins_including.1 hin).resolve_right fun hnew => ?_) o
        -- what a parent inherits from is skipped
        obtain he | ⟨p, hp, -, hcp⟩ := mem_spine_iff.1 hc
        · exact hne he
        · rw [hp, Option.any_some] at hnew
          exact absurd (includes_iff_spine.2 ⟨c, hcp, self_mem_ownChain u c⟩)
            (Bool.eq_false_iff.1 hnew.2)
      · rw [(after_of_not_mixable h).1]
        exact grows_of_chain rfl
    | prependModule m n =>
      by_cases h : u.Mixable m n
      · refine grows_rechains (rechains_prepend h) (fun k hk => mem_mixins_prepending.2 (.inl hk))
          (fun c _ _ hclass hin => (mem_mixins_prepending.1 hin).resolve_right fun hnew => ?_) o
        have hplain := List.all_eq_true.1 List.all_takeWhile c hnew
        rw [hclass] at hplain
        cases hplain
      · rw [(after_of_not_mixable h).2]
        exact grows_of_chain rfl
    | _ => exact absurd hm id
  · exact grows_of_chain ((drifts_after hu hk hm).chain o ho)

theorem Leads.grows (hl : Leads u v) (hu : u.WellFormed) (ho : u.knows o) : Grows u v o := by
  refine (Leads.induction (motive := fun v => v.WellFormed ∧ u.Follows v ∧ Grows u v o)
    ⟨hu, .refl u, grows_of_chain rfl⟩ (fun w mv ⟨hw, hf, hg⟩ hk => ?_) hl).2.2
  obtain ⟨hw', hf'⟩ := after_follows hw hk
  have hstep := grows_after hw (knows_mono hf.nextId ho) hk
  refine ⟨hw', hf.trans hf', fun k hk => hstep.keeps k (hg.keeps k hk),
    fun c hc hne hclass hin => hg.outside c hc hne hclass ?_⟩
  refine hstep.outside c ?_ hne ?_ hin
  · rwa [spine_of_follows hu hf ho]
  · rwa [isClass_of_kind (hf.modules c (knows_spine hu ho c hc)).kind]

/-! ### Searches without refinements -/

theorem mergedRefinements_eq_nil (hc : f.context.hasRefinements = false)
    (ha : f.active.any Context.hasRefinements = false) (a : ModuleId) :
    mergedRefinements (u.superTarget f) a = [] := by
  have hnone {c : Context} (hc : c.hasRefinements = false) : c.refinementsFor a = [] := by
    rw [Context.hasRefinements, Bool.not_eq_false', List.isEmpty_iff] at hc
    rw [Context.refinementsFor, Table.find?, hc]
    rfl
  have hactive : activeFor f.active a = [] := by
    cases hf : f.active with
    | none => rfl
    | some c =>
      rw [hf] at ha
      exact hnone ha
  show f.context.refinementsFor a ++ (activeFor f.active a).filter _ = []
  rw [hnone hc, hactive]
  rfl

section Unrefined

variable (hr : ∀ a, mergedRefinements target a = [])
include hr

/-- Then it is a search along tables. -/
theorem superMethod_of_unrefined (u : Universe) (passed : Bool) (ms : List ModuleId) :
    u.superMethod target passed ms = u.superTables target passed ms := by
  induction ms generalizing passed with
  | nil => rfl
  | cons m ms ih =>
    rw [superMethod, superTables, hr]
    simp only [superRefinements, ih]
    rfl

theorem mem_behind_of_superEnds (h : u.superEnds target passed ms k = true) :
    k ∈ behind passed target.declaring ms ∧ u.hasEntry target.name k = true := by
  induction ms generalizing passed with
  | nil => cases h
  | cons m ms ih =>
    rw [superEnds, hr] at h
    simp only [superRefinements, Option.isSome_none, Bool.false_or] at h
    cases passed with
    | true =>
      rw [behind_true]
      cases hm : u.hasEntry target.name m with
      | true =>
        rw [hm, Bool.and_self, if_pos rfl, beq_iff_eq] at h
        rw [h]
        exact ⟨List.mem_cons_self, hm⟩
      | false =>
        rw [hm, Bool.and_false, if_neg Bool.false_ne_true] at h
        have hin := ih h
        rw [Bool.true_or, behind_true] at hin
        exact hin.imp_left (List.mem_cons_of_mem m)
    | false =>
      rw [Bool.false_and, if_neg Bool.false_ne_true] at h
      exact ih h

end Unrefined

/-! ### What lies behind a class -/

/-- What a walk meets up to a module of its spine. -/
def front (u : Universe) (d : ModuleId) (ks : List ModuleId) : List ModuleId :=
  ks.flatMap u.ownChain ++ ((u.module d).chain.prepended ++ [d])

section Place

variable (hs : u.spine m = ks ++ d :: ls) (hd : d ∉ ks.flatMap u.ownChain)
  (hself : d ∉ (u.module d).chain.mixins)
include hs hd hself

/-- Behind a module at its own place lies what the walk meets there for the first time. -/
theorem behind_ancestors : behind false d (u.ancestors m) =
    (((d :: ls).flatMap u.ownChain).filter fun k => !(u.front d ks).contains k).eraseDups := by
  have hfront : d ∉ ks.flatMap u.ownChain ++ (u.module d).chain.prepended := fun h =>
    (List.mem_append.1 h).elim hd fun h => hself (List.mem_append_left _ h)
  have hdups : (u.front d ks).eraseDups =
      (ks.flatMap u.ownChain ++ (u.module d).chain.prepended).eraseDups ++ [d] := by
    rw [front, ← List.append_assoc, eraseDups_concat hfront]
  have hrear : (d :: ls).flatMap u.ownChain = ((u.module d).chain.prepended ++ [d]) ++
      ((u.module d).chain.included ++ ls.flatMap u.ownChain) := by
    rw [List.flatMap_cons, ownChain, Chain.modules]
    simp only [List.append_assoc, List.cons_append, List.nil_append]
  have hwalk : u.walk m = u.front d ks ++
      ((u.module d).chain.included ++ ls.flatMap u.ownChain) := by
    rw [walk_eq_spine, hs, List.flatMap_append, hrear, front]
    simp only [List.append_assoc]
  have hskip : ((u.module d).chain.prepended ++ [d]).filter
      (fun k => !(u.front d ks).contains k) = [] := by
    refine List.filter_eq_nil_iff.2 fun k hk => ?_
    have hin : k ∈ u.front d ks := List.mem_append_right _ hk
    rw [List.contains_iff_mem.2 hin]
    exact Bool.false_ne_true
  have hbefore : behind false d (u.front d ks).eraseDups = [] := by
    rw [hdups, behind_append, behind_of_not_mem (by rwa [List.mem_eraseDups]),
      List.contains_eq_mem, decide_eq_false (by rwa [List.mem_eraseDups])]
    simp [behind]
  have hpassed : (u.front d ks).eraseDups.contains d = true := by
    rw [hdups, List.contains_iff_mem]
    exact List.mem_append_right _ (List.mem_singleton.2 rfl)
  rw [ancestors_eq_walk, hwalk, List.eraseDups_append, behind_append, hbefore, hpassed,
    Bool.or_true, behind_true, List.nil_append, hrear, List.filter_append, hskip, List.nil_append]
  simp only [List.removeAll, List.elem_eq_contains]

end Place

/-- The entry of a module that the walk has not met up to the declaring one. -/
def entryBehind (u : Universe) (f : Method) (ks : List ModuleId) (k : ModuleId) : Option Method :=
  if k ∈ u.front f.declaringModule ks then none else u.ownMethod k f.definedName

theorem entryBehind_of_mem (h : k ∈ u.front f.declaringModule ks) :
    u.entryBehind f ks k = none := if_pos h

theorem entryBehind_of_not_mem (h : k ∉ u.front f.declaringModule ks) :
    u.entryBehind f ks k = u.ownMethod k f.definedName := if_neg h

section Lookup

variable (hr : ∀ a, mergedRefinements (u.superTarget f) a = [])
  (hs : u.spine m = ks ++ f.declaringModule :: ls)
  (hd : f.declaringModule ∉ ks.flatMap u.ownChain)
  (hself : f.declaringModule ∉ (u.module f.declaringModule).chain.mixins)
include hr hs hd hself

theorem lookupSuper_of_unrefined : (u.lookupSuper f m).method =
    ((f.declaringModule :: ls).flatMap u.ownChain).findSome? (u.entryBehind f ks) := by
  have hnone (k : ModuleId) (hk : (!(u.front f.declaringModule ks).contains k) = false) :
      u.entryBehind f ks k = none := by
    rw [Bool.not_eq_false', List.contains_iff_mem] at hk
    exact entryBehind_of_mem hk
  show (u.superMethod (u.superTarget f) false (u.ancestors m)).method = _
  rw [superMethod_of_unrefined hr, superTables_method]
  show (behind false f.declaringModule (u.ancestors m)).findSome? _ = _
  rw [behind_ancestors hs hd hself, findSome?_eraseDups, ← findSome?_filter_of_none hnone]
  refine findSome?_through rfl fun k hk => ?_
  have hin := (List.mem_filter.1 (mem_of_mem_through hk)).2
  rw [Bool.not_eq_true', ← Bool.not_eq_true, List.contains_iff_mem] at hin
  exact (entryBehind_of_not_mem hin).symm

/-- Up to its end the lookup inspects all that was not met before. -/
theorem mem_tables_of_unrefined
    (hk : k ∈ through (fun k => (u.entryBehind f ks k).isSome)
      ((f.declaringModule :: ls).flatMap u.ownChain))
    (hnot : k ∉ u.front f.declaringModule ks) : k ∈ (u.lookupSuper f m).tables := by
  have hnotin {a : ModuleId} (ha : (!(u.front f.declaringModule ks).contains a) = true) :
      a ∉ u.front f.declaringModule ks := by
    rwa [Bool.not_eq_true', ← Bool.not_eq_true, List.contains_iff_mem] at ha
  show k ∈ tablesOf (u.superMethod (u.superTarget f) false (u.ancestors m)).assumptions
  rw [superMethod_of_unrefined hr, tables_superTables]
  show k ∈ through (u.hasEntry f.definedName) (behind false f.declaringModule (u.ancestors m))
  rw [behind_ancestors hs hd hself, mem_through_eraseDups]
  have hstop : through (u.hasEntry f.definedName)
      (((f.declaringModule :: ls).flatMap u.ownChain).filter
        fun k => !(u.front f.declaringModule ks).contains k) =
      through (fun k => (u.entryBehind f ks k).isSome)
        (((f.declaringModule :: ls).flatMap u.ownChain).filter
          fun k => !(u.front f.declaringModule ks).contains k) :=
    through_congr fun a ha => by
      rw [hasEntry, entryBehind_of_not_mem (hnotin (List.mem_filter.1 (mem_of_mem_through ha)).2)]
  rw [hstop, mem_through_filter (fun a ha => ?_) (by simpa using hnot)]
  · exact hk
  · refine Bool.not_eq_true' _ ▸ Bool.eq_false_iff.2 fun hin => ?_
    rw [entryBehind_of_mem (List.contains_iff_mem.1 hin)] at ha
    cases ha

/-- The chains gone along from the declaring module on are marked as behind it. -/
theorem mem_superChains_of_unrefined
    (ho : o ∈ through (fun o => (u.ownChain o).any fun k => (u.entryBehind f ks k).isSome)
      (f.declaringModule :: ls)) : (o, true) ∈ u.superChains f m := by
  have hends {k : ModuleId}
      (hk : u.superEnds (u.superTarget f) false (u.ancestors m) k = true) :
      (u.entryBehind f ks k).isSome = true := by
    obtain ⟨hbehind, hentry⟩ := mem_behind_of_superEnds hr hk
    replace hbehind : k ∈ behind false f.declaringModule (u.ancestors m) := hbehind
    rw [behind_ancestors hs hd hself, List.mem_eraseDups, List.mem_filter, Bool.not_eq_true',
      ← Bool.not_eq_true, List.contains_iff_mem] at hbehind
    rw [entryBehind_of_not_mem hbehind.2]
    exact hentry
  -- nothing ends the search before the declaring module
  have hfirst : (ks.any fun o => (u.ownChain o).any
      (u.superEnds (u.superTarget f) false (u.ancestors m))) = false := by
    refine List.any_eq_false.2 fun b hb hany => ?_
    obtain ⟨k, hk, hend⟩ := List.any_eq_true.1 hany
    have hsome := hends hend
    rw [entryBehind_of_mem (List.mem_append_left _ (List.mem_flatMap.2 ⟨b, hb, hk⟩))] at hsome
    cases hsome
  have hmem := mem_through_of_imp (p := fun o => (u.ownChain o).any
    (u.superEnds (u.superTarget f) false (u.ancestors m)))
    (fun b hb => by
      obtain ⟨k, hk, hend⟩ := List.any_eq_true.1 hb
      exact List.any_eq_true.2 ⟨k, hk, hends hend⟩) ho
  refine List.mem_append_left _ ?_
  show (o, true) ∈ u.markBehind f.declaringModule false
    (through (fun o => (u.ownChain o).any _) (u.spine m))
  rw [hs, through_append, hfirst, if_neg Bool.false_ne_true, markBehind_append]
  obtain ⟨rest, hrest⟩ := exists_through_cons (fun o => (u.ownChain o).any
    (u.superEnds (u.superTarget f) false (u.ancestors m))) f.declaringModule ls
  rw [hrest] at hmem ⊢
  exact List.mem_append_right _ (mem_markBehind_self _ hmem)

end Lookup

/-! ### Super lookups in classes -/

/-- No refinements are in force for a method of a class that a module inherits from by parents, the
class has its own place only, and the search behind it ends at such a class or finds nothing. -/
structure FromClass (u : Universe) (f : Method) (m : ModuleId) : Prop where
  context : f.context.hasRefinements = false
  active : f.active.any Context.hasRefinements = false
  declaring : (u.module f.declaringModule).isClass = true
  line : f.declaringModule ∈ u.spine m
  place : ∀ k ∈ u.spine m, k ≠ f.declaringModule → f.declaringModule ∉ u.ownChain k
  found : ∀ k ∈ (u.lookupSuper f m).tables, u.hasEntry f.definedName k = true →
    k ∈ u.spine m ∧ (u.module k).isClass = true

instance (u : Universe) (f : Method) (m : ModuleId) : Decidable (u.FromClass f m) :=
  decidable_of_iff (f.context.hasRefinements = false ∧
      f.active.any Context.hasRefinements = false ∧
      (u.module f.declaringModule).isClass = true ∧ f.declaringModule ∈ u.spine m ∧
      (∀ k ∈ u.spine m, k ≠ f.declaringModule → f.declaringModule ∉ u.ownChain k) ∧
      ∀ k ∈ (u.lookupSuper f m).tables, u.hasEntry f.definedName k = true →
        k ∈ u.spine m ∧ (u.module k).isClass = true)
    ⟨fun ⟨h₁, h₂, h₃, h₄, h₅, h₆⟩ => ⟨h₁, h₂, h₃, h₄, h₅, h₆⟩,
      fun h => ⟨h.context, h.active, h.declaring, h.line, h.place, h.found⟩⟩

section Later

variable (hu : u.WellFormed) (hm : u.knows m) (hl : Leads u v) (hs : u.spine m = ks ++ d :: ls)
include hu hm hl hs

/-- A class that comes later by parents does not come into the chains before. -/
theorem not_mem_chains (hc : c ∈ d :: ls) (hclass : (u.module c).isClass = true)
    (h : c ∉ ks.flatMap u.ownChain) : c ∉ ks.flatMap v.ownChain := by
  intro hlater
  obtain ⟨o, ho, hin⟩ := List.mem_flatMap.1 hlater
  obtain ⟨ks₁, ks₂, rfl⟩ := List.append_of_mem ho
  rw [List.append_assoc, List.cons_append] at hs
  have hline := spine_of_eq_append hs
  have hnodup := hline ▸ nodup_spine u o
  have hco : c ∈ ks₂ ++ d :: ls := List.mem_append_right _ hc
  have hou : u.knows o := knows_spine hu hm o (hs ▸ List.mem_append_right _ List.mem_cons_self)
  refine h (List.mem_flatMap.2 ⟨o, ho, (hl.grows hu hou).outside c ?_ ?_ hclass hin⟩)
  · rw [hline]
    exact List.mem_cons_of_mem o hco
  · exact fun he => (List.nodup_cons.1 hnodup).1 (he ▸ hco)

variable (hchain : (v.module d).chain = (u.module d).chain)
include hchain

theorem front_subset (hk : k ∈ u.front d ks) : k ∈ v.front d ks := by
  rw [front, hchain]
  refine List.mem_append.2 ((List.mem_append.1 hk).imp_left fun hk => ?_)
  obtain ⟨o, ho, hk⟩ := List.mem_flatMap.1 hk
  have hou : u.knows o := knows_spine hu hm o (hs ▸ List.mem_append_left _ ho)
  exact List.mem_flatMap.2 ⟨o, ho, (hl.grows hu hou).keeps k hk⟩

/-- Nor does it come to the front. -/
theorem not_mem_front (hc : c ∈ d :: ls) (hclass : (u.module c).isClass = true)
    (h : c ∉ u.front d ks) : c ∉ v.front d ks := by
  rw [front, List.mem_append, not_or] at h ⊢
  exact ⟨not_mem_chains hu hm hl hs hc hclass h.1, hchain ▸ h.2⟩

end Later

/-- A super lookup in a class gives the same wherever its assumptions still hold, if the chains
behind the class are guarded. -/
theorem lookupSuper_of_fromClass (hu : Reachable u) (hm : u.knows m) (hf : f.Known u)
    (hl : Leads u v) (h : u.FromClass f m) (hg : u.BehindGuarded f m)
    (hv : v.isValidMethod (u.lookupSuper f m) = true) :
    (v.lookupSuper f m).method = (u.lookupSuper f m).method := by
  have hwf := hu.wellFormed
  have hfollows := (hl.follows hwf).2
  rw [isValidMethod_lookupSuper] at hv
  obtain ⟨ks, ls, hs⟩ := List.append_of_mem h.line
  have hsv := (spine_of_follows hwf hfollows hm).trans hs
  have hd : f.declaringModule ∉ ks.flatMap u.ownChain := by
    intro hin
    obtain ⟨k, hk, hin⟩ := List.mem_flatMap.1 hin
    refine h.place k (hs ▸ List.mem_append_left _ hk) (fun he => ?_) hin
    have hnodup := List.nodup_append.1 (hs ▸ nodup_spine u m)
    exact hnodup.2.2 k hk _ List.mem_cons_self he
  have hdv := not_mem_chains hwf hm hl hs List.mem_cons_self h.declaring hd
  have hr := mergedRefinements_eq_nil (u := u) h.context h.active
  have hself := hu.apartFromSelf f.declaringModule
  have hchain (o : ModuleId) (ho : o ∈ through (fun o => (u.ownChain o).any fun k =>
      (u.entryBehind f ks k).isSome) (f.declaringModule :: ls)) :
      (v.module o).chain = (u.module o).chain := by
    have hin := mem_superChains_of_unrefined hr hs hd hself ho
    exact (hfollows.modules o (knows_superChains hwf hm hf hin)).chain
      ((hg _ hin rfl).imp_left (hv o))
  have hfirst := hchain f.declaringModule (mem_through_cons.2 (.inl rfl))
  rw [lookupSuper_of_unrefined hr hs hd hself,
    lookupSuper_of_unrefined (mergedRefinements_eq_nil h.context h.active) hsv hdv
      ((hu.leads hl).apartFromSelf _)]
  refine findSome?_through (through_flatMap_congr fun o ho => ?_).symm fun k hk => ?_
  · rw [ownChain, hchain o ho, ownChain]
  · by_cases hin : k ∈ u.front f.declaringModule ks
    · rw [entryBehind_of_mem hin, entryBehind_of_mem (front_subset hwf hm hl hs hfirst hin)]
    · have ht := mem_tables_of_unrefined hr hs hd hself hk hin
      have hsame : v.ownMethod k f.definedName = u.ownMethod k f.definedName := by
        rw [ownMethod, ownMethod,
          (hfollows.modules k (knows_superTables hwf hm hf ht)).methods (hv k ht)]
      rw [entryBehind_of_not_mem hin]
      cases hown : u.ownMethod k f.definedName with
      | none =>
        rw [entryBehind, hsame, hown, ite_self]
      | some e =>
        -- what is found belongs to a class, which stays behind
        obtain ⟨hline, hclass⟩ := h.found k ht (by rw [hasEntry, hown]; rfl)
        have hrear : k ∈ f.declaringModule :: ls :=
          (List.mem_append.1 (hs ▸ hline)).resolve_left fun hk => hin <|
            List.mem_append_left _ (List.mem_flatMap.2 ⟨k, hk, self_mem_ownChain u k⟩)
        rw [entryBehind_of_not_mem (not_mem_front hwf hm hl hs hfirst hrear hclass hin), hsame,
          hown]

end ObjectModel.Universe
