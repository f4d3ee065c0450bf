import ObjectModel.Proofs.Fronting

/-!
# Overtaking

A new module prepended to one whose own chain a lookup went along comes in front of what the lookup
stopped at.  Where the table of the latter module was not inspected, no assumption notes this.

* `exists_newcomer`: a universe with a new module that has an entry for a name;
* `Overtaken`, `exists_overtaken`: the same with this module in front of a chain;
* `Overtaken.findMethod`: the lookup gives the entry of the new module;
* `exists_stale`: so an unguarded lookup can become stale unnoticed.
-/

namespace ObjectModel.Universe

variable {u v : Universe} {a k m o p r : ModuleId} {name : String} {c : Context} {g : Method}

/-! ### Moves that overtake -/

/-- The second universe has a module more, with an entry for a name, in front of a chain. -/
structure Overtaken (u v : Universe) (o p : ModuleId) (name : String) (g : Method) : Prop where
  fresh : ¬u.knows p
  spine : ∀ k, u.knows k → v.spine k = u.spine k
  front : v.ownChain o = p :: u.ownChain o
  ownChain : ∀ k, u.knows k → k ≠ o → v.ownChain k = u.ownChain k
  table : ∀ k, u.knows k → v.ownMethod k name = u.ownMethod k name
  entry : v.ownMethod p name = some g
  version : ∀ k, u.knows k → k ≠ o → (v.module k).methodsVersion = (u.module k).methodsVersion
  objects : v.objects = u.objects

/-- A method stored in a module that may be changed. -/
theorem module_after_addMethod (h : ¬(u.module m).Fixed) (f : Method) : ∃ g,
    g.visibility = f.visibility ∧ g.undefined = f.undefined ∧
    (∀ k, (u.after (.addMethod m f)).module k =
      if m = k then (u.module k).updateMethods (·.insert f.name g) else u.module k) ∧
    (u.after (.addMethod m f)).objects = u.objects := by
  have hheld (w : Universe) (e : Method) : (holdMethod e w).1.visibility = e.visibility ∧
      (holdMethod e w).1.undefined = e.undefined ∧ (holdMethod e w).1.name = e.name ∧
      (holdMethod e w).2.modules = w.modules ∧ (holdMethod e w).2.objects = w.objects := by
    unfold holdMethod
    cases e.stamp <;> exact ⟨rfl, rfl, rfl, rfl, rfl⟩
  have hbuiltIn (b : Bool) : (f.withBuiltIn b).visibility = f.visibility ∧
      (f.withBuiltIn b).undefined = f.undefined ∧ (f.withBuiltIn b).name = f.name := by
    unfold Method.withBuiltIn
    split <;> exact ⟨rfl, rfl, rfl⟩
  have hcheck : checkMutable m u = .ok () u := by
    unfold checkMutable
    rw [Update.get_bind, immutable?_of_not_fixed h]
    rfl
  obtain ⟨hv, hu, hn, hmodules, hobjects⟩ := hheld u (f.withBuiltIn !u.options.coreLoaded)
  obtain ⟨hv', hu', hn'⟩ := hbuiltIn !u.options.coreLoaded
  refine ⟨_, hv.trans hv', hu.trans hu', fun k => ?_, ?_⟩
  · show (Update.final (addMethod m f) u).module k = _
    unfold addMethod
    rw [Update.final_bind, hcheck]
    show ((holdMethod (f.withBuiltIn !u.options.coreLoaded) u).2.modifyModule m
      (·.updateMethods (·.insert (holdMethod (f.withBuiltIn !u.options.coreLoaded) u).1.name
        (holdMethod (f.withBuiltIn !u.options.coreLoaded) u).1))).module k = _
    rw [module_modifyModule, hn, hn', module, hmodules]
    rfl
  · show (Update.final (addMethod m f) u).objects = _
    unfold addMethod
    rw [Update.final_bind, hcheck]
    exact hobjects

/-- There can be a new module with a method of any name and visibility. -/
theorem exists_newcomer (hu : u.WellFormed) (name : String) (w : Visibility) :
    ∃ v p g, Newcomer u v p ∧ v.ownMethod p name = some g ∧ v.objects = u.objects ∧
      g.visibility = w ∧ g.undefined = false := by
  have hborn := newcomer_newModule u
  obtain ⟨g, hgv, hgu, hmodule, hobjects⟩ :=
    module_after_addMethod (not_fixed_newModule u) (Method.ofReader name "@x" ⟨u.nextId⟩ w)
  have hl : Leads (u.after .newModule) ((u.after .newModule).after (.addMethod ⟨u.nextId⟩
      (Method.ofReader name "@x" ⟨u.nextId⟩ w))) :=
    .of_move ⟨hborn.known, Method.known_ofReader hborn.known name "@x" w⟩
  generalize (u.after .newModule).after (.addMethod ⟨u.nextId⟩
    (Method.ofReader name "@x" ⟨u.nextId⟩ w)) = v at hmodule hobjects hl
  have hself : v.module ⟨u.nextId⟩ = ((u.after .newModule).module ⟨u.nextId⟩).updateMethods
      (·.insert name g) := by
    rw [hmodule, if_pos rfl]
    rfl
  refine ⟨v, ⟨u.nextId⟩, g, hborn.later hu hl (fun k hk => ?_) ?_ ?_, ?_, hobjects, hgv, hgu⟩
  · rw [hmodule, if_neg hk.symm]
  · rw [hself]
    rfl
  · rw [hself]
    rfl
  · rw [ownMethod, hself]
    exact Table.find?_insert_self _ _ _

/-- A new module can overtake any that may be changed, with a method of any visibility. -/
theorem exists_overtaken (hu : u.WellFormed) (ho : u.knows o) (hfree : ¬(u.module o).Fixed)
    (name : String) (w : Visibility) : ∃ v p g, Leads u v ∧ u.Overtaken v o p name g ∧
      g.visibility = w ∧ g.undefined = false := by
  obtain ⟨u₂, p, g, hnew, hentry, hobjects, hgv, hgu⟩ := exists_newcomer hu name w
  obtain ⟨hall, hfront, hother, hchained⟩ := fronted_prepend hu ho hfree hnew
  have hobj := (others_prepend u₂ o p).1
  refine ⟨_, p, g, hall, ⟨hnew.fresh, hfront.spine, hfront.front, hfront.ownChain, fun k hk => ?_,
    ?_, fun k hk hko => ?_, hobj.trans hobjects⟩, hgv, hgu⟩
  · by_cases hko : k = o
    · rw [ownMethod, hko, hchained, ownMethod]
      rfl
    · rw [ownMethod, hother k hko, hnew.other k (hnew.ne hk), ownMethod]
  · rw [ownMethod, hother p (hnew.ne ho).symm, ← ownMethod]
    exact hentry
  · rw [hother k hko, hnew.other k (hnew.ne hk)]

/-! ### Overtaken lookups -/

theorem visibility_foundUnder (context : Option Context) (f : Method) :
    (foundUnder context f).visibility = f.visibility := by
  cases context with
  | none => rfl
  | some c =>
    show (f.withActive c).visibility = f.visibility
    unfold Method.withActive
    split <;> rfl

namespace Overtaken

variable (h : u.Overtaken v o p name g)
include h

theorem fronted : Fronted u v o p := ⟨h.fresh, h.spine, rfl, h.front, h.ownChain⟩

theorem ne (hk : u.knows k) : k ≠ p := h.fronted.ne hk

/-- A part that gave nothing gives the new entry, if anything. -/
theorem partEntry {e : Method} (hu : u.WellFormed) (ha : u.knows a) (hr : u.knows r)
    (hn : u.partEntry name a r = none) (he : v.partEntry name a r = some e) :
    e.visibility = g.visibility := by
  have hpa : (p != a) = true := by simpa using (h.ne ha).symm
  rw [partEntry_eq_walk] at hn he
  rw [← h.fronted.walk_filter hu hr, takeWhile_filter_ne (q := (· != a)) hpa] at hn
  rcases findSome?_filter_or (f := (v.ownMethod · name)) (l := (v.walk r).takeWhile (· != a))
    h.entry (fun b hb hne =>
      h.table b (h.fronted.knows_of_mem_walk hu hr ((List.takeWhile_sublist _).mem hb) hne)) with hs | hs
  · rw [hs] at he
    rw [Option.some.inj (Option.filter_eq_some_iff.1 he).1]
  · rw [hs, hn] at he
    cases he

/-- So does an ancestor. -/
theorem answerAt {e : Method} (hu : u.WellFormed) (ha : u.knows a) (hc : c.Known u)
    (hn : u.answerAt name (some c) a = none) (he : v.answerAt name (some c) a = some e) :
    e.visibility = g.visibility := by
  unfold Universe.answerAt at hn he
  cases hru : u.refinedAt name (some c) a with
  | some f =>
    rw [hru] at hn
    cases hn
  | none =>
    rw [hru] at hn
    cases hrv : v.refinedAt name (some c) a with
    | none =>
      rw [hrv, h.table a ha, hn] at he
      cases he
    | some f =>
      rw [hrv] at he
      cases he
      obtain ⟨r, hr, hf⟩ := List.exists_of_findSome?_eq_some hrv
      have hnone := List.findSome?_eq_none_iff.1 hru r hr
      exact (visibility_foundUnder _ f).trans
        (h.partEntry hu ha (hc.refinementsFor hr) hnone hf)

/-- No refinements are active for the new module. -/
theorem answerAt_self (hc : c.Known u) : v.answerAt name (some c) p = some g := by
  have hnone : activeFor (some c) p = [] := by
    show c.refinementsFor p = []
    unfold Context.refinementsFor
    cases hf : c.refinements.find? p with
    | none => rfl
    | some rs => exact absurd (hc.refinementsKnown p rs hf).1 h.fresh
  rw [Universe.answerAt, refinedAt, hnone]
  exact h.entry

/-- The first entry in the part of a refinement whose walk entered the overtaken chain before it met
one is the new entry. -/
theorem findSome?_part (hu : u.WellFormed) (ha : u.knows a) (hr : u.knows r)
    {stop : ModuleId → Bool}
    (hstop : ∀ b ∈ u.refinementPart r a, stop b = false → u.hasEntry name b = false)
    (ho : o ∈ u.entered (fun k => k == a || stop k) r) :
    ((v.walk r).takeWhile (· != a)).findSome? (v.ownMethod · name) = some g := by
  obtain ⟨pre, post, hwalk, hpre⟩ := h.fronted.walk_of_entered hu hr ho
  have hpa : (p != a) = true := by simpa using (h.ne ha).symm
  have hbefore (b : ModuleId) (hb : b ∈ pre) : (b != a) = true := by
    rcases hpre b hb with rfl | ⟨-, hn⟩
    · exact hpa
    · rw [Bool.or_eq_false_iff] at hn
      simpa [bne] using hn.1
  have hcut : (v.walk r).takeWhile (· != a) = pre ++ p :: post.takeWhile (· != a) := by
    rw [hwalk, List.takeWhile_append_of_pos hbefore,
      List.takeWhile_cons_of_pos (p := (· != a)) hpa]
  -- what stands in front was in the part before and has no entry, unless it is the new module
  have hquiet (b : ModuleId) (hb : b ∈ pre) (e : Method) (he : v.ownMethod b name = some e) :
      e = g := by
    rcases hpre b hb with rfl | ⟨hk, hn⟩
    · exact Option.some.inj (he.symm.trans h.entry)
    · have hin : b ∈ u.refinementPart r a := by
        rw [refinementPart, ancestors_eq_walk, takeWhile_eraseDups, List.mem_eraseDups,
          ← h.fronted.walk_filter hu hr, takeWhile_filter_ne (q := (· != a)) hpa, hcut]
        exact List.mem_filter.2 ⟨List.mem_append_left _ hb, by simpa using h.ne hk⟩
      have hnone := hstop b hin (Bool.or_eq_false_iff.1 hn).2
      rw [hasEntry, ← h.table b hk, he] at hnone
      cases hnone
  obtain ⟨e, he, rfl⟩ : ∃ e, (pre ++ p :: post.takeWhile (· != a)).findSome?
      (v.ownMethod · name) = some e ∧ e = g :=
    findSome?_append_of_forall hquiet ⟨g, h.entry, rfl⟩
  rw [hcut, he]

theorem partEntry_of_entered (hu : u.WellFormed) (ha : u.knows a) (hr : u.knows r)
    (hg : g.undefined = false) (ho : o ∈ u.entered (u.partStop name a) r) :
    v.partEntry name a r = some g := by
  rw [partEntry_eq_walk, h.findSome?_part hu ha hr (fun _ _ hn => hn) ho]
  simp [Option.filter, Method.isDefined, hg]

/-- Once the chain of a module that a lookup went along is overtaken, the lookup gives the new
entry. -/
theorem findMethod (hu : u.WellFormed) (hm : u.knows m) (hc : c.Known u)
    (hg : g.undefined = false) (ho : o ∈ u.chainsRead m name c) :
    ∃ e, v.findMethod m name (some c) = some e ∧ e.visibility = g.visibility := by
  rw [findMethod_eq_walk]
  have hself : ∃ e, v.answerAt name (some c) p = some e ∧ e.visibility = g.visibility :=
    ⟨g, h.answerAt_self hc, rfl⟩
  have hquiet {b : ModuleId} (hb : b = p ∨ u.knows b ∧ u.answers name (some c) b = false)
      (e : Method) (he : v.answerAt name (some c) b = some e) : e.visibility = g.visibility := by
    rcases hb with rfl | ⟨hk, hn⟩
    · rw [h.answerAt_self hc] at he
      cases he
      rfl
    · exact h.answerAt hu hk hc (by simpa [answers] using hn) he
  rcases mem_chainsRead.1 ho with ho | ⟨a, ha, r, hr, ho⟩
  · obtain ⟨pre, post, hwalk, hpre⟩ := h.fronted.walk_of_entered hu hm ho
    rw [hwalk]
    exact findSome?_append_of_forall (fun b hb => hquiet (hpre b hb)) hself
  · have hak := knows_walk hu hm (mem_of_mem_through ha)
    have hrefined : ∃ f, v.refinedAt name (some c) a = some f ∧ f.visibility = g.visibility := by
      -- refinements tried before gave nothing, so they give the new entry or still nothing
      obtain ⟨pre, post, hactive, hpre⟩ := append_of_mem_through hr
      rw [refinedAt, hactive]
      refine findSome?_append_of_forall (fun s hs f hf => ?_)
        ⟨g, h.partEntry_of_entered hu hak (knows_tried hc hr) hg ho, rfl⟩
      have hsr : s ∈ activeFor (some c) a := hactive ▸ List.mem_append_left _ hs
      exact h.partEntry hu hak (hc.refinementsFor hsr) (by simpa using hpre s hs) hf
    have hanswer : ∃ e, v.answerAt name (some c) a = some e ∧ e.visibility = g.visibility := by
      obtain ⟨f, hf, hfg⟩ := hrefined
      refine ⟨foundUnder (some c) f, ?_, (visibility_foundUnder _ f).trans hfg⟩
      rw [Universe.answerAt, hf]
    -- the walk goes along the same modules up to this one, but for the new module
    obtain ⟨pre, post, hwalk, hpre⟩ := append_of_mem_through ha
    have hpk (b : ModuleId) (hb : b ∈ pre) : u.knows b :=
      knows_walk hu hm (hwalk ▸ List.mem_append_left _ hb)
    rw [← h.fronted.walk_filter hu hm] at hwalk
    obtain ⟨ls, rest, hv, hls, hrest⟩ := List.filter_eq_append_iff.1 hwalk
    obtain ⟨ks, post', hr', hks, -, -⟩ := List.filter_eq_cons_iff.1 hrest
    rw [hv, hr', ← List.append_assoc]
    refine findSome?_append_of_forall (fun b hb => hquiet ?_) hanswer
    by_cases hbp : b = p
    · exact .inl hbp
    · rcases List.mem_append.1 hb with hb | hb
      · have hb' : b ∈ pre := hls ▸ List.mem_filter.2 ⟨hb, by simpa using hbp⟩
        exact .inr ⟨hpk b hb', hpre b hb'⟩
      · exact absurd (by simpa using hbp) (hks b hb)

end Overtaken

theorem exists_other_visibility (found : Option Method) :
    ∃ w, found.map (·.visibility) ≠ some w := by
  by_cases hp : found.map (·.visibility) = some .pub
  · exact ⟨.priv, by rw [hp]; decide⟩
  · exact ⟨.pub, hp⟩

/-- A lookup that is not guarded can become stale while its assumptions hold. -/
theorem exists_stale (hu : u.WellFormed) (hm : u.knows m) (hc : c.Known u)
    (h : ¬u.WellGuarded m name c) : ∃ v, Leads u v ∧ v.objects = u.objects ∧
      v.isValidMethod (u.lookupMethod m name (some c)) = true ∧
      (v.findMethod m name (some c)).map (·.visibility) ≠
        (u.findMethod m name (some c)).map (·.visibility) := by
  simp only [WellGuarded, Classical.not_forall, not_or] at h
  obtain ⟨o, ho, htable, hfree⟩ := h
  -- the new entry differs from what was found in its visibility
  obtain ⟨w, hw⟩ := exists_other_visibility (u.findMethod m name (some c))
  obtain ⟨v, p, g, hv, hover, rfl, hg⟩ :=
    exists_overtaken hu (knows_chainsRead hu hm hc ho) hfree name w
  obtain ⟨e, he, heg⟩ := hover.findMethod hu hm hc hg ho
  refine ⟨v, hv, hover.objects, isValidMethod_lookupMethod.2 fun k hk => ?_, fun heq => hw ?_⟩
  · exact hover.version k (knows_tables hu hm hc hk) fun hko => htable (hko ▸ hk)
  · rw [← heq, he, ← heg]
    rfl

end ObjectModel.Universe
