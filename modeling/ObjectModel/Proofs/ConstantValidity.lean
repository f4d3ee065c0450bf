import ObjectModel.Proofs.Shadowing

/-!
# Validity of constant lookups

The result of an unscoped lookup notes the versions of the tables that it inspected.  Where modules
are prepended, a walk may stop in the chain of a module before it gets to the table of that module,
and then nothing notes a change of the chain.

* `ConstantStart.Guarded`: the table of every module whose own chain a lookup went along was
  inspected, or its chain is fixed;
* `findSome?_path_congr`, `constant_of_valid`: what a lookup depends on, and why a guarded one
  finds the same as long as its result is valid;
* `route_of_fronted`, `exists_stale_constant`: how another lookup goes stale unnoticed;
* `valid_current_iff`: so results can be relied on exactly if they are guarded.
-/

namespace ObjectModel

namespace ConstantStart

variable {u v : Universe} {t t' : ThreadId} {name : String} {start : ConstantStart}
  {r : ConstantResult} {k m o p : ModuleId}

open Universe

/-- The table of every module whose own chain a lookup goes along is inspected too, or the module
can no longer be changed. -/
def Guarded (u : Universe) (name : String) (start : ConstantStart) : Prop :=
  ∀ o ∈ start.chains u name, o ∈ start.tables u name ∨ (u.module o).Fixed

instance (u : Universe) (name : String) (start : ConstantStart) :
    Decidable (start.Guarded u name) :=
  inferInstanceAs (Decidable (∀ o ∈ start.chains u name,
    o ∈ start.tables u name ∨ (u.module o).Fixed))

/-! ### Existence -/

theorem knows_live {s : LexicalScope} (hu : u.WellFormed) (hs : s.Known u) : u.knows s.live := by
  obtain ⟨nesting⟩ := s
  cases nesting with
  | nil => exact Nat.lt_of_le_of_lt (by decide) hu.core
  | cons m ms => exact hs m List.mem_cons_self

theorem knows_openRoute (hu : u.WellFormed) (hm : u.knows m) (h : k ∈ u.openRoute m) :
    u.knows k := by
  have hobject : u.knows Core.object := Nat.lt_of_le_of_lt (by decide) hu.core
  rw [openRoute, List.mem_append, List.mem_cons] at h
  rcases h with (rfl | h) | h
  · exact hm
  · exact knows_walk hu hm h
  · split at h
    · cases h
    · rcases List.mem_cons.1 h with rfl | h
      · exact hobject
      · exact (hu.modules _ hobject).mixins k h

theorem knows_tables (hu : u.WellFormed) (hs : start.Known u) (h : k ∈ start.tables u name) :
    u.knows k := by
  have hk := mem_of_mem_through ((mem_tables u name start).1 h)
  cases start with
  | module m =>
    rcases List.mem_cons.1 hk with rfl | hk
    · exact hs
    · exact knows_walk hu hs hk
  | inheriting m inherit =>
    cases inherit with
    | true => exact knows_openRoute hu hs hk
    | false => exact List.mem_singleton.1 hk ▸ hs
  | scope s =>
    rcases List.mem_append.1 hk with hk | hk
    · exact hs k hk
    · exact knows_openRoute hu (knows_live hu hs) hk

theorem knows_chains (hu : u.WellFormed) (hs : start.Known u) (h : o ∈ start.chains u name) :
    u.knows o := by
  have hentered {m : ModuleId} (hm : u.knows m) (h : o ∈ u.entered (u.binds name) m) :
      u.knows o := knows_spine hu hm o (mem_of_mem_through h)
  cases start with
  | module m => exact hentered hs h
  | inheriting m inherit =>
    cases inherit with
    | true => exact hentered hs h
    | false => cases h
  | scope s =>
    simp only [chains] at h
    split at h
    · cases h
    · exact hentered (knows_live hu hs) h

/-! ### Later states -/

/-- How far a route leads depends on the chains that it goes along, and on the chain of the class
of objects where toplevel is reached. -/
theorem through_openRoute_congr (hf : u.Follows v) (hu : u.WellFormed) (hm : u.knows m)
    (hchain : ∀ o ∈ u.entered (u.binds name) m, v.ownChain o = u.ownChain o)
    (htable : ∀ o ∈ through (u.binds name) (u.openRoute m),
      (v.module o).chain = (u.module o).chain) :
    through (u.binds name) (v.openRoute m) = through (u.binds name) (u.openRoute m) := by
  have hwalk := through_walk_congr (spine_of_follows hu hf hm) hchain
  refine through_append_congr ?_ fun hnone => ?_
  · unfold through
    rw [hwalk]
  · have hclass : (v.module m).isClass = (u.module m).isClass :=
      isClass_of_kind (hf.modules m hm).kind
    rw [hclass]
    cases hc : (u.module m).isClass with
    | true => rfl
    | false =>
      have hobject : Core.object ∈ through (u.binds name) (u.openRoute m) := by
        rw [openRoute, mem_through_append, hc]
        exact .inr ⟨hnone, mem_through_cons.2 (.inl rfl)⟩
      rw [toplevelPath, htable _ hobject, toplevelPath]

theorem through_route_congr (hu : u.WellFormed) (hs : start.Known u) (hf : u.Follows v)
    (hchain : ∀ o ∈ start.chains u name, v.ownChain o = u.ownChain o)
    (htable : ∀ o ∈ through (u.binds name) (start.route u),
      (v.module o).chain = (u.module o).chain) :
    through (u.binds name) (start.route v) = through (u.binds name) (start.route u) := by
  cases start with
  | module m =>
    have hwalk := through_walk_congr (spine_of_follows hu hf hs) hchain
    unfold route through
    rw [hwalk]
  | inheriting m inherit =>
    cases inherit with
    | true => exact through_openRoute_congr hf hu hs hchain htable
    | false => rfl
  | scope s =>
    refine through_append_congr rfl fun hnone => ?_
    simp only [chains, hnone, Bool.false_eq_true, if_false] at hchain
    refine through_openRoute_congr hf hu (knows_live hu hs) hchain fun o ho => ?_
    exact htable o (mem_through_append.2 (.inr ⟨hnone, ho⟩))

/-- The first binding along a path depends on the tables up to it, and on the chains that the
path goes along. -/
theorem findSome?_path_congr (hu : u.WellFormed) (hs : start.Known u) (hf : u.Follows v)
    (hchain : ∀ o ∈ start.chains u name, v.ownChain o = u.ownChain o)
    (htable : ∀ o ∈ start.tables u name, v.ownConstant o name = u.ownConstant o name ∧
      (v.module o).chain = (u.module o).chain) :
    (start.path v).findSome? (v.ownConstant · name) =
      (start.path u).findSome? (u.ownConstant · name) := by
  have htable (o : ModuleId) (ho : o ∈ through (u.binds name) (start.route u)) :=
    htable o ((mem_tables u name start).2 ho)
  rw [findSome?_path, findSome?_path]
  refine findSome?_through (Eq.symm ?_) fun o ho => (htable o ho).1
  exact through_route_congr hu hs hf hchain fun o ho => (htable o ho).2

/-- A guarded lookup finds the same wherever its result is still valid. -/
theorem constant_of_valid (hu : u.WellFormed) (hs : start.Known u) (hi : u.Idle name)
    (hr : start.lookup u t name = .ok r) (hg : start.Guarded u name) (hl : Leads u v)
    (hv : v.Idle name) (hvalid : v.isValidConstant r = true) :
    (start.lookup v t' name).map (·.constant) = .ok r.constant := by
  obtain ⟨rfl, hlookup⟩ := lookup_eq hr
  have hversion := (isValidConstant_searchConstant (hi.quiet _)).1 hvalid
  rw [hlookup, searchConstant_of_quiet (hv.quiet _), searchConstant_of_quiet (hi.quiet _)]
  refine congrArg Except.ok (findSome?_path_congr hu hs (hl.follows hu).2 (fun o ho => ?_)
    fun o ho => ?_)
  · rw [ownChain, ownChain, (hl.constantsFollow (knows_chains hu hs ho)).chain
      ((hg o ho).imp_left (hversion o))]
  · have hsame := hl.constantsFollow (knows_tables hu hs ho)
    rw [ownConstant, hsame.constants (hversion o ho), ownConstant]
    exact ⟨rfl, hsame.chain (.inl (hversion o ho))⟩

/-! ### Stale results -/

/-- A walk that goes along a chain without inspecting the table of its module meets what is put in
front of the chain. -/
theorem walk_of_fronted {m : ModuleId} {rest : List ModuleId} (hu : u.WellFormed)
    (h : u.Fronted v o p) (hm : u.knows m) (ho : o ∈ u.entered (u.binds name) m)
    (ht : o ∉ through (u.binds name) (m :: u.walk m ++ rest)) (rest' : List ModuleId) :
    ∃ pre post, m :: v.walk m ++ rest' = pre ++ p :: post ∧
      ∀ k ∈ pre, k = p ∨ u.knows k ∧ u.binds name k = false := by
  -- a module that binds the name itself is inspected, and its chain is not gone along
  have hfirst : u.binds name m = false := by
    refine Bool.eq_false_iff.2 fun hb => ht ?_
    have hany : (u.ownChain m).any (u.binds name) = true :=
      List.any_eq_true.2 ⟨m, self_mem_ownChain u m, hb⟩
    rw [entered, spine] at ho
    rw [through_cons_of_pos (p := fun o => (u.ownChain o).any (u.binds name)) hany,
      List.mem_singleton] at ho
    rw [ho]
    exact mem_through_cons.2 (.inl rfl)
  obtain ⟨pre, post, hv, hpre⟩ := h.walk_of_entered hu hm ho
  refine ⟨m :: pre, post ++ rest', by rw [hv]; simp, fun k hk => ?_⟩
  rcases List.mem_cons.1 hk with rfl | hk
  · exact .inr ⟨hm, hfirst⟩
  · exact hpre k hk

/-- So does a route. -/
theorem route_of_fronted (hu : u.WellFormed) (hs : start.Known u) (h : u.Fronted v o p)
    (ho : o ∈ start.chains u name) (ht : o ∉ start.tables u name) :
    ∃ pre post, start.route v = pre ++ p :: post ∧
      ∀ k ∈ pre, k = p ∨ u.knows k ∧ u.binds name k = false := by
  rw [mem_tables] at ht
  cases start with
  | module m =>
    have hroute := walk_of_fronted hu h hs ho (by rwa [List.append_nil]) []
    rwa [List.append_nil] at hroute
  | inheriting m inherit =>
    cases inherit with
    | true => exact walk_of_fronted hu h hs ho ht _
    | false => cases ho
  | scope s =>
    simp only [chains] at ho
    split at ho
    · cases ho
    · next hnone =>
      rw [Bool.not_eq_true] at hnone
      have hbehind : o ∉ through (u.binds name) (u.openRoute s.live) := fun hb =>
        ht (mem_through_append.2 (.inr ⟨hnone, hb⟩))
      obtain ⟨pre, post, hroute, hpre⟩ := walk_of_fronted hu h (knows_live hu hs) ho hbehind
        (if (v.module s.live).isClass then [] else v.toplevelPath)
      refine ⟨s.nesting ++ pre, post, ?_, fun k hk => ?_⟩
      · show s.nesting ++ v.openRoute s.live = _
        rw [openRoute, hroute, List.append_assoc]
      · rcases List.mem_append.1 hk with hk | hk
        · exact .inr ⟨hs k hk, Bool.eq_false_iff.2 (List.any_eq_false.1 hnone k hk)⟩
        · exact hpre k hk

/-- Shadowed in front of such a chain, the name is bound by the new module. -/
theorem findSome?_path_of_shadowed {c : Constant} (hu : u.WellFormed) (hs : start.Known u)
    (h : u.Shadowed v o p name c) (ho : o ∈ start.chains u name)
    (ht : o ∉ start.tables u name) :
    (start.path v).findSome? (v.ownConstant · name) = some c := by
  obtain ⟨pre, post, hroute, hpre⟩ := route_of_fronted hu hs h.fronted ho ht
  obtain ⟨d, hd, rfl⟩ : ∃ d, (start.route v).findSome? (v.ownConstant · name) = some d ∧
      d = c := by
    rw [hroute]
    refine findSome?_append_of_forall (fun k hk d hd => ?_) ⟨c, h.entry, rfl⟩
    rcases hpre k hk with rfl | ⟨hku, hkb⟩
    · exact Option.some.inj (hd.symm.trans h.entry)
    · rw [h.ownConstant (h.fronted.ne hku)] at hd
      rw [binds, hd] at hkb
      cases hkb
  rw [findSome?_path, hd]

/-- One of the truth values is not what a constant is bound to. -/
theorem exists_other_binding (found : Option Constant) :
    ∃ b : Bool, ∀ c : Constant, c.binding = .value (.bool b) → found ≠ some c := by
  by_cases h : found.map Constant.binding = some (.value (.bool true))
  · refine ⟨false, fun c hc he => ?_⟩
    rw [he, Option.map_some, hc] at h
    exact absurd h (by decide)
  · exact ⟨true, fun c hc he => h (by rw [he, Option.map_some, hc])⟩

/-- A lookup that is not guarded can become stale while its result counts as valid. -/
theorem exists_stale_constant (hu : u.WellFormed) (hs : start.Known u) (hi : u.Idle name)
    (hr : start.lookup u t name = .ok r) (hg : ¬start.Guarded u name) :
    ∃ v, Leads u v ∧ v.Idle name ∧ v.isValidConstant r = true ∧
      (start.lookup v t name).map (·.constant) ≠ .ok r.constant := by
  simp only [Guarded, Classical.not_forall, not_or] at hg
  obtain ⟨o, ho, ht, hfree⟩ := hg
  obtain ⟨rfl, hlookup⟩ := lookup_eq hr
  obtain ⟨b, hb⟩ := exists_other_binding (u.searchConstant t name (start.path u)).constant
  obtain ⟨v, p, c, hl, hshadow, hcb⟩ := exists_shadowed hu (knows_chains hu hs ho) hfree name b
  have hv : v.Idle name := hshadow.idle hi (by rw [Constant.autoload?, hcb])
  refine ⟨v, hl, hv, (isValidConstant_searchConstant (hi.quiet _)).2 fun k hk => ?_, ?_⟩
  · have hkp := hshadow.fronted.ne (knows_tables hu hs hk)
    rw [hshadow.record k (fun hko => ht (hko ▸ hk)) hkp]
  · rw [hlookup, searchConstant_of_quiet (hv.quiet _),
      findSome?_path_of_shadowed hu hs hshadow ho ht]
    exact fun he => hb c hcb (Except.ok.inj he).symm

/-- The result of an unscoped lookup can be relied on while it counts as valid, through every
later history in which no thread is loading the name, exactly when every module whose own chain
the lookup went along had its table inspected or can no longer be changed. -/
theorem valid_current_iff (hu : Reachable u) (hs : start.Known u) (hi : u.Idle name)
    (hr : start.lookup u t name = .ok r) :
    (∀ v t', Leads u v → v.Idle name → v.isValidConstant r = true →
      (start.lookup v t' name).map (·.constant) = .ok r.constant) ↔ start.Guarded u name := by
  constructor
  · intro h
    refine Decidable.by_contra fun hg => ?_
    obtain ⟨v, hl, hv, hvalid, hne⟩ := exists_stale_constant hu.wellFormed hs hi hr hg
    exact hne (h v t hl hv hvalid)
  · exact fun hg v t' hl hv hvalid => constant_of_valid hu.wellFormed hs hi hr hg hl hv hvalid

/-- A class with a subclass and a prepended module that binds a constant, and another module that
binds it too. -/
def shadowable : Universe :=
  (create {}).afterAll [.newClass none, .newClass (some ⟨12⟩), .newModule, .newModule,
    .setConstant ⟨14⟩ "C" (.int 1) none, .setConstant ⟨15⟩ "C" (.int 2) none,
    .prependModule ⟨12⟩ ⟨14⟩]

theorem reachable_shadowable : Reachable shadowable := by
  refine (Reachable.create {}).afterAll _ ⟨nofun, ?_, trivial, trivial, ⟨?_, trivial⟩,
    ⟨?_, trivial⟩, ⟨?_, ?_⟩, trivial⟩
  · rintro m ⟨⟩
    decide +kernel
  all_goals decide +kernel

/-- The constant of a module itself can be relied on, whatever is prepended elsewhere. -/
theorem current_of_own_constant :
    (ConstantStart.module ⟨14⟩).Guarded shadowable "C" ∧
      ((ConstantStart.module ⟨14⟩).lookup (shadowable.after (.prependModule ⟨12⟩ ⟨15⟩)) ⟨2⟩
        "C").map (·.constant) = .ok (shadowable.lookupConstant ⟨1⟩ ⟨14⟩ "C").constant := by
  have hg : (ConstantStart.module ⟨14⟩).Guarded shadowable "C" := by decide +kernel
  have hknown : (ConstantStart.module ⟨14⟩).Known shadowable :=
    (by decide +kernel : shadowable.knows ⟨14⟩)
  have hl : Leads shadowable (shadowable.after (.prependModule ⟨12⟩ ⟨15⟩)) :=
    .of_move ⟨by decide +kernel, by decide +kernel⟩
  refine ⟨hg, (valid_current_iff (t := ⟨1⟩) reachable_shadowable hknown (by decide +kernel) rfl).2
    hg _ ⟨2⟩ hl ?_ ?_⟩ <;> decide +kernel

/-- The subclass finds the constant of the prepended module before it gets to the table of the
class, so it does not note that another module is prepended in front of that one. -/
theorem not_current_of_second_binding : Reachable shadowable ∧ shadowable.knows ⟨13⟩ ∧
    Leads shadowable (shadowable.after (.prependModule ⟨12⟩ ⟨15⟩)) ∧
    shadowable.Idle "C" ∧ (shadowable.after (.prependModule ⟨12⟩ ⟨15⟩)).Idle "C" ∧
    (shadowable.after (.prependModule ⟨12⟩ ⟨15⟩)).isValidConstant
      (shadowable.lookupConstant ⟨1⟩ ⟨13⟩ "C") = true ∧
    (shadowable.lookupConstant ⟨1⟩ ⟨13⟩ "C").constant.bind Constant.value? = some (.int 1) ∧
    ((shadowable.after (.prependModule ⟨12⟩ ⟨15⟩)).lookupConstant ⟨1⟩ ⟨13⟩ "C").constant.bind
      Constant.value? = some (.int 2) := by
  refine ⟨reachable_shadowable, ?_, .of_move ⟨?_, ?_⟩, ?_⟩ <;> decide +kernel

end ConstantStart

end ObjectModel
