import ObjectModel.Proofs.ConstantValidity
import ObjectModel.Proofs.ScopedSearch

/-!
# Validity of scoped constant lookups

The result of looking up a path notes the tables inspected for the last segment.  The segments that
led there are noted nowhere, so a path can lead elsewhere while the result counts as valid.

* `ConstantStart.GuardedBy`: nothing that one lookup depends on can change unnoticed;
* `findSome?_path_of_guarded`, `exists_diverted`: what follows if so, and what can happen if not;
* `PathGuarded`: the same for all segments of a path;
* `scopedConstant?_of_guarded`, `canStray_of_not_guarded`: paths that stay, and paths that go
  astray;
* `scoped_current_iff`: so results can be relied on exactly if they are guarded.
-/

namespace ObjectModel

namespace ConstantStart

variable {u v : Universe} {name : String} {start : ConstantStart} {noted : List ModuleId}
  {o : ModuleId}

open Universe

/-! ### One segment -/

/-- The modules that a lookup depends on are all noted, or can no longer be changed. -/
def GuardedBy (u : Universe) (noted : List ModuleId) (name : String) (start : ConstantStart) :
    Prop :=
  ∀ o ∈ start.tables u name ++ start.chains u name, o ∈ noted ∨ (u.module o).Fixed

instance (u : Universe) (noted : List ModuleId) (name : String) (start : ConstantStart) :
    Decidable (start.GuardedBy u noted name) :=
  inferInstanceAs (Decidable (∀ o ∈ start.tables u name ++ start.chains u name,
    o ∈ noted ∨ (u.module o).Fixed))

/-- In a module that cannot be changed, only a constant that waits for a feature is rebound. -/
theorem findSome?_path_of_guarded (hu : u.WellFormed) (hs : start.Known u) (hl : Leads u v)
    (hg : start.GuardedBy u noted name)
    (hv : ∀ o ∈ noted, (v.module o).constantsVersion = (u.module o).constantsVersion)
    (hsettled : ((start.path u).findSome? (u.ownConstant · name)).any Constant.isAutoload = false) :
    (start.path v).findSome? (v.ownConstant · name) =
      (start.path u).findSome? (u.ownConstant · name) := by
  refine findSome?_path_congr hu hs (hl.follows hu).2 (fun o ho => ?_) fun o ho => ?_
  · have hguard := (hg o (List.mem_append_right _ ho)).imp_left (hv o)
    rw [ownChain, ownChain, (hl.constantsFollow (knows_chains hu hs ho)).chain hguard]
  · have hsame := hl.constantsFollow (knows_tables hu hs ho)
    have hguard := (hg o (List.mem_append_left _ ho)).imp_left (hv o)
    refine ⟨?_, hsame.chain hguard⟩
    rcases hguard with hversion | hfixed
    · rw [ownConstant, hsame.constants hversion, ownConstant]
    · refine hsame.binding hfixed name ?_
      show (u.ownConstant o name).any Constant.isAutoload = false
      rcases findSome?_of_mem_through ho with hnone | hfound
      · rw [hnone]
        rfl
      · rw [hfound]
        exact hsettled

/-- Entered in a table that is inspected, a constant is the first binding. -/
theorem findSome?_path_of_entry {c : Constant} (hu : u.WellFormed) (hs : start.Known u)
    (hl : Leads u v) (ho : o ∈ start.tables u name) (hentry : v.ownConstant o name = some c)
    (hother : ∀ k, k ≠ o → v.module k = u.module k)
    (hchain : (v.module o).chain = (u.module o).chain) :
    (start.path v).findSome? (v.ownConstant · name) = some c := by
  have hchain (k : ModuleId) : (v.module k).chain = (u.module k).chain := by
    by_cases hk : k = o
    · rw [hk, hchain]
    · rw [hother k hk]
  have hroute : through (u.binds name) (start.route v) = through (u.binds name) (start.route u) :=
    through_route_congr hu hs (hl.follows hu).2 (fun k _ => by rw [ownChain, ownChain, hchain])
      fun k _ => hchain k
  rw [mem_tables, ← hroute] at ho
  obtain ⟨pre, post, hpath, hpre⟩ := append_of_mem_through ho
  obtain ⟨d, hd, rfl⟩ : ∃ d, (start.route v).findSome? (v.ownConstant · name) = some d ∧
      d = c := by
    rw [hpath]
    refine findSome?_append_of_forall (fun k hk d hd => ?_) ⟨c, hentry, rfl⟩
    by_cases hko : k = o
    · exact Option.some.inj (hd.symm.trans (hko ▸ hentry))
    · have hnone := hpre k hk
      rw [ownConstant, hother k hko, ← ownConstant] at hd
      rw [binds, hd] at hnone
      cases hnone
  rw [findSome?_path, hd]

/-- Whatever a lookup depends on, if it can be changed at all, can be changed so that the lookup
finds a truth value. -/
theorem exists_diverted (hu : u.WellFormed) (hs : start.Known u)
    (ho : o ∈ start.tables u name ++ start.chains u name) (hfree : ¬(u.module o).Fixed) (b : Bool) :
    ∃ v c, Leads u v ∧ (∀ k, u.knows k → k ≠ o → v.module k = u.module k) ∧
      (start.path v).findSome? (v.ownConstant · name) = some c ∧ c.binding = .value (.bool b) := by
  by_cases ht : o ∈ start.tables u name
  · -- an assignment does in an inspected table
    have hl : Leads u (u.after (.setConstant o name (.bool b) none)) :=
      .of_move ⟨knows_tables hu hs ht, trivial⟩
    obtain ⟨hmodule, -, -⟩ := after_setConstant hfree name (x := .bool b) rfl
    generalize u.after (.setConstant o name (.bool b) none) = v at hl hmodule
    have hother (k : ModuleId) (hk : k ≠ o) : v.module k = u.module k := by
      rw [hmodule, if_neg hk.symm]
    let c := assigned (u.ownConstant o name) o name (.bool b) none
    have hself : v.module o = (u.module o).updateConstants (·.insert name c) := by
      rw [hmodule, if_pos rfl]
    have hentry : v.ownConstant o name = some c := by
      rw [ownConstant, hself]
      exact Table.find?_insert_self _ _ _
    refine ⟨v, c, hl, fun k _ hk => hother k hk, ?_, ?_⟩
    · exact findSome?_path_of_entry hu hs hl ht hentry hother (by rw [hself]; rfl)
    · show (assigned (u.ownConstant o name) o name (.bool b) none).binding = _
      cases u.ownConstant o name <;> rfl
  · -- and a module put in front of a chain whose table is not inspected
    have hchains := (List.mem_append.1 ho).resolve_left ht
    obtain ⟨v, p, c, hl, hshadow, hc⟩ := exists_shadowed hu (knows_chains hu hs hchains) hfree name b
    exact ⟨v, c, hl, fun k hk hko => hshadow.record k hko (hshadow.fronted.ne hk),
      findSome?_path_of_shadowed hu hs hshadow hchains ht, hc⟩

end ConstantStart

namespace Universe

variable {u v : Universe} {inherit : Bool} {m : ModuleId} {segments : List String}
  {noted : List ModuleId} {found : Option Constant}

/-! ### Paths -/

/-- All that the segments of a path depend on is noted for the last one, or can no longer be
changed. -/
def PathGuarded (u : Universe) (inherit : Bool) (m : ModuleId) (segments : List String) : Prop :=
  ∀ stop ∈ u.scopedStops inherit m segments,
    (ConstantStart.inheriting stop.1 inherit).GuardedBy u (u.scopedTables inherit m segments) stop.2

instance (u : Universe) (inherit : Bool) (m : ModuleId) (segments : List String) :
    Decidable (u.PathGuarded inherit m segments) :=
  inferInstanceAs (Decidable (∀ stop ∈ u.scopedStops inherit m segments, _))

theorem knows_nextModule {segment : String} {next : ModuleId} (hu : u.WellFormed)
    (h : u.nextModule? inherit m segment = some next) : u.knows next := by
  obtain ⟨x, hx, hnext⟩ := Option.bind_eq_some_iff.1 h
  obtain ⟨c, hc, hcx⟩ := Option.bind_eq_some_iff.1 hx
  obtain ⟨k, -, hk⟩ := List.exists_of_findSome?_eq_some hc
  have hknown : u.knows k := by
    refine Decidable.by_contra fun hstranger => ?_
    rw [ownConstant, hu.module_stranger hstranger] at hk
    cases hk
  have hxu := (hu.modules k hknown).constants segment c x hk hcx
  cases x with
  | module n => exact Option.some.inj hnext ▸ hxu
  | nil | bool | int | symbol | string | object => cases hnext

theorem knows_pathStart (hu : u.WellFormed) (hm : u.knows m) (text : String) :
    u.knows (pathStart m text) := by
  unfold pathStart
  split
  · exact Nat.lt_of_le_of_lt (by decide) hu.core
  · exact hm

theorem knows_scopedTables {k : ModuleId} (hu : u.WellFormed) (hm : u.knows m)
    (h : k ∈ u.scopedTables inherit m segments) : u.knows k := by
  induction segments generalizing m with
  | nil => cases h
  | cons segment rest ih =>
    by_cases hlast : u.nextModule? inherit m segment = none ∨ rest = []
    · rw [scopedTables_of_last hlast] at h
      have hstart : (ConstantStart.inheriting m inherit).Known u := hm
      exact ConstantStart.knows_tables hu hstart h
    · rw [not_or] at hlast
      obtain ⟨next, hnext⟩ := Option.ne_none_iff_exists'.1 hlast.1
      rw [scopedTables_of_next hnext hlast.2] at h
      exact ih (knows_nextModule hu hnext) h

/-- A guarded path leads to the same constant as long as what it notes stays. -/
theorem scopedConstant?_of_guarded (hu : u.WellFormed) (hm : u.knows m) (hl : Leads u v)
    (hv : ∀ o ∈ noted, (v.module o).constantsVersion = (u.module o).constantsVersion)
    (hs : u.Settled inherit m segments)
    (hg : ∀ stop ∈ u.scopedStops inherit m segments,
      (ConstantStart.inheriting stop.1 inherit).GuardedBy u noted stop.2) :
    v.scopedConstant? inherit m segments = u.scopedConstant? inherit m segments := by
  induction segments generalizing m with
  | nil => rfl
  | cons segment rest ih =>
    have hstart : (ConstantStart.inheriting m inherit).Known u := hm
    have hbinding : v.segmentBinding inherit m segment = u.segmentBinding inherit m segment :=
      ConstantStart.findSome?_path_of_guarded hu hstart hl (hg _ List.mem_cons_self) hv hs.1
    have hrest (next : ModuleId) (hnext : u.nextModule? inherit m segment = some next) :
        v.scopedConstant? inherit next rest = u.scopedConstant? inherit next rest := by
      refine ih (knows_nextModule hu hnext) (hs.2 next hnext) fun stop hstop => hg stop ?_
      rw [scopedStops_cons, hnext]
      exact List.mem_cons_of_mem _ hstop
    rw [scopedConstant?, scopedConstant?, hbinding]
    refine ite_congr rfl (fun _ => ite_congr rfl (fun _ => rfl) fun _ => ?_) fun _ => rfl
    cases hx : (u.segmentBinding inherit m segment).bind Constant.value? with
    | none => rfl
    | some x =>
      refine Option.bind_congr fun next hnext => hrest next ?_
      rw [nextModule?, hx]
      exact hnext

/-- Where the first segment is bound to a truth value, a path ends there or fails. -/
theorem settled_of_truth_value {segment : String} {c : Constant} {b : Bool} (rest : List String)
    (h : u.segmentBinding inherit m segment = some c) (hc : c.binding = .value (.bool b)) :
    u.Settled inherit m (segment :: rest) ∧
      (u.scopedConstant? inherit m (segment :: rest) = some (some c) ∨
        u.scopedConstant? inherit m (segment :: rest) = none) := by
  have hvalue : c.value? = some (.bool b) := by rw [Constant.value?, hc]
  have hnext : u.nextModule? inherit m segment = none := by
    rw [nextModule?, h, Option.bind_some, hvalue]
    rfl
  refine ⟨⟨?_, fun next hn => ?_⟩, ?_⟩
  · rw [h, Option.any_some, Constant.isAutoload, Constant.autoload?, hc]
    rfl
  · rw [hnext] at hn
    cases hn
  · rw [scopedConstant?, h]
    split
    · split
      · exact .inl rfl
      · right
        simp only [Option.bind_some, hvalue]
        rfl
    · exact .inr rfl

/-- A later state where the path is settled and leads elsewhere, although nothing that is noted has
changed. -/
def CanStray (u : Universe) (inherit : Bool) (m : ModuleId) (segments : List String)
    (noted : List ModuleId) (found : Option Constant) : Prop :=
  ∃ v, Leads u v ∧
    (∀ k ∈ noted, (v.module k).constantsVersion = (u.module k).constantsVersion) ∧
    v.Settled inherit m segments ∧ v.scopedConstant? inherit m segments ≠ some found

/-- Where the first segment is not guarded, it can be bound anew. -/
theorem canStray_here {segment : String} (hu : u.WellFormed) (hm : u.knows m) (rest : List String)
    (found : Option Constant) (hnoted : ∀ k ∈ noted, u.knows k)
    (h : ¬(ConstantStart.inheriting m inherit).GuardedBy u noted segment) :
    u.CanStray inherit m (segment :: rest) noted found := by
  have hstart : (ConstantStart.inheriting m inherit).Known u := hm
  simp only [ConstantStart.GuardedBy, Classical.not_forall, not_or] at h
  obtain ⟨o, ho, hunnoted, hfree⟩ := h
  obtain ⟨b, hb⟩ := ConstantStart.exists_other_binding found
  obtain ⟨v, c, hl, hother, hv, hc⟩ := ConstantStart.exists_diverted hu hstart ho hfree b
  obtain ⟨hvs, hends⟩ := settled_of_truth_value rest hv hc
  refine ⟨v, hl, fun k hk => ?_, hvs, fun he => ?_⟩
  · rw [hother k (hnoted k hk) fun hko => hunnoted (hko ▸ hk)]
  · rcases hends with hend | hend
    · exact hb c hc (Option.some.inj (he.symm.trans hend))
    · rw [hend] at he
      cases he

/-- Behind a first segment that is guarded, the path strays where its rest does. -/
theorem canStray_next {segment : String} {rest : List String} {next : ModuleId}
    (hu : u.WellFormed) (hm : u.knows m)
    (hg : (ConstantStart.inheriting m inherit).GuardedBy u noted segment)
    (hs : (u.segmentBinding inherit m segment).any Constant.isAutoload = false)
    (hname : Name.isConstantName segment = true)
    (hnext : u.nextModule? inherit m segment = some next) (hrest : rest ≠ [])
    (h : u.CanStray inherit next rest noted found) :
    u.CanStray inherit m (segment :: rest) noted found := by
  have hstart : (ConstantStart.inheriting m inherit).Known u := hm
  obtain ⟨v, hl, hv, hvs, hne⟩ := h
  have hbinding : v.segmentBinding inherit m segment = u.segmentBinding inherit m segment :=
    ConstantStart.findSome?_path_of_guarded hu hstart hl hg hv hs
  have hvnext : v.nextModule? inherit m segment = some next := by
    rw [nextModule?, hbinding]
    exact hnext
  refine ⟨v, hl, hv, ⟨hbinding ▸ hs, fun k hk => ?_⟩, ?_⟩
  · obtain rfl : next = k := Option.some.inj (hvnext.symm.trans hk)
    exact hvs
  · rw [scopedConstant?_of_next hvnext hrest, hname, if_pos rfl]
    exact hne

/-- A path that is not guarded can go astray unnoticed. -/
theorem canStray_of_not_guarded (hu : u.WellFormed) (hm : u.knows m)
    (hs : u.Settled inherit m segments)
    (hfound : u.scopedConstant? inherit m segments = some found)
    (hnoted : ∀ k ∈ noted, u.knows k)
    (htables : ∀ k ∈ u.scopedTables inherit m segments, k ∈ noted)
    (hg : ¬∀ stop ∈ u.scopedStops inherit m segments,
      (ConstantStart.inheriting stop.1 inherit).GuardedBy u noted stop.2) :
    u.CanStray inherit m segments noted found := by
  induction segments generalizing m with
  | nil => cases hfound
  | cons segment rest ih =>
    by_cases hhere : (ConstantStart.inheriting m inherit).GuardedBy u noted segment
    · obtain ⟨next, hnext, hthere⟩ : ∃ next, u.nextModule? inherit m segment = some next ∧
          ¬∀ stop ∈ u.scopedStops inherit next rest,
            (ConstantStart.inheriting stop.1 inherit).GuardedBy u noted stop.2 := by
        rw [scopedStops_cons, List.forall_mem_cons, not_and] at hg
        cases hn : u.nextModule? inherit m segment with
        | none =>
          refine absurd (fun stop hstop => ?_) (hg hhere)
          rw [hn] at hstop
          cases hstop
        | some next => exact ⟨next, rfl, fun h => hg hhere (hn ▸ h)⟩
      have hrest : rest ≠ [] := by
        rintro rfl
        exact hthere fun _ h => nomatch h
      rw [scopedConstant?_of_next hnext hrest] at hfound
      rw [scopedTables_of_next hnext hrest] at htables
      split at hfound
      · next hname =>
        exact canStray_next hu hm hhere hs.1 hname hnext hrest
          (ih (knows_nextModule hu hnext) (hs.2 next hnext) hfound htables hthere)
      · cases hfound
    · exact canStray_here hu hm rest found hnoted hhere

/-! ### Results -/

section Results

variable {σ : Type} {require : String → Act σ Bool} {w w₁ : World σ} {text : String}
  {r : ConstantResult}

/-- The segments of a path, from where it starts, wait for no feature. -/
def PathSettled (u : Universe) (inherit : Bool) (m : ModuleId) (text : String) : Prop :=
  u.Settled inherit (pathStart m text) (ConstantPath.parse text).segments

instance (u : Universe) (inherit : Bool) (m : ModuleId) (text : String) :
    Decidable (u.PathSettled inherit m text) :=
  inferInstanceAs (Decidable (u.Settled _ _ _))

/-- The result of looking a settled path up can be relied on while it counts as valid, through
every later history that leaves the path settled, exactly when all that its segments depend on is
noted for the last of them or can no longer be changed. -/
theorem scoped_current_iff (hu : Reachable w.model) (hm : w.model.knows m)
    (hs : w.model.PathSettled inherit m text)
    (hr : lookupScoped require m text inherit w = .ok r w₁) :
    (∀ w', Leads w.model w'.model → w'.model.PathSettled inherit m text →
      w'.model.isValidConstant r = true →
      ∃ r' w₂, lookupScoped require m text inherit w' = .ok r' w₂ ∧
        r'.constant = r.constant) ↔
      w.model.PathGuarded inherit (pathStart m text) (ConstantPath.parse text).segments := by
  have hstart := knows_pathStart hu.wellFormed hm text
  obtain ⟨found, hfound, rfl⟩ := (hr ▸ lookupScoped_apply require m text hs).of_ok
  constructor
  · intro h
    refine Decidable.by_contra fun hg => ?_
    obtain ⟨v, hl, hv, hvs, hne⟩ := canStray_of_not_guarded hu.wellFormed hstart hs hfound
      (fun k hk => knows_scopedTables hu.wellFormed hstart hk) (fun _ hk => hk) hg
    obtain ⟨r', w₂, hr', hsame⟩ :=
      h { w with model := v } hl hvs (isValidConstant_scopedResult.2 hv)
    have hwalk := lookupScoped_apply (w := { w with model := v }) require m text hvs
    obtain ⟨found', hfound', rfl⟩ := (hr' ▸ hwalk).of_ok
    exact hne (hfound'.trans (congrArg some hsame))
  · intro hg w' hl hvs hvalid
    have hsame := scopedConstant?_of_guarded hu.wellFormed hstart hl
      (isValidConstant_scopedResult.1 hvalid) hs hg
    obtain ⟨w₂, hr'⟩ := (lookupScoped_apply require m text hvs).ok (hsame.trans hfound)
    exact ⟨_, w₂, hr', rfl⟩

end Results

/-- A path of two segments, and another module that its first segment can be bound to. -/
def twoPaths : Universe :=
  (create {}).afterAll [.newModule, .newModule, .setConstant ⟨12⟩ "B" (.int 1) none,
    .setConstant ⟨13⟩ "B" (.int 2) none, .setConstant Core.object "A" (.module ⟨12⟩) none]

/-- The same with toplevel frozen. -/
def frozenRoot : Universe := twoPaths.after (.freezeModule Core.object)

/-- The first segment bound to the other module. -/
def rebinding : Move := .setConstant Core.object "A" (.module ⟨13⟩) none

theorem reachable_twoPaths : Reachable twoPaths := by
  refine (Reachable.create {}).afterAll _ ⟨trivial, trivial, ⟨?_, trivial⟩, ⟨?_, trivial⟩,
    ⟨?_, (by decide +kernel : Universe.knows _ _)⟩, trivial⟩
  all_goals decide +kernel

/-- Where toplevel is frozen, the first segment cannot be bound anew. -/
theorem current_of_frozen_root : ∃ r w₁ r' w₂,
    lookupScoped (fun _ => return false) Core.object "A::B" true ⟨frozenRoot, ⟨1⟩, (), []⟩ =
        .ok r w₁ ∧
      lookupScoped (fun _ => return false) Core.object "A::B" true
        ⟨frozenRoot.after rebinding, ⟨2⟩, (), []⟩ = .ok r' w₂ ∧ r'.constant = r.constant := by
  have hreach : Reachable frozenRoot :=
    reachable_twoPaths.leads (.of_move (by decide +kernel : Universe.knows _ _))
  have hs : frozenRoot.PathSettled true Core.object "A::B" := by decide +kernel
  have hl : Leads frozenRoot (frozenRoot.after rebinding) :=
    .of_move ⟨by decide +kernel, (by decide +kernel : Universe.knows _ _)⟩
  obtain ⟨c, hc⟩ := Option.isSome_iff_exists.1 (by decide +kernel : (frozenRoot.scopedConstant?
    true (pathStart Core.object "A::B") (ConstantPath.parse "A::B").segments).isSome = true)
  obtain ⟨w₁, hr⟩ := (lookupScoped_apply (w := ⟨frozenRoot, ⟨1⟩, (), []⟩) (fun _ => return false)
    Core.object "A::B" hs).ok hc
  have hcurrent := (scoped_current_iff hreach (by decide +kernel) hs hr).2 (by decide +kernel)
  obtain ⟨r', w₂, hr', hsame⟩ := hcurrent ⟨frozenRoot.after rebinding, ⟨2⟩, (), []⟩ hl
    (by decide +kernel) (isValidConstant_scopedResult.2 (by decide +kernel))
  exact ⟨_, w₁, r', w₂, hr, hr', hsame⟩

/-- The result notes the table of the module that the first segment led to, but not the table that
binds the first segment. -/
theorem not_current_of_rebound_segment : Reachable twoPaths ∧ twoPaths.knows Core.object ∧
    Leads twoPaths (twoPaths.after rebinding) ∧ twoPaths.PathSettled true Core.object "A::B" ∧
    (twoPaths.after rebinding).PathSettled true Core.object "A::B" ∧ ∃ r w₁ r' w₂,
      lookupScoped (fun _ => return false) Core.object "A::B" true ⟨twoPaths, ⟨1⟩, (), []⟩ =
          .ok r w₁ ∧
        lookupScoped (fun _ => return false) Core.object "A::B" true
          ⟨twoPaths.after rebinding, ⟨1⟩, (), []⟩ = .ok r' w₂ ∧
        (twoPaths.after rebinding).isValidConstant r = true ∧
        r.constant.bind Constant.value? = some (.int 1) ∧
        r'.constant.bind Constant.value? = some (.int 2) := by
  have hl : Leads twoPaths (twoPaths.after rebinding) :=
    .of_move ⟨by decide +kernel, (by decide +kernel : Universe.knows _ _)⟩
  have hs : twoPaths.PathSettled true Core.object "A::B" := by decide +kernel
  have hv : (twoPaths.after rebinding).PathSettled true Core.object "A::B" := by decide +kernel
  obtain ⟨c, hc, hone⟩ := Option.map_eq_some_iff.1 (by decide +kernel :
    (twoPaths.scopedConstant? true (pathStart Core.object "A::B")
      (ConstantPath.parse "A::B").segments).map (·.bind Constant.value?) = some (some (.int 1)))
  obtain ⟨d, hd, htwo⟩ := Option.map_eq_some_iff.1 (by decide +kernel :
    ((twoPaths.after rebinding).scopedConstant? true (pathStart Core.object "A::B")
      (ConstantPath.parse "A::B").segments).map (·.bind Constant.value?) = some (some (.int 2)))
  obtain ⟨w₁, hr⟩ := (lookupScoped_apply (w := ⟨twoPaths, ⟨1⟩, (), []⟩) (fun _ => return false)
    Core.object "A::B" hs).ok hc
  obtain ⟨w₂, hr'⟩ := (lookupScoped_apply (w := ⟨twoPaths.after rebinding, ⟨1⟩, (), []⟩)
    (fun _ => return false) Core.object "A::B" hv).ok hd
  exact ⟨reachable_twoPaths, by decide +kernel, hl, hs, hv, _, w₁, _, w₂, hr, hr',
    isValidConstant_scopedResult.2 (by decide +kernel), hone, htwo⟩

end Universe

end ObjectModel
