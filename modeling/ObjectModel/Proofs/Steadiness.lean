import ObjectModel.Proofs.Drift

/-!
# Steadiness

Every move but mixing in is a drift: it keeps the universe well-formed, and the chains of all
modules as they are.

* `keeps_changeModule`, `drifts_allocate`, `drifts_adopt` and their kin: the building blocks;
* `drifts_singletonClass`, `keeps_copyModule`, `keeps_openRefinement`: operations in several
  steps;
* `drifts_after`: the moves that do not mix in.
-/

namespace ObjectModel.Universe

variable {u : Universe}

/-! ### Reports and serial numbers -/

theorem keeps_report (e : Event) : Change.Keeps (Drifts u) (report e) :=
  fun _ h => h.neutral rfl rfl rfl

theorem keeps_reportNow (e : Universe → Event) : Change.Keeps (Drifts u) (reportNow e) :=
  fun _ h => h.neutral rfl rfl rfl

theorem keeps_freshSerial : Change.Keeps (Drifts u) freshSerial :=
  fun _ h => h.neutral rfl rfl rfl

theorem keeps_holdMethod (f : Method) : Change.Keeps (Drifts u) (holdMethod f) :=
  Change.keeps_holdMethod keeps_freshSerial f

theorem keeps_holdContext (c : Context) : Change.Keeps (Drifts u) (holdContext c) :=
  Change.keeps_holdContext keeps_freshSerial c

theorem keeps_holdMethods (t : Table String Method) : Change.Keeps (Drifts u) (holdMethods t) :=
  fun _ h => h.neutral rfl rfl rfl

theorem nextId_holdContext (c : Context) (v : Universe) :
    (holdContext c v).2.nextId = v.nextId := by
  unfold holdContext
  cases c.stamp <;> rfl

theorem known_holdMethod {v : Universe} {f : Method} (hf : f.Known v) (w : Universe) :
    (holdMethod f w).1.Known v := by
  unfold holdMethod
  cases f.stamp with
  | some _ => exact hf
  | none => exact Method.known_stamp _ hf

theorem known_holdContext {v : Universe} {c : Context} (hc : c.Known v) (w : Universe) :
    (holdContext c w).1.Known v := by
  unfold holdContext
  cases c.stamp with
  | some _ => exact hc
  | none => exact ⟨hc.definee, hc.refined, hc.active⟩

theorem known_holdMethods {v : Universe} {t : Table String Method}
    (ht : ∀ name f, t.find? name = some f → f.Known v) (w : Universe) (name : String) (f : Method)
    (hf : (holdMethods t w).1.find? name = some f) : f.Known v := by
  obtain ⟨g, hg, rfl⟩ := Option.map_eq_some_iff.1 ((Table.find?_mapValues _ t name).symm.trans hf)
  split
  · exact ht name g hg
  · exact Method.known_stamp _ (ht name g hg)

/-! ### Records -/

theorem keeps_changeModule {m : ModuleId} {f : Module → Module} (hm : u.knows m)
    (hf : ∀ v, Drifts u v → (v.module m).Edited v (f (v.module m))) :
    Change.Keeps (Drifts u) (changeModule m f) :=
  fun v h => h.edit (knows_mono h.follows.nextId hm) (hf v h)

/-- A changed constant table, with values that exist. -/
theorem drifts_changeConstants {v : Universe} (h : Drifts u v) {m : ModuleId} (hm : u.knows m)
    {f : Table String Constant → Table String Constant}
    (hf : ∀ name c x, (f (v.module m).constants).find? name = some c → c.value? = some x →
      (v.module m).constants.find? name = some c ∨ x.Known v) :
    Drifts u (changeConstants m f v).2 := by
  refine h.edit (knows_mono h.follows.nextId hm) (.constants fun hr name c x hc hx => ?_)
  rcases hf name c x hc hx with hold | hnew
  · exact hr.constants name c x hold hx
  · exact hnew

theorem drifts_insertConstant {v : Universe} (h : Drifts u v) {m : ModuleId} (hm : u.knows m)
    (name : String) {c : Constant} (hc : ∀ x, c.value? = some x → x.Known v) :
    Drifts u (changeConstants m (·.insert name c) v).2 := by
  refine drifts_changeConstants h hm fun k d x hd hx => ?_
  rw [Table.find?_insert] at hd
  split at hd
  · exact .inr (hc x (Option.some.inj hd ▸ hx))
  · exact .inl hd

/-- A change of the version only. -/
theorem drifts_touchConstants {v : Universe} (h : Drifts u v) {m : ModuleId} (hm : u.knows m) :
    Drifts u (changeConstants m id v).2 :=
  drifts_changeConstants h hm fun _ _ _ hd _ => .inl hd

/-- The value of a constant that is bound exists. -/
theorem known_value {v : Universe} (h : Drifts u v) {m : ModuleId} (hm : u.knows m)
    {name : String} {c : Constant} {x : Value} (hc : v.ownConstant m name = some c)
    (hx : c.value? = some x) : x.Known v :=
  (h.wellFormed.modules m (knows_mono h.follows.nextId hm)).constants name c x hc hx

theorem drifts_allocate {v : Universe} (h : Drifts u v) (kind : ModuleKind) (chain : Chain)
    (hp : ∀ p, chain.parent = some p → v.knows p) (hc : chain.Fresh u) :
    Drifts u (allocate kind chain v).2 := by
  refine h.birth ⟨fun m hm => ?_, hp, ?_, ?_, ?_, ?_⟩ hc
  · rcases hc with hn | ⟨s, hs, rfl⟩
    · rw [hn] at hm
      cases hm
    · rw [← h.chain s hs] at hm
      exact (h.wellFormed.modules s (knows_mono h.follows.nextId hs)).mixins m hm
  · exact fun _ _ hf => nomatch hf
  · exact fun _ _ hs => nomatch hs
  · exact fun _ hs => nomatch hs
  · exact fun _ _ _ hc => nomatch hc

theorem knows_allocate (kind : ModuleKind) (chain : Chain) (v : Universe) :
    (allocate kind chain v).2.knows (allocate kind chain v).1 := Nat.lt_succ_self _

/-! ### Names -/

/-- Naming changes names only. -/
theorem drifts_nameAll {v : Universe} (h : Drifts u v) (work : List (String × ModuleId)) :
    Drifts u (v.nameAll work) := by
  fun_induction nameAll v work with
  | case1 v => exact h
  | case2 v fullName m rest hn ih => exact ih h
  | case3 v fullName m rest r hr hn ih =>
    refine ih (h.edit ?_ ?_)
    · -- naming goes past numbers without a record
      refine Decidable.by_contra fun hm => ?_
      rw [h.wellFormed.strangers m hm] at hr
      cases hr
    · have he : v.module m = r := by rw [Universe.module, hr]; rfl
      rw [he]
      exact .name r _
  | case4 v fullName m rest r hr hn ih => exact ih h

theorem drifts_adopt {v : Universe} (h : Drifts u v) (parent : ModuleId) (name : String)
    (m : ModuleId) : Drifts u (v.adopt parent name m) := by
  unfold adopt
  split
  · exact drifts_nameAll h _
  · split
    · exact drifts_nameAll h _
    · exact h

/-! ### Singleton classes -/

theorem singletonClass_of_some {v : Universe} {m s : ModuleId}
    (h : (v.module m).singleton = some s) : singletonClass m v = (s, v) := by
  rw [singletonClass, Change.get_bind, h]
  rfl

/-- The class that a new singleton class of a module inherits from. -/
def singletonSuper (m : ModuleId) : Change ModuleId := do
  let r := (← get).module m
  if r.isClass then
    match r.chain.parent with
    | some p => if p.num < m.num then singletonClass p else pure Core.cls
    | none => pure Core.cls
  else pure Core.module

theorem singletonClass_of_none {v : Universe} {m : ModuleId}
    (h : (v.module m).singleton = none) :
    singletonClass m v = (do
      let superclass ← singletonSuper m
      let s ← allocate (.cls (some (.module m))) { parent := some superclass }
      changeModule m fun r => { r with singleton := some s }
      return s : Change ModuleId) v := by
  rw [singletonClass, Change.get_bind, h]
  unfold singletonSuper
  rw [Change.bind_apply, Change.get_bind]
  cases (v.module m).isClass with
  | false => rfl
  | true =>
    cases (v.module m).chain.parent with
    | none => rfl
    | some p => by_cases hp : p.num < m.num <;> simp only [hp] <;> rfl

theorem module_allocate {v : Universe} (kind : ModuleKind) (chain : Chain) {m : ModuleId}
    (hm : v.knows m) : (allocate kind chain v).2.module m = v.module m := by
  refine module_setModule_of_ne v ?_ _
  rintro rfl
  exact Nat.lt_irrefl _ hm

/-- Making a singleton class leaves younger modules alone. -/
theorem drifts_singletonClass {v : Universe} (h : Drifts u v) {m : ModuleId} (hm : v.knows m) :
    Drifts u (singletonClass m v).2 ∧ (singletonClass m v).2.knows (singletonClass m v).1 ∧
      ∀ n, v.knows n → m.num < n.num → (singletonClass m v).2.knows n ∧
        (singletonClass m v).2.module n = v.module n := by
  cases hs : (v.module m).singleton with
  | some s =>
    rw [singletonClass_of_some hs]
    exact ⟨h, (h.wellFormed.modules m hm).singleton s hs, fun _ hn _ => ⟨hn, rfl⟩⟩
  | none =>
    have hcore {n : ModuleId} (hn : n.num ≤ coreChains.length) : v.knows n :=
      Nat.lt_of_le_of_lt hn h.wellFormed.core
    obtain ⟨hd, hk, hsame⟩ : Drifts u (singletonSuper m v).2 ∧
        (singletonSuper m v).2.knows (singletonSuper m v).1 ∧
        ∀ n, v.knows n → m.num ≤ n.num → (singletonSuper m v).2.knows n ∧
          (singletonSuper m v).2.module n = v.module n := by
      unfold singletonSuper
      rw [Change.get_bind]
      split
      · cases hp : (v.module m).chain.parent with
        | none => exact ⟨h, hcore (n := Core.cls) (by decide), fun _ hn _ => ⟨hn, rfl⟩⟩
        | some p =>
          have hpm := h.wellFormed.older m p hm hp
          have hpk := (h.wellFormed.modules m hm).parent p hp
          obtain ⟨hd, hk, hsame⟩ := drifts_singletonClass h hpk
          simp only [if_pos hpm]
          exact ⟨hd, hk, fun n hn hmn => hsame n hn (Nat.lt_of_lt_of_le hpm hmn)⟩
      · exact ⟨h, hcore (n := Core.module) (by decide), fun _ hn _ => ⟨hn, rfl⟩⟩
    rw [singletonClass_of_none hs, Change.bind_apply]
    generalize singletonSuper m v = made at hd hk hsame
    obtain ⟨p, w⟩ := made
    have hparent (q : ModuleId) (hq : some p = some q) : w.knows q := Option.some.inj hq ▸ hk
    have hborn := drifts_allocate hd (.cls (some (.module m)))
      { parent := some p } hparent (.inl rfl)
    have hkeep {n : ModuleId} (hn : w.knows n) := module_allocate (.cls (some (.module m)))
      { parent := some p } hn
    obtain ⟨hmw, hms⟩ := hsame m hm (Nat.le_refl _)
    refine ⟨hborn.edit (Nat.lt_succ_of_lt hmw) (.singleton (Nat.lt_succ_self _) ?_), ?_, ?_⟩
    · rw [hkeep hmw, hms, hs]
    · exact Nat.lt_succ_self _
    · intro n hn hmn
      obtain ⟨hnw, hns⟩ := hsame n hn (Nat.le_of_lt hmn)
      refine ⟨Nat.lt_succ_of_lt hnw, ?_⟩
      have hne : m ≠ n := fun he => Nat.lt_irrefl _ (he ▸ hmn)
      exact (module_setModule_of_ne _ hne _).trans ((hkeep hnw).trans hns)
termination_by m.num

theorem drifts_objectSingletonClass {v : Universe} (h : Drifts u v) {o : ObjectId}
    (ho : v.knowsObject o) : Drifts u (objectSingletonClass o v).2 := by
  unfold objectSingletonClass
  rw [Change.get_bind]
  cases hs : (v.object o).singleton with
  | some s => exact h
  | none =>
    have hk := h.wellFormed.objects o ho
    have hborn := drifts_allocate h (.cls (some (.object o)))
      { parent := some (v.object o).cls }
      (fun _ hp => Option.some.inj hp ▸ hk.cls) (.inl rfl)
    refine hborn.editObject (Nat.lt_succ_of_lt ho) ⟨rfl, fun s he => ?_⟩ ⟨?_, fun s he => ?_⟩
    · cases hs.symm.trans he
    · exact knows_mono (Nat.le_succ v.nextId) hk.cls
    · exact Option.some.inj he ▸ Nat.lt_succ_self _

/-! ### Copies -/

/-- Copying a module whose record is given. -/
def copyRecord (source : ModuleId) (r : Module) : Update ModuleId := do
  let copy ← allocate r.kind r.chain
  let methods ← holdMethods (r.methods.mapValues fun _ f => f.withDeclaringModule copy)
  changeModule copy fun k =>
    ({ k with methods, classVariables := r.classVariables } : Module).updateConstants
      fun _ => r.constants
  reportNow fun u => .copiedModule (u.display source) (u.display copy)
  return copy

/-- The record of a copy is complete before anything else can refer to it. -/
theorem drifts_copyRecord {v : Universe} (h : Drifts u v) (source : ModuleId) {r : Module}
    (hr : r.Known v) (hc : r.chain.Fresh u) :
    Drifts u (Update.final (copyRecord source r) v) := by
  have hborn := drifts_allocate h r.kind r.chain hr.parent hc
  have hself := knows_allocate r.kind r.chain v
  have hnew : ¬u.knows (allocate r.kind r.chain v).1 := Nat.not_lt_of_le h.follows.nextId
  have hgrown : v.nextId ≤ (allocate r.kind r.chain v).2.nextId := Nat.le_succ _
  unfold copyRecord
  rw [Update.final_lift_bind]
  generalize allocate r.kind r.chain v = made at hborn hself hnew hgrown
  obtain ⟨copy, w⟩ := made
  let t := r.methods.mapValues fun _ f => f.withDeclaringModule copy
  have hcopied : ∀ name f, t.find? name = some f → f.Known w := by
    intro name f hf
    obtain ⟨g, hg, rfl⟩ := Option.map_eq_some_iff.1 ((Table.find?_mapValues _ _ _).symm.trans hf)
    exact Method.known_withDeclaringModule hself (Method.known_mono hgrown (hr.methods name g hg))
  have hheld := keeps_holdMethods t w hborn
  have hrec := hheld.wellFormed.modules copy hself
  have hle : w.nextId ≤ (holdMethods t w).2.nextId := Nat.le_refl _
  have hmethods (name f) (hf : (holdMethods t w).1.find? name = some f) :
      f.Known (holdMethods t w).2 := Method.known_mono hle (known_holdMethods hcopied w name f hf)
  have hconstants (name c x) (hc : r.constants.find? name = some c) (hx : c.value? = some x) :
      x.Known (holdMethods t w).2 := Value.known_mono hgrown (hr.constants name c x hc hx)
  have hfilled := hheld.rewrite hself (r := ({ (holdMethods t w).2.module copy with
    methods := (holdMethods t w).1, classVariables := r.classVariables } : Module).updateConstants
      fun _ => r.constants) (fun hu => absurd hu hnew) rfl
    ⟨hrec.mixins, hrec.parent, hmethods, hrec.refinements, hrec.singleton, hconstants⟩
  exact hfilled.neutral rfl rfl rfl

/-- A copy refers to what its source refers to. -/
theorem keeps_copyModule {m : ModuleId} (hm : u.knows m) :
    Update.Keeps (Drifts u) (copyModule m) := by
  unfold copyModule
  refine Update.keeps_guard fun _ => Update.keeps_get_bind fun v h => ?_
  have hr := h.wellFormed.modules m (knows_mono h.follows.nextId hm)
  have hcopy := drifts_copyRecord h m hr (.inr ⟨m, hm, h.chain m hm⟩)
  unfold copyRecord at hcopy
  generalize v.module m = r at hcopy
  obtain ⟨kind⟩ := r
  cases kind with
  | plain => exact hcopy
  | refinement _ _ => exact h
  | cls attached =>
    cases attached with
    | none => exact hcopy
    | some _ => exact h

/-! ### Refinements -/

theorem drifts_refinementOf {v : Universe} (h : Drifts u v) {n t : ModuleId} (hn : v.knows n)
    (ht : v.knows t) :
    Drifts u (refinementOf n t v).2 ∧ (refinementOf n t v).2.knows (refinementOf n t v).1 := by
  unfold refinementOf
  rw [Change.get_bind]
  cases hr : (v.module n).refinements.find? t with
  | some r => exact ⟨h, ((h.wellFormed.modules n hn).refinements t r hr).2⟩
  | none =>
    have hborn := drifts_allocate h (.refinement t n) { parent := some t }
      (fun _ hp => Option.some.inj hp ▸ ht) (.inl rfl)
    have hgrown : v.nextId ≤ (allocate (.refinement t n) { parent := some t } v).2.nextId :=
      Nat.le_succ _
    have hself := knows_allocate (.refinement t n) { parent := some t } v
    have hnoted := hborn.edit (knows_mono hgrown hn)
      (.refinement (knows_mono hgrown ht) hself _)
    exact ⟨hnoted.neutral rfl rfl rfl, hself⟩

theorem drifts_redeclare {v : Universe} (h : Drifts u v) {r : ModuleId} (hr : v.knows r)
    {c : Context} (hc : c.Known v) : Drifts u (redeclare r c v).2 := by
  unfold redeclare
  rw [Change.get_bind]
  split
  · let t := (v.module r).methods.mapValues fun _ f => f.withContext c
    have ht : ∀ name f, t.find? name = some f → f.Known v := by
      intro name f hf
      obtain ⟨g, hg, rfl⟩ := Option.map_eq_some_iff.1 ((Table.find?_mapValues _ _ _).symm.trans hf)
      exact Method.known_withContext hc ((h.wellFormed.modules r hr).methods name g hg)
    have hheld := keeps_holdMethods t v h
    have hle : v.nextId ≤ (holdMethods t v).2.nextId := Nat.le_refl _
    have hmethods (name f) (hf : (holdMethods t v).1.find? name = some f) :
        f.Known (holdMethods t v).2 := Method.known_mono hle (known_holdMethods ht v name f hf)
    have hstored := hheld.edit hr (.methods (f := fun _ => (holdMethods t v).1) fun _ => hmethods)
    exact hstored.neutral rfl rfl rfl
  · exact h

theorem nextId_redeclare (r : ModuleId) (c : Context) (v : Universe) :
    (redeclare r c v).2.nextId = v.nextId := by
  unfold redeclare
  rw [Change.get_bind]
  split <;> rfl

/-- The context for the body of a refinement is about the refinements of its namespace. -/
theorem known_refinementContext {v : Universe} (h : v.WellFormed) {n r : ModuleId}
    (hn : v.knows n) (hr : v.knows r) : (v.refinementContext n r).Known v where
  definee _ hm := Definee.fixed.inj hm ▸ hr
  refined e he := by
    obtain ⟨e', he', rfl⟩ := List.mem_map.1 he
    exact ((h.modules n hn).refinements e'.1 e'.2 (Table.mem_entries_iff.1 he')).1
  active e he s hs := by
    obtain ⟨e', he', rfl⟩ := List.mem_map.1 he
    rw [List.mem_singleton.1 hs]
    exact ((h.modules n hn).refinements e'.1 e'.2 (Table.mem_entries_iff.1 he')).2

theorem known_withDefinee {v : Universe} {c : Context} (hc : c.Known v) {m : ModuleId}
    (hm : v.knows m) : (c.withDefinee (.fixed m)).Known v := by
  unfold Context.withDefinee
  split
  · exact hc
  · exact ⟨fun _ he => Definee.fixed.inj he ▸ hm, hc.refined, hc.active⟩

theorem keeps_openRefinement {n t : ModuleId} (hn : u.knows n) (ht : u.knows t) :
    Update.Keeps (Drifts u) (openRefinement n t) := by
  unfold openRefinement
  refine Update.keeps_get_bind fun v h => ?_
  refine Update.keeps_guard (fun _ => Update.keeps_bind (Update.keeps_checkMutable n) ?_) v h
  intro _ w hw
  rw [Update.final_lift_bind]
  have hle := hw.follows.nextId
  obtain ⟨hd, hr⟩ := drifts_refinementOf hw (knows_mono hle hn) (knows_mono hle ht)
  generalize refinementOf n t w = made at hd hr
  obtain ⟨r, x⟩ := made
  have hnx := knows_mono hd.follows.nextId hn
  have hc := known_holdContext (known_refinementContext hd.wellFormed hnx hr) x
  have hx := keeps_holdContext (x.refinementContext n r) x hd
  have hnext := nextId_holdContext (x.refinementContext n r) x
  -- no step of the loop makes a module, so what is known at its start is all that is known
  refine (Update.keeps_bind (I := fun y => Drifts u y ∧ y.nextId = x.nextId)
    (Update.keeps_forM fun s hs => ?_) (fun _ => Update.keeps_pure _) _ ⟨hx, hnext⟩).1
  intro y ⟨hy, he⟩
  rw [Update.final_lift_bind]
  have hxy : x.nextId ≤ y.nextId := Nat.le_of_eq he.symm
  obtain ⟨e, hm, rfl⟩ := List.mem_map.1 hs
  have hsx := ((hd.wellFormed.modules n hnx).refinements _ _ (Table.mem_entries_iff.1 hm)).2
  have hown := known_holdContext (known_withDefinee hc hsx) y
  generalize (holdContext (x.refinementContext n r) x).1.withDefinee (.fixed e.2) = c at hown ⊢
  have hheld := keeps_holdContext c y hy
  have hstep := nextId_holdContext c y
  generalize holdContext c y = held at hown hheld hstep ⊢
  obtain ⟨own, z⟩ := held
  have hxz : x.nextId ≤ z.nextId := Nat.le_trans hxy (Nat.le_of_eq hstep.symm)
  refine ⟨drifts_redeclare hheld (knows_mono hxz hsx) (Context.known_mono hxz hown), ?_⟩
  exact (nextId_redeclare _ _ _).trans (hstep.trans he)

/-! ### Methods -/

theorem keeps_addMethod {m : ModuleId} {f : Method} (hm : u.knows m) (hf : f.Known u) :
    Update.Keeps (Drifts u) (addMethod m f) := by
  refine Update.keeps_checked fun v h => ?_
  rw [Update.final_lift_bind]
  have hheld := keeps_holdMethod (f.withBuiltIn !v.options.coreLoaded) v h
  have hknown := known_holdMethod (Method.known_withBuiltIn (!v.options.coreLoaded) hf) v
  generalize holdMethod (f.withBuiltIn !v.options.coreLoaded) v = held at hheld hknown
  obtain ⟨g, w⟩ := held
  refine Update.keeps_bind (Update.keeps_lift (keeps_changeModule hm fun x hx => ?_))
    (fun _ => Update.keeps_lift (keeps_reportNow _)) w hheld
  refine .methods fun hr name k hk => ?_
  rw [Table.find?_insert] at hk
  split at hk
  · cases hk
    exact Method.known_mono hx.follows.nextId hknown
  · exact hr.methods name k hk

theorem keeps_removeMethod {m : ModuleId} (hm : u.knows m) (name : String) :
    Update.Keeps (Drifts u) (removeMethod m name) := by
  refine Update.keeps_checked fun v h => ?_
  cases v.ownMethod m name with
  | none => exact h
  | some f =>
    refine Update.keeps_bind (Update.keeps_lift (keeps_changeModule hm fun x hx => ?_))
      (fun _ => Update.keeps_lift (keeps_reportNow _)) v h
    refine .methods fun hr k g hg => ?_
    rw [Table.find?_erase] at hg
    split at hg
    · cases hg
    · exact hr.methods k g hg

/-! ### Constants and class variables -/

theorem keeps_checkConstantName (name : String) :
    Update.Keeps (Drifts u) (checkConstantName name) :=
  Update.keeps_ite (fun _ => Update.keeps_pure ()) fun _ => Update.keeps_throw _

theorem value?_assigned (previous : Option Constant) (m : ModuleId) (name : String) (x : Value)
    (source : Option SourceLocation) : (assigned previous m name x source).value? = some x := by
  cases previous <;> rfl

theorem keeps_setConstant {m : ModuleId} (hm : u.knows m) (name : String) {x : Value}
    (hx : x.Known u) (source : Option SourceLocation) :
    Update.Keeps (Drifts u) (setConstant m name x source) := by
  refine Update.keeps_checked fun v h => ?_
  have hset := drifts_insertConstant h hm name
    (c := assigned (v.ownConstant m name) m name x source) fun y hy =>
      Option.some.inj ((value?_assigned _ m name x source).symm.trans hy) ▸
        Value.known_mono h.follows.nextId hx
  show Drifts u (Update.final ((liftM (changeConstants m _) : Update Unit) >>= _) v)
  rw [Update.final_lift_bind]
  suffices hrest : Update.Keeps (Drifts u) _ from hrest _ hset
  cases x with
  | module child =>
    exact Update.keeps_reported keeps_reportNow fun w hw => drifts_adopt hw m name child
  | nil | bool | int | symbol | string | object =>
    exact Update.keeps_reported keeps_reportNow (Update.keeps_pure _)

theorem keeps_removeConst {m : ModuleId} (hm : u.knows m) (name : String) :
    Update.Keeps (Drifts u) (removeConst m name) := by
  refine Update.keeps_bind (keeps_checkConstantName name) fun _ =>
    Update.keeps_bind (Update.keeps_checkMutable m) fun _ => Update.keeps_get_bind fun v h => ?_
  refine Update.keeps_bind (Update.keeps_lift fun w hw => ?_) (fun _ => ?_) v h
  · refine drifts_changeConstants hw hm fun k d x hd _ => .inl ?_
    rw [Table.find?_erase] at hd
    split at hd
    · cases hd
    · exact hd
  · cases v.ownConstant m name with
    | none => exact Update.keeps_throw _
    | some c =>
      exact Update.keeps_bind (Update.keeps_lift (keeps_reportNow _)) fun _ => Update.keeps_pure _

/-- Changing constants other than in their values. -/
theorem keeps_updateConstants {m : ModuleId} (hm : u.knows m) (names : List String)
    {f : Constant → Constant} (hf : ∀ c, (f c).value? = c.value?) :
    Update.Keeps (Drifts u) (updateConstants m names f) := by
  refine Update.keeps_bind (Update.keeps_checkMutable m) fun _ => Update.keeps_forM fun name _ => ?_
  refine Update.keeps_bind (keeps_checkConstantName name) fun _ => ?_
  refine Update.keeps_get_bind fun v h => ?_
  cases hc : v.ownConstant m name with
  | none => exact drifts_touchConstants h hm
  | some c =>
    refine drifts_insertConstant h hm name fun x hx => ?_
    exact known_value h hm hc ((hf c).symm.trans hx)

theorem keeps_registerAutoload {m : ModuleId} (hm : u.knows m) (name feature : String) :
    Update.Keeps (Drifts u) (registerAutoload m name feature) := by
  refine Update.keeps_bind (keeps_checkConstantName name) fun _ => Update.keeps_guard fun _ =>
    Update.keeps_checked fun v h => ?_
  have htouched : Change.Keeps (Drifts u) (changeConstants m id) :=
    fun w hw => drifts_touchConstants hw hm
  refine Update.keeps_ite (fun _ => Update.keeps_lift htouched) (fun _ => ?_) v h
  have hmade : Change.Keeps (Drifts u) (allocateAutoload feature) :=
    fun w hw => hw.neutral rfl rfl rfl
  refine Update.keeps_bind (Update.keeps_lift hmade) fun a => Update.keeps_bind
    (Update.keeps_lift fun w hw => ?_) fun _ => Update.keeps_lift (keeps_reportNow _)
  exact drifts_insertConstant hw hm name fun _ hx => nomatch hx

theorem keeps_settleAutoload {m : ModuleId} (hm : u.knows m) (name : String) :
    Change.Keeps (Drifts u) (settleAutoload m name) := by
  refine Change.keeps_get_bind fun v h => ?_
  cases v.ownConstant m name with
  | none => exact h
  | some c =>
    obtain ⟨declaring, own, binding⟩ := c
    cases binding with
    | value _ | undefined => exact h
    | autoload a => exact drifts_insertConstant h hm name fun _ hx => nomatch hx

theorem keeps_setClassVariable {m : ModuleId} (hm : u.knows m) (name : String) (x : Value) :
    Update.Keeps (Drifts u) (setClassVariable m name x) := by
  refine Update.keeps_checked fun v h => ?_
  cases hn : v.classVariableHolder? m name with
  | none =>
    exact Update.keeps_bind
      (Update.keeps_lift (keeps_changeModule hm fun _ _ => .classVariables _ _))
      (fun _ => Update.keeps_lift (keeps_reportNow _)) v h
  | some n =>
    -- only a record that exists binds a variable
    have hk : v.knows n := by
      refine Decidable.by_contra fun hk => ?_
      have hbound := List.find?_some hn
      rw [ownClassVariable, h.wellFormed.module_stranger hk] at hbound
      cases hbound
    exact h.edit hk (.classVariables _ _)

theorem keeps_removeClassVariable {m : ModuleId} (hm : u.knows m) (name : String) :
    Update.Keeps (Drifts u) (removeClassVariable m name) := by
  have hname : Update.Keeps (Drifts u) (checkClassVariableName m name) := by
    unfold checkClassVariableName
    split
    · exact Update.keeps_get_bind fun v h => h
    · exact Update.keeps_pure ()
  refine Update.keeps_bind hname fun _ => Update.keeps_checked fun v h => ?_
  cases v.ownClassVariable m name with
  | none => exact h
  | some x =>
    exact Update.keeps_bind
      (Update.keeps_lift (keeps_changeModule hm fun _ _ => .classVariables _ _))
      (fun _ => Update.keeps_bind (Update.keeps_lift (keeps_reportNow _))
        fun _ => Update.keeps_pure _) v h

/-! ### Moves -/

theorem keeps_newClass (hu : u.WellFormed) {s : Option ModuleId}
    (hs : ∀ m, s = some m → u.knows m) : Update.Keeps (Drifts u) (newClass s) := by
  have hbirth {p : ModuleId} (hp : u.knows p) :
      Change.Keeps (Drifts u) (allocate (.cls none) { parent := some p }) := by
    refine fun v h => drifts_allocate h _ _ (fun q hq => ?_) (.inl rfl)
    exact Option.some.inj hq ▸ knows_mono h.follows.nextId hp
  unfold newClass
  cases s with
  | none => exact Update.keeps_lift (hbirth (Nat.lt_of_le_of_lt (by decide) hu.core))
  | some p =>
    refine Update.keeps_get_bind fun v h => ?_
    refine Update.keeps_guard (fun _ => Update.keeps_guard fun _ => ?_) v h
    refine Update.keeps_guard fun _ => ?_
    exact Update.keeps_lift (hbirth (hs p rfl))

theorem keeps_newObject {m : ModuleId} (hm : u.knows m) :
    Update.Keeps (Drifts u) (newObject m) := by
  refine Update.keeps_get_bind fun v h => ?_
  refine Update.keeps_guard (fun _ => Update.keeps_guard fun _ => ?_) v h
  refine Update.keeps_bind (Update.keeps_lift fun w hw => ?_) fun _ => Update.keeps_pure _
  exact hw.birthObject ⟨knows_mono hw.follows.nextId hm, fun _ hs => nomatch hs⟩

theorem keeps_neutral {f : Universe → Universe} (hm : ∀ v, (f v).modules = v.modules)
    (ho : ∀ v, (f v).objects = v.objects) (hn : ∀ v, (f v).nextId = v.nextId) :
    Update.Keeps (Drifts u) (modify f) :=
  fun v h => h.neutral (hm v) (ho v) (hn v)

/-- Every move but mixing in is a drift. -/
theorem drifts_after (hu : u.WellFormed) {mv : Move} (hk : mv.Known u) (hm : ¬mv.Mixes) :
    Drifts u (u.after mv) := by
  suffices h : Update.Keeps (Drifts u) mv.run from h u (.refl hu)
  cases mv with
  | newModule =>
    exact Update.keeps_discard (Update.keeps_lift fun v h =>
      drifts_allocate h _ _ (fun _ hp => nomatch hp) (.inl rfl))
  | newClass s => exact Update.keeps_discard (keeps_newClass hu hk)
  | copyModule m => exact Update.keeps_discard (keeps_copyModule hk)
  | singletonClass m =>
    exact Update.keeps_discard (Update.keeps_lift fun v h =>
      (drifts_singletonClass h (knows_mono h.follows.nextId hk)).1)
  | objectSingletonClass o =>
    exact Update.keeps_discard (Update.keeps_lift fun v h =>
      drifts_objectSingletonClass h (Nat.lt_of_lt_of_le hk h.follows.nextId))
  | newObject m => exact Update.keeps_discard (keeps_newObject hk)
  | writeVariable o name x =>
    intro v h
    have ho : v.knowsObject o := Nat.lt_of_lt_of_le hk.1 h.follows.nextId
    have hr := h.wellFormed.objects o ho
    exact h.editObject ho ⟨rfl, fun _ hs => hs⟩ ⟨hr.cls, hr.singleton⟩
  | freezeModule m => exact Update.keeps_lift (keeps_changeModule hk fun _ _ => .frozen _)
  | sealModule m => exact Update.keeps_lift (keeps_changeModule hk fun _ _ => .isSealed _)
  | includeModule m n => exact absurd trivial hm
  | prependModule m n => exact absurd trivial hm
  | addMethod m f => exact keeps_addMethod hk.1 hk.2
  | removeMethod m name => exact keeps_removeMethod hk name
  | openRefinement n t => exact Update.keeps_discard (keeps_openRefinement hk.1 hk.2)
  | setConstant m name x source =>
    exact Update.keeps_discard (keeps_setConstant hk.1 name hk.2 source)
  | removeConst m name => exact Update.keeps_discard (keeps_removeConst hk name)
  | privateConstants m names => exact keeps_updateConstants hk names fun _ => rfl
  | publicConstants m names => exact keeps_updateConstants hk names fun _ => rfl
  | deprecateConstants m names => exact keeps_updateConstants hk names fun _ => rfl
  | registerAutoload m name feature => exact keeps_registerAutoload hk name feature
  | markAutoload a t => exact keeps_neutral (fun _ => rfl) (fun _ => rfl) fun _ => rfl
  | settleAutoload m name =>
    exact Update.keeps_discard (Update.keeps_lift (keeps_settleAutoload hk name))
  | setClassVariable m name x => exact keeps_setClassVariable hk.1 name x
  | removeClassVariable m name => exact Update.keeps_discard (keeps_removeClassVariable hk name)
  | newCounter => exact fun v h => h.neutral rfl rfl rfl
  | raiseCounter c => exact fun v h => h.neutral rfl rfl rfl
  | installLoader => exact keeps_neutral (fun _ => rfl) (fun _ => rfl) fun _ => rfl
  | drawSerial => exact Update.keeps_discard (Update.keeps_lift keeps_freshSerial)
  | report e => exact Update.keeps_lift (keeps_report e)
  | takeReports => exact keeps_neutral (fun _ => rfl) (fun _ => rfl) fun _ => rfl

end ObjectModel.Universe
