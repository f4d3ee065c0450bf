import ObjectModel.Proofs.Storing

/-!
# Full names

A module gets its full name once: when it is assigned to a constant of a module that has one, or
when the module that binds it gets one.  So the modules that a named module binds have names too.
The loop that hands the names on ends even where anonymous modules bind each other in a circle, as a
module that has a name is passed over.

* `Move.AssignsMade`, `AllMade`, `Furnished`: runs that assign modules that there are;
* `Binds`, `GivesName`: constants bound to modules, and the names that they give;
* `nameStep`, `nameSteps`: the loop step by step, and `nameSteps_of_le`: how soon it ends;
* `Naming`, `Naming.step`, `Naming.nameAll`: what the loop keeps, and what it comes to;
* `WellNamed`, `WellNamed.after`: what every move keeps;
* `fullNames_lawful`: the laws of full names in every state that a run reaches.
-/

namespace ObjectModel

/-- A module that the move assigns to a constant was made as one; a number that is known may belong
to an object. -/
def Move.AssignsMade (u : Universe) : Move → Prop
  | setConstant _ _ (.module k) _ => u.modules.contains k = true
  | _ => True

theorem Table.contains_insert_of_contains {κ α : Type} [DecidableEq κ] {t : Table κ α} {j k : κ}
    {a : α} (h : t.contains j = true) : (t.insert k a).contains j = true := by
  unfold Table.contains at *
  rw [Table.find?_insert]
  split
  · rfl
  · exact h

namespace Universe

variable {u v w : Universe} {k m n : ModuleId} {key s : String} {mv : Move} {mvs : List Move}
  {x : Value} {source : Option SourceLocation} {work : List (String × ModuleId)}

/-- A constant in the table of `k` itself is bound to the module `m`. -/
def Binds (u : Universe) (k : ModuleId) (key : String) (m : ModuleId) : Prop :=
  (u.ownConstant k key).bind Constant.value? = some (.module m)

/-- The text is the name of a module that binds `m` and the name of the constant, or the latter
alone when that module is the class of objects. -/
def GivesName (u : Universe) (m : ModuleId) (s : String) : Prop :=
  ∃ k key, u.Binds k key m ∧
    (k = Core.object ∧ s = key ∨
      k ≠ Core.object ∧ ∃ parent, (u.module k).name = some parent ∧ s = s!"{parent}::{key}")

/-- Every move of a run is known when its turn comes, and assigns modules that there are. -/
def AllMade (u : Universe) : List Move → Prop
  | [] => True
  | mv :: mvs => mv.Known u ∧ mv.AssignsMade u ∧ (u.after mv).AllMade mvs

/-! ### The loop -/

/-- One step of the naming loop. -/
def nameStep : Universe × List (String × ModuleId) → Universe × List (String × ModuleId)
  | (u, []) => (u, [])
  | (u, (fullName, m) :: rest) =>
    match u.modules.find? m with
    | none => (u, rest)
    | some r =>
      if r.name = none then
        (u.setModule m { r with name := some fullName }, r.children fullName ++ rest)
      else (u, rest)

/-- The loop after so many steps. -/
def nameSteps : Nat → Universe × List (String × ModuleId) → Universe × List (String × ModuleId)
  | 0, p => p
  | t + 1, p => nameSteps t (nameStep p)

/-- How many steps the loop can take: one for every module that waits, and one for everything that
an anonymous module may yet make wait. -/
def namingWork (p : Universe × List (String × ModuleId)) : Nat :=
  p.1.modules.weight Module.namingWeight + p.2.length

/-- A step is what the naming of all does first. -/
theorem nameAll_nameStep (p : Universe × List (String × ModuleId)) :
    (nameStep p).1.nameAll (nameStep p).2 = p.1.nameAll p.2 := by
  obtain ⟨u, work⟩ := p
  cases work with
  | nil => rfl
  | cons e rest =>
    obtain ⟨fullName, m⟩ := e
    unfold nameStep
    conv => rhs; unfold nameAll
    dsimp only
    split
    · next h => rw [h]
    · next r h =>
      rw [h]
      dsimp only
      split <;> rfl

/-- As long as something waits, a step leaves less to do. -/
theorem namingWork_nameStep {p : Universe × List (String × ModuleId)} (h : p.2 ≠ []) :
    namingWork (nameStep p) < namingWork p := by
  obtain ⟨u, work⟩ := p
  cases work with
  | nil => exact absurd rfl h
  | cons e rest =>
    obtain ⟨fullName, m⟩ := e
    unfold nameStep
    dsimp only
    split
    · exact Nat.lt_succ_self _
    · next r hr =>
      split
      · next hname => exact weight_named_lt hr hname fullName rest
      · exact Nat.lt_succ_self _

theorem nameSteps_nil (t : Nat) (u : Universe) : nameSteps t (u, []) = (u, []) := by
  induction t with
  | zero => rfl
  | succ t ih => exact ih

/-- The loop ends, whatever the modules bind: after so many steps everything is named and nothing
waits. -/
theorem nameSteps_of_le {t : Nat} {p : Universe × List (String × ModuleId)}
    (h : namingWork p ≤ t) : nameSteps t p = (p.1.nameAll p.2, []) := by
  induction t generalizing p with
  | zero =>
    obtain ⟨u, work⟩ := p
    have hwork : work = [] := List.eq_nil_of_length_eq_zero (Nat.le_zero.1 (Nat.le_trans
      (Nat.le_add_left _ _) h))
    subst hwork
    rw [nameSteps, nameAll]
  | succ t ih =>
    obtain ⟨u, work⟩ := p
    cases work with
    | nil => rw [nameSteps_nil, nameAll]
    | cons e rest =>
      have hless : namingWork (nameStep (u, e :: rest)) < namingWork (u, e :: rest) :=
        namingWork_nameStep (List.cons_ne_nil e rest)
      rw [nameSteps, ih (by omega), nameAll_nameStep]

/-! ### What the loop keeps -/

theorem mem_children_iff {r : Module} {fullName : String} :
    (s, m) ∈ r.children fullName ↔
      ∃ key, (r.constants.find? key).bind Constant.value? = some (.module m) ∧
        s = s!"{fullName}::{key}" := by
  have hmodule {c : Constant} : c.value?.bind Value.asModule? = some m ↔
      c.value? = some (.module m) := by
    cases c.value? with
    | none => exact iff_of_false nofun nofun
    | some x => cases x <;> simp [Value.asModule?]
  unfold Module.children
  rw [List.mem_filterMap]
  constructor
  · rintro ⟨⟨key, c⟩, hc, he⟩
    obtain ⟨m', hm', he⟩ := Option.map_eq_some_iff.1 he
    cases he
    exact ⟨key, by rw [Table.mem_entries_iff.1 hc]; exact hmodule.1 hm', rfl⟩
  · rintro ⟨key, hkey, rfl⟩
    obtain ⟨c, hc, hv⟩ := Option.bind_eq_some_iff.1 hkey
    exact ⟨(key, c), Table.mem_entries_iff.2 hc, by rw [hmodule.2 hv]; rfl⟩

/-- Only names differ, and those that were there are the same. -/
structure Names (u v : Universe) : Prop where
  others : ∀ k, (u.module k).SameBut [.name] (v.module k)
  contains : ∀ k, v.modules.contains k = u.modules.contains k
  kept : ∀ k s, (u.module k).name = some s → (v.module k).name = some s

namespace Names

theorem refl (u : Universe) : Names u u := ⟨fun _ => .refl _ _, fun _ => rfl, fun _ _ => id⟩

theorem trans (h : Names u v) (h' : Names v w) : Names u w where
  others k := (h.others k).trans (h'.others k)
  contains k := (h'.contains k).trans (h.contains k)
  kept k s hs := h'.kept k s (h.kept k s hs)

theorem binds_iff (h : Names u v) : v.Binds k key m ↔ u.Binds k key m := by
  unfold Binds ownConstant
  rw [(h.others k).constants (by simp)]

/-- What gives a name goes on giving it. -/
theorem givesName (h : Names u v) (hs : u.GivesName m s) : v.GivesName m s := by
  obtain ⟨k, key, hb, hname⟩ := hs
  refine ⟨k, key, h.binds_iff.2 hb, hname.imp_right fun ⟨hk, parent, hp, he⟩ => ?_⟩
  exact ⟨hk, parent, h.kept k parent hp, he⟩

end Names

/-- A module that has no name yet gets one. -/
theorem Names.named {r : Module} (found : v.modules.find? m = some r) (hname : r.name = none)
    (s : String) : Names v (v.setModule m { r with name := some s }) := by
  have hr : v.module m = r := by rw [module, found]; rfl
  refine ⟨fun k => ?_, fun k => ?_, fun k s' hs' => ?_⟩
  · rw [module_setModule]
    split
    · next he => exact he ▸ hr ▸ .named (.head _) _ _
    · exact .refl _ _
  · show ((v.modules.insert m _).find? k).isSome = (v.modules.find? k).isSome
    rw [Table.find?_insert]
    split
    · next he => rw [← he, found]; rfl
    · rfl
  · rw [module_setModule_of_ne]
    · exact hs'
    · rintro rfl
      rw [hr, hname] at hs'
      cases hs'

/-- The constants of all modules are bound to modules that there are. -/
def Stocked (u : Universe) : Prop :=
  ∀ k key m, u.Binds k key m → u.modules.contains m = true

/-- The state of the naming loop when it started from `u`: every name that waits is due, and every
module that a named one binds has a name or waits for it. -/
structure Naming (u : Universe) (p : Universe × List (String × ModuleId)) : Prop where
  names : Names u p.1
  waiting : ∀ s m, (s, m) ∈ p.2 → u.modules.contains m = true ∧ p.1.GivesName m s
  reached : ∀ k key m, (p.1.module k).name.isSome = true → u.Binds k key m →
    (p.1.module m).name.isSome = true ∨ ∃ s, (s, m) ∈ p.2
  given : ∀ m s, (u.module m).name = none → (p.1.module m).name = some s → p.1.GivesName m s

/-- A module that has a name is passed over. -/
theorem Naming.pass {fullName : String} {rest : List (String × ModuleId)}
    (h : Naming u (v, (fullName, m) :: rest)) (hname : (v.module m).name.isSome = true) :
    Naming u (v, rest) where
  names := h.names
  waiting s k hk := h.waiting s k (.tail _ hk)
  reached k key n hk hb := by
    rcases h.reached k key n hk hb with hn | ⟨s, hs⟩
    · exact .inl hn
    · cases hs with
      | head => exact .inl hname
      | tail _ hs => exact .inr ⟨s, hs⟩
  given := h.given

/-- A module that has none gets the name that waits, and what it binds waits from then on. -/
theorem Naming.name {fullName : String} {rest : List (String × ModuleId)} {r : Module}
    (h : Naming u (v, (fullName, m) :: rest)) (hroot : (u.module Core.object).name.isSome = true)
    (hu : u.Stocked) (found : v.modules.find? m = some r) (hname : r.name = none) :
    Naming u (v.setModule m { r with name := some fullName }, r.children fullName ++ rest) := by
  have hr : v.module m = r := by rw [module, found]; rfl
  have hnames := h.names.trans (.named found hname fullName)
  have hmono := Names.named found hname fullName
  have hself : ((v.setModule m { r with name := some fullName }).module m).name =
      some fullName := by
    rw [module_setModule_self]
  have hother {k : ModuleId} (hk : m ≠ k) :
      (v.setModule m { r with name := some fullName }).module k = v.module k :=
    module_setModule_of_ne v hk _
  have hchild {key : String} {k : ModuleId} :
      (r.constants.find? key).bind Constant.value? = some (.module k) ↔ u.Binds m key k := by
    rw [← hr]
    exact h.names.binds_iff
  refine ⟨hnames, fun s k hk => ?_, fun k key n hk hb => ?_, fun k s hk hs => ?_⟩
  · rcases List.mem_append.1 hk with hk | hk
    · obtain ⟨key, hb, rfl⟩ := mem_children_iff.1 hk
      have hb := hchild.1 hb
      refine ⟨hu m key k hb, m, key, hnames.binds_iff.2 hb, .inr ⟨?_, fullName, hself, rfl⟩⟩
      -- the class of objects had its name already
      rintro rfl
      obtain ⟨root, hroot⟩ := Option.isSome_iff_exists.1 hroot
      rw [← hr, h.names.kept _ _ hroot] at hname
      cases hname
    · obtain ⟨hk, hs⟩ := h.waiting s k (.tail _ hk)
      exact ⟨hk, hmono.givesName hs⟩
  · by_cases hkm : m = k
    · subst hkm
      exact .inr ⟨_, List.mem_append_left _ (mem_children_iff.2 ⟨key, hchild.2 hb, rfl⟩)⟩
    · rw [hother hkm] at hk
      rcases h.reached k key n hk hb with hn | ⟨s, hs⟩
      · obtain ⟨s, hs⟩ := Option.isSome_iff_exists.1 hn
        exact .inl (by rw [hmono.kept n s hs]; rfl)
      · cases hs with
        | head => exact .inl (by rw [hself]; rfl)
        | tail _ hs => exact .inr ⟨s, List.mem_append_right _ hs⟩
  · by_cases hkm : m = k
    · subst hkm
      obtain rfl : fullName = s := Option.some.inj (hself.symm.trans hs)
      exact hmono.givesName (h.waiting _ _ (.head _)).2
    · rw [hother hkm] at hs
      exact hmono.givesName (h.given k s hk hs)

theorem Naming.step {p : Universe × List (String × ModuleId)} (h : Naming u p)
    (hroot : (u.module Core.object).name.isSome = true) (hu : u.Stocked) :
    Naming u (nameStep p) := by
  obtain ⟨v, work⟩ := p
  cases work with
  | nil => exact h
  | cons e rest =>
    obtain ⟨fullName, m⟩ := e
    unfold nameStep
    dsimp only
    split
    · next hnone =>
      -- what waits is a module
      have hthere := (h.names.contains m).trans (h.waiting _ _ (.head _)).1
      rw [Table.contains, hnone] at hthere
      cases hthere
    · next r found =>
      split
      · next hname => exact h.name hroot hu found hname
      · next hname =>
        refine h.pass ?_
        rw [module, found]
        exact Option.isSome_iff_ne_none.2 hname

theorem Naming.steps (t : Nat) {p : Universe × List (String × ModuleId)} (h : Naming u p)
    (hroot : (u.module Core.object).name.isSome = true) (hu : u.Stocked) :
    Naming u (nameSteps t p) := by
  induction t generalizing p with
  | zero => exact h
  | succ t ih => exact ih (h.step hroot hu)

/-- In the end everything that waited is named. -/
theorem Naming.nameAll (h : Naming u (u, work))
    (hroot : (u.module Core.object).name.isSome = true) (hu : u.Stocked) :
    Naming u (u.nameAll work, []) := by
  have hsteps := h.steps (namingWork (u, work)) hroot hu
  rwa [nameSteps_of_le (Nat.le_refl _)] at hsteps

/-! ### Assignments -/

/-- What an assignment does to a module that may be changed: the constant is bound, reports are
made, and a module gets its name. -/
theorem setConstant_of_mutable (hi : u.immutable? m = none) (name : String) (x : Value)
    (source : Option SourceLocation) : ∃ w,
      w.modules = (changeConstants m
        (·.insert name (assigned (u.ownConstant m name) m name x source)) u).2.modules ∧
      setConstant m name x source u = .ok (assigned (u.ownConstant m name) m name x source)
        (match x with
        | .module n => w.adopt m name n
        | _ => w) := by
  rw [setConstant, Update.bind_apply, checkMutable, Update.get_bind, hi]
  simp only [pure, EStateM.pure, Update.get_bind]
  cases x with
  | module n => split <;> refine ⟨_, ?_, rfl⟩ <;> rfl
  | nil | bool | int | symbol | string | object => split <;> refine ⟨_, ?_, rfl⟩ <;> rfl

theorem setConstant_of_immutable {e : Error} (hi : u.immutable? m = some e) (name : String)
    (x : Value) (source : Option SourceLocation) :
    setConstant m name x source u = .error e u := by
  rw [setConstant, Update.bind_apply, checkMutable, Update.get_bind, hi]
  rfl

/-- What is bound when one constant is. -/
theorem binds_inserted {name : String} {c : Constant}
    (hw : w.modules = (changeConstants m (·.insert name c) u).2.modules) :
    w.Binds k key n ↔
      if m = k ∧ name = key then c.value? = some (.module n) else u.Binds k key n := by
  unfold Binds
  rw [show w.ownConstant k key = _ from congrArg (·.constants.find? key) (module_congr hw k)]
  show ((changeConstants m (·.insert name c) u).2.ownConstant k key).bind _ = _ ↔ _
  rw [ownConstant_insert]
  split <;> rfl

theorem binds_of_inserted {name : String} {c : Constant}
    (hw : w.modules = (changeConstants m (·.insert name c) u).2.modules)
    (hvalue : c.value? = some x) (hb : w.Binds k key n) :
    k = m ∧ x = .module n ∨ u.Binds k key n := by
  rw [binds_inserted hw] at hb
  split at hb
  · next he => exact .inl ⟨he.1.symm, Option.some.inj (hvalue.symm.trans hb)⟩
  · exact .inr hb

theorem Stocked.inserted (hu : u.Stocked) {name : String} {c : Constant}
    (hw : w.modules = (changeConstants m (·.insert name c) u).2.modules)
    (hvalue : c.value? = some x) (hx : ∀ n, x = .module n → u.modules.contains n = true) :
    w.Stocked := by
  intro k key n hb
  have hn : u.modules.contains n = true := by
    rcases binds_of_inserted hw hvalue hb with ⟨-, he⟩ | hb
    · exact hx n he
    · exact hu k key n hb
  rw [hw]
  exact Table.contains_insert_of_contains hn

theorem name_inserted {name : String} {c : Constant}
    (hw : w.modules = (changeConstants m (·.insert name c) u).2.modules) (k : ModuleId) :
    (w.module k).name = (u.module k).name := by
  rw [module_congr hw]
  show ((u.modifyModule m (·.updateConstants (·.insert name c))).module k).name = _
  rw [module_modifyModule]
  split <;> rfl

/-- Nothing waits where all that named modules bind is named. -/
theorem Naming.idle (h : ∀ k key j, (w.module k).name.isSome = true → w.Binds k key j →
    (w.module j).name.isSome = true) : Naming w (w, []) where
  names := .refl w
  waiting _ _ hk := absurd hk List.not_mem_nil
  reached k key j hk hb := .inl (h k key j hk hb)
  given k s hk hs := by cases hk.symm.trans hs

/-- A single name waits. -/
theorem Naming.single (hn : w.modules.contains n = true) (hs : w.GivesName n s)
    (h : ∀ k key j, (w.module k).name.isSome = true → w.Binds k key j →
      (w.module j).name.isSome = true ∨ j = n) : Naming w (w, [(s, n)]) where
  names := .refl w
  waiting s' k hk := by
    cases List.mem_singleton.1 hk
    exact ⟨hn, hs⟩
  reached k key j hk hb := by
    rcases h k key j hk hb with hj | rfl
    · exact .inl hj
    · exact .inr ⟨s, .head _⟩
  given k s hk hs := by cases hk.symm.trans hs

/-- An adoption lets at most one name wait, and that one is due. -/
theorem naming_adopt {name : String} (hw : w.Stocked) (hb : w.Binds m name n)
    (hclosed : ∀ k key j, (w.module k).name.isSome = true → w.Binds k key j →
      (w.module j).name.isSome = true ∨ k = m ∧ j = n) :
    ∃ work, work.length ≤ 1 ∧ w.adopt m name n = w.nameAll work ∧ Naming w (w, work) := by
  have hstart {s : String} (hs : w.GivesName n s) : Naming w (w, [(s, n)]) :=
    .single (hw m name n hb) hs fun k key j hk hb => (hclosed k key j hk hb).imp_right And.right
  unfold adopt
  split
  · next hm => exact ⟨_, Nat.le_refl _, rfl, hstart ⟨m, name, hb, .inl ⟨hm, rfl⟩⟩⟩
  · next hm =>
    split
    · next parent hp =>
      exact ⟨_, Nat.le_refl _, rfl, hstart ⟨m, name, hb, .inr ⟨hm, parent, hp, rfl⟩⟩⟩
    · next hp =>
      refine ⟨[], Nat.zero_le _, by rw [nameAll], .idle fun k key j hk hb => ?_⟩
      refine (hclosed k key j hk hb).resolve_right ?_
      rintro ⟨rfl, -⟩
      rw [hp] at hk
      cases hk

/-! ### Moves -/

/-- The class of objects has a name, constants are bound to modules that there are, and the modules
that a named one binds have names. -/
structure WellNamed (u : Universe) : Prop where
  root : (u.module Core.object).name.isSome = true
  stocked : u.Stocked
  closed : ∀ k key m, (u.module k).name.isSome = true → u.Binds k key m →
    (u.module m).name.isSome = true

theorem Naming.wellNamed (h : Naming u (v, [])) (hroot : (u.module Core.object).name.isSome = true)
    (hu : u.Stocked) : v.WellNamed where
  root := by
    obtain ⟨s, hs⟩ := Option.isSome_iff_exists.1 hroot
    rw [h.names.kept _ s hs]
    rfl
  stocked k key m hb := (h.names.contains m).trans (hu k key m (h.names.binds_iff.1 hb))
  closed k key m hk hb := by
    rcases h.reached k key m hk (h.names.binds_iff.1 hb) with hm | ⟨s, hs⟩
    · exact hm
    · cases hs

/-- An assignment succeeds: it binds the constant, and lets at most one name wait, which is due. -/
theorem WellNamed.assign (h : u.WellNamed) (hi : u.immutable? m = none) {name : String}
    (hx : (Move.setConstant m name x source).AssignsMade u) : ∃ c w work,
      w.modules = (changeConstants m (·.insert name c) u).2.modules ∧ work.length ≤ 1 ∧
      setConstant m name x source u = .ok c (w.nameAll work) ∧ w.Stocked ∧ Naming w (w, work) := by
  obtain ⟨w, hw, hset⟩ := setConstant_of_mutable hi name x source
  have hvalue := value?_assigned (u.ownConstant m name) m name x source
  generalize assigned (u.ownConstant m name) m name x source = c at hw hset hvalue
  refine ⟨c, w, ?_⟩
  have hstocked : w.Stocked := h.stocked.inserted hw hvalue fun n hn => by
    subst hn
    exact hx
  have hclosed (k : ModuleId) (key : String) (j : ModuleId)
      (hk : (w.module k).name.isSome = true) (hb : w.Binds k key j) :
      (w.module j).name.isSome = true ∨ k = m ∧ x = .module j := by
    rw [name_inserted hw] at hk ⊢
    exact (binds_of_inserted hw hvalue hb).symm.imp (h.closed k key j hk) id
  cases x with
  | module n =>
    have hb : w.Binds m name n := (binds_inserted hw).2 (by rw [if_pos ⟨rfl, rfl⟩]; exact hvalue)
    obtain ⟨work, hlength, hadopt, hdue⟩ := naming_adopt hstocked hb fun k key j hk hb =>
      (hclosed k key j hk hb).imp_right fun ⟨hk, hj⟩ => ⟨hk, (Value.module.inj hj).symm⟩
    exact ⟨work, hw, hlength, hadopt ▸ hset, hstocked, hdue⟩
  | nil | bool | int | symbol | string | object =>
    -- nothing but a module gets a name
    have hdue := Naming.idle fun k key j hk hb =>
      (hclosed k key j hk hb).resolve_right fun hj => absurd hj.2 (by simp)
    exact ⟨[], hw, Nat.zero_le _, by rw [nameAll]; exact hset, hstocked, hdue⟩

theorem contains_after (h : u.modules.contains k = true) (mv : Move) :
    (u.after mv).modules.contains k = true := by
  have hframe : Frame mv.parts fun v => v.modules.contains k = true :=
    { neutral := fun h hm _ _ _ _ _ => hm ▸ h
      allocate := fun _ _ _ h => Table.contains_insert_of_contains h
      edit := fun h _ => Table.contains_insert_of_contains h }
  exact hframe.after h

/-- Only assignments hand names out. -/
theorem name_after (hu : u.WellFormed) (hp : .name ∉ mv.parts) (k : ModuleId) :
    ((u.after mv).module k).name = (u.module k).name := by
  have hframe : Frame mv.parts fun v =>
      u.nextId ≤ v.nextId ∧ ∀ k, (v.module k).name = (u.module k).name := by
    refine ⟨fun h hm hn _ _ _ _ => ⟨Nat.le_trans h.1 hn, fun k => ?_⟩,
      fun kind chain v h => ⟨Nat.le_succ_of_le h.1, fun k => ?_⟩, fun h hf => ⟨h.1, fun k => ?_⟩⟩
    · rw [module_congr hm]
      exact h.2 k
    · show ((v.setModule ⟨v.nextId⟩ { kind, chain }).module k).name = _
      rw [module_setModule]
      split
      · next he =>
        have hnew : ¬u.knows k := by
          rw [← he]
          exact Nat.not_lt_of_le h.1
        rw [hu.module_stranger hnew]
        rfl
      · exact h.2 k
    · rw [module_modifyModule]
      split
      · next he => exact he ▸ (hf.name hp).trans (h.2 _)
      · exact h.2 k
  exact (hframe.after ⟨Nat.le_refl _, fun _ => rfl⟩).2 k

/-- Other moves bind no module anew, except in copies, which have no names. -/
theorem WellNamed.keep (h : u.WellNamed) (hu : u.WellFormed) (hp : .name ∉ mv.parts) :
    (u.after mv).WellNamed := by
  have hstart : Stores (fun k _ c => ∀ n, c.value? = some (.module n) →
      u.modules.contains n = true ∧
        ((u.module k).name.isSome = true → (u.module n).name.isSome = true)) u.autoloads u := by
    refine ⟨fun k key c hc n hn => ?_, rfl⟩
    have hb : u.Binds k key n := by
      rw [Binds, hc]
      exact hn
    exact ⟨h.stocked k key n hb, fun hk => h.closed k key n hk hb⟩
  have hfit : Fits u mv fun k _ c => ∀ n, c.value? = some (.module n) →
      u.modules.contains n = true ∧
        ((u.module k).name.isSome = true → (u.module n).name.isSome = true) :=
    { flagged := fun hc _ _ hb n hn => hc n (by rwa [Constant.value?, hb] at hn)
      settled := fun _ n hn => nomatch hn
      copied := fun _ hk hc n hn => by
        refine ⟨(hstart.constants _ _ _ hc n hn).1, fun hname => ?_⟩
        rw [hu.module_stranger hk] at hname
        cases hname
      registered := fun _ n hn => nomatch hn
      assigned := fun he => by
        subst he
        exact absurd (.tail _ (.head _)) hp }
  have hstored {k : ModuleId} {key : String} {n : ModuleId} (hb : (u.after mv).Binds k key n) :
      u.modules.contains n = true ∧
        ((u.module k).name.isSome = true → (u.module n).name.isSome = true) := by
    obtain ⟨c, hc, hn⟩ := Option.bind_eq_some_iff.1 hb
    exact (hstart.after hfit).constants k key c hc n hn
  refine ⟨?_, fun k key n hb => contains_after (hstored hb).1 mv, fun k key n hk hb => ?_⟩
  · rw [name_after hu hp]
    exact h.root
  · rw [name_after hu hp] at hk ⊢
    exact (hstored hb).2 hk

/-- Every move keeps the names that there are, and all that names are to obey. -/
theorem WellNamed.after (h : u.WellNamed) (hu : u.WellFormed) (hm : mv.AssignsMade u) :
    (u.after mv).WellNamed ∧
      ∀ k s, (u.module k).name = some s → ((u.after mv).module k).name = some s := by
  by_cases hp : .name ∈ mv.parts
  · cases mv with
    | setConstant m name x source =>
      rw [Universe.after, Move.run, Update.final_discard, Update.final]
      cases hi : u.immutable? m with
      | none =>
        obtain ⟨c, w, work, hw, -, hset, hstocked, hdue⟩ := h.assign hi hm
        have hroot : (w.module Core.object).name.isSome = true := name_inserted hw _ ▸ h.root
        have hdone := hdue.nameAll hroot hstocked
        rw [hset]
        exact ⟨hdone.wellNamed hroot hstocked, fun k s hs =>
          hdone.names.kept k s ((name_inserted hw k).trans hs)⟩
      | some e =>
        rw [setConstant_of_immutable hi]
        exact ⟨h, fun _ _ => id⟩
    | _ => simp [Move.parts] at hp
  · exact ⟨h.keep hu hp, fun k s hk => (name_after hu hp k).trans hk⟩

/-- At first constants are bound to core modules only. -/
theorem mem_named_of_binds_create {options : Options} (hb : (create options).Binds k key m) :
    ∃ e ∈ Core.named, e.2 = m := by
  obtain ⟨c, hc, hv⟩ := Option.bind_eq_some_iff.1 hb
  obtain ⟨-, e, he, -, rfl⟩ := ownConstant_create_eq hc
  exact ⟨e, he, Value.module.inj (Option.some.inj hv)⟩

theorem wellNamed_create (options : Options) : (create options).WellNamed := by
  have hcore : ∀ e ∈ Core.named, (create {}).modules.contains e.2 = true ∧
      ((create {}).module e.2).name.isSome = true := by
    decide
  have hnamed (e : String × ModuleId) (he : e ∈ Core.named) :
      (create options).modules.contains e.2 = true ∧
        ((create options).module e.2).name.isSome = true := hcore e he
  refine ⟨(hnamed ("Object", Core.object) (by decide)).2, fun k key m hb => ?_,
    fun k key m _ hb => ?_⟩
  · obtain ⟨e, he, rfl⟩ := mem_named_of_binds_create hb
    exact (hnamed e he).1
  · obtain ⟨e, he, rfl⟩ := mem_named_of_binds_create hb
    exact (hnamed e he).2

/-! ### Runs -/

theorem WellNamed.afterAll (h : u.WellNamed) (hu : u.WellFormed) (hm : u.AllMade mvs) :
    (u.afterAll mvs).WellNamed ∧ (u.afterAll mvs).WellFormed ∧
      ∀ k s, (u.module k).name = some s → ((u.afterAll mvs).module k).name = some s := by
  induction mvs generalizing u with
  | nil => exact ⟨h, hu, fun _ _ => id⟩
  | cons mv mvs ih =>
    obtain ⟨hk, hmade, hrest⟩ := hm
    obtain ⟨hnext, hkept⟩ := h.after hu hmade
    obtain ⟨hend, hwell, hlast⟩ := ih hnext ((Leads.of_move hk).wellFormed hu) hrest
    exact ⟨hend, hwell, fun k s hs => hlast k s (hkept k s hs)⟩

/-- Some run of moves that assign modules that there are leads here from a fresh universe. -/
def Furnished (u : Universe) : Prop :=
  ∃ options mvs, (create options).AllMade mvs ∧ (create options).afterAll mvs = u

/-- In every state that a run reaches, full names stay for all times, and the modules that a named
module binds have names.  An assignment fails with the reason why the module may not be changed, or
binds the constant; the loop that starts then, with at most one name, ends in the number of steps
that `namingWork` gives, and whatever module it names has the name of a module that binds it with
the name of the constant. -/
theorem fullNames_lawful (hu : u.Furnished) :
    (∀ mvs k s, u.AllMade mvs → (u.module k).name = some s →
      ((u.afterAll mvs).module k).name = some s) ∧
    (∀ k key m, (u.module k).name.isSome = true → u.Binds k key m →
      (u.module m).name.isSome = true) ∧
    ∀ m name x source, (Move.setConstant m name x source).AssignsMade u →
      (∀ e, u.immutable? m = some e → setConstant m name x source u = .error e u) ∧
      (u.immutable? m = none → ∃ c v work w, setConstant m name x source u = .ok c w ∧
        v.modules = (changeConstants m (·.insert name c) u).2.modules ∧ work.length ≤ 1 ∧
        (∀ t, namingWork (v, work) ≤ t → nameSteps t (v, work) = (w, [])) ∧
        ∀ k s, (u.module k).name = none → (w.module k).name = some s → w.GivesName k s) := by
  obtain ⟨options, before, hm, rfl⟩ := hu
  obtain ⟨h, hwell, -⟩ := (wellNamed_create options).afterAll (wellFormed_create options) hm
  refine ⟨fun mvs k s hmade => (h.afterAll hwell hmade).2.2 k s, h.closed, fun m name x source hx =>
    ⟨fun e hi => setConstant_of_immutable hi name x source, fun hi => ?_⟩⟩
  obtain ⟨c, v, work, hv, hlength, hset, hstocked, hdue⟩ := h.assign hi hx
  have hdone := hdue.nameAll (name_inserted hv _ ▸ h.root) hstocked
  exact ⟨c, v, work, _, hset, hv, hlength, fun t ht => nameSteps_of_le ht,
    fun k s hk hs => hdone.given k s ((name_inserted hv k).trans hk) hs⟩

/-- Two anonymous modules, each bound in the table of the other. -/
def circle : Universe :=
  (create {}).afterAll [.newModule, .newModule, .setConstant ⟨12⟩ "B" (.module ⟨13⟩) none,
    .setConstant ⟨13⟩ "A" (.module ⟨12⟩) none]

theorem furnished_circle : circle.Furnished := by
  have hknown (n : Nat) (v : Universe) (h : decide (n < v.nextId) = true) : v.knows ⟨n⟩ :=
    of_decide_eq_true h
  refine ⟨{}, _, ?_, rfl⟩
  refine ⟨trivial, trivial, trivial, trivial, ⟨?_, ?_⟩, ?_, ⟨?_, ?_⟩, ?_, trivial⟩
  · exact hknown 12 _ (by decide +kernel)
  · exact hknown 13 _ (by decide +kernel)
  · show Table.contains _ _ = true
    decide +kernel
  · exact hknown 13 _ (by decide +kernel)
  · exact hknown 12 _ (by decide +kernel)
  · show Table.contains _ _ = true
    decide +kernel

/-- As one module of the circle is assigned to a constant of the class of objects, both get
names. -/
theorem fullNames_lawful_of_circle : ∃ c w,
    setConstant Core.object "M" (.module ⟨12⟩) none circle = .ok c w ∧
    (w.module ⟨12⟩).name = some "M" ∧ w.GivesName ⟨12⟩ "M" ∧
    (w.module ⟨13⟩).name = some "M::B" ∧ w.GivesName ⟨13⟩ "M::B" := by
  obtain ⟨c, v, work, w, hset, -, -, -, hgiven⟩ :=
    ((fullNames_lawful furnished_circle).2.2 Core.object "M" (.module ⟨12⟩) none
      (show Table.contains _ _ = true by decide +kernel)).2 (by decide +kernel)
  have hw : Update.final (setConstant Core.object "M" (.module ⟨12⟩) none) circle = w := by
    rw [Update.final, hset]
  have hfirst : (w.module ⟨12⟩).name = some "M" := by
    rw [← hw]
    decide +kernel
  have hsecond : (w.module ⟨13⟩).name = some "M::B" := by
    rw [← hw]
    decide +kernel
  exact ⟨c, w, hset, hfirst, hgiven _ _ (by decide +kernel) hfirst, hsecond,
    hgiven _ _ (by decide +kernel) hsecond⟩

end Universe

end ObjectModel
