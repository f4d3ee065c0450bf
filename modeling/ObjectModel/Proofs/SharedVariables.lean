import ObjectModel.Proofs.MethodEnumeration
import ObjectModel.Proofs.Search

/-!
# Shared class variables

Whoever assigns a class variable writes one cell: the one in the first table on its path that has
the name, or a new one in its own table.  Paths do not depend on class variables, so everybody whose
path meets that cell first sees the new value, and nobody else sees any change.  An enumeration goes
along the same path and keeps what comes first, so it tells what a lookup would find.

* `BindsFirst`, `bindsFirst_iff`: where the search along a path ends;
* `classVariablePath_congr`: what a path depends on;
* `setClassVariable_apply`: an assignment, in one equation;
* `find?_allClassVariables`: what an enumeration has under a name;
* `WritesCell`, `classVariables_shared`: what an assignment writes, and who sees it.
-/

namespace ObjectModel.Universe

variable {u v : Universe} {m n h k : ModuleId} {name other : String} {x : Value}

/-! ### Paths -/

/-- On the path of `k`, the first table that has the name is that of `h`. -/
def BindsFirst (u : Universe) (k : ModuleId) (name : String) (h : ModuleId) : Prop :=
  ∃ nearer farther, u.classVariablePath k = nearer ++ h :: farther ∧
    (∀ n ∈ nearer, u.ownClassVariable n name = none) ∧ (u.ownClassVariable h name).isSome = true

theorem bindsFirst_iff : u.BindsFirst k name h ↔ u.classVariableHolder? k name = some h := by
  rw [classVariableHolder?, List.find?_eq_some_iff_append]
  constructor
  · rintro ⟨nearer, farther, hpath, hnone, hsome⟩
    exact ⟨hsome, nearer, farther, hpath, fun n hn => by simp [hnone n hn]⟩
  · rintro ⟨hsome, nearer, farther, hpath, hnone⟩
    exact ⟨nearer, farther, hpath, fun n hn => by simpa using hnone n hn, hsome⟩

/-- No table on the path of `k` has the name. -/
theorem classVariableHolder?_eq_none_iff : u.classVariableHolder? k name = none ↔
    ∀ n ∈ u.classVariablePath k, u.ownClassVariable n name = none := by
  rw [classVariableHolder?, List.find?_eq_none]
  simp

/-- A path depends on what modules are and on their chains. -/
theorem classVariablePath_congr (hk : ∀ o, (v.module o).kind = (u.module o).kind)
    (hc : ∀ o, (v.module o).chain = (u.module o).chain) (k : ModuleId) :
    v.classVariablePath k = u.classVariablePath k := by
  have hattached : (v.module k).attached? = (u.module k).attached? := by
    rw [Module.attached?, hk, Module.attached?]
  have hothers (o : ModuleId) : v.otherAncestors o = u.otherAncestors o := by
    rw [otherAncestors, ancestors_of_chains fun p _ => hc p, otherAncestors]
  simp only [classVariablePath, hattached, hothers]

/-! ### Assignments -/

theorem ownClassVariable_insert (u : Universe) (h k : ModuleId) (name other : String) (x : Value) :
    (bindClassVariable h name x u).2.ownClassVariable k other =
      if k = h ∧ other = name then some x else u.ownClassVariable k other := by
  show ((u.modifyModule h _).module k).classVariables.find? other = _
  rw [module_modifyModule]
  by_cases hk : h = k
  · subst hk
    rw [if_pos rfl, Table.find?_insert]
    simp [ownClassVariable, eq_comm]
  · simp [hk, Ne.symm hk, ownClassVariable]

/-- An assignment asks the module that it is made from and writes to the table that has the name;
only a new name is reported. -/
theorem setClassVariable_apply (u : Universe) (m : ModuleId) (name : String) (x : Value) :
    setClassVariable m name x u =
      match u.immutable? m, u.classVariableHolder? m name with
      | some e, _ => .error e u
      | none, some h => .ok () (bindClassVariable h name x u).2
      | none, none => .ok () (reportNow (fun u => .definedClassVariable (u.display m) name)
          (bindClassVariable m name x u).2).2 := by
  rw [setClassVariable, Update.bind_apply, checkMutable, Update.get_bind]
  cases u.immutable? m with
  | some e => rfl
  | none =>
    show (get >>= _ : Update Unit) u = _
    rw [Update.get_bind]
    cases u.classVariableHolder? m name <;> rfl

/-- When one cell is written, a search ends there with the new value, or it ends as before. -/
theorem findSome?_written (hv : ∀ k, v.ownClassVariable k name =
      if k = h then some x else u.ownClassVariable k name) (path : List ModuleId) :
    path.findSome? (v.ownClassVariable · name) =
      if path.find? (fun n => (v.ownClassVariable n name).isSome) = some h then some x
      else path.findSome? (u.ownClassVariable · name) := by
  induction path with
  | nil => rfl
  | cons n path ih =>
    rw [List.findSome?_cons, List.find?_cons, List.findSome?_cons]
    have hn := hv n
    by_cases he : n = h
    · subst he
      rw [if_pos rfl] at hn
      simp [hn]
    · rw [if_neg he] at hn
      rw [ih, hn]
      cases u.ownClassVariable n name with
      | none => rfl
      | some y => simp [he]

/-! ### Enumerations -/

/-- An enumeration has under a name what a lookup finds. -/
theorem find?_allClassVariables (u : Universe) (k : ModuleId) (name : String) :
    (u.allClassVariables k).find? name = u.lookupClassVariable k name := by
  rw [allClassVariables, Table.find?_foldl_insertNew, Table.find?_empty, Option.none_or,
    lookupClassVariable]
  induction u.classVariablePath k with
  | nil => rfl
  | cons n path ih =>
    rw [List.flatMap_cons, Table.findIn_append, ih, List.findSome?_cons]
    show (u.ownClassVariable n name).or _ = _
    cases u.ownClassVariable n name <;> rfl

/-! ### Sharing -/

/-- The universe `v` is `u` with the class variable written into the table of `h`, which is the
first on the path of `m` that has it, or the table of `m` if none has. -/
structure WritesCell (u : Universe) (m : ModuleId) (name : String) (x : Value) (h : ModuleId)
    (v : Universe) : Prop where
  first : u.BindsFirst m name h ∨
    h = m ∧ ∀ n ∈ u.classVariablePath m, u.ownClassVariable n name = none
  /-- That table is all that changes, reports apart. -/
  only : ∃ reports, v = { u.modifyModule h fun r =>
    { r with classVariables := r.classVariables.insert name x } with reports }
  cell : ∀ k other, v.ownClassVariable k other =
    if k = h ∧ other = name then some x else u.ownClassVariable k other
  /-- Those who meet the cell first see the new value. -/
  seen : ∀ k, v.BindsFirst k name h → v.lookupClassVariable k name = some x
  unseen : ∀ k, ¬v.BindsFirst k name h →
    v.lookupClassVariable k name = u.lookupClassVariable k name
  others : ∀ k other, other ≠ name → v.lookupClassVariable k other = u.lookupClassVariable k other

/-- What is written into one table, and what may be reported then. -/
theorem writesCell_of_bound (hfirst : u.BindsFirst m name h ∨
      h = m ∧ ∀ n ∈ u.classVariablePath m, u.ownClassVariable n name = none)
    (reports : List Event) (hv : v = { (bindClassVariable h name x u).2 with reports }) :
    u.WritesCell m name x h v := by
  have hcell (k : ModuleId) (other : String) : v.ownClassVariable k other =
      if k = h ∧ other = name then some x else u.ownClassVariable k other :=
    hv ▸ ownClassVariable_insert u h k name other x
  have hrecord (o : ModuleId) : (v.module o).kind = (u.module o).kind ∧
      (v.module o).chain = (u.module o).chain := by
    have hv : v.module o = (u.modifyModule h fun r =>
        { r with classVariables := r.classVariables.insert name x }).module o :=
      module_congr (congrArg modules hv) o
    rw [hv, module_modifyModule]
    split <;> exact ⟨rfl, rfl⟩
  have hpath := classVariablePath_congr (fun o => (hrecord o).1) fun o => (hrecord o).2
  have hlookup (k : ModuleId) : v.lookupClassVariable k name =
      if v.classVariableHolder? k name = some h then some x
      else u.lookupClassVariable k name := by
    rw [lookupClassVariable, findSome?_written (fun o => by simpa using hcell o name), hpath,
      ← lookupClassVariable, classVariableHolder?, hpath]
  refine ⟨hfirst, ⟨reports, hv⟩, hcell, fun k hk => ?_, fun k hk => ?_, fun k other ho => ?_⟩
  · rw [hlookup, if_pos (bindsFirst_iff.1 hk)]
  · rw [hlookup, if_neg fun he => hk (bindsFirst_iff.2 he)]
  · simp only [lookupClassVariable, hpath, hcell, ho, and_false, if_false]

/-- Class variables are cells that are shared along paths.  An assignment succeeds if the module that
it is made from may be changed; it writes one cell, which everybody sees whose path meets it first.
An enumeration tells what lookups find. -/
theorem classVariables_shared (u : Universe) :
    (∀ m name x, ((∃ v, setClassVariable m name x u = .ok () v) ↔ u.immutable? m = none) ∧
      ∀ v, setClassVariable m name x u = .ok () v → ∃ h, u.WritesCell m name x h v) ∧
    ∀ k name, (u.allClassVariables k).find? name = u.lookupClassVariable k name := by
  refine ⟨fun m name x => ?_, find?_allClassVariables u⟩
  rw [setClassVariable_apply]
  cases u.immutable? m with
  | some e => simp
  | none =>
    cases hh : u.classVariableHolder? m name with
    | some h =>
      refine ⟨iff_of_true ⟨_, rfl⟩ rfl, fun v hv => ⟨h, ?_⟩⟩
      cases hv
      exact writesCell_of_bound (.inl (bindsFirst_iff.2 hh)) u.reports rfl
    | none =>
      refine ⟨iff_of_true ⟨_, rfl⟩ rfl, fun v hv => ⟨m, ?_⟩⟩
      cases hv
      exact writesCell_of_bound (.inr ⟨rfl, classVariableHolder?_eq_none_iff.1 hh⟩) _ rfl

/-- The singleton class of a subclass assigns to the cell of the class, and the subclass sees it. -/
theorem classVariables_shared_with_subclass :
    let u := (create {}).afterAll [.newClass none, .newClass (some ⟨12⟩),
      .setClassVariable ⟨12⟩ "@@v" (.int 1), .singletonClass ⟨13⟩]
    let v := u.after (.setClassVariable ⟨17⟩ "@@v" (.int 2))
    (u.module ⟨17⟩).attached? = some (.module ⟨13⟩) ∧ u.immutable? ⟨17⟩ = none ∧
      u.WritesCell ⟨17⟩ "@@v" (.int 2) ⟨12⟩ v ∧
      v.lookupClassVariable ⟨13⟩ "@@v" = some (.int 2) ∧
      (v.allClassVariables ⟨13⟩).find? "@@v" = v.lookupClassVariable ⟨13⟩ "@@v" := by
  intro u v
  have hset : setClassVariable ⟨17⟩ "@@v" (.int 2) u = .ok () v := Update.eq_ok (by decide +kernel)
  have hholder : u.classVariableHolder? ⟨17⟩ "@@v" = some ⟨12⟩ := by decide +kernel
  obtain ⟨h, hw⟩ := ((classVariables_shared u).1 ⟨17⟩ "@@v" (.int 2)).2 v hset
  obtain rfl : h = ⟨12⟩ := by
    rcases hw.first with hf | ⟨-, hnone⟩
    · exact Option.some.inj ((bindsFirst_iff.1 hf).symm.trans hholder)
    · rw [classVariableHolder?_eq_none_iff.2 hnone] at hholder
      cases hholder
  refine ⟨by decide +kernel, by decide +kernel, hw, hw.seen ⟨13⟩ (bindsFirst_iff.2 ?_),
    (classVariables_shared v).2 ⟨13⟩ "@@v"⟩
  decide +kernel

end ObjectModel.Universe
