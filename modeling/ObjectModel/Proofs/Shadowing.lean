import ObjectModel.Proofs.ConstantSearch
import ObjectModel.Proofs.Fronting

/-!
# Shadowing

An assignment of a constant, and a new module that binds one in front of a chain.

* `after_setConstant`: what an assignment changes;
* `Shadowed`, `exists_shadowed`: a universe with such a module more, and moves that lead to one;
* `Shadowed.idle`: nothing is being loaded that was not.
-/

namespace ObjectModel.Universe

variable {u v : Universe} {name : String} {x : Value} {k m o p : ModuleId}

/-- A value, not a module to be named, assigned in a module that may be changed. -/
theorem after_setConstant (h : ¬(u.module m).Fixed) (name : String) (hx : x.asModule? = none) :
    (∀ k, (u.after (.setConstant m name x none)).module k =
      if m = k then (u.module k).updateConstants
        (·.insert name (assigned (u.ownConstant m name) m name x none)) else u.module k) ∧
      (u.after (.setConstant m name x none)).objects = u.objects ∧
      (u.after (.setConstant m name x none)).autoloads = u.autoloads := by
  let c := assigned (u.ownConstant m name) m name x none
  let I : Universe → Prop := fun v =>
    v.modules = (changeConstants m (·.insert name c) u).2.modules ∧ v.objects = u.objects ∧
      v.autoloads = u.autoloads
  have hafter : I (u.after (.setConstant m name x none)) := by
    rw [after, Move.run, Update.final_discard, setConstant, final_checkMutable_bind,
      if_pos (immutable?_of_not_fixed h), Update.final_get_bind]
    show I (Update.final ((liftM (changeConstants m (·.insert name c)) : Update Unit) >>= _) u)
    rw [Update.final_lift_bind]
    suffices hrest : Update.Keeps I _ from hrest _ ⟨rfl, rfl, rfl⟩
    cases x with
    | module child => cases hx
    | nil | bool | int | symbol | string | object =>
      exact Update.keeps_reported (fun _ _ hv => hv) (Update.keeps_pure _)
  refine ⟨fun k => ?_, hafter.2⟩
  rw [module, hafter.1]
  exact module_modifyModule u m k _

/-- The second universe has a module more, which binds a name in front of a chain. -/
structure Shadowed (u v : Universe) (o p : ModuleId) (name : String) (c : Constant) : Prop where
  fronted : Fronted u v o p
  entry : v.ownConstant p name = some c
  lone : ∀ key, key ≠ name → v.ownConstant p key = none
  constants : ∀ k, k ≠ p → (v.module k).constants = (u.module k).constants
  record : ∀ k, k ≠ o → k ≠ p → v.module k = u.module k
  autoloads : v.autoloads = u.autoloads

/-- A new module can shadow a name in front of any module that may be changed. -/
theorem exists_shadowed (hu : u.WellFormed) (ho : u.knows o) (hfree : ¬(u.module o).Fixed)
    (name : String) (b : Bool) :
    ∃ v p c, Leads u v ∧ u.Shadowed v o p name c ∧ c.binding = .value (.bool b) := by
  have hborn := newcomer_newModule u
  obtain ⟨hmodule, -, hautoloads⟩ := after_setConstant (not_fixed_newModule u) name
    (x := .bool b) rfl
  have hl : Leads (u.after .newModule)
      ((u.after .newModule).after (.setConstant ⟨u.nextId⟩ name (.bool b) none)) :=
    .of_move ⟨hborn.known, trivial⟩
  generalize (u.after .newModule).after (.setConstant ⟨u.nextId⟩ name (.bool b) none) = u₂
    at hmodule hautoloads hl
  generalize hp : (⟨u.nextId⟩ : ModuleId) = p at hborn hmodule
  have hbinds : (u₂.module p).chain = {} ∧ (u₂.module p).isClass = false ∧
      ∀ key, (u₂.module p).constants.find? key = if name = key then some
        { declaringModule := p, name, binding := .value (.bool b) } else none := by
    rw [hmodule, if_pos rfl, ownConstant, ← hp, module_newModule_self]
    exact ⟨rfl, rfl, fun key => Table.find?_insert _ _ _ _⟩
  have hnew : Newcomer u u₂ p := hborn.later hu hl
    (fun k hk => by rw [hmodule, if_neg hk.symm]) (hbinds.2.1.trans hborn.kind.symm)
    (hbinds.1.trans hborn.chain.symm)
  -- its place
  obtain ⟨hall, hfront, hother, hchained⟩ := fronted_prepend hu ho hfree hnew
  have hpo : p ≠ o := (hnew.ne ho).symm
  refine ⟨_, p, { declaringModule := p, name, binding := .value (.bool b) }, hall,
    ⟨hfront, ?_, fun key hkey => ?_, fun k hk => ?_, fun k hko hkp => ?_, ?_⟩, rfl⟩
  · rw [ownConstant, hother p hpo, hbinds.2.2, if_pos rfl]
  · rw [ownConstant, hother p hpo, hbinds.2.2, if_neg hkey.symm]
  · by_cases hko : k = o
    · rw [hko, hchained]
      rfl
    · rw [hother k hko, hnew.other k hk]
  · rw [hother k hko, hnew.other k hkp]
  · exact (others_prepend u₂ o p).2.trans hautoloads

namespace Shadowed

variable {c : Constant} (h : u.Shadowed v o p name c)
include h

theorem ownConstant (hk : k ≠ p) (key : String) : v.ownConstant k key = u.ownConstant k key := by
  rw [Universe.ownConstant, h.constants k hk, Universe.ownConstant]

/-- Nothing is being loaded that was not. -/
theorem idle {key : String} (hi : u.Idle key) (hc : c.autoload? = none) : v.Idle key := by
  intro k d hd
  have hloading : v.loading? d = u.loading? d := by
    unfold loading? autoload
    rw [h.autoloads]
  rw [hloading]
  by_cases hk : k = p
  · subst hk
    by_cases hkey : key = name
    · subst hkey
      rw [h.entry] at hd
      rw [← Option.some.inj hd, loading?, hc]
      rfl
    · rw [h.lone key hkey] at hd
      cases hd
  · exact hi k d ((h.ownConstant hk key).symm.trans hd)

end Shadowed

end ObjectModel.Universe
