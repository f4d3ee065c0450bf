import ObjectModel.Proofs.ConstantSearch
import ObjectModel.Proofs.Storing
import ObjectModel.Universe.ConstantAccess

/-!
# Resolving constants

A constant that waits for a feature is resolved in the module that declares it, or, once that
module is gone, in the one that it is read from: the loader runs while the constant is marked, and
then what the module has under the name is settled.  The loader is left out if there is none, or if
some thread is running it for the constant already.

* `Reported`, `World.Reported`: states that differ in what was reported only;
* `Constant.settled`, `ownConstant_settleAutoload`: what settling does to the constants that are
  stored;
* `Enters`, `resolveAutoload_apply`, `resolveAutoload_congr`: when the loader runs, and what is done
  around it;
* `AtRest`, `Regular`: universes in which nothing is being loaded, and loaders that run code of the
  usual kind;
* `resolved_of_ok`, `Read`, `read_of_ok`: what resolving and reading a constant come to.
-/

namespace ObjectModel

variable {σ : Type} {u v : Universe} {k m n : ModuleId} {name : String} {c : Constant}
  {a : AutoloadId}

namespace Universe

/-! ### Reports -/

/-- How modules are shown depends on their names and kinds, and on the classes of objects. -/
theorem display_congr (hname : ∀ k, (v.module k).name = (u.module k).name)
    (hkind : ∀ k, (v.module k).kind = (u.module k).kind) (hobjects : v.objects = u.objects)
    (m : ModuleId) : v.display m = u.display m := by
  have hobject (o : ObjectId) : v.object o = u.object o := by
    rw [object, hobjects, object]
  fun_induction display u m <;> rw [display] <;> simp_all only [] <;> rfl

theorem constantName_congr (hname : ∀ k, (v.module k).name = (u.module k).name)
    (hkind : ∀ k, (v.module k).kind = (u.module k).kind) (hobjects : v.objects = u.objects)
    (m : ModuleId) (name : String) : v.constantName m name = u.constantName m name := by
  rw [constantName, display_congr hname hkind hobjects, constantName]

/-- The second universe is the first, apart from what was reported. -/
def Reported (u v : Universe) : Prop := v = { u with reports := v.reports }

namespace Reported

theorem refl (u : Universe) : u.Reported u := rfl

theorem trans {w : Universe} (h : u.Reported v) (h' : v.Reported w) : u.Reported w := by
  rw [Reported, h] at h'
  exact h'

theorem report (e : Event) (u : Universe) : u.Reported (report e u).2 := rfl

variable (h : u.Reported v)
include h

theorem modules : v.modules = u.modules := by rw [h]

theorem module (m : ModuleId) : v.module m = u.module m := module_congr h.modules m

theorem ownConstant (k : ModuleId) (name : String) :
    v.ownConstant k name = u.ownConstant k name := by
  rw [Universe.ownConstant, h.module, Universe.ownConstant]

theorem autoload (a : AutoloadId) : v.autoload a = u.autoload a := by
  rw [h]
  rfl

theorem hasLoader : v.hasLoader = u.hasLoader := by rw [h]

theorem knows (m : ModuleId) : v.knows m ↔ u.knows m := by
  rw [h]
  rfl

theorem constantName (m : ModuleId) (name : String) :
    v.constantName m name = u.constantName m name :=
  constantName_congr (fun k => by rw [h.module]) (fun k => by rw [h.module]) (by rw [h]) m name

end Reported

end Universe

/-- The second world is the first, apart from what was reported. -/
structure World.Reported (w w' : World σ) : Prop where
  thread : w'.thread = w.thread
  host : w'.host = w.host
  gone : w'.gone = w.gone
  model : w.model.Reported w'.model

namespace World.Reported

variable {w w' w'' : World σ}

theorem refl (w : World σ) : w.Reported w := ⟨rfl, rfl, rfl, .refl _⟩

theorem report (e : Event) (w : World σ) :
    w.Reported { w with model := (Universe.report e w.model).2 } :=
  ⟨rfl, rfl, rfl, .report e _⟩

theorem trans (h : w.Reported w') (h' : w'.Reported w'') : w.Reported w'' :=
  ⟨h'.thread.trans h.thread, h'.host.trans h.host, h'.gone.trans h.gone, h.model.trans h'.model⟩

theorem holder (h : w.Reported w') (m : ModuleId) (c : Constant) :
    w'.holder m c = w.holder m c := by
  rw [World.holder, h.gone, World.holder]

end World.Reported

/-- A constant after settling: nothing is loaded for it any more. -/
def Constant.settled (c : Constant) : Constant := if c.isAutoload then c.withoutBinding else c

theorem Constant.map_settled {c? : Option Constant} (h : c?.any isAutoload = false) :
    c?.map settled = c? := by
  cases c? with
  | none => rfl
  | some c => simp_all [settled]

@[simp] theorem Constant.isAutoload_settled (c : Constant) : c.settled.isAutoload = false := by
  unfold Constant.settled
  split
  · rfl
  · next h => simpa using h

theorem Constant.value?_settled {c : Constant} (h : c.isAutoload = true) :
    c.settled.value? = none := by
  rw [Constant.settled, if_pos h]
  rfl

/-- What has a value waits for nothing. -/
theorem Constant.not_autoload_of_value {c : Constant} {x : Value} (h : c.value? = some x) :
    c.isAutoload = false := by
  obtain ⟨declaring, own, binding⟩ := c
  cases binding with
  | value => rfl
  | autoload | undefined => cases h

@[simp] theorem Constant.isPrivate_settled (c : Constant) : c.settled.isPrivate = c.isPrivate := by
  unfold Constant.settled
  split <;> rfl

namespace Universe

variable {w w' : World σ} {x : Option Constant} {require : String → Act σ Bool}

/-! ### Settling -/

theorem settleAutoload_of_pending {c : Constant} (hc : u.ownConstant n name = some c)
    (hp : c.isAutoload = true) :
    settleAutoload n name u = (none, (changeConstants n (·.insert name c.withoutBinding) u).2) := by
  unfold settleAutoload
  rw [Change.get_bind, hc]
  obtain ⟨declaring, own, binding⟩ := c
  cases binding with
  | value | undefined => cases hp
  | autoload a => rfl

/-- What waits for no feature is left alone. -/
theorem settleAutoload_of_not_autoload
    (h : (u.ownConstant n name).any Constant.isAutoload = false) :
    settleAutoload n name u = ((u.ownConstant n name).filter fun c => c.value?.isSome, u) := by
  unfold settleAutoload
  rw [Change.get_bind]
  cases hc : u.ownConstant n name with
  | none => rfl
  | some c =>
    rw [hc] at h
    obtain ⟨declaring, own, binding⟩ := c
    cases binding with
    | autoload a => cases h
    | value | undefined => rfl

theorem ownConstant_settleAutoload (n : ModuleId) (name : String) (u : Universe) (k : ModuleId)
    (other : String) :
    (settleAutoload n name u).2.ownConstant k other =
      if n = k ∧ name = other then (u.ownConstant k other).map Constant.settled
      else u.ownConstant k other := by
  cases hp : (u.ownConstant n name).any Constant.isAutoload with
  | false =>
    rw [settleAutoload_of_not_autoload hp]
    split
    · next h =>
      obtain ⟨rfl, rfl⟩ := h
      rw [Constant.map_settled hp]
    · rfl
  | true =>
    obtain ⟨c, hc, hp⟩ := Option.any_eq_true _ _ |>.1 hp
    rw [settleAutoload_of_pending hc hp, ownConstant_insert]
    split
    · next h =>
      obtain ⟨rfl, rfl⟩ := h
      rw [hc, Option.map_some, Constant.settled, if_pos hp]
    · rfl

/-- Settling gives the constant that is there afterwards, if it has a value. -/
theorem settleAutoload_fst (n : ModuleId) (name : String) (u : Universe) :
    (settleAutoload n name u).1 =
      ((settleAutoload n name u).2.ownConstant n name).filter fun c => c.value?.isSome := by
  rw [ownConstant_settleAutoload, if_pos ⟨rfl, rfl⟩]
  cases hp : (u.ownConstant n name).any Constant.isAutoload with
  | false =>
    rw [settleAutoload_of_not_autoload hp, Constant.map_settled hp]
  | true =>
    obtain ⟨c, hc, hp⟩ := Option.any_eq_true _ _ |>.1 hp
    rw [settleAutoload_of_pending hc hp, hc, Option.map_some, Constant.settled, if_pos hp]
    rfl

/-- Settling gives the value that the constant has afterwards, and lets it wait no more. -/
theorem value_settleAutoload (n : ModuleId) (name : String) (u : Universe) :
    (settleAutoload n name u).1.bind Constant.value? =
      ((settleAutoload n name u).2.ownConstant n name).bind Constant.value? ∧
    ((settleAutoload n name u).2.ownConstant n name).any Constant.isAutoload = false := by
  constructor
  · rw [settleAutoload_fst]
    cases (settleAutoload n name u).2.ownConstant n name with
    | none => rfl
    | some c => cases hx : c.value? <;> simp [Option.filter, hx]
  · rw [ownConstant_settleAutoload, if_pos ⟨rfl, rfl⟩]
    cases u.ownConstant n name <;> simp

theorem after_settleAutoload (n : ModuleId) (name : String) (u : Universe) :
    u.after (.settleAutoload n name) = (settleAutoload n name u).2 := by
  rw [after, Move.run, Update.final_discard]
  rfl

/-- There is nothing to settle in a module that does not exist. -/
theorem settleAutoload_of_not_knows (hu : u.WellFormed) (hn : ¬u.knows n) (name : String) :
    settleAutoload n name u = (none, u) := by
  have hc : u.ownConstant n name = none :=
    Option.eq_none_iff_forall_ne_some.2 fun _ hc => hn (hu.knows_of_ownConstant hc)
  rw [settleAutoload_of_not_autoload (by rw [hc]; rfl), hc]
  rfl

theorem Arises.settled (h : Arises u) (n : ModuleId) (name : String) :
    Arises (settleAutoload n name u).2 := by
  by_cases hn : u.knows n
  · have hknown : (Move.settleAutoload n name).Known u := hn
    exact after_settleAutoload n name u ▸ h.after hknown trivial
  · rwa [settleAutoload_of_not_knows h.reachable.wellFormed hn]

/-- What settling leaves alone: all but one table of constants. -/
structure SettledAlike (u v : Universe) : Prop where
  searched : ∀ k, SearchedAlike u v k
  kind : ∀ k, (v.module k).kind = (u.module k).kind
  name : ∀ k, (v.module k).name = (u.module k).name
  objects : v.objects = u.objects
  autoloads : v.autoloads = u.autoloads
  hasLoader : v.hasLoader = u.hasLoader

theorem settledAlike_settleAutoload (n : ModuleId) (name : String) (u : Universe) :
    SettledAlike u (settleAutoload n name u).2 := by
  cases hp : (u.ownConstant n name).any Constant.isAutoload with
  | false =>
    rw [settleAutoload_of_not_autoload hp]
    exact ⟨fun _ => .of_eq rfl, fun _ => rfl, fun _ => rfl, rfl, rfl, rfl⟩
  | true =>
    obtain ⟨c, hc, hp⟩ := Option.any_eq_true _ _ |>.1 hp
    rw [settleAutoload_of_pending hc hp]
    let f (r : Module) : Module := r.updateConstants (·.insert name c.withoutBinding)
    have hmodule (k : ModuleId) : (u.modifyModule n f).module k = f (u.module k) ∨
        (u.modifyModule n f).module k = u.module k := by
      rw [module_modifyModule]
      split
      · exact .inl rfl
      · exact .inr rfl
    constructor
    · intro k
      constructor <;> rcases hmodule k with h | h <;> exact (congrArg _ h).trans rfl
    · intro k
      rcases hmodule k with h | h <;> exact (congrArg _ h).trans rfl
    · intro k
      rcases hmodule k with h | h <;> exact (congrArg _ h).trans rfl
    · rfl
    · rfl
    · rfl

/-! ### Resolving -/

/-- Resolving a constant enters the loader: there is one, and the constant waits for a feature that
no thread is loading. -/
def Enters (u : Universe) (c : Constant) : Prop :=
  u.hasLoader = true ∧ ∃ a, c.autoload? = some a ∧ (u.autoload a).isLoading = false

/-- What is done where the loader is entered. -/
def loadFeature (require : String → Act σ Bool) (n : ModuleId) (name : String) (a : AutoloadId) :
    Act σ (Option Constant) := fun w =>
  let qualified := w.model.constantName n name
  let feature := (w.model.autoload a).feature
  (do guardAutoload a do
        report (.autoloading qualified feature)
        discard <| require feature
        report (.autoloaded qualified)
      settleAutoload n name : Act σ (Option Constant)) w

theorem resolveAutoload_apply (require : String → Act σ Bool) (n : ModuleId) (name : String)
    (ha : c.autoload? = some a) (w : World σ) :
    resolveAutoload require n name c w =
      if (w.model.autoload a).isLoadingOn w.thread then .ok none w
      else if w.model.hasLoader then
        if (w.model.autoload a).isLoading then
          .ok ((w.model.ownConstant n name).filter fun c => c.value?.isSome)
            { w with model :=
              (report (.autoloadElsewhere (w.model.constantName n name)) w.model).2 }
        else loadFeature require n name a w
      else
        (settleAutoload n name : Act σ (Option Constant))
          { w with model :=
            (report (.noFeatureLoader (w.model.constantName n name)) w.model).2 } := by
  unfold resolveAutoload
  rw [ha]
  show (if (w.model.autoload a).isLoadingOn w.thread then _ else _ : Act σ (Option Constant)) w = _
  split
  · rfl
  · show (if w.model.hasLoader then _ else _ : Act σ (Option Constant)) w = _
    split
    · show (if (w.model.autoload a).isLoading then _ else _ : Act σ (Option Constant)) w = _
      split <;> rfl
    · rfl

/-- Where the loader is not entered, it does not matter. -/
theorem resolveAutoload_congr (require require' : String → Act σ Bool) (n : ModuleId)
    (name : String) (h : ¬w.model.Enters c) :
    resolveAutoload require n name c w = resolveAutoload require' n name c w := by
  cases ha : c.autoload? with
  | none =>
    unfold resolveAutoload
    rw [ha]
  | some a =>
    rw [resolveAutoload_apply require n name ha, resolveAutoload_apply require' n name ha]
    split
    · rfl
    · split
      · next hl =>
        have hloading : (w.model.autoload a).isLoading = true :=
          eq_true_of_ne_false fun hno => h ⟨hl, a, ha, hno⟩
        rw [if_pos hloading, if_pos hloading]
      · rfl

/-- The world in which the loader is entered. -/
def entering (n : ModuleId) (name : String) (a : AutoloadId) (w : World σ) : World σ :=
  { w with model := (report
      (.autoloading (w.model.constantName n name) (w.model.autoload a).feature)
      (w.model.after (.markAutoload a (some w.thread)))).2 }

theorem loadFeature_apply (require : String → Act σ Bool) (n : ModuleId) (name : String)
    (a : AutoloadId) (w : World σ) :
    loadFeature require n name a w =
      match require (w.model.autoload a).feature (entering n name a w) with
      | .ok _ w₁ =>
        (settleAutoload n name : Act σ (Option Constant)) (markAutoload a none
          { w₁ with model :=
            (report (.autoloaded (w.model.constantName n name)) w₁.model).2 })
      | .error f w₁ => .error f (markAutoload a none w₁) := by
  let last : Act σ Unit := report (.autoloaded (w.model.constantName n name))
  let inner : Act σ Unit := do discard <| require (w.model.autoload a).feature; last
  have hguard (r : EStateM.Result Failure (World σ) Unit) (h : inner (entering n name a w) = r) :
      (do report (.autoloading (w.model.constantName n name) (w.model.autoload a).feature); inner :
        Act σ Unit) (markAutoload a (some w.thread) w) = r := h
  cases h : require (w.model.autoload a).feature (entering n name a w) with
  | error f w₁ =>
    have hfailed := hguard _ (Act.bind_of_error (f := fun _ => last) (Act.discard_of_error h))
    exact Act.bind_of_error (Act.ensuring_of_error (markAutoload a none) hfailed)
  | ok b w₁ =>
    have hdone := hguard _ (Act.bind_of_ok (f := fun _ => last) (Act.discard_of_ok h))
    exact Act.bind_of_ok (Act.ensuring_of_ok (markAutoload a none) hdone)

/-! ### Loaders -/

/-- No thread is loading anything. -/
def AtRest (u : Universe) : Prop := ∀ a, (u.autoload a).isLoading = false

/-- A loader runs code of the usual kind: while it does not fail, it makes genuine moves, comes back
on the thread that it was entered on, and ends all loading that it begins. -/
def Regular (require : String → Act σ Bool) : Prop :=
  ∀ feature (w : World σ) b (w' : World σ), Arises w.model → require feature w = .ok b w' →
    w'.thread = w.thread ∧ (∃ mvs, w.model.AllGenuine mvs ∧ w.model.afterAll mvs = w'.model) ∧
      ∀ a, (w'.model.autoload a).thread = (w.model.autoload a).thread

theorem atRest_iff : u.AtRest ↔ ∀ e ∈ u.autoloads.entries, e.2.isLoading = false := by
  constructor
  · intro h e he
    have hstate : u.autoload e.1 = e.2 := by
      rw [autoload, Table.mem_entries_iff.1 he]
      rfl
    rw [← hstate]
    exact h e.1
  · intro h a
    rw [autoload]
    cases hstate : u.autoloads.find? a with
    | none => rfl
    | some s => exact h _ (Table.mem_entries_iff.2 hstate)

instance (u : Universe) : Decidable u.AtRest := decidable_of_iff _ atRest_iff.symm

theorem AtRest.loading? (h : u.AtRest) (c : Constant) : u.loading? c = none := by
  unfold Universe.loading?
  cases c.autoload? with
  | none => rfl
  | some a => simp [h a]

theorem AtRest.of_thread (hu : u.AtRest)
    (h : ∀ a, (v.autoload a).thread = (u.autoload a).thread) : v.AtRest := by
  intro a
  rw [Autoload.isLoading, h]
  exact hu a

theorem AtRest.of_autoloads (hu : u.AtRest) (h : v.autoloads = u.autoloads) : v.AtRest :=
  hu.of_thread fun a => by rw [Universe.autoload, h, Universe.autoload]

theorem AtRest.of_reported (hu : u.AtRest) (h : u.Reported v) : v.AtRest :=
  hu.of_thread fun a => by rw [h.autoload]

theorem AtRest.enters_iff (h : u.AtRest) (hc : c.isAutoload = true) :
    u.Enters c ↔ u.hasLoader = true := by
  obtain ⟨a, ha⟩ := Option.isSome_iff_exists.1 hc
  exact ⟨fun he => he.1, fun hl => ⟨hl, a, ha, h a⟩⟩

/-- The mark that a thread sets before it enters the loader is gone when the loader has returned. -/
theorem AtRest.loaded (hu : u.AtRest) (a : AutoloadId) (t : Option ThreadId)
    (h : ∀ b, (v.autoload b).thread = ((u.after (.markAutoload a t)).autoload b).thread) :
    (v.after (.markAutoload a none)).AtRest := by
  intro b
  show ((v.setAutoload a { v.autoload a with thread := none }).autoload b).isLoading = false
  rw [autoload_setAutoload]
  split
  · rfl
  · next hne =>
    have hb : ((u.after (.markAutoload a t)).autoload b) = u.autoload b := by
      show (u.setAutoload a _).autoload b = _
      rw [autoload_setAutoload, if_neg hne]
    rw [Autoload.isLoading, h b, hb]
    exact hu b

theorem Arises.report (h : Arises u) (e : Event) : Arises (report e u).2 :=
  @Arises.after u h (.report e) trivial trivial

theorem Arises.marked (h : Arises u) (a : AutoloadId) (t : Option ThreadId) :
    Arises (u.after (.markAutoload a t)) :=
  @Arises.after u h (.markAutoload a t) trivial trivial

/-- Loading a feature leaves what is to be settled in a universe that is at rest again. -/
theorem loaded_of_ok (hr : Regular require) (ha : Arises w.model) (hrest : w.model.AtRest)
    (h : loadFeature require n name a w = .ok x w') :
    ∃ v, Arises v ∧ v.AtRest ∧ w'.thread = w.thread ∧
      x = (settleAutoload n name v).1 ∧ w'.model = (settleAutoload n name v).2 := by
  rw [loadFeature_apply] at h
  have hentered : Arises (entering n name a w).model :=
    (ha.marked a (some w.thread)).report _
  cases hrun : require (w.model.autoload a).feature (entering n name a w) with
  | error f w₁ =>
    rw [hrun] at h
    cases h
  | ok b w₁ =>
    rw [hrun] at h
    cases h
    obtain ⟨hthread, ⟨mvs, hg, hmvs⟩, hloads⟩ := hr _ _ _ _ hentered hrun
    have hback : Arises w₁.model := hmvs ▸ hentered.afterAll mvs hg
    have hleft := (hback.report (.autoloaded (w.model.constantName n name))).marked a none
    exact ⟨_, hleft, hrest.loaded a (some w.thread) hloads, hthread, rfl, rfl⟩

/-- While nothing is being loaded for it, resolving a constant settles it, after its feature was
loaded if there is a loader. -/
theorem resolveAutoload_of_idle (require : String → Act σ Bool) (n : ModuleId) (name : String)
    (ha : c.autoload? = some a) (hidle : (w.model.autoload a).isLoading = false) :
    resolveAutoload require n name c w =
      if w.model.hasLoader then loadFeature require n name a w
      else
        (settleAutoload n name : Act σ (Option Constant))
          { w with model :=
            (report (.noFeatureLoader (w.model.constantName n name)) w.model).2 } := by
  have hthread : (w.model.autoload a).thread = none := by simpa [Autoload.isLoading] using hidle
  simp [resolveAutoload_apply require n name ha, Autoload.isLoadingOn, Autoload.isLoading, hthread]

theorem resolved_of_ok (hr : Regular require) (ha : Arises w.model) (hrest : w.model.AtRest)
    (hc : c.isAutoload = true) (h : resolveAutoload require n name c w = .ok x w') :
    ∃ v, Arises v ∧ v.AtRest ∧
      (w.model.hasLoader = false → w.model.Reported v ∧ w'.gone = w.gone) ∧
      w'.thread = w.thread ∧ x = (settleAutoload n name v).1 ∧
      w'.model = (settleAutoload n name v).2 := by
  obtain ⟨a, hauto⟩ := Option.isSome_iff_exists.1 hc
  rw [resolveAutoload_of_idle require n name hauto (hrest a)] at h
  cases hl : w.model.hasLoader with
  | true =>
    rw [hl, if_pos rfl] at h
    obtain ⟨v, hv, hrest', hthread, hx, hmodel⟩ := loaded_of_ok hr ha hrest h
    exact ⟨v, hv, hrest', nofun, hthread, hx, hmodel⟩
  | false =>
    rw [hl, if_neg Bool.false_ne_true] at h
    cases h
    exact ⟨_, ha.report _, hrest, fun _ => ⟨.report _ _, rfl⟩, rfl, rfl, rfl⟩

/-! ### Values -/

/-- The world in which a constant is read, after what is said about it if it is deprecated. -/
def noting (m : ModuleId) (c : Constant) (w : World σ) : World σ :=
  if c.isDeprecated then
    { w with model := (report (.deprecatedConstant (w.model.constantName m c.name)) w.model).2 }
  else w

theorem reported_noting (m : ModuleId) (c : Constant) (w : World σ) :
    w.Reported (noting m c w) := by
  unfold noting
  split
  · exact .report _ w
  · exact .refl w

theorem arises_noting (m : ModuleId) (c : Constant) (h : Arises w.model) :
    Arises (noting m c w).model := by
  unfold noting
  split
  · exact h.report _
  · exact h

theorem lift_reportNow (e : Universe → Event) (w : World σ) :
    (reportNow e : Act σ Unit) w = .ok () { w with model := (report (e w.model) w.model).2 } := rfl

theorem constantValue_eq (require : String → Act σ Bool) (m : ModuleId) (c : Constant)
    (w : World σ) :
    constantValue require m c w =
      if c.isAutoload then
        (do return (← resolveAutoload require (w.holder m c) c.name c).bind Constant.value? :
          Act σ (Option Value)) (noting m c w)
      else .ok c.value? (noting m c w) := by
  unfold constantValue noting
  split
  · refine (Act.bind_of_ok (lift_reportNow _ w)).trans ?_
    split <;> rfl
  · split <;> rfl

/-- What waits for no feature is read without further ado. -/
theorem constantValue_of_not_autoload (require : String → Act σ Bool) (m : ModuleId)
    (hc : c.isAutoload = false) (w : World σ) :
    ∃ w₁, w.Reported w₁ ∧ constantValue require m c w = .ok c.value? w₁ :=
  ⟨noting m c w, reported_noting m c w, by simp [constantValue_eq, hc]⟩

/-- Without a loader a constant is settled at once. -/
theorem constantValue_of_no_loader (require : String → Act σ Bool) (m : ModuleId)
    (hrest : w.model.AtRest) (hc : c.isAutoload = true) (hl : w.model.hasLoader = false) :
    ∃ w₁, w.Reported w₁ ∧ constantValue require m c w =
      .ok ((settleAutoload (w.holder m c) c.name w₁.model).1.bind Constant.value?)
        { w₁ with model := (settleAutoload (w.holder m c) c.name w₁.model).2 } := by
  have hnoted := reported_noting m c w
  have hrest' := hrest.of_reported hnoted.model
  obtain ⟨a, hauto⟩ := Option.isSome_iff_exists.1 hc
  have hres := resolveAutoload_of_idle require (w.holder m c) c.name hauto (hrest' a)
  rw [hnoted.model.hasLoader, hl, if_neg Bool.false_ne_true] at hres
  have hreported := hnoted.trans (.report (.noFeatureLoader
    ((noting m c w).model.constantName (w.holder m c) c.name)) (noting m c w))
  refine ⟨_, hreported, ?_⟩
  rw [constantValue_eq, if_pos hc]
  exact Act.bind_of_ok hres

/-- What reading a constant comes to that is resolved in the module `n`, if it does not fail. -/
structure Read (w : World σ) (n : ModuleId) (c : Constant) (y : Option Value) (w' : World σ) :
    Prop where
  arises : Arises w'.model
  atRest : w'.model.AtRest
  thread : w'.thread = w.thread
  bound : c.isAutoload = false → y = c.value? ∧ w.Reported w'
  loaded : c.isAutoload = true →
    y = (w'.model.ownConstant n c.name).bind Constant.value? ∧
      (w'.model.ownConstant n c.name).any Constant.isAutoload = false
  settled : c.isAutoload = true → w.model.hasLoader = false → w'.gone = w.gone ∧
    ∃ v, w.model.Reported v ∧ w'.model = (settleAutoload n c.name v).2

theorem read_of_ok {y : Option Value} (hr : Regular require) (ha : Arises w.model)
    (hrest : w.model.AtRest) (h : constantValue require m c w = .ok y w') :
    Read w (w.holder m c) c y w' := by
  have hnoted := reported_noting m c w
  rw [constantValue_eq] at h
  cases hc : c.isAutoload with
  | false =>
    rw [hc, if_neg Bool.false_ne_true] at h
    cases h
    exact {
      arises := arises_noting m c ha
      atRest := hrest.of_reported hnoted.model
      thread := hnoted.thread
      bound _ := ⟨rfl, hnoted⟩
      loaded hp := nomatch hc.symm.trans hp
      settled hp := nomatch hc.symm.trans hp }
  | true =>
    rw [hc, if_pos rfl] at h
    cases hres : resolveAutoload require (w.holder m c) c.name c (noting m c w) with
    | error f w₁ => cases (Act.bind_of_error hres).symm.trans h
    | ok x w₁ =>
      cases (Act.bind_of_ok hres).symm.trans h
      obtain ⟨v, hv, hrest', hreported, hthread, hx, hmodel⟩ := resolved_of_ok hr
        (arises_noting m c ha) (hrest.of_reported hnoted.model) hc hres
      obtain ⟨hvalue, hsettled⟩ := value_settleAutoload (w.holder m c) c.name v
      exact {
        arises := hmodel ▸ hv.settled _ _
        atRest := hrest'.of_autoloads
          (by rw [hmodel, (settledAlike_settleAutoload _ _ _).autoloads])
        thread := hthread.trans hnoted.thread
        bound hb := nomatch hc.symm.trans hb
        loaded _ := ⟨by rw [hx, hmodel, hvalue], by rw [hmodel, hsettled]⟩
        settled _ hl := by
          obtain ⟨hsame, hgone⟩ := hreported (hnoted.model.hasLoader.trans hl)
          exact ⟨hgone.trans hnoted.gone, v, hnoted.model.trans hsame, hmodel⟩ }

end Universe

end ObjectModel
