import ObjectModel.Proofs.Move

/-!
# Keeping

An operation keeps a predicate on universes if the predicate holds after it whenever it held
before, whether the operation succeeds or fails.

* `Change.Keeps`, `Update.Keeps`, and how they pass through the ways to compose operations;
* `Act.final`, `Act.result?`: the world that an action leaves, and what it gives;
* `Act.bind_of_ok`, `Act.lift_of_ok`, `Act.ensuring_of_ok` and their kin: what actions come to that
  are made of others, or of updates.
-/

namespace ObjectModel

variable {α β : Type} {I : Universe → Prop}

/-- The predicate holds after the change if it held before. -/
def Change.Keeps (I : Universe → Prop) (x : Change α) : Prop := ∀ u, I u → I (x u).2

/-- The predicate holds after the update, successful or not, if it held before. -/
def Update.Keeps (I : Universe → Prop) (x : Update α) : Prop := ∀ u, I u → I (Update.final x u)

/-! ### Changes -/

namespace Change

theorem get_bind (f : Universe → Change α) (u : Universe) :
    (get >>= f : Change α) u = f u u := rfl

theorem bind_apply (x : Change α) (f : α → Change β) (u : Universe) :
    (x >>= f) u = f (x u).1 (x u).2 := rfl

theorem keeps_pure (a : α) : Change.Keeps I (pure a) := fun _ h => h

theorem keeps_bind {x : Change α} {f : α → Change β} (hx : Change.Keeps I x)
    (hf : ∀ a, Change.Keeps I (f a)) : Change.Keeps I (x >>= f) :=
  fun u h => hf (x u).1 (x u).2 (hx u h)

/-- What is done with the universe just read starts from that universe. -/
theorem keeps_get_bind {f : Universe → Change β} (h : ∀ u, I u → I (f u u).2) :
    Change.Keeps I (get >>= f) := h

/-- Giving a method its identity draws at most one number. -/
theorem keeps_holdMethod (h : Change.Keeps I Universe.freshSerial) (f : Method) :
    Change.Keeps I (Universe.holdMethod f) := by
  unfold Universe.holdMethod
  split
  · exact keeps_pure f
  · exact keeps_bind h fun _ => keeps_pure _

/-- So does giving a context one. -/
theorem keeps_holdContext (h : Change.Keeps I Universe.freshSerial) (c : Context) :
    Change.Keeps I (Universe.holdContext c) := by
  unfold Universe.holdContext
  split
  · exact keeps_pure c
  · exact keeps_bind h fun _ => keeps_pure _

end Change

/-! ### Updates -/

namespace Update

theorem eq_ok {x : Update α} {u : Universe} {a : α} (h : Update.result? x u = some a) :
    x u = .ok a (Update.final x u) := by
  unfold result? final at *
  cases hx : x u with
  | ok b v =>
    rw [hx] at h
    cases h
    rfl
  | error e v =>
    rw [hx] at h
    cases h

theorem get_bind (f : Universe → Update α) (u : Universe) :
    (get >>= f : Update α) u = f u u := rfl

theorem bind_apply (x : Update α) (f : α → Update β) (u : Universe) :
    (x >>= f) u =
      match x u with
      | .ok a v => f a v
      | .error e v => .error e v := by
  simp only [bind, EStateM.bind]
  cases x u <;> rfl

theorem final_bind (x : Update α) (f : α → Update β) (u : Universe) :
    Update.final (x >>= f) u =
      match x u with
      | .ok a v => Update.final (f a) v
      | .error _ v => v := by
  unfold Update.final
  rw [bind_apply]
  cases x u <;> rfl

theorem final_get_bind (f : Universe → Update α) (u : Universe) :
    Update.final (get >>= f) u = Update.final (f u) u := rfl

theorem final_lift_bind (x : Change α) (f : α → Update β) (u : Universe) :
    Update.final (liftM x >>= f) u = Update.final (f (x u).1) (x u).2 := rfl

theorem keeps_pure (a : α) : Update.Keeps I (pure a) := fun _ h => h

theorem keeps_throw (e : Error) : Update.Keeps I (throw e : Update α) := fun _ h => h

theorem keeps_bind {x : Update α} {f : α → Update β} (hx : Update.Keeps I x)
    (hf : ∀ a, Update.Keeps I (f a)) : Update.Keeps I (x >>= f) := by
  intro u h
  have hu := hx u h
  rw [final_bind]
  unfold Update.final at hu
  cases hc : x u with
  | ok a v => exact hf a v (by rwa [hc] at hu)
  | error e v => rwa [hc] at hu

theorem keeps_get_bind {f : Universe → Update β} (h : ∀ u, I u → I (Update.final (f u) u)) :
    Update.Keeps I (get >>= f) := h

theorem keeps_lift {x : Change α} (h : Change.Keeps I x) :
    Update.Keeps I (liftM x : Update α) := h

theorem final_discard (x : Update α) (u : Universe) :
    Update.final (discard x : Update Unit) u = Update.final x u := by
  unfold Update.final
  simp only [discard, Functor.mapConst, EStateM.map, Function.comp_apply]
  cases x u <;> rfl

theorem keeps_discard {x : Update α} (h : Update.Keeps I x) :
    Update.Keeps I (discard x : Update Unit) :=
  fun u hu => (final_discard x u).symm ▸ h u hu

theorem keeps_forM {l : List α} {f : α → Update Unit} (h : ∀ a ∈ l, Update.Keeps I (f a)) :
    Update.Keeps I (l.forM f) := by
  induction l with
  | nil => exact keeps_pure ()
  | cons a l ih =>
    have hrest := ih fun b hb => h b (List.mem_cons_of_mem a hb)
    exact keeps_bind (h a List.mem_cons_self) fun _ => hrest

/-- What follows a failing check only matters where the check passes. -/
theorem keeps_guard {p : Prop} [Decidable p] {e : Error} {f : Unit → Update α}
    (h : ¬p → Update.Keeps I (f ())) : Update.Keeps I (if p then throw e >>= f else f ()) := by
  split
  · exact fun _ hu => hu
  · next hp => exact h hp

theorem keeps_ite {p : Prop} [Decidable p] {x y : Update α} (hx : p → Update.Keeps I x)
    (hy : ¬p → Update.Keeps I y) : Update.Keeps I (if p then x else y) := by
  split
  · next hp => exact hx hp
  · next hp => exact hy hp

/-- One or two reports before an update. -/
theorem keeps_reported (h : ∀ e, Change.Keeps I (Universe.reportNow e)) {p : Prop} [Decidable p]
    {e e' : Universe → Event} {y : Update α} (hy : Update.Keeps I y) : Update.Keeps I
    (if p then Universe.reportNow e' >>= fun _ => Universe.reportNow e >>= fun _ => y
      else Universe.reportNow e >>= fun _ => y) := by
  have hlast : Update.Keeps I (Universe.reportNow e >>= fun _ => y) :=
    keeps_bind (keeps_lift (h e)) fun _ => hy
  exact keeps_ite (fun _ => keeps_bind (keeps_lift (h e')) fun _ => hlast) fun _ => hlast

theorem keeps_checkMutable (m : ModuleId) : Update.Keeps I (Universe.checkMutable m) := by
  refine keeps_get_bind fun u hu => ?_
  cases u.immutable? m with
  | some e => exact hu
  | none => exact hu

/-- What is done with the universe just read, when a module may be changed. -/
theorem keeps_checked {m : ModuleId} {f : Universe → Update α}
    (h : ∀ u, I u → I (Update.final (f u) u)) :
    Update.Keeps I (Universe.checkMutable m >>= fun _ => get >>= f) :=
  keeps_bind (keeps_checkMutable m) fun _ => keeps_get_bind h

end Update

/-! ### Actions -/

namespace Act

/-- The world that an action leaves, whether it succeeds or not. -/
def final {σ α : Type} (x : Act σ α) (w : World σ) : World σ :=
  match x w with
  | .ok _ w' => w'
  | .error _ w' => w'

/-- What an action gives, if it succeeds. -/
def result? {σ α : Type} (x : Act σ α) (w : World σ) : Option α :=
  match x w with
  | .ok a _ => some a
  | .error _ _ => none

variable {σ : Type} {y : Act σ α} {f : α → Act σ β} {w w' : World σ}

theorem eq_ok {a : α} (h : y.result? w = some a) : y w = .ok a (y.final w) := by
  unfold result? final at *
  cases hy : y w with
  | ok b w' =>
    rw [hy] at h
    cases h
    rfl
  | error e w' =>
    rw [hy] at h
    cases h

theorem bind_of_ok {a : α} (h : y w = .ok a w') : (y >>= f) w = f a w' := by
  simp only [Bind.bind, EStateM.bind, h]

theorem bind_of_error {e : Failure} (h : y w = .error e w') : (y >>= f) w = .error e w' := by
  simp only [Bind.bind, EStateM.bind, h]

theorem bind_congr {y' : Act σ α} {g : α → Act σ β} (hy : y w = y' w)
    (hf : ∀ a w', y w = .ok a w' → f a w' = g a w') : (y >>= f) w = (y' >>= g) w := by
  cases hrun : y w with
  | ok a w' =>
    rw [bind_of_ok hrun, bind_of_ok (hy.symm.trans hrun)]
    exact hf a w' hrun
  | error e w' => rw [bind_of_error hrun, bind_of_error (hy.symm.trans hrun)]

theorem tryCatch_of_ok {a : α} {g : Failure → Act σ α} (h : y w = .ok a w') :
    tryCatch y g w = .ok a w' := by
  show EStateM.tryCatch y g w = _
  delta EStateM.tryCatch
  rw [h]

theorem tryCatch_of_error {e : Failure} {g : Failure → Act σ α} (h : y w = .error e w') :
    tryCatch y g w = g e w' := by
  show EStateM.tryCatch y g w = _
  delta EStateM.tryCatch
  rw [h]
  rfl

theorem discard_of_ok {a : α} (h : y w = .ok a w') : (discard y : Act σ Unit) w = .ok () w' := by
  simp only [discard, Functor.mapConst, EStateM.map, Function.comp_apply, h]

theorem discard_of_error {e : Failure} (h : y w = .error e w') :
    (discard y : Act σ Unit) w = .error e w' := by
  simp only [discard, Functor.mapConst, EStateM.map, Function.comp_apply, h]

theorem ensuring_of_ok {a : α} (last : World σ → World σ) (h : y w = .ok a w') :
    ensuring y last w = .ok a (last w') := by
  simp only [ensuring, h]

theorem ensuring_of_error {e : Failure} (last : World σ → World σ) (h : y w = .error e w') :
    ensuring y last w = .error e (last w') := by
  simp only [ensuring, h]

theorem lift_of_ok {x : Update α} {a : α} {u : Universe} (h : x w.model = .ok a u) :
    (liftM x : Act σ α) w = .ok a { w with model := u } := by
  simp only [liftM, monadLift, MonadLift.monadLift, h]

theorem lift_of_error {x : Update α} {e : Error} {u : Universe} (h : x w.model = .error e u) :
    (liftM x : Act σ α) w = .error (.raised e) { w with model := u } := by
  simp only [liftM, monadLift, MonadLift.monadLift, h]

theorem final_discard (y : Act σ α) (w : World σ) :
    (discard y : Act σ Unit).final w = y.final w := by
  rw [final, final]
  cases hy : y w with
  | error e w' => rw [discard_of_error hy]
  | ok a w' => rw [discard_of_ok hy]

theorem model_final_lift (x : Update α) (w : World σ) :
    ((liftM x : Act σ α).final w).model = Update.final x w.model := by
  unfold Act.final Update.final
  cases hx : x w.model with
  | ok a u => rw [lift_of_ok hx]
  | error e u => rw [lift_of_error hx]

end Act

end ObjectModel
