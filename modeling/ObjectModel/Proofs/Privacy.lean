import ObjectModel.Proofs.Rereading
import ObjectModel.Proofs.Shadowing

/-!
# Private constants

A read through a module refuses a private constant.  It looks at the binding that the lookup found,
but the value of a constant that waits for a feature is read afterwards, from what the module that
it is resolved in has by then.

* `Leads.value_of_fixed`: a fixed module has no values but those that it had;
* `exists_loaded`: where the value of a waiting constant comes from;
* `qualified?`, `qualifiedHolder?`: the binding that a read through a module finds, and the module
  whose binding it reads;
* `Discreet`: whatever the loader does, a read gives values of public bindings only;
* `Exposed`, `discreet_iff_not_exposed`: the states in which it does;
* `exposedFeature_not_discreet`: a feature that defines a constant and makes it private.
-/

namespace ObjectModel

variable {σ : Type} {past : Prop} {r r' : Module} {u v : Universe} {t : ThreadId}
  {k m n : ModuleId} {name : String} {c b : Constant} {y : Value} {w w' : World σ}
  {require : String → Act σ Bool}

/-! ### Values of fixed modules -/

/-- Nothing gives a value to a constant of a fixed record. -/
theorem Module.Edit.value_of_fixed (h : Edit past r r') (hr : r.Fixed)
    (hb : r'.constants.find? name = some b) (hv : b.value? = some y) :
    r.constants.find? name = some b := by
  cases h with
  | named | frozen | isSealed | singled | methods | classVariables | refinements => exact hb
  | constants f h => exact absurd hr h
  | chained ch h => exact absurd hr h
  | settled other c hc ha h =>
    change (r.constants.insert other c.withoutBinding).find? name = some b at hb
    rw [Table.find?_insert] at hb
    split at hb
    · cases hb
      cases hv
    · exact hb

namespace Universe

theorem Stems.value_of_fixed (h : Stems past u m v) (hf : (u.module m).Fixed)
    (hb : v.ownConstant m name = some b) (hv : b.value? = some y) :
    u.ownConstant m name = some b := by
  rw [ownConstant] at hb ⊢
  obtain ⟨-, he⟩ := h
  generalize v.module m = r at he hb
  suffices hs : r.Fixed ∧ (r.constants.find? name = some b →
      (u.module m).constants.find? name = some b) from hs.2 hb
  clear hb
  induction he with
  | refl => exact ⟨hf, id⟩
  | tail _ he ih => exact ⟨he.fixed ih.1, fun hb => ih.2 (he.value_of_fixed ih.1 hb hv)⟩

/-- Along a run, a fixed module has no values but those that it had. -/
theorem Leads.value_of_fixed (h : Leads u v) (hm : u.knows m) (hf : (u.module m).Fixed)
    (hb : v.ownConstant m name = some b) (hv : b.value? = some y) :
    u.ownConstant m name = some b := by
  refine (Leads.induction (motive := fun v => (v.knows m ∧ (v.module m).Fixed) ∧
    (v.ownConstant m name = some b → u.ownConstant m name = some b)) ⟨⟨hm, hf⟩, id⟩ ?_ h).2 hb
  intro v mv ⟨⟨hk, hf⟩, hback⟩ hmv
  have hs := stems_after hk hmv
  exact ⟨⟨knows_mono hs.nextId hk, hs.fixed hf⟩, fun hb => hback (hs.value_of_fixed hf hb hv)⟩

/-! ### Where values come from -/

/-- Settling gives the value of a constant that has one, and leaves it. -/
theorem exists_settled (h : (settleAutoload n name u).1.bind Constant.value? = some y) :
    ∃ b, u.ownConstant n name = some b ∧ b.value? = some y ∧
      (settleAutoload n name u).2.ownConstant n name = some b := by
  rw [settleAutoload_fst, ownConstant_settleAutoload, if_pos ⟨rfl, rfl⟩] at h
  rw [ownConstant_settleAutoload, if_pos ⟨rfl, rfl⟩]
  cases hc : u.ownConstant n name with
  | none =>
    rw [hc] at h
    cases h
  | some c =>
    rw [hc] at h
    obtain ⟨declaring, own, binding⟩ := c
    cases binding with
    | value x => exact ⟨_, rfl, h, rfl⟩
    | autoload | undefined => cases h

/-- The value of a waiting constant is that of a binding which the module that it is resolved in has
when the read returns.  The binding was there when the loader returned, or before if it was not
entered. -/
theorem exists_loaded (hc : c.isAutoload = true)
    (h : constantValue require m c w = .ok (some y) w') :
    ∃ v b, v.ownConstant (w.holder m c) c.name = some b ∧ b.value? = some y ∧
      w'.model.ownConstant (w.holder m c) c.name = some b ∧
      (w.model.Reported v ∨ w.model.Enters c ∧ ∃ feature a x w₁,
        require feature (entering (w.holder m c) c.name a (noting m c w)) = .ok x w₁ ∧
          w₁.model = v) := by
  have hnoted := (reported_noting m c w).model
  obtain ⟨a, ha⟩ := Option.isSome_iff_exists.1 hc
  rw [constantValue_eq, if_pos hc] at h
  cases hres : resolveAutoload require (w.holder m c) c.name c (noting m c w) with
  | error f w₁ => cases (Act.bind_of_error hres).symm.trans h
  | ok x w₁ =>
    have hend : EStateM.Result.ok (x.bind Constant.value?) w₁ = .ok (some y) w' :=
      (Act.bind_of_ok hres).symm.trans h
    obtain ⟨hx, rfl⟩ := EStateM.Result.ok.inj hend
    rw [resolveAutoload_apply require _ _ ha] at hres
    split at hres
    · cases hres
      cases hx
    · split at hres
      · next hl =>
        split at hres
        · cases hres
          obtain ⟨b, hb, hy⟩ := Option.bind_eq_some_iff.1 hx
          have hb := (Option.filter_eq_some_iff.1 hb).1
          exact ⟨_, b, hb, hy, hb, .inl hnoted⟩
        · next hidle =>
          rw [loadFeature_apply] at hres
          cases hrun : require ((noting m c w).model.autoload a).feature
              (entering (w.holder m c) c.name a (noting m c w)) with
          | error f w₂ =>
            rw [hrun] at hres
            cases hres
          | ok x' w₂ =>
            rw [hrun] at hres
            cases hres
            obtain ⟨b, hb, hy, hleft⟩ := exists_settled hx
            have hidle' : (w.model.autoload a).isLoading = false := by
              rw [← hnoted.autoload]
              exact eq_false_of_ne_true hidle
            exact ⟨w₂.model, b, hb, hy, hleft, .inr
              ⟨⟨hnoted.hasLoader.symm.trans hl, a, ha, hidle'⟩, _, a, x', w₂, hrun, rfl⟩⟩
      · cases hres
        obtain ⟨b, hb, hy, hleft⟩ := exists_settled hx
        exact ⟨_, b, hb, hy, hleft, .inl (hnoted.trans (.report _ _))⟩

/-! ### Reads through a module -/

/-- The binding that a read through a module finds. -/
def qualified? (u : Universe) (t : ThreadId) (m : ModuleId) (name : String) : Option Constant :=
  match u.lookupConstantInherit t m name true with
  | .ok r => r.constant
  | .error _ => none

/-- The module whose binding such a read gives the value of: the one where it was found, or the one
that it is resolved in if it waits for a feature. -/
def qualifiedHolder? (w : World σ) (m : ModuleId) (name : String) : Option ModuleId :=
  (w.model.openConstantPath m).findSome? fun k =>
    ((w.model.ownConstant k name).filter (w.model.stopsAt w.thread)).map
      fun c => if c.isAutoload then w.holder m c else k

theorem findSome?_map_of_findSome? {α β γ : Type} {f : α → Option β} (g : α → β → γ)
    {l : List α} {b : β} (h : l.findSome? f = some b) :
    ∃ a ∈ l, f a = some b ∧ l.findSome? (fun a => (f a).map (g a)) = some (g a b) := by
  induction l with
  | nil => cases h
  | cons a l ih =>
    rw [List.findSome?_cons] at h ⊢
    cases ha : f a with
    | none =>
      rw [ha] at h
      obtain ⟨a', hmem, ha', hg⟩ := ih h
      exact ⟨a', List.mem_cons_of_mem a hmem, ha', hg⟩
    | some b' =>
      rw [ha] at h
      cases h
      exact ⟨a, List.mem_cons_self, ha, rfl⟩

theorem exists_qualifiedHolder (h : w.model.qualified? w.thread m name = some c) :
    Name.isConstantName name = true ∧ w.model.stopsAt w.thread c = true ∧
      ∃ k, w.model.ownConstant k name = some c ∧
        qualifiedHolder? w m name = some (if c.isAutoload then w.holder m c else k) := by
  rw [qualified?, lookupConstantInherit] at h
  cases hname : Name.isConstantName name with
  | false =>
    rw [hname, if_neg Bool.false_ne_true] at h
    cases h
  | true =>
    rw [hname, if_pos rfl] at h
    change (w.model.searchConstant w.thread name (w.model.openConstantPath m)).constant =
      some c at h
    rw [searchConstant_constant] at h
    obtain ⟨k, -, hk, hholder⟩ := findSome?_map_of_findSome?
      (fun k (c : Constant) => if c.isAutoload then w.holder m c else k) h
    obtain ⟨hown, hstops⟩ := Option.filter_eq_some_iff.1 hk
    exact ⟨rfl, hstops, k, hown, hholder⟩

/-- A read through a module gives the value of a public binding that it found. -/
theorem scopedConstantGet_eq_ok : scopedConstantGet require m name w = .ok y w' ↔
    ∃ c, w.model.qualified? w.thread m name = some c ∧ c.isPrivate = false ∧
      constantValue require m c w = .ok (some y) w' := by
  have hlookup := lookupSegment_apply m name true w
  unfold qualified?
  cases hr : w.model.lookupConstantInherit w.thread m name true with
  | error e =>
    rw [hr] at hlookup
    have hrun : scopedConstantGet require m name w = .error (.raised e) w :=
      Act.bind_of_error hlookup
    simp [hrun]
  | ok r =>
    rw [hr] at hlookup
    cases hc : r.constant with
    | none =>
      have hrun := ConstantRead.scopedConstantGet_of_public require hlookup (by rw [hc]; rfl)
      rw [resultValue, hc] at hrun
      constructor
      · intro h
        cases hrun.symm.trans h
      · rintro ⟨c, hfound, -⟩
        cases hc.symm.trans hfound
    | some c =>
      cases hp : c.isPrivate with
      | true =>
        have hrun := ConstantRead.scopedConstantGet_of_private require hlookup
          (by rw [hc]; exact hp)
        constructor
        · intro h
          cases hrun.symm.trans h
        · rintro ⟨c', hfound, hpublic, -⟩
          cases hc.symm.trans hfound
          cases hp.symm.trans hpublic
      | false =>
        have hrun := ConstantRead.scopedConstantGet_of_public require hlookup (by rw [hc]; exact hp)
        rw [resultValue, hc] at hrun
        constructor
        · intro h
          refine ⟨c, hc, hp, ?_⟩
          cases hvalue : constantValue require m c w with
          | error f w₁ => cases (hrun.trans (Act.bind_of_error hvalue)).symm.trans h
          | ok y' w₁ =>
            have hlast := (hrun.trans (Act.bind_of_ok hvalue)).symm.trans h
            cases y' with
            | none => cases hlast
            | some y' =>
              cases hlast
              rfl
        · rintro ⟨c', hfound, -, hvalue⟩
          cases hc.symm.trans hfound
          exact hrun.trans (Act.bind_of_ok hvalue)

/-! ### Discretion -/

/-- Whatever the loader does, a read through a module gives values of public bindings only: the
binding that it gives the value of is public when it returns. -/
def Discreet (w : World σ) (m : ModuleId) (name : String) : Prop :=
  ∀ require : String → Act σ Bool, Regular require → ∀ y w',
    scopedConstantGet require m name w = .ok y w' →
      ∃ k b, qualifiedHolder? w m name = some k ∧
        w'.model.ownConstant k name = some b ∧ b.value? = some y ∧ b.isPrivate = false

/-- A module has a value under a name, and keeps it private. -/
def HidesValue (u : Universe) (m : ModuleId) (name : String) : Prop :=
  ∃ b y, u.ownConstant m name = some b ∧ b.value? = some y ∧ b.isPrivate = true

/-- A read finds a public binding that waits for a feature, and the module that it is resolved in
hides a value, or can be made to while the feature is loaded. -/
def Exposed (w : World σ) (m : ModuleId) (name : String) : Prop :=
  ∃ c, w.model.qualified? w.thread m name = some c ∧ c.isPrivate = false ∧ c.isAutoload = true ∧
    (w.model.HidesValue (w.holder m c) name ∨
      w.model.Enters c ∧ ¬(w.model.module (w.holder m c)).Fixed)

/-- A constant of a module is defined and made private. -/
def concealment (m : ModuleId) (name : String) : List Move :=
  [.setConstant m name (.int 1) none, .privateConstants m [name]]

/-- A loader that does so, if the module exists. -/
def concealing (m : ModuleId) (name : String) (_ : String) : Act σ Bool := fun w =>
  .ok true { w with model :=
    if w.model.knows m then w.model.afterAll (concealment m name) else w.model }

theorem genuine_concealment (ha : Arises u) (hm : u.knows m) (name : String) :
    u.AllGenuine (concealment m name) ∧
      (u.afterAll (concealment m name)).autoloads = u.autoloads := by
  have hset : (Move.setConstant m name (.int 1) none).Known u := ⟨hm, trivial⟩
  have hnext := (Leads.of_move hset).nextId ha.reachable.wellFormed
  have hflag : (Move.privateConstants m [name]).Known
      (u.after (.setConstant m name (.int 1) none)) := knows_mono hnext hm
  exact ⟨⟨hset, trivial, hflag, trivial, trivial⟩,
    (stores_after hflag).autoloads.trans (stores_after hset).autoloads⟩

theorem regular_concealing (m : ModuleId) (name : String) :
    Regular (concealing m name : String → Act σ Bool) := by
  intro feature w b w' ha h
  cases h
  refine ⟨rfl, ?_⟩
  dsimp only
  split
  · next hm =>
    obtain ⟨hg, hloads⟩ := genuine_concealment ha hm name
    refine ⟨⟨_, hg, rfl⟩, fun a => ?_⟩
    rw [autoload, hloads, autoload]
  · exact ⟨⟨[], trivial, rfl⟩, fun _ => rfl⟩

theorem ownConstant_after_privateConstants (hf : ¬(u.module m).Fixed)
    (hname : Name.isConstantName name = true) (hc : u.ownConstant m name = some c) :
    (u.after (.privateConstants m [name])).ownConstant m name = some (c.withPrivate true) := by
  have hafter : u.after (.privateConstants m [name]) =
      (changeConstants m (·.insert name (c.withPrivate true)) u).2 := by
    rw [after, Move.run, privateConstants, updateConstants, final_checkMutable_bind,
      if_pos (immutable?_of_not_fixed hf)]
    show Update.final ((checkConstantName name >>= _) >>= _) u = _
    rw [checkConstantName, if_pos hname, pure_bind, bind_assoc, Update.final_get_bind, hc]
    rfl
  rw [hafter, ownConstant_insert, if_pos ⟨rfl, rfl⟩]

/-- The loader hides a value, or there was one that cannot be changed any more. -/
theorem hidesValue_concealment (hm : u.knows m) (ha : Arises u)
    (hname : Name.isConstantName name = true)
    (h : u.HidesValue m name ∨ ¬(u.module m).Fixed) :
    (u.afterAll (concealment m name)).HidesValue m name := by
  by_cases hf : (u.module m).Fixed
  · obtain ⟨b, y, hb, hy, hp⟩ := h.resolve_right fun hno => hno hf
    have hleads : Leads u (u.afterAll (concealment m name)) :=
      ⟨_, (genuine_concealment ha hm name).1.allKnown, rfl⟩
    have hbound : ((u.module m).constants.find? name).any Constant.isAutoload = false := by
      rw [show (u.module m).constants.find? name = some b from hb]
      exact Constant.not_autoload_of_value hy
    exact ⟨b, y, ((hleads.constantsFollow hm).binding hf name hbound).trans hb, hy, hp⟩
  · obtain ⟨hmodule, -, -⟩ := after_setConstant hf name (x := .int 1) rfl
    have hrecord := hmodule m
    rw [if_pos rfl] at hrecord
    have hset : (u.after (.setConstant m name (.int 1) none)).ownConstant m name =
        some (assigned (u.ownConstant m name) m name (.int 1) none) := by
      rw [ownConstant, hrecord]
      exact Table.find?_insert_self _ _ _
    have hfree : ¬((u.after (.setConstant m name (.int 1) none)).module m).Fixed := by
      rw [hrecord]
      exact hf
    refine ⟨_, .int 1, ownConstant_after_privateConstants hfree hname hset, ?_, rfl⟩
    cases u.ownConstant m name <;> rfl

theorem HidesValue.of_ownConstant (h : u.HidesValue m name)
    (hsame : v.ownConstant m name = u.ownConstant m name) : v.HidesValue m name := by
  obtain ⟨b, y, hb, hy, hp⟩ := h
  exact ⟨b, y, hsame.trans hb, hy, hp⟩

/-- Settling gives a hidden value as any other. -/
theorem HidesValue.settleAutoload (h : w.model.HidesValue m name) :
    ∃ b y, (settleAutoload m name : Act σ (Option Constant)) w = .ok (some b) w ∧
      w.model.ownConstant m name = some b ∧ b.value? = some y ∧ b.isPrivate = true := by
  obtain ⟨b, y, hb, hy, hp⟩ := h
  refine ⟨b, y, ?_, hb, hy, hp⟩
  show EStateM.Result.ok (Universe.settleAutoload m name w.model).1
    { w with model := (Universe.settleAutoload m name w.model).2 } = _
  rw [settleAutoload_of_not_autoload (by rw [hb]; exact Constant.not_autoload_of_value hy), hb]
  simp [Option.filter, hy]

/-- A search does not stop at a constant that its own thread is loading. -/
theorem not_isLoadingOn_of_stopsAt (h : u.stopsAt t c = true) {a : AutoloadId}
    (ha : c.autoload? = some a) : (u.autoload a).isLoadingOn t = false := by
  refine eq_false_of_ne_true fun hl => ?_
  have hloading : (u.autoload a).isLoading = true := by
    rw [Autoload.isLoading, beq_iff_eq.1 hl]
    rfl
  simp [stopsAt, loading?, ha, Option.filter, hloading, hl] at h

/-- Where a value is hidden, or the loader hides one, it is read nevertheless. -/
theorem exists_hidden_read (ha : Arises w.model) (hm : w.model.knows (w.holder m c))
    (hname : Name.isConstantName c.name = true) (hc : c.isAutoload = true)
    (hstops : w.model.stopsAt w.thread c = true)
    (h : w.model.HidesValue (w.holder m c) c.name ∨
      w.model.Enters c ∧ ¬(w.model.module (w.holder m c)).Fixed) :
    ∃ b y w', constantValue (concealing (w.holder m c) c.name) m c w = .ok (some y) w' ∧
      w'.model.ownConstant (w.holder m c) c.name = some b ∧ b.isPrivate = true := by
  generalize hn : w.holder m c = n at hm h ⊢
  have hnoted := (reported_noting m c w).model
  have hthread := (reported_noting m c w).thread
  obtain ⟨a, hauto⟩ := Option.isSome_iff_exists.1 hc
  suffices hres : ∃ b y w', resolveAutoload (concealing n c.name)
      n c.name c (noting m c w) = .ok (some b) w' ∧
      w'.model.ownConstant n c.name = some b ∧ b.value? = some y ∧
      b.isPrivate = true by
    obtain ⟨b, y, w', hres, hb, hy, hp⟩ := hres
    refine ⟨b, y, w', ?_, hb, hp⟩
    rw [constantValue_eq, if_pos hc, hn]
    refine (Act.bind_of_ok hres).trans ?_
    rw [Option.bind_some, hy]
    rfl
  have hhidden (hno : ¬w.model.Enters c) :
      (noting m c w).model.HidesValue n c.name :=
    (h.resolve_right fun he => hno he.1).of_ownConstant (hnoted.ownConstant _ _)
  rw [resolveAutoload_apply _ _ _ hauto]
  have hon : ((noting m c w).model.autoload a).isLoadingOn (noting m c w).thread = false := by
    rw [hnoted.autoload, hthread]
    exact not_isLoadingOn_of_stopsAt hstops hauto
  rw [hon, if_neg Bool.false_ne_true]
  cases hl : (noting m c w).model.hasLoader with
  | false =>
    rw [if_neg Bool.false_ne_true]
    have hno : ¬w.model.Enters c := by
      intro he
      cases hl.symm.trans (hnoted.hasLoader.trans he.1)
    let told : World σ := { noting m c w with
      model := (report (.noFeatureLoader ((noting m c w).model.constantName n
        c.name)) (noting m c w).model).2 }
    have hhides : told.model.HidesValue n c.name := hhidden hno
    obtain ⟨b, y, hsettle, hrest⟩ := hhides.settleAutoload
    exact ⟨b, y, told, hsettle, hrest⟩
  | true =>
    rw [if_pos rfl]
    cases hidle : ((noting m c w).model.autoload a).isLoading with
    | true =>
      rw [if_pos rfl]
      have hno : ¬w.model.Enters c := by
        rintro ⟨-, a', ha', hidle'⟩
        cases hauto.symm.trans ha'
        rw [← hnoted.autoload, hidle] at hidle'
        cases hidle'
      obtain ⟨b, y, hb, hy, hp⟩ := hhidden hno
      have hgiven : ((noting m c w).model.ownConstant n c.name).filter
          (fun c => c.value?.isSome) = some b := by
        simp [hb, Option.filter, hy]
      exact ⟨b, y, _, congrArg (EStateM.Result.ok · _) hgiven, hb, hy, hp⟩
    | false =>
      rw [if_neg Bool.false_ne_true, loadFeature_apply]
      let entered := entering n c.name a (noting m c w)
      have hentered : Arises entered.model := ((arises_noting m c ha).marked a _).report _
      have hmodule : entered.model.module n = w.model.module n :=
        hnoted.module _
      have hknown : entered.model.knows n := (hnoted.knows _).2 hm
      have hhides : (entered.model.afterAll
          (concealment n c.name)).HidesValue n c.name := by
        refine hidesValue_concealment hknown hentered hname ?_
        rw [hmodule]
        exact h.imp (·.of_ownConstant (hnoted.ownConstant _ _)) And.right
      rw [concealing, if_pos hknown]
      let left : World σ := markAutoload a none { entered with
        model := (report (.autoloaded ((noting m c w).model.constantName n c.name))
          (entered.model.afterAll (concealment n c.name))).2 }
      have hleft : left.model.HidesValue n c.name := hhides
      obtain ⟨b, y, hsettle, hrest⟩ := hleft.settleAutoload
      exact ⟨b, y, left, hsettle, hrest⟩

/-- A constant is resolved in a module that exists, if it is read from one in case that others are
gone. -/
theorem knows_holder (hm : w.gone = [] ∨ w.model.knows m)
    (hc : w.model.knows c.declaringModule) : w.model.knows (w.holder m c) := by
  by_cases hgone : c.declaringModule ∈ w.gone
  · rw [World.holder_of_gone hgone]
    exact hm.resolve_left (List.ne_nil_of_mem hgone)
  · rwa [World.holder_of_kept hgone]

/-- Reads through a module give values of public bindings only, whatever the loader does, unless
what they find is public and waits for a feature, and is resolved in a module that hides a value, or
that can be made to while the feature is loaded.  Where modules are gone, the module read through
may be the one to be changed, and has to exist. -/
theorem discreet_iff_not_exposed (ha : Arises w.model) (hm : w.gone = [] ∨ w.model.knows m)
    (name : String) : Discreet w m name ↔ ¬Exposed w m name := by
  constructor
  · rintro hdiscreet ⟨c, hfound, hpublic, hpending, hcase⟩
    obtain ⟨hname, hstops, k, hown, hholder⟩ := exists_qualifiedHolder hfound
    have hsourced := ha.sourced k name c hown
    obtain rfl := hsourced.same
    obtain ⟨b, y, w', hvalue, hb, hprivate⟩ := exists_hidden_read ha
      (knows_holder hm hsourced.declaring) hname hpending hstops hcase
    obtain ⟨k', b', hholder', hb', -, hpublic'⟩ := hdiscreet _ (regular_concealing _ _) y w'
      (scopedConstantGet_eq_ok.2 ⟨c, hfound, hpublic, hvalue⟩)
    rw [hholder, if_pos hpending] at hholder'
    cases hholder'
    cases hb.symm.trans hb'
    cases hprivate.symm.trans hpublic'
  · intro hno require hr y w' hget
    obtain ⟨c, hfound, hpublic, hvalue⟩ := scopedConstantGet_eq_ok.1 hget
    obtain ⟨-, -, k, hown, hholder⟩ := exists_qualifiedHolder hfound
    have hsourced := ha.sourced k name c hown
    obtain rfl := hsourced.same
    cases hpending : c.isAutoload with
    | false =>
      -- the binding that was found is the one that is read
      rw [hpending, if_neg Bool.false_ne_true] at hholder
      rw [constantValue_eq, hpending, if_neg Bool.false_ne_true] at hvalue
      obtain ⟨hy, rfl⟩ := EStateM.Result.ok.inj hvalue
      have hsame := (reported_noting m c w).model.ownConstant k c.name
      exact ⟨k, c, hholder, hsame.trans hown, hy, hpublic⟩
    | true =>
      rw [hpending, if_pos rfl] at hholder
      obtain ⟨v, b, hb, hy, hleft, hfrom⟩ := exists_loaded hpending hvalue
      refine ⟨_, b, hholder, hleft, hy, eq_false_of_ne_true fun hprivate => hno ?_⟩
      refine ⟨c, hfound, hpublic, hpending, ?_⟩
      rcases hfrom with hreported | ⟨he, feature, a, x, w₁, hrun, rfl⟩
      · exact .inl ⟨b, y, (hreported.ownConstant _ _).symm.trans hb, hy, hprivate⟩
      · by_cases hf : (w.model.module (w.holder m c)).Fixed
        · -- a fixed module had the value before the feature was loaded
          have hnoted := (reported_noting m c w).model
          have hentered := ((arises_noting m c ha).marked a (some (noting m c w).thread)).report
            (.autoloading ((noting m c w).model.constantName (w.holder m c) c.name)
              ((noting m c w).model.autoload a).feature)
          obtain ⟨-, ⟨mvs, hg, hmvs⟩, -⟩ := hr _ _ _ _ hentered hrun
          have hbefore := Leads.value_of_fixed ⟨mvs, hg.allKnown, hmvs⟩
            ((hnoted.knows _).2 (knows_holder hm hsourced.declaring))
            ((hnoted.module _).symm ▸ hf) hb hy
          exact .inl ⟨b, y, (hnoted.ownConstant _ _).symm.trans hbefore, hy, hprivate⟩
        · exact .inr ⟨he, hf⟩

/-- A frozen module with a public constant, and a copy of it in which the constant still waits for a
feature. -/
def frozenConstant : Universe :=
  (create {}).afterAll [.newModule, .installLoader, .registerAutoload ⟨12⟩ "C" "lib",
    .copyModule ⟨12⟩, .setConstant ⟨12⟩ "C" (.int 1) none, .freezeModule ⟨12⟩]

/-- Reading the constant through the copy loads the feature.  Though that tries to hide a value, the
read gives the public value that the frozen module had before. -/
theorem discreet_frozenConstant : Arises frozenConstant ∧
    (frozenConstant.qualified? ⟨0⟩ ⟨13⟩ "C").map Constant.isAutoload = some true ∧
    Discreet ⟨frozenConstant, ⟨0⟩, (), []⟩ ⟨13⟩ "C" ∧
    (scopedConstantGet (concealing ⟨12⟩ "C") ⟨13⟩ "C").result?
      ⟨frozenConstant, ⟨0⟩, (), []⟩ = some (.int 1) := by
  have harises : Arises frozenConstant := by
    refine ⟨{}, [.newModule, .installLoader, .registerAutoload ⟨12⟩ "C" "lib",
      .copyModule ⟨12⟩, .setConstant ⟨12⟩ "C" (.int 1) none, .freezeModule ⟨12⟩],
      ⟨trivial, trivial, trivial, trivial, ?_, trivial, ?_, trivial, ⟨?_, trivial⟩, trivial, ?_,
        trivial, trivial⟩, rfl⟩
    all_goals
      change Universe.knows _ _
      decide +kernel
  let w : World Unit := ⟨frozenConstant, ⟨0⟩, (), []⟩
  have hfound : (frozenConstant.qualified? ⟨0⟩ ⟨13⟩ "C").map (w.holder ⟨13⟩) = some ⟨12⟩ := by
    decide +kernel
  have hfixed : (frozenConstant.module ⟨12⟩).Fixed := by decide +kernel
  have hpublic : (frozenConstant.ownConstant ⟨12⟩ "C").map Constant.isPrivate = some false := by
    decide +kernel
  refine ⟨harises, by decide +kernel,
    (discreet_iff_not_exposed (w := w) harises (.inl rfl) "C").2 ?_, by decide +kernel⟩
  rintro ⟨c, hc, -, -, hcase⟩
  rw [show frozenConstant.qualified? ⟨0⟩ ⟨13⟩ "C" = some c from hc, Option.map_some] at hfound
  rw [Option.some.inj hfound] at hcase
  rcases hcase with ⟨b, y, hb, -, hprivate⟩ | ⟨-, hfree⟩
  · rw [show frozenConstant.ownConstant ⟨12⟩ "C" = some b from hb, Option.map_some,
      hprivate] at hpublic
    cases hpublic
  · exact hfree hfixed

/-- A module with a public constant that waits for a feature. -/
def exposedFeature : Universe :=
  (create {}).afterAll [.newModule, .installLoader, .registerAutoload ⟨12⟩ "C" "lib"]

/-- If the feature makes the constant private after defining it, then the read that loaded it gives
its value all the same. -/
theorem exposedFeature_not_discreet : Arises exposedFeature ∧
    Regular (concealing ⟨12⟩ "C" : String → Act Unit Bool) ∧ ∃ w',
      scopedConstantGet (concealing ⟨12⟩ "C") ⟨12⟩ "C" ⟨exposedFeature, ⟨0⟩, (), []⟩ =
        .ok (.int 1) w' ∧
      qualifiedHolder? ⟨exposedFeature, ⟨0⟩, (), []⟩ ⟨12⟩ "C" = some ⟨12⟩ ∧
      (w'.model.ownConstant ⟨12⟩ "C").map Constant.isPrivate = some true := by
  refine ⟨?_, regular_concealing _ _, _, Act.eq_ok ?_, ?_, ?_⟩
  · refine ⟨{}, [.newModule, .installLoader, .registerAutoload ⟨12⟩ "C" "lib"],
      ⟨trivial, trivial, trivial, trivial, ?_, trivial, trivial⟩, rfl⟩
    change Universe.knows _ _
    decide +kernel
  · decide +kernel
  · decide +kernel
  · decide +kernel

end Universe

end ObjectModel
