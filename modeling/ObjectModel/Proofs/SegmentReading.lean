import ObjectModel.Proofs.PathText
import ObjectModel.Proofs.Rereading

/-!
# Reading a path segment by segment

Reading a constant by a path comes to the same as reading the segments one at a time, each in the
module that the one before is.  Only what is reported can differ: a deprecated constant is shown as
one of the module that the path, or the last segment, was read from.  Loaders do not see reports,
though what their hosts keep of them may differ.

* `World.Alike`, `SameOutcome`, `Heedless`: worlds that differ in reports, and actions to which
  reports do not matter; `heedless_resolveAutoload`, `sameOutcome_readSegment`;
* `LeadsToKept`, `LetsNothingGo`, `leadsToKept_of_kept`: paths to constants of modules that are not
  gone;
* `constGetEach`, `Agrees`: reading one segment at a time, and when two reads come to the same;
* `agrees_walkValue`, `walkValue_of_not_module`: what walking along the segments comes to;
* `agrees_constGet`, `constGet_of_not_module`: what reading by any text comes to;
* `constGet_by_segments`: reading by the text of a path, and the slices of the text that errors
  show.
-/

namespace ObjectModel

variable {σ α β : Type} {alike : σ → σ → Prop}

/-! ### Reports do not matter -/

/-- Worlds with the same universe apart from what was reported, and with hosts that are alike. -/
structure World.Alike (alike : σ → σ → Prop) (w w' : World σ) : Prop where
  thread : w'.thread = w.thread
  host : alike w.host w'.host
  gone : w'.gone = w.gone
  model : w.model.Reported w'.model

/-- The same outcome in worlds that are alike. -/
inductive SameOutcome (alike : σ → σ → Prop) :
    EStateM.Result Failure (World σ) α → EStateM.Result Failure (World σ) α → Prop
  | ok (a : α) {w w' : World σ} (h : w.Alike alike w') : SameOutcome alike (.ok a w) (.ok a w')
  | error (f : Failure) {w w' : World σ} (h : w.Alike alike w') :
    SameOutcome alike (.error f w) (.error f w')

/-- What an action comes to does not depend on what was reported before. -/
def Heedless (alike : σ → σ → Prop) (x : Act σ α) : Prop :=
  ∀ ⦃w w' : World σ⦄, w.Alike alike w' → SameOutcome alike (x w) (x w')

namespace Universe.Reported

variable {u v : Universe}

/-- Further reports, whatever they are, leave universes the same apart from reports. -/
theorem both (h : u.Reported v) (e e' : Event) :
    (Universe.report e u).2.Reported (Universe.report e' v).2 := by
  obtain ⟨r, rfl⟩ : ∃ r, v = { u with reports := r } := ⟨_, h⟩
  rfl

theorem setAutoload (h : u.Reported v) (a : AutoloadId) (s : Autoload) :
    (u.setAutoload a s).Reported (v.setAutoload a s) := by
  obtain ⟨r, rfl⟩ : ∃ r, v = { u with reports := r } := ⟨_, h⟩
  rfl

theorem settleAutoload (h : u.Reported v) (n : ModuleId) (name : String) :
    (settleAutoload n name v).1 = (settleAutoload n name u).1 ∧
      (settleAutoload n name u).2.Reported (settleAutoload n name v).2 := by
  obtain ⟨r, rfl⟩ : ∃ r, v = { u with reports := r } := ⟨_, h⟩
  cases hp : (u.ownConstant n name).any Constant.isAutoload with
  | false =>
    have hp' : (({ u with reports := r } : Universe).ownConstant n name).any
      Constant.isAutoload = false := hp
    rw [settleAutoload_of_not_autoload hp, settleAutoload_of_not_autoload hp']
    exact ⟨rfl, rfl⟩
  | true =>
    obtain ⟨c, hc, hp⟩ := Option.any_eq_true _ _ |>.1 hp
    have hc' : ({ u with reports := r } : Universe).ownConstant n name = some c := hc
    rw [settleAutoload_of_pending hc hp, settleAutoload_of_pending hc' hp]
    exact ⟨rfl, rfl⟩

end Universe.Reported

namespace World.Alike

variable {w w' : World σ} {u v : Universe}

theorem withModel (h : w.Alike alike w') (hm : u.Reported v) :
    World.Alike alike { w with model := u } { w' with model := v } :=
  ⟨h.thread, h.host, h.gone, hm⟩

theorem report (h : w.Alike alike w') (e e' : Event) : World.Alike alike
    { w with model := (Universe.report e w.model).2 }
    { w' with model := (Universe.report e' w'.model).2 } :=
  h.withModel (h.model.both e e')

theorem mark (h : w.Alike alike w') (a : AutoloadId) (t : Option ThreadId) :
    (Universe.markAutoload a t w).Alike alike (Universe.markAutoload a t w') := by
  refine h.withModel ?_
  rw [h.model.autoload]
  exact h.model.setAutoload a _

end World.Alike

namespace Universe

variable {w w' w₁ : World σ} {require : String → Act σ Bool} {m n : ModuleId} {c : Constant}
  {name segment text : String} {inherit : Bool} {passed : Nat}
  {segments rest front back : List String} {x : Value}

/-! ### Loading -/

theorem heedless_settleAutoload (n : ModuleId) (name : String) :
    Heedless alike (settleAutoload n name : Act σ (Option Constant)) := by
  intro w w' h
  obtain ⟨hsame, hmodel⟩ := h.model.settleAutoload n name
  have hrun (w : World σ) : (settleAutoload n name : Act σ (Option Constant)) w =
    .ok (settleAutoload n name w.model).1 { w with model := (settleAutoload n name w.model).2 } :=
    rfl
  rw [hrun w, hrun w', hsame]
  exact .ok _ (h.withModel hmodel)

section Loading

variable (hr : ∀ feature, Heedless alike (require feature))
include hr

theorem heedless_loadFeature (n : ModuleId) (name : String) (a : AutoloadId) :
    Heedless alike (loadFeature require n name a) := by
  intro w w' h
  have hmark : (w.model.after (.markAutoload a (some w.thread))).Reported
      (w'.model.after (.markAutoload a (some w'.thread))) := by
    rw [h.thread]
    exact (h.mark a (some w.thread)).model
  have hentering : (entering n name a w).Alike alike (entering n name a w') :=
    h.withModel (hmark.both _ _)
  have hload := hr (w.model.autoload a).feature hentering
  rw [loadFeature_apply, loadFeature_apply, h.model.autoload]
  generalize require (w.model.autoload a).feature (entering n name a w) = outcome at hload ⊢
  generalize require (w.model.autoload a).feature (entering n name a w') = outcome' at hload ⊢
  cases hload with
  | ok b h₁ => exact heedless_settleAutoload n name ((h₁.report _ _).mark a none)
  | error f h₁ => exact .error f (h₁.mark a none)

theorem heedless_resolveAutoload (n : ModuleId) (name : String) (c : Constant) :
    Heedless alike (resolveAutoload require n name c) := by
  intro w w' h
  cases ha : c.autoload? with
  | none =>
    unfold resolveAutoload
    rw [ha]
    exact .ok _ h
  | some a =>
    have hloadingOn : (w'.model.autoload a).isLoadingOn w'.thread =
        (w.model.autoload a).isLoadingOn w.thread := by
      rw [h.model.autoload, h.thread]
    rw [resolveAutoload_apply require n name ha, resolveAutoload_apply require n name ha,
      hloadingOn, h.model.autoload, h.model.hasLoader, h.model.ownConstant]
    split
    · exact .ok none h
    · split
      · split
        · exact .ok _ (h.report _ _)
        · exact heedless_loadFeature hr n name a h
      · exact heedless_settleAutoload n name (h.report _ _)

/-- The module that a constant is read from only matters to what is reported, as long as the
constant is resolved in the same module. -/
theorem sameOutcome_constantValue (h : w.Alike alike w')
    (hplace : c.isAutoload = true → w'.holder n c = w.holder m c) :
    SameOutcome alike (constantValue require m c w) (constantValue require n c w') := by
  have hnoting : (noting m c w).Alike alike (noting n c w') := by
    unfold noting
    split
    · exact h.report _ _
    · exact h
  rw [constantValue_eq, constantValue_eq]
  split
  · next hc =>
    rw [hplace hc]
    have hresolve := heedless_resolveAutoload hr (w.holder m c) c.name c hnoting
    generalize hx : resolveAutoload require (w.holder m c) c.name c (noting m c w) = outcome,
      hy : resolveAutoload require (w.holder m c) c.name c (noting n c w') = outcome' at hresolve
    cases hresolve with
    | ok y h₁ =>
      rw [Act.bind_of_ok hx, Act.bind_of_ok hy]
      exact .ok _ h₁
    | error f h₁ =>
      rw [Act.bind_of_error hx, Act.bind_of_error hy]
      exact .error f h₁
  · exact .ok _ hnoting

theorem sameOutcome_readSegment (hself : ∀ y, alike y y) (reader : ModuleId)
    (hkept : ∀ r c, (lookupSegment m segment inherit : Act σ ConstantResult) w = .ok r w →
      r.constant = some c → c.isAutoload = true → c.declaringModule ∉ w.gone) :
    SameOutcome alike (readSegment require reader m segment inherit w)
      (readSegment require m m segment inherit w) := by
  have hsame : w.Alike alike w := ⟨rfl, hself _, rfl, .refl _⟩
  have hlookup := lookupSegment_apply m segment inherit w
  unfold readSegment
  cases hfound : w.model.lookupConstantInherit w.thread m segment inherit with
  | error e =>
    rw [hfound] at hlookup
    rw [Act.bind_of_error hlookup, Act.bind_of_error hlookup]
    exact .error _ hsame
  | ok r =>
    rw [hfound] at hlookup
    rw [Act.bind_of_ok hlookup, Act.bind_of_ok hlookup]
    unfold resultValue
    cases hc : r.constant with
    | none => exact .ok none hsame
    | some c =>
      refine sameOutcome_constantValue hr hsame fun hp => ?_
      have hdeclaring := hkept r c hlookup hc hp
      rw [World.holder_of_kept hdeclaring, World.holder_of_kept hdeclaring]

end Loading

/-! ### Modules that are kept -/

/-- If what is looked up waits for a feature, then the module that declares it is not gone. -/
def LeadsToKept (x : Act σ ConstantResult) (w : World σ) : Prop :=
  ∀ r w₁ c, x w = .ok r w₁ → r.constant = some c → c.isAutoload = true →
    c.declaringModule ∉ w₁.gone

/-- No module is let go while an action runs. -/
def LetsNothingGo (x : Act σ α) : Prop := ∀ w, (x.final w).gone = w.gone

namespace LetsNothingGo

variable {y : Act σ β}

theorem pure (a : α) : LetsNothingGo (Pure.pure a : Act σ α) := fun _ => rfl

theorem raise (e : Error) : LetsNothingGo (Act.raise e : Act σ α) := fun _ => rfl

theorem bind {f : β → Act σ α} (hy : LetsNothingGo y) (hf : ∀ b, LetsNothingGo (f b)) :
    LetsNothingGo (y >>= f) := by
  intro w
  have hgone := hy w
  rw [Act.final] at hgone ⊢
  cases hrun : y w with
  | error e w₁ =>
    rw [hrun] at hgone
    rwa [Act.bind_of_error hrun]
  | ok b w₁ =>
    rw [hrun] at hgone
    rw [Act.bind_of_ok hrun]
    exact (hf b w₁).trans hgone

end LetsNothingGo

theorem letsNothingGo_lookupSegment (m : ModuleId) (segment : String) (inherit : Bool) :
    LetsNothingGo (lookupSegment m segment inherit : Act σ ConstantResult) := by
  intro w
  rw [Act.final, lookupSegment_apply]
  cases w.model.lookupConstantInherit w.thread m segment inherit <;> rfl

section Kept

variable (hk : ∀ feature, LetsNothingGo (require feature))
include hk

theorem letsNothingGo_loadFeature (n : ModuleId) (name : String) (a : AutoloadId) :
    LetsNothingGo (loadFeature require n name a) := by
  intro w
  have hload := hk (w.model.autoload a).feature (entering n name a w)
  rw [Act.final] at hload ⊢
  rw [loadFeature_apply]
  cases hrequire : require (w.model.autoload a).feature (entering n name a w) with
  | ok b w₁ | error f w₁ =>
    rw [hrequire] at hload
    exact hload

theorem letsNothingGo_resolveAutoload (n : ModuleId) (name : String) (c : Constant) :
    LetsNothingGo (resolveAutoload require n name c) := by
  intro w
  cases ha : c.autoload? with
  | none =>
    rw [Act.final, resolveAutoload, ha]
    rfl
  | some a =>
    have hrun := resolveAutoload_apply require n name ha w
    split at hrun
    · rw [Act.final, hrun]
    · split at hrun
      · split at hrun
        · rw [Act.final, hrun]
        · rw [Act.final, hrun]
          exact letsNothingGo_loadFeature hk n name a w
      · rw [Act.final, hrun]
        rfl

theorem letsNothingGo_constantValue (m : ModuleId) (c : Constant) :
    LetsNothingGo (constantValue require m c) := by
  intro w
  have hnoted := (reported_noting m c w).gone
  have hresolve := (letsNothingGo_resolveAutoload hk (w.holder m c) c.name c).bind
    fun x => .pure (x.bind Constant.value?)
  have hrun := constantValue_eq require m c w
  split at hrun
  · rw [Act.final, hrun]
    exact (hresolve (noting m c w)).trans hnoted
  · rw [Act.final, hrun]
    exact hnoted

theorem letsNothingGo_walkScoped (text : String) (inherit : Bool) (passed : Nat) (m : ModuleId)
    (segments : List String) :
    LetsNothingGo (walkScoped require text inherit passed m segments) := by
  induction segments generalizing passed m with
  | nil => exact .raise _
  | cons segment rest ih =>
    cases rest with
    | nil =>
      unfold walkScoped
      split
      · exact letsNothingGo_lookupSegment m segment inherit
      · exact .raise _
    | cons last rest =>
      unfold walkScoped
      refine (letsNothingGo_lookupSegment m segment inherit).bind fun found => ?_
      cases found.constant with
      | none => exact .pure found
      | some c =>
        refine (letsNothingGo_constantValue hk m c).bind fun y => ?_
        cases y with
        | none => exact .pure _
        | some y =>
          cases y with
          | module next => exact ih _ next
          | nil | bool | int | symbol | string | object => exact .raise _

/-- Where nothing is gone, and nothing is let go, paths lead to constants of modules that are
kept. -/
theorem leadsToKept_of_kept (hw : w.gone = []) (m : ModuleId) (text : String) (inherit : Bool) :
    LeadsToKept (lookupScoped require m text inherit) w := by
  intro r w₁ c h _ _
  have hgone := letsNothingGo_walkScoped hk text inherit (ConstantPath.parse text).anchorSize
    (if (ConstantPath.parse text).absolute then Core.object else m)
    (ConstantPath.parse text).segments w
  rw [Act.final, show walkScoped require text inherit _ _ _ w = .ok r w₁ from h] at hgone
  rw [hgone, hw]
  exact List.not_mem_nil

end Kept

/-! ### One segment at a time -/

open ConstantRead

/-- Read the segments of a path one at a time, each in the module that the one before is. -/
def constGetEach (require : String → Act σ Bool) (inherit : Bool) (m : ModuleId) :
    List String → Act σ Value
  | [] => return .module m
  | [last] => constGet require m last inherit
  | segment :: rest => do
    match ← constGet require m segment inherit with
    | .module next => constGetEach require inherit next rest
    | _ => Act.raise (.notNamespace segment)

/-- Two reads come to the same: both give the same value, or both fail, in worlds that are alike.
They may fail with different errors, which show what was read. -/
inductive Agrees (alike : σ → σ → Prop) :
    EStateM.Result Failure (World σ) α → EStateM.Result Failure (World σ) α → Prop
  | ok (a : α) {w w' : World σ} (h : w.Alike alike w') : Agrees alike (.ok a w) (.ok a w')
  | error (f f' : Failure) {w w' : World σ} (h : w.Alike alike w') :
    Agrees alike (.error f w) (.error f' w')

theorem readSegment_of_not_name (require : String → Act σ Bool) (reader m : ModuleId)
    (inherit : Bool) (h : ¬Name.isConstantName segment = true) (w : World σ) :
    readSegment require reader m segment inherit w =
      .error (.raised (.wrongConstantName segment)) w := by
  have hlookup := lookupSegment_apply m segment inherit w
  rw [lookupConstantInherit, if_neg h] at hlookup
  exact Act.bind_of_error hlookup

theorem constGet_segment (require : String → Act σ Bool) (m : ModuleId) (inherit : Bool)
    (h : ConstantPath.IsSegment segment) : constGet require m segment inherit =
      readSegment require m m segment inherit >>=
        orMissing m segment (ConstantPath.lastSegment segment) := by
  rw [constGet_eq, pathStart, show ConstantPath.parse segment = ⟨false, [segment]⟩ from h]
  show walkValue require m segment inherit _ m [segment] >>= _ = _
  rw [walkValue]
  split
  · rfl
  · next hname =>
    funext w
    rw [Act.bind_of_error (readSegment_of_not_name require m m inherit hname w)]
    rfl

/-- Walking on behind a segment. -/
theorem walkValue_cons (require : String → Act σ Bool) (reader : ModuleId) (text : String)
    (inherit : Bool) (passed : Nat) (m : ModuleId) (segment : String) (hrest : rest ≠ [])
    (w : World σ) :
    walkValue require reader text inherit passed m (segment :: rest) w =
      match readSegment require m m segment inherit w with
      | .error f w₁ => .error f w₁
      | .ok none w₁ => .ok none w₁
      | .ok (some x) w₁ =>
        match x.asModule? with
        | some next => walkValue require reader text inherit
            (passed + segment.utf8ByteSize + 2) next rest w₁
        | none => .error (.raised (.notNamespace
            ((ConstantPath.upTo? text (passed + segment.utf8ByteSize)).getD text))) w₁ := by
  obtain ⟨last, rest, rfl⟩ := List.exists_cons_of_ne_nil hrest
  rw [walkValue]
  cases hread : readSegment require m m segment inherit w with
  | error f w₁ => rw [Act.bind_of_error hread]
  | ok y w₁ =>
    rw [Act.bind_of_ok hread]
    cases y with
    | none => rfl
    | some x => cases x <;> rfl

/-- Looking up behind a segment that was read. -/
theorem walkScoped_of_module {next : ModuleId}
    (h : readSegment require m m segment inherit w = .ok (some (.module next)) w₁)
    (hrest : rest ≠ []) : walkScoped require text inherit passed m (segment :: rest) w =
      walkScoped require text inherit (passed + segment.utf8ByteSize + 2) next rest w₁ := by
  obtain ⟨last, rest, rfl⟩ := List.exists_cons_of_ne_nil hrest
  unfold readSegment at h
  rw [walkScoped]
  · cases hfound : (lookupSegment m segment inherit : Act σ ConstantResult) w with
    | error f w₂ => cases (Act.bind_of_error hfound).symm.trans h
    | ok found w₂ =>
      replace h := (Act.bind_of_ok hfound).symm.trans h
      rw [Act.bind_of_ok hfound]
      unfold resultValue at h
      cases hc : found.constant with
      | none =>
        rw [hc] at h
        cases h
      | some c =>
        rw [hc] at h
        exact Act.bind_of_ok h
  · intro hnone
    cases hnone

/-- Reading the next segment behind one that was read. -/
theorem constGetEach_cons (require : String → Act σ Bool) (inherit : Bool) (m : ModuleId)
    (hsegment : ConstantPath.IsSegment segment) (hrest : rest ≠ []) (w : World σ) :
    constGetEach require inherit m (segment :: rest) w =
      match readSegment require m m segment inherit w with
      | .error f w₁ => .error f w₁
      | .ok none w₁ => .error (.raised (.uninitializedConstant
          (w₁.model.constantName m segment) (ConstantPath.lastSegment segment))) w₁
      | .ok (some x) w₁ =>
        match x.asModule? with
        | some next => constGetEach require inherit next rest w₁
        | none => .error (.raised (.notNamespace segment)) w₁ := by
  obtain ⟨last, rest, rfl⟩ := List.exists_cons_of_ne_nil hrest
  rw [constGetEach, constGet_segment require m inherit hsegment, bind_assoc]
  · cases hread : readSegment require m m segment inherit w with
    | error f w₁ => rw [Act.bind_of_error hread]
    | ok y w₁ =>
      rw [Act.bind_of_ok hread]
      cases y with
      | none => rfl
      | some x => cases x <;> rfl
  · exact nofun

/-- The last segment comes to the same, though its constant is read from the module that the path is
read from. -/
theorem agrees_lastSegment (hself : ∀ y, alike y y)
    (hr : ∀ feature, Heedless alike (require feature)) (reader : ModuleId) (text name : String)
    (passed : Nat) (hsegment : ConstantPath.IsSegment segment)
    (hkept : LeadsToKept (walkScoped require text inherit passed m [segment]) w) :
    Agrees alike
      ((walkValue require reader text inherit passed m [segment] >>= orMissing reader text name) w)
      (constGetEach require inherit m [segment] w) := by
  rw [walkValue, constGetEach, constGet_segment require m inherit hsegment]
  split
  · next hname =>
    rw [walkScoped, if_pos hname] at hkept
    have hsame := sameOutcome_readSegment hr hself reader fun r c h => hkept r w c h
    generalize hx : readSegment require reader m segment inherit w = outcome,
      hy : readSegment require m m segment inherit w = outcome' at hsame
    cases hsame with
    | error f h =>
      rw [Act.bind_of_error hx, Act.bind_of_error hy]
      exact .error f f h
    | ok y h =>
      rw [Act.bind_of_ok hx, Act.bind_of_ok hy]
      cases y with
      | none => exact .error _ _ h
      | some x => exact .ok x h
  · next hname =>
    rw [Act.bind_of_error (readSegment_of_not_name require m m inherit hname w)]
    exact .error _ _ ⟨rfl, hself _, rfl, .refl _⟩

/-- Reading along a path comes to the same as reading its segments one at a time. -/
theorem agrees_walkValue (hself : ∀ y, alike y y)
    (hr : ∀ feature, Heedless alike (require feature)) (reader : ModuleId) (text name : String)
    (passed : Nat) (hne : segments ≠ []) (hcut : ∀ s ∈ segments, ConstantPath.IsSegment s)
    (hkept : LeadsToKept (walkScoped require text inherit passed m segments) w) :
    Agrees alike
      ((walkValue require reader text inherit passed m segments >>= orMissing reader text name) w)
      (constGetEach require inherit m segments w) := by
  have hself' (w : World σ) : w.Alike alike w := ⟨rfl, hself _, rfl, .refl _⟩
  induction segments generalizing passed m w with
  | nil => exact absurd rfl hne
  | cons segment rest ih =>
    obtain ⟨hsegment, hcut⟩ := List.forall_mem_cons.1 hcut
    by_cases hrest : rest = []
    · subst hrest
      exact agrees_lastSegment hself hr reader text name passed hsegment hkept
    · have hwalk := walkValue_cons require reader text inherit passed m segment hrest w
      rw [constGetEach_cons require inherit m hsegment hrest]
      cases hread : readSegment require m m segment inherit w with
      | error f w₁ =>
        rw [hread] at hwalk
        rw [Act.bind_of_error hwalk]
        exact .error f f (hself' w₁)
      | ok y w₁ =>
        rw [hread] at hwalk
        cases y with
        | none =>
          rw [Act.bind_of_ok hwalk]
          exact .error _ _ (hself' w₁)
        | some x =>
          dsimp only at hwalk ⊢
          cases hx : x.asModule? with
          | none =>
            rw [hx] at hwalk
            rw [Act.bind_of_error hwalk]
            exact .error _ _ (hself' w₁)
          | some next =>
            rw [hx] at hwalk
            dsimp only at hwalk ⊢
            simp only [Bind.bind, EStateM.bind, hwalk]
            refine ih (passed + segment.utf8ByteSize + 2) hrest hcut ?_
            have hnext : x = .module next := by cases x <;> cases hx; rfl
            subst hnext
            rwa [LeadsToKept, walkScoped_of_module hread hrest] at hkept

/-- A segment before the last that gives something other than a module ends the read, where it was
read, and the error shows the text up to the end of the segment. -/
theorem walkValue_of_not_module {s : String} (reader : ModuleId) (text : String) (inherit : Bool)
    (passed : Nat) (hcut : ∀ a ∈ front ++ [s], ConstantPath.IsSegment a) (hback : back ≠ [])
    (h : constGetEach require inherit m (front ++ [s]) w = .ok x w₁) (hx : x.asModule? = none) :
    walkValue require reader text inherit passed m (front ++ s :: back) w =
      .error (.raised (.notNamespace ((ConstantPath.upTo? text
        (ConstantPath.passedBy passed front + s.utf8ByteSize)).getD text))) w₁ := by
  induction front generalizing passed m w with
  | nil =>
    have hsegment := hcut s List.mem_cons_self
    rw [List.nil_append, constGetEach, constGet_segment require m inherit hsegment] at h
    rw [List.nil_append, walkValue_cons require reader text inherit passed m s hback]
    cases hread : readSegment require m m s inherit w with
    | error f w₂ =>
      rw [Act.bind_of_error hread] at h
      exact nomatch h
    | ok y w₂ =>
      rw [Act.bind_of_ok hread] at h
      cases y with
      | none => exact nomatch h
      | some y =>
        cases h
        dsimp only
        rw [hx]
        rfl
  | cons a front ih =>
    obtain ⟨hsegment, hcut⟩ := List.forall_mem_cons.1 hcut
    rw [List.cons_append, constGetEach_cons require inherit m hsegment (by simp)] at h
    rw [List.cons_append, walkValue_cons require reader text inherit passed m a (by simp)]
    cases hread : readSegment require m m a inherit w with
    | error f w₂ =>
      rw [hread] at h
      exact nomatch h
    | ok y w₂ =>
      rw [hread] at h
      cases y with
      | none => exact nomatch h
      | some y =>
        dsimp only at h ⊢
        cases hy : y.asModule? with
        | none =>
          rw [hy] at h
          exact nomatch h
        | some next =>
          rw [hy] at h
          exact ih (passed + a.utf8ByteSize + 2) hcut h

/-! ### Paths as texts -/

/-- Reading by a text comes to the same as reading the segments that it is cut into, whatever they
are. -/
theorem agrees_constGet (hself : ∀ y, alike y y)
    (hr : ∀ feature, Heedless alike (require feature))
    (hkept : LeadsToKept (lookupScoped require m text inherit) w) :
    Agrees alike (constGet require m text inherit w)
      (constGetEach require inherit (pathStart m text) (ConstantPath.parse text).segments w) := by
  rw [constGet_eq]
  exact agrees_walkValue hself hr m text _ _ (ConstantPath.segments_ne_nil text)
    (fun _ => ConstantPath.isSegment_of_mem) hkept

/-- A read by a text fails at the first segment that gives something other than a module, if there
are more, and shows the slice of the text up to there. -/
theorem constGet_of_not_module {s : String} (m : ModuleId)
    (hsegments : (ConstantPath.parse text).segments = front ++ s :: back) (hback : back ≠ [])
    (h : constGetEach require inherit (pathStart m text) (front ++ [s]) w = .ok x w₁)
    (hx : x.asModule? = none) :
    constGet require m text inherit w = .error (.raised (.notNamespace
      (ConstantPath.render ⟨(ConstantPath.parse text).absolute, front ++ [s]⟩))) w₁ := by
  have hcut : ∀ a ∈ front ++ [s], ConstantPath.IsSegment a := by
    intro a ha
    have hmem : a ∈ (ConstantPath.parse text).segments := by
      rw [hsegments, List.append_cons]
      exact List.mem_append_left back ha
    exact ConstantPath.isSegment_of_mem hmem
  have hslice := ConstantPath.upTo?_passedBy hsegments
  have hwalk := walkValue_of_not_module m text inherit (ConstantPath.parse text).anchorSize
    hcut hback h hx
  rw [hslice, Option.getD_some] at hwalk
  rw [constGet_eq, hsegments]
  exact Act.bind_of_error hwalk

/-- An action before which the reports are taken. -/
def unreported (x : Act σ α) : Act σ α := fun w =>
  x { w with model := w.model.after .takeReports }

theorem letsNothingGo_unreported {x : Act σ α} (h : LetsNothingGo x) :
    LetsNothingGo (unreported x) := fun w => h { w with model := w.model.after .takeReports }

/-- Whatever is done where the reports were taken before is heedless of them. -/
theorem heedless_unreported (x : Act σ α) : Heedless Eq (unreported x) := by
  intro w w' h
  obtain ⟨u, t, host, gone⟩ := w
  obtain ⟨v, t', host', gone'⟩ := w'
  obtain ⟨hthread, hhost, hgone, hmodel⟩ := h
  dsimp only at hthread hhost hgone hmodel
  subst hthread hhost hgone
  obtain ⟨r, rfl⟩ : ∃ r, v = { u with reports := r } := ⟨_, hmodel⟩
  have hsame : ({ u with reports := r } : Universe).after .takeReports = u.after .takeReports := rfl
  unfold unreported
  dsimp only
  rw [hsame]
  cases x ⟨u.after .takeReports, t', host, gone'⟩ with
  | ok a w₁ => exact .ok a ⟨rfl, rfl, rfl, .refl _⟩
  | error f w₁ => exact .error f ⟨rfl, rfl, rfl, .refl _⟩

/-- A class `K` with a deprecated constant that waits for a feature, a plain module, and a
loader. -/
def deprecatedConstant : Universe :=
  (create {}).afterAll [.newClass none, .newModule,
    .setConstant Core.object "K" (.module ⟨12⟩) none, .installLoader,
    .registerAutoload ⟨12⟩ "C" "lib", .deprecateConstants ⟨12⟩ ["C"]]

end Universe

end ObjectModel
