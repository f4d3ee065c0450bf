import ObjectModel.Proofs.Framing
import ObjectModel.Proofs.Operation

/-!
# Announced changes

No operation changes the methods, the constants or the chain of a module without a new version of
the tables that they count for, and no version ever comes back.  So an assumption that was made
before a change is given up for good.

* `Guarded.Known`: what has versions that can be asked for;
* `versionOf_after`, `Leads.versionOf`: no version falls;
* `Made`, `Leads.holds`: assumptions that were made, and that they are given up only once;
* `changes_announced`: assumptions across operations.
-/

namespace ObjectModel

/-- The module or counter that something guarded belongs to exists. -/
def Guarded.Known (u : Universe) : Guarded → Prop
  | methods m | constants m => u.knows m
  | counter c => c.num < u.nextSerial

namespace Universe

variable {u v w : Universe} {m : ModuleId} {c : CounterId} {g : Guarded} {a : Assumption}

/-! ### Versions -/

/-- Moves that do not count leave the counters that there are alone. -/
theorem counters_after {mv : Move} (hp : .counters ∉ mv.parts) :
    u.nextSerial ≤ (u.after mv).nextSerial ∧ (u.after mv).counters = u.counters := by
  have hframe : Frame mv.parts fun v => u.nextSerial ≤ v.nextSerial ∧ v.counters = u.counters :=
    { neutral := fun h _ _ hs _ _ hc => ⟨Nat.le_trans h.1 hs, (hc hp).trans h.2⟩
      allocate := fun _ _ _ h => h
      edit := fun h _ => h }
  exact hframe.after ⟨Nat.le_refl _, rfl⟩

/-- A new counter is none of those that there are, and a counter that is raised has a higher
version. -/
theorem counter_after (hc : c.num < u.nextSerial) (mv : Move) :
    c.num < (u.after mv).nextSerial ∧
      u.versionOf (.counter c) ≤ (u.after mv).versionOf (.counter c) := by
  by_cases hp : .counters ∉ mv.parts
  · obtain ⟨hs, he⟩ := counters_after (u := u) hp
    exact ⟨Nat.lt_of_lt_of_le hc hs, Nat.le_of_eq (by rw [versionOf, versionOf, he])⟩
  · cases mv with
    | newCounter =>
      refine ⟨Nat.lt_succ_of_lt hc, ?_⟩
      have hne : (⟨u.nextSerial⟩ : CounterId) ≠ c := by
        rintro rfl
        exact Nat.lt_irrefl _ hc
      show _ ≤ ((u.counters.insert ⟨u.nextSerial⟩ 0).find? c).getD 0
      rw [Table.find?_insert_of_ne _ hne]
      exact Nat.le_refl _
    | raiseCounter d =>
      refine ⟨hc, ?_⟩
      show _ ≤ ((u.counters.insert d (u.versionOf (.counter d) + 1)).find? c).getD 0
      rw [Table.find?_insert]
      split
      · next he => exact he ▸ Nat.le_succ _
      · exact Nat.le_refl _
    | _ => exact absurd (by simp [Move.parts]) hp

/-- No version falls. -/
theorem versionOf_after (hu : u.WellFormed) {mv : Move} (hk : mv.Known u) (hg : g.Known u) :
    g.Known (u.after mv) ∧ u.versionOf g ≤ (u.after mv).versionOf g := by
  have hlead : Leads u (u.after mv) := .of_move hk
  have hnext := hlead.nextId hu
  cases g with
  | methods m => exact ⟨knows_mono hnext hg, ((hlead.follows hu).2.modules m hg).version⟩
  | constants m => exact ⟨knows_mono hnext hg, (hlead.constantsFollow hg).version⟩
  | counter c => exact counter_after hg mv

theorem Leads.versionOf (h : Leads u v) (hu : u.WellFormed) (hg : g.Known u) :
    g.Known v ∧ u.versionOf g ≤ v.versionOf g := by
  refine (Leads.induction (motive := fun v =>
    v.WellFormed ∧ g.Known v ∧ u.versionOf g ≤ v.versionOf g) ⟨hu, hg, Nat.le_refl _⟩ ?_ h).2
  intro w mv ⟨hw, hgw, hle⟩ hk
  obtain ⟨hg', hle'⟩ := versionOf_after hw hk hgw
  exact ⟨(Leads.of_move hk).wellFormed hw, hg', Nat.le_trans hle hle'⟩

/-! ### Assumptions -/

/-- The assumption was made in this state or in an earlier one. -/
def Made (u : Universe) (a : Assumption) : Prop :=
  a = .never ∨ ∃ w g, Reachable w ∧ Leads w u ∧ g.Known w ∧ a = w.assume g

theorem holds_assume_iff : v.holds (u.assume g) = true ↔ v.versionOf g = u.versionOf g := by
  simp [holds, assume, Assumption.now, Assumption.holds]

/-- An assumption that was given up is not taken up again. -/
theorem Leads.holds (h : Leads u v) (ha : u.Made a) (hu : u.holds a = false) :
    v.holds a = false := by
  rcases ha with rfl | ⟨w, g, hw, hwu, hg, rfl⟩
  · rfl
  · obtain ⟨hgu, hmade⟩ := hwu.versionOf hw.wellFormed hg
    have hlater := (h.versionOf (hw.leads hwu).wellFormed hgu).2
    rw [← Bool.not_eq_true, holds_assume_iff] at hu ⊢
    omega

/-- What holds of an assumption about methods that still holds. -/
theorem Leads.methods_of_holds (h : Leads u v) (hu : u.WellFormed) (hm : u.knows m)
    (ha : v.holds (u.assume (.methods m)) = true) :
    (v.module m).methods = (u.module m).methods ∧ (v.module m).chain = (u.module m).chain := by
  have hf := (h.follows hu).2.modules m hm
  rw [holds_assume_iff] at ha
  exact ⟨hf.methods ha, hf.chain (.inl ha)⟩

/-- What holds of an assumption about constants that still holds. -/
theorem Leads.constants_of_holds (h : Leads u v) (hm : u.knows m)
    (ha : v.holds (u.assume (.constants m)) = true) :
    (v.module m).constants = (u.module m).constants ∧
      (v.module m).chain = (u.module m).chain := by
  have hf := h.constantsFollow hm
  rw [holds_assume_iff] at ha
  exact ⟨hf.constants ha, hf.chain (.inl ha)⟩

/-- Operations go by moves.  When some operations have changed the methods or the chain of a module
that was there before, what was assumed then of its methods does not hold any more; when they have
changed its constants or its chain, what was assumed of its constants does not.  No assumption that
was made at any time and does not hold any more holds ever again, whatever operations follow. -/
theorem changes_announced (hu : Reachable u) (h : Leads u v) (hm : u.knows m) :
    ((v.module m).methods ≠ (u.module m).methods ∨ (v.module m).chain ≠ (u.module m).chain →
      v.holds (u.assume (.methods m)) = false) ∧
    ((v.module m).constants ≠ (u.module m).constants ∨
      (v.module m).chain ≠ (u.module m).chain →
      v.holds (u.assume (.constants m)) = false) ∧
    ∀ a, v.Made a → v.holds a = false → ∀ w, Leads v w → w.holds a = false := by
  refine ⟨fun hchanged => ?_, fun hchanged => ?_, fun a ha hno w hw => hw.holds ha hno⟩
  · rw [← Bool.not_eq_true]
    intro hholds
    obtain ⟨hmethods, hchain⟩ := h.methods_of_holds hu.wellFormed hm hholds
    exact hchanged.elim (· hmethods) (· hchain)
  · rw [← Bool.not_eq_true]
    intro hholds
    obtain ⟨hconstants, hchain⟩ := h.constants_of_holds hm hholds
    exact hchanged.elim (· hconstants) (· hchain)

/-- A universe with a class of its own. -/
def oneClass : Universe := (create {}).after (.newClass none)

/-- A method is added, and removed again. -/
def comeAndGone : List Move :=
  [.addMethod ⟨12⟩ (.ofReader "f" "@f" ⟨12⟩ .pub), .removeMethod ⟨12⟩ "f"]

/-- There is no method, as before, but what was assumed of the methods then is given up. -/
theorem changes_announced_comeAndGone :
    ((oneClass.afterAll comeAndGone).module ⟨12⟩).methods.keys =
        (oneClass.module ⟨12⟩).methods.keys ∧
      (oneClass.afterAll comeAndGone).holds (oneClass.assume (.methods ⟨12⟩)) = false := by
  have hu : Reachable oneClass := (Reachable.create {}).leads (.of_move nofun)
  have hm : oneClass.knows ⟨12⟩ := by decide +kernel
  have hadded : (Move.addMethod ⟨12⟩ (.ofReader "f" "@f" ⟨12⟩ .pub)).Known oneClass :=
    ⟨hm, Method.known_ofReader hm _ _ _⟩
  have hremoved : (Move.removeMethod ⟨12⟩ "f").Known
      (oneClass.after (.addMethod ⟨12⟩ (.ofReader "f" "@f" ⟨12⟩ .pub))) :=
    (by decide +kernel : knows _ _)
  obtain ⟨hmethods, -, hlast⟩ := changes_announced hu (.of_move hadded) hm
  have hgone := hmethods (.inl fun he => by
    have hsize := congrArg Table.size he
    revert hsize
    decide +kernel)
  have hmade : (oneClass.after (.addMethod ⟨12⟩ (.ofReader "f" "@f" ⟨12⟩ .pub))).Made
      (oneClass.assume (.methods ⟨12⟩)) := .inr ⟨_, .methods ⟨12⟩, hu, .of_move hadded, hm, rfl⟩
  refine ⟨?_, hlast _ hmade hgone _ (.of_move hremoved)⟩
  decide +kernel

end Universe

end ObjectModel
