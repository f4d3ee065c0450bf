import ObjectModel.Proofs.Redeclaring

/-!
# Refinements of one namespace

The body of a refinement runs under a context that activates what is registered in its namespace
when the body begins.  A body may open the namespace again.  If that makes the first refinement of
a module, what is stored is declared anew, but the contexts of the bodies that go on running are
not replaced: what they define from then on does not see the new refinement, until the namespace is
opened the next time.

* `Sees`, `SeesSiblings`: contexts that activate all refinements of a namespace, and the law that
  those of the methods stored in them do;
* `Authoring`, `Deed`, `Authoring.perform`: a namespace while bodies run, and what may happen;
* `Authoring.Sound`, `Authoring.Sound.performAll`: bodies and methods that are behind, along every
  history;
* `seesSiblings_iff_not_lagging`: the law holds as long as no stored method was defined by a body
  that was behind;
* `not_seesSiblings_of_late_definition`: a history that breaks it.
-/

namespace ObjectModel

namespace Universe

variable {u v : Universe} {m n t r : ModuleId} {name : String} {f : Method} {c : Context}

/-! ### Seeing siblings -/

/-- A context activates every refinement that is registered in a namespace. -/
def Sees (u : Universe) (n : ModuleId) (c : Context) : Prop :=
  ∀ t r, (u.module n).refinements.find? t = some r → r ∈ c.refinementsFor t

/-- All methods that are stored in the refinements of a namespace see these refinements. -/
def SeesSiblings (u : Universe) (n : ModuleId) : Prop :=
  ∀ r ∈ (u.module n).refinements.values, ∀ name f,
    (u.module r).methods.find? name = some f → u.Sees n f.context

theorem sees_congr {c d : Context} (hr : (v.module n).refinements = (u.module n).refinements)
    (hc : d.refinements = c.refinements) : v.Sees n d ↔ u.Sees n c := by
  unfold Sees Context.refinementsFor
  rw [hr, hc]

end Universe

/-! ### Histories -/

/-- The place of the method that a move stores or drops, unless the module is closed to changes. -/
def Move.slot? (u : Universe) : Move → Option (ModuleId × String)
  | addMethod m f => if (u.immutable? m).isNone then some (m, f.name) else none
  | removeMethod m name => if (u.immutable? m).isNone then some (m, name) else none
  | _ => none

/-- Whether a move opens a namespace or stores a method in one of its refinements. -/
def Move.Refines (u : Universe) (n : ModuleId) : Move → Prop
  | openRefinement m _ => m = n
  | addMethod m _ => m ∈ (u.module n).refinements.values
  | _ => False

/-- A body that runs: its context, and whether its namespace got a further refinement since it
began. -/
structure Body where
  context : Context
  behind : Bool
  deriving DecidableEq

/-- A universe while bodies of a namespace run, the innermost one first.  The places of methods
that a body stored when it was behind are noted until the namespace is opened again or the method
goes. -/
structure Authoring where
  now : Universe
  bodies : List Body := []
  lagging : List (ModuleId × String) := []

/-- What may happen while bodies run. -/
inductive Deed
  /-- The namespace is opened for a module; where that succeeds, a body begins. -/
  | enter (target : ModuleId)
  /-- The innermost body ends. -/
  | leave
  /-- A body, found by its place among those that run, stores a method in a refinement. -/
  | define (body : Nat) (refinement : ModuleId) (f : Method)
  | other (mv : Move)

namespace Authoring

open Universe

/-- The places left when the method at one of them, if any, is replaced or goes. -/
def without (slot? : Option (ModuleId × String)) (places : List (ModuleId × String)) :
    List (ModuleId × String) :=
  places.filter fun p => slot? ≠ some p

/-- What a deed does, for the bodies of the namespace `n`. -/
def perform (n : ModuleId) (s : Authoring) : Deed → Authoring
  | .enter t =>
    match openRefinement n t s.now with
    | .ok (_, c) v =>
      let further := ((s.now.module n).refinements.find? t).isNone
      let others := s.bodies.map fun b => { b with behind := b.behind || further }
      { now := v, bodies := { context := c, behind := false } :: others, lagging := [] }
    | .error _ v => { s with now := v }
  | .leave => { s with bodies := s.bodies.tail }
  | .define i r f =>
    let slot? := (Move.addMethod r f).slot? s.now
    let behind := (s.bodies[i]?).any (·.behind)
    { s with
      now := s.now.after (.addMethod r f)
      lagging := (if behind then slot?.toList else []) ++ without slot? s.lagging }
  | .other mv =>
    { s with now := s.now.after mv, lagging := without (mv.slot? s.now) s.lagging }

/-- The deeds that may happen: bodies define methods of the refinements of their namespace, under
what their own contexts activate, and nothing else does. -/
def Allows (n : ModuleId) (s : Authoring) : Deed → Prop
  | .enter t => (Move.openRefinement n t).Known s.now
  | .leave => s.bodies ≠ []
  | .define i r f =>
    r ∈ (s.now.module n).refinements.values ∧
    (Move.addMethod r f).Known s.now ∧ (Move.addMethod r f).Genuine s.now ∧
    ∃ b, s.bodies[i]? = some b ∧ f.context.refinements = b.context.refinements
  | .other mv => mv.Known s.now ∧ mv.Genuine s.now ∧ ¬mv.Refines s.now n

def performAll (n : ModuleId) (s : Authoring) (ds : List Deed) : Authoring := ds.foldl (perform n) s

/-- Every deed of a history may happen when its turn comes. -/
def AllowsAll (n : ModuleId) (s : Authoring) : List Deed → Prop
  | [] => True
  | d :: ds => s.Allows n d ∧ (s.perform n d).AllowsAll n ds

/-! ### What lags -/

/-- A method of a refinement of the namespace is stored at a place and does not see them all. -/
def LagsAt (u : Universe) (n : ModuleId) (p : ModuleId × String) : Prop :=
  p.1 ∈ (u.module n).refinements.values ∧
    ∃ f, (u.module p.1).methods.find? p.2 = some f ∧ ¬u.Sees n f.context

/-- The bodies that are behind are those that do not see all refinements, and the places noted are
those of the methods that do not. -/
structure Sound (n : ModuleId) (s : Authoring) : Prop where
  arises : Arises s.now
  known : ∀ b ∈ s.bodies, ∀ t, ∀ r ∈ b.context.refinementsFor t, s.now.knows r
  behind : ∀ b ∈ s.bodies, b.behind = true ↔ ¬s.now.Sees n b.context
  lagging : ∀ p, p ∈ s.lagging ↔ LagsAt s.now n p

variable {n t r m : ModuleId} {u : Universe} {s : Authoring} {f : Method} {mv : Move}
  {name : String} {p : ModuleId × String} {slot? : Option (ModuleId × String)}
  {places : List (ModuleId × String)}

theorem slot?_addMethod :
    (Move.addMethod m f).slot? u = some p ↔ u.immutable? m = none ∧ (m, f.name) = p := by
  simp [Move.slot?]

theorem slot?_removeMethod :
    (Move.removeMethod m name).slot? u = some p ↔ u.immutable? m = none ∧ (m, name) = p := by
  simp [Move.slot?]

theorem mem_without : p ∈ without slot? places ↔ slot? ≠ some p ∧ p ∈ places := by
  rw [without, List.mem_filter, decide_eq_true_eq, and_comm]

/-- The places after a definition: its own, if the body was behind, and the others. -/
theorem mem_placesDefining {behind : Bool} :
    p ∈ (if behind then slot?.toList else []) ++ without slot? places ↔
      slot? = some p ∧ behind = true ∨ slot? ≠ some p ∧ p ∈ places := by
  rw [List.mem_append, mem_without]
  cases behind <;> simp

theorem sound_create (n : ModuleId) (options : Options) : Sound n { now := create options } where
  arises := ⟨options, [], trivial, rfl⟩
  known _ hb := nomatch hb
  behind _ hb := nomatch hb
  lagging p := by
    refine iff_of_false (nomatch ·) ?_
    rintro ⟨hp, -⟩
    rw [(blank_create options n).2.1] at hp
    cases hp

/-! ### Moves -/

/-- A registered refinement exists, and is registered nowhere else. -/
theorem registered (ha : Arises u) (hr : r ∈ (u.module n).refinements.values) :
    u.knows r ∧ ∀ m, r ∈ (u.module m).refinements.values → m = n := by
  obtain ⟨t, ht⟩ := Table.mem_values_iff.1 hr
  have hkind := ha.rooted.registry n t r ht
  refine ⟨(ha.rooted.placed r).known fun h => ?_, fun m hm => ?_⟩
  · cases hkind.symm.trans h
  · obtain ⟨t', ht'⟩ := Table.mem_values_iff.1 hm
    cases hkind.symm.trans (ha.rooted.registry m t' r ht')
    rfl

/-- The refinements of a namespace that is not opened keep their methods, apart from the one at the
place that a move stores or drops. -/
theorem find?_after_of_slot (ha : Arises u) (hk : mv.Known u) (hg : mv.Genuine u)
    (hreg : ¬mv.Registers n) (hp : p.1 ∈ (u.module n).refinements.values)
    (hslot : mv.slot? u ≠ some p) :
    ((u.after mv).module p.1).methods.find? p.2 = (u.module p.1).methods.find? p.2 := by
  obtain ⟨hknown, honly⟩ := registered ha hp
  have hspares := spares_after ha.reachable.wellFormed hk hg hknown
  cases mv with
  | addMethod m f =>
    by_cases h : u.immutable? m = none
    · obtain ⟨g, -, hmethods⟩ := methods_after_addMethod h f
      rw [hmethods]
      split
      · next he =>
        rw [Table.find?_insert, if_neg]
        exact fun hn => hslot (slot?_addMethod.2 ⟨h, Prod.ext he hn⟩)
      · rfl
    · rw [(after_of_immutable h f f.name).1]
  | removeMethod m name =>
    by_cases h : u.immutable? m = none
    · rw [find?_after_removeMethod h, if_neg]
      exact fun he => hslot (slot?_removeMethod.2 ⟨h, Prod.ext he.1 he.2⟩)
    · rw [(after_of_immutable h default name).2]
  | openRefinement m t =>
    -- another namespace, which declares its own refinements anew
    rw [hspares.methods fun h => hreg (honly m h).symm]
  | _ => rw [hspares.methods id]

/-- A move that does not open the namespace lets bodies be.  At the place of the method that it
stores or drops, if any, it has to be seen what is noted; the other places stay. -/
theorem Sound.move (h : Sound n s) (hk : mv.Known s.now) (hg : mv.Genuine s.now)
    (hreg : ¬mv.Registers n)
    (hslot : ∀ p, mv.slot? s.now = some p → (p ∈ places ↔ LagsAt (s.now.after mv) n p))
    (hother : ∀ p, mv.slot? s.now ≠ some p → (p ∈ places ↔ p ∈ s.lagging)) :
    Sound n { s with now := s.now.after mv, lagging := places } := by
  have hw := h.arises.reachable.wellFormed
  have hsame := refinements_after hw hk hg hreg
  refine ⟨h.arises.after hk hg, fun b hb t r hr => ?_, fun b hb => ?_, fun p => ?_⟩
  · exact knows_mono ((Leads.of_move hk).nextId hw) (h.known b hb t r hr)
  · rw [h.behind b hb, sees_congr hsame rfl]
  · by_cases hp : mv.slot? s.now = some p
    · exact hslot p hp
    · rw [hother p hp, h.lagging, LagsAt, LagsAt, hsame]
      refine and_congr_right fun hr => ?_
      rw [find?_after_of_slot h.arises hk hg hreg hr hp]
      simp only [sees_congr hsame rfl]

/-- A definition leaves its method lagging exactly when the body is behind. -/
theorem Sound.define (h : Sound n s) {i : Nat} (ha : s.Allows n (.define i r f)) :
    Sound n (s.perform n (.define i r f)) := by
  obtain ⟨hr, hk, hg, b, hb, hc⟩ := ha
  have hsame : ((s.now.after (.addMethod r f)).module n).refinements =
      (s.now.module n).refinements :=
    refinements_after h.arises.reachable.wellFormed hk hg id
  have hany : (s.bodies[i]?).any (·.behind) = b.behind := by rw [hb]; rfl
  refine h.move hk hg id (fun p hp => ?_) fun p hp => ?_ <;> rw [mem_placesDefining, hany]
  · obtain ⟨hm, rfl⟩ := slot?_addMethod.1 hp
    obtain ⟨g, hgc, hmethods⟩ := methods_after_addMethod hm f
    have hstored : ((s.now.after (.addMethod r f)).module r).methods.find? f.name = some g := by
      rw [hmethods, if_pos rfl, Table.find?_insert, if_pos rfl]
    have hsees : (s.now.after (.addMethod r f)).Sees n g.context ↔ s.now.Sees n b.context :=
      sees_congr hsame (hgc ▸ hc)
    rw [LagsAt, hsame, hstored]
    simp [hp, hr, hsees, h.behind b (List.mem_of_getElem? hb)]
  · simp [hp]

/-- No other move makes a method of the namespace lag. -/
theorem Sound.other (h : Sound n s) (ha : s.Allows n (.other mv)) :
    Sound n (s.perform n (.other mv)) := by
  obtain ⟨hk, hg, hrefines⟩ := ha
  have hreg : ¬mv.Registers n := by
    cases mv with
    | openRefinement m t => exact fun he => hrefines he.symm
    | _ => exact id
  have hsame := refinements_after h.arises.reachable.wellFormed hk hg hreg
  refine h.move hk hg hreg (fun p hp => ?_) fun p hp => ?_ <;> rw [mem_without]
  · refine iff_of_false (fun hno => hno.1 hp) ?_
    rintro ⟨hr, f, hf, -⟩
    rw [hsame] at hr
    cases mv with
    | addMethod m g =>
      obtain ⟨-, rfl⟩ := slot?_addMethod.1 hp
      exact absurd hr hrefines
    | removeMethod m name =>
      obtain ⟨hm, rfl⟩ := slot?_removeMethod.1 hp
      rw [find?_after_removeMethod hm, if_pos ⟨rfl, rfl⟩] at hf
      cases hf
    | _ => cases hp
  · exact and_iff_right hp

/-! ### Openings -/

/-- What an opening does to the bodies: those that run are behind if a further module is refined,
and one more begins. -/
theorem perform_enter_of_refinable (h : s.now.Refinable n) (t : ModuleId) :
    s.perform n (.enter t) = {
      now := s.now.after (.openRefinement n t)
      bodies := { context := s.now.openedContext n t, behind := false } :: s.bodies.map fun b =>
        { b with behind := b.behind || ((s.now.module n).refinements.find? t).isNone } } := by
  rw [perform, openRefinement_of_refinable h]

theorem perform_enter_of_not_refinable (h : ¬s.now.Refinable n) (t : ModuleId) :
    s.perform n (.enter t) = s := by
  obtain ⟨e, he⟩ := openRefinement_of_not_refinable h t
  rw [perform, he]

/-- A context that is about what there was goes on seeing all refinements unless a further module
is refined. -/
theorem sees_opened_iff {c d : Context} {v : Universe} (h : Opened u v n t r c)
    (hd : ∀ t, ∀ r ∈ d.refinementsFor t, u.knows r) :
    v.Sees n d ↔ u.Sees n d ∧ (u.module n).refinements.find? t ≠ none := by
  constructor
  · refine fun hv => ⟨fun k x hx => hv k x (h.kept hx), fun hnone => ?_⟩
    -- a refinement that is new cannot be active in a context that was there
    have hr : r ∈ d.refinementsFor t := hv t r (by rw [h.registry, if_pos rfl])
    rcases h.fresh with he | ⟨-, hno⟩
    · cases hnone.symm.trans he
    · exact hno (hd t r hr)
  · rintro ⟨hu, hsome⟩ k x hx
    have he := h.fresh.resolve_right fun hfresh => hsome hfresh.1
    rw [h.registry] at hx
    split at hx
    · next hk =>
      cases hx
      exact hu k r (hk ▸ he)
    · exact hu k x hx

/-- After an opening no method lags, and the bodies that ran are behind if a further module is
refined. -/
theorem Sound.enter (h : Sound n s) (ha : s.Allows n (.enter t)) :
    Sound n (s.perform n (.enter t)) := by
  by_cases hr : s.now.Refinable n
  · have hk : (Move.openRefinement n t).Known s.now := ha
    have hw := h.arises.reachable.wellFormed
    have hw' := (after_follows hw hk).1
    have hnext := (Leads.of_move hk).nextId hw
    have harises := h.arises.after hk trivial
    have ho := opened_openRefinement hw h.arises.contextsIssued hk.1 hk.2 hr
    rw [perform_enter_of_refinable hr]
    generalize s.now.after (.openRefinement n t) = v at hw' hnext harises ho ⊢
    have hown : v.Sees n (s.now.openedContext n t) :=
      fun k x hx => (mem_refinementsFor_of_registry ho.context).2 hx
    refine ⟨harises, fun b hb => ?_, fun b hb => ?_, fun p => iff_of_false (nomatch ·) ?_⟩
    · rcases List.mem_cons.1 hb with rfl | hb
      · intro k x hx
        have hreg := (mem_refinementsFor_of_registry ho.context).1 hx
        exact ((hw'.modules n (knows_mono hnext hk.1)).refinements k x hreg).2
      · obtain ⟨a, ha, rfl⟩ := List.mem_map.1 hb
        exact fun k x hx => knows_mono hnext (h.known a ha k x hx)
    · rcases List.mem_cons.1 hb with rfl | hb
      · exact iff_of_false Bool.false_ne_true fun hno => hno hown
      · obtain ⟨a, ha, rfl⟩ := List.mem_map.1 hb
        rw [sees_opened_iff ho (h.known a ha), Classical.not_and_iff_not_or_not,
          ← h.behind a ha, Classical.not_not, Bool.or_eq_true, Option.isNone_iff_eq_none]
    · rintro ⟨hp, f, hf, hno⟩
      exact hno ((sees_congr rfl (ho.declared p.1 hp p.2 f hf).1).2 hown)
  · rwa [perform_enter_of_not_refinable hr]

/-! ### Runs -/

theorem Sound.leave (h : Sound n s) : Sound n (s.perform n .leave) where
  arises := h.arises
  known b hb := h.known b (List.mem_of_mem_tail hb)
  behind b hb := h.behind b (List.mem_of_mem_tail hb)
  lagging := h.lagging

theorem Sound.perform (h : Sound n s) {d : Deed} (ha : s.Allows n d) :
    Sound n (s.perform n d) := by
  cases d with
  | enter t => exact h.enter ha
  | leave => exact h.leave
  | define i r f => exact h.define ha
  | other mv => exact h.other ha

theorem Sound.performAll (h : Sound n s) {ds : List Deed} (ha : s.AllowsAll n ds) :
    Sound n (s.performAll n ds) := by
  induction ds generalizing s with
  | nil => exact h
  | cons d ds ih => exact ih (h.perform ha.1) ha.2

theorem Sound.seesSiblings_iff (h : Sound n s) : s.now.SeesSiblings n ↔ s.lagging = [] := by
  rw [List.eq_nil_iff_forall_not_mem]
  constructor
  · intro hsees p hp
    obtain ⟨hr, f, hf, hno⟩ := (h.lagging p).1 hp
    exact hno (hsees p.1 hr p.2 f hf)
  · intro hnil r hr name f hf
    exact Classical.byContradiction fun hno => hnil (r, name) ((h.lagging _).2 ⟨hr, f, hf, hno⟩)

end Authoring

namespace Universe

open Authoring

/-- Along every history in which bodies define the methods of the refinements of a namespace, each
under what its context activates, the methods see all refinements of the namespace exactly as long
as none is stored that was defined by a body that was behind, after a further module had been
refined from within it, while the namespace was not opened again. -/
theorem seesSiblings_iff_not_lagging (options : Options) (n : ModuleId) (ds : List Deed)
    (h : AllowsAll n { now := create options } ds) :
    (performAll n { now := create options } ds).now.SeesSiblings n ↔
      (performAll n { now := create options } ds).lagging = [] :=
  ((sound_create n options).performAll h).seesSiblings_iff

/-- A namespace and two classes; the body of a refinement of the first one begins. -/
def beginning : List Deed :=
  [.other .newModule, .other (.newClass none), .other (.newClass none), .enter ⟨13⟩]

/-- The context of the body. -/
def firstContext : Context where
  definee := .fixed ⟨15⟩
  refinements := Table.empty.insert ⟨13⟩ [⟨15⟩]
  stamp := some ⟨1⟩

/-- The body defines a method. -/
def firstDefinition : Deed := .define 0 ⟨15⟩ (bodyMethod ⟨15⟩ firstContext)

theorem allows_firstDefinition {s : Authoring} (hr : ⟨15⟩ ∈ (s.now.module ⟨12⟩).refinements.values)
    (hu : s.now.knows ⟨13⟩ ∧ s.now.knows ⟨15⟩ ∧ 1 < s.now.nextSerial)
    (hb : (s.bodies[0]?).map (·.context.refinements) = some firstContext.refinements) :
    s.Allows ⟨12⟩ firstDefinition := by
  obtain ⟨h13, h15, hs⟩ := hu
  have hentries : ∀ e ∈ firstContext.refinements.entries,
      s.now.knows e.1 ∧ ∀ x ∈ e.2, s.now.knows x :=
    List.forall_mem_singleton.2 ⟨h13, List.forall_mem_singleton.2 h15⟩
  obtain ⟨hknown, hgenuine⟩ := known_bodyMethod h15 ⟨⟨15⟩, rfl, h15⟩ hentries ⟨_, rfl, hs⟩
  obtain ⟨b, hb, hc⟩ := Option.map_eq_some_iff.1 hb
  exact ⟨hr, hknown, hgenuine, b, hb, hc.symm⟩

/-- What a body defines before it opens its namespace for another class sees both refinements. -/
theorem seesSiblings_of_early_definition :
    (performAll ⟨12⟩ { now := create {} }
      (beginning ++ [firstDefinition, .enter ⟨14⟩, .leave, .leave])).now.SeesSiblings ⟨12⟩ := by
  refine (seesSiblings_iff_not_lagging {} ⟨12⟩
    (beginning ++ [firstDefinition, .enter ⟨14⟩, .leave, .leave]) ?_).2 (by decide +kernel)
  refine ⟨⟨trivial, trivial, id⟩, ⟨nofun, trivial, id⟩, ⟨nofun, trivial, id⟩,
    ⟨by decide +kernel, by decide +kernel⟩, ?_, ⟨by decide +kernel, by decide +kernel⟩,
    (by decide +kernel : _ ≠ _), (by decide +kernel : _ ≠ _), trivial⟩
  exact allows_firstDefinition (by decide +kernel) (by decide +kernel) (by decide +kernel)

/-- A universe in which the body defined the method after that, and all bodies have ended. -/
def definedLate : Authoring :=
  performAll ⟨12⟩ { now := create {} } (beginning ++ [.enter ⟨14⟩, .leave, firstDefinition, .leave])

/-- What the body defines after that does not see the refinement of the other class, even when all
bodies have ended. -/
theorem not_seesSiblings_of_late_definition :
    AllowsAll ⟨12⟩ { now := create {} }
      (beginning ++ [.enter ⟨14⟩, .leave, firstDefinition, .leave]) ∧
    definedLate.bodies = [] ∧
    (definedLate.now.module ⟨12⟩).refinements.find? ⟨14⟩ = some ⟨16⟩ ∧
    (∃ f, (definedLate.now.module ⟨15⟩).methods.find? "f" = some f ∧
      f.context.refinementsFor ⟨14⟩ = []) ∧
    ¬definedLate.now.SeesSiblings ⟨12⟩ := by
  have hallows : AllowsAll ⟨12⟩ { now := create {} }
      (beginning ++ [.enter ⟨14⟩, .leave, firstDefinition, .leave]) := by
    refine ⟨⟨trivial, trivial, id⟩, ⟨nofun, trivial, id⟩, ⟨nofun, trivial, id⟩,
      ⟨by decide +kernel, by decide +kernel⟩, ⟨by decide +kernel, by decide +kernel⟩,
      (by decide +kernel : _ ≠ _), ?_, (by decide +kernel : _ ≠ _), trivial⟩
    exact allows_firstDefinition (by decide +kernel) (by decide +kernel) (by decide +kernel)
  have hregistered : (definedLate.now.module ⟨12⟩).refinements.find? ⟨14⟩ = some ⟨16⟩ := by
    decide +kernel
  have hstored := (by decide +kernel :
    ((definedLate.now.module ⟨15⟩).methods.find? "f").map (·.context.refinementsFor ⟨14⟩) =
      some [])
  obtain ⟨f, hf, hblind⟩ := Option.map_eq_some_iff.1 hstored
  refine ⟨hallows, by decide +kernel, hregistered, ⟨f, hf, hblind⟩, fun h => ?_⟩
  have hseen := h ⟨15⟩ (by decide +kernel) "f" f hf ⟨14⟩ ⟨16⟩ hregistered
  rw [hblind] at hseen
  cases hseen

end Universe

end ObjectModel
