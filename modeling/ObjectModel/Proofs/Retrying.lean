import ObjectModel.Proofs.Entering
import ObjectModel.Proofs.Untouched

/-!
# Loads that fail

A request that enters the loader for a constant fails as the loader does.  The constant is not
settled then, and its mark is gone.  Unless the loader wrote to the constant, it still waits for its
feature, and the next request that comes to it enters the loader again.

* `Request.LoadFails`, `Request.run_of_loadFails`: what a request comes to if a load fails;
* `Arises.pendingNamed`, `Marking.Steps.feature`: constants that wait for a feature have names of
  the grammar, and their feature stays;
* `Request.Reads`, `Request.entersFor_of_reads`: requests that begin with a constant;
* `Retries`, `retries_of_retains`: whoever begins with a constant enters the loader for it;
* `marked_iff_and_retries`: which marks are set, and what a load that fails leaves;
* `retries_failingLoad`: a loader that defines another constant before it fails.
-/

namespace ObjectModel

open Universe Marking

variable {σ α β : Type} {u v : Universe} {w w' w₁ v₁ : World σ} {require : String → Act σ Bool}
  {k m n : ModuleId} {name : String} {c : Constant} {a : AutoloadId} {f : Failure} {mv : Move}
  {active : List (AutoloadId × ThreadId)}

/-! ### Failures -/

/-- A request that is made in `w` enters the loader for a constant that is resolved in the module
`n`, and the loader fails. -/
structure Request.LoadFails (require : String → Act σ Bool) (q : Request α) (w : World σ)
    (c : Constant) (n : ModuleId) (a : AutoloadId) (w₁ : World σ) (f : Failure) (v : World σ) :
    Prop where
  resolves : q.Resolves require c n w₁ w
  enters : w₁.model.Enters c
  waits : c.autoload? = some a
  fails : require (w₁.model.autoload a).feature (entering n c.name a w₁) = .error f v

/-- The request fails in the same way.  Of the constant only the mark goes. -/
theorem Request.run_of_loadFails {q : Request α} (hs : w.model.Sourced)
    (h : q.LoadFails require w c n a w₁ f v₁) :
    q.run require w = .error f (markAutoload a none v₁) := by
  refine run_of_resolves hs h.resolves (Option.isSome_of_eq_some h.waits) ?_
  obtain ⟨hl, a', ha', hidle⟩ := h.enters
  cases h.waits.symm.trans ha'
  rw [resolveAutoload_of_idle require _ _ h.waits hidle, if_pos hl, loadFeature_apply, h.fails]

/-- Until the loader has failed, the request goes by steps. -/
theorem Request.steps_of_loadFails {q : Request α} (hr : Loads require w)
    (hd : Disciplined ⟨w.model, active⟩) (hq : q.Known w.model)
    (h : q.LoadFails require w c n a w₁ f v₁) :
    Steps ⟨w.model, active⟩ ⟨w₁.model, active⟩ ∧
      Steps ⟨w₁.model, active⟩ ⟨v₁.model, (a, w₁.thread) :: active⟩ := by
  obtain ⟨hsteps, hissued⟩ := steps_of_resolves hr hd hq h.resolves
  obtain ⟨-, a', ha', hidle⟩ := h.enters
  cases h.waits.symm.trans ha'
  have hentered := steps_entering n c.name (hissued.registered a h.waits) hidle active
  have hgoes := hr (w₁.model.autoload a).feature (entering n c.name a w₁)
    (hsteps.leads.trans hentered.leads)
  exact ⟨hsteps, hentered.trans
    (hgoes.steps_of_error (hd.steps (hsteps.trans hentered)) h.fails)⟩

/-! ### Constants that wait -/

/-- Constants wait for a feature under names of the grammar only. -/
def Universe.PendingNamed (u : Universe) : Prop :=
  ∀ k name c, u.ownConstant k name = some c → c.isAutoload = true → Name.isConstantName name = true

theorem Universe.PendingNamed.step (h : u.PendingNamed) (hk : mv.Known u) :
    (u.after mv).PendingNamed := by
  intro k name c hc hp
  obtain ⟨a, ha⟩ := Option.isSome_iff_exists.1 hp
  rcases ((stores_after hk).constants k name c hc).pending ha with
    ⟨s, c₀, hc₀, ha₀, -, -⟩ | ⟨hplace, -⟩
  · exact h s name c₀ hc₀ (Option.isSome_of_eq_some ha₀)
  · cases mv with
    | registerAutoload m other feature =>
      rw [Move.pending?] at hplace
      split at hplace
      · next hall =>
        cases hplace
        exact hall.1
      · cases hplace
    | _ => cases hplace

theorem Universe.Arises.pendingNamed (h : Arises u) : u.PendingNamed := by
  refine h.induction (fun options k name c hc hp => ?_) fun v mv _ ih hk _ => ih.step hk
  rw [Constant.isAutoload, (ownConstant_create hc).2.2.2] at hp
  cases hp

/-- The feature of an autoload that was registered stays. -/
theorem Universe.feature_after (hk : mv.Known u) (ha : a.num < u.nextSerial) :
    ((u.after mv).autoload a).feature = (u.autoload a).feature := by
  by_cases hm : mv.Marks
  · cases mv with
    | markAutoload b t =>
      rw [autoload_after_markAutoload]
      split
      · next he => rw [he]
      · rfl
    | _ => exact absurd hm id
  · rcases autoload_after hk hm a with he | ⟨rfl, -⟩
    · rw [he]
    · exact absurd ha (Nat.lt_irrefl _)

theorem Marking.Steps.feature {s s' : Marking} (hd : s.Disciplined) (hs : Steps s s')
    (ha : a.num < s.now.nextSerial) :
    (s'.now.autoload a).feature = (s.now.autoload a).feature := by
  suffices h : a.num < s'.now.nextSerial ∧
      (s'.now.autoload a).feature = (s.now.autoload a).feature from h.2
  induction hs with
  | refl => exact ⟨ha, rfl⟩
  | @tail b _ hsteps hstep ih =>
    have hmoved (mv : Move) (hk : mv.Known b.now) (hg : mv.Genuine b.now) :
        a.num < (b.now.after mv).nextSerial ∧
          ((b.now.after mv).autoload a).feature = (s.now.autoload a).feature := by
      have hwell := (hd.steps hsteps).arises.reachable.wellFormed
      exact ⟨Nat.lt_of_lt_of_le ih.1 (nextSerial_le_after hwell hk hg),
        (feature_after hk ih.1).trans ih.2⟩
    cases hstep with
    | move known genuine => exact hmoved _ known genuine
    | start | stop => exact hmoved (.markAutoload _ _) trivial trivial

/-! ### Requests that begin with a constant -/

theorem Universe.Enters.of_reported (he : u.Enters c) (h : u.Reported v) : v.Enters c := by
  obtain ⟨hl, a, ha, hidle⟩ := he
  exact ⟨h.hasLoader.trans hl, a, ha, by rw [h.autoload, hidle]⟩

theorem Universe.Enters.stopsAt (he : u.Enters c) (t : ThreadId) : u.stopsAt t c = true := by
  obtain ⟨-, a, ha, hidle⟩ := he
  simp [Universe.stopsAt, loading?, ha, Option.filter, hidle]

/-- A search that begins where such a constant is finds it. -/
theorem Universe.Enters.search (he : u.Enters c)
    (hown : u.ownConstant c.declaringModule c.name = some c) (t : ThreadId) (ms : List ModuleId) :
    (u.searchConstant t c.name (c.declaringModule :: ms)).constant = some c := by
  rw [searchConstant_constant, List.findSome?_cons, hown, Option.filter, if_pos (he.stopsAt t)]

/-- The innermost module comes first. -/
theorem Universe.exists_lexicalConstantPath (u : Universe) (s : LexicalScope) :
    ∃ ms, u.lexicalConstantPath s = s.live :: ms := by
  unfold lexicalConstantPath LexicalScope.live
  cases s.nesting <;> exact ⟨_, rfl⟩

namespace Request

/-- The first constant that a request is about is this one, in the module that declares it. -/
def Reads (c : Constant) : Request α → Prop
  | find m text _ | defined m text _ => pathStart m text = c.declaringModule ∧
    ∃ last rest, (ConstantPath.parse text).segments = c.name :: last :: rest
  | get m text _ => pathStart m text = c.declaringModule ∧
    ∃ rest, (ConstantPath.parse text).segments = c.name :: rest
  | qualified m name => m = c.declaringModule ∧ name = c.name ∧ c.isPrivate = false
  | lexical s name => s.live = c.declaringModule ∧ name = c.name
  | binding _ d => d = c
  | openModule parent name | openClass parent name _ => parent = c.declaringModule ∧ name = c.name

/-- Such a request enters the loader if the constant waits for a feature that no thread is
loading. -/
theorem entersFor_of_reads {q : Request α} (hq : q.Reads c)
    (hname : Name.isConstantName c.name = true)
    (hown : w.model.ownConstant c.declaringModule c.name = some c) (he : w.model.Enters c)
    (require : String → Act σ Bool) : q.EntersFor require c w := by
  have hnoted (m : ModuleId) : (noting m c w).model.Enters c :=
    he.of_reported (reported_noting m c w).model
  have hlookup (inherit : Bool) : ∃ r, (lookupSegment c.declaringModule c.name inherit :
      Act σ ConstantResult) w = .ok r w ∧ r.constant = some c := by
    rw [lookupSegment_apply, lookupConstantInherit, if_pos hname]
    refine ⟨_, rfl, ?_⟩
    cases inherit <;> exact he.search hown w.thread _
  have hpasses (inherit : Bool) (last : String) (rest : List String) :
      PassesThrough require inherit c c.declaringModule (noting c.declaringModule c w)
        c.declaringModule (c.name :: last :: rest) w := by
    obtain ⟨r, hr, hfound⟩ := hlookup inherit
    exact ⟨r, c, hr, hfound, .inl ⟨rfl, (w.holder_declaringModule c).symm, rfl⟩⟩
  have hopened : w.model.openedConstant c.declaringModule c.name = some c := by
    rw [openedConstant, hown]
  cases q with
  | find m text inherit | defined m text inherit =>
    obtain ⟨hstart, last, rest, hsegments⟩ := hq
    refine ⟨c.declaringModule, noting c.declaringModule c w, ?_, hnoted _⟩
    show PassesThrough _ _ _ _ _ (pathStart m text) (ConstantPath.parse text).segments w
    rw [hstart, hsegments]
    exact hpasses inherit last rest
  | get m text inherit =>
    obtain ⟨hstart, rest, hsegments⟩ := hq
    cases rest with
    | nil =>
      obtain ⟨r, hr, hfound⟩ := hlookup inherit
      refine ⟨_, noting m c w, .inr ⟨r, w, ?_, hfound, rfl, rfl⟩, hnoted m⟩
      show walkScoped _ _ _ _ (pathStart m text) (ConstantPath.parse text).segments w = _
      rw [hstart, hsegments, walkScoped, if_pos hname]
      exact hr
    | cons last rest =>
      refine ⟨c.declaringModule, noting c.declaringModule c w, .inl ?_, hnoted _⟩
      rw [hstart, hsegments]
      exact hpasses inherit last rest
  | qualified m name =>
    obtain ⟨rfl, rfl, hpublic⟩ := hq
    obtain ⟨r, hr, hfound⟩ := hlookup true
    exact ⟨_, _, ⟨r, hr, hfound, hpublic, rfl, rfl⟩, hnoted _⟩
  | lexical s name =>
    obtain ⟨hlive, rfl⟩ := hq
    refine ⟨_, _, ⟨hname, ?_, rfl, rfl⟩, hnoted _⟩
    obtain ⟨ms, hms⟩ := exists_lexicalConstantPath w.model s
    rw [lookupConstantLexical, hms, hlive]
    exact he.search hown w.thread ms
  | binding m d =>
    cases hq
    exact ⟨_, _, ⟨rfl, rfl, rfl⟩, hnoted m⟩
  | openModule parent name | openClass parent name superclass =>
    obtain ⟨rfl, rfl⟩ := hq
    exact ⟨_, w, ⟨hname, hopened, rfl, rfl⟩, he⟩

end Request

/-- A constant still waits for its feature, and whoever begins with it enters the loader for it, on
any thread. -/
structure Retries (c : Constant) (w : World σ) : Prop where
  waits : w.model.ownConstant c.declaringModule c.name = some c
  enters : w.model.Enters c
  again : ∀ (t : ThreadId) (require : String → Act σ Bool) {β : Type} (q : Request β),
    q.Reads c → q.EntersFor require c { w with thread := t }

/-- This is so of a constant that could be loaded before, and that is as it was. -/
theorem retries_of_retains (ha : Arises u) (hc : u.ownConstant c.declaringModule c.name = some c)
    (he : u.Enters c) (hkept : Retains c.declaringModule c.name (some c) w.model)
    (hthreads : ∀ a, (w.model.autoload a).thread = (u.autoload a).thread) : Retries c w := by
  obtain ⟨-, a, hauto, hidle⟩ := he
  have hagain : w.model.Enters c := by
    refine ⟨hkept.hasLoader, a, hauto, ?_⟩
    rwa [Autoload.isLoading, hthreads]
  exact ⟨hkept.constant, hagain, fun t require _ q hq =>
    Request.entersFor_of_reads (w := { w with thread := t }) hq
      (ha.pendingNamed _ _ c hc (Option.isSome_of_eq_some hauto)) hkept.constant hagain require⟩

/-- At every point of every run, the marks that are set are those of the autoloads that are worked
on there, so that a request leaves the marks as they were, whether it fails or not.  If it enters
the loader and the loader fails, it fails in the same way.  Any constant that could be loaded by
then and that the loader has not written to, such as the one in question, still waits for the same
feature, and the next request that begins with it enters the loader again. -/
theorem marked_iff_and_retries {options : Options}
    (hs : Steps { now := create options } ⟨w.model, active⟩) :
    (∀ {α : Type} (x : Act σ α) (p : World σ) (l : List (AutoloadId × ThreadId)),
      ComesTo x w p l → ∀ a t, (p.model.autoload a).thread = some t ↔ (a, t) ∈ l ++ active) ∧
    ∀ {α : Type} (q : Request α) (require : String → Act σ Bool), q.Known w.model →
      (∀ feature w', Leads w.model w'.model → Operates (require feature) w') →
      (∀ a, (((q.run require).final w).model.autoload a).thread = (w.model.autoload a).thread) ∧
      ((∀ c, ¬q.EntersFor require c w) → ∀ require', q.run require w = q.run require' w) ∧
      ∀ c n a w₁ f v, q.LoadFails require w c n a w₁ f v →
        q.run require w = .error f (markAutoload a none v) ∧
        ∀ c', w₁.model.ownConstant c'.declaringModule c'.name = some c' → w₁.model.Enters c' →
          ∀ mvs, v.model = (entering n c.name a w₁).model.afterAll mvs →
            (∀ mv ∈ mvs, ¬mv.Writes c'.declaringModule c'.name) →
            Retries c' (markAutoload a none v) ∧ ∀ a', c'.autoload? = some a' →
              (v.model.autoload a').feature = (w₁.model.autoload a').feature := by
  have hd := (disciplined_create options).steps hs
  -- marks follow from who is at work, so that the same are set where the same work goes on
  refine ⟨fun x p l hp a t => (hd.steps (hp.steps hd)).marked a t,
    fun q require hq hloader => ⟨fun a => ?_, Request.run_congr, fun c n a w₁ f v hfails => ?_⟩⟩
  · have hdone := (Operates.ask require q hq hloader).goesBy active hd
    exact hd.thread_eq (hd.steps hdone) rfl a
  · obtain ⟨hbefore, hload⟩ := Request.steps_of_loadFails (.of_operates hloader) hd hq hfails
    have hresolved := hd.steps hbefore
    have hfailed := hresolved.steps hload
    refine ⟨Request.run_of_loadFails hd.arises.sourced hfails, fun c' hc he mvs hmvs hw => ⟨?_, ?_⟩⟩
    · have hentered : Retains c'.declaringModule c'.name (some c')
          (entering n c.name a w₁).model :=
        ⟨hresolved.arises.reachable.wellFormed.knows_of_ownConstant hc, hc, he.1⟩
      have hleft : Retains c'.declaringModule c'.name (some c') (markAutoload a none v).model :=
        @retains_after _ _ _ _ (hmvs ▸ retains_afterAll hentered hw) (.markAutoload a none) id
      have hended := hfailed.step (.stop_head v.model a w₁.thread active)
      exact retries_of_retains hresolved.arises hc he hleft (hresolved.thread_eq hended rfl)
    · intro a' ha'
      exact hload.feature hresolved (hresolved.arises.autoloadsIssued _ _ c' a' hc ha')

/-- Another constant is defined. -/
def defineOther : Act Unit Unit :=
  discard (setConstant ⟨12⟩ "D" (.int 1) none : Act Unit Constant)

theorem final_defineOther (w : World Unit) :
    (defineOther.final w).model = w.model.afterAll [.setConstant ⟨12⟩ "D" (.int 1) none] := by
  rw [defineOther, Act.final_discard, Act.model_final_lift]
  exact (Update.final_discard _ _).symm

/-- A loader that does so and fails then. -/
def failingLoad (_ : String) : Act Unit Bool := do
  defineOther
  Act.raise (.custom .argumentError "cannot load lib" "")

theorem operates_failingLoad (feature : String) {w : World Unit} (hm : w.model.knows ⟨12⟩) :
    Operates (failingLoad feature) w := by
  refine .bind (.moves [.setConstant ⟨12⟩ "D" (.int 1) none] ⟨⟨hm, trivial⟩, trivial, trivial⟩
    (fun mv hmv => ?_) (final_defineOther w)) fun _ _ _ =>
      .moves [] trivial (List.forall_mem_nil _) rfl
  cases List.mem_singleton.1 hmv
  exact id

theorem steps_waitingConstant : Steps { now := create {} } ⟨waitingConstant, []⟩ := by
  refine @steps_afterAll (create {}) [.newClass none, .newClass (some ⟨12⟩), .installLoader,
    .registerAutoload ⟨12⟩ "C" "lib"] ⟨?_, trivial, ?_, trivial, trivial, trivial,
    (by decide +kernel : Universe.knows _ _), trivial, trivial⟩ (fun mv hmv => ?_) []
  · intro m hm
    cases hm
  · intro m hm
    cases hm
    decide +kernel
  · simp only [List.mem_cons, List.not_mem_nil, or_false] at hmv
    rcases hmv with rfl | rfl | rfl | rfl <;> exact id

/-- A thread that reads a constant whose feature cannot be loaded has it marked meanwhile and is
told so, and the next one that opens it as a module enters the loader again. -/
theorem retries_failingLoad : Steps { now := create {} } ⟨waitingConstant, []⟩ ∧
    ComesTo (lexicalConstantGet failingLoad (.ofModule ⟨12⟩) "C") ⟨waitingConstant, ⟨0⟩, (), []⟩
      (entering ⟨12⟩ "C" ⟨1⟩ ⟨waitingConstant, ⟨0⟩, (), []⟩) [(⟨1⟩, ⟨0⟩)] ∧
    ((entering ⟨12⟩ "C" ⟨1⟩ ⟨waitingConstant, ⟨0⟩, (), []⟩).model.autoload ⟨1⟩).thread = some ⟨0⟩ ∧
    ∃ v : World Unit,
    (Request.lexical (.ofModule ⟨12⟩) "C").LoadFails failingLoad ⟨waitingConstant, ⟨0⟩, (), []⟩
      pendingC ⟨12⟩ ⟨1⟩ ⟨waitingConstant, ⟨0⟩, (), []⟩
      (.raised (.custom .argumentError "cannot load lib" "")) v ∧
    lexicalConstantGet failingLoad (.ofModule ⟨12⟩) "C" ⟨waitingConstant, ⟨0⟩, (), []⟩ =
      .error (.raised (.custom .argumentError "cannot load lib" "")) (markAutoload ⟨1⟩ none v) ∧
    (v.model.autoload ⟨1⟩).feature = "lib" ∧
    (Request.openModule ⟨12⟩ "C").EntersFor failingLoad pendingC
      { markAutoload ⟨1⟩ none v with thread := ⟨1⟩ } := by
  obtain ⟨v, hv, hfails⟩ : ∃ v : World Unit,
      v.model = (entering ⟨12⟩ "C" ⟨1⟩ ⟨waitingConstant, ⟨0⟩, (), []⟩).model.afterAll
        [.setConstant ⟨12⟩ "D" (.int 1) none] ∧
      (Request.lexical (.ofModule ⟨12⟩) "C").LoadFails failingLoad ⟨waitingConstant, ⟨0⟩, (), []⟩
        pendingC ⟨12⟩ ⟨1⟩ ⟨waitingConstant, ⟨0⟩, (), []⟩
        (.raised (.custom .argumentError "cannot load lib" "")) v := by
    have hdefined : defineOther (entering ⟨12⟩ "C" ⟨1⟩ ⟨waitingConstant, ⟨0⟩, (), []⟩) = .ok () _ :=
      Act.eq_ok (by decide +kernel)
    exact ⟨_, final_defineOther _, ⟨by decide +kernel, by decide +kernel, rfl, rfl⟩,
      ⟨by decide +kernel, ⟨1⟩, rfl, by decide +kernel⟩, rfl, Act.bind_of_ok hdefined⟩
  have hloader (feature : String) (w' : World Unit) (hl : Leads waitingConstant w'.model) :
      Operates (failingLoad feature) w' := by
    refine operates_failingLoad feature (knows_mono (hl.nextId ?_) ?_)
    · exact arises_waitingConstant.reachable.wellFormed
    · decide +kernel
  have hentered : ComesTo (lexicalConstantGet failingLoad (.ofModule ⟨12⟩) "C")
      ⟨waitingConstant, ⟨0⟩, (), []⟩ (entering ⟨12⟩ "C" ⟨1⟩ ⟨waitingConstant, ⟨0⟩, (), []⟩)
      [(⟨1⟩, ⟨0⟩)] :=
    .loading (q := .lexical (.ofModule ⟨12⟩) "C") trivial hloader hfails.resolves hfails.enters
      hfails.waits (.start _ _)
  obtain ⟨hpoints, hrequests⟩ := marked_iff_and_retries (w := ⟨waitingConstant, ⟨0⟩, (), []⟩)
    steps_waitingConstant
  obtain ⟨-, -, hrun⟩ := hrequests (.lexical (.ofModule ⟨12⟩) "C") failingLoad trivial hloader
  obtain ⟨hfailed, hretries⟩ := hrun _ _ _ _ _ _ hfails
  obtain ⟨hagain, hfeature⟩ := hretries pendingC (by decide +kernel) hfails.enters
    [.setConstant ⟨12⟩ "D" (.int 1) none] hv fun mv hmv => by
      cases List.mem_singleton.1 hmv
      exact fun h => absurd h.2 (by decide)
  exact ⟨steps_waitingConstant, hentered, (hpoints _ _ _ hentered ⟨1⟩ ⟨0⟩).2 List.mem_cons_self,
    v, hfails, hfailed, (hfeature ⟨1⟩ rfl).trans (by decide +kernel),
    hagain.again ⟨1⟩ failingLoad (.openModule ⟨12⟩ "C") ⟨rfl, rfl⟩⟩

end ObjectModel
