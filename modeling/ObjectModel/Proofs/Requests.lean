import ObjectModel.Proofs.Marking
import ObjectModel.Proofs.ScopedSearch

/-!
# Requests that may run the loader

Reading a constant and opening a module may run the loader, and what the loader runs may make such
requests again, on any thread.  Code that changes a universe by its operations only, and that runs
loaders of this kind, sets marks and drops them as it should.

* `Request`, `Request.run`, `Request.Known`: the requests, what they do, and which can be made;
* `Request.goesBy`: a request goes by steps if the loader does;
* `Operates`: code that works on a universe through its operations;
* `Operates.goesBy`: such code goes by steps.
-/

namespace ObjectModel

open Universe Marking

variable {σ α β : Type} {w w' : World σ} {require : String → Act σ Bool} {m n k : ModuleId}
  {name : String} {c : Constant}

/-! ### Lookups -/

/-- A constant that some table binds. -/
def Universe.Stored (u : Universe) (c : Constant) : Prop := ∃ k name, u.ownConstant k name = some c

theorem Universe.stored_of_search {u : Universe} {t : ThreadId} {ms : List ModuleId}
    (h : (u.searchConstant t name ms).constant = some c) : u.Stored c := by
  rw [searchConstant_constant] at h
  obtain ⟨k, -, hk⟩ := List.exists_of_findSome?_eq_some h
  exact ⟨k, name, (Option.filter_eq_some_iff.1 hk).1⟩

/-- A lookup in a module changes nothing, and finds what is stored. -/
theorem lookupSegment_ok {inherit : Bool} {r : ConstantResult}
    (h : (lookupSegment m name inherit : Act σ ConstantResult) w = .ok r w') :
    w' = w ∧ ∀ c, r.constant = some c → w.model.Stored c := by
  rw [lookupSegment_apply, lookupConstantInherit] at h
  split at h
  · next r' hr =>
    cases h
    split at hr
    · cases hr
      exact ⟨rfl, fun c hc => stored_of_search hc⟩
    · cases hr
  · cases h

theorem final_lookupSegment (m : ModuleId) (name : String) (inherit : Bool) (w : World σ) :
    (lookupSegment m name inherit : Act σ ConstantResult).final w = w := by
  rw [Act.final, lookupSegment_apply]
  cases w.model.lookupConstantInherit w.thread m name inherit <;> rfl

/-- What looking a path up finds is stored when it is found. -/
theorem stored_of_walkScoped {text : String} {inherit : Bool} {passed : Nat}
    {segments : List String} {r : ConstantResult}
    (h : walkScoped require text inherit passed m segments w = .ok r w')
    (hc : r.constant = some c) : w'.model.Stored c := by
  induction segments generalizing passed m w with
  | nil => cases h
  | cons segment rest ih =>
    cases rest with
    | nil =>
      unfold walkScoped at h
      split at h
      · obtain ⟨rfl, hstored⟩ := lookupSegment_ok h
        exact hstored c hc
      · cases h
    | cons last rest =>
      unfold walkScoped at h
      cases hfound : (lookupSegment m segment inherit : Act σ ConstantResult) w with
      | error f w₁ => cases (Act.bind_of_error hfound).symm.trans h
      | ok found w₁ =>
        replace h := (Act.bind_of_ok hfound).symm.trans h
        cases hd : found.constant with
        | none =>
          rw [hd] at h
          cases h
          cases hd.symm.trans hc
        | some d =>
          rw [hd] at h
          cases hvalue : constantValue require m d w₁ with
          | error f w₂ => cases (Act.bind_of_error hvalue).symm.trans h
          | ok y w₂ =>
            replace h := (Act.bind_of_ok hvalue).symm.trans h
            cases y with
            | none =>
              cases h
              cases hc
            | some y =>
              cases y with
              | module next => exact ih h
              | nil | bool | int | symbol | string | object => cases h

/-! ### Values -/

theorem Universe.Stored.issued {u : Universe} (ha : Arises u) (hc : u.Stored c) : u.Issued c := by
  obtain ⟨k, name, hc⟩ := hc
  exact ⟨(ha.sourced k name c hc).declaring, fun a => ha.autoloadsIssued k name c a hc⟩

/-- Reading a constant that is stored goes by steps if the loader does. -/
theorem goesBy_stored (hr : Loads require w) (m : ModuleId) (hc : w.model.Stored c) :
    GoesBy (constantValue require m c) w :=
  goesBy_of_arises fun ha => goesBy_constantValue hr m (hc.issued ha)

theorem goesBy_resultValue (hr : Loads require w) (m : ModuleId) {r : ConstantResult}
    (hc : ∀ c, r.constant = some c → w.model.Stored c) : GoesBy (resultValue require m r) w := by
  unfold resultValue
  cases hfound : r.constant with
  | none => exact goesBy_of_same rfl
  | some c => exact goesBy_stored hr m (hc c hfound)

theorem goesBy_walkScoped (hr : Loads require w) (text : String) (inherit : Bool)
    (passed : Nat) (m : ModuleId) (segments : List String) :
    GoesBy (walkScoped require text inherit passed m segments) w := by
  have hlookup (m : ModuleId) (segment : String) (w : World σ) :
      GoesBy (lookupSegment m segment inherit) w :=
    goesBy_of_same (by rw [final_lookupSegment])
  induction segments generalizing passed m w with
  | nil => exact goesBy_of_same rfl
  | cons segment rest ih =>
    cases rest with
    | nil =>
      unfold walkScoped
      split
      · exact hlookup m segment w
      · exact goesBy_of_same rfl
    | cons last rest =>
      unfold walkScoped
      refine goesBy_bind (hlookup m segment w) fun found w₁ hfound _ => ?_
      obtain ⟨rfl, hstored⟩ := lookupSegment_ok hfound
      cases hc : found.constant with
      | none => exact goesBy_of_same rfl
      | some c =>
        refine goesBy_bind (goesBy_stored hr m (hstored c hc)) fun y w₂ _ hl => ?_
        cases y with
        | none => exact goesBy_of_same rfl
        | some y =>
          cases y with
          | module next => exact ih (hr.later hl) (passed + segment.utf8ByteSize + 2) next
          | nil | bool | int | symbol | string | object => exact goesBy_of_same rfl

theorem goesBy_constGet (hr : Loads require w) (m : ModuleId) (text : String) (inherit : Bool) :
    GoesBy (constGet require m text inherit) w := by
  unfold constGet
  refine goesBy_bind (goesBy_walkScoped hr _ _ _ _ _) fun found w₁ hfound hl => ?_
  have hstored (c : Constant) (hc : found.constant = some c) : w₁.model.Stored c :=
    stored_of_walkScoped hfound hc
  refine goesBy_bind (goesBy_resultValue (hr.later hl) m hstored) fun y w₂ _ _ => ?_
  cases y <;> exact goesBy_of_same rfl

theorem goesBy_lexicalConstantGet (hr : Loads require w) (s : LexicalScope) (name : String) :
    GoesBy (lexicalConstantGet require s name) w := by
  unfold lexicalConstantGet
  split
  · exact goesBy_of_same rfl
  · refine goesBy_congr (y := resultValue require s.live
      (w.model.lookupConstantLexical w.thread s name) >>= _) rfl ?_
    refine goesBy_bind (goesBy_resultValue hr s.live fun c hc => stored_of_search hc)
      fun y w₁ _ _ => ?_
    cases y <;> exact goesBy_of_same rfl

theorem goesBy_scopedConstantGet (hr : Loads require w) (m : ModuleId) (name : String) :
    GoesBy (scopedConstantGet require m name) w := by
  unfold scopedConstantGet
  refine goesBy_bind (goesBy_of_same (by rw [final_lookupSegment])) fun found w₁ hfound _ => ?_
  obtain ⟨rfl, hstored⟩ := lookupSegment_ok hfound
  refine goesBy_bind (goesBy_of_same rfl) fun u w₂ hw₂ _ => ?_
  cases hw₂
  cases hc : found.constant with
  | none => exact goesBy_of_same rfl
  | some c =>
    dsimp only
    split
    · exact goesBy_of_same rfl
    · refine goesBy_bind (goesBy_stored hr m (hstored c hc)) fun y w₂ _ _ => ?_
      cases y <;> exact goesBy_of_same rfl

/-! ### Openings -/

theorem Universe.exists_of_opened {u : Universe} (h : u.openedConstant m name = some c) :
    ∃ k, u.ownConstant k name = some c := by
  unfold openedConstant at h
  cases hown : u.ownConstant m name with
  | some d =>
    rw [hown] at h
    cases h
    exact ⟨m, hown⟩
  | none =>
    rw [hown] at h
    dsimp only at h
    split at h
    · obtain ⟨k, -, hk⟩ := List.exists_of_findSome?_eq_some h
      exact ⟨k, hk⟩
    · cases h

theorem Universe.stored_of_opened {u : Universe} (h : u.openedConstant m name = some c) :
    u.Stored c :=
  (exists_of_opened h).imp fun _ hk => ⟨name, hk⟩

theorem goesBy_openedValue (hr : Loads require w) (parent : ModuleId) (name : String) :
    GoesBy (openedValue require parent name) w := by
  unfold openedValue
  refine goesBy_bind (goesBy_of_same rfl) fun u w₁ hw₁ _ => ?_
  cases hw₁
  cases hc : w.model.openedConstant parent name with
  | none => exact goesBy_of_same rfl
  | some c =>
    dsimp only
    split
    · refine goesBy_of_arises fun ha => ?_
      have hissued := Stored.issued ha (stored_of_opened hc)
      refine goesBy_bind (goesBy_of_same rfl) fun _ w₁ hw₁ _ => ?_
      cases hw₁
      exact goesBy_bind (goesBy_resolveAutoload hr _ name hissued.registered)
        fun x w₁ _ _ => goesBy_of_same rfl
    · exact goesBy_of_same rfl

theorem goesBy_checkConstantName (name : String) (w : World σ) :
    GoesBy (checkConstantName name : Act σ Unit) w := by
  unfold checkConstantName
  split <;> exact goesBy_of_same rfl

/-- Assigning a module that exists goes by steps. -/
theorem goesBy_constSet (hp : w.model.knows k) (hm : w.model.knows m) (name : String) :
    GoesBy (constSet k name (.module m) : Act σ Unit) w := by
  unfold constSet checkConstantName
  split
  · refine @goesBy_of_move _ _ _ _ (.setConstant k name (.module m) none) ⟨hp, hm⟩ trivial id ?_
    exact Act.model_final_lift _ w
  · exact goesBy_of_same rfl

/-- A module that was just made is bound to its name, and reported. -/
theorem goesBy_bindMade {made : Act σ ModuleId} (hp : w.model.knows k) (hmade : GoesBy made w)
    (hknown : ∀ m w', made w = .ok m w' → w'.model.knows m) (name : String)
    (e : ModuleId → Universe → Event) :
    GoesBy (do
      let m ← made
      constSet k name (.module m)
      reportNow (e m)
      return m : Act σ ModuleId) w := by
  refine goesBy_of_arises fun ha => goesBy_bind hmade fun m w₁ hw₁ hl => ?_
  have hp₁ := knows_mono (hl.nextId ha.reachable.wellFormed) hp
  refine goesBy_bind (goesBy_constSet hp₁ (hknown m w₁ hw₁) name) fun _ w₂ _ _ => ?_
  refine goesBy_bind (goesBy_report (e m w₂.model) w₂) fun _ w₃ _ _ => ?_
  exact goesBy_of_same rfl

theorem knows_newClass {u v : Universe} {s : Option ModuleId} (h : newClass s u = .ok m v) :
    v.knows m := by
  have hborn (kind : ModuleKind) (chain : Chain) :
      (allocate kind chain u).2.knows (allocate kind chain u).1 := Nat.lt_succ_self u.nextId
  unfold newClass at h
  cases s with
  | none =>
    cases h
    exact hborn _ _
  | some p =>
    change (if _ then _ else if _ then _ else if _ then _ else _ : Update ModuleId) u = _ at h
    split at h
    · cases h
    · split at h
      · cases h
      · split at h
        · cases h
        · cases h
          exact hborn _ _

theorem goesBy_newClass {s : Option ModuleId} (hs : ∀ m, s = some m → w.model.knows m) :
    GoesBy (newClass s : Act σ ModuleId) w := by
  refine @goesBy_of_move _ _ _ _ (.newClass s) hs trivial id ?_
  rw [Act.model_final_lift, after, Move.run, Update.final_discard]

theorem goesBy_defineModule (hr : Loads require w) (hp : w.model.knows k) (name : String) :
    GoesBy (defineModule require k name) w := by
  refine goesBy_of_arises fun ha => ?_
  unfold defineModule
  refine goesBy_bind (goesBy_checkConstantName name w) fun _ w₁ _ hl => ?_
  refine goesBy_bind (goesBy_openedValue (hr.later hl) k name) fun y w₂ _ hl₂ => ?_
  have hp₂ := knows_mono ((hl.trans hl₂).nextId ha.reachable.wellFormed) hp
  cases y with
  | none =>
    refine goesBy_bindMade hp₂ ?_ (fun m w' hm => ?_) name fun m u => .definedModule (u.display m)
    · exact @goesBy_of_move _ _ _ _ .newModule trivial trivial id rfl
    · cases hm
      exact Nat.lt_succ_self w₂.model.nextId
  | some y =>
    cases y with
    | module m =>
      refine goesBy_congr (y := if (w₂.model.module m).isClass then _ else _) rfl ?_
      split <;> exact goesBy_of_same rfl
    | nil | bool | int | symbol | string | object => exact goesBy_of_same rfl

theorem goesBy_defineClass (hr : Loads require w) (hp : w.model.knows k) (name : String)
    {s : Option ModuleId} (hs : ∀ m, s = some m → w.model.knows m) :
    GoesBy (defineClass require k name s) w := by
  refine goesBy_of_arises fun ha => ?_
  unfold defineClass
  refine goesBy_bind (goesBy_checkConstantName name w) fun _ w₁ _ hl => ?_
  refine goesBy_bind (goesBy_openedValue (hr.later hl) k name) fun y w₂ _ hl₂ => ?_
  have hlater (m : ModuleId) (hm : w.model.knows m) : w₂.model.knows m :=
    knows_mono ((hl.trans hl₂).nextId ha.reachable.wellFormed) hm
  cases y with
  | none =>
    refine goesBy_bindMade (hlater k hp) (goesBy_newClass fun m hm => hlater m (hs m hm))
      (fun m w' hm => ?_) name fun m u => .definedClass (u.display m)
    cases hmade : newClass s w₂.model with
    | ok m' u =>
      cases (Act.lift_of_ok hmade).symm.trans hm
      exact knows_newClass hmade
    | error e u => cases (Act.lift_of_error hmade).symm.trans hm
  | some y =>
    cases y with
    | module m =>
      refine goesBy_bind (goesBy_of_same rfl) fun u w₃ _ _ => ?_
      dsimp only
      split
      · exact goesBy_of_same rfl
      · split <;> exact goesBy_of_same rfl
    | nil | bool | int | symbol | string | object => exact goesBy_of_same rfl

/-! ### Requests -/

/-- What code may ask a universe for that may run the loader, by what is answered. -/
inductive Request : Type → Type
  /-- What a path leads to from a module. -/
  | find (m : ModuleId) (text : String) (inherit : Bool) : Request ConstantResult
  /-- The value of a path from a module. -/
  | get (m : ModuleId) (text : String) (inherit : Bool) : Request Value
  /-- Whether a path names a defined constant. -/
  | defined (m : ModuleId) (text : String) (inherit : Bool) : Request Bool
  /-- The value of a public constant through a module. -/
  | qualified (m : ModuleId) (name : String) : Request Value
  /-- The value of an unqualified constant in a scope. -/
  | lexical (s : LexicalScope) (name : String) : Request Value
  /-- The value of a binding that was found at some time. -/
  | binding (m : ModuleId) (c : Constant) : Request (Option Value)
  | openModule (parent : ModuleId) (name : String) : Request ModuleId
  | openClass (parent : ModuleId) (name : String) (superclass : Option ModuleId) : Request ModuleId

namespace Request

/-- What is done for a request. -/
def run (require : String → Act σ Bool) : Request α → Act σ α
  | find m text inherit => lookupScoped require m text inherit
  | get m text inherit => constGet require m text inherit
  | defined m text inherit => constDefined require m text inherit
  | qualified m name => scopedConstantGet require m name
  | lexical s name => lexicalConstantGet require s name
  | binding m c => constantValue require m c
  | openModule parent name => defineModule require parent name
  | openClass parent name superclass => defineClass require parent name superclass

/-- What a request is about exists. -/
def Known (u : Universe) : Request α → Prop
  | find _ _ _ | get _ _ _ | defined _ _ _ | qualified _ _ | lexical _ _ => True
  | binding _ c => u.Issued c
  | openModule parent _ => u.knows parent
  | openClass parent _ superclass =>
    u.knows parent ∧ ∀ m, superclass = some m → u.knows m

/-- A request goes by steps if the loader does. -/
theorem goesBy (hr : Loads require w) {q : Request α} (hq : q.Known w.model) :
    GoesBy (q.run require) w := by
  cases q with
  | find m text inherit => exact goesBy_walkScoped hr _ _ _ _ _
  | get m text inherit => exact goesBy_constGet hr m text inherit
  | defined m text inherit =>
    exact goesBy_bind (goesBy_walkScoped hr _ _ _ _ _) fun _ _ _ _ => goesBy_of_same rfl
  | qualified m name => exact goesBy_scopedConstantGet hr m name
  | lexical s name => exact goesBy_lexicalConstantGet hr s name
  | binding m c => exact goesBy_constantValue hr m hq
  | openModule parent name => exact goesBy_defineModule hr hq name
  | openClass parent name superclass => exact goesBy_defineClass hr hq.1 name hq.2

end Request

/-! ### Code -/

/-- Code that works on a universe through its operations, when it is run in a world: moves, alone
or together with computations and failures of its own, requests, guards that it holds for a while,
other threads that it waits for, and changes of what the host keeps.  The loader is code of this
kind wherever it may be run. -/
inductive Operates : {α : Type} → Act σ α → World σ → Prop
  | moves {α : Type} {x : Act σ α} {w : World σ} (mvs : List Move)
    (genuine : w.model.AllGenuine mvs) (free : ∀ mv ∈ mvs, ¬mv.Marks)
    (done : (x.final w).model = w.model.afterAll mvs) : Operates x w
  | bind {α β : Type} {x : Act σ α} {f : α → Act σ β} {w : World σ} (hx : Operates x w)
    (hf : ∀ a w', x w = .ok a w' → Operates (f a) w') : Operates (x >>= f) w
  | recover {α : Type} {x : Act σ α} {f : Failure → Act σ α} {w : World σ} (hx : Operates x w)
    (hf : ∀ e w', x w = .error e w' → Operates (f e) w') : Operates (tryCatch x f) w
  | onThread {α : Type} {x : Act σ α} {w : World σ} (t : ThreadId)
    (hx : Operates x { w with thread := t }) : Operates (Act.onThread t x) w
  | ensuring {α : Type} {x : Act σ α} {w : World σ} (last : World σ → World σ)
    (same : ∀ w', (last w').model = w'.model) (hx : Operates x w) :
    Operates (Act.ensuring x last) w
  | guarded {α : Type} {x : Act σ α} {w : World σ} {a : AutoloadId}
    (issued : a.num < w.model.nextSerial) (idle : (w.model.autoload a).isLoading = false)
    (hx : Operates x (markAutoload a (some w.thread) w)) : Operates (guardAutoload a x) w
  | ask {α : Type} {w : World σ} (require : String → Act σ Bool) (q : Request α)
    (known : q.Known w.model)
    (loader : ∀ feature w', Leads w.model w'.model → Operates (require feature) w') :
    Operates (q.run require) w

theorem goesBy_recover {x : Act σ α} {f : Failure → Act σ α} (hx : GoesBy x w)
    (hf : ∀ e w', x w = .error e w' → GoesBy (f e) w') : GoesBy (tryCatch x f) w := by
  intro active h
  cases hrun : x w with
  | ok a w₁ =>
    rw [Act.final, Act.tryCatch_of_ok hrun]
    exact hx.steps_of_ok h hrun
  | error e w₁ =>
    have hfirst := hx.steps_of_error h hrun
    rw [Act.final, Act.tryCatch_of_error hrun]
    exact hfirst.trans (hf e w₁ hrun active (h.steps hfirst))

theorem steps_afterAll {u : Universe} {mvs : List Move} (hg : u.AllGenuine mvs)
    (hm : ∀ mv ∈ mvs, ¬mv.Marks) (active : List (AutoloadId × ThreadId)) :
    Steps ⟨u, active⟩ ⟨u.afterAll mvs, active⟩ := by
  induction mvs generalizing u with
  | nil => exact .refl
  | cons mv mvs ih =>
    have hstep : Step ⟨u, active⟩ ⟨u.after mv, active⟩ :=
      .move hg.1 hg.2.1 (hm mv List.mem_cons_self)
    exact .head hstep (ih hg.2.2 fun mv' hmv => hm mv' (List.mem_cons_of_mem mv hmv))

/-- Code that works on a universe through its operations goes by steps, and has ended all work on
autoloads when it ends, whatever ends it. -/
theorem Operates.goesBy {x : Act σ α} (h : Operates x w) : GoesBy x w := by
  -- loads nest, and the induction goes through the loaders of requests
  induction h with
  | moves mvs genuine free done =>
    intro active _
    rw [done]
    exact steps_afterAll genuine free active
  | bind hx hf ihx ihf => exact goesBy_bind ihx fun a w' ha _ => ihf a w' ha
  | recover hx hf ihx ihf => exact goesBy_recover ihx ihf
  | @onThread α x w t hx ih =>
    have hfinal : ((Act.onThread t x).final w).model = (x.final { w with thread := t }).model := by
      rw [Act.final, Act.onThread, Act.ensuring, Act.final]
      cases x { w with thread := t } <;> rfl
    intro active hd
    rw [hfinal]
    exact ih active hd
  | @ensuring α x w last same hx ih =>
    have hfinal : ((Act.ensuring x last).final w).model = (x.final w).model := by
      rw [Act.final, Act.ensuring, Act.final]
      cases x w <;> exact same _
    intro active hd
    rw [hfinal]
    exact ih active hd
  | guarded issued idle hx ih => exact goesBy_guardAutoload issued idle ih
  | ask require q known loader ih => exact Request.goesBy ih known

end ObjectModel
