import ObjectModel.Proofs.Requests
import ObjectModel.Proofs.Rereading

/-!
# Where the loader is entered

A request resolves the constants that it comes upon one after the other: those that the segments of
a path lead to, and the one that is read or opened in the end.  If one waits for a feature that no
thread is loading, the loader is entered for it.

* `PassesThrough`, `Request.Resolves`: the constants that a request resolves, in which module, and
  where in its run;
* `Request.run_of_resolves`: a request fails as its resolving does;
* `Request.steps_of_resolves`: until then it goes by steps;
* `ComesTo`: the points that code comes to, and the autoloads that it works on there;
* `ComesTo.steps`: it comes to them by steps.
-/

namespace ObjectModel

open Universe Marking

variable {σ α β : Type} {w w' w₁ w₂ p : World σ} {require : String → Act σ Bool}
  {m n k : ModuleId} {name : String} {c : Constant} {a : AutoloadId} {f : Failure}
  {active l : List (AutoloadId × ThreadId)}

/-! ### What requests resolve -/

/-- While a path is looked up from a module in `w`, the binding of a segment before the last is
resolved in the module `n`, in the world `w₁`. -/
def PassesThrough (require : String → Act σ Bool) (inherit : Bool) (c : Constant) (n : ModuleId)
    (w₁ : World σ) : ModuleId → List String → World σ → Prop
  | m, segment :: last :: rest, w =>
    ∃ r d, (lookupSegment m segment inherit : Act σ ConstantResult) w = .ok r w ∧
      r.constant = some d ∧
      (d = c ∧ n = w.holder m c ∧ w₁ = noting m c w ∨ ∃ next w', constantValue require m d w =
        .ok (some (.module next)) w' ∧ PassesThrough require inherit c n w₁ next (last :: rest) w')
  | _, _, _ => False

theorem walkScoped_of_passesThrough {text : String} {inherit : Bool} {passed : Nat}
    {segments : List String} (h : PassesThrough require inherit c n w₁ m segments w)
    (hc : c.isAutoload = true) (hf : resolveAutoload require n c.name c w₁ = .error f w₂) :
    walkScoped require text inherit passed m segments w = .error f w₂ := by
  induction segments generalizing passed m w with
  | nil => exact absurd h id
  | cons segment rest ih =>
    cases rest with
    | nil => exact absurd h id
    | cons last rest =>
      obtain ⟨r, d, hlookup, hd, hcase⟩ := h
      unfold walkScoped
      rw [Act.bind_of_ok hlookup, hd]
      rcases hcase with ⟨rfl, rfl, rfl⟩ | ⟨next, w', hvalue, hrest⟩
      · refine Act.bind_of_error ?_
        rw [constantValue_eq, if_pos hc]
        exact Act.bind_of_error hf
      · exact (Act.bind_of_ok hvalue).trans (ih hrest)

/-- What is resolved on the way along a path was found there. -/
theorem steps_of_passesThrough {inherit : Bool} {segments : List String} (hr : Loads require w)
    (hd : Disciplined ⟨w.model, active⟩) (h : PassesThrough require inherit c n w₁ m segments w) :
    Steps ⟨w.model, active⟩ ⟨w₁.model, active⟩ ∧ w₁.model.Issued c := by
  induction segments generalizing m w with
  | nil => exact absurd h id
  | cons segment rest ih =>
    cases rest with
    | nil => exact absurd h id
    | cons last rest =>
      obtain ⟨r, d, hlookup, hfound, hcase⟩ := h
      have hstored := (lookupSegment_ok hlookup).2 d hfound
      rcases hcase with ⟨rfl, -, rfl⟩ | ⟨next, w', hvalue, hrest⟩
      · exact ⟨steps_noting m d w active,
          (hstored.issued hd.arises).of_reported (reported_noting m d w).model⟩
      · have hfirst := (goesBy_stored hr m hstored).steps_of_ok hd hvalue
        obtain ⟨hlast, hissued⟩ := ih (hr.later hfirst.leads) (hd.steps hfirst) hrest
        exact ⟨hfirst.trans hlast, hissued⟩

namespace Request

/-- A request that is made in `w` resolves a constant in the module `n`, in the world `w₁`. -/
def Resolves (require : String → Act σ Bool) (c : Constant) (n : ModuleId) (w₁ : World σ)
    (w : World σ) : Request α → Prop
  | find m text inherit | defined m text inherit =>
    PassesThrough require inherit c n w₁ (pathStart m text) (ConstantPath.parse text).segments w
  | get m text inherit =>
    PassesThrough require inherit c n w₁ (pathStart m text) (ConstantPath.parse text).segments w ∨
      ∃ r w', lookupScoped require m text inherit w = .ok r w' ∧ r.constant = some c ∧
        n = w'.holder m c ∧ w₁ = noting m c w'
  | qualified m name => ∃ r, (lookupSegment m name true : Act σ ConstantResult) w = .ok r w ∧
    r.constant = some c ∧ c.isPrivate = false ∧ n = w.holder m c ∧ w₁ = noting m c w
  | lexical s name => Name.isConstantName name = true ∧
    (w.model.lookupConstantLexical w.thread s name).constant = some c ∧ n = w.holder s.live c ∧
      w₁ = noting s.live c w
  | binding m d => d = c ∧ n = w.holder m c ∧ w₁ = noting m c w
  | openModule parent name | openClass parent name _ => Name.isConstantName name = true ∧
    w.model.openedConstant parent name = some c ∧ n = w.holder parent c ∧ w₁ = w

/-- A request that is made in `w` enters the loader for a constant. -/
def EntersFor (require : String → Act σ Bool) (c : Constant) (w : World σ) (q : Request α) : Prop :=
  ∃ n w₁, q.Resolves require c n w₁ w ∧ w₁.model.Enters c

theorem openedValue_of_error (hs : w.model.Sourced)
    (hc : w.model.openedConstant k name = some c) (hp : c.isAutoload = true)
    (hf : resolveAutoload require (w.holder k c) c.name c w = .error f w₂) :
    openedValue require k name w = .error f w₂ := by
  obtain ⟨j, hown⟩ := exists_of_opened hc
  rw [(hs j name c hown).same] at hf
  have hrun : openedValue require k name w = (do
      return (← resolveAutoload require (w.holder k c) name c).bind Constant.value? :
        Act σ (Option Value)) w := by
    unfold openedValue
    refine (Act.bind_of_ok (show (Act.model : Act σ Universe) w = .ok w.model w from rfl)).trans ?_
    rw [hc]
    exact congrFun (if_pos hp) w
  exact hrun.trans (Act.bind_of_error hf)

theorem checkConstantName_ok (hname : Name.isConstantName name = true) (w : World σ) :
    (checkConstantName name : Act σ Unit) w = .ok () w := by
  rw [checkConstantName, if_pos hname]
  rfl

/-- What ends the resolving ends the request. -/
theorem run_of_resolves {q : Request α} (hs : w.model.Sourced) (h : q.Resolves require c n w₁ w)
    (hc : c.isAutoload = true) (hf : resolveAutoload require n c.name c w₁ = .error f w₂) :
    q.run require w = .error f w₂ := by
  have hvalue (m : ModuleId) (w : World σ) (hw : n = w.holder m c ∧ w₁ = noting m c w) :
      constantValue require m c w = .error f w₂ := by
    rw [constantValue_eq, if_pos hc, ← hw.1, ← hw.2]
    exact Act.bind_of_error hf
  cases q with
  | find m text inherit => exact walkScoped_of_passesThrough h hc hf
  | defined m text inherit => exact Act.bind_of_error (walkScoped_of_passesThrough h hc hf)
  | get m text inherit =>
    rcases h with h | ⟨r, w', hlookup, hr, hw⟩
    · exact Act.bind_of_error (walkScoped_of_passesThrough h hc hf)
    · refine (Act.bind_of_ok hlookup).trans (Act.bind_of_error ?_)
      rw [resultValue, hr]
      exact hvalue m w' hw
  | qualified m name =>
    obtain ⟨r, hlookup, hr, hpublic, hw⟩ := h
    refine (ConstantRead.scopedConstantGet_of_public require hlookup ?_).trans
      (Act.bind_of_error ?_)
    · rw [hr]
      exact hpublic
    · rw [resultValue, hr]
      exact hvalue m w hw
  | lexical s name =>
    obtain ⟨hname, hr, hw⟩ := h
    refine (congrFun (ConstantRead.lexicalConstantGet_eq require s hname) w).trans
      (Act.bind_of_error ?_)
    show resultValue require s.live (w.model.lookupConstantLexical w.thread s name) w = _
    rw [resultValue, hr]
    exact hvalue s.live w hw
  | binding m d =>
    obtain ⟨rfl, hw⟩ := h
    exact hvalue m w hw
  | openModule parent name | openClass parent name superclass =>
    obtain ⟨hname, hopened, rfl, rfl⟩ := h
    exact (Act.bind_of_ok (checkConstantName_ok hname _)).trans
      (Act.bind_of_error (openedValue_of_error hs hopened hc hf))

/-- Until it resolves a constant, a request goes by steps. -/
theorem steps_of_resolves {q : Request α} (hr : Loads require w)
    (hd : Disciplined ⟨w.model, active⟩) (hq : q.Known w.model)
    (h : q.Resolves require c n w₁ w) :
    Steps ⟨w.model, active⟩ ⟨w₁.model, active⟩ ∧ w₁.model.Issued c := by
  have hnoted (m : ModuleId) {w' : World σ} (hsteps : Steps ⟨w.model, active⟩ ⟨w'.model, active⟩)
      (hc : w'.model.Issued c) (hw : w₁ = noting m c w') :
      Steps ⟨w.model, active⟩ ⟨w₁.model, active⟩ ∧ w₁.model.Issued c := by
    subst hw
    exact ⟨hsteps.trans (steps_noting m c w' active),
      hc.of_reported (reported_noting m c w').model⟩
  cases q with
  | find m text inherit | defined m text inherit => exact steps_of_passesThrough hr hd h
  | get m text inherit =>
    rcases h with h | ⟨r, w', hlookup, hfound, -, hw⟩
    · exact steps_of_passesThrough hr hd h
    · have hsteps := (goesBy_walkScoped hr _ _ _ _ _).steps_of_ok hd hlookup
      have hstored := stored_of_walkScoped hlookup hfound
      exact hnoted m hsteps (hstored.issued (hd.steps hsteps).arises) hw
  | qualified m name =>
    obtain ⟨r, hlookup, hfound, -, -, hw⟩ := h
    exact hnoted m .refl (((lookupSegment_ok hlookup).2 c hfound).issued hd.arises) hw
  | lexical s name =>
    obtain ⟨-, hfound, -, hw⟩ := h
    exact hnoted s.live .refl ((stored_of_search hfound).issued hd.arises) hw
  | binding m d =>
    obtain ⟨rfl, -, hw⟩ := h
    exact hnoted m .refl hq hw
  | openModule parent name | openClass parent name superclass =>
    obtain ⟨-, hopened, -, rfl⟩ := h
    exact ⟨.refl, (stored_of_opened hopened).issued hd.arises⟩

/-- Where a request enters the loader, the loader is at work on the autoload. -/
theorem steps_of_enters {q : Request α} (hr : Loads require w)
    (hd : Disciplined ⟨w.model, active⟩) (hq : q.Known w.model)
    (h : q.Resolves require c n w₁ w) (he : w₁.model.Enters c) (ha : c.autoload? = some a) :
    Steps ⟨w.model, active⟩
      ⟨(entering n c.name a w₁).model, (a, w₁.thread) :: active⟩ := by
  obtain ⟨hsteps, hissued⟩ := steps_of_resolves hr hd hq h
  obtain ⟨-, a', ha', hidle⟩ := he
  cases ha.symm.trans ha'
  exact hsteps.trans (steps_entering n c.name (hissued.registered a ha) hidle active)

end Request

/-! ### Requests that enter no loader -/

/-- Where reading a constant does not enter the loader, it does not matter. -/
theorem constantValue_congr (require' : String → Act σ Bool)
    (h : ¬(noting m c w).model.Enters c) :
    constantValue require m c w = constantValue require' m c w := by
  rw [constantValue_eq, constantValue_eq]
  split
  · exact Act.bind_congr (resolveAutoload_congr _ _ _ _ h) fun _ _ _ => rfl
  · rfl

theorem walkScoped_congr (require' : String → Act σ Bool) {text : String}
    {inherit : Bool} {passed : Nat} {segments : List String}
    (h : ∀ c n w₁, PassesThrough require inherit c n w₁ m segments w → ¬w₁.model.Enters c) :
    walkScoped require text inherit passed m segments w =
      walkScoped require' text inherit passed m segments w := by
  induction segments generalizing passed m w with
  | nil => rfl
  | cons segment rest ih =>
    cases rest with
    | nil => rfl
    | cons last rest =>
      unfold walkScoped
      refine Act.bind_congr rfl fun found w' hfound => ?_
      obtain ⟨rfl, -⟩ := lookupSegment_ok hfound
      cases hd : found.constant with
      | none => rfl
      | some d =>
        refine Act.bind_congr (constantValue_congr require'
          (h d _ _ ⟨found, d, hfound, hd, .inl ⟨rfl, rfl, rfl⟩⟩)) fun y w₂ hvalue => ?_
        cases y with
        | none => rfl
        | some y =>
          cases y with
          | module next =>
            refine ih fun c n w₁ hrest => ?_
            exact h c n w₁ ⟨found, d, hfound, hd, .inr ⟨next, w₂, hvalue, hrest⟩⟩
          | nil | bool | int | symbol | string | object => rfl

theorem openedValue_congr (require' : String → Act σ Bool)
    (h : ∀ c, w.model.openedConstant k name = some c → ¬w.model.Enters c) :
    openedValue require k name w = openedValue require' k name w := by
  unfold openedValue
  refine Act.bind_congr rfl fun u w' hu => ?_
  cases hu
  cases hc : w.model.openedConstant k name with
  | none => rfl
  | some c =>
    dsimp only
    split
    · refine Act.bind_congr rfl fun x w' hx => ?_
      cases hx
      exact Act.bind_congr (resolveAutoload_congr _ _ _ _ (h c hc)) fun _ _ _ => rfl
    · rfl

/-- A request that enters the loader for no constant does what it does with any other loader. -/
theorem Request.run_congr {q : Request α} (h : ∀ c, ¬q.EntersFor require c w)
    (require' : String → Act σ Bool) : q.run require w = q.run require' w := by
  -- up to each constant that is resolved, both runs come to the same world
  have hno {c : Constant} {n : ModuleId} {w₁ : World σ} (hc : q.Resolves require c n w₁ w) :
      ¬w₁.model.Enters c := fun he => h c ⟨n, w₁, hc, he⟩
  have hresult (m : ModuleId) {r : ConstantResult} {w' : World σ}
      (hr : ∀ c, r.constant = some c → ¬(noting m c w').model.Enters c) :
      resultValue require m r w' = resultValue require' m r w' := by
    unfold resultValue
    cases hc : r.constant with
    | none => rfl
    | some c => exact constantValue_congr require' (hr c hc)
  cases q with
  | find m text inherit => exact walkScoped_congr require' fun c n w₁ => hno
  | defined m text inherit =>
    exact Act.bind_congr (walkScoped_congr require' fun c n w₁ => hno) fun _ _ _ => rfl
  | get m text inherit =>
    refine Act.bind_congr (walkScoped_congr require' fun c n w₁ hc => hno (.inl hc))
      fun r w' hlookup => Act.bind_congr (hresult m fun c hc => ?_) fun _ _ _ => rfl
    exact hno (.inr ⟨r, w', hlookup, hc, rfl, rfl⟩)
  | qualified m name =>
    refine Act.bind_congr rfl fun r w' hlookup => ?_
    obtain ⟨rfl, -⟩ := lookupSegment_ok hlookup
    refine Act.bind_congr rfl fun u w₂ hu => ?_
    cases hu
    cases hc : r.constant with
    | none => rfl
    | some c =>
      dsimp only
      split
      · rfl
      · next hpublic =>
        refine Act.bind_congr (constantValue_congr require' ?_) fun _ _ _ => rfl
        exact hno ⟨r, hlookup, hc, eq_false_of_ne_true hpublic, rfl, rfl⟩
  | lexical s name =>
    cases hname : Name.isConstantName name with
    | true =>
      show lexicalConstantGet _ _ _ _ = lexicalConstantGet _ _ _ _
      rw [ConstantRead.lexicalConstantGet_eq require s hname,
        ConstantRead.lexicalConstantGet_eq require' s hname]
      exact Act.bind_congr (hresult s.live fun c hc => hno ⟨hname, hc, rfl, rfl⟩) fun _ _ _ => rfl
    | false =>
      show lexicalConstantGet _ _ _ _ = lexicalConstantGet _ _ _ _
      rw [lexicalConstantGet, lexicalConstantGet, hname]
      rfl
  | binding m c => exact constantValue_congr require' (hno ⟨rfl, rfl, rfl⟩)
  | openModule parent name | openClass parent name superclass =>
    cases hname : Name.isConstantName name with
    | true =>
      refine Act.bind_congr rfl fun _ w' hw' => ?_
      cases (checkConstantName_ok hname w).symm.trans hw'
      exact Act.bind_congr (openedValue_congr require' fun c hc =>
        hno ⟨hname, hc, rfl, rfl⟩) fun _ _ _ => rfl
    | false =>
      refine Act.bind_congr rfl fun _ w' hw' => ?_
      rw [checkConstantName, hname] at hw'
      cases hw'

/-! ### Points of a run -/

/-- Code that is run in `w` comes to a point, where it works on these autoloads: it runs the loader
for them or holds guards for them. -/
inductive ComesTo : {α : Type} → Act σ α → World σ → World σ → List (AutoloadId × ThreadId) → Prop
  | start {α : Type} (x : Act σ α) (w : World σ) : ComesTo x w w []
  | moved {α : Type} {x : Act σ α} {w p : World σ} (mvs rest : List Move)
    (genuine : w.model.AllGenuine (mvs ++ rest)) (free : ∀ mv ∈ mvs ++ rest, ¬mv.Marks)
    (done : (x.final w).model = w.model.afterAll (mvs ++ rest))
    (here : p.model = w.model.afterAll mvs) : ComesTo x w p []
  | done {α : Type} {x : Act σ α} {w : World σ} (hx : Operates x w) : ComesTo x w (x.final w) []
  | first {α β : Type} {x : Act σ α} {f : α → Act σ β} {w p : World σ}
    {l : List (AutoloadId × ThreadId)} (h : ComesTo x w p l) : ComesTo (x >>= f) w p l
  | later {α β : Type} {x : Act σ α} {f : α → Act σ β} {y : α} {w w' p : World σ}
    {l : List (AutoloadId × ThreadId)} (hx : Operates x w) (hrun : x w = .ok y w')
    (h : ComesTo (f y) w' p l) : ComesTo (x >>= f) w p l
  | tried {α : Type} {x : Act σ α} {f : Failure → Act σ α} {w p : World σ}
    {l : List (AutoloadId × ThreadId)} (h : ComesTo x w p l) : ComesTo (tryCatch x f) w p l
  | recovered {α : Type} {x : Act σ α} {f : Failure → Act σ α} {e : Failure} {w w' p : World σ}
    {l : List (AutoloadId × ThreadId)} (hx : Operates x w) (hrun : x w = .error e w')
    (h : ComesTo (f e) w' p l) : ComesTo (tryCatch x f) w p l
  | onThread {α : Type} {x : Act σ α} {w p : World σ} {l : List (AutoloadId × ThreadId)}
    (t : ThreadId) (h : ComesTo x { w with thread := t } p l) : ComesTo (Act.onThread t x) w p l
  | ensuring {α : Type} {x : Act σ α} {w p : World σ} {l : List (AutoloadId × ThreadId)}
    (last : World σ → World σ) (h : ComesTo x w p l) : ComesTo (Act.ensuring x last) w p l
  | guarded {α : Type} {x : Act σ α} {w p : World σ} {a : AutoloadId}
    {l : List (AutoloadId × ThreadId)} (issued : a.num < w.model.nextSerial)
    (idle : (w.model.autoload a).isLoading = false)
    (h : ComesTo x (markAutoload a (some w.thread) w) p l) :
    ComesTo (guardAutoload a x) w p (l ++ [(a, w.thread)])
  | loading {α : Type} {require : String → Act σ Bool} {q : Request α} {c : Constant}
    {n : ModuleId} {a : AutoloadId} {w w₁ p : World σ} {l : List (AutoloadId × ThreadId)}
    (known : q.Known w.model)
    (loader : ∀ feature w', Leads w.model w'.model → Operates (require feature) w')
    (resolves : q.Resolves require c n w₁ w) (enters : w₁.model.Enters c)
    (waits : c.autoload? = some a)
    (h : ComesTo (require (w₁.model.autoload a).feature) (entering n c.name a w₁) p l) :
    ComesTo (q.run require) w p (l ++ [(a, w₁.thread)])

theorem Loads.of_operates
    (h : ∀ feature w', Leads w.model w'.model → Operates (require feature) w') :
    Loads require w :=
  fun feature w' hl => (h feature w' hl).goesBy

/-- Code comes to the points of its run by steps. -/
theorem ComesTo.steps {x : Act σ α} (h : ComesTo x w p l) (hd : Disciplined ⟨w.model, active⟩) :
    Steps ⟨w.model, active⟩ ⟨p.model, l ++ active⟩ := by
  -- inside a load or a guard, the work around it counts as active
  induction h generalizing active with
  | start => exact .refl
  | moved mvs rest genuine free done here =>
    rw [here]
    exact steps_afterAll ((allGenuine_append _ mvs rest).1 genuine).1
      (fun mv hmv => free mv (List.mem_append_left rest hmv)) active
  | done hx => exact hx.goesBy active hd
  | first _ ih | tried _ ih => exact ih hd
  | later hx hrun _ ih =>
    have hfirst := hx.goesBy.steps_of_ok hd hrun
    exact hfirst.trans (ih (hd.steps hfirst))
  | recovered hx hrun _ ih =>
    have hfirst := hx.goesBy.steps_of_error hd hrun
    exact hfirst.trans (ih (hd.steps hfirst))
  | onThread _ _ ih | ensuring _ _ ih => exact ih hd
  | @guarded _ _ w p a l issued idle _ ih =>
    have hstart : Step ⟨w.model, active⟩
        ⟨w.model.after (.markAutoload a (some w.thread)), (a, w.thread) :: active⟩ :=
      .start w.thread issued idle
    rw [List.append_assoc]
    exact .head hstart (ih (hd.step hstart))
  | loading known loader resolves enters waits _ ih =>
    have hentered := Request.steps_of_enters (.of_operates loader) hd known resolves enters waits
    rw [List.append_assoc]
    exact hentered.trans (ih (hd.steps hentered))

end ObjectModel
