import ObjectModel.Proofs.Birth
import ObjectModel.Proofs.Resolving

/-!
# Loading a constant while it is being loaded

A thread that runs the loader for a constant marks its autoload, so that it does not run the loader
for that constant again.  The mark belongs to the registration.  A feature that is registered for
the constant in the meantime brings a mark of its own, and copies of modules keep the marks of
earlier registrations.

* `Consults`, `consults_iff`: constants that resolving runs the loader for;
* `thread_after`, `SharesAutoloads`: what moves do to autoloads, and that the copies of a constant
  wait for the same registration;
* `Guard`, `Loading`, `Turn`, `Loading.perform`: a universe with the marks that are set, and what
  may happen;
* `Loading.Renews`, `Loading.Reenters`: registrations for a constant that is being loaded or was
  copied, and threads that run the loader for a constant again;
* `Loading.Tidy`, `Loading.Guarded`: what every turn keeps, and what every turn keeps that is no
  such registration;
* `Loading.becomes_resolveAutoload`: resolving a constant goes by turns, if the loader does;
* `Loading.neverReenters_iff_not_renewed`: in a history no thread can run the loader for a constant
  again exactly as long as there is no such registration;
* `Loading.reenters_after_registration`: a history with one.
-/

namespace ObjectModel

variable {u v : Universe} {k m n : ModuleId} {name : String} {c : Constant} {a : AutoloadId}
  {t : ThreadId} {mv : Move}

/-- Whether a move sets or drops a mark of an autoload. -/
def Move.Marks : Move → Prop
  | markAutoload _ _ => True
  | _ => False

/-- A constant in the table of `k` is one of `m`: it was found there, or is declared there. -/
def Constant.IsOf (c : Constant) (k m : ModuleId) : Prop := k = m ∨ c.declaringModule = m

namespace Universe

/-! ### Consulting the loader -/

/-- What the loader is makes a difference to resolving a constant on a thread, in some module. -/
def Consults (u : Universe) (t : ThreadId) (c : Constant) : Prop :=
  ∃ (n : ModuleId) (require require' : String → Act Unit Bool),
    resolveAutoload require n c.name c ⟨u, t, (), []⟩ ≠
      resolveAutoload require' n c.name c ⟨u, t, (), []⟩

theorem consults_iff : u.Consults t c ↔ u.Enters c := by
  constructor
  · rintro ⟨n, require, require', hne⟩
    exact Classical.byContradiction fun hno =>
      hne (resolveAutoload_congr require require' n c.name hno)
  · rintro ⟨hl, a, ha, hidle⟩
    have hfails (why : Abort) : ∃ w, resolveAutoload (fun _ => Act.abort why) c.declaringModule
        c.name c ⟨u, t, (), []⟩ = .error (.aborted why) w := by
      rw [resolveAutoload_of_idle _ _ _ ha hidle, if_pos hl, loadFeature_apply]
      exact ⟨_, rfl⟩
    obtain ⟨w, hw⟩ := hfails .noUniverse
    obtain ⟨w', hw'⟩ := hfails .tooDeep
    refine ⟨c.declaringModule, fun _ => Act.abort .noUniverse, fun _ => Act.abort .tooDeep,
      fun hsame => ?_⟩
    cases hw.symm.trans (hsame.trans hw')

/-- The constant that the table of a module binds to a feature that no thread is loading, and its
autoload. -/
def idle? (u : Universe) (k : ModuleId) (name : String) : Option (Constant × AutoloadId) :=
  (u.ownConstant k name).bind fun c =>
    (c.autoload?.filter fun a => !(u.autoload a).isLoading).map fun a => (c, a)

theorem idle?_eq_some : u.idle? k name = some (c, a) ↔
    u.ownConstant k name = some c ∧ c.autoload? = some a ∧ (u.autoload a).isLoading = false := by
  simp only [idle?, Option.bind_eq_some_iff, Option.map_eq_some_iff, Option.filter_eq_some_iff,
    Bool.not_eq_true']
  constructor
  · rintro ⟨c', hc, b, ⟨ha, hidle⟩, he⟩
    cases he
    exact ⟨hc, ha, hidle⟩
  · rintro ⟨hc, ha, hidle⟩
    exact ⟨c, hc, a, ⟨ha, hidle⟩, rfl⟩

/-- Another module than `m` holds a copy of a constant of `m` that waits for a feature. -/
def CopiedFrom (u : Universe) (m : ModuleId) (name : String) : Prop :=
  ∃ k c, k ≠ m ∧ u.ownConstant k name = some c ∧ c.isAutoload = true ∧ c.declaringModule = m

theorem copiedFrom_iff : u.CopiedFrom m name ↔ ∃ e ∈ u.modules.entries, e.1 ≠ m ∧
    (e.2.constants.find? name).any fun c => c.isAutoload && c.declaringModule == m := by
  constructor
  · rintro ⟨k, c, hne, hc, hp, hd⟩
    rw [ownConstant, module] at hc
    cases hr : u.modules.find? k with
    | none =>
      rw [hr] at hc
      cases hc
    | some r =>
      rw [hr, Option.getD_some] at hc
      exact ⟨(k, r), Table.mem_entries_iff.2 hr, hne, by simp [hc, hp, hd]⟩
  · rintro ⟨⟨k, r⟩, hr, hne, hany⟩
    obtain ⟨c, hc, hboth⟩ := (Option.any_eq_true _ _).1 hany
    obtain ⟨hp, hd⟩ := Bool.and_eq_true_iff.1 hboth
    refine ⟨k, c, hne, ?_, hp, beq_iff_eq.1 hd⟩
    rw [ownConstant, module, Table.mem_entries_iff.1 hr, Option.getD_some]
    exact hc

instance (u : Universe) (m : ModuleId) (name : String) : Decidable (u.CopiedFrom m name) :=
  decidable_of_iff _ copiedFrom_iff.symm

/-! ### What moves do to autoloads -/

theorem autoload_after_markAutoload (u : Universe) (a : AutoloadId) (t : Option ThreadId)
    (b : AutoloadId) : (u.after (.markAutoload a t)).autoload b =
      if a = b then { u.autoload a with thread := t } else u.autoload b :=
  autoload_setAutoload u a b _

/-- Apart from marking, a move leaves the autoloads alone; the one that it may make has no mark. -/
theorem autoload_after (hk : mv.Known u) (hm : ¬mv.Marks) (a : AutoloadId) :
    (u.after mv).autoload a = u.autoload a ∨
      a = ⟨u.nextSerial⟩ ∧ ((u.after mv).autoload a).thread = none := by
  have hsame (h : mv.autoloads u = u.autoloads) : (u.after mv).autoload a = u.autoload a := by
    rw [autoload, (stores_after hk).autoloads, h, autoload]
  cases mv with
  | markAutoload b t => exact absurd trivial hm
  | registerAutoload n other feature =>
    by_cases hp : ((Move.registerAutoload n other feature).pending? u).isSome
    · have hmade : (u.after (.registerAutoload n other feature)).autoload a =
          if ⟨u.nextSerial⟩ = a then { feature } else u.autoload a := by
        rw [autoload, (stores_after hk).autoloads, Move.autoloads, if_pos hp]
        exact autoload_setAutoload u ⟨u.nextSerial⟩ a { feature }
      rw [hmade]
      split
      · next he => exact .inr ⟨he.symm, rfl⟩
      · exact .inl rfl
    · exact .inl (hsame (if_neg hp))
  | _ => exact .inl (hsame rfl)

theorem thread_after (hk : mv.Known u) (hm : ¬mv.Marks) (a : AutoloadId) :
    ((u.after mv).autoload a).thread = (u.autoload a).thread ∨
      a = ⟨u.nextSerial⟩ ∧ ((u.after mv).autoload a).thread = none :=
  (autoload_after hk hm a).imp (congrArg Autoload.thread) id

/-- A constant that waits for a feature after a move waited for it before, or was registered. -/
theorem Stem.pending {place? : Option (ModuleId × String)} (h : Stem u place? k name c)
    (ha : c.autoload? = some a) :
    (∃ s c₀, u.ownConstant s name = some c₀ ∧ c₀.autoload? = some a ∧
      c.declaringModule = c₀.declaringModule ∧ (s = k ∨ ¬u.knows k)) ∨
    place? = some (k, name) ∧ a = ⟨u.nextSerial⟩ := by
  cases h with
  | kept h from_ => exact .inl ⟨k, _, h, from_.autoload a ha, from_.declaring, .inl rfl⟩
  | made free hk declaring same autoload => cases ha.symm.trans autoload
  | registered h hk declaring same autoload =>
    exact .inr ⟨h, Option.some.inj (ha.symm.trans autoload)⟩
  | copied hk h from_ => exact .inl ⟨_, _, h, from_.autoload a ha, from_.declaring, .inr hk⟩

/-- The autoloads of constants were made by registrations. -/
def AutoloadsIssued (u : Universe) : Prop :=
  ∀ k name c a, u.ownConstant k name = some c → c.autoload? = some a → a.num < u.nextSerial

theorem AutoloadsIssued.step (hu : u.AutoloadsIssued) (hk : mv.Known u)
    (hnext : u.nextSerial ≤ (u.after mv).nextSerial) : (u.after mv).AutoloadsIssued := by
  intro k name c a hc ha
  rcases ((stores_after hk).constants k name c hc).pending ha with
    ⟨s, c₀, hc₀, ha₀, -, -⟩ | ⟨hp, rfl⟩
  · exact Nat.lt_of_lt_of_le (hu s name c₀ a hc₀ ha₀) hnext
  · rw [(after_of_pending hp).2]
    exact Nat.lt_succ_self _

theorem Arises.autoloadsIssued (h : Arises u) : u.AutoloadsIssued := by
  refine h.induction (fun options k name c a hc ha => ?_) fun v mv hr hv hk hg =>
    hv.step hk (nextSerial_le_after hr.wellFormed hk hg)
  cases ha.symm.trans (ownConstant_create hc).2.2.2

/-- Constants of one name that one module declares wait for one registration. -/
def SharesAutoloads (u : Universe) : Prop :=
  ∀ k k' name c c' a a', u.ownConstant k name = some c → u.ownConstant k' name = some c' →
    c.autoload? = some a → c'.autoload? = some a' → c'.declaringModule = c.declaringModule → a' = a

theorem sharesAutoloads_create (options : Options) : (create options).SharesAutoloads := by
  intro k k' name c c' a a' hc _ ha
  cases ha.symm.trans (ownConstant_create hc).2.2.2

theorem SharesAutoloads.eq_of_isOf {k' : ModuleId} {c' : Constant} {a' : AutoloadId}
    (h : u.SharesAutoloads) (hu : u.Sourced) (hc : u.ownConstant k name = some c)
    (hc' : u.ownConstant k' name = some c') (hm : c.IsOf k m) (hm' : c'.IsOf k' m)
    (ha : c.autoload? = some a) (ha' : c'.autoload? = some a') : a' = a := by
  rcases hm with rfl | hd <;> rcases hm' with rfl | hd'
  · cases hc.symm.trans hc'
    exact Option.some.inj (ha'.symm.trans ha)
  · by_cases hd : c.declaringModule = k
    · exact h k k' name c c' a a' hc hc' ha ha' (hd'.trans hd.symm)
    · exact absurd hd' ((hu k name c hc).copied hd k' c' hc')
  · by_cases hd' : c'.declaringModule = k'
    · exact h k k' name c c' a a' hc hc' ha ha' (hd'.trans hd.symm)
    · exact absurd hd ((hu k' name c' hc').copied hd' k c hc)
  · exact h k k' name c c' a a' hc hc' ha ha' (hd'.trans hd.symm)

theorem SharesAutoloads.step (h : u.SharesAutoloads) (hk : mv.Known u)
    (hno : ∀ m name, mv.pending? u = some (m, name) → ¬u.CopiedFrom m name) :
    (u.after mv).SharesAutoloads := by
  intro k k' name c c' a a' hc hc' ha ha' hd
  cases hp : mv.pending? u with
  | none =>
    have hbefore {k c a} (hc : (u.after mv).ownConstant k name = some c)
        (ha : c.autoload? = some a) : ∃ s c₀, u.ownConstant s name = some c₀ ∧
          c₀.autoload? = some a ∧ c.declaringModule = c₀.declaringModule := by
      rcases ((stores_after hk).constants k name c hc).pending ha with
        ⟨s, c₀, hc₀, ha₀, hd₀, -⟩ | ⟨hplace, -⟩
      · exact ⟨s, c₀, hc₀, ha₀, hd₀⟩
      · cases hp.symm.trans hplace
    obtain ⟨s, c₀, hc₀, ha₀, hd₀⟩ := hbefore hc ha
    obtain ⟨s', c₁, hc₁, ha₁, hd₁⟩ := hbefore hc' ha'
    exact h s s' name c₀ c₁ a a' hc₀ hc₁ ha₀ ha₁ (hd₁.symm.trans (hd.trans hd₀))
  | some p =>
    obtain ⟨m, other⟩ := p
    have hafter := (after_of_pending hp).1
    have hregistered {k c} (hat : m = k ∧ other = name)
        (hc : (u.after mv).ownConstant k name = some c) : c.declaringModule = m := by
      rw [hafter, if_pos hat] at hc
      cases hc
      rfl
    -- no other module holds a copy that waits for an earlier registration
    have hnew {k c a} (ho : other = name) (hc : (u.after mv).ownConstant k name = some c)
        (ha : c.autoload? = some a) (hm : c.declaringModule = m) : a = ⟨u.nextSerial⟩ := by
      rw [hafter] at hc
      split at hc
      · cases hc
        exact (Option.some.inj ha).symm
      · next hne =>
        subst ho
        exact absurd ⟨k, c, fun he => hne ⟨he.symm, rfl⟩, hc, Option.isSome_of_eq_some ha, hm⟩
          (hno m other hp)
    by_cases hat : m = k ∧ other = name
    · have hm := hregistered hat hc
      rw [hnew hat.2 hc ha hm, hnew hat.2 hc' ha' (hd.trans hm)]
    · by_cases hat' : m = k' ∧ other = name
      · have hm := hregistered hat' hc'
        rw [hnew hat'.2 hc ha (hd.symm.trans hm), hnew hat'.2 hc' ha' hm]
      · rw [hafter, if_neg hat] at hc
        rw [hafter, if_neg hat'] at hc'
        exact h k k' name c c' a a' hc hc' ha ha' hd

end Universe

/-! ### Histories -/

/-- A mark that a thread set when it found a constant in the table of a module: to run the loader,
or only to keep others from doing so. -/
structure Guard where
  table : ModuleId
  constant : Constant
  marker : AutoloadId
  thread : ThreadId
  loads : Bool
  deriving DecidableEq

/-- The loader runs for the constant of a module. -/
def Guard.IsFor (g : Guard) (m : ModuleId) (name : String) : Prop :=
  g.loads = true ∧ g.constant.name = name ∧ g.constant.IsOf g.table m

instance (g : Guard) (m : ModuleId) (name : String) : Decidable (g.IsFor m name) :=
  inferInstanceAs (Decidable (_ ∧ _ ∧ (_ ∨ _)))

/-- A universe while marks are set. -/
structure Loading where
  now : Universe
  guards : List Guard := []

/-- What may happen while the loader runs. -/
inductive Turn
  /-- A thread resolves the constant that the table of a module binds. -/
  | load (t : ThreadId) (k : ModuleId) (name : String)
  /-- A thread marks that constant, but does not load it. -/
  | hold (t : ThreadId) (k : ModuleId) (name : String)
  /-- The mark of an autoload goes. -/
  | release (a : AutoloadId)
  | move (mv : Move)

/-- A turn of reading: nothing that is stored changes. -/
def Turn.Reads : Turn → Prop
  | load _ _ _ | hold _ _ _ | release _ | move .installLoader => True
  | move _ => False

namespace Loading

open Universe

variable {s : Loading} {x : Turn}

/-- Mark a constant that no thread is loading. -/
def begin (s : Loading) (loads : Bool) (t : ThreadId) (k : ModuleId) (name : String) : Loading :=
  match s.now.idle? k name with
  | some (c, a) =>
    { now := s.now.after (.markAutoload a (some t)), guards := ⟨k, c, a, t, loads⟩ :: s.guards }
  | none => s

/-- What a turn does. -/
def perform (s : Loading) : Turn → Loading
  | .load t k name => if s.now.hasLoader then s.begin true t k name else s
  | .hold t k name => s.begin false t k name
  | .release a =>
    { now := s.now.after (.markAutoload a none), guards := s.guards.filter (·.marker ≠ a) }
  | .move mv => { s with now := s.now.after mv }

/-- The turns that may happen: marks are set and dropped by those who resolve constants only. -/
def Allows (s : Loading) : Turn → Prop
  | .load _ _ _ | .hold _ _ _ | .release _ => True
  | .move mv => mv.Known s.now ∧ mv.Genuine s.now ∧ ¬mv.Marks

/-- A feature is registered for a constant that is being loaded, or that another module holds a
waiting copy of. -/
def Renews (s : Loading) : Turn → Prop
  | .load _ _ _ | .hold _ _ _ | .release _ => False
  | .move mv => ∃ m name, mv.pending? s.now = some (m, name) ∧
    ((∃ g ∈ s.guards, g.IsFor m name) ∨ s.now.CopiedFrom m name)

/-- A thread that runs the loader for the constant of a module would run it again for that constant,
if it resolved the constant that a table binds. -/
def Reenters (s : Loading) (t : ThreadId) (k : ModuleId) (name : String) : Prop :=
  ∃ c, s.now.ownConstant k name = some c ∧ s.now.Consults t c ∧
    ∃ g ∈ s.guards, g.thread = t ∧ ∃ m, c.IsOf k m ∧ g.IsFor m name

def performAll (s : Loading) (xs : List Turn) : Loading := xs.foldl perform s

theorem performAll_append (s : Loading) (xs ys : List Turn) :
    s.performAll (xs ++ ys) = (s.performAll xs).performAll ys := by
  unfold performAll
  rw [List.foldl_append]

/-- Whatever is read next, no thread runs the loader for a constant again. -/
def Safe (s : Loading) : Prop :=
  ∀ reads, (∀ x ∈ reads, x.Reads) → ∀ t k name, ¬(s.performAll reads).Reenters t k name

/-- Every turn of a history may happen when it comes. -/
def AllowsAll (s : Loading) : List Turn → Prop
  | [] => True
  | x :: xs => s.Allows x ∧ (s.perform x).AllowsAll xs

/-- At some turn of a history a feature is registered for such a constant. -/
def Renewed (s : Loading) : List Turn → Prop
  | [] => False
  | x :: xs => s.Renews x ∨ (s.perform x).Renewed xs

/-- At no point of a history can a thread run the loader for a constant again. -/
def NeverReenters (s : Loading) : List Turn → Prop
  | [] => s.Safe
  | x :: xs => s.Safe ∧ (s.perform x).NeverReenters xs

instance (s : Loading) : (x : Turn) → Decidable (s.Renews x)
  | .load _ _ _ | .hold _ _ _ | .release _ => inferInstanceAs (Decidable False)
  | .move mv =>
    decidable_of_iff (∃ p ∈ (mv.pending? s.now).toList,
      (∃ g ∈ s.guards, g.IsFor p.1 p.2) ∨ s.now.CopiedFrom p.1 p.2) (by simp [Renews])

instance decidableRenewed (s : Loading) : (xs : List Turn) → Decidable (s.Renewed xs)
  | [] => inferInstanceAs (Decidable False)
  | x :: xs =>
    have := decidableRenewed (s.perform x) xs
    inferInstanceAs (Decidable (s.Renews x ∨ (s.perform x).Renewed xs))

theorem NeverReenters.safe {xs : List Turn} (h : s.NeverReenters xs) : s.Safe := by
  cases xs with
  | nil => exact h
  | cons x xs => exact h.1

/-! ### What every turn keeps -/

/-- The marks are those of the guards, and belong to autoloads that were made. -/
structure Tidy (s : Loading) : Prop where
  arises : Arises s.now
  marked : ∀ g ∈ s.guards, (s.now.autoload g.marker).thread = some g.thread
  held : ∀ a, (s.now.autoload a).isLoading = true → ∃ g ∈ s.guards, g.marker = a
  issued : ∀ g ∈ s.guards, g.marker.num < s.now.nextSerial
  known : ∀ g ∈ s.guards, s.now.knows g.table ∧ s.now.knows g.constant.declaringModule

theorem tidy_create (options : Options) : Tidy { now := create options } where
  arises := ⟨options, [], trivial, rfl⟩
  marked := nofun
  held _ h := nomatch h
  issued := nofun
  known := nofun

/-- A mark that is not set is none of the guards'. -/
theorem Tidy.marker_ne (h : s.Tidy) (ha : (s.now.autoload a).isLoading = false) {g : Guard}
    (hg : g ∈ s.guards) : g.marker ≠ a := by
  rintro rfl
  rw [Autoload.isLoading, h.marked g hg] at ha
  cases ha

theorem Tidy.begin (h : s.Tidy) (loads : Bool) (t : ThreadId) (k : ModuleId) (name : String) :
    (s.begin loads t k name).Tidy := by
  unfold Loading.begin
  cases hidle : s.now.idle? k name with
  | none => exact h
  | some e =>
    obtain ⟨c, a⟩ := e
    obtain ⟨hc, ha, hno⟩ := idle?_eq_some.1 hidle
    refine ⟨h.arises.marked a (some t), ?_, ?_, ?_, ?_⟩
    · intro g hg
      rw [autoload_after_markAutoload]
      rcases List.mem_cons.1 hg with rfl | hg
      · rw [if_pos rfl]
      · rw [if_neg (h.marker_ne hno hg).symm]
        exact h.marked g hg
    · intro b hb
      rw [autoload_after_markAutoload] at hb
      split at hb
      · next he => exact ⟨_, List.mem_cons_self, he⟩
      · obtain ⟨g, hg, he⟩ := h.held b hb
        exact ⟨g, List.mem_cons_of_mem _ hg, he⟩
    · intro g hg
      rcases List.mem_cons.1 hg with rfl | hg
      · exact h.arises.autoloadsIssued k name c a hc ha
      · exact h.issued g hg
    · intro g hg
      rcases List.mem_cons.1 hg with rfl | hg
      · exact ⟨h.arises.reachable.wellFormed.knows_of_ownConstant hc,
          (h.arises.sourced k name c hc).declaring⟩
      · exact h.known g hg

theorem Tidy.release (h : s.Tidy) (a : AutoloadId) : (s.perform (.release a)).Tidy := by
  refine ⟨h.arises.marked a none, ?_, ?_, ?_, ?_⟩
  · intro g hg
    obtain ⟨hg, hne⟩ := List.mem_filter.1 hg
    show ((s.now.after (.markAutoload a none)).autoload g.marker).thread = _
    rw [autoload_after_markAutoload, if_neg fun he => of_decide_eq_true hne he.symm]
    exact h.marked g hg
  · intro b hb
    change ((s.now.after (.markAutoload a none)).autoload b).isLoading = true at hb
    rw [autoload_after_markAutoload] at hb
    split at hb
    · cases hb
    · next hne =>
      obtain ⟨g, hg, rfl⟩ := h.held b hb
      exact ⟨g, List.mem_filter.2 ⟨hg, decide_eq_true fun he => hne he.symm⟩, rfl⟩
  · exact fun g hg => h.issued g (List.mem_filter.1 hg).1
  · exact fun g hg => h.known g (List.mem_filter.1 hg).1

theorem Tidy.move (h : s.Tidy) (hk : mv.Known s.now) (hg : mv.Genuine s.now) (hm : ¬mv.Marks) :
    (s.perform (.move mv)).Tidy := by
  have hu := h.arises.reachable.wellFormed
  have hnext := (Leads.of_move hk).nextId hu
  refine ⟨h.arises.after hk hg, ?_, ?_, ?_, ?_⟩
  · intro g hg'
    rcases thread_after hk hm g.marker with he | ⟨he, -⟩
    · exact he.trans (h.marked g hg')
    · have hissued := h.issued g hg'
      rw [he] at hissued
      exact absurd hissued (Nat.lt_irrefl _)
  · intro a ha
    rcases thread_after hk hm a with he | ⟨-, he⟩
    · exact h.held a (by rwa [Autoload.isLoading, ← he])
    · rw [Autoload.isLoading] at ha
      cases ha.symm.trans (congrArg Option.isSome he)
  · exact fun g hg' => Nat.lt_of_lt_of_le (h.issued g hg') (nextSerial_le_after hu hk hg)
  · exact fun g hg' => ⟨knows_mono hnext (h.known g hg').1, knows_mono hnext (h.known g hg').2⟩

theorem Tidy.perform (h : s.Tidy) (hx : s.Allows x) : (s.perform x).Tidy := by
  cases x with
  | load t k name =>
    show (if s.now.hasLoader then s.begin true t k name else s).Tidy
    split
    · exact h.begin true t k name
    · exact h
  | hold t k name => exact h.begin false t k name
  | release a => exact h.release a
  | move mv => exact h.move hx.1 hx.2.1 hx.2.2

theorem allows_of_reads (h : x.Reads) : s.Allows x := by
  cases x with
  | load | hold | release => trivial
  | move mv =>
    cases mv with
    | installLoader => exact ⟨trivial, trivial, id⟩
    | _ => exact absurd h id

theorem allowsAll_of_reads {reads : List Turn} (hr : ∀ x ∈ reads, x.Reads) :
    s.AllowsAll reads := by
  induction reads generalizing s with
  | nil => trivial
  | cons x xs ih =>
    exact ⟨allows_of_reads (hr x List.mem_cons_self),
      ih fun y hy => hr y (List.mem_cons_of_mem x hy)⟩

theorem Tidy.performAll (h : s.Tidy) {xs : List Turn} (hx : s.AllowsAll xs) :
    (s.performAll xs).Tidy := by
  induction xs generalizing s with
  | nil => exact h
  | cons x xs ih => exact ih (h.perform hx.1) hx.2

/-! ### Actions -/

theorem allowsAll_append (s : Loading) (xs ys : List Turn) :
    s.AllowsAll (xs ++ ys) ↔ s.AllowsAll xs ∧ (s.performAll xs).AllowsAll ys := by
  induction xs generalizing s with
  | nil => simp [AllowsAll, performAll]
  | cons x xs ih =>
    rw [List.cons_append, AllowsAll, AllowsAll, ih, and_assoc]
    rfl

/-- Turns that may happen lead from one state to another. -/
def Becomes (s s' : Loading) : Prop := ∃ xs, s.AllowsAll xs ∧ s.performAll xs = s'

theorem Becomes.refl (s : Loading) : s.Becomes s := ⟨[], trivial, rfl⟩

theorem Becomes.trans {s' s'' : Loading} (h : s.Becomes s') (h' : s'.Becomes s'') :
    s.Becomes s'' := by
  obtain ⟨xs, hx, rfl⟩ := h
  obtain ⟨ys, hy, rfl⟩ := h'
  exact ⟨xs ++ ys, (allowsAll_append s xs ys).2 ⟨hx, hy⟩, performAll_append s xs ys⟩

theorem Becomes.turn (hx : s.Allows x) : s.Becomes (s.perform x) := ⟨[x], ⟨hx, trivial⟩, rfl⟩

theorem Tidy.becomes {s' : Loading} (h : s.Tidy) (hb : s.Becomes s') : s'.Tidy := by
  obtain ⟨xs, hx, rfl⟩ := hb
  exact h.performAll hx

/-- Whether it fails or not, an action goes by turns, and drops all marks that it sets. -/
def ByTurns {σ α : Type} (y : Act σ α) : Prop :=
  ∀ (w : World σ) guards, Tidy ⟨w.model, guards⟩ →
    Becomes ⟨w.model, guards⟩ ⟨(y.final w).model, guards⟩

variable {σ : Type} {w : World σ} {guards : List Guard} {require : String → Act σ Bool}

theorem becomes_report (e : Event) (u : Universe) (guards : List Guard) :
    Becomes ⟨u, guards⟩ ⟨(report e u).2, guards⟩ :=
  .turn (x := .move (.report e)) ⟨trivial, trivial, id⟩

theorem becomes_settleAutoload (ht : Tidy ⟨u, guards⟩) (n : ModuleId) (name : String) :
    Becomes ⟨u, guards⟩ ⟨(settleAutoload n name u).2, guards⟩ := by
  by_cases hn : u.knows n
  · have hturn : Becomes ⟨u, guards⟩ _ :=
      .turn (x := .move (.settleAutoload n name)) ⟨hn, trivial, id⟩
    rwa [perform, after_settleAutoload] at hturn
  · rw [settleAutoload_of_not_knows ht.arises.reachable.wellFormed hn]
    exact .refl _

/-- The loader is entered by a turn and a report. -/
theorem becomes_entering (guards : List Guard) (hl : w.model.hasLoader = true)
    (h : w.model.idle? k name = some (c, a)) (n : ModuleId) (other : String) :
    Becomes ⟨w.model, guards⟩
      ⟨(entering n other a w).model, ⟨k, c, a, w.thread, true⟩ :: guards⟩ := by
  have hload : perform ⟨w.model, guards⟩ (.load w.thread k name) =
      ⟨w.model.after (.markAutoload a (some w.thread)), ⟨k, c, a, w.thread, true⟩ :: guards⟩ := by
    show (if w.model.hasLoader then begin ⟨w.model, guards⟩ true w.thread k name else _) = _
    rw [if_pos hl, begin, h]
  have hturn : Becomes ⟨w.model, guards⟩ (perform ⟨w.model, guards⟩ (.load w.thread k name)) :=
    .turn trivial
  rw [hload] at hturn
  exact hturn.trans (becomes_report (.autoloading (w.model.constantName n other)
    (w.model.autoload a).feature) _ _)

theorem becomes_loadFeature (hr : ∀ feature, ByTurns (require feature))
    (ht : Tidy ⟨w.model, guards⟩) (hl : w.model.hasLoader = true)
    (h : w.model.idle? k name = some (c, a)) (n : ModuleId) (other : String) :
    Becomes ⟨w.model, guards⟩ ⟨((loadFeature require n other a).final w).model, guards⟩ := by
  have hentered := becomes_entering guards hl h n other
  have htidy := ht.becomes hentered
  have hrun := hr (w.model.autoload a).feature _ _ htidy
  have hdone := htidy.becomes hrun
  have hleft : (⟨k, c, a, w.thread, true⟩ :: guards).filter (·.marker ≠ a) = guards := by
    rw [List.filter_cons_of_neg (by simp), List.filter_eq_self]
    exact fun g hg => decide_eq_true (ht.marker_ne (idle?_eq_some.1 h).2.2 hg)
  have hdrop (v : Universe) : Becomes ⟨v, ⟨k, c, a, w.thread, true⟩ :: guards⟩
      ⟨v.after (.markAutoload a none), guards⟩ := by
    have hturn : Becomes ⟨v, ⟨k, c, a, w.thread, true⟩ :: guards⟩ _ :=
      .turn (x := .release a) trivial
    rwa [perform, hleft] at hturn
  refine hentered.trans (hrun.trans ?_)
  rw [Act.final] at hdone ⊢
  rw [Act.final, loadFeature_apply]
  cases hrequire : require (w.model.autoload a).feature (entering n other a w) with
  | error f w₁ => exact hdrop w₁.model
  | ok b w₁ =>
    rw [hrequire] at hdone
    let last : Event := .autoloaded (w.model.constantName n other)
    have hended := (becomes_report last w₁.model _).trans (hdrop _)
    exact hended.trans (becomes_settleAutoload (hdone.becomes hended) n other)

/-- If the loader goes by turns, then so does resolving a constant that is stored, in any module. -/
theorem becomes_resolveAutoload (hr : ∀ feature, ByTurns (require feature))
    (ht : Tidy ⟨w.model, guards⟩) (hc : w.model.ownConstant k name = some c) (n : ModuleId)
    (other : String) : Becomes ⟨w.model, guards⟩
      ⟨((resolveAutoload require n other c).final w).model, guards⟩ := by
  cases ha : c.autoload? with
  | none =>
    rw [Act.final, resolveAutoload, ha]
    exact .refl _
  | some a =>
    have hrun := resolveAutoload_apply require n other ha w
    split at hrun
    · rw [Act.final, hrun]
      exact .refl _
    · split at hrun
      · next hl =>
        split at hrun
        · rw [Act.final, hrun]
          exact becomes_report _ w.model guards
        · next hidle =>
          rw [Act.final, hrun]
          exact becomes_loadFeature hr ht hl
            (idle?_eq_some.2 ⟨hc, ha, eq_false_of_ne_true hidle⟩) n other
      · rw [Act.final, hrun]
        have hreport := becomes_report
          (.noFeatureLoader (w.model.constantName n other)) w.model guards
        exact hreport.trans (becomes_settleAutoload (ht.becomes hreport) n other)

/-! ### What turns keep that renew nothing -/

/-- The autoloads that threads run the loader for are those that the constants wait for. -/
structure Guarded (s : Loading) : Prop where
  shares : s.now.SharesAutoloads
  loads : ∀ g ∈ s.guards, ∀ m name k c a, g.IsFor m name → s.now.ownConstant k name = some c →
    c.IsOf k m → c.autoload? = some a → a = g.marker

theorem guarded_create (options : Options) : Guarded { now := create options } where
  shares := sharesAutoloads_create options
  loads := nofun

theorem Guarded.begin (h : s.Guarded) (ht : s.Tidy) (loads : Bool) (t : ThreadId) (k : ModuleId)
    (name : String) : (s.begin loads t k name).Guarded := by
  unfold Loading.begin
  cases hidle : s.now.idle? k name with
  | none => exact h
  | some e =>
    obtain ⟨c, a⟩ := e
    obtain ⟨hc, ha, -⟩ := idle?_eq_some.1 hidle
    refine ⟨h.shares, fun g hg m other k' c' a' hfor hc' hm' ha' => ?_⟩
    rcases List.mem_cons.1 hg with rfl | hg
    · obtain ⟨-, hn, hm⟩ := hfor
      have hsourced := ht.arises.sourced
      obtain rfl : name = other := (hsourced k name c hc).same.symm.trans hn
      exact h.shares.eq_of_isOf hsourced hc hc' hm hm' ha ha'
    · exact h.loads g hg m other k' c' a' hfor hc' hm' ha'

theorem Guarded.move (h : s.Guarded) (ht : s.Tidy) (hk : mv.Known s.now)
    (hr : ¬s.Renews (.move mv)) : (s.perform (.move mv)).Guarded where
  shares := h.shares.step hk fun m name hp hcopied => hr ⟨m, name, hp, .inr hcopied⟩
  loads g hg m name k c a hfor hc hm ha := by
    rcases ((stores_after hk).constants k name c hc).pending ha with
      ⟨j, c₀, hc₀, ha₀, hd, hj⟩ | ⟨hp, -⟩
    · refine h.loads g hg m name j c₀ a hfor hc₀ ?_ ha₀
      rcases hm with rfl | hm
      · rcases hj with rfl | hnew
        · exact .inl rfl
        · -- no thread loads a constant of a module that is new
          obtain ⟨htable, hdeclaring⟩ := ht.known g hg
          rcases hfor.2.2 with he | he
          · exact absurd (he ▸ htable) hnew
          · exact absurd (he ▸ hdeclaring) hnew
      · exact .inr (hd.symm.trans hm)
    · rw [perform, (after_of_pending hp).1, if_pos ⟨rfl, rfl⟩] at hc
      cases hc
      obtain rfl : k = m := hm.elim id id
      exact absurd ⟨k, name, hp, .inl ⟨g, hg, hfor⟩⟩ hr

theorem Guarded.perform (h : s.Guarded) (ht : s.Tidy) (hx : s.Allows x) (hr : ¬s.Renews x) :
    (s.perform x).Guarded := by
  cases x with
  | load t k name =>
    show (if s.now.hasLoader then s.begin true t k name else s).Guarded
    split
    · exact h.begin ht true t k name
    · exact h
  | hold t k name => exact h.begin ht false t k name
  | release a => exact ⟨h.shares, fun g hg => h.loads g (List.mem_filter.1 hg).1⟩
  | move mv => exact h.move ht hx.1 hr

theorem not_renews_of_reads (h : x.Reads) : ¬s.Renews x := by
  cases x with
  | load | hold | release => exact id
  | move mv =>
    cases mv with
    | installLoader => exact fun ⟨_, _, hp, _⟩ => nomatch hp
    | _ => exact absurd h id

theorem Guarded.not_reenters (h : s.Guarded) (ht : s.Tidy) (t : ThreadId) (k : ModuleId)
    (name : String) : ¬s.Reenters t k name := by
  rintro ⟨c, hc, hconsults, g, hg, -, m, hm, hfor⟩
  obtain ⟨-, a, ha, hidle⟩ := consults_iff.1 hconsults
  exact ht.marker_ne hidle hg (h.loads g hg m name k c a hfor hc hm ha).symm

theorem Guarded.safe (h : s.Guarded) (ht : s.Tidy) : s.Safe := by
  intro reads hr
  induction reads generalizing s with
  | nil => exact h.not_reenters ht
  | cons x xs ih =>
    have hx := hr x List.mem_cons_self
    have hallows : s.Allows x := allows_of_reads hx
    exact ih (h.perform ht hallows (not_renews_of_reads hx)) (ht.perform hallows)
      fun y hy => hr y (List.mem_cons_of_mem x hy)

/-! ### What a renewal does -/

/-- Dropping marks drops their guards, and changes no constants. -/
theorem performAll_release (s : Loading) (as : List AutoloadId) :
    (s.performAll (as.map .release)).guards = s.guards.filter (·.marker ∉ as) ∧
    ∀ k name, (s.performAll (as.map .release)).now.ownConstant k name =
      s.now.ownConstant k name := by
  induction as generalizing s with
  | nil => exact ⟨(List.filter_eq_self.2 fun g _ => by simp).symm, fun _ _ => rfl⟩
  | cons a as ih =>
    obtain ⟨hguards, hown⟩ := ih (s.perform (.release a))
    refine ⟨hguards.trans ?_, hown⟩
    show (s.guards.filter (·.marker ≠ a)).filter (·.marker ∉ as) = _
    rw [List.filter_filter]
    exact List.filter_congr fun g _ => by simp [Bool.and_comm]

/-- All threads may stop loading, and there may be a loader. -/
theorem Tidy.exists_atRest (h : s.Tidy) : ∃ reads, (∀ x ∈ reads, x.Reads) ∧
    (s.performAll reads).now.AtRest ∧ (s.performAll reads).now.hasLoader = true ∧
    ∀ k name, (s.performAll reads).now.ownConstant k name = s.now.ownConstant k name := by
  have hreleases : ∀ x ∈ (s.guards.map Guard.marker).map Turn.release, x.Reads := by
    intro x hx
    obtain ⟨a, -, rfl⟩ := List.mem_map.1 hx
    trivial
  obtain ⟨hguards, hown⟩ := performAll_release s (s.guards.map Guard.marker)
  have hempty : (s.performAll ((s.guards.map Guard.marker).map .release)).guards = [] := by
    refine hguards.trans (List.filter_eq_nil_iff.2 fun g hg => ?_)
    simpa using ⟨g, hg, rfl⟩
  have hrest : (s.performAll ((s.guards.map Guard.marker).map .release)).now.AtRest := by
    refine fun a => eq_false_of_ne_true fun hl => ?_
    obtain ⟨g, hg, -⟩ := (h.performAll (allowsAll_of_reads hreleases)).held a hl
    rw [hempty] at hg
    cases hg
  have hinstall : ∀ x ∈ [Turn.move .installLoader], x.Reads := List.forall_mem_singleton.2 trivial
  refine ⟨_, List.forall_mem_append.2 ⟨hreleases, hinstall⟩, ?_⟩
  rw [performAll_append]
  exact ⟨hrest, rfl, hown⟩

/-- A thread that loads a copy of a constant does not see the mark in the module that declares
it, if that waits for another registration. -/
theorem reenters_of_copied {c' : Constant} {a' : AutoloadId} (hrest : s.now.AtRest)
    (hl : s.now.hasLoader = true) (hc : s.now.ownConstant k name = some c)
    (ha : c.autoload? = some a) (hname : c.name = name) (hd : c.declaringModule = m)
    (hc' : s.now.ownConstant m name = some c') (ha' : c'.autoload? = some a') (hne : a ≠ a')
    (t : ThreadId) : (s.perform (.load t k name)).Reenters t m name := by
  have hidle : s.now.idle? k name = some (c, a) := idle?_eq_some.2 ⟨hc, ha, hrest a⟩
  show (if s.now.hasLoader then s.begin true t k name else s).Reenters t m name
  rw [if_pos hl, begin, hidle]
  refine ⟨c', hc', consults_iff.2 ⟨hl, a', ha', ?_⟩, _, List.mem_cons_self, rfl, m, .inl rfl,
    rfl, hname, .inr hd⟩
  rw [autoload_after_markAutoload, if_neg hne]
  exact hrest a'

theorem not_safe_of_renews (ht : s.Tidy) (hx : s.Allows x) (h : s.Renews x) :
    ¬(s.perform x).Safe := by
  cases x with
  | load | hold | release => exact absurd h id
  | move mv =>
    obtain ⟨m, name, hp, hcase⟩ := h
    have htidy := ht.perform hx
    have hown : (s.now.after mv).ownConstant m name =
        some { declaringModule := m, name, binding := .autoload ⟨s.now.nextSerial⟩ } := by
      rw [(after_of_pending hp).1, if_pos ⟨rfl, rfl⟩]
    rcases hcase with ⟨g, hg, hfor⟩ | ⟨k, c, hne, hc, hauto, hd⟩
    · -- the new mark is not set
      have hidle : ((s.now.after mv).autoload ⟨s.now.nextSerial⟩).isLoading = false := by
        refine eq_false_of_ne_true fun hl => ?_
        obtain ⟨g', hg', he⟩ := htidy.held _ hl
        have hissued := ht.issued g' hg'
        rw [he] at hissued
        exact Nat.lt_irrefl _ hissued
      intro hsafe
      have hinstall : ∀ y ∈ [Turn.move .installLoader], y.Reads :=
        List.forall_mem_singleton.2 trivial
      exact hsafe _ hinstall g.thread m name
        ⟨_, hown, consults_iff.2 ⟨rfl, _, rfl, hidle⟩, g, hg, rfl, m, .inl rfl, hfor⟩
    · -- when nothing is being loaded any more, the copy is
      obtain ⟨a, ha⟩ := Option.isSome_iff_exists.1 hauto
      have hold : (s.now.after mv).ownConstant k name = some c := by
        rw [(after_of_pending hp).1, if_neg fun he => hne he.1.symm, hc]
      have hnew : a ≠ ⟨s.now.nextSerial⟩ := by
        rintro rfl
        exact Nat.lt_irrefl _ (ht.arises.autoloadsIssued k name c _ hc ha)
      obtain ⟨reads, hreads, hrest, hl, hsame⟩ := htidy.exists_atRest
      intro hsafe
      have hload : ∀ y ∈ [Turn.load ⟨0⟩ k name], y.Reads := List.forall_mem_singleton.2 trivial
      refine hsafe _ (List.forall_mem_append.2 ⟨hreads, hload⟩) ⟨0⟩ m name ?_
      rw [performAll_append]
      exact reenters_of_copied hrest hl ((hsame k name).trans hold) ha
        (ht.arises.sourced k name c hc).same hd ((hsame m name).trans hown) rfl hnew ⟨0⟩

/-- At no point of a history can a thread run the loader for a constant again exactly as long as no
feature is registered for a constant that is being loaded or that another module holds a waiting
copy of. -/
theorem neverReenters_iff_not_renewed {turns : List Turn} (options : Options)
    (h : AllowsAll { now := create options } turns) :
    NeverReenters { now := create options } turns ↔ ¬Renewed { now := create options } turns := by
  have hrun (s : Loading) (ht : s.Tidy) (hg : s.Guarded) (xs : List Turn) (hx : s.AllowsAll xs) :
      s.NeverReenters xs ↔ ¬s.Renewed xs := by
    induction xs generalizing s with
    | nil => exact ⟨fun _ => id, fun _ => hg.safe ht⟩
    | cons x xs ih =>
      have htidy := ht.perform hx.1
      constructor
      · rintro ⟨-, hrest⟩ hrenewed
        have hno : ¬s.Renews x := fun hr => not_safe_of_renews ht hx.1 hr hrest.safe
        exact (ih _ htidy (hg.perform ht hx.1 hno) hx.2).1 hrest (hrenewed.resolve_left hno)
      · intro hno
        rw [Renewed, not_or] at hno
        exact ⟨hg.safe ht, (ih _ htidy (hg.perform ht hx.1 hno.1) hx.2).2 hno.2⟩
  exact hrun _ (tidy_create options) (guarded_create options) turns h

/-- A feature that waits for another one, and then defines its own constant. -/
def nestedLoading : List Turn :=
  [.move .newModule, .move .installLoader, .move (.registerAutoload ⟨12⟩ "C" "lib"),
    .load ⟨0⟩ ⟨12⟩ "C", .move (.registerAutoload ⟨12⟩ "D" "other"), .load ⟨0⟩ ⟨12⟩ "D",
    .move (.setConstant ⟨12⟩ "D" (.int 2) none), .release ⟨2⟩, .move (.settleAutoload ⟨12⟩ "D"),
    .move (.setConstant ⟨12⟩ "C" (.int 1) none), .release ⟨1⟩, .move (.settleAutoload ⟨12⟩ "C")]

theorem neverReenters_nestedLoading : AllowsAll { now := create {} } nestedLoading ∧
    NeverReenters { now := create {} } nestedLoading := by
  have hallows : AllowsAll { now := create {} } nestedLoading := by
    refine ⟨⟨trivial, trivial, id⟩, ⟨trivial, trivial, id⟩, ⟨?_, trivial, id⟩, trivial,
      ⟨?_, trivial, id⟩, trivial, ⟨⟨?_, trivial⟩, trivial, id⟩, trivial, ⟨?_, trivial, id⟩,
      ⟨⟨?_, trivial⟩, trivial, id⟩, trivial, ⟨?_, trivial, id⟩, trivial⟩
    all_goals
      change Universe.knows _ _
      decide +kernel
  exact ⟨hallows, (neverReenters_iff_not_renewed {} hallows).2 (by decide +kernel)⟩

/-- A feature that registers another one for the constant that it is loaded for. -/
def renewedLoading : List Turn :=
  [.move .newModule, .move .installLoader, .move (.registerAutoload ⟨12⟩ "C" "lib"),
    .load ⟨0⟩ ⟨12⟩ "C", .move (.registerAutoload ⟨12⟩ "C" "again")]

/-- The thread that is loading the constant would run the loader for it again. -/
theorem reenters_after_registration : AllowsAll { now := create {} } renewedLoading ∧
    (performAll { now := create {} } renewedLoading).Reenters ⟨0⟩ ⟨12⟩ "C" := by
  refine ⟨⟨⟨trivial, trivial, id⟩, ⟨trivial, trivial, id⟩, ⟨?_, trivial, id⟩, trivial,
    ⟨?_, trivial, id⟩, trivial⟩, ?_⟩
  · change Universe.knows _ _
    decide +kernel
  · change Universe.knows _ _
    decide +kernel
  · let again : Constant :=
      { declaringModule := ⟨12⟩, name := "C", binding := .autoload ⟨2⟩ }
    let first : Constant :=
      { declaringModule := ⟨12⟩, name := "C", binding := .autoload ⟨1⟩ }
    have hguards : (performAll { now := create {} } renewedLoading).guards =
      [⟨⟨12⟩, first, ⟨1⟩, ⟨0⟩, true⟩] := by decide +kernel
    refine ⟨again, by decide +kernel, consults_iff.2 ⟨by decide +kernel, ⟨2⟩, rfl,
      by decide +kernel⟩, _, hguards ▸ List.mem_cons_self, rfl, ⟨12⟩, .inl rfl, rfl, rfl, .inl rfl⟩

end Loading

end ObjectModel
