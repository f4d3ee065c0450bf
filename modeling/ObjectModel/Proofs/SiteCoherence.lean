import ObjectModel.Invocation
import ObjectModel.Proofs.Overtaking

/-!
# Coherence of call sites

A call site gives the method that an uncached lookup would give at that moment, through any history
of lookups and changes, as long as what it remembers was found by guarded lookups.  That much is
needed: where a site remembers the result of an unguarded lookup, some later change makes it give
a method that is not the current one.

* `contentOf`: methods up to their identity;
* `Served`: a site after some history;
* `Backed`: what a site remembers, as seen from the time it was found;
* `Current`: a site gives what an uncached lookup gives;
* `served_current_iff`: when sites are coherent, and that they call the current method then.
-/

namespace ObjectModel

/-- A method apart from its identity. -/
def contentOf (found : Option Method) : Option MethodContent := found.map Method.toMethodContent

namespace CallSite

open Universe

variable {u v : Universe} {s : CallSite} {x : Value} {m : ModuleId} {r : MethodResult}

/-! ### One lookup -/

theorem lookup_of_hit (h : s.cached? (metaclassOf x u).2 (metaclassOf x u).1 = some r) :
    s.lookup x u = ((r, { s with hits := s.hits + 1 }), (metaclassOf x u).2) := by
  rw [lookup, Change.bind_apply, Change.get_bind, h]
  rfl

/-- Holding a result changes neither what it is apart from identity nor any record. -/
theorem hold_spec (r : MethodResult) (u : Universe) :
    contentOf (hold r u).1.method = contentOf r.method ∧
      (hold r u).1.assumptions = r.assumptions ∧
      (hold r u).2.modules = u.modules ∧ (hold r u).2.objects = u.objects := by
  unfold hold
  cases hm : r.method with
  | none => exact ⟨congrArg contentOf hm, rfl, rfl, rfl⟩
  | some f =>
    dsimp only
    rw [Change.bind_apply, holdMethod]
    cases f.stamp <;> exact ⟨rfl, rfl, rfl, rfl⟩

/-- What a site gives and remembers when it has to look a method up. -/
theorem lookup_of_miss (h : s.cached? (metaclassOf x u).2 (metaclassOf x u).1 = none) :
    ∃ r v, (s.lookup x u).1 = (r, { s with misses := s.misses + 1 }.remember v
        (metaclassOf x u).1 r) ∧
      contentOf r.method = contentOf ((s.lookup x u).2.findMethod (metaclassOf x u).1 s.name
        (some s.context)) ∧
      r.assumptions = ((s.lookup x u).2.lookupMethod (metaclassOf x u).1 s.name
        (some s.context)).assumptions ∧
      v.modules = (s.lookup x u).2.modules ∧
      (s.lookup x u).2.modules = (metaclassOf x u).2.modules ∧
      (s.lookup x u).2.objects = (metaclassOf x u).2.objects := by
  rw [lookup, Change.bind_apply, Change.get_bind, h]
  generalize metaclassOf x u = made
  obtain ⟨m, w⟩ := made
  obtain ⟨hc, ha, hm, ho⟩ := hold_spec (w.lookupMethod m s.name (some s.context)) w
  dsimp only
  rw [Change.get_bind, Change.bind_apply, Change.get_bind]
  generalize hold (w.lookupMethod m s.name (some s.context)) w = held at hc ha hm ho ⊢
  obtain ⟨r, v⟩ := held
  have hsame {y : Universe} (hy : y.modules = w.modules) :
      contentOf r.method = contentOf (y.findMethod m s.name (some s.context)) ∧
        r.assumptions = (y.lookupMethod m s.name (some s.context)).assumptions := by
    rw [findMethod, lookupMethod_of_modules hy]
    exact ⟨hc, ha⟩
  refine ⟨r, v, ?_⟩
  -- at most a report comes behind the lookup
  split
  · obtain ⟨hc, ha⟩ := hsame (y := (report (.wentMegamorphic s.name) v).2) hm
    exact ⟨rfl, hc, ha, rfl, hm, ho⟩
  · obtain ⟨hc, ha⟩ := hsame hm
    exact ⟨rfl, hc, ha, rfl, hm, ho⟩

/-! ### Remembering -/

theorem mem_remember {e : CacheEntry} (h : e ∈ (s.remember v m r).entries) :
    e ∈ s.entries ∨ e = ⟨m, r⟩ := by
  unfold remember at h
  split at h
  · exact .inl h
  · split at h
    · cases h
    · rcases List.mem_append.1 h with h | h
      · exact .inl (List.mem_filter.1 h).1
      · exact .inr (List.mem_singleton.1 h)

/-- A site that has room for a valid result finds it again. -/
theorem find?_remember (hv : v.isValidMethod r = true)
    (h : (s.remember v m r).megamorphic = false) :
    (s.remember v m r).entries.find? (fun e => e.metaclass == m) = some ⟨m, r⟩ := by
  unfold remember at h ⊢
  cases hs : s.megamorphic with
  | true => simp [hs] at h
  | false =>
    simp only [hs, hv, Bool.not_true, Bool.or_self, Bool.false_eq_true, if_false] at h ⊢
    split at h
    · cases h
    · next hroom =>
      rw [if_neg hroom]
      have hothers : (s.otherEntries v m).find? (fun e => e.metaclass == m) = none := by
        rw [List.find?_eq_none]
        intro e he
        have hne := (List.mem_filter.1 he).2
        simp only [Bool.and_eq_true, bne_iff_ne] at hne
        simpa using hne.1
      rw [List.find?_append, hothers]
      simp

theorem remember_name (s : CallSite) (v : Universe) (m : ModuleId) (r : MethodResult) :
    (s.remember v m r).name = s.name ∧ (s.remember v m r).context = s.context := by
  unfold remember
  split
  · exact ⟨rfl, rfl⟩
  · split <;> exact ⟨rfl, rfl⟩

/-- A lookup changes neither what a site calls nor the context that it calls it under. -/
theorem lookup_name (s : CallSite) (x : Value) (u : Universe) :
    (s.lookup x u).1.2.name = s.name ∧ (s.lookup x u).1.2.context = s.context := by
  cases h : s.cached? (metaclassOf x u).2 (metaclassOf x u).1 with
  | some r =>
    rw [lookup_of_hit h]
    exact ⟨rfl, rfl⟩
  | none =>
    obtain ⟨r, v, hs, -⟩ := lookup_of_miss h
    rw [hs]
    exact remember_name _ _ _ _

/-- After a lookup the metaclass of the receiver is there. -/
theorem metaclassOf_lookup (s : CallSite) (x : Value) (u : Universe) :
    metaclassOf x (s.lookup x u).2 = ((metaclassOf x u).1, (s.lookup x u).2) := by
  have hthere := metaclassIs_metaclassOf x u
  cases h : s.cached? (metaclassOf x u).2 (metaclassOf x u).1 with
  | some r =>
    rw [lookup_of_hit h]
    exact metaclassOf_of_metaclassIs hthere
  | none =>
    obtain ⟨r, v, -, -, -, -, hm, ho⟩ := lookup_of_miss h
    refine metaclassOf_of_metaclassIs (hthere.later (fun k s _ hs => ?_) ho)
    rwa [module_congr hm]

/-! ### Histories -/

/-- What a lookup newly remembers is guarded. -/
def RemembersGuarded (s : CallSite) (x : Value) (u : Universe) : Prop :=
  ∀ e ∈ (s.lookup x u).1.2.entries, e ∈ s.entries ∨
    (s.lookup x u).2.WellGuarded e.metaclass s.name s.context

/-- A site made in a reachable universe, after lookups and changes in any order. -/
inductive Served : Universe → CallSite → Prop
  | made {u : Universe} {c : Context} (hu : Reachable u) (hc : c.Known u) (name : String) :
    Served u (.make u name c)
  | changed {u v : Universe} {s : CallSite} (h : Served u s) (hv : Leads u v) : Served v s
  | asked {u : Universe} {s : CallSite} {x : Value} (h : Served u s) (hx : x.Known u)
    (hg : s.RemembersGuarded x u) : Served (s.lookup x u).2 (s.lookup x u).1.2

theorem Served.reachable (h : Served u s) : Reachable u := by
  induction h with
  | made hu => exact hu
  | changed _ hv ih => exact ih.leads hv
  | asked _ hx _ ih => exact ih.leads (leads_lookup ih.wellFormed _ hx)

theorem Served.context_known (h : Served u s) : s.context.Known u := by
  induction h with
  | made _ hc => exact hc
  | changed h hv ih => exact Context.known_mono (hv.nextId h.reachable.wellFormed) ih
  | @asked u s x h hx _ ih =>
    have hu := h.reachable.wellFormed
    rw [(lookup_name s x u).2]
    exact Context.known_mono ((leads_lookup hu s hx).nextId hu) ih

/-- A remembered result is that of a guarded lookup. -/
structure FoundIn (w : Universe) (name : String) (c : Context) (e : CacheEntry) : Prop where
  wellFormed : w.WellFormed
  metaclass : w.knows e.metaclass
  context : c.Known w
  guarded : w.WellGuarded e.metaclass name c
  content : contentOf e.result.method = contentOf (w.findMethod e.metaclass name (some c))
  assumptions : e.result.assumptions = (w.lookupMethod e.metaclass name (some c)).assumptions

/-- Whatever a site remembers was found in an earlier state. -/
def Backed (u : Universe) (s : CallSite) : Prop :=
  ∀ e ∈ s.entries, ∃ w, w.Follows u ∧ FoundIn w s.name s.context e

theorem Backed.later (h : Backed u s) (hf : u.Follows v) : Backed v s := by
  intro e he
  obtain ⟨w, hw, hfound⟩ := h e he
  exact ⟨w, hw.trans hf, hfound⟩

/-- A guarded lookup that is remembered backs its entry. -/
theorem Backed.lookup (h : Backed u s) (hu : u.WellFormed) (hc : s.context.Known u)
    (hx : x.Known u) (hg : s.RemembersGuarded x u) :
    Backed (s.lookup x u).2 (s.lookup x u).1.2 := by
  have hall := leads_lookup hu s hx
  have hold := h.later (hall.follows hu).2
  intro e he
  rw [(lookup_name s x u).1, (lookup_name s x u).2]
  rcases hg e he with hmem | hguarded
  · exact hold e hmem
  · cases hcached : s.cached? (metaclassOf x u).2 (metaclassOf x u).1 with
    | some r =>
      rw [lookup_of_hit hcached] at he
      exact hold e he
    | none =>
      obtain ⟨r, v, hs, hcontent, hassumptions, -⟩ := lookup_of_miss hcached
      rw [hs] at he
      rcases mem_remember he with hmem | rfl
      · exact hold e hmem
      · have hknows := knows_metaclassOf (hall.wellFormed hu) (Value.known_mono (hall.nextId hu) hx)
        rw [metaclassOf_lookup] at hknows
        exact ⟨_, .refl _, hall.wellFormed hu, hknows, Context.known_mono (hall.nextId hu) hc,
          hguarded, hcontent, hassumptions⟩

theorem Served.backed (h : Served u s) : Backed u s := by
  induction h with
  | made => exact fun e he => nomatch he
  | changed h hv ih => exact ih.later (hv.follows h.reachable.wellFormed).2
  | asked h hx hg ih => exact ih.lookup h.reachable.wellFormed h.context_known hx hg

/-! ### Coherence -/

/-- What a site gives for a receiver is what a lookup of its own gives then. -/
def Current (s : CallSite) (x : Value) (u : Universe) : Prop :=
  contentOf (s.lookup x u).1.1.method = contentOf ((s.lookup x u).2.findMethod
    (metaclassOf x (s.lookup x u).2).1 s.name (some s.context))

/-- What is remembered from guarded lookups is current as long as it is valid. -/
theorem current_of_backed (hb : Backed u s) (hu : u.WellFormed) (hx : x.Known u) :
    s.Current x u := by
  unfold Current
  rw [metaclassOf_lookup]
  cases hcached : s.cached? (metaclassOf x u).2 (metaclassOf x u).1 with
  | none =>
    obtain ⟨r, v, hs, hcontent, -⟩ := lookup_of_miss hcached
    rw [hs]
    exact hcontent
  | some r =>
    rw [lookup_of_hit hcached]
    obtain ⟨hentry, hvalid⟩ := Option.filter_eq_some_iff.1 hcached
    obtain ⟨e, he, rfl⟩ := Option.map_eq_some_iff.1 hentry
    have hm : e.metaclass = (metaclassOf x u).1 := by simpa using List.find?_some he
    obtain ⟨w, hf, hfound⟩ := hb e (List.mem_of_find?_eq_some he)
    -- asking for the metaclass may have made it, which leads on from where the entry was found
    have hlater := hf.trans ((leads_metaclassOf hu hx).follows hu).2
    rw [isValidMethod, hfound.assumptions] at hvalid
    have hsame := findMethod_of_valid hfound.wellFormed hfound.metaclass hfound.context hlater
      hfound.guarded hvalid
    rw [← hm]
    exact hfound.content.trans (congrArg contentOf hsame.symm)

theorem map_visibility_contentOf (found : Option Method) :
    (contentOf found).map (·.visibility) = found.map (·.visibility) := by
  cases found <;> rfl

/-- A site that remembers the result of an unguarded lookup can come to give another method than
the current one. -/
theorem exists_not_current (hu : u.WellFormed) (hc : s.context.Known u) (hx : x.Known u)
    (hmiss : (s.lookup x u).1.2.misses = s.misses + 1)
    (hroom : (s.lookup x u).1.2.megamorphic = false)
    (h : ¬(s.lookup x u).2.WellGuarded (metaclassOf x u).1 s.name s.context) :
    ∃ v, Leads (s.lookup x u).2 v ∧ ¬(s.lookup x u).1.2.Current x v := by
  have hall := leads_lookup hu s hx
  have hu' := hall.wellFormed hu
  have hx' := Value.known_mono (hall.nextId hu) hx
  have hthere := metaclassIs_metaclassOf x (s.lookup x u).2
  have hm := knows_metaclassOf hu' hx'
  rw [metaclassOf_lookup] at hthere hm
  cases hcached : s.cached? (metaclassOf x u).2 (metaclassOf x u).1 with
  | some r =>
    rw [lookup_of_hit hcached] at hmiss
    exact absurd hmiss (Nat.ne_of_lt (Nat.lt_succ_self _))
  | none =>
    obtain ⟨r, w, hs, hcontent, hassumptions, hw, -⟩ := lookup_of_miss hcached
    obtain ⟨v, hv, hobjects, hvalid, hother⟩ :=
      exists_stale hu' hm (Context.known_mono (hall.nextId hu) hc) h
    refine ⟨v, hv, fun hcurrent => hother ?_⟩
    have hmetaclass : metaclassOf x v = ((metaclassOf x u).1, v) :=
      metaclassOf_of_metaclassIs (hthere.later (fun k t hk =>
        ((hv.follows hu').2.modules k (hk ▸ hx')).singleton t) hobjects)
    -- the result is valid when it is remembered, and again after the moves
    have hheld : w.isValidMethod r = true := by
      rw [isValidMethod, hassumptions, ← lookupMethod_of_modules hw]
      exact isValidMethod_lookupMethod.2 fun _ _ => rfl
    have hfound : (s.lookup x u).1.2.cached? (metaclassOf x v).2 (metaclassOf x v).1 = some r := by
      rw [hs] at hroom ⊢
      rw [cached?, hmetaclass, find?_remember hheld hroom]
      rw [isValidMethod, ← hassumptions] at hvalid
      exact Option.filter_eq_some_iff.2 ⟨rfl, hvalid⟩
    rw [Current, lookup_of_hit hfound, (lookup_name s x u).1, (lookup_name s x u).2] at hcurrent
    simp only [hmetaclass] at hcurrent
    rw [← map_visibility_contentOf, ← hcurrent, hcontent, map_visibility_contentOf]

/-! ### Calls -/

section Calls

open Invocation

variable {σ : Type} (run : RunMethod σ)

/-- Methods that differ in their identity only are called alike, but for the identity. -/
theorem callFound_of_content {found found' : Option Method}
    (h : contentOf found = contentOf found') (caller : Option ModuleId) (x : Value) (name : String)
    (args : List Value) : callFound run found caller x name args =
      callFound (fun f => run { f with stamp := found.bind Method.stamp }) found' caller x name
        args := by
  cases found with
  | none =>
    cases found' with
    | none => rfl
    | some f' => cases h
  | some f =>
    cases found' with
    | none => cases h
    | some f' =>
      obtain ⟨c, t⟩ := f
      obtain ⟨c', t'⟩ := f'
      obtain rfl : c = c' := Option.some.inj h
      rfl

theorem contentOf_defined (found : Option Method) :
    contentOf (found.filter Method.isDefined) = (contentOf found).filter fun c => !c.undefined := by
  cases found with
  | none => rfl
  | some f =>
    cases h : f.undefined <;> simp [contentOf, Option.filter, Method.isDefined, h]

/-- A dispatch runs what a lookup finds. -/
theorem dispatch_apply {c : Context} {name : String} {args : List Value} {caller : Option ModuleId}
    {w : World σ} (hm : metaclassOf x w.model = (m, w.model)) :
    dispatch run c caller x name args w =
      callFound run (w.model.lookupMethod m name (some c)).defined? caller x name args w := by
  have hmetaclass : (liftM (metaclassOf x) : Act σ ModuleId) w = .ok m w := by
    show EStateM.Result.ok (metaclassOf x w.model).1
      { w with model := (metaclassOf x w.model).2 } = _
    rw [hm]
  unfold dispatch
  rw [Act.bind_of_ok hmetaclass]
  rfl

/-- A site that gives the current method calls what a call under its context would. -/
theorem callAtSite_of_current (hm : metaclassOf x u = (m, u))
    (h : contentOf r.method = contentOf (u.findMethod m s.name (some s.context))) {w : World σ}
    (hw : w.model = u) (args : List Value) :
    callAtSite run s r x args w =
      callPublic (fun f => run { f with stamp := r.defined?.bind Method.stamp }) s.context x s.name
        args w := by
  subst hw
  have hdefined : contentOf r.defined? =
      contentOf (w.model.lookupMethod m s.name (some s.context)).defined? := by
    rw [MethodResult.defined?, MethodResult.defined?, contentOf_defined, contentOf_defined, h]
    rfl
  rw [callPublic, dispatch_apply _ hm, callAtSite, callFound_of_content run hdefined]

end Calls

/-! ### Sites after a history -/

/-- A site that remembers guarded lookups only gives the current method, and calls it as any other
call under its context does.  Once it remembers one more lookup, it stays so for all receivers
exactly when that lookup was guarded too. -/
theorem served_current_iff (h : Served u s) (hx : x.Known u) :
    s.Current x u ∧
    (∀ (σ : Type) (run : RunMethod σ) (w : World σ) (args : List Value),
      w.model = (s.lookup x u).2 →
      Invocation.callAtSite run (s.lookup x u).1.2 (s.lookup x u).1.1 x args w =
        Invocation.callPublic
          (fun f => run { f with stamp := (s.lookup x u).1.1.defined?.bind Method.stamp })
          s.context x s.name args w) ∧
    ((s.lookup x u).1.2.misses = s.misses + 1 → (s.lookup x u).1.2.megamorphic = false →
      ((∀ v y, Leads (s.lookup x u).2 v → y.Known v → (s.lookup x u).1.2.Current y v) ↔
        (s.lookup x u).2.WellGuarded (metaclassOf x u).1 s.name s.context)) := by
  have hu := h.reachable.wellFormed
  have hc := h.context_known
  have hcurrent := current_of_backed h.backed hu hx
  obtain ⟨hname, hcontext⟩ := lookup_name s x u
  refine ⟨hcurrent, fun σ run w args hw => ?_, fun hmiss hroom => ⟨fun hall => ?_, fun hg => ?_⟩⟩
  · rw [Current, metaclassOf_lookup] at hcurrent
    rw [← hname, ← hcontext] at hcurrent ⊢
    exact callAtSite_of_current run (metaclassOf_lookup s x u) hcurrent hw args
  · by_cases hg : (s.lookup x u).2.WellGuarded (metaclassOf x u).1 s.name s.context
    · exact hg
    · obtain ⟨v, hv, hstale⟩ := exists_not_current hu hc hx hmiss hroom hg
      have hle := Nat.le_trans ((leads_lookup hu s hx).nextId hu)
        (hv.nextId ((leads_lookup hu s hx).wellFormed hu))
      exact absurd (hall v x hv (Value.known_mono hle hx)) hstale
  · intro v y hv hy
    have hnew : s.RemembersGuarded x u := by
      intro e he
      cases hcached : s.cached? (metaclassOf x u).2 (metaclassOf x u).1 with
      | some r =>
        rw [lookup_of_hit hcached] at he
        exact .inl he
      | none =>
        obtain ⟨r, w, hs, -⟩ := lookup_of_miss hcached
        rw [hs] at he
        rcases mem_remember he with he | rfl
        · exact .inl he
        · exact .inr hg
    have hlater := (h.asked hx hnew).changed hv
    exact current_of_backed hlater.backed hlater.reachable.wellFormed hy

/-- A class with a method, and an object of it. -/
def attended : Universe :=
  (create {}).afterAll [.newClass none, .addMethod ⟨12⟩ (.ofReader "f" "@f" ⟨12⟩ .pub),
    .newObject ⟨12⟩]

/-- What a site that has called the method remembers is given up when the method changes. -/
theorem current_after_redefinition :
    ((make attended "f" .toplevel).lookup (.object ⟨13⟩) attended).1.2.Current (.object ⟨13⟩)
      (((make attended "f" .toplevel).lookup (.object ⟨13⟩) attended).2.after
        (.addMethod ⟨12⟩ (.ofReader "f" "@f" ⟨12⟩ .priv))) := by
  have hu : Reachable attended := (Reachable.create {}).afterAll _
    ⟨nofun, ⟨by decide +kernel, Method.known_ofReader (by decide +kernel) _ _ _⟩,
      (by decide +kernel : Universe.knows _ _), trivial⟩
  have hx : (Value.object ⟨13⟩).Known attended := (by decide +kernel : attended.knowsObject ⟨13⟩)
  have hguarded : (make attended "f" .toplevel).RemembersGuarded (.object ⟨13⟩) attended := by
    refine fun e he => .inr ?_
    have hm : ∀ k ∈ ((make attended "f" .toplevel).lookup (.object ⟨13⟩) attended).1.2.entries.map
        CacheEntry.metaclass, k = ⟨12⟩ := by decide +kernel
    rw [hm _ (List.mem_map_of_mem he)]
    decide +kernel
  have hasked := (Served.made hu (Context.known_toplevel _) "f").asked hx hguarded
  have hle := (leads_lookup hu.wellFormed (make attended "f" .toplevel) hx).nextId hu.wellFormed
  have hk : attended.knows ⟨12⟩ := by decide +kernel
  have hmove : Leads ((make attended "f" .toplevel).lookup (.object ⟨13⟩) attended).2
      (((make attended "f" .toplevel).lookup (.object ⟨13⟩) attended).2.after
        (.addMethod ⟨12⟩ (.ofReader "f" "@f" ⟨12⟩ .priv))) :=
    .of_move ⟨knows_mono hle hk, Method.known_ofReader (knows_mono hle hk) _ _ _⟩
  have hlater := hmove.nextId hasked.reachable.wellFormed
  exact (served_current_iff (hasked.changed hmove)
    (Value.known_mono hlater (Value.known_mono hle hx))).1

/-- A class with a module prepended, and one more module, both with the method of a name. -/
def crowded : Universe :=
  (create {}).afterAll [.newClass none, .newModule, .newModule,
    .addMethod ⟨13⟩ (.ofReader "f" "@f" ⟨13⟩ .pub), .addMethod ⟨14⟩ (.ofReader "f" "@f" ⟨14⟩ .priv),
    .prependModule ⟨12⟩ ⟨13⟩, .newObject ⟨12⟩]

/-- A site that found the method in a prepended module does not note that another one is prepended
in front of that. -/
theorem not_current_of_second_prepend : Reachable crowded ∧ (Value.object ⟨15⟩).Known crowded ∧
    Leads ((make crowded "f" .toplevel).lookup (.object ⟨15⟩) crowded).2
      (((make crowded "f" .toplevel).lookup (.object ⟨15⟩) crowded).2.after
        (.prependModule ⟨12⟩ ⟨14⟩)) ∧
    ¬((make crowded "f" .toplevel).lookup (.object ⟨15⟩) crowded).1.2.Current (.object ⟨15⟩)
      (((make crowded "f" .toplevel).lookup (.object ⟨15⟩) crowded).2.after
        (.prependModule ⟨12⟩ ⟨14⟩)) := by
  have hu : Reachable crowded := by
    refine (Reachable.create {}).afterAll _ ⟨nofun, trivial, trivial,
      ⟨?_, Method.known_ofReader ?_ _ _ _⟩, ⟨?_, Method.known_ofReader ?_ _ _ _⟩, ⟨?_, ?_⟩,
      (?_ : Universe.knows _ _), trivial⟩ <;> decide +kernel
  have hx : (Value.object ⟨15⟩).Known crowded := (by decide +kernel : crowded.knowsObject ⟨15⟩)
  have hle := (leads_lookup hu.wellFormed (make crowded "f" .toplevel) hx).nextId hu.wellFormed
  refine ⟨hu, hx, .of_move ⟨?_, ?_⟩, fun h => ?_⟩
  · exact knows_mono hle (by decide +kernel)
  · exact knows_mono hle (by decide +kernel)
  · have hv := congrArg (Option.map fun f => f.visibility) h
    revert hv
    decide +kernel

end CallSite

end ObjectModel
