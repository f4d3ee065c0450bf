import ObjectModel.Proofs.Registry
import ObjectModel.Proofs.Search
import ObjectModel.Proofs.Through

/-!
# Order of activation

What a context activates after namespaces were used one after the other, with refinements declared
in between: for each module the refinements of it that these namespaces had when they were used, the
one that first came last ahead of the others, and then what was active before.

* `Context.joined`: one more refinement ahead of those that are active;
* `refinementsFor_activatedBy`: what using a namespace does to the refinements of one module;
* `Uses`: namespaces used one after the other;
* `newlyActivated`: the refinements of a module that came with them;
* `uses_activation_order`: the order in which they are active.
-/

namespace ObjectModel

namespace Context

variable {k m r : ModuleId} {active : List ModuleId} {t : Refinements}

/-- Those active for a module when one more refinement is put ahead, if there is one; a refinement
that is active keeps its place. -/
def joined (active : List ModuleId) : Option ModuleId → List ModuleId
  | none => active
  | some r => if r ∈ active then active else r :: active

@[simp] theorem joined_none (active : List ModuleId) : joined active none = active := rfl

theorem joined_of_mem (h : r ∈ active) : joined active (some r) = active := if_pos h

theorem joined_of_notMem (h : r ∉ active) : joined active (some r) = r :: active := if_neg h

theorem mem_joined_self : r ∈ joined active (some r) := by
  by_cases h : r ∈ active
  · rwa [joined_of_mem h]
  · rw [joined_of_notMem h]
    exact List.mem_cons_self

/-- What is active keeps its order. -/
theorem suffix_joined (active : List ModuleId) (new : Option ModuleId) :
    active <:+ joined active new := by
  cases new with
  | none => exact List.suffix_rfl
  | some r =>
    by_cases h : r ∈ active
    · exact ⟨[], (joined_of_mem h).symm⟩
    · rw [joined_of_notMem h]
      exact List.suffix_cons _ _

/-- The refinements of other modules do not matter. -/
theorem find?_activate (t : Refinements) (m r k : ModuleId) :
    ((activate t m r).find? k).getD [] =
      if m = k then joined ((t.find? k).getD []) (some r) else (t.find? k).getD [] := by
  unfold activate
  dsimp only
  by_cases h : m = k
  · subst h
    by_cases hr : r ∈ (t.find? m).getD []
    · rw [if_pos hr, if_pos rfl, joined_of_mem hr]
    · rw [if_neg hr, if_pos rfl, joined_of_notMem hr, Table.find?_insert_self, Option.getD_some]
  · rw [if_neg h]
    split
    · rfl
    · rw [Table.find?_insert_of_ne _ h]

/-- The entries of a registry are joined in any order, each to those of its own module. -/
theorem find?_foldl_activate {es : List (ModuleId × ModuleId)} (hes : (es.map Prod.fst).Nodup)
    (t : Refinements) (k : ModuleId) :
    ((es.foldl (fun t e => activate t e.1 e.2) t).find? k).getD [] =
      joined ((t.find? k).getD []) (Table.findIn k es) := by
  induction es generalizing t with
  | nil => rfl
  | cons e es ih =>
    rw [List.map_cons, List.nodup_cons] at hes
    rw [List.foldl_cons, ih hes.2, find?_activate, Table.findIn]
    by_cases he : e.1 = k
    · have hnone : Table.findIn k es = none :=
        (Table.findIn_eq_none_iff k es).2 fun hk => hes.1 (he ▸ hk)
      rw [if_pos he, if_pos he, hnone, joined_none]
    · rw [if_neg he, if_neg he]

/-- Nothing changes when all entries of a registry are active. -/
theorem foldl_activate_of_active {es : List (ModuleId × ModuleId)}
    (h : ∀ e ∈ es, e.2 ∈ (t.find? e.1).getD []) :
    es.foldl (fun t e => activate t e.1 e.2) t = t := by
  induction es with
  | nil => rfl
  | cons e es ih =>
    have he : activate t e.1 e.2 = t := if_pos (h e List.mem_cons_self)
    rw [List.foldl_cons, he]
    exact ih fun d hd => h d (List.mem_cons_of_mem e hd)

end Context

namespace Universe

variable {u v w : Universe} {c d e : Context} {n r t : ModuleId}
  {us before after : List (Universe × ModuleId)}

/-! ### Using one namespace -/

theorem refinementsFor_activatedBy (h : d.refinements = u.activatedBy c n) (t : ModuleId) :
    d.refinementsFor t =
      Context.joined (c.refinementsFor t) ((u.module n).refinements.find? t) := by
  rw [Context.refinementsFor, h]
  exact Context.find?_foldl_activate (u.module n).refinements.nodup_keys c.refinements t

/-- Modules that are no classes can be used. -/
theorem activateNamespace_of_namespace (h : (u.module n).isClass = false) (c : Context) :
    ∃ d v, activateNamespace c n u = .ok d v := by
  rw [activateNamespace_apply, if_neg (by rw [h]; exact Bool.false_ne_true)]
  exact ⟨_, _, rfl⟩

/-- The new context differs in the refinements, and no module changes. -/
theorem activated_of_ok (h : activateNamespace c n u = .ok d v) :
    d.refinements = u.activatedBy c n ∧ v.modules = u.modules := by
  rw [activateNamespace_apply] at h
  split at h
  · cases h
  · cases h
    exact ⟨rfl, modules_holdContext _ _⟩

theorem Arises.activateNamespace (ha : Arises u) (h : activateNamespace c n u = .ok d v) :
    Arises v := by
  rw [activateNamespace_apply] at h
  split at h
  · cases h
  · cases h
    have hreported : Arises (u.after (.report (.activatedRefinements (u.display n)))) :=
      ha.after trivial trivial
    have hserial : Change.Keeps Arises freshSerial := fun v hv =>
      show Arises (v.after .drawSerial) from hv.after trivial trivial
    exact Change.keeps_holdContext hserial _ _ hreported

/-- Using a namespace once more at once activates nothing. -/
theorem activateNamespace_again (h : activateNamespace c n u = .ok d v) :
    ∃ e w, activateNamespace d n v = .ok e w ∧ e.refinements = d.refinements := by
  obtain ⟨hd, hmodules⟩ := activated_of_ok h
  have hsame : v.module n = u.module n := module_congr hmodules n
  have hclass : (v.module n).isClass = false := by
    rw [hsame]
    rw [activateNamespace_apply] at h
    split at h
    · cases h
    · next hclass => simpa using hclass
  obtain ⟨e, w, he⟩ := activateNamespace_of_namespace hclass d
  refine ⟨e, w, he, ?_⟩
  rw [(activated_of_ok he).1, activatedBy, hsame]
  refine Context.foldl_activate_of_active fun p hp => ?_
  have hactive := refinementsFor_activatedBy hd p.1
  rw [Table.mem_entries_iff.1 hp, Context.refinementsFor] at hactive
  rw [hactive]
  exact Context.mem_joined_self

/-! ### Using several namespaces -/

/-- From a universe and a context to others by using namespaces, with any moves before and after
each of them; `refine` opens refinements by one of these moves and runs its body by others.  The
list has every namespace with the universe that it was used in. -/
inductive Uses (u : Universe) (c : Context) :
    List (Universe × ModuleId) → Universe → Context → Prop
  | start : Uses u c [] u c
  | went {us : List (Universe × ModuleId)} {v : Universe} {d : Context} (h : Uses u c us v d)
    (mvs : List Move) (hg : v.AllGenuine mvs) : Uses u c us (v.afterAll mvs) d
  | used {us : List (Universe × ModuleId)} {v w : Universe} {d e : Context} (h : Uses u c us v d)
    (n : ModuleId) (he : activateNamespace d n v = .ok e w) : Uses u c (us ++ [(v, n)]) w e

/-- The refinement of a module that a namespace brings where it is used, if it has one by then. -/
def brought (t : ModuleId) (use : Universe × ModuleId) : Option ModuleId :=
  (use.1.module use.2).refinements.find? t

/-- The refinements of a module that namespaces bring and that a context has not active, the last to
come for the first time ahead. -/
def newlyActivated (c : Context) (t : ModuleId) (us : List (Universe × ModuleId)) :
    List ModuleId :=
  (((us.filterMap (brought t)).filter fun r => r ∉ c.refinementsFor t).eraseDups).reverse

theorem mem_newlyActivated :
    r ∈ newlyActivated c t us ↔ (∃ e ∈ us, brought t e = some r) ∧ r ∉ c.refinementsFor t := by
  simp [newlyActivated]

theorem nodup_newlyActivated (c : Context) (t : ModuleId) (us : List (Universe × ModuleId)) :
    (newlyActivated c t us).Nodup :=
  (List.reverse_perm _).nodup_iff.2 (nodup_eraseDups _)

/-- One more namespace puts its refinement ahead, unless that is active. -/
theorem newlyActivated_concat (c : Context) (t : ModuleId) (us : List (Universe × ModuleId))
    (use : Universe × ModuleId) :
    newlyActivated c t (us ++ [use]) ++ c.refinementsFor t =
      Context.joined (newlyActivated c t us ++ c.refinementsFor t) (brought t use) := by
  cases hb : brought t use with
  | none => simp [newlyActivated, hb]
  | some r =>
    have hall : newlyActivated c t (us ++ [use]) =
        ((((us.filterMap (brought t)).filter fun r => r ∉ c.refinementsFor t) ++
          [r].filter fun r => r ∉ c.refinementsFor t).eraseDups).reverse := by
      rw [newlyActivated, List.filterMap_append, List.filterMap_cons_some hb, List.filterMap_nil,
        List.filter_append]
    by_cases hold : r ∈ c.refinementsFor t
    · rw [hall, Context.joined_of_mem (List.mem_append_right _ hold),
        List.filter_cons_of_neg (by simpa using hold), List.filter_nil, List.append_nil]
      rfl
    · rw [hall, List.filter_cons_of_pos (by simpa using hold), List.filter_nil]
      by_cases hnew : r ∈ (us.filterMap (brought t)).filter fun r => r ∉ c.refinementsFor t
      · have hactive : r ∈ newlyActivated c t us :=
          List.mem_reverse.2 (List.mem_eraseDups.2 hnew)
        rw [eraseDups_concat_of_mem hnew,
          Context.joined_of_mem (List.mem_append_left _ hactive)]
        rfl
      · have hactive : r ∉ newlyActivated c t us ++ c.refinementsFor t := by
          rw [List.mem_append, not_or]
          exact ⟨fun h => hnew (List.mem_eraseDups.1 (List.mem_reverse.1 h)), hold⟩
        rw [eraseDups_concat hnew, Context.joined_of_notMem hactive, List.reverse_append]
        rfl

/-- What was active stays so in its order. -/
theorem suffix_newlyActivated (c : Context) (t : ModuleId)
    (before after : List (Universe × ModuleId)) :
    newlyActivated c t before ++ c.refinementsFor t <:+
      newlyActivated c t (before ++ after) ++ c.refinementsFor t := by
  induction after generalizing before with
  | nil => exact ⟨[], by rw [List.append_nil, List.nil_append]⟩
  | cons use after ih =>
    have hstep := Context.suffix_joined (newlyActivated c t before ++ c.refinementsFor t)
      (brought t use)
    rw [← newlyActivated_concat] at hstep
    rw [List.append_cons]
    exact hstep.trans (ih _)

theorem Uses.arises (h : Uses u c us v d) (ha : Arises u) : Arises v := by
  induction h with
  | start => exact ha
  | went _ mvs hg ih => exact ih.afterAll mvs hg
  | used _ n he ih => exact ih.activateNamespace he

/-- What a namespace brings refines the module, and goes on to do so. -/
theorem Uses.kind (h : Uses u c us v d) (ha : Arises u) {use : Universe × ModuleId}
    (huse : use ∈ us) (hb : brought t use = some r) :
    (v.module r).kind = .refinement t use.2 := by
  induction h with
  | start => cases huse
  | went h mvs hg ih => exact kind_afterAll (h.arises ha) hg (ih huse)
  | used h n he ih =>
    rw [module_congr (activated_of_ok he).2]
    rcases List.mem_append.1 huse with huse | huse
    · exact ih huse
    · cases List.mem_singleton.1 huse
      exact (registered_iff (h.arises ha)).1 hb

theorem Uses.refinementsFor (h : Uses u c us v d) (t : ModuleId) :
    d.refinementsFor t = newlyActivated c t us ++ c.refinementsFor t := by
  induction h with
  | start => rfl
  | went _ _ _ ih => exact ih
  | used _ n he ih =>
    rw [refinementsFor_activatedBy (activated_of_ok he).1, ih, newlyActivated_concat]
    rfl

/-- The use that a refinement came with first. -/
theorem exists_first_use (h : ∃ use ∈ us, brought t use = some r) :
    ∃ before use after, us = before ++ use :: after ∧ brought t use = some r ∧
      ∀ e ∈ before, brought t e ≠ some r := by
  induction us with
  | nil => simp at h
  | cons use us ih =>
    by_cases hb : brought t use = some r
    · exact ⟨[], use, us, rfl, hb, nofun⟩
    · obtain ⟨e, he, her⟩ := h
      rcases List.mem_cons.1 he with rfl | he
      · exact absurd her hb
      · obtain ⟨before, first, after, rfl, hfirst, hbefore⟩ := ih ⟨e, he, her⟩
        exact ⟨use :: before, first, after, rfl, hfirst, List.forall_mem_cons.2 ⟨hb, hbefore⟩⟩

/-- Where it came first, a refinement went ahead of all that was active then. -/
theorem newlyActivated_of_first (huse : brought t (w, n) = some r)
    (hbefore : ∀ e ∈ before, brought t e ≠ some r) (hr : r ∉ c.refinementsFor t) :
    newlyActivated c t (before ++ [(w, n)]) ++ c.refinementsFor t =
      r :: (newlyActivated c t before ++ c.refinementsFor t) := by
  rw [newlyActivated_concat, huse, Context.joined_of_notMem]
  rw [List.mem_append, not_or, mem_newlyActivated]
  refine ⟨fun h => ?_, hr⟩
  obtain ⟨⟨e, he, her⟩, -⟩ := h
  exact hbefore e he her

/-- After namespaces were used one after the other, the refinements that are active for a module are
those that came with them, the last to come for the first time ahead, and behind them those that
were active before.  Each of them came with the first use of its namespace that found it there,
ahead of what was active then, and has not been moved by any use since; it refines the module; and
none is there twice.  A namespace can be used again at any time, and using it once more at once
activates just the same. -/
theorem uses_activation_order (ha : Arises u) (h : Uses u c us v d)
    (hc : ∀ t, (c.refinementsFor t).Nodup) :
    (∀ t, d.refinementsFor t = newlyActivated c t us ++ c.refinementsFor t ∧
      (d.refinementsFor t).Nodup ∧
      ∀ r ∈ newlyActivated c t us, ∃ before w n after, us = before ++ (w, n) :: after ∧
        (v.module r).kind = .refinement t n ∧ brought t (w, n) = some r ∧
        (∀ e ∈ before, brought t e ≠ some r) ∧
        r :: (newlyActivated c t before ++ c.refinementsFor t) <:+ d.refinementsFor t) ∧
    ∀ n, (v.module n).isClass = false → ∃ e w, activateNamespace d n v = .ok e w ∧
      (∀ t, e.refinementsFor t =
        Context.joined (d.refinementsFor t) ((v.module n).refinements.find? t)) ∧
      ∃ e' w', activateNamespace e n w = .ok e' w' ∧ e'.refinements = e.refinements := by
  refine ⟨fun t => ⟨h.refinementsFor t, ?_, fun r hr => ?_⟩, fun n hn => ?_⟩
  · rw [h.refinementsFor t, List.nodup_append]
    refine ⟨nodup_newlyActivated c t us, hc t, fun a hnew b hold hab => ?_⟩
    exact (mem_newlyActivated.1 hnew).2 (hab ▸ hold)
  · obtain ⟨hfound, hold⟩ := mem_newlyActivated.1 hr
    obtain ⟨before, ⟨w, n⟩, after, rfl, huse, hbefore⟩ := exists_first_use hfound
    have hkind := h.kind ha (List.mem_append_right _ List.mem_cons_self) huse
    refine ⟨before, w, n, after, rfl, hkind, huse, hbefore, ?_⟩
    have hlater := suffix_newlyActivated c t (before ++ [(w, n)]) after
    rwa [newlyActivated_of_first huse hbefore hold, ← List.append_cons, ← h.refinementsFor t]
      at hlater
  · obtain ⟨e, w, he⟩ := activateNamespace_of_namespace hn d
    exact ⟨e, w, he, fun t => refinementsFor_activatedBy (activated_of_ok he).1 t,
      activateNamespace_again he⟩

/-- A class that two namespaces refine. -/
def refinedByTwo : Universe :=
  (create {}).afterAll [.newClass none, .newModule, .newModule, .openRefinement ⟨13⟩ ⟨12⟩,
    .openRefinement ⟨14⟩ ⟨12⟩]

/-- The namespace that was used first does not come ahead by being used again. -/
theorem activation_order_refinedByTwo : ∃ us v d, Uses refinedByTwo .toplevel us v d ∧
    us.map Prod.snd = [⟨14⟩, ⟨13⟩, ⟨14⟩] ∧ d.refinementsFor ⟨12⟩ = [⟨15⟩, ⟨16⟩] := by
  have hg : (create {}).AllGenuine [.newClass none, .newModule, .newModule,
      .openRefinement ⟨13⟩ ⟨12⟩, .openRefinement ⟨14⟩ ⟨12⟩] := by
    refine ⟨nofun, trivial, trivial, trivial, trivial, trivial, ⟨?_, ?_⟩, trivial, ⟨?_, ?_⟩,
      trivial, trivial⟩ <;> decide +kernel
  have ha : Arises refinedByTwo := ⟨{}, _, hg, rfl⟩
  have hnone : ∀ t, (Context.toplevel.refinementsFor t).Nodup := fun _ => List.nodup_nil
  have hfirst : (refinedByTwo.module ⟨14⟩).isClass = false := by decide +kernel
  have hsecond : (refinedByTwo.module ⟨13⟩).isClass = false := by decide +kernel
  -- using namespaces leaves the modules alone
  obtain ⟨c, u, hc⟩ := activateNamespace_of_namespace hfirst .toplevel
  have hu := (activated_of_ok hc).2
  obtain ⟨d, v, hd⟩ := activateNamespace_of_namespace
    (by rwa [module_congr hu] : (u.module ⟨13⟩).isClass = false) c
  have hv := (activated_of_ok hd).2.trans hu
  obtain ⟨e, w, he⟩ := activateNamespace_of_namespace
    (by rwa [module_congr hv] : (v.module ⟨14⟩).isClass = false) d
  have huses := ((Uses.start.used _ hc).used _ hd).used _ he
  refine ⟨_, w, e, huses, rfl, ?_⟩
  rw [((uses_activation_order ha huses hnone).1 ⟨12⟩).1]
  have hbrought (x : Universe) (hx : x.modules = refinedByTwo.modules) (n : ModuleId) :
      brought ⟨12⟩ (x, n) = (refinedByTwo.module n).refinements.find? ⟨12⟩ := by
    rw [brought, module_congr hx]
  have hfound : [(refinedByTwo, ⟨14⟩), (u, ⟨13⟩), (v, ⟨14⟩)].filterMap (brought ⟨12⟩) =
      [⟨16⟩, ⟨15⟩, ⟨16⟩] := by
    simp only [List.filterMap_cons, List.filterMap_nil, hbrought _ rfl, hbrought u hu,
      hbrought v hv]
    decide +kernel
  simp only [newlyActivated, List.nil_append, List.cons_append, hfound]
  decide +kernel

end Universe

end ObjectModel
