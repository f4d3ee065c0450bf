import Mathlib.Data.List.Basic
import ObjectModel.Proofs.Layout

/-!
# Weaving in order

Weaving one list of modules into another moves nothing that is there already, and what is new goes
behind the last module met.  So a list is woven into an included part in its order, if what the two
share is in one order before.  A list that is woven into a prepended part may repeat modules, and
the last module met need not be the newest one then.

* `SameOrder`: two lists have what they share in one order;
* `sublist_weaveIncluded`, `sublist_weavePrepended`: what is there keeps its order;
* `weaveIncluded_eq_self`, `weavePrepended_eq_self`: weaving in what is there changes nothing;
* `Weave.Aligned`, `sameOrder_weaveIncluded`: weaving into an included part keeps the order;
* `Detours`: a new module is met right behind one that is met again;
* `Weave.Tracks`, `sameOrder_weavePrepended`: weaving into a prepended part keeps the order exactly
  if there is no detour.
-/

namespace ObjectModel

/-! ### One order -/

section Order

variable {α : Type} {a : α}

theorem not_mem_of_nodup_middle {pre post : List α} (h : (pre ++ a :: post).Nodup) : a ∉ pre :=
  fun ha => (List.nodup_cons.1 (List.nodup_middle.1 h)).1 (List.mem_append_left post ha)

variable [DecidableEq α] {l ms : List α}

/-- What the two lists share comes in one order. -/
def SameOrder (l l' : List α) : Prop := l.filter (· ∈ l') = l'.filter (· ∈ l)

instance (l l' : List α) : Decidable (SameOrder l l') :=
  inferInstanceAs (Decidable (_ = _))

/-- An element is at its first place in a list, behind those before it. -/
theorem idxOf_middle {pre post : List α} (h : a ∉ pre) :
    (pre ++ a :: post).idxOf a = pre.length := by
  rw [List.idxOf_append_of_notMem h, List.idxOf_cons_self, Nat.add_zero]

theorem take_idxOf_middle {pre post : List α} (h : a ∉ pre) :
    (pre ++ a :: post).take ((pre ++ a :: post).idxOf a + 1) = pre ++ [a] := by
  rw [idxOf_middle h, List.append_cons, List.take_left' (by simp)]

theorem drop_idxOf_middle {pre post : List α} (h : a ∉ pre) :
    (pre ++ a :: post).drop ((pre ++ a :: post).idxOf a + 1) = post := by
  rw [idxOf_middle h, List.append_cons, List.drop_left' (by simp)]

/-- Lists with a common element are in one order exactly if what is before it in both of them is,
and what is behind it. -/
theorem sameOrder_middle {pre post pre' post' : List α} (hpre : a ∉ pre) (hpost : a ∉ post) :
    SameOrder (pre ++ a :: post) (pre' ++ a :: post') ↔
      pre.filter (· ∈ pre' ++ a :: post') = pre'.filter (· ∈ pre ++ a :: post) ∧
        post.filter (· ∈ pre' ++ a :: post') = post'.filter (· ∈ pre ++ a :: post) := by
  have hout {ms : List α} (hms : a ∉ ms) : a ∉ ms.filter (· ∈ pre' ++ a :: post') :=
    fun hin => hms (List.mem_of_mem_filter hin)
  rw [SameOrder, List.filter_append, List.filter_append, List.filter_cons_of_pos (by simp),
    List.filter_cons_of_pos (by simp),
    List.append_cons_inj_of_notMem (hout hpre) (hout hpost), eq_self_iff_true, true_and]

/-- What no list shares with another does not matter to their order. -/
theorem sameOrder_filter {p : α → Bool} (h : ∀ a ∈ l, p a = true) :
    SameOrder l (ms.filter p) ↔ SameOrder l ms := by
  have hleft : l.filter (· ∈ ms.filter p) = l.filter (· ∈ ms) :=
    List.filter_congr fun a ha => by simp [h a ha]
  have hright : (ms.filter p).filter (· ∈ l) = ms.filter (· ∈ l) := by
    rw [List.filter_filter]
    refine List.filter_congr fun a _ => ?_
    by_cases ha : a ∈ l
    · simp [ha, h a ha]
    · simp [ha]
  rw [SameOrder, SameOrder, hleft, hright]

end Order

/-! ### What is there -/

section Weaving

variable {skip : ModuleId → Bool} {w : Weave} {k m : ModuleId}
  {included prepended ms done todo : List ModuleId}

namespace Weave

theorem sublist_flush (w : Weave) : w.modules.Sublist w.flush.modules := by
  calc w.modules.Sublist (w.modules.take w.position ++ w.modules.drop w.position) := by
        rw [List.take_append_drop]
    _ |>.Sublist w.flush.modules := (List.sublist_append_left _ w.waiting).append_right _

theorem sublist_addIncluded (skip : ModuleId → Bool) (w : Weave) (m : ModuleId) :
    w.modules.Sublist (w.addIncluded skip m).modules := by
  unfold addIncluded
  split
  · exact w.sublist_flush
  · split <;> exact .refl _

theorem sublist_addPrepended (skip : ModuleId → Bool) (w : Weave) (m : ModuleId) :
    w.modules.Sublist (w.addPrepended skip m).modules := by
  unfold addPrepended
  split
  · exact .refl _
  · split
    · exact .refl _
    · exact sublist_flush { w with waiting := [m] }

theorem sublist_foldl_addPrepended (skip : ModuleId → Bool) (ms : List ModuleId) (w : Weave) :
    w.modules.Sublist (ms.foldl (addPrepended skip) w).modules := by
  induction ms generalizing w with
  | nil => exact .refl _
  | cons m ms ih => exact (w.sublist_addPrepended skip m).trans (ih _)

end Weave

/-- Weaving into an included part leaves what is there in its order. -/
theorem sublist_weaveIncluded (skip : ModuleId → Bool) (included ms : List ModuleId) :
    included.Sublist (weaveIncluded skip included ms) := by
  suffices h : ∀ w : Weave, w.modules.Sublist (ms.foldl (Weave.addIncluded skip) w).modules from
    (h { modules := included }).trans (Weave.sublist_flush _)
  induction ms with
  | nil => exact fun w => .refl _
  | cons m ms ih => exact fun w => (w.sublist_addIncluded skip m).trans (ih _)

/-- So does weaving into a prepended part. -/
theorem sublist_weavePrepended (skip : ModuleId → Bool) (prepended ms : List ModuleId) :
    prepended.Sublist (weavePrepended skip prepended ms) :=
  Weave.sublist_foldl_addPrepended skip ms { modules := prepended }

/-- What is in an included part, or skipped, is woven into it without a change. -/
theorem weaveIncluded_eq_self (h : ∀ k ∈ ms, k ∈ included ∨ skip k = true) :
    weaveIncluded skip included ms = included := by
  suffices hfold : ∀ w : Weave, w.modules = included → w.waiting = [] →
      (ms.foldl (Weave.addIncluded skip) w).flush.modules = included from hfold _ rfl rfl
  have hflush (w : Weave) (hw : w.modules = included) (hwait : w.waiting = []) :
      w.flush.modules = included := by
    rw [Weave.flush, hwait, List.append_nil, List.take_append_drop, hw]
  induction ms with
  | nil => exact fun w hw hwait => hflush w hw hwait
  | cons m ms ih =>
    obtain ⟨hm, hms⟩ := List.forall_mem_cons.1 h
    intro w hw hwait
    refine ih hms _ ?_ ?_
    · unfold Weave.addIncluded
      split
      · exact hflush w hw hwait
      · split <;> exact hw
    · unfold Weave.addIncluded
      split
      · rfl
      · next hout =>
        rw [hw] at hout
        rw [if_pos (hm.resolve_left hout)]
        exact hwait

/-- What is in a prepended part, or skipped, is woven into it without a change. -/
theorem weavePrepended_eq_self (h : ∀ k ∈ ms, k ∈ prepended ∨ skip k = true) :
    weavePrepended skip prepended ms = prepended := by
  suffices hfold : ∀ w : Weave, w.modules = prepended →
      (ms.foldl (Weave.addPrepended skip) w).modules = prepended from hfold _ rfl
  induction ms with
  | nil => exact fun w hw => hw
  | cons m ms ih =>
    obtain ⟨hm, hms⟩ := List.forall_mem_cons.1 h
    intro w hw
    refine ih hms _ ?_
    unfold Weave.addPrepended
    split
    · exact hw
    · next hout =>
      rw [hw] at hout
      rw [if_pos (hm.resolve_left hout)]
      exact hw

/-! ### Keeping the order -/

/-- Between two modules to add: what was met and goes in stands in order before the position, or
waits to go there; behind it stands in order what is to be met yet. -/
structure Weave.Aligned (skip : ModuleId → Bool) (included done todo : List ModuleId) (w : Weave) :
    Prop where
  front : (w.modules.take w.position).filter (· ∈ done ++ todo) ++ w.waiting =
    done.filter fun k => k ∈ included ∨ skip k = false
  back : (w.modules.drop w.position).filter (· ∈ done ++ todo) = todo.filter (· ∈ included)

namespace Weave

/-- What waits was met. -/
theorem Aligned.filter_front (h : w.Aligned skip included done todo) :
    (w.modules.take w.position ++ w.waiting).filter (· ∈ done ++ todo) =
      done.filter fun k => k ∈ included ∨ skip k = false := by
  have hwait : w.waiting.filter (· ∈ done ++ todo) = w.waiting := by
    refine List.filter_eq_self.2 fun k hk => decide_eq_true (List.mem_append_left _ ?_)
    have hmet := List.mem_append_right ((w.modules.take w.position).filter (· ∈ done ++ todo)) hk
    rw [h.front] at hmet
    exact (List.mem_filter.1 hmet).1
  rw [List.filter_append, hwait, h.front]

/-- A module that is met next is there if it was there at first. -/
theorem Aligned.mem_iff (h : w.Aligned skip included done (m :: todo))
    (hms : (done ++ m :: todo).Nodup) : m ∈ w.modules ↔ m ∈ included := by
  have hfront : m ∉ w.modules.take w.position := fun hin => by
    have hmet : m ∈ (w.modules.take w.position).filter (· ∈ done ++ m :: todo) ++ w.waiting :=
      List.mem_append_left _ (List.mem_filter.2 ⟨hin, by simp⟩)
    rw [h.front] at hmet
    exact not_mem_of_nodup_middle hms (List.mem_filter.1 hmet).1
  have hback : m ∈ w.modules.drop w.position ↔ m ∈ included := by
    have := congrArg (m ∈ ·) h.back
    simpa using this
  have hsplit : m ∈ w.modules ↔ m ∈ w.modules.take w.position ∨ m ∈ w.modules.drop w.position := by
    rw [← List.mem_append, List.take_append_drop]
  rw [hsplit, hback, or_iff_right hfront]

theorem Aligned.add (h : w.Aligned skip included done (m :: todo))
    (hms : (done ++ m :: todo).Nodup) :
    (w.addIncluded skip m).Aligned skip included (done ++ [m]) todo := by
  have hall : done ++ [m] ++ todo = done ++ m :: todo := List.append_cons done m todo |>.symm
  have hmem := h.mem_iff hms
  unfold addIncluded
  split
  · next hin =>
    have hinc := hmem.1 hin
    -- the module stands behind the position, and nothing that is met comes between
    have hback := h.back
    rw [List.filter_cons_of_pos (by simpa using hinc)] at hback
    obtain ⟨between, behind, hdrop, hbetween, -, hbehind⟩ := List.filter_eq_cons_iff.1 hback
    have hnone : between.filter (· ∈ done ++ m :: todo) = [] :=
      List.filter_eq_nil_iff.2 hbetween
    have hflush : w.flush.modules =
        (w.modules.take w.position ++ w.waiting ++ between) ++ m :: behind := by
      rw [flush, hdrop, List.append_assoc _ between]
    have hfront : (w.modules.take w.position ++ w.waiting ++ between).filter
        (· ∈ done ++ m :: todo) = done.filter fun k => k ∈ included ∨ skip k = false := by
      rw [List.filter_append, hnone, List.append_nil, h.filter_front]
    have hfirst : m ∉ w.modules.take w.position ++ w.waiting ++ between := fun hin => by
      have hmet : m ∈ (w.modules.take w.position ++ w.waiting ++ between).filter
          (· ∈ done ++ m :: todo) := List.mem_filter.2 ⟨hin, by simp⟩
      rw [hfront] at hmet
      exact not_mem_of_nodup_middle hms (List.mem_filter.1 hmet).1
    constructor
    · show (w.flush.modules.take (w.flush.modules.idxOf m + 1)).filter _ ++ [] = _
      rw [hflush, take_idxOf_middle hfirst, hall, List.filter_append, hfront, List.filter_append,
        List.filter_cons_of_pos (by simp), List.filter_cons_of_pos (by simp [hinc]),
        List.append_nil]
      rfl
    · show (w.flush.modules.drop (w.flush.modules.idxOf m + 1)).filter _ = _
      rw [hflush, drop_idxOf_middle hfirst, hall, hbehind]
  · next hout =>
    have hinc : m ∉ included := fun hin => hout (hmem.2 hin)
    have hback : (w.modules.drop w.position).filter (· ∈ done ++ m :: todo) =
        todo.filter (· ∈ included) := by
      rw [h.back, List.filter_cons_of_neg (by simpa using hinc)]
    split
    · next hs =>
      constructor
      · rw [hall, h.front, List.filter_append, List.filter_cons_of_neg (by simp [hinc, hs])]
        simp
      · rw [hall, hback]
    · next hs =>
      constructor
      · rw [hall, ← List.append_assoc, h.front, List.filter_append,
          List.filter_cons_of_pos (by simp [hs])]
        rfl
      · rw [hall, hback]

/-- In the end all was met, and what goes in stands or waits in order. -/
theorem Aligned.foldl (h : w.Aligned skip included done todo) (hms : (done ++ todo).Nodup) :
    (todo.foldl (addIncluded skip) w).Aligned skip included (done ++ todo) [] := by
  induction todo generalizing w done with
  | nil => rwa [List.append_nil]
  | cons m todo ih =>
    have hall := List.append_cons done m todo
    rw [hall]
    exact ih (h.add hms) (hall ▸ hms)

end Weave

/-- Modules woven into an included part that they share an order with share one with all of it. -/
theorem sameOrder_weaveIncluded (h : SameOrder included ms) (hms : ms.Nodup) :
    SameOrder (weaveIncluded skip included ms) ms := by
  have hstart : ({ modules := included } : Weave).Aligned skip included [] ms := ⟨rfl, h⟩
  have hend := hstart.foldl hms
  have hback := hend.back
  have hfront := hend.filter_front
  rw [List.nil_append, List.append_nil] at hback hfront
  have hwoven : ms.filter (· ∈ weaveIncluded skip included ms) =
      ms.filter fun k => k ∈ included ∨ skip k = false :=
    List.filter_congr fun k hk => decide_eq_decide.2 (by rw [mem_weaveIncluded]; simp [hk])
  rw [SameOrder, hwoven, weaveIncluded, Weave.flush, List.filter_append, hfront, hback]
  exact List.append_nil _

/-! ### Losing the order

A prepended part is woven along a list that may repeat modules.  What is new goes right behind the
module that was met last, also where that one was met before. -/

/-- Ahead is a module that is not there yet, right behind one that is met again: one that is not the
newest of those that were met. -/
def Detours (prepended : List ModuleId) : (met ahead : List ModuleId) → Prop
  | _, [] => False
  | met, k :: ahead =>
    (k ∉ prepended ∧ k ∉ met ∧ met.getLast? ≠ met.eraseDups.getLast?) ∨
      Detours prepended (met ++ [k]) ahead

/-- Nothing is met again in a list without repetitions. -/
theorem not_detours_of_nodup {met ahead : List ModuleId} (h : (met ++ ahead).Nodup) :
    ¬Detours prepended met ahead := by
  induction ahead generalizing met with
  | nil => exact id
  | cons k ahead ih =>
    rintro (⟨-, -, hne⟩ | hlater)
    · exact hne (by rw [Universe.eraseDups_of_nodup (h.sublist (List.sublist_append_left _ _))])
    · exact ih (by rwa [← List.append_cons]) hlater

/-- Where a prepended part stands after some modules were met. -/
structure Weave.Tracks (prepended met : List ModuleId) (w : Weave) : Prop where
  nodup : w.modules.Nodup
  mem : ∀ k, k ∈ w.modules ↔ k ∈ prepended ∨ k ∈ met
  position : w.position = met.getLast?.elim 0 fun l => w.modules.idxOf l + 1

namespace Weave

variable {met ahead : List ModuleId}

theorem addPrepended_of_mem (h : k ∈ w.modules) :
    w.addPrepended skip k = { w with position := w.modules.idxOf k + 1 } := by
  rw [addPrepended, if_pos h]

theorem addPrepended_of_not_mem (h : k ∉ w.modules) (hs : skip k = false) :
    w.addPrepended skip k = {
      modules := w.modules.take w.position ++ k :: w.modules.drop w.position
      position := w.position + 1 } := by
  rw [addPrepended, if_neg h, hs, if_neg Bool.false_ne_true, flush]
  simp

/-- What stands before the position ends with the module that was met last. -/
theorem Tracks.split (h : w.Tracks prepended met) {l : ModuleId} (hl : met.getLast? = some l) :
    ∃ before behind, w.modules = before ++ l :: behind ∧
      w.modules.take w.position = before ++ [l] ∧ l ∉ before ∧ l ∉ behind := by
  have hmem : l ∈ w.modules := (h.mem l).2 (.inr (List.mem_of_getLast? hl))
  obtain ⟨before, behind, hsplit⟩ := List.append_of_mem hmem
  have hnodup := List.nodup_cons.1 (List.nodup_middle.1 (hsplit ▸ h.nodup))
  obtain ⟨hbefore, hbehind⟩ := not_or.1 (mt List.mem_append.2 hnodup.1)
  refine ⟨before, behind, hsplit, ?_, hbefore, hbehind⟩
  rw [h.position, hl, Option.elim_some, hsplit, take_idxOf_middle hbefore]

theorem Tracks.add (h : w.Tracks prepended met) (k : ModuleId) :
    (w.addPrepended (fun _ => false) k).Tracks prepended (met ++ [k]) := by
  refine ⟨nodup_addPrepended h.nodup, fun o => ?_, ?_⟩
  · rw [mem_addPrepended, h.mem, List.mem_append, List.mem_singleton, and_iff_left rfl, or_assoc]
  · rw [List.getLast?_concat, Option.elim_some]
    by_cases hk : k ∈ w.modules
    · rw [addPrepended_of_mem hk]
    · have hle : w.position ≤ w.modules.length := by
        rw [h.position]
        cases hl : met.getLast? with
        | none => exact Nat.zero_le _
        | some l => exact List.idxOf_lt_length_of_mem ((h.mem l).2 (.inr (List.mem_of_getLast? hl)))
      have hout : k ∉ w.modules.take w.position := fun hin => hk (List.mem_of_mem_take hin)
      rw [addPrepended_of_not_mem hk rfl, idxOf_middle hout, List.length_take_of_le hle]

/-- What was met is there. -/
theorem Tracks.mem_of_met (h : w.Tracks prepended met) (hk : k ∈ met) : k ∈ w.modules :=
  (h.mem k).2 (.inr hk)

/-- The modules met so far stand in order up to the position exactly if the last one of them is the
newest one. -/
theorem Tracks.filter_front {rest : List ModuleId} (h : w.Tracks prepended met)
    (ho : SameOrder w.modules (met.eraseDups ++ rest)) :
    (w.modules.take w.position).filter (· ∈ met.eraseDups ++ rest) = met.eraseDups ↔
      met.getLast? = met.eraseDups.getLast? := by
  cases hl : met.getLast? with
  | none =>
    obtain rfl : met = [] := List.getLast?_eq_none_iff.1 hl
    have hpos : w.position = 0 := h.position
    rw [hpos]
    exact iff_of_true rfl rfl
  | some l =>
    obtain ⟨before, behind, hsplit, hfront, hbefore, hbehind⟩ := h.split hl
    have hmet : l ∈ met.eraseDups := List.mem_eraseDups.2 (List.mem_of_getLast? hl)
    have hfilter : (w.modules.take w.position).filter (· ∈ met.eraseDups ++ rest) =
        before.filter (· ∈ met.eraseDups ++ rest) ++ [l] := by
      rw [hfront, List.filter_append, List.filter_cons_of_pos (by simp [hmet])]
      rfl
    rw [hfilter]
    constructor
    · intro he
      rw [← he, List.getLast?_concat]
    · intro hlast
      obtain ⟨older, holder⟩ := List.getLast?_eq_some_iff.1 hlast.symm
      have hthere : older.filter (· ∈ w.modules) = older := by
        refine List.filter_eq_self.2 fun o ho => decide_eq_true (h.mem_of_met ?_)
        exact List.mem_eraseDups.1 (holder ▸ List.mem_append_left [l] ho)
      rw [holder, List.append_assoc, List.singleton_append] at ho ⊢
      rw [hsplit] at ho hthere
      rw [((sameOrder_middle hbefore hbehind).1 ho).1, hthere]

/-- A module that is put in keeps the order exactly if it goes behind the newest one. -/
theorem Tracks.sameOrder_add {rest : List ModuleId} (h : w.Tracks prepended met)
    (hk : k ∉ w.modules) (hnew : (met.eraseDups ++ k :: rest).Nodup) :
    SameOrder (w.addPrepended (fun _ => false) k).modules (met.eraseDups ++ k :: rest) ↔
      SameOrder w.modules (met.eraseDups ++ k :: rest) ∧
        met.getLast? = met.eraseDups.getLast? := by
  have hsplit := List.take_append_drop w.position w.modules
  have hmem (o : ModuleId) : o ∈ w.modules.take w.position ++ k :: w.modules.drop w.position ↔
      o = k ∨ o ∈ w.modules := by
    conv_rhs => rw [← hsplit]
    simp only [List.mem_append, List.mem_cons]
    exact or_left_comm
  have hmet (o : ModuleId) (ho : o ∈ met.eraseDups) : o ∈ w.modules :=
    h.mem_of_met (List.mem_eraseDups.1 ho)
  have hbefore : met.eraseDups.filter
      (· ∈ w.modules.take w.position ++ k :: w.modules.drop w.position) = met.eraseDups :=
    List.filter_eq_self.2 fun o ho => decide_eq_true ((hmem o).2 (.inr (hmet o ho)))
  have hbehind : rest.filter (· ∈ w.modules.take w.position ++ k :: w.modules.drop w.position) =
      rest.filter (· ∈ w.modules) := by
    have hrest : k ∉ rest := (List.nodup_cons.1 hnew.of_append_right).1
    refine List.filter_congr fun o ho => decide_eq_decide.2 ((hmem o).trans (or_iff_right ?_))
    exact fun he => hrest (he ▸ ho)
  have hold : SameOrder w.modules (met.eraseDups ++ k :: rest) ↔
      (w.modules.take w.position).filter (· ∈ met.eraseDups ++ k :: rest) ++
        (w.modules.drop w.position).filter (· ∈ met.eraseDups ++ k :: rest) =
          met.eraseDups ++ rest.filter (· ∈ w.modules) := by
    have hthere : (met.eraseDups ++ k :: rest).filter (· ∈ w.modules) =
        met.eraseDups ++ rest.filter (· ∈ w.modules) := by
      rw [List.filter_append, List.filter_cons_of_neg (by simpa using hk),
        List.filter_eq_self.2 fun o ho => decide_eq_true (hmet o ho)]
    rw [SameOrder, ← List.filter_append, hsplit, hthere]
  -- both lists fall apart at the new module
  rw [addPrepended_of_not_mem hk rfl, sameOrder_middle (fun hin => hk (List.mem_of_mem_take hin))
    (fun hin => hk (List.mem_of_mem_drop hin)), hbefore, hbehind]
  constructor
  · rintro ⟨hfront, hback⟩
    have ho := hold.2 (by rw [hfront, hback])
    exact ⟨ho, (h.filter_front ho).1 hfront⟩
  · rintro ⟨ho, hlast⟩
    have hfront := (h.filter_front ho).2 hlast
    have hboth := hold.1 ho
    rw [hfront] at hboth
    exact ⟨hfront, List.append_cancel_left hboth⟩

/-- A prepended part ends in order exactly if it is in order, and no detour is ahead. -/
theorem Tracks.sameOrder_foldl (h : w.Tracks prepended met) :
    SameOrder (ahead.foldl (addPrepended fun _ => false) w).modules (met ++ ahead).eraseDups ↔
      SameOrder w.modules (met ++ ahead).eraseDups ∧ ¬Detours prepended met ahead := by
  induction ahead generalizing w met with
  | nil => exact (and_iff_left id).symm
  | cons k ahead ih =>
    rw [List.foldl_cons, List.append_cons, ih (h.add k), Detours, not_or, ← and_assoc]
    refine and_congr_left fun _ => ?_
    by_cases hk : k ∈ w.modules
    · rw [addPrepended_of_mem hk, and_iff_left]
      rintro ⟨hp, hm, -⟩
      exact ((h.mem k).1 hk).elim hp hm
    · obtain ⟨hp, hm⟩ := not_or.1 (mt (h.mem k).2 hk)
      obtain ⟨rest, hrest⟩ : ∃ rest, (met ++ [k] ++ ahead).eraseDups = met.eraseDups ++ k :: rest :=
        ⟨_, by rw [List.eraseDups_append, eraseDups_concat hm, List.append_assoc]; rfl⟩
      have hnodup := nodup_eraseDups (met ++ [k] ++ ahead)
      rw [hrest] at hnodup ⊢
      rw [h.sameOrder_add hk hnodup]
      simp [hp, hm]

end Weave

/-- Modules woven into a prepended part that is in their order leave it in their order exactly if
they make no detour. -/
theorem sameOrder_weavePrepended (h : prepended.Nodup) :
    SameOrder (weavePrepended (fun _ => false) prepended ms) ms.eraseDups ↔
      SameOrder prepended ms.eraseDups ∧ ¬Detours prepended [] ms := by
  have hstart : ({ modules := prepended } : Weave).Tracks prepended [] := ⟨h, by simp, rfl⟩
  exact hstart.sameOrder_foldl

/-- What is skipped is not met. -/
theorem weavePrepended_filter (h : ∀ k ∈ prepended, skip k = false) :
    weavePrepended skip prepended ms =
      weavePrepended (fun _ => false) prepended (ms.filter fun k => !skip k) := by
  suffices hfold : ∀ w : Weave, (∀ k ∈ w.modules, skip k = false) →
      ms.foldl (Weave.addPrepended skip) w =
        (ms.filter fun k => !skip k).foldl (Weave.addPrepended fun _ => false) w from
    congrArg Weave.modules (hfold { modules := prepended } h)
  induction ms with
  | nil => exact fun w hw => rfl
  | cons m ms ih =>
    intro w hw
    cases hs : skip m with
    | true =>
      have hout : m ∉ w.modules := fun hin => by simp [hw m hin] at hs
      rw [List.filter_cons_of_neg (by simp [hs]), List.foldl_cons, Weave.addPrepended, if_neg hout,
        if_pos hs, ih w hw]
    | false =>
      rw [List.filter_cons_of_pos (by simp [hs]), List.foldl_cons, List.foldl_cons]
      have hsame : w.addPrepended skip m = w.addPrepended (fun _ => false) m := by
        rw [Weave.addPrepended, Weave.addPrepended, hs]
      rw [← hsame]
      refine ih _ fun k hk => ?_
      rcases Weave.mem_addPrepended.1 hk with hk | ⟨rfl, hs⟩
      · exact hw k hk
      · exact hs

end Weaving

end ObjectModel
