import Mathlib.Data.List.Induction
import ObjectModel.Interner
import ObjectModel.Proofs.Through

/-!
# Numbers of interned strings

What an interner knows after any calls: its two halves are inverse to each other, so that a number
stands for one string for good, and the numbers that were handed out count the distinct strings in
the order in which they came.

* `Call`, `afterAll`, `handedOut`: a sequence of calls, the table that it leaves and the numbers
  that it was answered;
* `firstSeen`: the distinct strings among those that were interned;
* `Inverse`: reading the index and reading the names undo each other; `inverse_intern`: interning
  keeps them so; `Inverse.lookup_intern`, `Inverse.intern_lookup`: strings and numbers read back;
* `Records`: what the table and the answers are after calls; `records_after`;
* `interned_numbers`: what follows for every sequence of calls.
-/

namespace ObjectModel

namespace Interner

variable {t : Interner} {s s' : String} {n : Nat} {calls : List Call}

/-! ### Calls -/

/-- What an interner can be asked. -/
inductive Call
  | intern (s : String)
  | get (s : String)
  | lookup (n : Nat)
  deriving DecidableEq, Repr

/-- The string that a call interns. -/
def Call.interned? : Call → Option String
  | .intern s => some s
  | .get _ => none
  | .lookup _ => none

/-- The table that a call leaves: asking for a number or for a string reads it only. -/
def after (t : Interner) : Call → Interner
  | .intern s => (t.intern s).1
  | .get _ => t
  | .lookup _ => t

/-- The table that calls leave. -/
def afterAll (t : Interner) (calls : List Call) : Interner := calls.foldl after t

/-- The strings that calls intern, each with the number that it is answered. -/
def handedOut (t : Interner) : List Call → List (String × Nat)
  | [] => []
  | .intern s :: calls => (s, (t.intern s).2) :: handedOut (t.intern s).1 calls
  | .get _ :: calls => handedOut t calls
  | .lookup _ :: calls => handedOut t calls

/-- The distinct strings that calls intern, in the order in which they first come. -/
def firstSeen (calls : List Call) : List String := (calls.filterMap Call.interned?).eraseDups

theorem afterAll_concat (t : Interner) (calls : List Call) (c : Call) :
    t.afterAll (calls ++ [c]) = (t.afterAll calls).after c := by
  rw [afterAll, List.foldl_append]
  rfl

theorem handedOut_append (t : Interner) (calls calls' : List Call) :
    t.handedOut (calls ++ calls') = t.handedOut calls ++ (t.afterAll calls).handedOut calls' := by
  induction calls generalizing t with
  | nil => rfl
  | cons c calls ih =>
    cases c with
    | intern s => exact congrArg _ (ih (t.intern s).1)
    | get s => exact ih t
    | lookup n => exact ih t

theorem firstSeen_concat_intern (calls : List Call) (s : String) :
    firstSeen (calls ++ [.intern s]) =
      if s ∈ firstSeen calls then firstSeen calls else firstSeen calls ++ [s] := by
  have h : (calls ++ [Call.intern s]).filterMap Call.interned? =
      calls.filterMap Call.interned? ++ [s] := by
    rw [List.filterMap_append]
    rfl
  rw [firstSeen, h]
  split
  · next hs => exact eraseDups_concat_of_mem (List.mem_eraseDups.1 hs)
  · next hs => exact eraseDups_concat fun hm => hs (List.mem_eraseDups.2 hm)

theorem firstSeen_concat_of_reads (calls : List Call) {c : Call} (h : c.interned? = none) :
    firstSeen (calls ++ [c]) = firstSeen calls := by
  rw [firstSeen, List.filterMap_append, List.filterMap_cons_none h, List.filterMap_nil,
    List.append_nil, firstSeen]

theorem mem_firstSeen : s ∈ firstSeen calls ↔ Call.intern s ∈ calls := by
  rw [firstSeen, List.mem_eraseDups, List.mem_filterMap]
  constructor
  · rintro ⟨c, hc, hcs⟩
    cases c with
    | intern s' => rwa [← Option.some.inj hcs]
    | get _ => exact nomatch hcs
    | lookup _ => exact nomatch hcs
  · exact fun hc => ⟨_, hc, rfl⟩

/-- Earlier calls have no more distinct strings. -/
theorem length_firstSeen_le (calls : List Call) (c : Call) :
    (firstSeen calls).length ≤ (firstSeen (calls ++ [c])).length := by
  cases c with
  | intern s =>
    rw [firstSeen_concat_intern]
    split
    · exact Nat.le_refl _
    · rw [List.length_append]
      exact Nat.le_add_right _ _
  | get s => exact Nat.le_of_eq (by rw [firstSeen_concat_of_reads calls rfl])
  | lookup n => exact Nat.le_of_eq (by rw [firstSeen_concat_of_reads calls rfl])

/-! ### The two halves of a table -/

/-- A string has a number exactly when the number reads as the string. -/
def Inverse (t : Interner) : Prop := ∀ s n, t.get? s = some n ↔ t.lookup? n = some s

theorem inverse_empty : Inverse .empty := fun _ _ => ⟨nofun, nofun⟩

/-- The strings that have a number are those in the list of names. -/
theorem Inverse.get?_eq_none_iff (h : Inverse t) : t.get? s = none ↔ s ∉ t.names := by
  rw [Option.eq_none_iff_forall_ne_some, List.mem_iff_getElem?, not_exists]
  exact forall_congr' fun n => not_congr (h s n)

/-- A string that has a number is one of the names, and interning it answers that number. -/
theorem Inverse.get?_eq_some_iff (h : Inverse t) :
    t.get? s = some n ↔ s ∈ t.names ∧ (t.intern s).2 = n := by
  cases hs : t.get? s with
  | none => exact ⟨nofun, fun hn => absurd hn.1 (h.get?_eq_none_iff.1 hs)⟩
  | some k =>
    have hold : s ∈ t.names := List.mem_of_getElem? ((h s k).1 hs)
    rw [intern_of_seen hs, Option.some.injEq]
    exact ⟨fun hk => ⟨hold, hk⟩, fun hk => hk.2⟩

/-- Two numbers that read as strings are the same exactly if the strings are. -/
theorem Inverse.eq_iff (h : Inverse t) {n' : Nat} (hn : t.lookup? n = some s)
    (hn' : t.lookup? n' = some s') : s = s' ↔ n = n' := by
  constructor
  · rintro rfl
    exact Option.some.inj (((h s n).2 hn).symm.trans ((h s n').2 hn'))
  · rintro rfl
    exact Option.some.inj (hn.symm.trans hn')

theorem lookup?_size (t : Interner) : t.lookup? t.size = none :=
  List.getElem?_eq_none (Nat.le_refl _)

/-- The string that is remembered reads back from the number behind the last one. -/
theorem lookup?_push (t : Interner) (s : String) (n : Nat) :
    (t.push s).lookup? n = if n = t.size then some s else t.lookup? n := by
  show (t.names ++ [s])[n]? = if n = t.names.length then some s else t.names[n]?
  rcases Nat.lt_trichotomy n t.names.length with hn | rfl | hn
  · rw [List.getElem?_append_left hn, if_neg (Nat.ne_of_lt hn)]
  · rw [List.getElem?_concat_length, if_pos rfl]
  · rw [if_neg (Nat.ne_of_gt hn), List.getElem?_eq_none (Nat.le_of_lt hn),
      List.getElem?_eq_none (by rw [List.length_append]; exact hn)]

/-- As long as there are numbers left, interning keeps the halves inverse to each other. -/
theorem inverse_intern (h : Inverse t) (hroom : t.size < capacity) (s : String) :
    Inverse (t.intern s).1 := by
  cases hs : t.get? s with
  | some n => rwa [intern_of_seen hs]
  | none =>
    have hnew : s ∉ t.names := h.get?_eq_none_iff.1 hs
    have hnext : t.next = t.size := Nat.mod_eq_of_lt hroom
    intro s' n
    rw [intern_of_new hs, get?_push, lookup?_push, hnext]
    by_cases hss : s = s' <;> by_cases hn : n = t.size
    · rw [if_pos hss, if_pos hn, hss, hn]
      exact iff_of_true rfl rfl
    · -- no old number reads as the new string
      rw [if_pos hss, if_neg hn, ← hss]
      refine iff_of_false (fun he => hn (Option.some.inj he).symm) fun he => ?_
      exact hnew (List.mem_of_getElem? he)
    · -- no other string has the new number
      rw [if_neg hss, if_pos hn, h s' n, hn, lookup?_size]
      exact iff_of_false nofun fun he => hss (Option.some.inj he)
    · rw [if_neg hss, if_neg hn]
      exact h s' n

/-- What is interned reads back. -/
theorem Inverse.lookup_intern (h : Inverse t) (hroom : t.size < capacity) (s : String) :
    (t.intern s).1.lookup (t.intern s).2 = s := by
  have hback := (inverse_intern h hroom s _ _).1 (get?_intern t s)
  rw [lookup, hback, Option.getD_some]

/-- A number in use is the one of the string that it reads as. -/
theorem Inverse.intern_lookup (h : Inverse t) (hn : n < t.size) :
    t.intern (t.lookup n) = (t, n) := by
  have hread : t.lookup? n = some t.names[n] := List.getElem?_eq_getElem hn
  have hlook : t.lookup? n = some (t.lookup n) := by rw [lookup, hread, Option.getD_some]
  exact intern_of_seen ((h _ _).2 hlook)

/-! ### After any calls -/

/-- What an interner that started empty is after calls, and what it answered. -/
structure Records (t : Interner) (calls : List Call) : Prop where
  inverse : Inverse t
  names : t.names = firstSeen calls
  numbers : (handedOut .empty calls).eraseDups = (firstSeen calls).zipIdx

/-- A pair was handed out exactly when the string is the one that came at that place. -/
theorem Records.mem_handedOut_iff (h : Records t calls) :
    (s, n) ∈ handedOut .empty calls ↔ t.lookup? n = some s := by
  rw [← List.mem_eraseDups, h.numbers, List.mem_zipIdx_iff_getElem?, ← h.names]
  rfl

theorem Records.reads (h : Records t calls) {c : Call} (hc : c.interned? = none)
    (hout : t.handedOut [c] = []) (hcalls : Interner.empty.afterAll calls = t) :
    Records t (calls ++ [c]) where
  inverse := h.inverse
  names := by rw [h.names, firstSeen_concat_of_reads calls hc]
  numbers := by
    rw [handedOut_append, hcalls, hout, List.append_nil, h.numbers,
      firstSeen_concat_of_reads calls hc]

/-- Interning a string that came before hands out the pair that was handed out then; a new one
comes last. -/
theorem Records.intern (h : Records t calls) (hroom : t.size < capacity) (s : String)
    (hcalls : Interner.empty.afterAll calls = t) :
    Records (t.intern s).1 (calls ++ [.intern s]) := by
  have hout : handedOut .empty (calls ++ [.intern s]) =
      handedOut .empty calls ++ [(s, (t.intern s).2)] := by
    rw [handedOut_append, hcalls]
    rfl
  cases hs : t.get? s with
  | some n =>
    have hnumber : (t.intern s).2 = n := by rw [intern_of_seen hs]
    have hmem : (s, n) ∈ handedOut .empty calls :=
      h.mem_handedOut_iff.2 ((h.inverse s n).1 hs)
    have hold : s ∈ firstSeen calls :=
      h.names ▸ List.mem_of_getElem? ((h.inverse s n).1 hs)
    have hseen : firstSeen (calls ++ [.intern s]) = firstSeen calls := by
      rw [firstSeen_concat_intern, if_pos hold]
    rw [hnumber] at hout
    rw [intern_of_seen hs]
    refine ⟨h.inverse, by rw [h.names, hseen], ?_⟩
    rw [hout, eraseDups_concat_of_mem hmem, h.numbers, hseen]
  | none =>
    have hnew : s ∉ t.names := h.inverse.get?_eq_none_iff.1 hs
    have hnumber : (t.intern s).2 = (firstSeen calls).length := by
      rw [intern_of_new hs, ← h.names]
      exact Nat.mod_eq_of_lt hroom
    have hseen : firstSeen (calls ++ [.intern s]) = firstSeen calls ++ [s] := by
      rw [firstSeen_concat_intern, if_neg (h.names ▸ hnew)]
    have hfresh : (s, (t.intern s).2) ∉ handedOut .empty calls := fun hm =>
      hnew (List.mem_of_getElem? (h.mem_handedOut_iff.1 hm))
    refine ⟨inverse_intern h.inverse hroom s, ?_, ?_⟩
    · rw [intern_of_new hs, hseen, ← h.names]
      rfl
    · rw [hout, eraseDups_concat hfresh, h.numbers, hseen, List.zipIdx_append, hnumber,
        Nat.zero_add]
      rfl

theorem records_after (calls : List Call) (h : (firstSeen calls).length < capacity) :
    Records (Interner.empty.afterAll calls) calls := by
  induction calls using List.reverseRecOn with
  | nil => exact ⟨inverse_empty, rfl, rfl⟩
  | append_singleton calls c ih =>
    have hbefore : (firstSeen calls).length < capacity :=
      Nat.lt_of_le_of_lt (length_firstSeen_le calls c) h
    have hrec := ih hbefore
    have hroom : (Interner.empty.afterAll calls).size < capacity := by
      rw [size, hrec.names]
      exact hbefore
    rw [afterAll_concat]
    cases c with
    | intern s => exact hrec.intern hroom s rfl
    | get s => exact hrec.reads rfl rfl rfl
    | lookup n => exact hrec.reads rfl rfl rfl

/-- **Numbers and strings stand for each other.**  Whatever an interner is asked, with fewer
distinct strings than there are numbers: it holds as many strings as were seen; the answers,
repetitions aside, number them from zero in the order in which they came; two answers have the same
number exactly when they have the same string, and the number still reads as that string; a string
that is interned reads back, and a number in use is what interning its string answers; and asking
for a number without interning answers the one that interning would, exactly for the strings that
were seen. -/
theorem interned_numbers (calls : List Call) (h : (firstSeen calls).length < capacity) :
    let t := Interner.empty.afterAll calls
    let answers := handedOut .empty calls
    t.size = (firstSeen calls).length ∧
    answers.eraseDups = (firstSeen calls).zipIdx ∧
    (∀ e ∈ answers, ∀ e' ∈ answers, e.1 = e'.1 ↔ e.2 = e'.2) ∧
    (∀ e ∈ answers, t.lookup e.2 = e.1) ∧
    (∀ s, (t.intern s).1.lookup (t.intern s).2 = s) ∧
    (∀ n < t.size, t.intern (t.lookup n) = (t, n)) ∧
    ∀ s n, t.get? s = some n ↔ Call.intern s ∈ calls ∧ (t.intern s).2 = n := by
  intro t answers
  have hrec : Records t calls := records_after calls h
  have hsize : t.size = (firstSeen calls).length := by rw [size, hrec.names]
  have hroom : t.size < capacity := hsize ▸ h
  have hread : ∀ e ∈ answers, t.lookup? e.2 = some e.1 := fun e he =>
    hrec.mem_handedOut_iff.1 he
  refine ⟨hsize, hrec.numbers, fun e he e' he' => hrec.inverse.eq_iff (hread e he) (hread e' he'),
    fun e he => by rw [lookup, hread e he, Option.getD_some], hrec.inverse.lookup_intern hroom,
    fun n hn => hrec.inverse.intern_lookup hn, fun s n => ?_⟩
  rw [← mem_firstSeen, ← hrec.names]
  exact hrec.inverse.get?_eq_some_iff

/-- Two names, each asked for again. -/
theorem interned_numbers_of_repeated :
    let calls : List Call := [.intern "to_s", .get "@x", .intern "@x", .lookup 7, .intern "to_s"]
    (firstSeen calls).length < capacity ∧
    handedOut .empty calls = [("to_s", 0), ("@x", 1), ("to_s", 0)] ∧
    (Interner.empty.afterAll calls).size = 2 ∧
    ∀ s, ((Interner.empty.afterAll calls).intern s).1.lookup
      ((Interner.empty.afterAll calls).intern s).2 = s := by
  intro calls
  have h : (firstSeen calls).length < capacity := by decide +kernel
  have hall := interned_numbers calls h
  exact ⟨h, by decide +kernel, hall.1.trans (by decide +kernel), hall.2.2.2.2.1⟩

end Interner

end ObjectModel
