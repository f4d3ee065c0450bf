/-!
# Lists up to a first element

A search along a list ends at the first element that answers, so what it finds depends on the
elements up to that one only, and repetitions do not matter to it.

* `through`: the elements of a list up to the first with a property;
* `through_flatMap`, `mem_through_eraseDups`, `mem_through_takeWhile`: how it passes through the
  operations that walks are made of;
* `findSome?_through`, `findSome?_eraseDups`: what a search depends on.
-/

namespace ObjectModel

variable {α β : Type} {p q : α → Bool} {l : List α} {a : α}

/-- The elements up to the first one with a property, that one included. -/
def through (p : α → Bool) : List α → List α
  | [] => []
  | a :: l => if p a then [a] else a :: through p l

theorem through_cons_of_pos (h : p a = true) (l : List α) : through p (a :: l) = [a] := by
  simp [through, h]

theorem through_cons_of_neg (h : p a = false) (l : List α) :
    through p (a :: l) = a :: through p l := by
  simp [through, h]

theorem exists_through_cons (p : α → Bool) (a : α) (l : List α) :
    ∃ rest, through p (a :: l) = a :: rest := by
  cases h : p a with
  | true => exact ⟨[], through_cons_of_pos h l⟩
  | false => exact ⟨_, through_cons_of_neg h l⟩

theorem mem_through_cons {b : α} :
    b ∈ through p (a :: l) ↔ b = a ∨ p a = false ∧ b ∈ through p l := by
  cases h : p a <;> simp [through, h]

theorem mem_of_mem_through (h : a ∈ through p l) : a ∈ l := by
  induction l with
  | nil => cases h
  | cons b l ih =>
    rcases mem_through_cons.1 h with rfl | ⟨-, h⟩
    · exact List.mem_cons_self
    · exact List.mem_cons_of_mem b (ih h)

theorem through_append (l l' : List α) :
    through p (l ++ l') = if l.any p then through p l else l ++ through p l' := by
  induction l with
  | nil => rfl
  | cons a l ih =>
    rw [List.cons_append, List.any_cons]
    cases h : p a with
    | true => simp [through, h]
    | false =>
      rw [through_cons_of_neg h, through_cons_of_neg h, ih]
      cases l.any p <;> rfl

theorem through_of_not_any (h : l.any p = false) : through p l = l := by
  have := through_append (p := p) l []
  simpa [h, through] using this

theorem eq_nil_of_through (h : through p l = []) : l = [] := by
  cases l with
  | nil => rfl
  | cons a l =>
    rw [through] at h
    split at h <;> cases h

/-- Lists that agree as far as they are gone through have the same head. -/
theorem cons_of_through {l' : List α} (h : through p l' = through p (a :: l)) :
    ∃ rest, l' = a :: rest ∧ (p a = false → through p rest = through p l) := by
  cases l' with
  | nil =>
    have := eq_nil_of_through h.symm
    cases this
  | cons b rest =>
    have hhead : b = a := by
      rw [through, through] at h
      split at h <;> split at h <;> exact (List.cons.inj h).1
    subst hhead
    refine ⟨rest, rfl, fun hb => ?_⟩
    rw [through_cons_of_neg hb, through_cons_of_neg hb] at h
    exact (List.cons.inj h).2

theorem any_through (p : α → Bool) (l : List α) : (through p l).any p = l.any p := by
  induction l with
  | nil => rfl
  | cons a l ih => cases h : p a <;> simp [through, h, ih]

theorem mem_through_append {l' : List α} :
    a ∈ through p (l ++ l') ↔ a ∈ through p l ∨ l.any p = false ∧ a ∈ through p l' := by
  rw [through_append]
  cases h : l.any p with
  | true => simp
  | false => simp [through_of_not_any h]

/-- How far a path leads through is known segment by segment. -/
theorem through_append_congr {k k' l' : List α} (hl : through p l' = through p l)
    (hk : l.any p = false → through p k' = through p k) :
    through p (l' ++ k') = through p (l ++ k) := by
  have hany : l'.any p = l.any p := by rw [← any_through p l', hl, any_through]
  rw [through_append, through_append, hany]
  cases h : l.any p with
  | true => simpa using hl
  | false =>
    rw [through_of_not_any h, through_of_not_any (hany.trans h)] at hl
    simp [hl, hk h]

/-- Along segments, the first element with a property is in the first segment that has one. -/
theorem through_flatMap (s : α → List β) (p : β → Bool) (l : List α) :
    through p (l.flatMap s) = (through (fun a => (s a).any p) l).flatMap (through p ∘ s) := by
  induction l with
  | nil => rfl
  | cons a l ih =>
    rw [List.flatMap_cons, through_append]
    cases h : (s a).any p with
    | true => simp [through, h]
    | false => simp [through, h, ih, through_of_not_any h]

theorem through_congr (h : ∀ a ∈ through p l, q a = p a) : through q l = through p l := by
  induction l with
  | nil => rfl
  | cons a l ih =>
    have ha := h a (mem_through_cons.2 (.inl rfl))
    cases hp : p a with
    | true => rw [through_cons_of_pos hp, through_cons_of_pos (ha.trans hp)]
    | false =>
      rw [through_cons_of_neg hp, through_cons_of_neg (ha.trans hp)]
      exact congrArg (a :: ·) (ih fun b hb => h b (mem_through_cons.2 (.inr ⟨hp, hb⟩)))

/-- How far segments are gone through depends on those that are entered. -/
theorem through_flatMap_congr {s t : α → List β} {p : β → Bool}
    (h : ∀ a ∈ through (fun a => (s a).any p) l, t a = s a) :
    through p (l.flatMap t) = through p (l.flatMap s) := by
  have he : through (fun a => (t a).any p) l = through (fun a => (s a).any p) l :=
    through_congr fun a ha => by rw [h a ha]
  rw [through_flatMap, through_flatMap, he, List.flatMap_def, List.flatMap_def]
  refine congrArg List.flatten (List.map_congr_left fun a ha => ?_)
  rw [Function.comp_apply, Function.comp_apply, h a ha]

/-- A property that fewer elements have is met no earlier. -/
theorem mem_through_of_imp (hpq : ∀ b, p b = true → q b = true) (h : a ∈ through q l) :
    a ∈ through p l := by
  induction l with
  | nil => cases h
  | cons b l ih =>
    rw [mem_through_cons] at h ⊢
    exact h.imp_right fun ⟨hb, ha⟩ =>
      ⟨Bool.eq_false_iff.2 fun hp => Bool.eq_false_iff.1 hb (hpq b hp), ih ha⟩

/-- What is gone through to an element lies before it, and lacks the property. -/
theorem append_of_mem_through (h : a ∈ through p l) :
    ∃ pre post, l = pre ++ a :: post ∧ ∀ b ∈ pre, p b = false := by
  induction l with
  | nil => cases h
  | cons b l ih =>
    rcases mem_through_cons.1 h with rfl | ⟨hb, h⟩
    · exact ⟨[], l, rfl, fun _ hc => nomatch hc⟩
    · obtain ⟨pre, post, rfl, hpre⟩ := ih h
      exact ⟨b :: pre, post, rfl, List.forall_mem_cons.2 ⟨hb, hpre⟩⟩

/-- The elements before another one that is gone through lack the property. -/
theorem append_of_through_eq {pre post : List α} (h : through p l = pre ++ a :: post) :
    ∃ post', l = pre ++ a :: post' ∧ ∀ b ∈ pre, p b = false := by
  induction pre generalizing l with
  | nil =>
    obtain ⟨post', rfl⟩ : ∃ post', l = a :: post' := by
      cases l with
      | nil => cases h
      | cons b l =>
        rw [through] at h
        split at h <;> exact ⟨l, congrArg (· :: l) (List.cons.inj h).1⟩
    exact ⟨post', rfl, fun _ hb => nomatch hb⟩
  | cons b pre ih =>
    cases l with
    | nil => cases h
    | cons c l =>
      cases hc : p c with
      | true =>
        rw [through_cons_of_pos hc] at h
        have := (List.cons.inj h).2
        simp at this
      | false =>
        rw [through_cons_of_neg hc] at h
        obtain ⟨hcb, hrest⟩ := List.cons.inj h
        obtain ⟨post', hl, hpre⟩ := ih hrest
        exact ⟨post', by rw [hcb, hl, List.cons_append],
          List.forall_mem_cons.2 ⟨hcb ▸ hc, hpre⟩⟩

/-- Dropping elements without the property takes away no others. -/
theorem mem_through_filter (hq : ∀ a, p a = true → q a = true) (ha : q a = true) :
    a ∈ through p (l.filter q) ↔ a ∈ through p l := by
  induction l with
  | nil => rfl
  | cons b l ih =>
    cases hb : q b with
    | true => rw [List.filter_cons_of_pos hb, mem_through_cons, mem_through_cons, ih]
    | false =>
      have hpb : p b = false := Bool.eq_false_iff.2 fun h => by simp [hq b h] at hb
      have hne : a ≠ b := fun he => by simp [← he, ha] at hb
      rw [List.filter_cons_of_neg (by simp [hb]), ih, mem_through_cons]
      simp [hne, hpb]

theorem through_takeWhile (p q : α → Bool) (l : List α) :
    through p (l.takeWhile q) = (through (fun b => !q b || p b) l).takeWhile q := by
  induction l with
  | nil => rfl
  | cons b l ih =>
    cases hq : q b with
    | false => simp [through, hq]
    | true =>
      rw [List.takeWhile_cons_of_pos hq]
      cases hp : p b with
      | true => simp [through, hq, hp]
      | false => simp [through, hq, hp, ih]

theorem mem_through_takeWhile :
    a ∈ through p (l.takeWhile q) ↔ a ∈ through (fun b => !q b || p b) l ∧ q a = true := by
  induction l with
  | nil => simp [through]
  | cons b l ih =>
    cases hb : q b with
    | false =>
      have hne : q a = true → a ≠ b := fun ha he => by simp [← he, ha] at hb
      rw [List.takeWhile_cons_of_neg (by simp [hb]), mem_through_cons]
      simp only [through, List.not_mem_nil, hb, false_iff, not_and]
      rintro (rfl | ⟨h, -⟩) ha
      · exact hne ha rfl
      · simp at h
    | true =>
      rw [List.takeWhile_cons_of_pos hb, mem_through_cons, mem_through_cons, ih]
      simp only [hb, Bool.not_true, Bool.false_or]
      constructor
      · rintro (rfl | ⟨h, h', ha⟩)
        · exact ⟨.inl rfl, hb⟩
        · exact ⟨.inr ⟨h, h'⟩, ha⟩
      · rintro ⟨rfl | ⟨h, h'⟩, ha⟩
        · exact .inl rfl
        · exact .inr ⟨h, h', ha⟩

variable {f g : α → Option β}

/-- Dropping an element that a stretch goes past, before or after it is cut off. -/
theorem takeWhile_filter_ne [DecidableEq α] {a : α} (ha : q a = true) (l : List α) :
    (l.filter fun b => !b == a).takeWhile q = (l.takeWhile q).filter fun b => !b == a := by
  induction l with
  | nil => rfl
  | cons b l ih =>
    by_cases hb : b = a
    · subst hb
      rw [List.filter_cons_of_neg (by simp), List.takeWhile_cons_of_pos ha,
        List.filter_cons_of_neg (by simp), ih]
    · rw [List.filter_cons_of_pos (by simp [hb])]
      cases hq : q b with
      | true =>
        rw [List.takeWhile_cons_of_pos hq, List.takeWhile_cons_of_pos hq,
          List.filter_cons_of_pos (by simp [hb]), ih]
      | false =>
        rw [List.takeWhile_cons_of_neg (by simp [hq]), List.takeWhile_cons_of_neg (by simp [hq])]
        rfl

/-- A search depends on the elements up to the first that answers. -/
theorem findSome?_through {l l' : List α} (hl : through (fun a => (f a).isSome) l =
    through (fun a => (f a).isSome) l') (h : ∀ a ∈ through (fun a => (f a).isSome) l, g a = f a) :
    l'.findSome? g = l.findSome? f := by
  have hf (l : List α) : l.findSome? f = (through (fun a => (f a).isSome) l).findSome? f := by
    induction l with
    | nil => rfl
    | cons a l ih =>
      cases ha : f a with
      | none => rw [through_cons_of_neg (by simp [ha])]; simp [ha, ih]
      | some b => rw [through_cons_of_pos (by simp [ha])]; simp [ha]
  have hg (l : List α) (h : ∀ a ∈ through (fun a => (f a).isSome) l, g a = f a) :
      l.findSome? g = (through (fun a => (f a).isSome) l).findSome? g := by
    induction l with
    | nil => rfl
    | cons a l ih =>
      have ha := h a (mem_through_cons.2 (.inl rfl))
      cases hfa : f a with
      | none =>
        rw [through_cons_of_neg (by simp [hfa])] at h ⊢
        simp [ha, hfa, ih fun b hb => h b (List.mem_cons_of_mem a hb)]
      | some b => rw [through_cons_of_pos (by simp [hfa])]; simp [ha, hfa]
  rw [hf l, hg l' (hl ▸ h), ← hl]
  generalize through (fun a => (f a).isSome) l = t at h
  induction t with
  | nil => rfl
  | cons a t ih =>
    rw [List.findSome?_cons, List.findSome?_cons, h a List.mem_cons_self,
      ih fun b hb => h b (List.mem_cons_of_mem a hb)]

/-- On the way of a search, an element gives nothing or what is found. -/
theorem findSome?_of_mem_through (h : a ∈ through (fun a => (f a).isSome) l) :
    f a = none ∨ f a = l.findSome? f := by
  obtain ⟨pre, post, rfl, hpre⟩ := append_of_mem_through h
  have hnone : pre.findSome? f = none := List.findSome?_eq_none_iff.2 fun b hb => by
    simpa using hpre b hb
  rw [List.findSome?_append, hnone, Option.none_or, List.findSome?_cons]
  cases f a with
  | none => exact .inl rfl
  | some y => exact .inr rfl

/-- What a search finds at an element or before it. -/
theorem findSome?_append_of_forall {Q : β → Prop} {pre post : List α}
    (hpre : ∀ b ∈ pre, ∀ y, f b = some y → Q y) (ha : ∃ y, f a = some y ∧ Q y) :
    ∃ y, (pre ++ a :: post).findSome? f = some y ∧ Q y := by
  induction pre with
  | nil =>
    obtain ⟨y, hy, hQ⟩ := ha
    exact ⟨y, by rw [List.nil_append, List.findSome?_cons, hy], hQ⟩
  | cons b pre ih =>
    rw [List.cons_append, List.findSome?_cons]
    cases hb : f b with
    | some y => exact ⟨y, rfl, hpre b List.mem_cons_self y hb⟩
    | none => exact ih fun d hd => hpre d (List.mem_cons_of_mem b hd)

/-- Elements that do not answer may be dropped. -/
theorem findSome?_filter_of_none (h : ∀ a, q a = false → f a = none) :
    (l.filter q).findSome? f = l.findSome? f := by
  induction l with
  | nil => rfl
  | cons a l ih =>
    cases ha : q a with
    | true => rw [List.filter_cons_of_pos ha, List.findSome?_cons, List.findSome?_cons, ih]
    | false =>
      rw [List.filter_cons_of_neg (by simp [ha]), List.findSome?_cons, h a ha, ih]

variable [DecidableEq α]

/-- An element more gives its own answer to a search, or changes nothing. -/
theorem findSome?_filter_or {y : β} (ha : f a = some y) (h : ∀ b ∈ l, b ≠ a → f b = g b) :
    l.findSome? f = some y ∨ l.findSome? f = (l.filter fun b => !b == a).findSome? g := by
  induction l with
  | nil => exact .inr rfl
  | cons b l ih =>
    by_cases hb : b = a
    · exact .inl (by rw [hb, List.findSome?_cons, ha])
    · rw [List.filter_cons_of_pos (by simp [hb]), List.findSome?_cons, List.findSome?_cons,
        h b List.mem_cons_self hb]
      cases g b with
      | some z => exact .inr rfl
      | none => exact ih fun d hd => h d (List.mem_cons_of_mem b hd)

theorem nodup_eraseDups (l : List α) : l.eraseDups.Nodup := by
  match l with
  | [] => exact .nil
  | a :: l =>
    rw [List.eraseDups_cons]
    have hlt : (l.filter fun b => !b == a).length < l.length + 1 :=
      Nat.lt_succ_of_le (List.length_filter_le _ _)
    refine List.nodup_cons.2 ⟨fun h => ?_, nodup_eraseDups (l.filter fun b => !b == a)⟩
    simp at h
termination_by l.length

/-- Repetitions do not matter to a search. -/
theorem findSome?_eraseDups (f : α → Option β) (l : List α) :
    l.eraseDups.findSome? f = l.findSome? f := by
  match l with
  | [] => rfl
  | a :: l =>
    rw [List.eraseDups_cons, List.findSome?_cons, List.findSome?_cons]
    cases ha : f a with
    | some b => rfl
    | none =>
      have hlt : (l.filter fun b => !b == a).length < l.length + 1 :=
        Nat.lt_succ_of_le (List.length_filter_le _ _)
      rw [findSome?_eraseDups f (l.filter fun b => !b == a)]
      refine findSome?_filter_of_none fun b hb => ?_
      obtain rfl : b = a := by simpa using hb
      exact ha
termination_by l.length

omit [DecidableEq α] in
theorem eraseDups_concat [BEq α] [LawfulBEq α] (h : a ∉ l) :
    (l ++ [a]).eraseDups = l.eraseDups ++ [a] := by
  rw [List.eraseDups_append, List.removeAll, List.filter_cons_of_pos (by simpa using h)]
  rfl

omit [DecidableEq α] in
theorem eraseDups_concat_of_mem [BEq α] [LawfulBEq α] (h : a ∈ l) :
    (l ++ [a]).eraseDups = l.eraseDups := by
  rw [List.eraseDups_append, List.removeAll, List.filter_cons_of_neg (by simpa using h)]
  exact List.append_nil _

theorem any_eraseDups (p : α → Bool) (l : List α) : l.eraseDups.any p = l.any p := by
  rw [Bool.eq_iff_iff, List.any_eq_true, List.any_eq_true]
  simp only [List.mem_eraseDups]

theorem filter_eraseDups (q : α → Bool) (l : List α) :
    l.eraseDups.filter q = (l.filter q).eraseDups := by
  match l with
  | [] => rfl
  | a :: l =>
    have hlt : (l.filter fun b => !b == a).length < l.length + 1 :=
      Nat.lt_succ_of_le (List.length_filter_le _ _)
    have ih := filter_eraseDups q (l.filter fun b => !b == a)
    have hcomm : (l.filter fun b => !b == a).filter q =
        (l.filter q).filter fun b => !b == a := by
      simp only [List.filter_filter, Bool.and_comm]
    rw [List.eraseDups_cons]
    cases ha : q a with
    | true =>
      rw [List.filter_cons_of_pos ha, List.filter_cons_of_pos ha, List.eraseDups_cons, ih,
        hcomm]
    | false =>
      rw [List.filter_cons_of_neg (by simp [ha]), List.filter_cons_of_neg (by simp [ha]), ih,
        hcomm]
      refine congrArg List.eraseDups (List.filter_eq_self.2 fun b hb => ?_)
      have hne : b ≠ a := fun he => by simp [he, ha] at hb
      simp [hne]
termination_by l.length

theorem takeWhile_eraseDups (q : α → Bool) (l : List α) :
    l.eraseDups.takeWhile q = (l.takeWhile q).eraseDups := by
  match l with
  | [] => rfl
  | a :: l =>
    rw [List.eraseDups_cons]
    cases ha : q a with
    | false =>
      rw [List.takeWhile_cons_of_neg (by simp [ha]), List.takeWhile_cons_of_neg (by simp [ha])]
      rfl
    | true =>
      have hlt : (l.filter fun b => !b == a).length < l.length + 1 :=
        Nat.lt_succ_of_le (List.length_filter_le _ _)
      rw [List.takeWhile_cons_of_pos ha, List.takeWhile_cons_of_pos ha, List.eraseDups_cons,
        takeWhile_eraseDups q (l.filter fun b => !b == a), takeWhile_filter_ne ha]
termination_by l.length

theorem through_filter_ne {a : α} (ha : p a = false) (l : List α) :
    through p (l.filter fun b => !b == a) = (through p l).filter fun b => !b == a := by
  induction l with
  | nil => rfl
  | cons b l ih =>
    by_cases hb : b = a
    · subst hb
      rw [List.filter_cons_of_neg (by simp), through_cons_of_neg ha,
        List.filter_cons_of_neg (by simp), ih]
    · have hne : (!b == a) = true := by simp [hb]
      rw [List.filter_cons_of_pos (p := fun b => !b == a) hne]
      cases hp : p b with
      | true =>
        rw [through_cons_of_pos hp, through_cons_of_pos hp,
          List.filter_cons_of_pos (p := fun b => !b == a) hne]
        rfl
      | false =>
        rw [through_cons_of_neg hp, through_cons_of_neg hp,
          List.filter_cons_of_pos (p := fun b => !b == a) hne, ih]

/-- Repetitions can be dropped before or after a list is gone through. -/
theorem through_eraseDups (p : α → Bool) (l : List α) :
    through p l.eraseDups = (through p l).eraseDups := by
  match l with
  | [] => rfl
  | a :: l =>
    rw [List.eraseDups_cons]
    cases ha : p a with
    | true => rw [through_cons_of_pos ha, through_cons_of_pos ha]; rfl
    | false =>
      have hlt : (l.filter fun b => !b == a).length < l.length + 1 :=
        Nat.lt_succ_of_le (List.length_filter_le _ _)
      rw [through_cons_of_neg ha, through_cons_of_neg ha, List.eraseDups_cons,
        through_eraseDups p (l.filter fun b => !b == a), through_filter_ne ha]
termination_by l.length

theorem mem_through_eraseDups (l : List α) : a ∈ through p l.eraseDups ↔ a ∈ through p l := by
  match l with
  | [] => rfl
  | b :: l =>
    rw [List.eraseDups_cons, mem_through_cons, mem_through_cons]
    by_cases hab : a = b
    · simp [hab]
    · have hlt : (l.filter fun c => !c == b).length < l.length + 1 :=
        Nat.lt_succ_of_le (List.length_filter_le _ _)
      rw [mem_through_eraseDups (l.filter fun c => !c == b)]
      cases hb : p b with
      | true => simp
      | false =>
        have hne : (!a == b) = true := by simp [hab]
        rw [mem_through_filter (q := fun c => !c == b) (fun c hc => ?_) hne]
        simp only [Bool.not_eq_true', beq_eq_false_iff_ne]
        rintro rfl
        simp [hb] at hc
termination_by l.length

end ObjectModel
