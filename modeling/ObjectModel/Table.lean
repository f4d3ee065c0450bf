/-!
# Ordered tables

A `Table κ α` is a finite map that remembers the order in which its keys first came.

* `find?`, `insert`, `erase`, `mapValues`: reading a key, binding it (in place when it is bound
  already, at the end otherwise), dropping it, and changing every value;
* `find?_insert_self`, `find?_insert_of_ne`, `find?_erase_self`, `find?_erase_of_ne`,
  `find?_mapValues`: what each operation does to every reading;
* `keys_mapValues`: changing the values leaves the keys in their order;
* `weight_insert`: what rebinding a key does to a sum over the values.
-/

namespace ObjectModel

universe u v w

/-- A finite map with its keys in the order of their first binding. -/
structure Table (κ : Type u) (α : Type v) where
  entries : List (κ × α) := []
  nodup_keys : (entries.map Prod.fst).Nodup := by exact List.Pairwise.nil
  deriving DecidableEq

namespace Table

variable {κ : Type u} {α : Type v} {β : Type w}

/-- The table without entries. -/
def empty : Table κ α := {}

instance : Inhabited (Table κ α) := ⟨empty⟩
instance : EmptyCollection (Table κ α) := ⟨empty⟩

/-- The bound keys, in order. -/
def keys (t : Table κ α) : List κ := t.entries.map Prod.fst

/-- The bound values, in the order of their keys. -/
def values (t : Table κ α) : List α := t.entries.map Prod.snd

/-- The number of bound keys. -/
def size (t : Table κ α) : Nat := t.entries.length

variable [DecidableEq κ]

/-- The first value of a key in a list of entries. -/
def findIn (k : κ) : List (κ × α) → Option α
  | [] => none
  | e :: es => if e.1 = k then some e.2 else findIn k es

/-- The entries with `k` bound to `a`. -/
def insertIn (k : κ) (a : α) : List (κ × α) → List (κ × α)
  | [] => [(k, a)]
  | e :: es => if e.1 = k then (k, a) :: es else e :: insertIn k a es

/-- The value bound to a key. -/
def find? (t : Table κ α) (k : κ) : Option α := findIn k t.entries

/-- Whether a key is bound. -/
def contains (t : Table κ α) (k : κ) : Bool := (t.find? k).isSome

theorem map_fst_insertIn (k : κ) (a : α) (es : List (κ × α)) :
    (insertIn k a es).map Prod.fst =
      if k ∈ es.map Prod.fst then es.map Prod.fst else es.map Prod.fst ++ [k] := by
  induction es with
  | nil => rfl
  | cons e es ih =>
    by_cases h : e.1 = k
    · simp [insertIn, h]
    · have hk : ¬ k = e.1 := fun hk => h hk.symm
      by_cases hm : k ∈ es.map Prod.fst
      · simp only [insertIn, if_neg h, List.map_cons, ih, if_pos hm,
          if_pos (List.mem_cons_of_mem _ hm)]
      · have hm' : k ∉ e.1 :: es.map Prod.fst := by
          simp only [List.mem_cons, not_or]
          exact ⟨hk, hm⟩
        simp only [insertIn, if_neg h, List.map_cons, ih, if_neg hm, if_neg hm', List.cons_append]

theorem nodup_insertIn {k : κ} {a : α} {es : List (κ × α)} (h : (es.map Prod.fst).Nodup) :
    ((insertIn k a es).map Prod.fst).Nodup := by
  rw [map_fst_insertIn]
  split
  · exact h
  · next hk =>
    refine List.nodup_append.2 ⟨h, by simp, ?_⟩
    intro x hx y hy hxy
    rw [List.mem_singleton] at hy
    exact hk (hy ▸ hxy ▸ hx)

/-- Bind a key: in place when it is bound already, as the last entry otherwise. -/
def insert (t : Table κ α) (k : κ) (a : α) : Table κ α where
  entries := insertIn k a t.entries
  nodup_keys := nodup_insertIn t.nodup_keys

/-- Drop a key; the others keep their order. -/
def erase (t : Table κ α) (k : κ) : Table κ α where
  entries := t.entries.filter fun e => decide (e.1 ≠ k)
  nodup_keys := (t.nodup_keys.sublist ((List.filter_sublist).map Prod.fst))

omit [DecidableEq κ] in
/-- Change every value, keeping the keys. -/
def mapValues (f : κ → α → β) (t : Table κ α) : Table κ β where
  entries := t.entries.map fun e => (e.1, f e.1 e.2)
  nodup_keys := by
    have h : (t.entries.map fun e => (e.1, f e.1 e.2)).map Prod.fst = t.entries.map Prod.fst := by
      rw [List.map_map]
      rfl
    rw [h]
    exact t.nodup_keys

/-- Bind a key only if it is free. -/
def insertNew (t : Table κ α) (k : κ) (a : α) : Table κ α :=
  if t.contains k then t else t.insert k a

/-- The table of a list of entries, later ones replacing earlier ones in place. -/
def ofList (es : List (κ × α)) : Table κ α :=
  es.foldl (fun t e => t.insert e.1 e.2) empty

/-! ### Reading -/

@[simp] theorem find?_empty (k : κ) : (empty : Table κ α).find? k = none := rfl

theorem findIn_insertIn (j k : κ) (a : α) (es : List (κ × α)) :
    findIn j (insertIn k a es) = if k = j then some a else findIn j es := by
  induction es with
  | nil => rfl
  | cons e es ih =>
    by_cases h : e.1 = k
    · by_cases hj : k = j
      · simp [insertIn, findIn, h, hj]
      · simp [insertIn, findIn, h, hj]
    · by_cases hj : e.1 = j
      · have hkj : ¬ k = j := fun hk => h (hj.trans hk.symm)
        rw [insertIn, if_neg h, findIn, if_pos hj, if_neg hkj, findIn, if_pos hj]
      · rw [insertIn, if_neg h, findIn, if_neg hj, ih, findIn, if_neg hj]

theorem find?_insert (t : Table κ α) (j k : κ) (a : α) :
    (t.insert k a).find? j = if k = j then some a else t.find? j :=
  findIn_insertIn j k a t.entries

@[simp] theorem find?_insert_self (t : Table κ α) (k : κ) (a : α) :
    (t.insert k a).find? k = some a := by
  rw [find?_insert, if_pos rfl]

theorem find?_insert_of_ne (t : Table κ α) {j k : κ} (h : k ≠ j) (a : α) :
    (t.insert k a).find? j = t.find? j := by
  rw [find?_insert, if_neg h]

theorem findIn_filter_ne (j k : κ) (es : List (κ × α)) :
    findIn j (es.filter fun e => decide (e.1 ≠ k)) = if k = j then none else findIn j es := by
  induction es with
  | nil => simp [findIn]
  | cons e es ih =>
    by_cases h : e.1 = k
    · rw [List.filter_cons_of_neg (by simp [h]), ih]
      by_cases hj : k = j
      · simp [hj]
      · have hne : ¬ e.1 = j := fun he => hj (h.symm.trans he)
        simp [findIn, hj, hne]
    · rw [List.filter_cons_of_pos (by simp [h])]
      by_cases hj : e.1 = j
      · have hkj : ¬ k = j := fun hk => h (hj.trans hk.symm)
        rw [findIn, if_pos hj, if_neg hkj, findIn, if_pos hj]
      · rw [findIn, if_neg hj, ih, findIn, if_neg hj]

theorem find?_erase (t : Table κ α) (j k : κ) :
    (t.erase k).find? j = if k = j then none else t.find? j :=
  findIn_filter_ne j k t.entries

@[simp] theorem find?_erase_self (t : Table κ α) (k : κ) : (t.erase k).find? k = none := by
  rw [find?_erase, if_pos rfl]

theorem find?_erase_of_ne (t : Table κ α) {j k : κ} (h : k ≠ j) :
    (t.erase k).find? j = t.find? j := by
  rw [find?_erase, if_neg h]

theorem findIn_map (f : κ → α → β) (k : κ) (es : List (κ × α)) :
    findIn k (es.map fun e => (e.1, f e.1 e.2)) = (findIn k es).map (f k) := by
  induction es with
  | nil => rfl
  | cons e es ih =>
    by_cases h : e.1 = k
    · subst h
      simp [findIn]
    · simp only [List.map_cons, findIn, if_neg h, ih]

@[simp] theorem find?_mapValues (f : κ → α → β) (t : Table κ α) (k : κ) :
    (t.mapValues f).find? k = (t.find? k).map (f k) :=
  findIn_map f k t.entries

theorem find?_insertNew (t : Table κ α) (j k : κ) (a : α) :
    (t.insertNew k a).find? j = if k = j then some ((t.find? k).getD a) else t.find? j := by
  unfold insertNew contains
  cases h : t.find? k with
  | none => simp [find?_insert]
  | some b =>
    by_cases hj : k = j
    · subst hj
      simp [h]
    · simp [hj]

/-! ### Keys -/

theorem findIn_eq_none_iff (k : κ) (es : List (κ × α)) :
    findIn k es = none ↔ k ∉ es.map Prod.fst := by
  induction es with
  | nil => simp [findIn]
  | cons e es ih =>
    by_cases h : e.1 = k
    · simp [findIn, h]
    · have hk : ¬ k = e.1 := fun hk => h hk.symm
      simp only [findIn, if_neg h, ih, List.map_cons, List.mem_cons, hk, false_or]

theorem find?_eq_none_iff {t : Table κ α} {k : κ} : t.find? k = none ↔ k ∉ t.keys :=
  findIn_eq_none_iff k t.entries

theorem mem_keys_iff {t : Table κ α} {k : κ} : k ∈ t.keys ↔ ∃ a, t.find? k = some a := by
  have h := find?_eq_none_iff (t := t) (k := k)
  cases hf : t.find? k with
  | none => simp [h.1 hf]
  | some a => simpa [hf] using h

omit [DecidableEq κ] in
theorem keys_nodup (t : Table κ α) : t.keys.Nodup := t.nodup_keys

omit [DecidableEq κ] in
@[simp] theorem keys_mapValues (f : κ → α → β) (t : Table κ α) :
    (t.mapValues f).keys = t.keys := by
  simp only [keys, mapValues, List.map_map]
  rfl

theorem findIn_eq_some_iff {es : List (κ × α)} (h : (es.map Prod.fst).Nodup) {k : κ} {a : α} :
    findIn k es = some a ↔ (k, a) ∈ es := by
  induction es with
  | nil => simp [findIn]
  | cons e es ih =>
    rw [List.map_cons, List.nodup_cons] at h
    by_cases he : e.1 = k
    · have hk : (k, a) ∉ es := fun hm => h.1 (he ▸ List.mem_map_of_mem hm)
      subst he
      simp only [findIn, if_true, Option.some.injEq, List.mem_cons, hk, or_false]
      exact ⟨fun ha => ha ▸ rfl, fun ha => congrArg Prod.snd ha.symm⟩
    · have hne : ¬ (k, a) = e := fun hke => he (congrArg Prod.fst hke.symm)
      simp only [findIn, if_neg he, ih h.2, List.mem_cons, hne, false_or]

/-- An entry is what reading its key gives. -/
theorem mem_entries_iff {t : Table κ α} {k : κ} {a : α} :
    (k, a) ∈ t.entries ↔ t.find? k = some a :=
  (findIn_eq_some_iff t.nodup_keys).symm

/-! ### Weights -/

theorem foldr_insertIn (w : α → Nat) {k : κ} {a : α} {es : List (κ × α)}
    (h : findIn k es = some a) (b : α) :
    (insertIn k b es).foldr (fun e n => w e.2 + n) 0 + w a =
      es.foldr (fun e n => w e.2 + n) 0 + w b := by
  induction es with
  | nil => cases h
  | cons e es ih =>
    by_cases he : e.1 = k
    · simp only [findIn, if_pos he, Option.some.injEq] at h
      simp only [insertIn, if_pos he, List.foldr_cons, h]
      omega
    · simp only [findIn, if_neg he] at h
      have := ih h
      simp only [insertIn, if_neg he, List.foldr_cons]
      omega

omit [DecidableEq κ] in
/-- The total weight of the values of a table. -/
def weight (w : α → Nat) (t : Table κ α) : Nat := t.entries.foldr (fun e n => w e.2 + n) 0

/-- Rebinding a key exchanges the weight of its value. -/
theorem weight_insert (w : α → Nat) {t : Table κ α} {k : κ} {a : α} (h : t.find? k = some a)
    (b : α) : (t.insert k b).weight w + w a = t.weight w + w b :=
  foldr_insertIn w h b

end Table

end ObjectModel
