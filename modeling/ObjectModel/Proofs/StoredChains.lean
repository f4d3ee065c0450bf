import Mathlib.Data.List.Basic
import ObjectModel.Proofs.Mixing

/-!
# Stored chains

A chain may be stored as one list of links that names its owner nowhere: a marker if modules are
prepended, these modules, the place of the owner and the included modules.  Including and prepending
then look for positions in that list and put modules in there.  They come to what `Weave` comes to in
the two lists of a `Chain`, and know by a flag whether anything went in.

* `StoredLink`, `Chain.stored`, `map_read_stored`: the links as they are stored, and what a walk
  reads off them;
* `Laid`, `laid_iff`: which lists are stored chains;
* `originIndex`, `positionOf`, `splice`: places in a stored chain;
* `Inclusion`, `includeStored`, `includeStored_eq`: including by positions is `weaveIncluded`;
* `Prependage`, `prependStored`, `prependStored_eq`: prepending by positions is `weavePrepended`;
* `stored_include`, `stored_prepend`: the stored chain of a module after it included or prepended.
-/

namespace ObjectModel

/-- One link of a stored chain. -/
inductive StoredLink
  /-- Modules are prepended. -/
  | marker
  /-- The place of the owner. -/
  | origin
  | mixin (m : ModuleId)
  deriving DecidableEq

variable {k m n : ModuleId} {ms included prepended : List ModuleId}
  {ls start new : List StoredLink} {skip : ModuleId → Bool} {w : Weave}

/-- What a walk along the chain of `owner` meets. -/
def StoredLink.read (owner : ModuleId) : StoredLink → Link
  | marker => .marker owner
  | origin => .module owner
  | mixin m => .module m

/-- The links in front of the owner, a marker first unless nothing is prepended. -/
def storedFront (prepended : List ModuleId) : List StoredLink :=
  (if prepended.isEmpty then [] else [.marker]) ++ prepended.map .mixin

/-- The links of a chain as they are stored. -/
def Chain.stored (c : Chain) : List StoredLink :=
  storedFront c.prepended ++ .origin :: c.included.map .mixin

/-- Reading a stored chain gives its links. -/
theorem Chain.map_read_stored (c : Chain) (owner : ModuleId) :
    c.stored.map (StoredLink.read owner) = c.links owner := by
  have hmixins (ms : List ModuleId) :
      (ms.map StoredLink.mixin).map (StoredLink.read owner) = ms.map Link.module := by
    rw [List.map_map]
    rfl
  unfold stored storedFront links modules
  rw [List.map_append, List.map_append, List.map_cons, hmixins, hmixins, List.map_append,
    List.map_cons, List.append_assoc]
  split <;> rfl

/-! ### Positions -/

/-- The place of the owner. -/
def originIndex (ls : List StoredLink) : Nat := (ls.findIdx? (· == .origin)).getD 0

/-- The first place of a module that is mixed in. -/
def positionOf (ls : List StoredLink) (k : ModuleId) : Option Nat := ls.findIdx? (· == .mixin k)

/-- Whether a marker comes first. -/
def hasPrepends (ls : List StoredLink) : Bool := ls.head? == some .marker

theorem origin_notMem_storedFront (prepended : List ModuleId) :
    StoredLink.origin ∉ storedFront prepended := by
  unfold storedFront
  split <;> simp

/-- The links of a chain: one place for the owner, and a marker first exactly if modules are mixed
in before it, but nowhere else. -/
structure Laid (ls : List StoredLink) : Prop where
  origin : ls.count .origin = 1
  marker : StoredLink.marker ∉ ls.tail
  prepends : hasPrepends ls = true ↔ ∃ k, StoredLink.mixin k ∈ ls.takeWhile (· != .origin)

/-- Without markers and places for an owner, links are modules. -/
theorem exists_mixins (hmarker : StoredLink.marker ∉ ls) (horigin : StoredLink.origin ∉ ls) :
    ∃ ms : List ModuleId, ls = ms.map .mixin := by
  induction ls with
  | nil => exact ⟨[], rfl⟩
  | cons l ls ih =>
    obtain ⟨ms, rfl⟩ := ih (fun h => hmarker (List.mem_cons_of_mem l h))
      fun h => horigin (List.mem_cons_of_mem l h)
    cases l with
    | marker => exact absurd List.mem_cons_self hmarker
    | origin => exact absurd List.mem_cons_self horigin
    | mixin m => exact ⟨m :: ms, rfl⟩

theorem takeWhile_origin (h : StoredLink.origin ∉ start) (ls : List StoredLink) :
    (start ++ .origin :: ls).takeWhile (· != .origin) = start := by
  have hall : ∀ l ∈ start, (l != .origin) = true := by
    intro l hl
    exact bne_iff_ne.2 fun he => h (he ▸ hl)
  rw [List.takeWhile_append_of_pos hall, List.takeWhile_cons_of_neg (by simp), List.append_nil]

/-- The lists that are laid are those that chains are stored as. -/
theorem laid_iff : Laid ls ↔ ∃ c : Chain, c.stored = ls := by
  constructor
  · intro h
    obtain ⟨start, rest, rfl, hstart⟩ :=
      List.eq_append_cons_of_mem (List.count_pos_iff.1 (h.origin ▸ Nat.one_pos))
    have hrest : StoredLink.origin ∉ rest := by
      have hcount := h.origin
      rw [List.count_append, List.count_cons_self, List.count_eq_zero_of_not_mem hstart] at hcount
      exact List.count_eq_zero.1 (by omega)
    have hprepends := h.prepends
    rw [takeWhile_origin hstart] at hprepends
    -- what is in front of the owner: nothing, or a marker and what is prepended
    cases start with
    | nil =>
      obtain ⟨ms, rfl⟩ := exists_mixins h.marker hrest
      exact ⟨{ included := ms }, rfl⟩
    | cons l start =>
      have htail := h.marker
      rw [List.cons_append, List.tail_cons, List.mem_append, not_or, List.mem_cons, not_or] at htail
      obtain ⟨ms, rfl⟩ := exists_mixins htail.2.2 hrest
      obtain ⟨ps, rfl⟩ := exists_mixins htail.1 fun hin => hstart (List.mem_cons_of_mem l hin)
      cases l with
      | marker =>
        obtain ⟨k, hk⟩ := hprepends.1 rfl
        cases ps with
        | nil => simp at hk
        | cons p ps => exact ⟨{ prepended := p :: ps, included := ms }, rfl⟩
      | origin => exact absurd List.mem_cons_self hstart
      | mixin k => cases hprepends.2 ⟨k, List.mem_cons_self⟩
  · rintro ⟨c, rfl⟩
    have horigin := origin_notMem_storedFront c.prepended
    refine ⟨?_, ?_, ?_⟩
    · have hmixins : (c.included.map StoredLink.mixin).count .origin = 0 :=
        List.count_eq_zero.2 (by simp)
      rw [Chain.stored, List.count_append, List.count_cons_self, hmixins,
        List.count_eq_zero_of_not_mem horigin]
    · unfold Chain.stored storedFront
      cases c.prepended <;> simp
    · rw [Chain.stored, takeWhile_origin horigin]
      unfold storedFront
      cases c.prepended with
      | nil => simp [hasPrepends]
      | cons p ps => simp [hasPrepends]

theorem originIndex_append (h : StoredLink.origin ∉ start) (ls : List StoredLink) :
    originIndex (start ++ .origin :: ls) = start.length := by
  have hnone : start.findIdx? (· == .origin) = none :=
    List.findIdx?_eq_none_iff.2 fun l hl => beq_eq_false_iff_ne.2 fun he => h (he ▸ hl)
  simp [originIndex, List.findIdx?_append, hnone, List.findIdx?_cons]

theorem positionOf_mixins (ms : List ModuleId) (k : ModuleId) :
    positionOf (ms.map .mixin) k = if k ∈ ms then some (ms.idxOf k) else none := by
  induction ms with
  | nil => rfl
  | cons m ms ih =>
    unfold positionOf at ih ⊢
    by_cases h : m = k
    · subst h
      simp [List.findIdx?_cons]
    · have hne : k ≠ m := fun he => h he.symm
      rw [List.map_cons, List.findIdx?_cons, ih]
      by_cases hk : k ∈ ms
      · simp [h, hk]
      · simp [h, hne, hk]

/-- A module is looked for in front of the owner first, and behind it then. -/
theorem positionOf_append (start : List StoredLink) (ms : List ModuleId) (k : ModuleId) :
    positionOf (start ++ .origin :: ms.map .mixin) k =
      (positionOf start k).or
        (if k ∈ ms then some (start.length + 1 + ms.idxOf k) else none) := by
  have hmixins := positionOf_mixins ms k
  unfold positionOf at hmixins ⊢
  rw [List.findIdx?_append, List.findIdx?_cons, hmixins]
  by_cases hk : k ∈ ms
  · have hadd : ms.idxOf k + 1 + start.length = start.length + 1 + ms.idxOf k := by omega
    simp [hk, hadd]
  · simp [hk]

theorem positionOf_marked (ms : List ModuleId) (k : ModuleId) :
    positionOf (.marker :: ms.map .mixin) k = if k ∈ ms then some (ms.idxOf k + 1) else none := by
  have hmixins := positionOf_mixins ms k
  unfold positionOf at hmixins ⊢
  rw [List.findIdx?_cons, hmixins]
  by_cases hk : k ∈ ms <;> simp [hk]

theorem length_storedFront_of_mem (h : k ∈ prepended) :
    (storedFront prepended).length = prepended.length + 1 := by
  cases prepended with
  | nil => cases h
  | cons m ms => simp [storedFront]

theorem positionOf_storedFront (prepended : List ModuleId) (k : ModuleId) :
    positionOf (storedFront prepended) k =
      if k ∈ prepended then some (prepended.idxOf k + 1) else none := by
  cases prepended with
  | nil => rfl
  | cons m ms => exact positionOf_marked (m :: ms) k

/-- The links with others put in at a place. -/
def splice (ls : List StoredLink) (i : Nat) (ms : List ModuleId) : List StoredLink :=
  ls.take i ++ ms.map .mixin ++ ls.drop i

/-- Behind the owner, places are counted from it. -/
theorem splice_included (start : List StoredLink) (included : List ModuleId) (i : Nat)
    (ms : List ModuleId) :
    splice (start ++ .origin :: included.map .mixin) (start.length + 1 + i) ms =
      start ++ .origin :: (included.take i ++ ms ++ included.drop i).map .mixin := by
  have hsplit : start ++ StoredLink.origin :: included.map StoredLink.mixin =
      (start ++ [.origin]) ++ included.map .mixin := by simp
  have hlength : start.length + 1 = (start ++ [StoredLink.origin]).length := by simp
  rw [splice, hsplit, hlength, List.take_length_add_append, List.drop_length_add_append]
  simp

/-- In front of the owner, they are counted from the marker. -/
theorem splice_prepended {i : Nat} (hi : i ≤ prepended.length) (k : ModuleId)
    (ls : List StoredLink) :
    splice (.marker :: prepended.map .mixin ++ ls) (i + 1) [k] =
      .marker :: (prepended.take i ++ [k] ++ prepended.drop i).map .mixin ++ ls := by
  have hi' : i ≤ (prepended.map StoredLink.mixin).length := by rwa [List.length_map]
  rw [splice, List.cons_append, List.take_succ_cons, List.drop_succ_cons,
    List.take_append_of_le_length hi', List.drop_append_of_le_length hi']
  simp

/-! ### What went in -/

/-- Whether modules went into a list. -/
def Grew (old ms : List ModuleId) (changed : Bool) : Prop :=
  if changed then old.length < ms.length else ms = old

section Growing

variable {old more : List ModuleId} {i : Nat} {changed : Bool}

theorem length_inserted (hi : i ≤ ms.length) (more : List ModuleId) :
    (ms.take i ++ more ++ ms.drop i).length = ms.length + more.length := by
  simp only [List.length_append, List.length_take, List.length_drop]
  omega

theorem Grew.length_le (h : Grew old ms changed) : old.length ≤ ms.length := by
  unfold Grew at h
  split at h
  · exact Nat.le_of_lt h
  · exact Nat.le_of_eq (congrArg List.length h.symm)

theorem Grew.insert (h : Grew old ms changed) (hi : i ≤ ms.length) (hmore : more ≠ []) :
    Grew old (ms.take i ++ more ++ ms.drop i) true := by
  have hle := h.length_le
  have hpos := List.length_pos_iff.2 hmore
  rw [Grew, if_pos rfl, length_inserted hi]
  omega

/-- Modules went in exactly if the list is another one. -/
theorem Grew.changed_iff (h : Grew old ms changed) : changed = true ↔ ms ≠ old := by
  unfold Grew at h
  split at h
  · next hc =>
    refine iff_of_true hc fun he => ?_
    rw [he] at h
    exact Nat.lt_irrefl _ h
  · next hc => exact iff_of_false hc (not_not_intro h)

end Growing

/-- What is stored, new links or the ones from before, are the new ones in any case. -/
theorem getD_stored {old ms : List ModuleId} (links : List ModuleId → List StoredLink) :
    (if ms = old then none else some (links ms)).getD (links old) = links ms := by
  split
  · next he => rw [he, Option.getD_none]
  · rfl

theorem laid_of_stored {p : Prop} [Decidable p] {c : Chain}
    (h : (if p then none else some c.stored) = some new) : Laid new := by
  split at h
  · cases h
  · exact laid_iff.2 ⟨c, Option.some.inj h⟩

/-! ### Including -/

/-- A stored chain that modules are worked into: the place where the next ones go, those that wait
to go there, and whether any went in. -/
structure Inclusion where
  links : List StoredLink
  insertion : Nat
  pending : List ModuleId := []
  changed : Bool := false

namespace Inclusion

/-- Put the waiting modules in. -/
def flush (s : Inclusion) : Inclusion :=
  if s.pending.isEmpty then s
  else { s with links := splice s.links s.insertion s.pending, pending := [], changed := true }

/-- A module behind the owner lets the waiting ones in, and the next ones go behind it; one in front
of it is passed over; any other waits, unless it is skipped. -/
def add (skip : ModuleId → Bool) (s : Inclusion) (k : ModuleId) : Inclusion :=
  match positionOf s.links k with
  | some i =>
    if originIndex s.links < i then
      { s.flush with insertion := (positionOf s.flush.links k).getD i + 1 }
    else s
  | none => if skip k then s else { s with pending := s.pending ++ [k] }

/-- A stored chain under insertion has what is woven behind its owner. -/
structure Mirrors (prepended included : List ModuleId) (s : Inclusion) (w : Weave) : Prop where
  links : s.links = storedFront prepended ++ .origin :: w.modules.map .mixin
  insertion : s.insertion = (storedFront prepended).length + 1 + w.position
  pending : s.pending = w.waiting
  within : w.position ≤ w.modules.length
  grew : Grew included w.modules s.changed

variable {s : Inclusion}

theorem Mirrors.flush (h : s.Mirrors prepended included w) :
    s.flush.Mirrors prepended included w.flush := by
  unfold Inclusion.flush Weave.flush
  rw [h.pending]
  split
  · next he =>
    rw [List.isEmpty_iff.1 he, List.append_nil, List.take_append_drop]
    exact ⟨h.links, h.insertion, h.pending.trans (List.isEmpty_iff.1 he), h.within, h.grew⟩
  · next he =>
    refine ⟨?_, h.insertion, rfl, ?_, h.grew.insert h.within fun hnil => he (by rw [hnil]; rfl)⟩
    · rw [h.links, h.insertion]
      exact splice_included _ _ _ _
    · rw [length_inserted h.within]
      exact Nat.le_add_right_of_le h.within

/-- A module that is prepended is passed over. -/
theorem add_of_prepended (h : s.Mirrors prepended included w) (hk : k ∈ prepended) :
    s.add skip k = s := by
  have hlt := List.idxOf_lt_length_of_mem hk
  rw [add, h.links, positionOf_append, positionOf_storedFront, if_pos hk, Option.some_or,
    originIndex_append (origin_notMem_storedFront prepended), length_storedFront_of_mem hk]
  exact if_neg (by omega)

/-- Any other does what it does when it is woven in. -/
theorem Mirrors.add (h : s.Mirrors prepended included w) (hk : k ∉ prepended) :
    (s.add skip k).Mirrors prepended included (w.addIncluded skip k) := by
  have hfront : positionOf (storedFront prepended) k = none := by
    rw [positionOf_storedFront, if_neg hk]
  unfold Inclusion.add Weave.addIncluded
  rw [h.links, positionOf_append, hfront, Option.none_or,
    originIndex_append (origin_notMem_storedFront prepended)]
  by_cases hm : k ∈ w.modules
  · rw [if_pos hm, if_pos hm]
    dsimp only
    rw [if_pos (by omega)]
    have hf := h.flush
    have hmem : k ∈ w.flush.modules := Weave.mem_flush.2 (.inl hm)
    refine ⟨hf.links, ?_, hf.pending, List.idxOf_lt_length_of_mem hmem, hf.grew⟩
    rw [hf.links, positionOf_append, hfront, Option.none_or, if_pos hmem]
    rfl
  · rw [if_neg hm, if_neg hm]
    dsimp only
    split
    · exact h
    · exact ⟨rfl, h.insertion, congrArg (· ++ [k]) h.pending, h.within, h.grew⟩

theorem Mirrors.foldl (h : s.Mirrors prepended included w) (ms : List ModuleId) :
    (ms.foldl (Inclusion.add skip) s).Mirrors prepended included
      ((ms.filter fun k => !prepended.contains k).foldl (Weave.addIncluded skip) w) := by
  induction ms generalizing s w with
  | nil => exact h
  | cons k ms ih =>
    rw [List.foldl_cons]
    by_cases hk : k ∈ prepended
    · rw [add_of_prepended h hk, List.filter_cons_of_neg (by simpa using hk)]
      exact ih h
    · rw [List.filter_cons_of_pos (by simpa using hk), List.foldl_cons]
      exact ih (h.add hk)

end Inclusion

/-- The links to store when modules are included, if there are new ones. -/
def includeStored (skip : ModuleId → Bool) (ls : List StoredLink) (ms : List ModuleId) :
    Option (List StoredLink) :=
  let s := (ms.foldl (Inclusion.add skip) { links := ls, insertion := originIndex ls + 1 }).flush
  if s.changed then some s.links else none

/-- Including by positions is weaving into the included part what is not prepended. -/
theorem includeStored_eq (skip : ModuleId → Bool) (c : Chain) (ms : List ModuleId) :
    includeStored skip c.stored ms =
      let woven := weaveIncluded skip c.included (ms.filter fun k => !c.prepended.contains k)
      if woven = c.included then none
      else some ({ c with included := woven } : Chain).stored := by
  have hstart : Inclusion.Mirrors c.prepended c.included
      { links := c.stored, insertion := originIndex c.stored + 1 } { modules := c.included } := by
    refine ⟨rfl, ?_, rfl, Nat.zero_le _, rfl⟩
    rw [Chain.stored, originIndex_append (origin_notMem_storedFront c.prepended)]
    rfl
  have hend : Inclusion.Mirrors c.prepended c.included (ms.foldl (Inclusion.add skip) _).flush _ :=
    (hstart.foldl ms).flush
  unfold includeStored weaveIncluded
  generalize (ms.foldl (Inclusion.add skip) _).flush = s at hend
  generalize Weave.flush _ = w at hend
  have hchanged := hend.grew.changed_iff
  dsimp only
  by_cases he : w.modules = c.included
  · rw [if_neg fun hc => hchanged.1 hc he, if_pos he]
  · rw [if_pos (hchanged.2 he), if_neg he, hend.links]
    rfl

/-- What including stores is laid again. -/
theorem Laid.of_includeStored (h : Laid ls) (hs : includeStored skip ls ms = some new) :
    Laid new := by
  obtain ⟨c, rfl⟩ := laid_iff.1 h
  rw [includeStored_eq] at hs
  exact laid_of_stored hs

/-! ### Prepending -/

/-- A stored chain that modules are put in front of: the last one met, and whether any went in. -/
structure Prependage where
  links : List StoredLink
  cursor : Nat := 0
  changed : Bool := false

namespace Prependage

/-- A module in front of the owner is gone to; one behind it is passed over; any other goes in
behind the last one met. -/
def add (s : Prependage) (k : ModuleId) : Prependage :=
  match positionOf s.links k with
  | some i => if i < originIndex s.links then { s with cursor := i } else s
  | none => ⟨splice s.links (s.cursor + 1) [k], s.cursor + 1, true⟩

/-- A stored chain under insertion has what is woven in front of its owner, behind a marker. -/
structure Mirrors (prepended included : List ModuleId) (s : Prependage) (w : Weave) : Prop where
  links : s.links = (.marker :: w.modules.map .mixin) ++ .origin :: included.map .mixin
  cursor : s.cursor = w.position
  within : w.position ≤ w.modules.length
  grew : Grew prepended w.modules s.changed

variable {s : Prependage}

theorem Mirrors.add (h : s.Mirrors prepended included w) (k : ModuleId) :
    (s.add k).Mirrors prepended included (w.addPrepended included.contains k) := by
  have horigin : StoredLink.origin ∉ StoredLink.marker :: w.modules.map .mixin := by simp
  unfold Prependage.add Weave.addPrepended
  rw [h.links, positionOf_append, positionOf_marked, originIndex_append horigin]
  by_cases hm : k ∈ w.modules
  · have hlt := List.idxOf_lt_length_of_mem hm
    rw [if_pos hm, if_pos hm, Option.some_or]
    dsimp only
    rw [if_pos (by simpa using hlt)]
    exact ⟨rfl, rfl, hlt, h.grew⟩
  · rw [if_neg hm, if_neg hm, Option.none_or]
    by_cases hi : k ∈ included
    · rw [if_pos hi, if_pos (by simpa using hi)]
      dsimp only
      rw [if_neg (by omega)]
      exact h
    · rw [if_neg hi, if_neg (by simpa using hi)]
      refine ⟨?_, congrArg (· + 1) h.cursor, ?_, h.grew.insert h.within (List.cons_ne_nil k [])⟩
      · dsimp only
        rw [h.cursor]
        exact splice_prepended h.within k _
      · show w.position + 1 ≤ (w.modules.take w.position ++ [k] ++ w.modules.drop w.position).length
        rw [length_inserted h.within]
        exact Nat.succ_le_succ h.within

theorem Mirrors.foldl (h : s.Mirrors prepended included w) (ms : List ModuleId) :
    (ms.foldl Prependage.add s).Mirrors prepended included
      (ms.foldl (Weave.addPrepended included.contains) w) := by
  induction ms generalizing s w with
  | nil => exact h
  | cons k ms ih => exact ih (h.add k)

end Prependage

/-- The links to store when modules are prepended, if there are new ones. -/
def prependStored (ls : List StoredLink) (ms : List ModuleId) : Option (List StoredLink) :=
  let s := ms.foldl Prependage.add { links := if hasPrepends ls then ls else .marker :: ls }
  if s.changed then some s.links else none

/-- Prepending by positions is weaving into the prepended part what is not included. -/
theorem prependStored_eq (c : Chain) (ms : List ModuleId) :
    prependStored c.stored ms =
      let woven := weavePrepended c.included.contains c.prepended ms
      if woven = c.prepended then none
      else some ({ c with prepended := woven } : Chain).stored := by
  have hmarked : (if hasPrepends c.stored then c.stored else .marker :: c.stored) =
      (.marker :: c.prepended.map .mixin) ++ .origin :: c.included.map .mixin := by
    unfold Chain.stored storedFront
    cases c.prepended <;> rfl
  have hstart : Prependage.Mirrors c.prepended c.included
      { links := if hasPrepends c.stored then c.stored else .marker :: c.stored }
      { modules := c.prepended } := ⟨hmarked, rfl, Nat.zero_le _, rfl⟩
  have hend := hstart.foldl ms
  unfold prependStored weavePrepended
  generalize ms.foldl Prependage.add _ = s at hend
  generalize ms.foldl (Weave.addPrepended c.included.contains) _ = w at hend
  have hchanged := hend.grew.changed_iff
  dsimp only
  by_cases he : w.modules = c.prepended
  · rw [if_neg fun hc => hchanged.1 hc he, if_pos he]
  · have hne : w.modules ≠ [] := fun hnil => he (by
      have hle := hend.grew.length_le
      rw [hnil] at hle ⊢
      exact (List.length_eq_zero_iff.1 (Nat.le_zero.1 hle)).symm)
    -- something is prepended now, so that the marker stays
    have hfront : storedFront w.modules = .marker :: w.modules.map .mixin := by
      rw [storedFront, if_neg (by simpa using hne)]
      rfl
    rw [if_pos (hchanged.2 he), if_neg he, hend.links, Chain.stored, hfront]

/-- So is what prepending stores. -/
theorem Laid.of_prependStored (h : Laid ls) (hs : prependStored ls ms = some new) :
    Laid new := by
  obtain ⟨c, rfl⟩ := laid_iff.1 h
  rw [prependStored_eq] at hs
  exact laid_of_stored hs

/-! ### Chains of modules -/

namespace Universe

variable {u : Universe}

/-- A module that includes another stores what including by positions gives. -/
theorem stored_include (h : u.Mixable m n) :
    ((u.after (.includeModule m n)).module m).chain.stored =
      (includeStored (fun k => (u.module m).chain.parent.any fun p => u.includes p k)
        (u.module m).chain.stored (u.ancestors n)).getD (u.module m).chain.stored := by
  rw [(rechains_include h).chain_self, includeStored_eq]
  exact (getD_stored fun ms => Chain.stored { (u.module m).chain with included := ms }).symm

/-- A module that another is prepended to stores what prepending by positions gives. -/
theorem stored_prepend (h : u.Mixable m n) :
    ((u.after (.prependModule m n)).module m).chain.stored =
      (prependStored (u.module m).chain.stored (u.prependable n)).getD
        (u.module m).chain.stored := by
  rw [(rechains_prepend h).chain_self, prependStored_eq]
  exact (getD_stored fun ms => Chain.stored { (u.module m).chain with prepended := ms }).symm

end Universe

end ObjectModel
