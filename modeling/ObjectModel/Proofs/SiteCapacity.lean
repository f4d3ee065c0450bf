import ObjectModel.Proofs.SiteCoherence

/-!
# Capacity of call sites

What a site remembers, whatever becomes of the universe between its lookups: at most as many results
as it may, one for each class of receivers, and none once it is megamorphic.  The result of a
lookup that leaves it otherwise is there for the next receiver of the class.

* `History`: the lookups and calls at a site, with the universe changing in between;
* `WithinCapacity`: what holds of the entries of a site;
* `Holds`: a site has a valid result for a class;
* `lookup_lookup`: asking again at once;
* `history_within_capacity`: what holds of a site after any history.
-/

namespace ObjectModel

namespace CallSite

open Universe

variable {u v : Universe} {s t : CallSite} {x : Value} {m : ModuleId} {r : MethodResult} {n : Nat}

/-! ### Histories -/

/-- A site and a universe lead to a site and a universe by lookups and calls, so many of them, with
any changes of the universe in between.  A call whose method uses the site again counts as the
lookup that starts it, those that follow, and changes. -/
inductive History (u : Universe) (s : CallSite) : Universe → CallSite → Nat → Prop
  | here : History u s u s 0
  | changed {v : Universe} {t : CallSite} {n : Nat} (h : History u s v t n) (w : Universe) :
    History u s w t n
  | asked {v : Universe} {t : CallSite} {n : Nat} (h : History u s v t n) (x : Value) :
    History u s (t.lookup x v).2 (t.lookup x v).1.2 (n + 1)
  | called {σ : Type} {v : Universe} {t : CallSite} {n : Nat} (h : History u s v t n)
    (run : RunMethod σ) (x : Value) (args : List Value) (w : World σ)
    (hw : w.model = (t.lookup x v).2) :
    History u s (Act.final (Invocation.callAtSite run (t.lookup x v).1.2 (t.lookup x v).1.1 x args)
      w).model (t.lookup x v).1.2 (n + 1)

/-- What every lookup keeps is kept along a history. -/
theorem History.induction {P : CallSite → Nat → Prop} (h : History u s v t n) (here : P s 0)
    (asked : ∀ t n x v, P t n → P (t.lookup x v).1.2 (n + 1)) : P t n := by
  induction h with
  | here => exact here
  | changed _ _ ih => exact ih
  | asked _ x ih => exact asked _ _ x _ ih
  | called _ _ x _ _ _ ih => exact asked _ _ x _ ih

/-! ### Remembering -/

/-- Remembering a result changes the entries and the mode of a site only. -/
theorem remember_counts (s : CallSite) (v : Universe) (m : ModuleId) (r : MethodResult) :
    (s.remember v m r).limit = s.limit ∧ (s.remember v m r).hits = s.hits ∧
      (s.remember v m r).misses = s.misses := by
  unfold remember
  split
  · exact ⟨rfl, rfl, rfl⟩
  · split <;> exact ⟨rfl, rfl, rfl⟩

theorem remember_of_megamorphic (h : s.megamorphic = true) : s.remember v m r = s := by
  simp [remember, h]

/-- What holds of the entries of a site. -/
structure WithinCapacity (s : CallSite) : Prop where
  length_le : s.entries.length ≤ s.limit
  nodup : (s.entries.map CacheEntry.metaclass).Nodup
  empty_of_megamorphic : s.megamorphic = true → s.entries = []

theorem withinCapacity_make (u : Universe) (name : String) (c : Context) :
    (make u name c).WithinCapacity :=
  ⟨Nat.zero_le _, List.nodup_nil, fun _ => rfl⟩

/-- No other entry is for the class itself. -/
theorem metaclass_notMem_otherEntries :
    m ∉ (s.otherEntries v m).map CacheEntry.metaclass := by
  intro h
  obtain ⟨e, he, rfl⟩ := List.mem_map.1 h
  simpa using (List.mem_filter.1 he).2

/-- Stale entries and the one for the class itself make room before the new one comes in. -/
theorem WithinCapacity.remember (h : s.WithinCapacity) (v : Universe) (m : ModuleId)
    (r : MethodResult) : (s.remember v m r).WithinCapacity := by
  unfold CallSite.remember
  split
  · exact h
  · next hopen =>
    split
    · exact ⟨Nat.zero_le _, List.nodup_nil, fun _ => rfl⟩
    · next hroom =>
      have hothers : ((s.otherEntries v m).map CacheEntry.metaclass).Nodup :=
        h.nodup.sublist (List.filter_sublist.map _)
      refine ⟨?_, ?_, fun hmega => ?_⟩
      · have hlt : (s.otherEntries v m).length < s.limit := by simpa [overflows] using hroom
        rw [List.length_append]
        exact hlt
      · rw [List.map_append, List.nodup_append]
        refine ⟨hothers, List.nodup_cons.2 ⟨List.not_mem_nil, List.nodup_nil⟩,
          fun k hk k' hk' heq => ?_⟩
        rw [heq, List.mem_singleton.1 hk'] at hk
        exact metaclass_notMem_otherEntries hk
      · simp only [Bool.or_eq_true, not_or] at hopen
        exact absurd hmega hopen.1

/-! ### Lookups -/

theorem WithinCapacity.lookup (h : s.WithinCapacity) (x : Value) (u : Universe) :
    (s.lookup x u).1.2.WithinCapacity := by
  cases hcached : s.cached? (metaclassOf x u).2 (metaclassOf x u).1 with
  | some r =>
    rw [lookup_of_hit hcached]
    exact ⟨h.length_le, h.nodup, h.empty_of_megamorphic⟩
  | none =>
    obtain ⟨r, v, hs, -⟩ := lookup_of_miss hcached
    rw [hs]
    have hmissed : { s with misses := s.misses + 1 }.WithinCapacity :=
      ⟨h.length_le, h.nodup, h.empty_of_megamorphic⟩
    exact hmissed.remember _ _ _

/-- A lookup is counted once, and the limit stays. -/
theorem lookup_counts (s : CallSite) (x : Value) (u : Universe) :
    (s.lookup x u).1.2.limit = s.limit ∧
      (s.lookup x u).1.2.hits + (s.lookup x u).1.2.misses = s.hits + s.misses + 1 := by
  cases hcached : s.cached? (metaclassOf x u).2 (metaclassOf x u).1 with
  | some r =>
    rw [lookup_of_hit hcached]
    exact ⟨rfl, Nat.succ_add _ _⟩
  | none =>
    obtain ⟨r, v, hs, -⟩ := lookup_of_miss hcached
    obtain ⟨hlimit, hhits, hmisses⟩ :=
      remember_counts { s with misses := s.misses + 1 } v (metaclassOf x u).1 r
    rw [hs]
    refine ⟨hlimit, ?_⟩
    rw [hhits, hmisses, Nat.add_assoc]

theorem megamorphic_lookup (h : s.megamorphic = true) (x : Value) (u : Universe) :
    (s.lookup x u).1.2.megamorphic = true := by
  cases hcached : s.cached? (metaclassOf x u).2 (metaclassOf x u).1 with
  | some r =>
    rw [lookup_of_hit hcached]
    exact h
  | none =>
    obtain ⟨r, v, hs, -⟩ := lookup_of_miss hcached
    have hmissed : { s with misses := s.misses + 1 }.megamorphic = true := h
    rw [hs, remember_of_megamorphic hmissed]
    exact h

/-- A site has a valid result for a class of receivers. -/
def Holds (s : CallSite) (u : Universe) (m : ModuleId) (r : MethodResult) : Prop :=
  s.entries.find? (fun e => e.metaclass == m) = some ⟨m, r⟩ ∧ u.isValidMethod r = true

theorem cached?_eq_some_iff : s.cached? u m = some r ↔ s.Holds u m r := by
  unfold cached? Holds
  rw [Option.filter_eq_some_iff]
  refine and_congr_left fun _ => ⟨fun h => ?_, fun h => by rw [h]; rfl⟩
  obtain ⟨e, he, rfl⟩ := Option.map_eq_some_iff.1 h
  have hm : e.metaclass = m := by simpa using List.find?_some he
  rw [he, ← hm]

/-- What a lookup gives is there afterwards, unless the site is megamorphic then. -/
theorem holds_lookup (h : (s.lookup x u).1.2.megamorphic = false) :
    (s.lookup x u).1.2.Holds (s.lookup x u).2 (metaclassOf x u).1 (s.lookup x u).1.1 := by
  cases hcached : s.cached? (metaclassOf x u).2 (metaclassOf x u).1 with
  | some r =>
    rw [lookup_of_hit hcached]
    exact cached?_eq_some_iff.1 hcached
  | none =>
    obtain ⟨r, v, hs, -, hassumptions, hv, -⟩ := lookup_of_miss hcached
    -- only the tables of modules count, and no table changed since the result was found
    have hvalid (w : Universe) (hw : w.modules = (s.lookup x u).2.modules) :
        w.isValidMethod r = true := by
      rw [isValidMethod, hassumptions, ← lookupMethod_of_modules hw]
      exact isValidMethod_lookupMethod.2 fun _ _ => rfl
    rw [hs] at h
    have hfound := find?_remember (hvalid v hv) h
    rw [hs]
    exact ⟨hfound, hvalid _ rfl⟩

/-- A site that has a valid result gives it. -/
theorem lookup_of_holds (hm : metaclassOf x u = (m, u)) (h : s.Holds u m r) :
    s.lookup x u = ((r, { s with hits := s.hits + 1 }), u) := by
  have hcached : s.cached? (metaclassOf x u).2 (metaclassOf x u).1 = some r := by
    rw [hm]
    exact cached?_eq_some_iff.2 h
  rw [lookup_of_hit hcached, hm]

/-- Asked again at once, a site that is not megamorphic gives the same result, as a hit that changes
nothing else. -/
theorem lookup_lookup (h : (s.lookup x u).1.2.megamorphic = false) :
    (s.lookup x u).1.2.lookup x (s.lookup x u).2 =
      (((s.lookup x u).1.1, { (s.lookup x u).1.2 with hits := (s.lookup x u).1.2.hits + 1 }),
        (s.lookup x u).2) :=
  lookup_of_holds (metaclassOf_lookup s x u) (holds_lookup h)

/-! ### Whole histories -/

theorem History.withinCapacity (h : History u s v t n) (hs : s.WithinCapacity) :
    t.WithinCapacity :=
  h.induction (P := fun t _ => t.WithinCapacity) hs fun _ _ x v ht => ht.lookup x v

theorem History.limit (h : History u s v t n) : t.limit = s.limit :=
  h.induction (P := fun t _ => t.limit = s.limit) rfl
    fun t _ x v ht => (lookup_counts t x v).1.trans ht

theorem History.lookups (h : History u s v t n) : t.hits + t.misses = s.hits + s.misses + n :=
  h.induction (P := fun t n => t.hits + t.misses = s.hits + s.misses + n) rfl
    fun t _ x v ht => (lookup_counts t x v).2.trans (congrArg (· + 1) ht)

theorem History.megamorphic (h : History u s v t n) (hs : s.megamorphic = true) :
    t.megamorphic = true :=
  h.induction (P := fun t _ => t.megamorphic = true) hs fun _ _ x v ht => megamorphic_lookup ht x v

/-- A site made in any universe, after any lookups and calls and any changes of the universe: it has
no more entries than the universe allowed when it was made, for different classes; its hits and
misses are its lookups; once megamorphic it is so for good and has no entries; and a lookup that
leaves it otherwise leaves a valid entry for the class of the receiver, with the result that it
gave, which a second lookup at once gives as a hit. -/
theorem history_within_capacity {name : String} {c : Context}
    (h : History u (make u name c) v s n) :
    s.entries.length ≤ u.options.methodCacheLimit ∧
    (s.entries.map CacheEntry.metaclass).Nodup ∧
    s.hits + s.misses = n ∧
    (s.megamorphic = true → s.entries = [] ∧
      ∀ w t k, History v s w t k → t.megamorphic = true ∧ t.entries = []) ∧
    ∀ x, (s.lookup x v).1.2.megamorphic = false →
      (s.lookup x v).1.2.Holds (s.lookup x v).2 (metaclassOf x v).1 (s.lookup x v).1.1 ∧
      (s.lookup x v).1.2.lookup x (s.lookup x v).2 =
        (((s.lookup x v).1.1, { (s.lookup x v).1.2 with hits := (s.lookup x v).1.2.hits + 1 }),
          (s.lookup x v).2) := by
  have hs := h.withinCapacity (withinCapacity_make u name c)
  refine ⟨?_, hs.nodup, ?_, fun hmega => ⟨hs.empty_of_megamorphic hmega, fun w t k hlater => ?_⟩,
    fun x hroom => ⟨holds_lookup hroom, lookup_lookup hroom⟩⟩
  · have hlimit : s.limit = u.options.methodCacheLimit := h.limit
    exact hlimit ▸ hs.length_le
  · simpa [make] using h.lookups
  · have ht := hlater.megamorphic hmega
    exact ⟨ht, (hlater.withinCapacity hs).empty_of_megamorphic ht⟩

/-- A universe whose sites may not remember anything. -/
def forgetful : Universe := create { methodCacheLimit := 0 }

/-- What the first lookup at a site for `f` gives, and what it leaves of the site and the
universe. -/
def askedOnce (u : Universe) (x : Value) : (MethodResult × CallSite) × Universe :=
  (make u "f" .toplevel).lookup x u

/-- Where there is room, a second lookup is a hit that gives the method again; where there is none,
a site is megamorphic from its first lookup on. -/
theorem hit_with_room_megamorphic_without :
    ((askedOnce attended (.object ⟨13⟩)).1.1.defined?.isSome = true ∧
      (askedOnce attended (.object ⟨13⟩)).1.2.Holds (askedOnce attended (.object ⟨13⟩)).2 ⟨12⟩
        (askedOnce attended (.object ⟨13⟩)).1.1 ∧
      ∃ s, (askedOnce attended (.object ⟨13⟩)).1.2.lookup (.object ⟨13⟩)
          (askedOnce attended (.object ⟨13⟩)).2 =
            (((askedOnce attended (.object ⟨13⟩)).1.1, s), (askedOnce attended (.object ⟨13⟩)).2) ∧
        s.hits = 1) ∧
    (askedOnce forgetful .nil).1.2.megamorphic = true ∧
    ∀ w t k, History (askedOnce forgetful .nil).2 (askedOnce forgetful .nil).1.2 w t k →
      t.megamorphic = true ∧ t.entries = [] := by
  have hroom : (askedOnce attended (.object ⟨13⟩)).1.2.megamorphic = false := by decide +kernel
  have hmissed : (askedOnce attended (.object ⟨13⟩)).1.2.hits = 0 := by decide +kernel
  have hclass : (metaclassOf (.object ⟨13⟩) attended).1 = ⟨12⟩ := by decide +kernel
  have hmega : (askedOnce forgetful .nil).1.2.megamorphic = true := by decide +kernel
  obtain ⟨hholds, hagain⟩ := (history_within_capacity History.here).2.2.2.2 _ hroom
  rw [hclass] at hholds
  exact ⟨⟨by decide +kernel, hholds, _, hagain, congrArg (· + 1) hmissed⟩, hmega,
    ((history_within_capacity (History.here.asked .nil)).2.2.2.1 hmega).2⟩

end CallSite

end ObjectModel
