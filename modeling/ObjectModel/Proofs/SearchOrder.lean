import ObjectModel.Proofs.Search

/-!
# The order of method lookup

The search for a method under a context is a single walk along one list of tables: before each
ancestor come the parts of the refinements that the context activates for it.  The first entry ends
the walk, but for one that hides the name inside a part, which only abandons the rest of that part.

* `Place`, `searchOrder`: the tables in order, each with the ancestor and the part it belongs to;
* `scan`: the walk, `Finding`: what it ends at and what it inspected;
* `searchMethod_eq_scan`: searches are walks, place by place;
* `takeWhile_searchOrder`: the order before a limit;
* `Method.Under`, `Answers`: a method as found in a part;
* `lookup_follows_searchOrder`: the three lookups.
-/

namespace ObjectModel

/-- The method as found under a context: the very same one but for the context noted on it. -/
structure Method.Under (c : Context) (f g : Method) : Prop where
  active : ∃ d, g.active = some d ∧ (d = c ∨ d.same c = true)
  content : { g.toMethodContent with active := f.active } = f.toMethodContent

theorem Method.under_withActive (c : Context) (f : Method) : f.Under c (f.withActive c) := by
  unfold Method.withActive
  split
  · next h =>
    obtain ⟨d, hd, hsame⟩ : ∃ d, f.active = some d ∧ d.same c = true := by
      simpa [Option.any_eq_true] using h
    exact ⟨⟨d, hd, .inr hsame⟩, rfl⟩
  · exact ⟨⟨c, rfl, .inl rfl⟩, rfl⟩

namespace Universe

variable {u : Universe} {c : Context} {name : String} {a m r limit : ModuleId} {n : Nat}

/-! ### The order -/

/-- A table in the order of a search: that of an ancestor itself, or one in the part of a
refinement of it, by the number of the part. -/
structure Place where
  ancestor : ModuleId
  part : Option Nat
  table : ModuleId
  deriving DecidableEq

/-- Whether two places are in the part of one refinement. -/
def Place.sharesPart (p q : Place) : Bool :=
  p.part.isSome && p.part == q.part && p.ancestor == q.ancestor

/-- The places in the parts of refinements of an ancestor; the number of each stands with it. -/
def partPlaces (u : Universe) (a : ModuleId) (rs : List (ModuleId × Nat)) : List Place :=
  rs.flatMap fun r => (u.refinementPart r.1 a).map (⟨a, some r.2, ·⟩)

/-- The places that a search visits for an ancestor: the parts of the refinements that the context
activates for it, then the ancestor itself. -/
def placesFor (u : Universe) (c : Context) (a : ModuleId) : List Place :=
  u.partPlaces a (c.refinementsFor a).zipIdx ++ [⟨a, none, a⟩]

/-- The order in which a search under a context visits tables. -/
def searchOrder (u : Universe) (c : Context) (ms : List ModuleId) : List Place :=
  ms.flatMap (u.placesFor c)

/-- What a walk ends at, and the tables that it inspected. -/
structure Finding where
  entry : Option (Place × Method)
  inspected : List ModuleId

/-- The finding of a walk that inspected a table before. -/
def Finding.behind (k : ModuleId) (x : Finding) : Finding :=
  { x with inspected := k :: x.inspected }

/-- Walk along places to the first entry for a name.  One that hides the name inside a part is
passed over, with the rest of its part. -/
def scan (u : Universe) (name : String) : List Place → Finding
  | [] => ⟨none, []⟩
  | p :: ps =>
    match u.ownMethod p.table name with
    | none => (u.scan name ps).behind p.table
    | some f =>
      if p.part.isSome && f.undefined then
        (u.scan name (ps.dropWhile p.sharesPart)).behind p.table
      else ⟨some (p, f), [p.table]⟩
termination_by ps => ps.length
decreasing_by
  · exact Nat.lt_succ_self _
  · exact Nat.lt_succ_of_le (List.dropWhile_sublist _).length_le

/-! ### Along the order -/

/-- The method that a walk answers: one found inside a part notes the context. -/
def Finding.method (c : Context) (x : Finding) : Option Method :=
  x.entry.map fun e => if e.1.part.isSome then e.2.withActive c else e.2

/-- A walk as the result of a lookup. -/
def Finding.result (u : Universe) (c : Context) (x : Finding) : MethodResult :=
  ⟨x.method c, x.inspected.map u.assumeMethods⟩

theorem result_behind (c : Context) (k : ModuleId) (x : Finding) :
    (x.behind k).result u c = (x.result u c).after [u.assumeMethods k] := rfl

/-- The places behind the part of a refinement are not in it. -/
theorem dropWhile_sharesPart {p : Place} {i : Nat} {rs : List ModuleId} {ps : List Place}
    (hp : p.part = some i) :
    (u.partPlaces a (rs.zipIdx (i + 1)) ++ ⟨a, none, a⟩ :: ps).dropWhile p.sharesPart =
      u.partPlaces a (rs.zipIdx (i + 1)) ++ ⟨a, none, a⟩ :: ps := by
  have hlater : ∀ q ∈ u.partPlaces a (rs.zipIdx (i + 1)), p.sharesPart q = false := by
    intro q hq
    obtain ⟨r, hr, hq⟩ := List.mem_flatMap.1 hq
    obtain ⟨k, -, rfl⟩ := List.mem_map.1 hq
    have hle := (List.mem_zipIdx hr).1
    have hne : i ≠ r.2 := Nat.ne_of_lt hle
    simp [Place.sharesPart, hp, hne]
  cases hps : u.partPlaces a (rs.zipIdx (i + 1)) with
  | nil => exact List.dropWhile_cons_of_neg (by simp [Place.sharesPart, hp])
  | cons q qs =>
    have hq := hlater q (by rw [hps]; exact List.mem_cons_self)
    exact List.dropWhile_cons_of_neg (by simp [hq])

/-- A walk along the part of one refinement: what the search along its tables gives, or else what
follows behind the part. -/
theorem scan_part (c : Context) {i : Nat} {ps : List Place} (hps : ∀ p : Place, p.ancestor = a →
      p.part = some i → ps.dropWhile p.sharesPart = ps) (ms : List ModuleId) :
    (u.scan name (ms.map (⟨a, some i, ·⟩) ++ ps)).result u c =
      match (u.searchTables name ms).defined? with
      | some f => ⟨some (f.withActive c), (u.searchTables name ms).assumptions⟩
      | none => ((u.scan name ps).result u c).after (u.searchTables name ms).assumptions := by
  induction ms with
  | nil => rfl
  | cons m ms ih =>
    rw [List.map_cons, List.cons_append, scan, searchTables]
    dsimp only
    cases hf : u.ownMethod m name with
    | none =>
      dsimp only
      have hd : ((u.searchTables name ms).after [u.assumeMethods m]).defined? =
          (u.searchTables name ms).defined? := rfl
      rw [result_behind, ih, hd]
      cases (u.searchTables name ms).defined? <;> rfl
    | some f =>
      dsimp only
      cases hu : f.undefined with
      | true =>
        -- the rest of the part shares it, and what follows does not
        have hrest : (ms.map (Place.mk a (some i)) ++ ps).dropWhile
            (Place.sharesPart ⟨a, some i, m⟩) = ps := by
          rw [List.dropWhile_append_of_pos, hps ⟨a, some i, m⟩ rfl rfl]
          intro q hq
          obtain ⟨k, -, rfl⟩ := List.mem_map.1 hq
          simp [Place.sharesPart]
        have hd : MethodResult.defined? ⟨some f, [u.assumeMethods m]⟩ = none := by
          simp [MethodResult.defined?, Method.isDefined, hu]
        rw [hd, if_pos (by simp), hrest]
        rfl
      | false =>
        have hd : MethodResult.defined? ⟨some f, [u.assumeMethods m]⟩ = some f := by
          simp [MethodResult.defined?, Method.isDefined, hu]
        rw [hd, if_neg (by simp)]
        rfl

/-- A walk along the parts of refinements, in order. -/
theorem scan_partPlaces (c : Context) (ps : List Place) (rs : List ModuleId) (i : Nat) :
    (u.scan name (u.partPlaces a (rs.zipIdx i) ++ ⟨a, none, a⟩ :: ps)).result u c =
      match (u.searchRefinements name a rs).method with
      | some f => ⟨some (f.withActive c), (u.searchRefinements name a rs).assumptions⟩
      | none => ((u.scan name (⟨a, none, a⟩ :: ps)).result u c).after
          (u.searchRefinements name a rs).assumptions := by
  induction rs generalizing i with
  | nil => rfl
  | cons r rs ih =>
    have hplaces : u.partPlaces a ((r :: rs).zipIdx i) ++ ⟨a, none, a⟩ :: ps =
        (u.refinementPart r a).map (⟨a, some i, ·⟩) ++
          (u.partPlaces a (rs.zipIdx (i + 1)) ++ ⟨a, none, a⟩ :: ps) := by
      rw [← List.append_assoc]
      rfl
    rw [hplaces, scan_part c fun p _ hp => dropWhile_sharesPart hp, searchRefinements, ih]
    cases (u.searchTables name (u.refinementPart r a)).defined? with
    | some f => rfl
    | none =>
      cases hm : (u.searchRefinements name a rs).method with
      | some f => simp [MethodResult.after, hm]
      | none => simp [MethodResult.after, hm]

/-- A search under a context is a walk along its order. -/
theorem searchMethod_eq_scan (u : Universe) (name : String) (c : Context) (ms : List ModuleId) :
    u.searchMethod name (some c) ms = (u.scan name (u.searchOrder c ms)).result u c := by
  induction ms with
  | nil => rw [searchOrder, List.flatMap_nil, scan]; rfl
  | cons a ms ih =>
    have horder : u.searchOrder c (a :: ms) =
        u.partPlaces a (c.refinementsFor a).zipIdx ++ ⟨a, none, a⟩ :: u.searchOrder c ms := by
      rw [searchOrder, List.flatMap_cons, placesFor, List.append_assoc]
      rfl
    rw [horder, scan_partPlaces, searchMethod, activeFor]
    cases (u.searchRefinements name a (c.refinementsFor a)).method with
    | some f => rfl
    | none =>
      dsimp only
      rw [scan]
      dsimp only
      cases u.ownMethod a name with
      | some f => rfl
      | none =>
        rw [ih]
        simp [result_behind, MethodResult.after]

/-! ### Up to a limit -/

theorem ancestor_of_placesFor {p : Place} (h : p ∈ u.placesFor c a) : p.ancestor = a := by
  rcases List.mem_append.1 h with h | h
  · obtain ⟨r, -, h⟩ := List.mem_flatMap.1 h
    obtain ⟨k, -, rfl⟩ := List.mem_map.1 h
    rfl
  · rw [List.mem_singleton.1 h]

/-- The order up to a limit is the order of the ancestors before it. -/
theorem takeWhile_searchOrder (u : Universe) (c : Context) (limit : ModuleId)
    (ms : List ModuleId) :
    (u.searchOrder c ms).takeWhile (·.ancestor != limit) =
      u.searchOrder c (ms.takeWhile (· != limit)) := by
  induction ms with
  | nil => rfl
  | cons a ms ih =>
    rw [searchOrder, List.flatMap_cons]
    by_cases ha : a = limit
    · have hstop : ∀ p ∈ u.placesFor c a, (p.ancestor != limit) = false := fun p hp => by
        simp [ancestor_of_placesFor hp, ha]
      rw [List.takeWhile_cons_of_neg (by simp [ha])]
      cases hps : u.placesFor c a with
      | nil => exact absurd hps (by simp [placesFor])
      | cons p ps =>
        have hp := hstop p (by rw [hps]; exact List.mem_cons_self)
        exact List.takeWhile_cons_of_neg (by simp [hp])
    · have hon : ∀ p ∈ u.placesFor c a, (p.ancestor != limit) = true := fun p hp => by
        simp [ancestor_of_placesFor hp, ha]
      rw [List.takeWhile_append_of_pos hon, List.takeWhile_cons_of_pos (by simp [ha])]
      exact congrArg _ ih

/-! ### Lookups -/

/-- A lookup answers what a walk ended at: an entry outside the parts of refinements as it is, one
inside a part under the context. -/
def Answers (c : Context) : Option (Place × Method) → Option Method → Prop
  | none, x => x = none
  | some (p, f), x =>
    match p.part with
    | none => x = some f
    | some _ => ∃ g, x = some g ∧ f.Under c g

theorem Finding.answers (c : Context) (x : Finding) : Answers c x.entry (x.method c) := by
  obtain ⟨_ | ⟨⟨a, _ | i, k⟩, f⟩, ks⟩ := x
  · exact rfl
  · exact rfl
  · exact ⟨_, rfl, Method.under_withActive c f⟩

/-- **Lookup follows one order.**  In every universe, for every module, name and context: the lookup
under the context answers the entry that the walk along the order of the ancestors ends at; the
lookup that notes what it relies on answers the same method and notes, in order, one assumption for
each table that the walk inspects; and a lookup up to a limit answers what the walk along the order
before the limit ends at. -/
theorem lookup_follows_searchOrder (u : Universe) (c : Context) (m : ModuleId) (name : String) :
    let order := u.searchOrder c (u.ancestors m)
    Answers c (u.scan name order).entry (u.findMethod m name (some c)) ∧
    (u.lookupMethod m name (some c)).method = u.findMethod m name (some c) ∧
    (u.lookupMethod m name (some c)).assumptions =
      (u.scan name order).inspected.map u.assumeMethods ∧
    ∀ limit, Answers c (u.scan name (order.takeWhile (·.ancestor != limit))).entry
      (u.findMethodUpTo m limit name (some c)) := by
  intro order
  have hlookup : u.lookupMethod m name (some c) = (u.scan name order).result u c :=
    searchMethod_eq_scan ..
  refine ⟨?_, rfl, by rw [hlookup]; rfl, fun limit => ?_⟩
  · rw [findMethod, hlookup]
    exact Finding.answers c _
  · rw [takeWhile_searchOrder, findMethodUpTo, searchMethod_eq_scan]
    exact Finding.answers c _

end Universe

end ObjectModel
