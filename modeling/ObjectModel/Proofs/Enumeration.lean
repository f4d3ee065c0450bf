import Mathlib.Data.List.TakeWhile
import ObjectModel.Proofs.Layout
import ObjectModel.Proofs.Resolving

/-!
# Listed constants

The listing of a module unites the tables on a path, each without its private constants.  A lookup
stops at the first table that binds a name.  So the two disagree where the first binding of a name
is private and a later one is not, and where a feature left a placeholder behind.

* `listedPath`, `firstListed?`: the tables that a listing takes in, and the first binding of a name
  in them;
* `mem_constantNames`, `constantNames_nodup`, `publicConstantNames_prefix`: what is listed, and in
  which order;
* `Enumerates`, `ShowsThrough`, `LeftBehind`: names that are listed exactly if their first binding
  is public and defined, and the two ways in which others go wrong;
* `constantNames_lawful_iff`: a listing in terms of the tables;
* `listing_not_lawful`: a universe in which a listing goes wrong both ways.
-/

namespace ObjectModel

namespace Universe

variable {u : Universe} {m k : ModuleId} {inherit : Bool} {name : String} {c : Constant}

/-- The modules whose tables a listing takes in: the module itself, and then its other ancestors up
to the class of objects. -/
def listedPath (u : Universe) (m : ModuleId) (inherit : Bool) : List ModuleId :=
  m :: if inherit then (u.otherAncestors m).takeWhile (· != Core.object) else []

/-- The first binding of a name in the tables that a listing takes in. -/
def firstListed? (u : Universe) (m : ModuleId) (inherit : Bool) (name : String) :
    Option Constant :=
  (u.listedPath m inherit).findSome? (u.ownConstant · name)

/-! ### What is listed -/

theorem mem_publicConstantNames :
    name ∈ u.publicConstantNames k ↔ ∃ c, u.ownConstant k name = some c ∧ c.isPrivate = false := by
  simp only [publicConstantNames, List.mem_map, List.mem_filter, Prod.exists, Bool.not_eq_true']
  constructor
  · rintro ⟨name, c, ⟨hc, hp⟩, rfl⟩
    exact ⟨c, Table.mem_entries_iff.1 hc, hp⟩
  · rintro ⟨c, hc, hp⟩
    exact ⟨name, c, ⟨Table.mem_entries_iff.2 hc, hp⟩, rfl⟩

/-- A name is listed if one of the tables binds it publicly. -/
theorem mem_constantNames : name ∈ u.constantNames m inherit ↔
    ∃ k ∈ u.listedPath m inherit, ∃ c, u.ownConstant k name = some c ∧ c.isPrivate = false := by
  rw [constantNames, List.mem_eraseDups, List.mem_flatMap]
  simp only [mem_publicConstantNames]
  rfl

theorem publicConstantNames_nodup (u : Universe) (m : ModuleId) :
    (u.publicConstantNames m).Nodup :=
  ((u.module m).constants.nodup_keys).sublist (List.filter_sublist.map Prod.fst)

/-- No name is listed twice. -/
theorem constantNames_nodup (u : Universe) (m : ModuleId) (inherit : Bool) :
    (u.constantNames m inherit).Nodup :=
  nodup_eraseDups _

/-- The names of the module itself come first. -/
theorem publicConstantNames_prefix (u : Universe) (m : ModuleId) (inherit : Bool) :
    u.publicConstantNames m <+: u.constantNames m inherit := by
  rw [constantNames, List.flatMap_cons, List.eraseDups_append,
    eraseDups_of_nodup (u.publicConstantNames_nodup m)]
  exact List.prefix_append _ _

/-! ### Listing and looking up -/

/-- A name is listed exactly if its first binding is there for everybody. -/
def Enumerates (u : Universe) (m : ModuleId) (inherit : Bool) (name : String) : Prop :=
  name ∈ u.constantNames m inherit ↔
    ∃ c, u.firstListed? m inherit name = some c ∧ c.isPrivate = false ∧ c.isUndefined = false

/-- The first binding of a name is private, and another one is not. -/
def ShowsThrough (u : Universe) (m : ModuleId) (inherit : Bool) (name : String) : Prop :=
  (∃ c, u.firstListed? m inherit name = some c ∧ c.isPrivate = true) ∧
    ∃ k ∈ u.listedPath m inherit, ∃ c, u.ownConstant k name = some c ∧ c.isPrivate = false

/-- The first binding of a name is what a feature left that failed to define it. -/
def LeftBehind (u : Universe) (m : ModuleId) (inherit : Bool) (name : String) : Prop :=
  ∃ c, u.firstListed? m inherit name = some c ∧ c.isPrivate = false ∧ c.isUndefined = true

/-- A public first binding is listed. -/
theorem mem_constantNames_of_first (hc : u.firstListed? m inherit name = some c)
    (hp : c.isPrivate = false) : name ∈ u.constantNames m inherit := by
  obtain ⟨k, hk, hown⟩ := List.exists_of_findSome?_eq_some hc
  exact mem_constantNames.2 ⟨k, hk, c, hown, hp⟩

theorem enumerates_iff : u.Enumerates m inherit name ↔
    ¬u.ShowsThrough m inherit name ∧ ¬u.LeftBehind m inherit name := by
  cases hfirst : u.firstListed? m inherit name with
  | none =>
    -- no table binds the name, so it is not listed
    have hno : name ∉ u.constantNames m inherit := by
      intro hn
      obtain ⟨k, hk, c, hc, -⟩ := mem_constantNames.1 hn
      cases (List.findSome?_eq_none_iff.1 hfirst k hk).symm.trans hc
    simp [Enumerates, ShowsThrough, LeftBehind, hfirst, hno]
  | some c =>
    cases hp : c.isPrivate with
    | true => simp [Enumerates, ShowsThrough, LeftBehind, hfirst, hp, mem_constantNames]
    | false =>
      have hlisted := mem_constantNames_of_first hfirst hp
      simp [Enumerates, ShowsThrough, LeftBehind, hfirst, hp, hlisted]

/-- A listing repeats nothing and has the names of the module itself first.  A name is listed
exactly if its first binding is public and defined, unless that binding is private and a later one
is public, or it is a public placeholder. -/
theorem constantNames_lawful_iff (u : Universe) (m : ModuleId) (inherit : Bool) :
    (u.constantNames m inherit).Nodup ∧ u.publicConstantNames m <+: u.constantNames m inherit ∧
      ∀ name, u.Enumerates m inherit name ↔
        ¬u.ShowsThrough m inherit name ∧ ¬u.LeftBehind m inherit name :=
  ⟨u.constantNames_nodup m inherit, u.publicConstantNames_prefix m inherit,
    fun _ => enumerates_iff⟩

/-- A class with a private `C` that includes a module with a public one, and whose `D` was left
behind by a feature. -/
def listing : List Move :=
  [.newModule, .newClass (some Core.object), .includeModule ⟨13⟩ ⟨12⟩,
    .setConstant ⟨12⟩ "C" (.int 1) none, .setConstant ⟨13⟩ "C" (.int 2) none,
    .privateConstants ⟨13⟩ ["C"], .registerAutoload ⟨13⟩ "D" "lib", .settleAutoload ⟨13⟩ "D"]

/-- The class lists both, although its `C` is private and its `D` is not defined. -/
theorem listing_not_lawful : ∃ u : Universe, Arises u ∧ u.AtRest ∧
    u.constantNames ⟨13⟩ true = ["D", "C"] ∧
    ¬u.Enumerates ⟨13⟩ true "C" ∧ ¬u.Enumerates ⟨13⟩ true "D" := by
  have hgenuine : (create {}).AllGenuine listing := by
    refine ⟨trivial, trivial, ?_, trivial, ⟨?_, ?_⟩, trivial, ⟨?_, trivial⟩, trivial,
      ⟨?_, trivial⟩, trivial, ?_, trivial, ?_, trivial, ?_, trivial, trivial⟩
    · intro m hm
      cases hm
      decide +kernel
    all_goals
      change Universe.knows _ _
      decide +kernel
  have hnames : ((create {}).afterAll listing).constantNames ⟨13⟩ true = ["D", "C"] := by
    decide +kernel
  have hprivate : (((create {}).afterAll listing).firstListed? ⟨13⟩ true "C").map
      Constant.isPrivate = some true := by decide +kernel
  have hundefined : (((create {}).afterAll listing).firstListed? ⟨13⟩ true "D").map
      Constant.isUndefined = some true := by decide +kernel
  refine ⟨_, ⟨{}, listing, hgenuine, rfl⟩, by decide +kernel, hnames, fun h => ?_, fun h => ?_⟩
  · obtain ⟨c, hc, hp, -⟩ := h.1 (by rw [hnames]; decide)
    rw [hc, Option.map_some, hp] at hprivate
    cases hprivate
  · obtain ⟨c, hc, -, hd⟩ := h.1 (by rw [hnames]; decide)
    rw [hc, Option.map_some, hd] at hundefined
    cases hundefined

end Universe

end ObjectModel
