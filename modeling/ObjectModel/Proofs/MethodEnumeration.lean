import Mathlib.Data.List.Basic
import ObjectModel.Proofs.Descent
import ObjectModel.Proofs.Lineage
import ObjectModel.Proofs.StoredMethods
import ObjectModel.Universe.MethodListing

/-!
# Listed methods

A listing gathers whole tables, keeps the nearest method of every name and leaves the undefined
ones out at the end.  A lookup stops at the first table that has the name.  The two agree because
methods are stored under their names.

* `find?_collectMethods`: what is gathered from some tables is what a search along them finds;
* `shownMethods`, `find?_shownMethods`: the table behind a listing, and what a lookup finds in it;
* `mem_instanceMethods`, `instanceMethods_nodup`: what is listed;
* `instanceMethods_lawful`: listings and lookups agree, and the visibilities split what is defined.
-/

namespace ObjectModel

/-! ### Gathering -/

section Gathering

universe u v

variable {κ : Type u} {α : Type v} [DecidableEq κ]

theorem Table.findIn_append (k : κ) (es es' : List (κ × α)) :
    findIn k (es ++ es') = (findIn k es).or (findIn k es') := by
  induction es with
  | nil => rfl
  | cons e es ih =>
    by_cases h : e.1 = k
    · simp [findIn, h]
    · simp [findIn, h, ih]

/-- Entries that are added where their keys are free come after those that are there. -/
theorem Table.find?_foldl_insertNew (t : Table κ α) (es : List (κ × α)) (k : κ) :
    (es.foldl (fun t e => t.insertNew e.1 e.2) t).find? k = (t.find? k).or (findIn k es) := by
  induction es generalizing t with
  | nil => exact Option.or_none.symm
  | cons e es ih =>
    rw [List.foldl_cons, ih, find?_insertNew, findIn]
    by_cases h : e.1 = k
    · subst h
      cases t.find? e.1 <;> simp
    · simp [h]

end Gathering

/-- Every visibility is a public, a protected or a private one, and only one of them. -/
theorem Visibility.split (v : Visibility) :
    (v.isPublic = true ∨ v.isProtected = true ∨ v.isPrivate = true) ∧
    (v.isPublic = true → v.isProtected = false ∧ v.isPrivate = false) ∧
    (v.isProtected = true → v.isPrivate = false) := by
  cases v <;> decide

namespace Universe

open Visibility (isPublic isProtected isPrivate)

variable {u : Universe} {m r : ModuleId} {inherit : Bool} {name : String} {f : Method}
  {t : Table String Method} {shows shows' : Visibility → Bool}

/-- What is gathered from the tables of some modules is what a search along them finds. -/
theorem find?_collectMethods (u : Universe) (ms : List ModuleId) (name : String) :
    (u.collectMethods ms).find? name = ms.findSome? (u.ownMethod · name) := by
  rw [collectMethods, Table.find?_foldl_insertNew, Table.find?_empty, Option.none_or]
  induction ms with
  | nil => rfl
  | cons m ms ih =>
    rw [List.flatMap_cons, Table.findIn_append, ih, List.findSome?_cons]
    show (u.ownMethod m name).or _ = _
    cases u.ownMethod m name <;> rfl

theorem findMethod_eq_findSome? (u : Universe) (m : ModuleId) (name : String) :
    u.findMethod m name none = (u.ancestors m).findSome? (u.ownMethod · name) := by
  rw [findMethod, lookupMethod, searchMethod_none, searchTables_method]

/-- The ancestors of a refined module are ancestors of the refinement. -/
theorem ancestors_refined (hw : u.WellFormed) (hu : u.Rooted)
    (hr : (u.module m).refined? = some r) : u.ancestors r ⊆ u.ancestors m := by
  have hkind : ∃ n, (u.module m).kind = .refinement r n := by
    unfold Module.refined? at hr
    split at hr
    · next t n hk =>
      cases hr
      exact ⟨n, hk⟩
    · cases hr
  obtain ⟨n, hk⟩ := hkind
  have hp := (hu.placed m).refinement r n hk
  have hm : u.knows m := (hu.placed m).known (by rw [hk]; exact nofun)
  have hspine : r ∈ u.spine m :=
    mem_spine_iff.2 (.inr ⟨r, hp, hw.older m r hm hp, self_mem_spine u r⟩)
  intro k hk
  have hinc : u.includes r k = true := List.contains_iff_mem.2 hk
  exact List.contains_iff_mem.1 (includes_of_spine hspine hinc)

/-- What a listing of all methods has under a name is what a lookup finds: going through the
ancestors of the refined module once more adds nothing. -/
theorem find?_allMethods (h : Arises u) (m : ModuleId) (name : String) :
    (u.allMethods m).find? name = u.findMethod m name none := by
  rw [allMethods, find?_collectMethods, List.findSome?_append, findMethod_eq_findSome?]
  cases hr : (u.module m).refined? with
  | none => exact Option.or_none
  | some r =>
    cases hfound : (u.ancestors m).findSome? (u.ownMethod · name) with
    | some f => rfl
    | none =>
      have hnone := List.findSome?_eq_none_iff.1 hfound
      exact List.findSome?_eq_none_iff.2 fun k hk =>
        hnone k (ancestors_refined h.reachable.wellFormed h.rooted hr hk)

/-! ### Tables by name -/

/-- The methods of a table are stored under their names. -/
def KeyedByName (t : Table String Method) : Prop := ∀ name f, t.find? name = some f → f.name = name

theorem KeyedByName.map_name (h : KeyedByName t) : t.values.map (fun f => f.name) = t.keys := by
  rw [Table.values, Table.keys, List.map_map]
  exact List.map_congr_left fun e he => h e.1 e.2 (Table.mem_entries_iff.1 he)

theorem Named.collectMethods (h : u.Named) (ms : List ModuleId) :
    KeyedByName (u.collectMethods ms) := by
  intro name f hf
  rw [find?_collectMethods] at hf
  obtain ⟨k, -, hk⟩ := List.exists_of_findSome?_eq_some hf
  exact h k name f hk

/-- In a universe that arises, methods are gathered by name as they are by key. -/
theorem Reachable.collectMethods_by_name (h : Reachable u) (ms : List ModuleId) :
    u.collectMethods ms = (ms.flatMap fun m => (u.module m).methods.values).foldl
      (fun t f => t.insertNew f.name f) .empty :=
  Universe.collectMethods_by_name fun m _ e he => h.named m e.1 e.2 (Table.mem_entries_iff.1 he)

/-! ### Listing and looking up -/

/-- The methods that a listing goes through. -/
def shownMethods (u : Universe) (m : ModuleId) (inherit : Bool) : Table String Method :=
  if inherit then u.allMethods m else (u.module m).methods

/-- The method that a lookup finds in a module alone, or along its ancestors. -/
def shownMethod? (u : Universe) (m : ModuleId) (name : String) (inherit : Bool) : Option Method :=
  if inherit then u.findMethod m name none else u.ownMethod m name

theorem find?_shownMethods (h : Arises u) (m : ModuleId) (inherit : Bool) (name : String) :
    (u.shownMethods m inherit).find? name = u.shownMethod? m name inherit := by
  cases inherit with
  | true => exact find?_allMethods h m name
  | false => rfl

theorem Named.shownMethods (h : u.Named) (m : ModuleId) (inherit : Bool) :
    KeyedByName (u.shownMethods m inherit) := by
  cases inherit with
  | true => exact h.collectMethods _
  | false => exact h m

theorem instanceMethods_eq (u : Universe) (m : ModuleId) (inherit : Bool)
    (shows : Visibility → Bool) : u.instanceMethods m inherit shows =
      ((definedMethods (u.shownMethods m inherit)).filter fun f => shows f.visibility).map
        fun f => f.name := rfl

/-- A name is listed if a defined method is found that the listing is for. -/
theorem mem_instanceMethods (h : Arises u) : name ∈ u.instanceMethods m inherit shows ↔
    ∃ f, u.shownMethod? m name inherit = some f ∧ f.isDefined = true ∧
      shows f.visibility = true := by
  have hnamed := h.reachable.named.shownMethods m inherit
  rw [instanceMethods_eq, ← find?_shownMethods h]
  simp only [List.mem_map, List.mem_filter, definedMethods, Table.mem_values_iff]
  constructor
  · rintro ⟨f, ⟨⟨⟨other, hf⟩, hd⟩, hs⟩, rfl⟩
    -- the key under which the method is found is its name
    rw [← hnamed other f hf] at hf
    exact ⟨f, hf, hd, hs⟩
  · rintro ⟨f, hf, hd, hs⟩
    exact ⟨f, ⟨⟨⟨name, hf⟩, hd⟩, hs⟩, hnamed name f hf⟩

theorem showsMethod_iff : u.showsMethod m name inherit shows = true ↔
    ∃ f, u.shownMethod? m name inherit = some f ∧ f.isDefined = true ∧
      shows f.visibility = true := by
  show ((u.shownMethod? m name inherit).filter Method.isDefined |>.map _).any shows = true ↔ _
  cases u.shownMethod? m name inherit with
  | none => simp
  | some f => cases hd : f.isDefined <;> simp [Option.filter, hd]

/-- No name is listed twice. -/
theorem instanceMethods_nodup (h : Arises u) (m : ModuleId) (inherit : Bool)
    (shows : Visibility → Bool) : (u.instanceMethods m inherit shows).Nodup := by
  have hnamed := h.reachable.named.shownMethods m inherit
  have hsub : (u.instanceMethods m inherit shows).Sublist (u.shownMethods m inherit).keys := by
    rw [instanceMethods_eq, ← hnamed.map_name]
    exact (List.filter_sublist.trans List.filter_sublist).map _
  exact (u.shownMethods m inherit).keys_nodup.sublist hsub

/-- Listings for visibilities that exclude each other have no name in common. -/
theorem instanceMethods_disjoint (h : Arises u) (m : ModuleId) (inherit : Bool)
    (hno : ∀ v, shows v = true → shows' v = false) :
    (u.instanceMethods m inherit shows).Disjoint (u.instanceMethods m inherit shows') := by
  intro name hm hm'
  obtain ⟨f, hf, -, hs⟩ := (mem_instanceMethods h).1 hm
  obtain ⟨g, hg, -, hs'⟩ := (mem_instanceMethods h).1 hm'
  cases hf.symm.trans hg
  exact Bool.false_ne_true ((hno _ hs).symm.trans hs')

/-- Of any module, with or without its ancestors, exactly those names are listed for a kind of
visibility that the module shows with it, each once.  The public, the protected and the private
names have nothing in common, and are together the names of the defined methods that are found. -/
theorem instanceMethods_lawful (h : Arises u) (m : ModuleId) (inherit : Bool) :
    (∀ shows name, name ∈ u.instanceMethods m inherit shows ↔
      u.showsMethod m name inherit shows = true) ∧
    (∀ shows, (u.instanceMethods m inherit shows).Nodup) ∧
    (u.instanceMethods m inherit isPublic).Disjoint (u.instanceMethods m inherit isProtected) ∧
    (u.instanceMethods m inherit isPublic).Disjoint (u.instanceMethods m inherit isPrivate) ∧
    (u.instanceMethods m inherit isProtected).Disjoint (u.instanceMethods m inherit isPrivate) ∧
    ∀ name, (name ∈ u.instanceMethods m inherit isPublic ∨
      name ∈ u.instanceMethods m inherit isProtected ∨
      name ∈ u.instanceMethods m inherit isPrivate) ↔
        ∃ f, u.shownMethod? m name inherit = some f ∧ f.isDefined = true := by
  refine ⟨fun shows name => (mem_instanceMethods h).trans showsMethod_iff.symm,
    instanceMethods_nodup h m inherit,
    instanceMethods_disjoint h m inherit fun v hv => (v.split.2.1 hv).1,
    instanceMethods_disjoint h m inherit fun v hv => (v.split.2.1 hv).2,
    instanceMethods_disjoint h m inherit fun v hv => v.split.2.2 hv, fun name => ⟨?_, ?_⟩⟩
  · rintro (hm | hm | hm) <;>
    · obtain ⟨f, hf, hd, -⟩ := (mem_instanceMethods h).1 hm
      exact ⟨f, hf, hd⟩
  · rintro ⟨f, hf, hd⟩
    have hlisted {shows : Visibility → Bool} (hv : shows f.visibility = true) :
        name ∈ u.instanceMethods m inherit shows := (mem_instanceMethods h).2 ⟨f, hf, hd, hv⟩
    rcases f.visibility.split.1 with hv | hv | hv
    · exact .inl (hlisted hv)
    · exact .inr (.inl (hlisted hv))
    · exact .inr (.inr (hlisted hv))

/-- A class with a module prepended and a refinement.  The module makes `f` private, the class has
a protected `g` and hides the `h` of all objects, and the refinement has a `k`. -/
def shadowing : List Move :=
  [.newModule, .newClass none, .newModule,
    .addMethod Core.object (.ofReader "h" "@h" Core.object .pub),
    .addMethod ⟨13⟩ (.ofReader "f" "@f" ⟨13⟩ .pub), .addMethod ⟨13⟩ (.ofReader "g" "@g" ⟨13⟩ .prot),
    .addMethod ⟨13⟩ (Method.ofReader "h" "@h" ⟨13⟩ .pub).asUndefined,
    .addMethod ⟨14⟩ (.ofReader "f" "@f" ⟨14⟩ .priv), .prependModule ⟨13⟩ ⟨14⟩,
    .openRefinement ⟨12⟩ ⟨13⟩, .addMethod ⟨15⟩ (.ofReader "k" "@k" ⟨15⟩ .pub)]

/-- The universe that shadowing leaves. -/
def shadowed : Universe := (create {}).afterAll shadowing

theorem arises_shadowed : Arises shadowed := by
  have hgenuine : (create {}).AllGenuine shadowing := by
    refine ⟨trivial, trivial, nofun, trivial, trivial, trivial, .addReader ?_ ?_ ?_ <|
      .addReader ?_ ?_ ?_ <| .addReader ?_ ?_ ?_
        ⟨⟨?_, Method.known_asUndefined (Method.known_ofReader ?_ _ _ _)⟩,
          Context.issued_toplevel ?_, .addReader ?_ ?_ ?_
            ⟨⟨?_, ?_⟩, trivial, ⟨?_, ?_⟩, trivial, .addReader ?_ ?_ ?_ trivial⟩⟩⟩ <;>
      decide +kernel
  exact ⟨{}, shadowing, hgenuine, rfl⟩

/-- The refinement lists its own method and those of the class under the visibilities that lookups
find, and none under the name that is hidden. -/
theorem instanceMethods_lawful_shadowed : Arises shadowed ∧
    shadowed.instanceMethods ⟨15⟩ true isPublic = ["k"] ∧
    shadowed.instanceMethods ⟨15⟩ true isProtected = ["g"] ∧
    shadowed.instanceMethods ⟨15⟩ true isPrivate = ["f"] ∧
    shadowed.showsMethod ⟨15⟩ "f" true isPrivate = true ∧
    ¬∃ f, shadowed.shownMethod? ⟨15⟩ "h" true = some f ∧ f.isDefined = true := by
  obtain ⟨hmem, -, -, -, -, hall⟩ := instanceMethods_lawful arises_shadowed ⟨15⟩ true
  have hpublic : shadowed.instanceMethods ⟨15⟩ true isPublic = ["k"] := by decide +kernel
  have hprotected : shadowed.instanceMethods ⟨15⟩ true isProtected = ["g"] := by decide +kernel
  have hprivate : shadowed.instanceMethods ⟨15⟩ true isPrivate = ["f"] := by decide +kernel
  refine ⟨arises_shadowed, hpublic, hprotected, hprivate, ?_, ?_⟩
  · exact (hmem isPrivate "f").1 (by rw [hprivate]; exact List.mem_singleton_self _)
  · rw [← hall, hpublic, hprotected, hprivate]
    decide

end Universe

end ObjectModel
