import ObjectModel.Proofs.Atomicity
import ObjectModel.Proofs.Layout
import ObjectModel.Proofs.Search
import ObjectModel.Proofs.StoredMethods

/-!
# Changing a visibility

The method whose visibility is changed is found along the whole linearization of a module, and
stored in the table of that module itself.  So the change is not seen where a prepended module has
the method: lookups find it there as they did before, and what the module had itself is lost.

* `Method.SameCode`: two methods with the same body, declaring module and first name;
* `Outranked`: a prepended module has an entry of a name;
* `setMethodVisibility_cases`: what a change of one visibility does;
* `findMethod_of_entries`, `lookupMethod_elsewhere`: which lookups an entry concerns;
* `ChangesVisibility`, `changesVisibility_iff`: a change is seen from the module exactly if the
  visibility was the one asked for, or no prepended module has the method; nothing else is changed;
* `not_changesVisibility_outrankedMethod`: a method that stays public.
-/

namespace ObjectModel

/-- The methods run the same code, declared by the same module under the same name. -/
structure Method.SameCode (f g : Method) : Prop where
  body : g.body = f.body
  declaringModule : g.declaringModule = f.declaringModule
  definedName : g.definedName = f.definedName

namespace Method.SameCode

variable {f g h : Method}

theorem refl (f : Method) : f.SameCode f := ⟨rfl, rfl, rfl⟩

theorem trans (hfg : f.SameCode g) (hgh : g.SameCode h) : f.SameCode h where
  body := hgh.body.trans hfg.body
  declaringModule := hgh.declaringModule.trans hfg.declaringModule
  definedName := hgh.definedName.trans hfg.definedName

theorem withVisibility (f : Method) (v : Visibility) : f.SameCode (f.withVisibility v) := by
  unfold Method.withVisibility
  split <;> exact ⟨rfl, rfl, rfl⟩

end Method.SameCode

namespace Universe

variable {u w : Universe} {m k x : ModuleId} {f g : Method} {name other : String} {v : Visibility}
  {c : Option Context}

/-! ### What is stored -/

/-- Storing a method keeps its code and its visibility. -/
theorem storedMethod_spec (u : Universe) (f : Method) :
    f.SameCode (u.storedMethod f) ∧ (u.storedMethod f).visibility = f.visibility := by
  have hakin : f.Akin (u.storedMethod f) := (Method.Akin.withBuiltIn f _).trans (.holdMethod _ u)
  have hdeclaring : (u.storedMethod f).declaringModule = f.declaringModule := by
    refine (congrArg MethodContent.declaringModule (holdMethod_spec _ u).1).trans ?_
    unfold Method.withBuiltIn
    split <;> rfl
  exact ⟨⟨hakin.body, hdeclaring, hakin.definedName⟩, hakin.visibility⟩

/-- The change of one visibility stores the method that was found, unless it has the visibility
already. -/
theorem setMethodVisibility_cases (hv : v ≠ .moduleFunction)
    (hf : u.findMethod m name none = some f) (hd : f.isDefined = true)
    (h : setMethodVisibility m [name] v u = .ok () w) :
    (f.visibility = v ∧ w = u) ∨
      f.visibility ≠ v ∧ u.immutable? m = none ∧
        w = u.after (.addMethod m (f.withVisibility v)) := by
  have hfound : (u.findMethodDeep m name).filter Method.isDefined = some f := by
    rw [findMethodDeep, hf]
    exact Option.filter_eq_some_iff.2 ⟨rfl, hd⟩
  have hone : setOneVisibility m name v u = .ok () w := by
    rw [setMethodVisibility, Update.bind_apply, checkModuleFunction_apply,
      if_neg fun hc => hv hc.1] at h
    change (setOneVisibility m name v >>= fun _ => pure () : Update Unit) u = _ at h
    rw [Update.bind_apply] at h
    cases hrun : setOneVisibility m name v u with
    | error e w' =>
      rw [hrun] at h
      cases h
    | ok a w' =>
      rw [hrun] at h
      exact h
  rw [setOneVisibility, Update.bind_apply, findDefined_apply, hfound] at hone
  dsimp only at hone
  rw [if_neg hv] at hone
  split at hone
  · next hne =>
    cases hi : u.immutable? m with
    | some e =>
      rw [addMethod_of_immutable hi] at hone
      cases hone
    | none =>
      rw [addMethod_of_mutable hi] at hone
      cases hone
      exact .inr ⟨hne, rfl, rfl⟩
  · next he =>
    cases hone
    exact .inl ⟨Decidable.not_not.1 he, rfl⟩

/-- Storing a method leaves chains as they are, and makes one entry. -/
theorem chain_addMethod (h : u.immutable? m = none) (g : Method) (k : ModuleId) :
    ((u.after (.addMethod m g)).module k).chain = (u.module k).chain := by
  rw [module_addMethod h]
  split <;> rfl

theorem ownMethod_addMethod_self (h : u.immutable? m = none) (g : Method) :
    (u.after (.addMethod m g)).ownMethod m g.name = some (u.storedMethod g) := by
  rw [ownMethod, module_addMethod h, if_pos rfl]
  exact Table.find?_insert_self _ _ _

theorem ownMethod_addMethod_other (h : u.immutable? m = none) (g : Method)
    (hk : k ≠ m ∨ other ≠ g.name) :
    (u.after (.addMethod m g)).ownMethod k other = u.ownMethod k other := by
  rw [ownMethod, module_addMethod h]
  split
  · next he => exact Table.find?_insert_of_ne _ ((hk.resolve_left (not_not_intro he.symm)).symm) _
  · rfl

/-! ### Which lookups an entry concerns -/

/-- What lookups of a name find depends on the chains and the entries of that name. -/
theorem findMethod_of_entries (hchain : ∀ k, (w.module k).chain = (u.module k).chain)
    (h : ∀ k, w.ownMethod k other = u.ownMethod k other) (x : ModuleId) (c : Option Context) :
    w.findMethod x other c = u.findMethod x other c := by
  have hancestors (k : ModuleId) : w.ancestors k = u.ancestors k :=
    ancestors_of_chains fun o _ => hchain o
  have hentries : (w.ownMethod · other) = (u.ownMethod · other) := funext h
  have hpart (a r : ModuleId) : w.partEntry other a r = u.partEntry other a r := by
    rw [partEntry, partEntry, MethodResult.defined?, MethodResult.defined?, searchTables_method,
      searchTables_method, refinementPart, refinementPart, hancestors, hentries]
  have hanswer (a : ModuleId) : w.answerAt other c a = u.answerAt other c a := by
    rw [answerAt, answerAt, refinedAt, refinedAt, funext (hpart a), h]
  rw [findMethod, findMethod, lookupMethod, lookupMethod, searchMethod_method, searchMethod_method,
    hancestors, funext hanswer]

/-- Lookups that do not come to a module do not depend on its entries. -/
theorem lookupMethod_elsewhere (h : u.immutable? m = none) (g : Method) (hx : m ∉ u.ancestors x)
    (hc : ∀ a, ∀ r ∈ activeFor c a, m ∉ u.ancestors r) (other : String) :
    (u.after (.addMethod m g)).lookupMethod x other c = u.lookupMethod x other c := by
  have halike (k : ModuleId) (hk : k ≠ m) : SearchedAlike u (u.after (.addMethod m g)) k :=
    .of_eq (by rw [module_addMethod h, if_neg hk.symm])
  refine lookupMethod_congr (fun k hk => halike k ?_) fun a r hr k hk => halike k ?_
  · exact fun he => hx (he ▸ hk)
  · exact fun he => hc a r hr (he ▸ hk)

/-! ### Which change is seen -/

/-- A module prepended to `m` has an entry of the name. -/
def Outranked (u : Universe) (m : ModuleId) (name : String) : Prop :=
  (u.module m).chain.prepended.any (u.hasEntry name) = true

instance (u : Universe) (m : ModuleId) (name : String) : Decidable (u.Outranked m name) :=
  inferInstanceAs (Decidable (_ = true))

/-- What is found from a module: the entries of prepended modules come first, then its own one. -/
theorem findMethod_front (hu : u.MixesOnce) (ha : u.ApartFromSelf) (m : ModuleId) (name : String) :
    ∃ rest : List ModuleId, u.findMethod m name none =
      ((u.module m).chain.prepended.findSome? (u.ownMethod · name)).or
        ((u.ownMethod m name).or (rest.findSome? (u.ownMethod · name))) := by
  obtain ⟨rest, hrest⟩ := ancestors_eq_prepended hu ha m
  refine ⟨rest, ?_⟩
  rw [findMethod, lookupMethod, searchMethod_none, searchTables_method, hrest,
    List.findSome?_append, List.findSome?_cons]
  cases u.ownMethod m name <;> rfl

/-- What is found has the name that was looked up. -/
theorem name_of_findMethod (hu : Reachable u) (hf : u.findMethod m name none = some f) :
    f.name = name := by
  rw [findMethod, lookupMethod, searchMethod_none, searchTables_method] at hf
  obtain ⟨a, -, ha⟩ := List.exists_of_findSome?_eq_some hf
  exact hu.named a name f ha

/-- What prepended modules have is found, whatever the module has itself. -/
theorem findMethod_of_outranked (hu : u.MixesOnce) (ha : u.ApartFromSelf)
    (h : u.Outranked m name) :
    u.findMethod m name none = (u.module m).chain.prepended.findSome? (u.ownMethod · name) := by
  obtain ⟨rest, hrest⟩ := findMethod_front hu ha m name
  obtain ⟨p, hp, hentry⟩ := List.any_eq_true.1 h
  have hsome : ((u.module m).chain.prepended.findSome? (u.ownMethod · name)).isSome = true :=
    List.findSome?_isSome_iff.2 ⟨p, hp, hentry⟩
  rw [hrest, Option.or_of_isSome hsome]

/-- Where no prepended module has an entry, the module's own entry is found. -/
theorem findMethod_of_not_outranked (hu : u.MixesOnce) (ha : u.ApartFromSelf)
    (h : ¬u.Outranked m name) (hg : u.ownMethod m name = some g) :
    u.findMethod m name none = some g := by
  obtain ⟨rest, hrest⟩ := findMethod_front hu ha m name
  have hnone : (u.module m).chain.prepended.findSome? (u.ownMethod · name) = none := by
    refine List.findSome?_eq_none_iff.2 fun p hp => ?_
    have hentry : ¬(u.hasEntry name p = true) := fun he => h (List.any_eq_true.2 ⟨p, hp, he⟩)
    simpa [hasEntry] using hentry
  rw [hrest, hnone, hg]
  rfl

/-- What a change of visibility is to do: what is found from the module has the visibility, and is
the method that was found in all else; and what the module has itself keeps its body. -/
structure ChangesVisibility (u w : Universe) (m : ModuleId) (name : String) (f : Method)
    (v : Visibility) : Prop where
  found : ∃ g, w.findMethod m name none = some g ∧ g.visibility = v ∧ f.SameCode g
  own : ∀ g, u.ownMethod m name = some g → ∃ g', w.ownMethod m name = some g' ∧ g'.body = g.body

/-- The change of a visibility that differs is one exactly if no prepended module has the method. -/
theorem changesVisibility_after_iff (hu : Reachable u) (hf : u.findMethod m name none = some f)
    (hi : u.immutable? m = none) (hne : f.visibility ≠ v) :
    ChangesVisibility u (u.after (.addMethod m (f.withVisibility v))) m name f v ↔
      ¬u.Outranked m name := by
  have hstored := ownMethod_addMethod_self hi (f.withVisibility v)
  obtain ⟨hcode, hvisibility⟩ := storedMethod_spec u (f.withVisibility v)
  have hchain := chain_addMethod hi (f.withVisibility v)
  have hother (p : ModuleId) (hp : p ∈ (u.module m).chain.prepended) :
      (u.after (.addMethod m (f.withVisibility v))).ownMethod p name = u.ownMethod p name := by
    refine ownMethod_addMethod_other hi _ (.inl ?_)
    rintro rfl
    exact hu.apartFromSelf p (List.mem_append_left _ hp)
  generalize u.after (.addMethod m (f.withVisibility v)) = w at hstored hchain hother ⊢
  rw [Method.name_withVisibility, name_of_findMethod hu hf] at hstored
  have hw : w.MixesOnce := fun k => by rw [hchain]; exact hu.mixesOnce k
  have hw' : w.ApartFromSelf := fun k => by rw [hchain]; exact hu.apartFromSelf k
  have houtranked : w.Outranked m name ↔ u.Outranked m name := by
    rw [Outranked, hchain, Outranked, List.any_eq_true, List.any_eq_true]
    refine exists_congr fun p => and_congr_right fun hp => ?_
    rw [hasEntry, hother p hp, hasEntry]
  constructor
  · rintro ⟨⟨g, hg, hv, -⟩, -⟩ ho
    rw [findMethod_of_outranked hu.mixesOnce hu.apartFromSelf ho] at hf
    rw [findMethod_of_outranked hw hw' (houtranked.2 ho), hchain,
      findSome?_through rfl fun p hp => hother p (mem_of_mem_through hp), hf] at hg
    cases hg
    exact hne hv
  · intro ho
    refine ⟨⟨_, findMethod_of_not_outranked hw hw' (mt houtranked.1 ho) hstored, ?_, ?_⟩, ?_⟩
    · rw [hvisibility, Method.withVisibility_visibility]
    · exact (Method.SameCode.withVisibility f v).trans hcode
    · intro g hg
      refine ⟨_, hstored, ?_⟩
      rw [findMethod_of_not_outranked hu.mixesOnce hu.apartFromSelf ho hg] at hf
      cases hf
      exact ((Method.SameCode.withVisibility f v).trans hcode).body

/-- Where the method has the visibility already, nothing is to do. -/
theorem changesVisibility_self (hf : u.findMethod m name none = some f) (hv : f.visibility = v) :
    ChangesVisibility u u m name f v :=
  ⟨⟨f, hf, hv, .refl f⟩, fun g hg => ⟨g, hg, rfl⟩⟩

/-- Changing the visibility of a method that is found from a module changes it, as seen from that
module, exactly if it had the visibility or no prepended module has the method.  Under other names
all lookups find what they found, and lookups that do not come to the module are as they were. -/
theorem changesVisibility_iff (hu : Reachable u) (hv : v ≠ .moduleFunction)
    (hf : u.findMethod m name none = some f) (hd : f.isDefined = true)
    (h : setMethodVisibility m [name] v u = .ok () w) :
    (ChangesVisibility u w m name f v ↔ ¬(f.visibility ≠ v ∧ u.Outranked m name)) ∧
      (∀ x other c, other ≠ name → w.findMethod x other c = u.findMethod x other c) ∧
      ∀ x other c, m ∉ u.ancestors x → (∀ a, ∀ r ∈ activeFor c a, m ∉ u.ancestors r) →
        w.lookupMethod x other c = u.lookupMethod x other c := by
  rcases setMethodVisibility_cases hv hf hd h with ⟨he, rfl⟩ | ⟨hne, hi, rfl⟩
  · refine ⟨iff_of_true (changesVisibility_self hf he) fun hb => hb.1 he, ?_, ?_⟩
    · exact fun _ _ _ _ => rfl
    · exact fun _ _ _ _ _ => rfl
  · refine ⟨?_, fun x other c ho => ?_, fun x other c hx hc => ?_⟩
    · rw [changesVisibility_after_iff hu hf hi hne, not_and, forall_prop_of_true hne]
    · refine findMethod_of_entries (chain_addMethod hi _) (fun k => ?_) x c
      refine ownMethod_addMethod_other hi _ (.inr ?_)
      rwa [Method.name_withVisibility, name_of_findMethod hu hf]
    · exact lookupMethod_elsewhere hi _ hx hc other

/-- A class with a method, and a class below it. -/
def inheritedMethod : List Move := [.newClass none, .newClass (some ⟨12⟩),
  .addMethod ⟨12⟩ (.ofReader "f" "@f" ⟨12⟩ .pub)]

theorem changesVisibility_inheritedMethod :
    ∃ f, ((create {}).afterAll inheritedMethod).findMethod ⟨13⟩ "f" none = some f ∧
      ChangesVisibility ((create {}).afterAll inheritedMethod)
        (Update.final (setMethodVisibility ⟨13⟩ ["f"] .priv) ((create {}).afterAll inheritedMethod))
        ⟨13⟩ "f" f .priv := by
  have hu : Reachable ((create {}).afterAll inheritedMethod) := by
    refine (Reachable.create {}).afterAll _ ⟨nofun, ?_, ⟨?_, ?_⟩, trivial⟩
    · rintro m ⟨⟩
      decide +kernel
    · decide +kernel
    · exact Method.known_ofReader (by decide +kernel) _ _ _
  have hfound : (((create {}).afterAll inheritedMethod).findMethod ⟨13⟩ "f" none).any
      Method.isDefined = true := by decide +kernel
  obtain ⟨f, hf, hd⟩ := (Option.any_eq_true _ _).1 hfound
  refine ⟨f, hf, (changesVisibility_iff hu (by decide) hf hd ?_).1.2 fun h => ?_⟩
  · exact Update.eq_ok (by decide +kernel)
  · exact absurd h.2 (by decide +kernel)

/-- A class and a module prepended to it, with a method of one name each. -/
def outrankedMethod : List Move := [.newModule, .newClass none,
  .addMethod ⟨12⟩ (.ofReader "f" "@a" ⟨12⟩ .pub), .addMethod ⟨13⟩ (.ofReader "f" "@b" ⟨13⟩ .pub),
  .prependModule ⟨13⟩ ⟨12⟩]

/-- The change to a private method succeeds, and a public one is found afterwards. -/
theorem not_changesVisibility_outrankedMethod :
    Reachable ((create {}).afterAll outrankedMethod) ∧
      ∃ f, ((create {}).afterAll outrankedMethod).findMethod ⟨13⟩ "f" none = some f ∧
        f.isDefined = true ∧
        Update.result? (setMethodVisibility ⟨13⟩ ["f"] .priv)
          ((create {}).afterAll outrankedMethod) = some () ∧
        ¬ChangesVisibility ((create {}).afterAll outrankedMethod)
          (Update.final (setMethodVisibility ⟨13⟩ ["f"] .priv)
            ((create {}).afterAll outrankedMethod)) ⟨13⟩ "f" f .priv := by
  have hfound : (((create {}).afterAll outrankedMethod).findMethod ⟨13⟩ "f" none).any
      Method.isDefined = true := by decide +kernel
  have hpublic : ((Update.final (setMethodVisibility ⟨13⟩ ["f"] .priv)
      ((create {}).afterAll outrankedMethod)).findMethod ⟨13⟩ "f" none).all
        (fun g => g.visibility = .pub) = true := by decide +kernel
  obtain ⟨f, hf, hd⟩ := (Option.any_eq_true _ _).1 hfound
  refine ⟨?_, f, hf, hd, by decide +kernel, ?_⟩
  · refine (Reachable.create {}).afterAll _ ⟨trivial, nofun, ⟨?_, ?_⟩, ⟨?_, ?_⟩, ⟨?_, ?_⟩, trivial⟩
    · decide +kernel
    · exact Method.known_ofReader (by decide +kernel) _ _ _
    · decide +kernel
    · exact Method.known_ofReader (by decide +kernel) _ _ _
    · decide +kernel
    · decide +kernel
  · rintro ⟨⟨g, hg, hv, -⟩, -⟩
    rw [hg] at hpublic
    have hpub : g.visibility = .pub := of_decide_eq_true hpublic
    exact absurd (hpub.symm.trans hv) (by decide)

end Universe

end ObjectModel
