import ObjectModel.Proofs.ImplicitPrivacy
import ObjectModel.Proofs.VisibilityChange

/-!
# Names of accessors

An accessor for a name reads or writes the instance variable of that name behind `@`, and a writer
is stored under the name before `=`.  What is asked of the name is that it is a method name without
a suffix: identifiers are that, and so are operators, from which neither a variable name nor, as a
rule, the name of a writer can be made.

* `Name.isInstanceVariableName_at`, `Name.isMethodName_writer`: names made of a name;
* `Accessors`: readers, writers, or both;
* `Adds`: what is said of every entry that a call adds; `Adds.keeps_defineAccessor`;
* `ProperlyNamed`, `properlyNamed_iff`: a successful call leaves well-formed names exactly if it was
  asked for no operator;
* `not_properlyNamed_of_operator`: a writer of an operator.
-/

namespace ObjectModel

/-! ### Names made of a name -/

namespace Name

variable {name : String}

theorem methodStem_concat (cs : List Char) : methodStem (cs ++ ['=']) = cs := by
  have h : hasMethodSuffix (cs ++ ['=']) = true := by
    rw [hasMethodSuffix, List.getLast?_concat]
    rfl
  rw [methodStem, if_pos h, List.dropLast_concat]

/-- The variable of an accessor is well-formed exactly if the name is an identifier. -/
theorem isInstanceVariableName_at (name : String) :
    isInstanceVariableName s!"@{name}" = isIdentifier name.toList := by
  have h : (s!"@{name}" : String).toList = '@' :: name.toList := by
    simp [toString, String.toList_append]
  rw [isInstanceVariableName, h]
  cases name.toList <;> rfl

/-- The writer of an identifier has a method name. -/
theorem isMethodName_writer (h : isIdentifier name.toList = true) :
    isMethodName s!"{name}=" = true := by
  have hlist : (s!"{name}=" : String).toList = name.toList ++ ['='] := by
    simp [toString, String.toList_append]
  rw [isMethodName, hlist, methodStem_concat, h, Bool.or_true]

theorem not_isIdentifier_of_operator :
    ∀ name ∈ operatorNames, isIdentifier name.toList = false := by
  decide +kernel

/-- Attribute names are the operators without a suffix and the identifiers. -/
theorem isIdentifier_of_isAttributeName (h : isAttributeName name = true)
    (ho : name ∉ operatorNames) : isIdentifier name.toList = true := by
  rw [isAttributeName, Bool.and_eq_true, Bool.not_eq_true'] at h
  have hname := h.1
  rw [isMethodName, methodStem, h.2, if_neg Bool.false_ne_true, Bool.or_eq_true,
    List.contains_iff_mem] at hname
  exact hname.resolve_left ho

end Name

namespace Universe

variable {u v : Universe} {m : ModuleId} {f : Method} {name : String} {names : List String}

/-! ### Accessors -/

/-- Which methods accessors are made of. -/
inductive Accessors
  | reader
  | writer
  | both
  deriving DecidableEq, Repr

/-- Define the accessors of some names. -/
def Accessors.declare : Accessors → ModuleId → List String → Update Unit
  | .reader => attrReader
  | .writer => attrWriter
  | .both => attrAccessor

/-- Names were checked where accessors could be defined. -/
theorem isAttributeName_of_defineAccessor {writer : Bool}
    (h : defineAccessor m name writer u = .ok () v) : Name.isAttributeName name = true := by
  unfold defineAccessor at h
  split at h
  · exact nomatch h
  · next hname => simpa using hname

/-- A loop that succeeded ran its body once for each element, successfully. -/
theorem ok_of_forM {α : Type} {l : List α} {f : α → Update Unit} (h : l.forM f u = .ok () v) :
    ∀ a ∈ l, ∃ w w', f a w = .ok () w' := by
  induction l generalizing u with
  | nil => exact nofun
  | cons a l ih =>
    change (f a >>= fun _ => l.forM f) u = _ at h
    rw [Update.bind_apply] at h
    cases ha : f a u with
    | error e w =>
      rw [ha] at h
      exact nomatch h
    | ok b w =>
      rw [ha] at h
      exact List.forall_mem_cons.2 ⟨⟨u, w, ha⟩, ih h⟩

/-- Names were checked where a call for accessors succeeded. -/
theorem Accessors.isAttributeName_of_declare {a : Accessors}
    (h : a.declare m names u = .ok () v) : ∀ name ∈ names, Name.isAttributeName name = true := by
  intro name hn
  cases a with
  | reader =>
    obtain ⟨w, w', hw⟩ := ok_of_forM h name hn
    exact isAttributeName_of_defineAccessor hw
  | writer =>
    obtain ⟨w, w', hw⟩ := ok_of_forM h name hn
    exact isAttributeName_of_defineAccessor hw
  | both =>
    obtain ⟨w, w', hw⟩ := ok_of_forM h name hn
    rw [Update.bind_apply] at hw
    cases hread : defineAccessor m name false w with
    | error e x =>
      rw [hread] at hw
      exact nomatch hw
    | ok b x => exact isAttributeName_of_defineAccessor hread

/-! ### What is added -/

/-- Every entry of a method table that is new satisfies `P`, its key and its own name. -/
def Adds (u : Universe) (P : String → Prop) (w : Universe) : Prop :=
  ∀ k key f, w.ownMethod k key = some f → u.ownMethod k key ≠ some f → P key ∧ P f.name

namespace Adds

variable {P : String → Prop}

theorem refl (u : Universe) (P : String → Prop) : Adds u P u :=
  fun _ _ _ hf hne => absurd hf hne

theorem keeps_addMethod (hf : P f.name) (m : ModuleId) :
    Update.Keeps (Adds u P) (addMethod m f) := by
  intro w hw
  cases hi : w.immutable? m with
  | some e =>
    rw [Update.final, addMethod_of_immutable hi]
    exact hw
  | none =>
    rw [Update.final, addMethod_of_mutable hi]
    intro k key g hg hne
    by_cases he : k = m ∧ key = f.name
    · obtain ⟨rfl, rfl⟩ := he
      cases (ownMethod_addMethod_self hi f).symm.trans hg
      have hname : (w.storedMethod f).name = f.name :=
        ((Method.Akin.withBuiltIn f _).trans (.holdMethod _ w)).name
      exact ⟨hf, by rwa [hname]⟩
    · have hother : k ≠ m ∨ key ≠ f.name := not_and_or.1 he
      rw [ownMethod_addMethod_other hi f hother] at hg
      exact hw k key g hg hne

/-- The method of an accessor is stored under the name itself, or before `=`. -/
theorem keeps_defineAccessor {writer : Bool} (hr : writer = false → P name)
    (hw : writer = true → P s!"{name}=") (m : ModuleId) :
    Update.Keeps (Adds u P) (defineAccessor m name writer) := by
  unfold defineAccessor
  refine Update.keeps_guard fun _ => ?_
  cases writer with
  | false =>
    obtain ⟨vis, hvis⟩ := addMethodWithVisibility_pub m
      (.define name m .pub (.ofModule m) .toplevel (.reader s!"@{name}"))
    show Update.Keeps _ (addMethodWithVisibility m _ .pub)
    rw [hvis]
    refine keeps_addMethod ?_ m
    rw [Method.name_withVisibility]
    exact hr rfl
  | true =>
    obtain ⟨vis, hvis⟩ := addMethodWithVisibility_pub m
      (.define s!"{name}=" m .pub (.ofModule m) .toplevel (.writer s!"@{name}"))
    show Update.Keeps _ (addMethodWithVisibility m _ .pub)
    rw [hvis]
    refine keeps_addMethod ?_ m
    rw [Method.name_withVisibility]
    exact hw rfl

theorem keeps_declare (h : ∀ name ∈ names, P name ∧ P s!"{name}=") (a : Accessors)
    (m : ModuleId) : Update.Keeps (Adds u P) (a.declare m names) := by
  have haccessor : ∀ name ∈ names, ∀ writer,
      Update.Keeps (Adds u P) (defineAccessor m name writer) := fun name hn writer =>
    keeps_defineAccessor (fun _ => (h name hn).1) (fun _ => (h name hn).2) m
  cases a with
  | reader => exact Update.keeps_forM fun name hn => haccessor name hn false
  | writer => exact Update.keeps_forM fun name hn => haccessor name hn true
  | both =>
    exact Update.keeps_forM fun name hn =>
      Update.keeps_bind (haccessor name hn false) fun _ => haccessor name hn true

end Adds

/-! ### Well-formed names -/

/-- A call for accessors of some names leaves well-formed names: each names an instance variable
behind `@`, and all entries that are new have the names of methods. -/
def ProperlyNamed (u v : Universe) (names : List String) : Prop :=
  (∀ name ∈ names, Name.isInstanceVariableName s!"@{name}" = true) ∧
    Adds u (fun key => Name.isMethodName key = true) v

/-- **When accessors are well named.**  Whatever the universe, the module and the names: after a
call for readers, for writers or for both that succeeds, all names are well-formed exactly if no
operator was among those asked for. -/
theorem properlyNamed_iff (a : Accessors) (h : a.declare m names u = .ok () v) :
    ProperlyNamed u v names ↔ ∀ name ∈ names, name ∉ Name.operatorNames := by
  constructor
  · intro hnamed name hn ho
    have hvar := hnamed.1 name hn
    rw [Name.isInstanceVariableName_at, Name.not_isIdentifier_of_operator name ho] at hvar
    exact Bool.false_ne_true hvar
  · intro hnames
    have hattribute := a.isAttributeName_of_declare h
    have hidentifier : ∀ name ∈ names, Name.isIdentifier name.toList = true := fun name hn =>
      Name.isIdentifier_of_isAttributeName (hattribute name hn) (hnames name hn)
    refine ⟨fun name hn => ?_, ?_⟩
    · rw [Name.isInstanceVariableName_at]
      exact hidentifier name hn
    · have hmethod : ∀ name ∈ names,
          Name.isMethodName name = true ∧ Name.isMethodName s!"{name}=" = true := fun name hn =>
        ⟨(Bool.and_eq_true_iff.1 (hattribute name hn)).1,
          Name.isMethodName_writer (hidentifier name hn)⟩
      have hadds := Adds.keeps_declare hmethod a m u (.refl u _)
      rwa [Update.final, h] at hadds

/-- Readers and writers of two names, on the class of all objects. -/
theorem properlyNamed_of_identifiers :
    let names := ["x", "größe"]
    let v := Update.final (Accessors.both.declare Core.object names) (create {})
    Accessors.both.declare Core.object names (create {}) = .ok () v ∧
      ProperlyNamed (create {}) v names ∧
      (v.module Core.object).methods.keys = ["x", "x=", "größe", "größe="] := by
  intro names v
  have h : Accessors.both.declare Core.object names (create {}) = .ok () v :=
    Update.eq_ok (by decide +kernel)
  exact ⟨h, (properlyNamed_iff .both h).2 (by decide +kernel), by decide +kernel⟩

/-- A writer of an operator is defined; neither its variable nor its method has a name of that
kind. -/
theorem not_properlyNamed_of_operator :
    let v := Update.final (Accessors.writer.declare Core.object ["+"]) (create {})
    Accessors.writer.declare Core.object ["+"] (create {}) = .ok () v ∧
      Name.isInstanceVariableName "@+" = false ∧ (v.ownMethod Core.object "+=").isSome = true ∧
      Name.isMethodName "+=" = false ∧ ¬ProperlyNamed (create {}) v ["+"] := by
  intro v
  have h : Accessors.writer.declare Core.object ["+"] (create {}) = .ok () v :=
    Update.eq_ok (by decide +kernel)
  have hvariable : Name.isInstanceVariableName "@+" = false := by decide +kernel
  refine ⟨h, hvariable, by decide +kernel, by decide +kernel, fun hnamed => ?_⟩
  exact Bool.false_ne_true (hvariable.symm.trans (hnamed.1 "+" (List.mem_singleton_self _)))

end Universe

end ObjectModel
