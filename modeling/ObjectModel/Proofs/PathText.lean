import ObjectModel.ConstantPath
import ObjectModel.Name

/-!
# Texts of constant paths

A text is cut at its separators from the left, and a path is written with separators between its
segments.  Reading a text loses nothing, and what it is read as is fixed by what the text says: two
colons in front make a path absolute, and of a run of colons the first two are a separator.  Paths
whose segments are names are read as they were written.  The bytes that are counted while the
segments of a text are passed end where the text of those segments does.

* `HoldsSeparator`, `CutLeftmost`: where separators are, and segments that end at the leftmost ones;
* `joinSegments_splitSegments`, `cutLeftmost_splitSegments`, `splitSegments_joinSegments`: cutting
  and joining characters;
* `joined`, `render_eq_intercalate`: the text of a path;
* `IsReading`, `isReading_iff`: what a text is read as, said of the path;
* `render_parse`: what was read is written as it was;
* `parse_render`: what was written is read as it was, if its segments are names of constants;
* `parse_lossless`: both, with what is said of the segments of a text;
* `IsSegment`, `isSegment_of_mem`: what a text is cut into is cut no further;
* `passedBy`: the bytes before the segment behind the segments passed;
* `upTo?_append`, `upTo?_passedBy`: the slice of a text up to the end of a segment.
-/

namespace ObjectModel

namespace ConstantPath

variable {cs s : List Char} {ss : List (List Char)} {name text : String}
  {front back segments : List String} {p : ConstantPath}

/-! ### Separators -/

/-- A separator is among the characters. -/
def HoldsSeparator (cs : List Char) : Prop := [':', ':'] <:+: cs

theorem not_holdsSeparator_nil : ¬HoldsSeparator [] := by simp [HoldsSeparator]

/-- A separator is in front, or behind the first character. -/
theorem holdsSeparator_cons {c : Char} :
    HoldsSeparator (c :: cs) ↔ (c = ':' ∧ cs.head? = some ':') ∨ HoldsSeparator cs := by
  rw [HoldsSeparator, HoldsSeparator, List.infix_cons_iff, List.cons_prefix_cons]
  cases cs with
  | nil => simp
  | cons d cs => simp [List.cons_prefix_cons, eq_comm]

theorem HoldsSeparator.append (h : HoldsSeparator s) (cs : List Char) : HoldsSeparator (s ++ cs) :=
  List.IsInfix.trans h (List.prefix_append s cs).isInfix

/-- The first colon of the separator behind a segment; the last segment has none behind it. -/
def closing (ss : List (List Char)) : List Char := if ss = [] then [] else [':']

/-- No separator begins within a segment, not even one of its last character and the colon behind
it: each segment ends at the first separator from its start. -/
def CutLeftmost : List (List Char) → Prop
  | [] => True
  | s :: ss => ¬HoldsSeparator (s ++ closing ss) ∧ CutLeftmost ss

theorem CutLeftmost.not_holdsSeparator (h : CutLeftmost ss) (hs : s ∈ ss) : ¬HoldsSeparator s := by
  induction ss with
  | nil => exact nomatch hs
  | cons t ss ih =>
    rcases List.mem_cons.1 hs with rfl | hs
    · exact fun hheld => h.1 (hheld.append _)
    · exact ih h.2 hs

/-- No separator begins within characters without a colon. -/
theorem not_holdsSeparator_append_closing (h : ':' ∉ s) (ss : List (List Char)) :
    ¬HoldsSeparator (s ++ closing ss) := by
  induction s with
  | nil =>
    rw [List.nil_append, closing]
    split <;> simp [holdsSeparator_cons, not_holdsSeparator_nil]
  | cons c s ih =>
    rw [List.mem_cons, not_or] at h
    rw [List.cons_append, holdsSeparator_cons, not_or]
    exact ⟨fun hc => h.1 hc.1.symm, ih h.2⟩

theorem cutLeftmost_of_no_colon (h : ∀ s ∈ ss, ':' ∉ s) : CutLeftmost ss := by
  induction ss with
  | nil => trivial
  | cons s ss ih =>
    obtain ⟨hs, hss⟩ := List.forall_mem_cons.1 h
    exact ⟨not_holdsSeparator_append_closing hs ss, ih hss⟩

/-! ### Cutting and joining -/

theorem joinSegments_cons_of_ne_nil (s : List Char) (h : ss ≠ []) :
    joinSegments (s :: ss) = s ++ ':' :: ':' :: joinSegments ss := by
  obtain ⟨t, ss, rfl⟩ := List.exists_cons_of_ne_nil h
  rfl

/-- Joining what was cut gives back the characters. -/
theorem joinSegments_splitSegments (cs : List Char) : joinSegments (splitSegments cs) = cs := by
  fun_induction splitSegments cs with
  | case1 => rfl
  | case2 cs ih =>
    rw [joinSegments_cons_of_ne_nil [] (splitSegments_ne_nil cs), ih]
    rfl
  | case3 c cs _ hnil => exact absurd hnil (splitSegments_ne_nil cs)
  | case4 c cs _ s ss hcons ih =>
    rw [hcons] at ih
    rw [← ih]
    cases ss <;> rfl

/-- The first segment starts the characters, and so does the colon behind it. -/
theorem append_closing_prefix (h : splitSegments cs = s :: ss) : s ++ closing ss <+: cs := by
  rw [← joinSegments_splitSegments cs, h]
  cases ss with
  | nil => simp [closing, joinSegments]
  | cons t ss => exact ⟨':' :: joinSegments (t :: ss), by simp [closing, joinSegments]⟩

/-- Characters are cut at the leftmost separators. -/
theorem cutLeftmost_splitSegments (cs : List Char) : CutLeftmost (splitSegments cs) := by
  fun_induction splitSegments cs with
  | case1 => exact cutLeftmost_of_no_colon (by simp)
  | case2 cs ih => exact ⟨not_holdsSeparator_append_closing List.not_mem_nil _, ih⟩
  | case3 c cs _ hnil => exact absurd hnil (splitSegments_ne_nil cs)
  | case4 c cs hnone s ss hcons ih =>
    rw [hcons] at ih
    refine ⟨?_, ih.2⟩
    rw [List.cons_append, holdsSeparator_cons, not_or]
    refine ⟨?_, ih.1⟩
    rintro ⟨rfl, hhead⟩
    -- a separator in front of the segment would have been one in front of the characters
    obtain ⟨rest, hrest⟩ := List.head?_eq_some_iff.1 hhead
    obtain ⟨cs', hcs'⟩ := append_closing_prefix hcons
    rw [hrest] at hcs'
    exact hnone _ rfl hcs'.symm

/-- A character that starts no separator belongs to the segment that follows it. -/
theorem splitSegments_cons {c : Char} (h : ¬(c = ':' ∧ cs.head? = some ':'))
    (hcs : splitSegments cs = s :: ss) : splitSegments (c :: cs) = (c :: s) :: ss := by
  have hnone : ∀ cs', c = ':' → cs = ':' :: cs' → False := fun cs' hc he =>
    h ⟨hc, he ▸ rfl⟩
  simp only [splitSegments.eq_3 c cs hnone, hcs]

/-- Without a separator there is one segment. -/
theorem splitSegments_of_not_holdsSeparator (h : ¬HoldsSeparator s) : splitSegments s = [s] := by
  induction s with
  | nil => rfl
  | cons c s ih =>
    rw [holdsSeparator_cons, not_or] at h
    exact splitSegments_cons h.1 (ih h.2)

/-- The first segment ends at the first separator. -/
theorem splitSegments_append_separator (h : ¬HoldsSeparator (s ++ [':'])) (cs : List Char) :
    splitSegments (s ++ ':' :: ':' :: cs) = s :: splitSegments cs := by
  induction s with
  | nil => rw [List.nil_append, splitSegments]
  | cons c s ih =>
    rw [List.cons_append, holdsSeparator_cons, not_or] at h
    refine splitSegments_cons (fun hc => h.1 ⟨hc.1, ?_⟩) (ih h.2)
    cases s with
    | nil => rfl
    | cons d s => exact hc.2

/-- Cutting what was joined gives back the segments, if each ends at the first separator. -/
theorem splitSegments_joinSegments (hne : ss ≠ []) (h : CutLeftmost ss) :
    splitSegments (joinSegments ss) = ss := by
  induction ss with
  | nil => exact absurd rfl hne
  | cons s ss ih =>
    obtain ⟨hs, hss⟩ := h
    by_cases hnil : ss = []
    · rw [closing, if_pos hnil, List.append_nil] at hs
      rw [hnil]
      exact splitSegments_of_not_holdsSeparator hs
    · rw [closing, if_neg hnil] at hs
      rw [joinSegments_cons_of_ne_nil s hnil, splitSegments_append_separator hs, ih hnil hss]

/-! ### The text of a path -/

/-- The characters before the first segment. -/
def anchor (absolute : Bool) : List Char := if absolute then [':', ':'] else []

theorem toList_render (p : ConstantPath) :
    p.render.toList = anchor p.absolute ++ joinSegments (p.segments.map String.toList) :=
  String.toList_ofList

/-- Segments with separators between them. -/
def joined (segments : List String) : String :=
  String.ofList (joinSegments (segments.map String.toList))

theorem joined_cons (s : String) (h : segments ≠ []) :
    joined (s :: segments) = s ++ "::" ++ joined segments := by
  rw [joined, List.map_cons, joinSegments_cons_of_ne_nil _ (mt List.map_eq_nil_iff.1 h)]
  apply String.toList_inj.1
  simp [joined, String.toList_append]

theorem joined_eq_intercalate (segments : List String) :
    joined segments = "::".intercalate segments := by
  induction segments with
  | nil => rw [String.intercalate_nil, joined, List.map_nil, joinSegments, String.ofList_nil]
  | cons s segments ih =>
    by_cases h : segments = []
    · rw [h, String.intercalate_singleton]
      exact String.ofList_toList
    · rw [joined_cons s h, ih, String.intercalate_cons_of_ne_nil h]

theorem joined_append (s : String) (front : List String) (h : back ≠ []) :
    joined (front ++ s :: back) = joined (front ++ [s]) ++ "::" ++ joined back := by
  simp only [joined_eq_intercalate]
  rw [← String.intercalate_append_of_ne_nil (by simp) h, List.append_assoc, List.singleton_append]

theorem render_eq (p : ConstantPath) :
    p.render = (if p.absolute then "::" else "") ++ joined p.segments := by
  apply String.toList_inj.1
  cases h : p.absolute <;> simp [render, joined, h, String.toList_append]

theorem render_eq_intercalate (p : ConstantPath) :
    p.render = (if p.absolute then "::" else "") ++ "::".intercalate p.segments := by
  rw [render_eq, joined_eq_intercalate]

/-! ### Reading and writing -/

/-- What a text is cut into. -/
theorem parse_eq (text : String) : ∃ cs, text.toList = anchor (parse text).absolute ++ cs ∧
    (parse text).segments = (splitSegments cs).map String.ofList := by
  unfold parse
  split
  · next cs hcs => exact ⟨cs, hcs, rfl⟩
  · exact ⟨text.toList, rfl, rfl⟩

/-- Paths are absolute where a text starts with a separator. -/
theorem absolute_parse (text : String) : (parse text).absolute = text.startsWith "::" := by
  unfold parse
  split
  · next cs hcs =>
    symm
    rw [String.startsWith_string_iff, hcs]
    exact List.prefix_append [':', ':'] cs
  · next hnone =>
    symm
    rw [String.startsWith_string_eq_false_iff]
    rintro ⟨cs, hcs⟩
    exact hnone cs hcs.symm

theorem segments_ne_nil (text : String) : (parse text).segments ≠ [] := by
  obtain ⟨cs, -, hcs⟩ := parse_eq text
  rw [hcs]
  exact mt List.map_eq_nil_iff.1 (splitSegments_ne_nil cs)

theorem map_toList_map_ofList (ss : List (List Char)) :
    (ss.map String.ofList).map String.toList = ss := by
  rw [List.map_map]
  exact (List.map_congr_left fun s _ => String.toList_ofList).trans (List.map_id _)

theorem map_ofList_map_toList (segments : List String) :
    (segments.map String.toList).map String.ofList = segments := by
  rw [List.map_map]
  exact (List.map_congr_left fun s _ => String.ofList_toList).trans (List.map_id _)

/-- Writing the path that was read gives back the text. -/
theorem render_parse (text : String) : render (parse text) = text := by
  obtain ⟨cs, hcs, hsegments⟩ := parse_eq text
  apply String.toList_inj.1
  rw [toList_render, hsegments, map_toList_map_ofList, joinSegments_splitSegments, hcs]

/-- What a text is read as, said without reading: the path is written as the text, its segments end
at the leftmost separators, and it is absolute if the text starts with a separator. -/
structure IsReading (text : String) (p : ConstantPath) : Prop where
  written : p.render = text
  nonempty : p.segments ≠ []
  leftmost : CutLeftmost (p.segments.map String.toList)
  anchored : p.absolute = text.startsWith "::"

theorem isReading_parse (text : String) : IsReading text (parse text) where
  written := render_parse text
  nonempty := segments_ne_nil text
  leftmost := by
    obtain ⟨cs, -, hcs⟩ := parse_eq text
    rw [hcs, map_toList_map_ofList]
    exact cutLeftmost_splitSegments cs
  anchored := absolute_parse text

theorem IsReading.parse_eq (h : IsReading text p) : parse text = p := by
  obtain ⟨absolute, segments⟩ := p
  obtain ⟨cs, hcs, hsegments⟩ := ConstantPath.parse_eq text
  have habsolute : (parse text).absolute = absolute := (absolute_parse text).trans h.anchored.symm
  have hjoined : cs = joinSegments (segments.map String.toList) := by
    have htext := congrArg String.toList h.written
    rw [toList_render, hcs, habsolute] at htext
    exact (List.append_cancel_left htext).symm
  rw [hjoined, splitSegments_joinSegments (mt List.map_eq_nil_iff.1 h.nonempty) h.leftmost,
    map_ofList_map_toList] at hsegments
  calc parse text = ⟨(parse text).absolute, (parse text).segments⟩ := rfl
    _ = ⟨absolute, segments⟩ := by rw [habsolute, hsegments]

/-- Of all paths that are written as a text, the one that it is read as is the one whose segments
end at the leftmost separators and that is absolute if a separator is in front. -/
theorem isReading_iff : IsReading text p ↔ parse text = p :=
  ⟨IsReading.parse_eq, fun h => h ▸ isReading_parse text⟩

/-- Of three colons the first two are a separator. -/
example : parse "A:::B" = ⟨false, ["A", ":B"]⟩ := by decide +kernel

theorem no_colon_of_isConstantName (h : Name.isConstantName name = true) :
    ':' ∉ name.toList := by
  have hstart : Text.isUppercase ':' = false := by decide +kernel
  have hchar : Name.isIdentifierChar ':' = false := by decide
  unfold Name.isConstantName at h
  cases hname : name.toList with
  | nil => exact List.not_mem_nil
  | cons c cs =>
    rw [hname] at h
    obtain ⟨hc, hcs⟩ := Bool.and_eq_true_iff.1 h
    rw [List.mem_cons, not_or]
    refine ⟨fun he => ?_, fun hm => ?_⟩
    · rw [← he, hstart] at hc
      exact Bool.false_ne_true hc
    · have := List.all_eq_true.1 hcs _ hm
      rw [hchar] at this
      exact Bool.false_ne_true this

theorem ne_nil_of_isConstantName (h : Name.isConstantName name = true) : name.toList ≠ [] := by
  intro hnil
  rw [Name.isConstantName, hnil] at h
  exact Bool.false_ne_true h

/-- What starts with a name starts with no separator. -/
theorem not_startsWith_of_isConstantName (h : Name.isConstantName name = true) (rest : List Char)
    (htext : text.toList = name.toList ++ rest) : text.startsWith "::" = false := by
  have hcolon := no_colon_of_isConstantName h
  obtain ⟨c, cs, hc⟩ := List.exists_cons_of_ne_nil (ne_nil_of_isConstantName h)
  rw [String.startsWith_string_eq_false_iff, htext, hc]
  rintro ⟨ds, hds⟩
  rw [hc, ← (List.cons.inj hds).1] at hcolon
  exact hcolon List.mem_cons_self

/-- A path of names is absolute exactly if its text starts with a separator. -/
theorem startsWith_render (absolute : Bool) (hne : segments ≠ [])
    (h : ∀ s ∈ segments, Name.isConstantName s = true) :
    (render ⟨absolute, segments⟩).startsWith "::" = absolute := by
  cases absolute with
  | true =>
    rw [String.startsWith_string_iff, toList_render]
    exact List.prefix_append [':', ':'] _
  | false =>
    obtain ⟨s, rest, rfl⟩ := List.exists_cons_of_ne_nil hne
    have hfirst : ∃ cs, joinSegments ((s :: rest).map String.toList) = s.toList ++ cs := by
      cases rest with
      | nil => exact ⟨[], (List.append_nil _).symm⟩
      | cons t rest => exact ⟨_, rfl⟩
    obtain ⟨cs, hcs⟩ := hfirst
    exact not_startsWith_of_isConstantName (h s List.mem_cons_self) cs
      ((toList_render _).trans hcs)

/-- Reading the text of a path gives back the path, if its segments are names of constants. -/
theorem parse_render (absolute : Bool) (hne : segments ≠ [])
    (h : ∀ s ∈ segments, Name.isConstantName s = true) :
    parse (render ⟨absolute, segments⟩) = ⟨absolute, segments⟩ := by
  refine IsReading.parse_eq ⟨rfl, hne, cutLeftmost_of_no_colon fun cs hcs => ?_,
    (startsWith_render absolute hne h).symm⟩
  obtain ⟨s, hs, rfl⟩ := List.mem_map.1 hcs
  exact no_colon_of_isConstantName (h s hs)

/-- No segment of a text holds a separator. -/
theorem not_contains_of_mem (h : name ∈ (parse text).segments) : name.contains "::" = false := by
  rw [String.contains_string_eq_false_iff]
  exact (isReading_parse text).leftmost.not_holdsSeparator (List.mem_map_of_mem h)

/-- **Reading a path loses nothing.**  Every text is read as one or more segments that hold no
separator, and is those segments with separators between them, behind a separator in front if the
path is absolute.  Whatever names of constants a path is written of, absolute or not, its text is
read as that path. -/
theorem parse_lossless :
    (∀ text : String, (parse text).segments ≠ [] ∧
      (∀ s ∈ (parse text).segments, s.contains "::" = false) ∧
      (if (parse text).absolute then "::" else "") ++ "::".intercalate (parse text).segments =
        text) ∧
    ∀ (absolute : Bool) (segments : List String), segments ≠ [] →
      (∀ s ∈ segments, Name.isConstantName s = true) →
      parse ((if absolute then "::" else "") ++ "::".intercalate segments) =
        ⟨absolute, segments⟩ := by
  refine ⟨fun text => ⟨segments_ne_nil text, fun s hs => not_contains_of_mem hs, ?_⟩,
    fun absolute segments hne hnames => ?_⟩
  · rw [← render_eq_intercalate]
    exact render_parse text
  · rw [← parse_render absolute hne hnames, render_eq_intercalate]

/-- Runs of three colons and a separator at the end; and a path of two names. -/
theorem parse_lossless_of_long_runs :
    parse ":::A:::größe::" = ⟨true, [":A", ":größe", ""]⟩ ∧
      (∀ s ∈ [":A", ":größe", ""], s.contains "::" = false) ∧
      "::" ++ "::".intercalate [":A", ":größe", ""] = ":::A:::größe::" ∧
      (∀ s ∈ ["Net", "Größe"], Name.isConstantName s = true) ∧
      parse ("::" ++ "::".intercalate ["Net", "Größe"]) = ⟨true, ["Net", "Größe"]⟩ := by
  have hread : parse ":::A:::größe::" = ⟨true, [":A", ":größe", ""]⟩ := by decide +kernel
  have hnames : ∀ s ∈ ["Net", "Größe"], Name.isConstantName s = true := by decide +kernel
  obtain ⟨-, hsegments, htext⟩ := parse_lossless.1 ":::A:::größe::"
  rw [hread] at hsegments htext
  exact ⟨hread, hsegments, htext, hnames,
    parse_lossless.2 true ["Net", "Größe"] (List.cons_ne_nil _ _) hnames⟩

/-- A text that is one segment, without an anchor. -/
def IsSegment (text : String) : Prop := parse text = ⟨false, [text]⟩

theorem isSegment_of_not_contains (h : name.contains "::" = false) : IsSegment name := by
  rw [String.contains_string_eq_false_iff] at h
  refine IsReading.parse_eq ⟨String.ofList_toList, List.cons_ne_nil _ _, ⟨?_, trivial⟩, ?_⟩
  · exact (List.append_nil name.toList).symm ▸ h
  · symm
    rw [String.startsWith_string_eq_false_iff]
    exact fun hprefix => h hprefix.isInfix

/-- What a text is cut into are segments. -/
theorem isSegment_of_mem (h : name ∈ (parse text).segments) : IsSegment name :=
  isSegment_of_not_contains (not_contains_of_mem h)

/-! ### Bytes -/

/-- The bytes that are passed when `passed` of them were before the segments `front`, and each is
followed by a separator. -/
def passedBy (passed : Nat) (front : List String) : Nat :=
  front.foldl (fun n s => n + s.utf8ByteSize + 2) passed

/-- A slice that ends where a part of a text ends is that part. -/
theorem upTo?_append (s t : String) : upTo? (s ++ t) s.utf8ByteSize = some s := by
  have hvalid : (String.Pos.Raw.mk s.utf8ByteSize).IsValid (s ++ t) :=
    String.Pos.Raw.isValid_rawEndPos.append_right t
  rw [upTo?, dif_pos hvalid]
  exact congrArg some (String.Pos.splits_append_rawEndPos (s := s) (t := t)).copy_sliceTo_eq

/-- A slice is taken at the end of a character within the text. -/
theorem isValid_of_upTo? {bytes : Nat} (h : upTo? text bytes = some name) :
    (String.Pos.Raw.mk bytes).IsValid text := by
  unfold upTo? at h
  split at h
  · next hvalid => exact hvalid
  · exact nomatch h

theorem render_append (absolute : Bool) (front : List String) (s : String) (h : back ≠ []) :
    render ⟨absolute, front ++ s :: back⟩ =
      render ⟨absolute, front ++ [s]⟩ ++ "::" ++ render ⟨false, back⟩ := by
  simp only [render_eq, joined_append s front h, String.append_assoc, Bool.false_eq_true, if_false,
    String.empty_append]

/-- Where the text of some segments ends. -/
theorem size_joined (n : Nat) (front : List String) (s : String) :
    n + (joined (front ++ [s])).utf8ByteSize = passedBy n front + s.utf8ByteSize := by
  induction front generalizing n with
  | nil =>
    have hs : joined [s] = s := String.ofList_toList
    rw [List.nil_append, hs]
    rfl
  | cons a front ih =>
    have hsep : ("::" : String).utf8ByteSize = 2 := by decide
    rw [List.cons_append, joined_cons a (by simp), String.utf8ByteSize_append,
      String.utf8ByteSize_append, hsep]
    rw [passedBy, List.foldl_cons, ← passedBy, ← ih]
    omega

theorem size_render (p : ConstantPath) (front : List String) (s : String)
    (h : p.segments = front ++ [s]) :
    p.render.utf8ByteSize = passedBy p.anchorSize front + s.utf8ByteSize := by
  have hanchor : (if p.absolute then "::" else "" : String).utf8ByteSize = p.anchorSize := by
    rw [anchorSize]
    cases p.absolute <;> decide
  rw [render_eq, String.utf8ByteSize_append, hanchor, h, size_joined]

/-- The bytes counted up to the end of a segment end a character of the text, and what is before
them is the path that ends with the segment. -/
theorem upTo?_passedBy {s : String} (h : (parse text).segments = front ++ s :: back) :
    upTo? text (passedBy (parse text).anchorSize front + s.utf8ByteSize) =
      some (render ⟨(parse text).absolute, front ++ [s]⟩) := by
  have hrest : ∃ rest, text = render ⟨(parse text).absolute, front ++ [s]⟩ ++ rest := by
    have htext : text = render ⟨(parse text).absolute, front ++ s :: back⟩ := by
      rw [← h]
      exact (render_parse text).symm
    by_cases hback : back = []
    · rw [hback] at htext
      exact ⟨"", htext.trans String.append_empty.symm⟩
    · refine ⟨"::" ++ render ⟨false, back⟩, ?_⟩
      rw [← String.append_assoc, ← render_append _ front s hback]
      exact htext
  obtain ⟨rest, hrest⟩ := hrest
  have hsize := size_render ⟨(parse text).absolute, front ++ [s]⟩ front s rfl
  rw [show (parse text).anchorSize = anchorSize ⟨(parse text).absolute, front ++ [s]⟩ from rfl,
    ← hsize]
  generalize render ⟨(parse text).absolute, front ++ [s]⟩ = start at hrest
  rw [hrest]
  exact upTo?_append start rest

end ConstantPath

end ObjectModel
