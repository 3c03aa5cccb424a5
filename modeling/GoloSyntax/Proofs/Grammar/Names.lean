import GoloSyntax.Proofs.Reading.Phrases

/-! # Names and their segments

A name of several segments is kept as one text with points in it.  Segments hold no points, so
the text can be split into them again (`segments_dotted`), and what a name that is not called
stands for is the same by its text and by its segments (`byText_iff_plain`).
-/
namespace GoloSyntax

/-- The segments of a name, which stand between its points. -/
def segments (name : String) : List String := (name.toList.splitOn '.').map String.ofList

/-- A text that can be a segment of a name. -/
def IsSegment (text : String) : Prop := '.' ∉ text.toList

variable {names : List String}

theorem toList_dotted (hne : names ≠ []) :
    (dotted names).toList = ['.'].intercalate (names.map String.toList) := by
  have hfold : ∀ (rest : List String) (first : String),
      (rest.foldl (fun name segment => name ++ "." ++ segment) first).toList =
        ['.'].intercalate (first.toList :: rest.map String.toList) := by
    intro rest
    induction rest with
    | nil => simp [List.intercalate]
    | cons second rest ih =>
      intro first
      rw [List.foldl_cons, ih]
      cases rest with
      | nil => simp [List.intercalate]
      | cons third rest => simp [List.intercalate]
  obtain ⟨first, rest, rfl⟩ := List.exists_cons_of_ne_nil hne
  exact hfold rest first

/-- Joining segments by points and splitting them again changes nothing. -/
theorem segments_dotted (hne : names ≠ []) (hnames : ∀ name ∈ names, IsSegment name) :
    segments (dotted names) = names := by
  have hsplit : (names.map String.toList) ≠ [] := by simpa using hne
  rw [segments, toList_dotted hne, List.splitOn_intercalate '.' ?_ hsplit]
  · simp
  · intro l hl
    obtain ⟨name, hname, rfl⟩ := List.mem_map.mp hl
    exact hnames name hname

theorem segments_ne_nil (name : String) : segments name ≠ [] := by
  simp [segments, List.splitOn_ne_nil]

theorem dotted_segments (name : String) : dotted (segments name) = name := by
  apply String.toList_injective
  rw [toList_dotted (segments_ne_nil name), segments, List.map_map]
  simp [Function.comp_def]

/-- What stands between two separators holds none. -/
theorem not_of_mem_splitOnP {α : Type} {p : α → Bool} {xs l : List α} (hl : l ∈ xs.splitOnP p)
    {x : α} (hx : x ∈ l) : p x = false := by
  induction xs generalizing l with
  | nil =>
    obtain rfl : l = [] := by simpa using hl
    cases hx
  | cons y xs ih =>
    rw [List.splitOnP_cons_eq_if_modifyHead] at hl
    split at hl
    · rcases List.mem_cons.mp hl with rfl | hl
      · cases hx
      · exact ih hl hx
    · next hy =>
      obtain ⟨first, rest, hsplit⟩ := List.exists_cons_of_ne_nil (List.splitOnP_ne_nil p xs)
      rw [hsplit, List.modifyHead_cons] at hl
      rcases List.mem_cons.mp hl with rfl | hl
      · rcases List.mem_cons.mp hx with rfl | hx
        · simpa using hy
        · exact ih (hsplit ▸ List.mem_cons_self) hx
      · exact ih (hsplit ▸ List.mem_cons_of_mem _ hl) hx

theorem isSegment_of_mem_segments {name text : String} (h : text ∈ segments name) :
    IsSegment text := by
  obtain ⟨l, hl, rfl⟩ := List.mem_map.mp h
  intro hdot
  rw [String.toList_ofList] at hdot
  simpa using not_of_mem_splitOnP hl hdot

theorem segments_of_isSegment {name : String} (h : IsSegment name) : segments name = [name] :=
  segments_dotted (List.cons_ne_nil name []) (by simpa using h)

theorem dotted_concat (hne : names ≠ []) (name : String) :
    dotted (names ++ [name]) = dotted names ++ "." ++ name := by
  obtain ⟨first, rest, rfl⟩ := List.exists_cons_of_ne_nil hne
  simp [dotted]

/-! ## Names that are not called -/

/-- A name denotes a class if its last segment, behind others, is `class`. -/
theorem classOf?_dotted_iff (hne : names ≠ []) (hnames : ∀ name ∈ names, IsSegment name)
    {class_ : String} : Grammar.classOf? (dotted names) = some class_ ↔
      ∃ front, front ≠ [] ∧ names = front ++ ["class"] ∧ class_ = dotted front := by
  constructor
  · intro h
    simp only [Grammar.classOf?] at h
    split at h
    · next hclass =>
      obtain rfl := Option.some.inj h
      obtain ⟨front, hfront⟩ : Grammar.classSuffix <:+ (dotted names).toList := by
        simpa using hclass
      have htake : (dotted names).toList.take
          ((dotted names).toList.length - Grammar.classSuffix.length) = front := by
        rw [← hfront]
        simp
      have hsegments : ∀ name ∈ segments (String.ofList front) ++ ["class"], IsSegment name := by
        rw [List.forall_mem_append, List.forall_mem_singleton]
        exact ⟨fun name => isSegment_of_mem_segments, by unfold IsSegment; decide⟩
      rw [htake]
      refine ⟨segments (String.ofList front), segments_ne_nil _, ?_, (dotted_segments _).symm⟩
      -- Both sides are the segments of one text.
      rw [← segments_dotted hne hnames,
        ← segments_dotted (List.append_ne_nil_of_right_ne_nil _ (by simp)) hsegments]
      congr 1
      rw [dotted_concat (segments_ne_nil _), dotted_segments]
      apply String.toList_injective
      rw [← hfront]
      simp [Grammar.classSuffix]
    · cases h
  · rintro ⟨front, hfront, rfl, rfl⟩
    have htext : (dotted (front ++ ["class"])).toList =
        (dotted front).toList ++ Grammar.classSuffix := by
      simp [dotted_concat hfront, Grammar.classSuffix]
    simp [Grammar.classOf?, htext]

theorem contains_dotted_iff (hne : names ≠ []) (hnames : ∀ name ∈ names, IsSegment name) :
    (dotted names).toList.contains '.' = false ↔ ∃ name, names = [name] := by
  constructor
  · intro h
    have hsegment : IsSegment (dotted names) := by simpa [IsSegment] using h
    exact ⟨_, (segments_dotted hne hnames).symm.trans (segments_of_isSegment hsegment)⟩
  · rintro ⟨name, rfl⟩
    simpa [dotted, IsSegment] using hnames

/-- What a name stands for is the same by its text and by its segments. -/
theorem byText_iff_plain (hne : names ≠ []) (hnames : ∀ name ∈ names, IsSegment name)
    {kind : NodeKind} : Naming.byText names kind ↔ Naming.plain names kind := by
  simp only [Naming.byText, NameDenotes]
  constructor
  · intro h
    split at h
    · next class_ hclass =>
      obtain ⟨front, hfront, rfl, rfl⟩ := (classOf?_dotted_iff hne hnames).mp hclass
      exact h ▸ .classLiteral hfront
    · obtain ⟨hdot, rfl⟩ := h
      obtain ⟨name, rfl⟩ := (contains_dotted_iff hne hnames).mp (by simpa using hdot)
      exact .reference name
  · intro h
    cases h with
    | reference name =>
      have hnone : Grammar.classOf? (dotted [name]) = none := by
        by_contra hsome
        obtain ⟨class_, hclass⟩ := Option.ne_none_iff_exists'.mp hsome
        obtain ⟨front, hfront, hname, -⟩ := (classOf?_dotted_iff hne hnames).mp hclass
        cases front with
        | nil => exact hfront rfl
        | cons first rest => simp at hname
      rw [hnone]
      refine ⟨?_, rfl⟩
      simpa using (contains_dotted_iff hne hnames).mpr ⟨name, rfl⟩
    | classLiteral hfront =>
      rw [(classOf?_dotted_iff hne hnames).mpr ⟨_, hfront, rfl, rfl⟩]

end GoloSyntax
