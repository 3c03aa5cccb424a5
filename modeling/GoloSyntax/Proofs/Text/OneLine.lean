import GoloSyntax.Number.Shortest
import GoloSyntax.Source.Position
import GoloSyntax.Proofs.Text.Quoting

/-! # Texts of one line

A text is one line if it has no line feed.  Numbers, places and texts between quotation marks are
always written on one line, whatever they are.
-/
namespace GoloSyntax

/-- Whether a text has no line feed. -/
def isOneLine (text : String) : Bool := !text.toList.contains '\n'

theorem isOneLine_iff {text : String} : isOneLine text ↔ '\n' ∉ text.toList := by
  simp [isOneLine]

theorem isOneLine_append (a b : String) : isOneLine (a ++ b) = (isOneLine a && isOneLine b) := by
  simp [isOneLine, Bool.not_or]

theorem isOneLine_toString (n : Nat) : isOneLine (toString n) := by
  rw [isOneLine_iff, Nat.toString_eq_ofList_toDigits, String.toList_ofList]
  intro h
  exact absurd (Nat.isDigit_of_mem_toDigits (by decide) (by decide) h) (by decide)

theorem isOneLine_char (c : Char) : isOneLine c.toString = (c != '\n') := by
  rw [Bool.eq_iff_iff, isOneLine_iff, bne_iff_ne, ne_eq, Char.toString_eq_singleton,
    String.toList_singleton, List.mem_singleton]
  exact not_congr eq_comm

theorem isOneLine_intercalate {sep : String} {parts : List String} (hsep : isOneLine sep)
    (h : ∀ part ∈ parts, isOneLine part) : isOneLine (sep.intercalate parts) := by
  induction parts with
  | nil => rfl
  | cons part parts ih =>
    cases parts with
    | nil => simpa using h part List.mem_cons_self
    | cons next parts =>
      rw [String.intercalate_cons_cons, isOneLine_append, isOneLine_append, Bool.and_eq_true,
        Bool.and_eq_true]
      exact ⟨⟨h part List.mem_cons_self, hsep⟩, ih fun p hp => h p (List.mem_cons_of_mem _ hp)⟩

theorem isOneLine_ofList {cs : List Char} : isOneLine (String.ofList cs) ↔ '\n' ∉ cs := by
  rw [isOneLine_iff, String.toList_ofList]

theorem Position.isOneLine_display (p : Position) : isOneLine p.display := by
  simp only [display, isOneLine_append, isOneLine_toString]
  rfl

theorem Span.isOneLine_display (s : Span) : isOneLine s.display := by
  simp only [display, isOneLine_append, Position.isOneLine_display]
  rfl

/-! ## Quotations -/

/-- The escapes for line feeds, as for every other character, are written on one line. -/
theorem isOneLine_escapeWithin (delimiter c : Char) : isOneLine (escapeWithin delimiter c) := by
  have hdigits : isOneLine (hexDigits c.toNat) := by
    rw [hexDigits, isOneLine_ofList]
    exact not_mem_toDigits (by decide) (by decide) _
  unfold escapeWithin
  split_ifs with hzero htab hfeed
  · rfl
  · rfl
  · rfl
  · rfl
  · rw [isOneLine_append, isOneLine_char]
    simp [hfeed]
    rfl
  · rw [isOneLine_append, isOneLine_append, hdigits]
    rfl
  · rw [isOneLine_char]
    simpa using hfeed

theorem isOneLine_quoteText (text : String) : isOneLine (quoteText text) := by
  rw [isOneLine_iff, quoteText_toList]
  intro hmem
  rcases List.mem_append.mp hmem with hmem | hmem
  · rcases List.mem_cons.mp hmem with hquote | hmem
    · cases hquote
    · obtain ⟨c, -, hc⟩ := List.mem_flatMap.mp hmem
      exact isOneLine_iff.mp (isOneLine_escapeWithin '"' c) hc
  · cases List.mem_singleton.mp hmem

theorem isOneLine_quoteCharacter (c : Char) : isOneLine (quoteCharacter c) := by
  rw [quoteCharacter, isOneLine_append, isOneLine_append, isOneLine_escapeWithin]
  rfl

/-! ## Numbers -/

theorem isOneLine_repr (n : Nat) : isOneLine (Nat.repr n) := isOneLine_toString n

theorem isOneLine_toString_int (n : Int) : isOneLine (toString n) := by
  rw [show toString n = n.repr from rfl, Int.repr_eq_if]
  split
  · exact isOneLine_repr _
  · rw [isOneLine_append, isOneLine_repr]
    rfl

theorem mem_of_mem_dropTrailingZeros {c : Char} {digits : List Char}
    (h : c ∈ dropTrailingZeros digits) : c ∈ digits :=
  List.mem_reverse.mp ((List.dropWhile_sublist _).subset (List.mem_reverse.mp h))

theorem isOneLine_renderDecimal (d : Nat) (k : Int) : isOneLine (renderDecimal d k) := by
  have hdigits : '\n' ∉ dropTrailingZeros (Nat.repr d).toList := fun h =>
    isOneLine_iff.mp (isOneLine_repr d) (mem_of_mem_dropTrailingZeros h)
  have hpadded (n : Nat) : '\n' ∉ dropTrailingZeros (Nat.repr d).toList ++ List.replicate n '0' := by
    simpa using hdigits
  simp only [renderDecimal]
  split
  · split
    · simpa [isOneLine_iff] using hdigits
    · rw [isOneLine_append, isOneLine_append,
        isOneLine_ofList.mpr fun h => hpadded _ (List.mem_of_mem_take h)]
      split
      · rfl
      · rw [isOneLine_ofList.mpr fun h => hpadded _ (List.mem_of_mem_drop h)]
        rfl
  · rw [isOneLine_append, isOneLine_append, isOneLine_append, isOneLine_toString_int,
      isOneLine_ofList.mpr fun h => hdigits (List.mem_of_mem_take h)]
    split
    · rfl
    · rw [isOneLine_append, isOneLine_ofList.mpr fun h => hdigits (List.mem_of_mem_drop h)]
      rfl

theorem FloatFormat.isOneLine_render (f : FloatFormat) (value : Floating) :
    isOneLine (f.render value) := by
  cases value with
  | notANumber => exact (rfl : isOneLine "NaN" = true)
  | infinite negative =>
    cases negative
    · exact (rfl : isOneLine "inf" = true)
    · exact (rfl : isOneLine "-inf" = true)
  | finite negative m e =>
    have hsign : isOneLine (if negative then "-" else "") := by cases negative <;> rfl
    simp only [render]
    split
    · rw [isOneLine_append, hsign]
      rfl
    · rw [isOneLine_append, hsign, isOneLine_renderDecimal]
      rfl

end GoloSyntax
