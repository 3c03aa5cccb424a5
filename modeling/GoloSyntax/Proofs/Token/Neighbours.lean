import GoloSyntax.Proofs.Token.Excerpts
import GoloSyntax.Proofs.Token.Numbers
import GoloSyntax.Proofs.Token.Quotations

/-! # Writing tokens one behind the other

A text that is put together from the texts of lexemes is cut up into these lexemes again, if each
of them is read in front of what comes behind it (`CutsInto.cons`).  A name or a literal that is
read where nothing else stands is also read in front of a mark, as long as this does not begin like
something that would go on with it (`ScansAs.before`).
-/
namespace GoloSyntax

/-- `u` in front of `v` is read as the lexeme `l`, if no limit is in the way. -/
def ScansAs (u v : List Char) (l : Lexeme) : Prop :=
  ∃ limits p q, scanLexeme limits ⟨u ++ v, p⟩ = .ok (l, ⟨v, q⟩)

/-- No name and no literal goes on with the text. -/
structure Apart (z : List Char) : Prop where
  word : z.head?.any isWordPart = false
  point : z.head? ≠ some '.'
  quote : z.head? ≠ some '"'

/-- A name, or a literal that has a value. -/
def Lexeme.IsOperand (l : Lexeme) : Prop := l.kind = .identifier ∨ l.literal?.isSome

variable {u v z gap : List Char} {l : Lexeme} {ls : List Lexeme} {limits : Limits}

theorem Lexeme.IsOperand.ne (h : l.IsOperand) :
    l.kind ≠ .endOfInput ∧ l.kind ≠ .newline ∧ ∀ m, l.kind ≠ .mark m := by
  have hne (kind : TokenKind) (hname : kind ≠ .identifier)
      (hvalue : ∀ text, (⟨kind, text⟩ : Lexeme).literal? = none) : l.kind ≠ kind := by
    rintro rfl
    rcases h with h | h
    · exact hname h
    · rw [show l.literal? = none from hvalue l.text] at h
      cases h
  exact ⟨hne _ nofun fun _ => rfl, hne _ nofun fun _ => rfl, fun m => hne _ nofun fun _ => rfl⟩

/-- No lexeme begins with a blank or like a comment. -/
theorem Cut.not_blank (h : Cut v u l) (z : List Char) :
    ∀ d ∈ (u ++ z).head?, isBlank d = false ∧ d ≠ '#' := by
  have hplain {d : Char} (hd : isSeparator d = false) : isBlank d = false ∧ d ≠ '#' := by
    simp_all [isSeparator]
  intro d hd
  rw [List.head?_append_of_ne_nil _ h.ne_nil] at hd
  have hmem : d ∈ u := List.mem_of_mem_head? hd
  cases h with
  | newline | character =>
    obtain rfl := Option.some.inj hd
    decide
  | word hstart hall => exact hplain (isSeparator_of_isWordPart (hall d hmem))
  | number hu =>
    obtain ⟨e, w, rfl⟩ := List.exists_cons_of_ne_nil (List.ne_nil_of_mem hmem)
    obtain rfl := Option.some.inj hd
    exact hplain (isSeparator_of_isDigit (hu.beginsWithDigit []))
  | mark m => exact hplain (m.isSeparator_spelling d hmem)
  | string hu =>
    cases hu with
    | standard | multiLine =>
      obtain rfl := Option.some.inj hd
      decide

theorem Limits.exists_clears (size : Nat) : ∃ limits : Limits, limits.Clears size :=
  ⟨⟨size, size + 1, size, size, size, 0, 0⟩, Nat.le_refl _, Nat.lt_succ_self _, Nat.le_refl _,
    Nat.le_refl _, Nat.le_refl _⟩

/-! ## One lexeme -/

theorem isDigit_of_isWordStart {d : Char} (hd : isWordStart d) : d.isDigit = false := by
  by_contra hdigit
  simp only [Char.isDigit, Bool.not_eq_false, Bool.and_eq_true, decide_eq_true_eq] at hdigit
  have hnine : d.val.toNat ≤ 57 := hdigit.2
  simp only [isWordStart, Bool.or_eq_true, beq_iff_eq] at hd
  rcases hd with (hletter | rfl) | rfl
  · rcases (Bool.or_eq_true _ _).mp hletter with hupper | hlower
    · have hle : 65 ≤ d.val.toNat := (of_decide_eq_true hupper).1
      omega
    · have hle : 97 ≤ d.val.toNat := of_decide_eq_true ((Bool.and_eq_true _ _).mp hlower).1
      omega
  · exact absurd hnine (by decide)
  · exact absurd hdigit.1 (by decide)

/-- What is read as a word is a word again in front of anything else that does not go on with it. -/
theorem scanLexeme_of_word (hstart : u.head?.any isWordStart) (hall : ∀ d ∈ u, isWordPart d)
    (hz : z.head?.any isWordPart = false) (hsize : textSize u ≤ limits.maxIdentifierLength)
    (p : Position) :
    scanLexeme limits ⟨u ++ z, p⟩ = .ok (.ofWord (String.ofList u), ⟨z, p.advance u⟩) := by
  obtain ⟨d, w, rfl⟩ := List.exists_cons_of_ne_nil (l := u) (by rintro rfl; cases hstart)
  have hd : isWordStart d = true := by simpa using hstart
  have hdigit : ¬ d.isDigit := by simp [isDigit_of_isWordStart hd]
  rw [← scanWord_append hall hz hsize p]
  simp only [scanLexeme, List.cons_append, if_neg hdigit, if_pos hd]

namespace ScansAs

/-- A lexeme that is read is written there, and is read in front of all that may follow instead. -/
theorem cut (h : ScansAs u v l) (hl : l.kind ≠ .endOfInput) :
    Cut v u l ∧ ∀ limits : Limits, limits.Admits u l → Takes (scanLexeme limits) u v l := by
  obtain ⟨limits, p, q, h⟩ := h
  rcases cut_of_scanLexeme h with ⟨-, rfl, -⟩ | ⟨u', hpasses, hcut, -, htakes⟩
  · exact absurd rfl hl
  · obtain rfl : u = u' := List.append_cancel_right hpasses.rest
    exact ⟨hcut, htakes⟩

/-- What follows a lexeme may change where it does not matter. -/
theorem of_follows (h : ScansAs u v l) (hl : l.kind ≠ .endOfInput) (hz : Follows v z) :
    ScansAs u z l := by
  obtain ⟨limits, hlimits⟩ := Limits.exists_clears (textSize u)
  exact ⟨limits, .start, _, (h.cut hl).2 limits (hlimits.admits l) z hz _⟩

/-- A name or a literal that is read where nothing else stands is read in front of everything that
does not go on with it. -/
theorem before (h : ScansAs u [] l) (hl : l.IsOperand) (hz : Apart z) : ScansAs u z l := by
  obtain ⟨limits, p, q, hread⟩ := h
  rcases cut_of_scanLexeme hread with ⟨-, rfl, -⟩ | ⟨u', hpasses, hcut, hadmits, -⟩
  · exact absurd rfl hl.ne.1
  obtain rfl : u = u' := List.append_cancel_right hpasses.rest
  refine ⟨limits, p, p.advance u, ?_⟩
  cases hcut with
  | newline => exact absurd rfl hl.ne.2.1
  | mark m => exact absurd rfl (hl.ne.2.2 m)
  | word hstart hall =>
    exact scanLexeme_of_word hstart hall hz.word (Limits.admits_ofWord.mp hadmits) p
  | number hu =>
    obtain ⟨u', hpasses', hnumeral, -⟩ := numeral_of_scanLexeme hread rfl
    obtain rfl : u = u' := List.append_cancel_right (hpasses'.rest)
    rw [scanLexeme_of_digit (hu.beginsWithDigit z)]
    exact scanNumber_of_numeral hnumeral hz.word hz.point p
  | string | character =>
    obtain ⟨u', hpasses', hquotes⟩ := quotes_of_scanLexeme hread rfl
    obtain rfl := List.append_cancel_right (hpasses'.rest)
    exact scanLexeme_of_quotes hquotes hadmits (fun _ => hz.quote) p

/-- Behind blanks the lexeme is cut out, within limits that are large enough. -/
theorem tile (h : ScansAs u v l) (hl : l.kind ≠ .endOfInput) (hgap : ∀ d ∈ gap, isBlank d)
    (hlimits : limits.Clears (textSize (gap ++ u))) : Tile limits gap u v l := by
  obtain ⟨hcut, htakes⟩ := h.cut hl
  rw [textSize_append] at hlimits
  have hcomment : textSize (commentIn gap) ≤ limits.maxCommentLength :=
    Nat.le_trans (textSize_commentIn_le gap) (hlimits.mono (Nat.le_add_right _ _)).commentLength
  exact ⟨.blanks hgap (hcut.not_blank v), hcomment, hcut,
    (hlimits.mono (Nat.le_add_left _ _)).admits l, htakes⟩

end ScansAs

/-! ## Texts put together -/

/-- The text is cut up into the lexemes wherever it stands, within limits that are large enough. -/
def CutsInto (text : List Char) (ls : List Lexeme) : Prop :=
  ∀ limits : Limits, limits.Clears (textSize text) → ∀ p, ∃ placed, Tiles limits p text placed ∧
    placed.map Prod.fst = ls ++ [⟨.endOfInput, none⟩]

namespace CutsInto

theorem nil : CutsInto [] [] := fun _ _ _ =>
  ⟨_, .last (gap_nil_iff.mpr nofun) (Nat.zero_le _), rfl⟩

theorem behind (gap : List Char) (hgap : ∀ d ∈ gap, isBlank d) (h : CutsInto v ls)
    (hu : ScansAs u v l) (hl : l.kind ≠ .endOfInput) : CutsInto (gap ++ u ++ v) (l :: ls) := by
  intro limits hlimits p
  rw [textSize_append] at hlimits
  obtain ⟨placed, htiles, hplaced⟩ :=
    h limits (hlimits.mono (Nat.le_add_left _ _)) (p.advance (gap ++ u))
  have htile : Tile limits gap u v l := hu.tile hl hgap (hlimits.mono (Nat.le_add_right _ _))
  exact ⟨_, .tile htile htiles, congrArg (l :: ·) hplaced⟩

/-- One more lexeme in front. -/
theorem cons (h : CutsInto v ls) (hu : ScansAs u v l) (hl : l.kind ≠ .endOfInput) :
    CutsInto (u ++ v) (l :: ls) :=
  h.behind [] nofun hu hl

/-- One more lexeme in front, behind a blank. -/
theorem cons_blank (h : CutsInto v ls) (hu : ScansAs u v l) (hl : l.kind ≠ .endOfInput) :
    CutsInto (' ' :: (u ++ v)) (l :: ls) :=
  h.behind [' '] (List.forall_mem_singleton.mpr rfl) hu hl

end CutsInto

end GoloSyntax
