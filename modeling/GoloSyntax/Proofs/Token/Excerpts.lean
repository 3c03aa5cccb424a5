import GoloSyntax.Proofs.Token.Tiling

/-! # Excerpts of sources

Some tokens of a source in a row stand for an excerpt of it, and this excerpt is cut up into the
same tokens when it stands elsewhere (`Tiles.excerpt`): the tokens in front of it do not matter,
and its last token may be followed by the end of the text.
-/
namespace GoloSyntax

/-- No limit of the lexer is in the way of a text of so many bytes. -/
structure Limits.Clears (limits : Limits) (size : Nat) : Prop where
  inputSize : size ≤ limits.maxInputSize
  /-- There may be a token for every byte, and there is the end of input. -/
  tokenCount : size < limits.maxTokenCount
  identifierLength : size ≤ limits.maxIdentifierLength
  stringLength : size ≤ limits.maxStringLength
  commentLength : size ≤ limits.maxCommentLength

theorem Limits.Clears.mono {limits : Limits} {size size' : Nat} (h : limits.Clears size)
    (hsize : size' ≤ size) : limits.Clears size' :=
  ⟨Nat.le_trans hsize h.inputSize, Nat.lt_of_le_of_lt hsize h.tokenCount,
    Nat.le_trans hsize h.identifierLength, Nat.le_trans hsize h.stringLength,
    Nat.le_trans hsize h.commentLength⟩

theorem textSize_commentIn_le (gap : List Char) : textSize (commentIn gap) ≤ textSize gap := by
  obtain ⟨front, hfront⟩ := List.dropWhile_suffix (l := gap) isBlank
  have h := congrArg textSize hfront
  rw [textSize_append] at h
  exact Nat.le.intro ((Nat.add_comm _ _).trans h)

theorem Limits.Clears.admits {limits : Limits} {u : List Char} (h : limits.Clears (textSize u))
    (l : Lexeme) : limits.Admits u l := by
  unfold Admits
  split
  · exact h.identifierLength
  · exact h.identifierLength
  · exact h.stringLength
  · trivial

/-- Other blanks may stand in front of a token. -/
theorem Gap.of_blanks {gap bs v : List Char} (h : Gap gap v) (hbs : ∀ d ∈ bs, isBlank d) :
    Gap bs v := by
  cases h with
  | blanks _ hv => exact .blanks hbs hv
  | comment _ _ hv =>
    refine .blanks hbs fun d hd => ?_
    obtain rfl := hv d hd
    decide

namespace Tiles

variable {limits limits' : Limits} {p : Position} {text : List Char}
  {front mid rest placed : List (Lexeme × Span)}

theorem length_le (h : Tiles limits p text placed) : placed.length ≤ textSize text + 1 := by
  induction h with
  | last => simp
  | @tile p gap u v l placed htile _ ih =>
    obtain ⟨d, w, rfl⟩ := List.exists_cons_of_ne_nil htile.cut.ne_nil
    have := d.utf8Size_pos
    simp only [List.length_cons, textSize_append, textSize_cons] at ih ⊢
    omega

/-- A text is cut up the same way under all limits that are large enough. -/
theorem of_clears (h : Tiles limits p text placed) (hlimits : limits'.Clears (textSize text)) :
    Tiles limits' p text placed := by
  induction h with
  | last hgap =>
    exact .last hgap (Nat.le_trans (textSize_commentIn_le _) hlimits.commentLength)
  | @tile p gap u v l placed htile _ ih =>
    simp only [textSize_append] at hlimits
    have hgap : textSize gap ≤ limits'.maxCommentLength :=
      (hlimits.mono (by omega)).commentLength
    have hu : limits'.Clears (textSize u) := hlimits.mono (by omega)
    exact .tile ⟨htile.between, Nat.le_trans (textSize_commentIn_le gap) hgap, htile.cut,
      hu.admits l, htile.takes⟩ (ih (hlimits.mono (by omega)))

/-- Behind some tokens may stand something else, if it begins like what stands there. -/
theorem graft (h : Tiles limits p text (mid ++ rest)) (hrest : rest ≠ []) : ∃ text₁ text₂,
    text = text₁ ++ text₂ ∧ (mid.getLast?.map (·.2.stop)).getD p = p.advance text₁ ∧
      Tiles limits (p.advance text₁) text₂ rest ∧ ∀ {z placed}, Follows text₂ z →
        Tiles limits (p.advance text₁) z placed → Tiles limits p (text₁ ++ z) (mid ++ placed) := by
  induction mid generalizing p text with
  | nil => exact ⟨[], text, rfl, rfl, h, fun _ hz => hz⟩
  | cons x mid ih =>
    generalize hplaced : x :: mid ++ rest = placed at h
    cases h with
    | last =>
      obtain ⟨-, hnil⟩ := List.cons.inj hplaced
      exact absurd (List.append_eq_nil_iff.mp hnil).2 hrest
    | @tile _ gap u v l _ htile h =>
      obtain ⟨rfl, rfl⟩ := List.cons.inj hplaced
      obtain ⟨text₁, text₂, rfl, hstop, htiles, hgraft⟩ := ih h
      refine ⟨gap ++ u ++ text₁, text₂, by simp, ?_, ?_, fun {z placed} hz hplaced => ?_⟩
      · rw [List.getLast?_cons, Position.advance_append p (gap ++ u), ← hstop]
        cases mid.getLast? <;> rfl
      · rwa [Position.advance_append p (gap ++ u)]
      · rw [Position.advance_append p (gap ++ u)] at hplaced
        rw [List.append_assoc]
        exact .tile (htile.of_follows (hz.append text₁)) (hgraft hz hplaced)

/-- Some tokens in a row stand for an excerpt of the text, which is cut up into the same tokens
behind a blank. -/
theorem excerpt {x : Lexeme × Span} (h : Tiles limits p text (front ++ (x :: mid ++ rest)))
    (hx : x.1.kind ≠ .endOfInput) (hrest : rest ≠ []) : ∃ before u after,
      text = before ++ u ++ after ∧ u ≠ [] ∧ x.2.start = p.advance before ∧
      (mid.getLast?.map (·.2.stop)).getD x.2.stop = p.advance (before ++ u) ∧
      ∀ q, ∃ placed, Tiles limits q (' ' :: u) placed ∧
        placed.map Prod.fst = (x :: mid).map Prod.fst ++ [⟨.endOfInput, none⟩] := by
  obtain ⟨text₁, text₂, rfl, -, htiles, -⟩ := h.graft (by simp)
  generalize hplaced : x :: mid ++ rest = placed at htiles
  cases htiles with
  | last =>
    obtain ⟨rfl, -⟩ := List.cons.inj hplaced
    exact absurd rfl hx
  | @tile _ gap u v l _ htile htiles =>
    obtain ⟨rfl, rfl⟩ := List.cons.inj hplaced
    obtain ⟨v₁, v₂, rfl, hstop, -, hgraft⟩ := htiles.graft hrest
    have hend := hgraft (.nil v₂) (.last (gap_nil_iff.mpr nofun) (Nat.zero_le _))
    rw [List.append_nil] at hend
    refine ⟨text₁ ++ gap, u ++ v₁, v₂, by simp, by simp [htile.cut.ne_nil], ?_, ?_, fun q => ?_⟩
    · exact (Position.advance_append _ _ _).symm
    · rw [hstop, ← Position.advance_append, ← Position.advance_append]
      simp
    · have hopen := htile.of_follows (.of_leading (List.prefix_append v₁ v₂))
      have hblank : Tile limits [' '] u v₁ l :=
        ⟨hopen.between.of_blanks (by simp [isBlank]), Nat.zero_le _, hopen.cut, hopen.admits,
          hopen.takes⟩
      obtain ⟨placed, hmoved, hsame⟩ := hend.move (q.advance ([' '] ++ u))
      refine ⟨_, .tile hblank hmoved, ?_⟩
      rw [List.map_cons, hsame]
      simp

end Tiles

end GoloSyntax
