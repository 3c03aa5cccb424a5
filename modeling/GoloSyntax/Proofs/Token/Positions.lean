import GoloSyntax.Proofs.Token.Munch

/-! # Positions count what stands in front of them

A position that marks a place of a source has its offset, its line and its column from the
characters in front of that place (`Position.Marks`).  Scanners only go forward, by whole
characters, also where they refuse (`Onward`), so every position that cutting a source up
answers, in tokens or in an error, marks a place of it (`marks_of_lex`).
-/
namespace GoloSyntax

namespace Position

/-- The position stands between two characters of a source and counts what is in front of
it: bytes, line feeds, and the characters behind the last line feed. -/
def Marks (source : String) (p : Position) : Prop :=
  ∃ before after, source.toList = before ++ after ∧
    p.offset = (String.ofList before).utf8ByteSize ∧
    p.line = 1 + before.count '\n' ∧
    p.column = 1 + (before.reverse.takeWhile (· != '\n')).length

theorem line_advance (cs : List Char) : (start.advance cs).line = 1 + cs.count '\n' := by
  induction cs using List.reverseRecOn with
  | nil => rfl
  | append_singleton cs c ih =>
    rw [advance_append, advance_cons, advance_nil, List.count_append, List.count_singleton, after]
    split
    · next hc => simp [hc, ih, Nat.add_assoc]
    · next hc => simp [hc, ih]

theorem column_advance (cs : List Char) :
    (start.advance cs).column = 1 + (cs.reverse.takeWhile (· != '\n')).length := by
  induction cs using List.reverseRecOn with
  | nil => rfl
  | append_singleton cs c ih =>
    rw [advance_append, advance_cons, advance_nil, List.reverse_concat, after]
    split
    · next hc => simp [hc]
    · next hc => simp [hc, ih, Nat.add_assoc]

/-- What is reached from the start of a source marks a place of it. -/
theorem marks_advance {source : String} (before after : List Char)
    (h : source.toList = before ++ after) : Marks source (start.advance before) := by
  refine ⟨before, after, h, ?_, line_advance before, column_advance before⟩
  rw [offset_advance, utf8ByteSize_ofList]
  exact Nat.zero_add _

theorem marks_start (source : String) : Marks source start :=
  marks_advance [] _ rfl

end Position

/-- Both ends of a span mark places of a source. -/
def Span.Marks (source : String) (s : Span) : Prop :=
  s.start.Marks source ∧ s.stop.Marks source

/-! ## Scanners go forward -/

namespace Cursor

/-- Reading on from `c` leads to `c'`. -/
def Reaches (c c' : Cursor) : Prop := ∃ u, c.Passes u c'

variable {c c' c'' : Cursor}

theorem Reaches.refl (c : Cursor) : c.Reaches c := ⟨[], .refl c⟩

theorem Reaches.trans (h : c.Reaches c') (h' : c'.Reaches c'') : c.Reaches c'' := by
  obtain ⟨u, hu⟩ := h
  obtain ⟨v, hv⟩ := h'
  exact ⟨u ++ v, hu.trans hv⟩

theorem reaches_drop (c : Cursor) (n : Nat) : c.Reaches (c.drop n) := ⟨_, c.passes_drop n⟩

theorem reaches_cons (d : Char) (cs : List Char) (p : Position) :
    Reaches ⟨d :: cs, p⟩ ⟨cs, p.after d⟩ := ⟨[d], rfl, rfl⟩

theorem reaches_digits (c : Cursor) : c.Reaches c.digits.2 :=
  ⟨_, (takes_digits (u := c.digits.1) rfl).1⟩

theorem reaches_fraction (c : Cursor) : c.Reaches c.fraction.2 :=
  ⟨_, (takes_fraction (u := c.fraction.1) rfl).1⟩

theorem reaches_sign (c : Cursor) : c.Reaches c.sign.2 :=
  ⟨_, (takes_sign (u := c.sign.1) rfl).1⟩

theorem reaches_takeWhile (c : Cursor) (q : Char → Bool) : c.Reaches (c.takeWhile q).2 :=
  ⟨_, (List.takeWhile_append_dropWhile).symm, rfl⟩

theorem reaches_takeWhileTail (c : Cursor) (q : List Char → Bool) :
    c.Reaches (c.takeWhileTail q).2 :=
  ⟨_, (splits_of_takeWhileTail (u := (c.takeWhileTail q).1) rfl).1⟩

/-- Reading from `c` ends further on, with an answer or without. -/
inductive Onward {α : Type} (c : Cursor) : Scan α → Prop where
  | ok {a : α} {c' : Cursor} (h : c.Reaches c') : Onward c (.ok (a, c'))
  | error {r : Refusal} (h : c.Reaches r.cursor) : Onward c (.error r)

variable {α β : Type}

theorem Onward.of_reaches {x : Scan α} (h : c.Reaches c') (hx : c'.Onward x) : c.Onward x := by
  cases hx with
  | ok hc => exact .ok (h.trans hc)
  | error hr => exact .error (h.trans hr)

theorem Onward.bind {x : Except Refusal (α × Cursor)} {f : α × Cursor → Except Refusal (β × Cursor)}
    (hx : c.Onward x) (hf : ∀ a (c' : Cursor), c'.Onward (f (a, c'))) :
    c.Onward (Except.bind x f) := by
  cases hx with
  | ok hc => exact .of_reaches hc (hf _ _)
  | error hr => exact .error hr

theorem onward_exponent (c : Cursor) : c.Onward c.exponent := by
  unfold exponent
  split
  · next e cs hcs =>
    split
    · have hsign := (c.reaches_drop 1).trans (c.drop 1).reaches_sign
      dsimp only
      split
      · exact .error hsign
      · exact .ok (hsign.trans (reaches_digits _))
    · exact .ok (.refl c)
  · exact .ok (.refl c)

theorem onward_numberSuffix (fractional : Bool) (c : Cursor) :
    c.Onward (c.numberSuffix fractional) := by
  unfold numberSuffix
  dsimp only
  split
  · split
    · exact .error (.refl c)
    · exact .ok (c.reaches_drop 2)
  · split
    · exact .ok (c.reaches_drop 2)
    · exact .error (.refl c)
  · exact .ok (.refl c)

end Cursor

open Cursor

theorem onward_scanNumber (c : Cursor) : c.Onward (scanNumber c) := by
  refine .of_reaches (c.reaches_digits.trans (reaches_fraction _)) ?_
  refine (onward_exponent _).bind fun exponent c₃ => (onward_numberSuffix _ _).bind fun kind c₄ => ?_
  dsimp only
  split
  · exact .error (.refl _)
  · exact .ok (.refl _)

theorem onward_scanWord (max : Nat) (c : Cursor) : c.Onward (scanWord max c) := by
  have h := c.reaches_takeWhile isWordPart
  simp only [scanWord]
  split
  · exact .error h
  · exact .ok h

theorem onward_scanMark (c : Cursor) : c.Onward (scanMark c) := by
  unfold scanMark
  split
  · exact .ok (.refl c)
  · split
    · exact .ok (c.reaches_drop 1)
    · split
      · exact .ok (c.reaches_drop _)
      · split <;> exact .error (c.reaches_drop 1)

theorem onward_scanStandardFrom (content cs : List Char) (p : Position) :
    Cursor.Onward ⟨cs, p⟩ (scanStandardFrom content p cs) := by
  fun_induction scanStandardFrom content p cs with
  | case1 => exact .error (.refl _)
  | case2 => exact .error (reaches_cons _ _ _)
  | case3 _ _ _ _ _ _ _ ih => exact .of_reaches ((reaches_cons _ _ _).trans (reaches_cons _ _ _)) ih
  | case4 => exact .error ((reaches_cons _ _ _).trans (reaches_cons _ _ _))
  | case5 => exact .error (.refl _)
  | case6 => exact .ok (reaches_cons _ _ _)
  | case7 _ _ _ _ _ _ _ _ ih => exact .of_reaches (reaches_cons _ _ _) ih

theorem onward_scanMultiLine (c : Cursor) : c.Onward (scanMultiLine c) := by
  have h := c.reaches_takeWhileTail fun cs => !tripleQuote.isPrefixOf cs
  simp only [scanMultiLine]
  split
  · exact .error h
  · exact .ok (h.trans (reaches_drop _ 3))

theorem onward_stringLexeme (max : Nat) (kind : StringKind) (start : Cursor)
    (content : List Char) (c : Cursor) : c.Onward (stringLexeme max kind start content c) := by
  simp only [stringLexeme]
  split
  · exact .error (.refl c)
  · exact .ok (.refl c)

theorem onward_scanString (max : Nat) (c : Cursor) : c.Onward (scanString max c) := by
  unfold scanString
  split
  · exact .of_reaches (c.reaches_drop 3)
      ((onward_scanMultiLine _).bind fun content c' => onward_stringLexeme ..)
  · exact .of_reaches (c.reaches_drop 1)
      ((onward_scanStandardFrom ..).bind fun content c' => onward_stringLexeme ..)

theorem onward_scanCharacterValue (c : Cursor) : c.Onward (scanCharacterValue c) := by
  unfold scanCharacterValue
  split
  · exact .error (.refl c)
  · exact .error (c.reaches_drop 1)
  · split
    · exact .ok (c.reaches_drop 2)
    · exact .error (c.reaches_drop 2)
  · split
    · exact .error (.refl c)
    · split
      · exact .error (.refl c)
      · exact .ok (c.reaches_drop 1)

theorem onward_scanCharacter (c : Cursor) : c.Onward (scanCharacter c) := by
  refine .of_reaches (c.reaches_drop 1) ((onward_scanCharacterValue _).bind fun value c' => ?_)
  dsimp only
  split
  · exact .ok (c'.reaches_drop 1)
  · exact .error (.refl c')

theorem onward_scanLexeme (limits : Limits) (c : Cursor) : c.Onward (scanLexeme limits c) := by
  unfold scanLexeme
  split
  · exact .ok (.refl c)
  · split
    · exact onward_scanNumber c
    · split
      · exact onward_scanWord _ c
      · split
        · exact onward_scanString _ c
        · split
          · exact onward_scanCharacter c
          · exact onward_scanMark c

theorem reaches_of_checkComment {max start : Nat} {c : Cursor} {r : Refusal}
    (h : checkComment max start c = .error r) : r.cursor = c := by
  simp only [checkComment] at h
  split at h
  · cases h
    rfl
  · cases h

/-- A comment that is too long is refused behind it. -/
theorem reaches_of_skipTriviaFrom {max : Nat} {comment : Option Nat} {p : Position}
    {cs : List Char} {r : Refusal} (h : skipTriviaFrom max comment p cs = .error r) :
    Cursor.Reaches ⟨cs, p⟩ r.cursor := by
  induction cs generalizing comment p with
  | nil =>
    cases comment with
    | none => cases h
    | some start => exact reaches_of_checkComment h ▸ .refl _
  | cons c cs ih =>
    cases comment with
    | none =>
      simp only [skipTriviaFrom] at h
      split at h
      · exact (reaches_cons c cs p).trans (ih h)
      · split at h
        · exact (reaches_cons c cs p).trans (ih h)
        · cases h
    | some start =>
      simp only [skipTriviaFrom] at h
      split at h
      · exact reaches_of_checkComment h ▸ .refl _
      · exact (reaches_cons c cs p).trans (ih h)

theorem onward_scan (limits : Limits) (c : Cursor) : c.Onward (scan limits c) := by
  unfold scan
  cases hs : skipTrivia limits.maxCommentLength c with
  | error r => exact .error (reaches_of_skipTriviaFrom hs)
  | ok start =>
    obtain ⟨gap, hgap, -⟩ := skipTrivia_ok_iff.mp hs
    exact .of_reaches ⟨gap, hgap⟩ ((onward_scanLexeme limits start).bind fun l c' => .ok (.refl c'))

/-! ## Whole sources -/

/-- A cursor in a source marks a place of it. -/
theorem marks_of_reaches {source : String} {c : Cursor} (h : Reaches (.ofSource source) c) :
    c.position.Marks source := by
  obtain ⟨u, hu⟩ := h
  rw [hu.position]
  exact Position.marks_advance _ _ hu.rest

/-- Every call leads onward. -/
theorem Lexer.reaches_next (l : Lexer) : l.cursor.Reaches l.next.2.cursor := by
  obtain ⟨limits, c, count, symbols⟩ := l
  have honward := onward_scan limits c
  simp only [next]
  split
  · exact .refl c
  · revert honward
    rcases scan limits c with r | ⟨⟨q, l⟩, c'⟩
    · rintro (_ | ⟨hr⟩)
      exact hr
    · rintro (⟨hc'⟩ | _)
      exact hc'

/-- The lexer stands where the error is that it has answered. -/
theorem Lexer.position_of_next_error {l : Lexer} {e : LexicalError} (h : l.next.1 = .error e) :
    e.position = l.next.2.cursor.position := by
  obtain ⟨limits, c, count, symbols⟩ := l
  simp only [next] at h ⊢
  split at h
  · obtain rfl := Except.error.inj h
    rw [if_pos ‹_›]
  · next hcount =>
    rw [if_neg hcount]
    revert h
    rcases scan limits c with r | ⟨⟨q, l⟩, c'⟩
    · rintro h
      obtain rfl := Except.error.inj h
      rfl
    · exact fun h => by cases h

/-- Where tokens are no longer given out is a place of the source. -/
theorem Lexer.marks_of_collect {source : String} {n : Nat} {l : Lexer} {acc : Array Token}
    {e : LexicalError} (hl : Reaches (.ofSource source) l.cursor)
    (h : l.collect n acc = .error e) : e.position.Marks source := by
  obtain ⟨l', hl', he⟩ := exists_next_of_collect_error
    (P := fun l => Reaches (.ofSource source) l.cursor) (fun l hl => hl.trans l.reaches_next) hl h
  rw [position_of_next_error he]
  exact marks_of_reaches (hl'.trans l'.reaches_next)

theorem marks_of_lex_error {source : String} {limits : Limits} {e : LexicalError}
    (h : lex source limits = .error e) : e.position.Marks source := by
  simp only [lex, Lexer.ofSource] at h
  split at h
  · obtain rfl := Except.error.inj h
    exact Position.marks_start source
  · exact Lexer.marks_of_collect (.refl _) h

theorem Stands.marks {source : String} {span : Span} {before u after : List Char}
    (h : Stands source.toList span before u after) : span.Marks source := by
  refine ⟨h.start ▸ Position.marks_advance before (u ++ after) ?_,
    h.stop ▸ Position.marks_advance (before ++ u) after h.text⟩
  rw [h.text, List.append_assoc]

theorem marks_of_lex {source : String} {limits : Limits} {stream : TokenStream}
    (h : lex source limits = .ok stream) : ∀ token ∈ stream.tokens, token.span.Marks source := by
  intro token htoken
  obtain ⟨htiles, -⟩ := tiles_of_lex h
  have hmem : token.placed stream.symbols ∈ stream.placed :=
    List.mem_map_of_mem (Array.mem_toList_iff.mpr htoken)
  by_cases hkind : token.kind = .endOfInput
  · obtain ⟨front, hplaced, hfront⟩ := htiles.last_eq
    rw [hplaced, List.mem_append, List.mem_singleton] at hmem
    rcases hmem with hmem | hmem
    · exact absurd hkind (hfront _ hmem)
    · have hspan : token.span = .empty (Position.start.advance source.toList) :=
        congrArg Prod.snd hmem
      have hend := Position.marks_advance _ _ (List.append_nil source.toList).symm
      rw [hspan]
      exact ⟨hend, hend⟩
  · obtain ⟨before, u, after, hstands, -⟩ :=
      htiles.slices [] rfl rfl (seam_nil _) _ hmem hkind
    exact hstands.marks

end GoloSyntax
