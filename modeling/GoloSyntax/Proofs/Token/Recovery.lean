import GoloSyntax.Proofs.Token.Positions

/-! # Going on after an error

A lexer may be asked for more after it has answered an error or the end of input, and an error
leaves it wherever the fault was noticed: behind an opening quotation mark, in front of a suffix,
at the end of a comment.  What it relies on is therefore re-established by every call, however the
call ends: the cursor stands at a place of the source and has the rest of it in front
(`Cursor.IsIn`).  A call that is not refused because of the number of tokens reads at least one
character, or answers the end of input (`Lexer.next_cases`), and so the calls up to the first
end of input are no more than one for each byte of the source and one for its end
(`survives_of_ofSource`).
-/
namespace GoloSyntax

/-! ## Scanners read something -/

namespace Cursor

variable {c c' c'' : Cursor} {α : Type}

/-- Reading on from `c`, and reading something, leads to `c'`. -/
def Advances (c c' : Cursor) : Prop := ∃ u ≠ [], c.Passes u c'

theorem Advances.of_reaches (h : c.Reaches c') (h' : c'.Advances c'') : c.Advances c'' := by
  obtain ⟨u, hu⟩ := h
  obtain ⟨v, hv, hpasses⟩ := h'
  exact ⟨u ++ v, List.append_ne_nil_of_right_ne_nil u hv, hu.trans hpasses⟩

theorem Advances.trans_reaches (h : c.Advances c') (h' : c'.Reaches c'') : c.Advances c'' := by
  obtain ⟨u, hne, hu⟩ := h
  obtain ⟨v, hv⟩ := h'
  exact ⟨u ++ v, List.append_ne_nil_of_left_ne_nil hne v, hu.trans hv⟩

/-- Reading ends further on, by at least one character. -/
theorem Advances.offset_lt (h : c.Advances c') : c.position.offset < c'.position.offset := by
  obtain ⟨u, hne, hu⟩ := h
  obtain ⟨d, w, rfl⟩ := List.exists_cons_of_ne_nil hne
  have hpos := d.utf8Size_pos
  rw [hu.position, Position.offset_advance, textSize_cons]
  omega

theorem Reaches.offset_le (h : c.Reaches c') : c.position.offset ≤ c'.position.offset := by
  obtain ⟨u, hu⟩ := h
  rw [hu.position, Position.offset_advance]
  omega

theorem advances_cons (d : Char) (cs : List Char) (p : Position) :
    Advances ⟨d :: cs, p⟩ ⟨cs, p.after d⟩ := ⟨[d], by simp, rfl, rfl⟩

theorem advances_drop {d : Char} {cs : List Char} (h : c.rest = d :: cs) (n : Nat) :
    c.Advances (c.drop (n + 1)) :=
  ⟨_, by simp [h], c.passes_drop (n + 1)⟩

/-- A run that begins with a character that belongs to it is not empty. -/
theorem advances_takeWhile {q : Char → Bool} {d : Char} {cs : List Char} (h : c.rest = d :: cs)
    (hd : q d) : c.Advances (c.takeWhile q).2 :=
  ⟨c.rest.takeWhile q, by simp [h, hd],
    (List.takeWhile_append_dropWhile).symm, rfl⟩

theorem advances_digits (h : beginsWithDigit c.rest) : c.Advances c.digits.2 := by
  obtain ⟨hpasses, -, -, hnil⟩ := takes_digits (u := c.digits.1) (c := c) rfl
  exact ⟨_, fun hempty => hnil hempty h, hpasses⟩

/-- An error behind something that was read is noticed further on. -/
theorem Onward.advances {x : Scan α} {r : Refusal} (hx : c'.Onward x) (h : c.Advances c')
    (hr : x = .error r) : c.Advances r.cursor := by
  cases hx with
  | ok => cases hr
  | error hreaches =>
    obtain rfl := Except.error.inj hr
    exact h.trans_reaches hreaches

end Cursor

open Cursor

theorem advances_of_scanNumber {c : Cursor} {r : Refusal} (hc : beginsWithDigit c.rest)
    (h : scanNumber c = .error r) : c.Advances r.cursor := by
  -- The digits in front have been read before anything can be refused.
  have honward : c.digits.2.Onward (scanNumber c) := by
    refine .of_reaches (reaches_fraction _) ?_
    refine (onward_exponent _).bind fun exponent c₃ =>
      (onward_numberSuffix _ _).bind fun kind c₄ => ?_
    dsimp only
    split
    · exact .error (.refl _)
    · exact .ok (.refl _)
  exact honward.advances (advances_digits hc) h

theorem advances_of_scanWord {max : Nat} {c : Cursor} {r : Refusal} {d : Char} {cs : List Char}
    (hc : c.rest = d :: cs) (hd : isWordStart d) (h : scanWord max c = .error r) :
    c.Advances r.cursor := by
  simp only [scanWord] at h
  split at h
  · obtain rfl := Except.error.inj h
    exact advances_takeWhile hc (isWordPart_of_isWordStart hd)
  · cases h

theorem advances_of_scanString {max : Nat} {c : Cursor} {r : Refusal} {d : Char} {cs : List Char}
    (hc : c.rest = d :: cs) (h : scanString max c = .error r) : c.Advances r.cursor := by
  unfold scanString at h
  split at h
  · exact ((onward_scanMultiLine _).bind fun content c' => onward_stringLexeme ..).advances
      (advances_drop hc 2) h
  · exact ((onward_scanStandardFrom ..).bind fun content c' => onward_stringLexeme ..).advances
      (advances_drop hc 0) h

theorem advances_of_scanCharacter {c : Cursor} {r : Refusal} {d : Char} {cs : List Char}
    (hc : c.rest = d :: cs) (h : scanCharacter c = .error r) : c.Advances r.cursor := by
  refine ((onward_scanCharacterValue _).bind fun value c' => ?_).advances (advances_drop hc 0) h
  dsimp only
  split
  · exact .ok (c'.reaches_drop 1)
  · exact .error (.refl c')

theorem advances_of_scanMark {c : Cursor} {r : Refusal} (h : scanMark c = .error r) :
    c.Advances r.cursor := by
  unfold scanMark at h
  split at h
  · cases h
  · next d cs hc =>
    split at h
    · cases h
    · split at h
      · cases h
      · split at h
        all_goals
          obtain rfl := Except.error.inj h
          exact advances_drop hc 0

/-- A lexeme is refused behind at least one of its characters. -/
theorem advances_of_scanLexeme {limits : Limits} {c : Cursor} {r : Refusal}
    (h : scanLexeme limits c = .error r) : c.Advances r.cursor := by
  unfold scanLexeme at h
  split at h
  · cases h
  · next d cs hc =>
    split at h
    · next hdigit => exact advances_of_scanNumber (by rw [hc]; exact hdigit) h
    · split at h
      · next hword => exact advances_of_scanWord hc hword h
      · split at h
        · exact advances_of_scanString hc h
        · split at h
          · exact advances_of_scanCharacter hc h
          · exact advances_of_scanMark h

/-- A comment is refused behind at least its first character. -/
theorem advances_of_skipTriviaFrom {max : Nat} {p : Position} {cs : List Char} {r : Refusal}
    (h : skipTriviaFrom max none p cs = .error r) : Cursor.Advances ⟨cs, p⟩ r.cursor := by
  induction cs generalizing p with
  | nil => cases h
  | cons d cs ih =>
    simp only [skipTriviaFrom] at h
    split at h
    · exact .of_reaches (reaches_cons d cs p) (ih h)
    · split at h
      · exact (advances_cons d cs p).trans_reaches (reaches_of_skipTriviaFrom h)
      · cases h

theorem advances_of_scan {limits : Limits} {c : Cursor} {r : Refusal}
    (h : scan limits c = .error r) : c.Advances r.cursor := by
  cases hs : skipTrivia limits.maxCommentLength c with
  | error r' =>
    obtain rfl : r' = r := by simpa [scan, hs, bind, Except.bind] using h
    exact advances_of_skipTriviaFrom hs
  | ok start =>
    obtain ⟨gap, hgap, -⟩ := skipTrivia_ok_iff.mp hs
    cases hl : scanLexeme limits start with
    | error r' =>
      obtain rfl : r' = r := by simpa [scan, hs, hl, bind, Except.bind] using h
      exact .of_reaches ⟨gap, hgap⟩ (advances_of_scanLexeme hl)
    | ok answer => simp [scan, hs, hl, bind, Except.bind] at h

/-! ## One call -/

/-- The cursor stands between two characters of a source: its position counts what is in front of
it, bytes, line feeds, and characters behind the last line feed, and what it has left is all that
comes behind. -/
def Cursor.IsIn (c : Cursor) (source : String) : Prop :=
  ∃ before, source.toList = before ++ c.rest ∧
    c.position.offset = (String.ofList before).utf8ByteSize ∧
    c.position.line = 1 + before.count '\n' ∧
    c.position.column = 1 + (before.reverse.takeWhile (· != '\n')).length

theorem Cursor.isIn_of_reaches {source : String} {c : Cursor} (h : Reaches (.ofSource source) c) :
    c.IsIn source := by
  obtain ⟨u, hu⟩ := h
  have hposition : c.position = Position.start.advance u := hu.position
  refine ⟨u, hu.rest, ?_, ?_, ?_⟩
  · rw [hposition, Position.offset_advance, utf8ByteSize_ofList]
    exact Nat.zero_add _
  · rw [hposition, Position.line_advance]
  · rw [hposition, Position.column_advance]

/-- No cursor in a source stands behind its end. -/
theorem Cursor.IsIn.offset_le {source : String} {c : Cursor} (h : c.IsIn source) :
    c.position.offset ≤ source.utf8ByteSize := by
  obtain ⟨before, hrest, hoffset, -⟩ := h
  rw [hoffset, utf8ByteSize_ofList, ← textSize_toList source, hrest, textSize_append]
  omega

namespace Lexer

/-- The call is refused because so many tokens have been given out. -/
def Refuses (l : Lexer) : Prop := l.limits.maxTokenCount ≤ l.count

instance (l : Lexer) : Decidable l.Refuses := inferInstanceAs (Decidable (_ ≤ _))

variable {l : Lexer} {source : String}

theorem next_of_refuses (h : l.Refuses) :
    l.next = (.error ⟨.tooManyTokens l.count l.limits.maxTokenCount, l.cursor.position⟩, l) := by
  obtain ⟨limits, cursor, count, symbols⟩ := l
  have hcount : count ≥ limits.maxTokenCount := h
  rw [next, if_pos hcount]

/-- What a call does that is not refused: it answers an error somewhere further on; or the end of
input where the source ends; or a token, behind what has been read already, by reading it. -/
theorem next_cases (h : ¬ l.Refuses) :
    (∃ e, l.next.1 = .error e ∧ l.next.2.count = l.count ∧ l.cursor.Advances l.next.2.cursor) ∨
    (∃ t, l.next.1 = .ok t ∧ l.cursor.position.offset ≤ t.span.start.offset ∧
      t.span.stop = l.next.2.cursor.position ∧ l.next.2.count = l.count + 1 ∧
      (t.kind = .endOfInput ∧ l.next.2.cursor.rest = [] ∧ l.cursor.Reaches l.next.2.cursor ∨
        t.kind ≠ .endOfInput ∧ l.cursor.Advances l.next.2.cursor)) := by
  obtain ⟨limits, ⟨text, p⟩, count, symbols⟩ := l
  have hcount : count < limits.maxTokenCount := Nat.lt_of_not_le h
  cases hs : scan limits ⟨text, p⟩ with
  | error r =>
    rw [next, if_neg (Nat.not_le.mpr hcount), hs]
    exact .inl ⟨_, rfl, rfl, advances_of_scan hs⟩
  | ok answer =>
    obtain ⟨⟨q, x⟩, c'⟩ := answer
    rw [next_of_scan hcount hs]
    rcases tile_of_scan hs with ⟨gap, hgap, -, -, rfl, rfl, rfl⟩ | ⟨gap, u, hpasses, rfl, htile⟩
    · exact .inr ⟨_, rfl, by simp, rfl, rfl, .inl ⟨rfl, rfl, gap, by simpa using hgap, rfl⟩⟩
    · refine .inr ⟨_, rfl, by simp, rfl, rfl, .inr ?_⟩
      exact ⟨htile.cut.kind_ne_endOfInput, gap ++ u,
        List.append_ne_nil_of_right_ne_nil gap htile.cut.ne_nil, hpasses⟩

/-! ## Any number of calls -/

/-- The lexer after so many calls. -/
def after (l : Lexer) : Nat → Lexer
  | 0 => l
  | n + 1 => (l.after n).next.2

/-- What is answered to the call that comes behind so many others. -/
def answer (l : Lexer) (n : Nat) : Except LexicalError Token := (l.after n).next.1

/-- How many of so many calls are not refused. -/
def attempts (l : Lexer) (n : Nat) : Nat :=
  (List.range n).countP fun m => !decide (l.after m).Refuses

/-- The call that comes behind `n` others, however they ended. -/
structure Survives (l : Lexer) (source : String) (n : Nat) : Prop where
  /-- The lexer stands at a place of the source and goes on from there. -/
  place : (l.after n).cursor.IsIn source
  offset_le : (l.after n).cursor.position.offset ≤ source.utf8ByteSize
  /-- It never goes back. -/
  forward : (l.after n).cursor.position.offset ≤ (l.after (n + 1)).cursor.position.offset
  /-- Unless the call is refused something is read, or the end of input is answered where the
  source ends. -/
  progress : ¬ (l.after n).Refuses →
    (l.after n).cursor.position.offset < (l.after (n + 1)).cursor.position.offset ∨
      ∃ t, l.answer n = .ok t ∧ t.kind = .endOfInput ∧
        (l.after (n + 1)).cursor.position.offset = source.utf8ByteSize
  /-- The tokens of two calls do not overlap. -/
  apart : ∀ m < n, ∀ t t', l.answer m = .ok t → l.answer n = .ok t' → t.span.precedes t'.span
  /-- An error counts for no token. -/
  failed : ∀ e, l.answer n = .error e → (l.after (n + 1)).count = (l.after n).count
  /-- A refused call answers so and changes nothing at all. -/
  refused : (l.after n).Refuses → l.after (n + 1) = l.after n ∧
    l.answer n = .error ⟨.tooManyTokens (l.after n).count (l.after n).limits.maxTokenCount,
      (l.after n).cursor.position⟩
  /-- As long as the end of input has not been answered, there were no more calls than bytes,
  this one apart. -/
  bound : (∀ m < n, ∀ t, l.answer m = .ok t → t.kind ≠ .endOfInput) →
    l.attempts (n + 1) ≤ source.utf8ByteSize + 1

theorem reaches_after (l : Lexer) (m d : Nat) :
    (l.after m).cursor.Reaches (l.after (m + d)).cursor := by
  induction d with
  | zero => exact .refl _
  | succ d ih => exact ih.trans (reaches_next _)

theorem attempts_succ (l : Lexer) (n : Nat) :
    l.attempts (n + 1) = l.attempts n + if (l.after n).Refuses then 0 else 1 := by
  simp only [attempts, List.range_succ, List.countP_append, List.countP_singleton]
  by_cases hr : (l.after n).Refuses <;> simp [hr]

/-- Every call before the first end of input reads a byte that no other call reads. -/
theorem attempts_le {n : Nat}
    (h : ∀ m < n, ∀ t, l.answer m = .ok t → t.kind ≠ .endOfInput) :
    l.attempts n + l.cursor.position.offset ≤ (l.after n).cursor.position.offset := by
  induction n with
  | zero => simp [attempts, after]
  | succ n ih =>
    have hn := ih fun m hm => h m (by omega)
    rw [attempts_succ]
    by_cases hr : (l.after n).Refuses
    · have := (reaches_next (l.after n)).offset_le
      simp only [hr, if_true, after]
      omega
    · have hlt : (l.after n).cursor.position.offset < (l.after n).next.2.cursor.position.offset := by
        rcases next_cases hr with ⟨e, -, -, hadv⟩ | ⟨t, ht, -, -, -, ⟨hkind, -⟩ | ⟨-, hadv⟩⟩
        · exact hadv.offset_lt
        · exact absurd hkind (h n (Nat.lt_succ_self n) t ht)
        · exact hadv.offset_lt
      simp only [hr, if_false, after]
      omega

/-- A token ends where the lexer stands behind it, and begins no earlier than where it stood. -/
theorem span_of_answer {n : Nat} {t : Token} (h : l.answer n = .ok t) :
    (l.after n).cursor.position.offset ≤ t.span.start.offset ∧
      t.span.stop = (l.after (n + 1)).cursor.position := by
  by_cases hr : (l.after n).Refuses
  · rw [answer, next_of_refuses hr] at h
    cases h
  · rcases next_cases hr with ⟨e, he, -⟩ | ⟨t', ht, hstart, hstop, -⟩
    · rw [answer, he] at h
      cases h
    · obtain rfl : t' = t := Except.ok.inj (ht.symm.trans h)
      exact ⟨hstart, hstop⟩

end Lexer

theorem Cursor.IsIn.offset_eq {source : String} {c : Cursor} (h : c.IsIn source)
    (hrest : c.rest = []) : c.position.offset = source.utf8ByteSize := by
  obtain ⟨before, hsource, hoffset, -⟩ := h
  rw [hoffset, utf8ByteSize_ofList, ← textSize_toList source, hsource, hrest, List.append_nil]

/-- A lexer can be called any number of times, whatever it has answered: it stays in its source,
goes forward until it has answered the end of input, and gives out tokens one behind the other. -/
theorem survives_of_ofSource {source : String} {limits : Limits} {l : Lexer}
    (h : Lexer.ofSource source limits = .ok l) (n : Nat) : l.Survives source n := by
  obtain rfl : { limits, cursor := .ofSource source } = l := by
    simp only [Lexer.ofSource] at h
    split at h
    · cases h
    · exact Except.ok.inj h
  generalize hl : ({ limits, cursor := .ofSource source } : Lexer) = l at h
  have hisIn : ∀ m, (l.after m).cursor.IsIn source := fun m => by
    have hreaches := l.reaches_after 0 m
    rw [Nat.zero_add, Lexer.after, ← hl] at hreaches
    exact hl ▸ Cursor.isIn_of_reaches hreaches
  refine ⟨hisIn n, (hisIn n).offset_le, (Lexer.reaches_next _).offset_le, fun hr => ?_,
    fun m hm t t' ht ht' => ?_, fun e he => ?_, fun hr => ?_, fun hend => ?_⟩
  · rcases Lexer.next_cases hr with
      ⟨e, -, -, hadv⟩ | ⟨t, ht, -, -, -, ⟨hkind, hrest, -⟩ | ⟨-, hadv⟩⟩
    · exact .inl hadv.offset_lt
    · exact .inr ⟨t, ht, hkind, (hisIn (n + 1)).offset_eq hrest⟩
    · exact .inl hadv.offset_lt
  · obtain ⟨d, rfl⟩ := Nat.exists_eq_add_of_le hm
    have hbetween := (l.reaches_after (m + 1) d).offset_le
    rw [Span.precedes, decide_eq_true_eq, (Lexer.span_of_answer ht).2]
    exact Nat.le_trans hbetween (Lexer.span_of_answer ht').1
  · by_cases hr : (l.after n).Refuses
    · rw [Lexer.after, Lexer.next_of_refuses hr]
    · rcases Lexer.next_cases hr with ⟨e', -, hcount, -⟩ | ⟨t, ht, -⟩
      · exact hcount
      · rw [Lexer.answer, ht] at he
        cases he
  · rw [Lexer.after, Lexer.answer, Lexer.next_of_refuses hr]
    exact ⟨rfl, rfl⟩
  · have hread := Lexer.attempts_le hend
    have hplace := (hisIn n).offset_le
    rw [Lexer.attempts_succ]
    split <;> omega

/-- A character literal with an unknown escape, a string that is not closed, and then nothing:
two errors and twice the end of input, of which two tokens are allowed, and a refusal. -/
theorem survives_of_open_quotes : ∃ l, Lexer.ofSource "'\\q \"" { maxTokenCount := 2 } = .ok l ∧
    (∀ n, l.Survives "'\\q \"" n) ∧ l.attempts 6 = 4 ∧ (l.after 5).Refuses := by
  have h : Lexer.ofSource "'\\q \"" { maxTokenCount := 2 } =
      .ok { limits := { maxTokenCount := 2 }, cursor := .ofSource "'\\q \"" } := rfl
  exact ⟨_, h, survives_of_ofSource h, by decide +kernel, by decide +kernel⟩

end GoloSyntax
