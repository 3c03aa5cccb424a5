import GoloSyntax.Proofs.Token.Munch

/-! # Writing strings and characters

A text can be written between two delimiters in many ways, because a character that has an escape
may stand for itself as well; only a line feed, a backslash and the delimiter may not (`Writes`).
Between tripled quotation marks a text is written as it is (`Verbatim`).  `Quotes w l` says that
`w` is one of the ways to write the literal `l`.

The lexer reads such a text as that literal and nothing else as a literal at all
(`scanString_ok_iff`, `scanCharacter_ok_iff`), so whatever is written can be read back
(`literals_round_trip`).
-/
namespace GoloSyntax

/-- The letters that may stand behind a backslash, with what they stand for there. -/
def escapes : List (Char × Char) :=
  [('n', '\n'), ('t', '\t'), ('r', '\r'), ('b', '\x08'), ('f', '\x0c'), ('0', '\x00'),
    ('"', '"'), ('\'', '\''), ('\\', '\\')]

theorem unescape?_eq_some_iff {letter c : Char} :
    unescape? letter = some c ↔ (letter, c) ∈ escapes := by
  constructor
  · intro h
    unfold unescape? at h
    split_ifs at h <;> cases h <;> simp_all [escapes]
  · intro h
    simp only [escapes, List.mem_cons, Prod.mk.injEq, List.not_mem_nil, or_false] at h
    rcases h with ⟨rfl, rfl⟩ | ⟨rfl, rfl⟩ | ⟨rfl, rfl⟩ | ⟨rfl, rfl⟩ | ⟨rfl, rfl⟩ | ⟨rfl, rfl⟩ |
      ⟨rfl, rfl⟩ | ⟨rfl, rfl⟩ | ⟨rfl, rfl⟩ <;> decide

/-- `u` is one way to write the text `s` between two delimiters on one line: a line feed, a
backslash and the delimiter need an escape, and every character that has an escape may be
written by it. -/
inductive Writes (delimiter : Char) : List Char → List Char → Prop where
  | nil : Writes delimiter [] []
  | plain {c : Char} {s u : List Char} (hnewline : c ≠ '\n') (hbackslash : c ≠ '\\')
      (hdelimiter : c ≠ delimiter) (h : Writes delimiter s u) : Writes delimiter (c :: s) (c :: u)
  | escape {letter c : Char} {s u : List Char} (hc : (letter, c) ∈ escapes)
      (h : Writes delimiter s u) : Writes delimiter (c :: s) ('\\' :: letter :: u)

/-- What a text says when each escape is read as the character that it stands for. -/
def unescape : List Char → List Char
  | '\\' :: letter :: cs => (escapes.lookup letter).getD letter :: unescape cs
  | c :: cs => c :: unescape cs
  | [] => []

theorem lookup_of_mem_escapes {letter c : Char} (h : (letter, c) ∈ escapes) :
    escapes.lookup letter = some c := by
  simp only [escapes, List.mem_cons, Prod.mk.injEq, List.not_mem_nil, or_false] at h
  rcases h with ⟨rfl, rfl⟩ | ⟨rfl, rfl⟩ | ⟨rfl, rfl⟩ | ⟨rfl, rfl⟩ | ⟨rfl, rfl⟩ | ⟨rfl, rfl⟩ |
    ⟨rfl, rfl⟩ | ⟨rfl, rfl⟩ | ⟨rfl, rfl⟩ <;> decide

namespace Writes

variable {delimiter : Char} {s u : List Char}

theorem unescape_eq (h : Writes delimiter s u) : unescape u = s := by
  induction h with
  | nil => rfl
  | @plain c s u _ hbackslash _ _ ih =>
    rw [unescape, ih]
    exact fun _ _ hc => absurd hc hbackslash
  | escape hc _ ih => rw [unescape, lookup_of_mem_escapes hc, ih, Option.getD_some]

/-- A line feed, a backslash and either delimiter can be written by an escape. -/
theorem exists_of (hdelimiter : delimiter = '"' ∨ delimiter = '\'') (s : List Char) :
    ∃ u, Writes delimiter s u := by
  induction s with
  | nil => exact ⟨[], .nil⟩
  | cons c s ih =>
    obtain ⟨u, hu⟩ := ih
    by_cases hnewline : c = '\n'
    · exact ⟨'\\' :: 'n' :: u, .escape (by simp [hnewline, escapes]) hu⟩
    · by_cases hbackslash : c = '\\'
      · exact ⟨'\\' :: '\\' :: u, .escape (by simp [hbackslash, escapes]) hu⟩
      · by_cases hc : c = delimiter
        · refine ⟨'\\' :: delimiter :: u, .escape ?_ hu⟩
          rcases hdelimiter with rfl | rfl <;> simp [hc, escapes]
        · exact ⟨c :: u, .plain hnewline hbackslash hc hu⟩

/-- The delimiter does not begin what is written in front of it. -/
theorem head?_ne (h : Writes delimiter s u) (hdelimiter : delimiter ≠ '\\') :
    u.head? ≠ some delimiter := by
  cases h with
  | nil => simp
  | plain _ _ hc => simpa using hc
  | escape => simpa using hdelimiter.symm

end Writes

/-- Between tripled quotation marks nothing is escaped, so no three of them stand in the text and
none at its end. -/
structure Verbatim (s : List Char) : Prop where
  inside : ¬ tripleQuote <:+: s
  last : s.getLast? ≠ some '"'

/-- `w` is one way to write the string or character literal `l`. -/
inductive Quotes : List Char → Lexeme → Prop where
  | standard {s u : List Char} (h : Writes '"' s u) :
      Quotes ('"' :: u ++ ['"']) ⟨.string .standard, some (String.ofList s)⟩
  | multiLine {s : List Char} (h : Verbatim s) :
      Quotes (tripleQuote ++ (s ++ tripleQuote)) ⟨.string .multiLine, some (String.ofList s)⟩
  | character {c : Char} {u : List Char} (h : Writes '\'' [c] u) :
      Quotes ('\'' :: u ++ ['\'']) ⟨.character, some c.toString⟩

/-- What stands between delimiters of `n` characters. -/
def between (n : Nat) (w : List Char) : List Char := (w.drop n).take (w.length - 2 * n)

/-- What a literal of some kind says that is written as `w`. -/
def TokenKind.content (kind : TokenKind) (w : List Char) : List Char :=
  if kind = .string .multiLine then between 3 w else unescape (between 1 w)

theorem between_append {n : Nat} {a s b : List Char} (ha : a.length = n) (hb : b.length = n) :
    between n (a ++ (s ++ b)) = s := by
  have hlength : (a ++ (s ++ b)).length - 2 * n = s.length := by
    simp only [List.length_append]
    omega
  rw [between, hlength, ← ha, List.drop_left, List.take_left]

theorem Quotes.text_eq {w : List Char} {l : Lexeme} (h : Quotes w l) :
    l.text = some (String.ofList (l.kind.content w)) := by
  cases h with
  | @standard s u h =>
    have hbetween := between_append (n := 1) (a := ['"']) (s := u) (b := ['"']) rfl rfl
    simp only [List.singleton_append] at hbetween
    simp [TokenKind.content, hbetween, h.unescape_eq]
  | @multiLine s h =>
    have hbetween := between_append (n := 3) (a := tripleQuote) (s := s) (b := tripleQuote) rfl rfl
    simp [TokenKind.content, hbetween]
  | @character c u h =>
    have hbetween := between_append (n := 1) (a := ['\'']) (s := u) (b := ['\'']) rfl rfl
    simp only [List.singleton_append] at hbetween
    simp [TokenKind.content, hbetween, h.unescape_eq, Char.toString]

/-! ## Reading what is written -/

/-- The reader of standard strings reads what a text is written as, up to the first quotation mark
behind it. -/
theorem scanStandardFrom_of_writes {s u : List Char} (h : Writes '"' s u) (content z : List Char)
    (p : Position) : scanStandardFrom content p (u ++ '"' :: z) =
      .ok (content.reverse ++ s, ⟨z, p.advance (u ++ ['"'])⟩) := by
  induction h generalizing content p with
  | nil => simp [scanStandardFrom]
  | plain hnewline hbackslash hdelimiter _ ih =>
    simp [scanStandardFrom, hnewline, hbackslash, hdelimiter, ih]
  | escape hc _ ih => simp [scanStandardFrom, unescape?_eq_some_iff.mpr hc, ih]

theorem writes_of_scanStandardFrom {cs content value : List Char} {p : Position} {c' : Cursor}
    (h : scanStandardFrom content p cs = .ok (value, c')) : ∃ s u, Writes '"' s u ∧
      Cursor.Passes ⟨cs, p⟩ (u ++ ['"']) c' ∧ value = content.reverse ++ s := by
  fun_induction scanStandardFrom content p cs with
  | case1 | case2 | case4 | case5 => cases h
  | case3 content p letter cs p' c hc ih =>
    obtain ⟨s, u, hu, hpasses, rfl⟩ := ih h
    exact ⟨c :: s, '\\' :: letter :: u, .escape (unescape?_eq_some_iff.mp hc) hu,
      ⟨congrArg ('\\' :: letter :: ·) hpasses.rest, hpasses.position⟩, by simp⟩
  | case6 content p cs =>
    obtain ⟨rfl, rfl⟩ := Prod.mk.inj (Except.ok.inj h)
    exact ⟨[], [], .nil, ⟨rfl, rfl⟩, by simp⟩
  | case7 content p c cs hnil hcons hnewline hquote ih =>
    have hbackslash : c ≠ '\\' := by
      cases cs with
      | nil => exact fun hc => hnil hc rfl
      | cons d cs => exact fun hc => hcons d cs hc rfl
    obtain ⟨s, u, hu, hpasses, rfl⟩ := ih h
    exact ⟨c :: s, c :: u, .plain hnewline hbackslash hquote hu,
      Cursor.passes_cons_iff.mpr ⟨rfl, hpasses⟩, by simp⟩

/-- The first three quotation marks in a row are the closing ones. -/
theorem splits_iff_verbatim {s z : List Char} :
    Splits (fun cs => !tripleQuote.isPrefixOf cs) s (tripleQuote ++ z) ↔ Verbatim s := by
  constructor
  · intro h
    constructor
    · rintro ⟨a, b, hs⟩
      have := h.inside (tripleQuote ++ b) ⟨a, by simpa using hs⟩ (by simp [tripleQuote])
      simp [tripleQuote] at this
    · intro hlast
      obtain ⟨a, rfl⟩ := List.getLast?_eq_some_iff.mp hlast
      have := h.inside ['"'] (List.suffix_append a _) (by simp)
      simp [tripleQuote] at this
  · intro h
    refine ⟨fun b hb hne => ?_, .inr (by simp [tripleQuote])⟩
    by_contra hprefix
    have hprefix : tripleQuote <+: b ++ (tripleQuote ++ z) := by simpa using hprefix
    have hlast : b.getLast? ≠ some '"' := by
      obtain ⟨a, rfl⟩ := hb
      rw [← List.getLast?_append_of_ne_nil a hne]
      exact h.last
    rcases b with _ | ⟨c, _ | ⟨d, _ | ⟨e, b⟩⟩⟩
    · exact hne rfl
    · obtain rfl : '"' = c := by simpa [tripleQuote] using hprefix
      exact hlast rfl
    · obtain ⟨-, rfl⟩ : '"' = c ∧ '"' = d := by simpa [tripleQuote] using hprefix
      exact hlast rfl
    · obtain ⟨rfl, rfl, rfl⟩ : '"' = c ∧ '"' = d ∧ '"' = e := by
        simpa [tripleQuote] using hprefix
      exact h.inside (List.IsInfix.trans ⟨[], b, rfl⟩ hb.isInfix)

theorem scanMultiLine_ok_iff {c c' : Cursor} {s : List Char} :
    scanMultiLine c = .ok (s, c') ↔ c.Passes (s ++ tripleQuote) c' ∧ Verbatim s := by
  constructor
  · intro h
    refine ⟨(takes_scanMultiLine h).1, ?_⟩
    have hrest := (takes_scanMultiLine h).1.rest
    rcases ht : c.takeWhileTail (fun cs => !tripleQuote.isPrefixOf cs) with ⟨u, c₁⟩
    obtain ⟨hpasses, hsplits⟩ := Cursor.splits_of_takeWhileTail ht
    simp only [scanMultiLine, ht] at h
    split at h
    · cases h
    · obtain ⟨rfl, rfl⟩ := Prod.mk.inj (Except.ok.inj h)
      rw [hpasses.rest, List.append_assoc] at hrest
      rw [List.append_cancel_left hrest] at hsplits
      exact splits_iff_verbatim.mp hsplits
  · rintro ⟨⟨hrest, hposition⟩, hs⟩
    obtain ⟨rest, p⟩ := c
    obtain ⟨rest', p'⟩ := c'
    obtain rfl : rest = s ++ tripleQuote ++ rest' := hrest
    obtain rfl : p' = p.advance (s ++ tripleQuote) := hposition
    have hread := Cursor.takeWhileTail_of_splits (splits_iff_verbatim (z := rest').mpr hs) p
    rw [scanMultiLine, List.append_assoc, hread]
    simp [tripleQuote, Cursor.drop, Position.advance_append]

/-- Two quotation marks are a text of their own unless a third one follows. -/
def EndsBefore (w after : List Char) : Prop := w = ['"', '"'] → after.head? ≠ some '"'

theorem not_startsWith_of_writes {s u z : List Char} {p : Position} (h : Writes '"' s u)
    (hz : EndsBefore ('"' :: u ++ ['"']) z) :
    Cursor.startsWith ⟨'"' :: u ++ ['"'] ++ z, p⟩ tripleQuote = false := by
  by_contra htriple
  have htriple : tripleQuote <+: '"' :: u ++ ['"'] ++ z := by simpa [Cursor.startsWith] using htriple
  cases u with
  | nil =>
    cases z with
    | nil => simp [tripleQuote] at htriple
    | cons d z =>
      obtain rfl : '"' = d := by simpa [tripleQuote] using htriple
      exact hz rfl rfl
  | cons d u =>
    have hd : '"' = d := by
      simp only [tripleQuote, List.cons_append, List.cons_prefix_cons] at htriple
      exact htriple.2.1
    exact h.head?_ne (by decide) (congrArg some hd.symm)

/-- What is read of a string literal is one way to write it. -/
theorem exists_quotes_of_scanString {max : Nat} {c c' : Cursor} {l : Lexeme}
    (hc : c.rest.head? = some '"') (h : scanString max c = .ok (l, c')) :
    ∃ w, c.Passes w c' ∧ Quotes w l ∧ textSize w ≤ max ∧ EndsBefore w c'.rest := by
  unfold scanString at h
  split at h
  · next htriple =>
    cases hm : scanMultiLine (c.drop 3) with
    | error r =>
      rw [hm] at h
      cases h
    | ok answer =>
      obtain ⟨s, c₁⟩ := answer
      rw [hm] at h
      obtain ⟨rfl, rfl, hmax⟩ := stringLexeme_ok h
      obtain ⟨hpasses, hs⟩ := scanMultiLine_ok_iff.mp hm
      have hthree : c.Passes tripleQuote (c.drop 3) := Cursor.passes_of_startsWith htriple
      have hall := hthree.trans hpasses
      exact ⟨_, hall, .multiLine hs, hall.offset ▸ hmax, by simp [EndsBefore, tripleQuote]⟩
  · next htriple =>
    dsimp only at h
    cases hm : scanStandardFrom [] (c.drop 1).position (c.drop 1).rest with
    | error r =>
      rw [hm] at h
      cases h
    | ok answer =>
      obtain ⟨value, c₁⟩ := answer
      rw [hm] at h
      obtain ⟨rfl, rfl, hmax⟩ := stringLexeme_ok h
      obtain ⟨s, u, hu, hpasses, rfl⟩ := writes_of_scanStandardFrom hm
      have hall := (Cursor.passes_of_head? hc).trans hpasses
      -- A third quotation mark would have made it a text between tripled ones.
      refine ⟨_, hall, .standard hu, hall.offset ▸ hmax, fun htwo hhead => htriple ?_⟩
      obtain ⟨z, hz⟩ := List.head?_eq_some_iff.mp hhead
      rw [Cursor.startsWith, hall.rest, htwo, hz]
      rfl

theorem scanString_of_quotes {max : Nat} {c c' : Cursor} {l : Lexeme} {w : List Char}
    (hc : c.rest.head? = some '"') (hpasses : c.Passes w c') (hw : Quotes w l)
    (hmax : textSize w ≤ max) (hends : EndsBefore w c'.rest) : scanString max c = .ok (l, c') := by
  obtain ⟨rest, p⟩ := c
  obtain ⟨z, p'⟩ := c'
  obtain rfl : rest = w ++ z := hpasses.rest
  obtain rfl : p' = p.advance w := hpasses.position
  cases hw with
  | @standard s u hu =>
    rw [scanString, if_neg (by rw [not_startsWith_of_writes hu hends]; simp)]
    simp only [Cursor.drop, List.cons_append, List.drop_succ_cons, List.drop_zero,
      List.take_succ_cons, List.take_zero, Position.advance_cons, Position.advance_nil,
      List.append_assoc, List.nil_append, scanStandardFrom_of_writes hu, bind, Except.bind]
    exact stringLexeme_of_size (p := p) (u := '"' :: u ++ ['"']) hmax
  | @multiLine s hs =>
    have hread : scanMultiLine ⟨s ++ tripleQuote ++ z, p.advance tripleQuote⟩ =
        .ok (s, ⟨z, p.advance (tripleQuote ++ (s ++ tripleQuote))⟩) :=
      scanMultiLine_ok_iff.mpr ⟨⟨rfl, Position.advance_append _ _ _⟩, hs⟩
    have hdrop : Cursor.drop ⟨tripleQuote ++ (s ++ tripleQuote) ++ z, p⟩ 3 =
        ⟨s ++ tripleQuote ++ z, p.advance tripleQuote⟩ := by
      simp [Cursor.drop, tripleQuote]
    rw [scanString, if_pos (by simp [Cursor.startsWith]), hdrop, hread]
    exact stringLexeme_of_size hmax
  | character => simp at hc

theorem scanString_ok_iff {max : Nat} {c c' : Cursor} {l : Lexeme}
    (hc : c.rest.head? = some '"') : scanString max c = .ok (l, c') ↔
      ∃ w, c.Passes w c' ∧ Quotes w l ∧ textSize w ≤ max ∧ EndsBefore w c'.rest :=
  ⟨exists_quotes_of_scanString hc,
    fun ⟨_, hpasses, hw, hmax, hends⟩ => scanString_of_quotes hc hpasses hw hmax hends⟩

theorem scanCharacterValue_ok_iff {c c' : Cursor} {d : Char} :
    scanCharacterValue c = .ok (d, c') ↔ ∃ u, Writes '\'' [d] u ∧ c.Passes u c' := by
  constructor
  · intro h
    unfold scanCharacterValue at h
    split at h
    · cases h
    · cases h
    · next letter cs hcs =>
      split at h
      · next hd =>
        obtain ⟨rfl, rfl⟩ := Prod.mk.inj (Except.ok.inj h)
        exact ⟨['\\', letter], .escape (unescape?_eq_some_iff.mp hd) .nil,
          by simpa [hcs] using c.passes_drop 2⟩
      · cases h
    · next value cs hnil hcons hcs =>
      split at h
      · cases h
      · next hnewline =>
        split at h
        · cases h
        · next hquote =>
          obtain ⟨rfl, rfl⟩ := Prod.mk.inj (Except.ok.inj h)
          have hbackslash : value ≠ '\\' := by
            cases cs with
            | nil => exact fun hc => hnil hc rfl
            | cons d cs => exact fun hc => hcons d cs hc rfl
          exact ⟨[value], .plain hnewline hbackslash hquote .nil,
            by simpa [hcs] using c.passes_drop 1⟩
  · rintro ⟨u, hu, hpasses⟩
    obtain ⟨rest, p⟩ := c
    obtain ⟨z, p'⟩ := c'
    obtain rfl : rest = u ++ z := hpasses.rest
    obtain rfl : p' = p.advance u := hpasses.position
    cases hu with
    | plain hnewline hbackslash hquote hu =>
      cases hu
      simp [scanCharacterValue, hnewline, hbackslash, hquote, Cursor.drop]
    | escape hd hu =>
      cases hu
      simp [scanCharacterValue, unescape?_eq_some_iff.mpr hd, Cursor.drop]

theorem scanCharacter_ok_iff {c c' : Cursor} {l : Lexeme} (hc : c.rest.head? = some '\'') :
    scanCharacter c = .ok (l, c') ↔ ∃ w, c.Passes w c' ∧ Quotes w l := by
  constructor
  · intro h
    have hone : c.Passes ['\''] (c.drop 1) := Cursor.passes_of_head? hc
    cases hv : scanCharacterValue (c.drop 1) with
    | error r => simp [scanCharacter, hv, bind, Except.bind] at h
    | ok answer =>
      obtain ⟨d, c₁⟩ := answer
      simp only [scanCharacter, hv, bind, Except.bind] at h
      split at h
      · next hclose =>
        obtain ⟨rfl, rfl⟩ := Prod.mk.inj (Except.ok.inj h)
        obtain ⟨u, hu, hpasses⟩ := scanCharacterValue_ok_iff.mp hv
        have hlast : c₁.Passes ['\''] (c₁.drop 1) := Cursor.passes_of_head? hclose
        exact ⟨_, (hone.trans hpasses).trans hlast, .character hu⟩
      · cases h
  · rintro ⟨w, hpasses, hw⟩
    obtain ⟨rest, p⟩ := c
    obtain ⟨z, p'⟩ := c'
    obtain rfl : rest = w ++ z := hpasses.rest
    obtain rfl : p' = p.advance w := hpasses.position
    cases hw with
    | @character d u hu =>
      have hread : scanCharacterValue ⟨u ++ ('\'' :: z), p.after '\''⟩ =
          .ok (d, ⟨'\'' :: z, (p.after '\'').advance u⟩) :=
        scanCharacterValue_ok_iff.mpr ⟨u, hu, ⟨rfl, rfl⟩⟩
      simp [scanCharacter, Cursor.drop, hread, bind, Except.bind, Cursor.peek?,
        Position.advance_append]
    | standard => simp at hc
    | multiLine => simp [tripleQuote] at hc

/-- A string or a character literal. -/
def TokenKind.isQuoted : TokenKind → Bool
  | .string _ | .character => true
  | _ => false

theorem scanLexeme_of_quotationMark {limits : Limits} {c : Cursor} (hc : c.rest.head? = some '"') :
    scanLexeme limits c = scanString limits.maxStringLength c := by
  obtain ⟨cs, hcs⟩ := List.head?_eq_some_iff.mp hc
  simp only [scanLexeme, hcs]
  rfl

theorem scanLexeme_of_apostrophe {limits : Limits} {c : Cursor} (hc : c.rest.head? = some '\'') :
    scanLexeme limits c = scanCharacter c := by
  obtain ⟨cs, hcs⟩ := List.head?_eq_some_iff.mp hc
  simp only [scanLexeme, hcs]
  rfl

/-- A literal within the limit for its kind is read where it stands. -/
theorem scanLexeme_of_quotes {limits : Limits} {w z : List Char} {l : Lexeme} (h : Quotes w l)
    (hadmits : limits.Admits w l) (hends : EndsBefore w z) (p : Position) :
    scanLexeme limits ⟨w ++ z, p⟩ = .ok (l, ⟨z, p.advance w⟩) := by
  have hpasses : Cursor.Passes ⟨w ++ z, p⟩ w ⟨z, p.advance w⟩ := ⟨rfl, rfl⟩
  have hw := h
  cases h with
  | standard | multiLine =>
    rw [scanLexeme_of_quotationMark rfl]
    exact (scanString_ok_iff rfl).mpr ⟨_, hpasses, hw, hadmits, hends⟩
  | character =>
    rw [scanLexeme_of_apostrophe rfl]
    exact (scanCharacter_ok_iff rfl).mpr ⟨_, hpasses, hw⟩

/-- A literal that is read is written there. -/
theorem quotes_of_scanLexeme {limits : Limits} {c c' : Cursor} {l : Lexeme}
    (h : scanLexeme limits c = .ok (l, c')) (hquoted : l.kind.isQuoted) :
    ∃ w, c.Passes w c' ∧ Quotes w l := by
  -- The kind of a lexeme says with which character it begins.
  rcases cut_of_scanLexeme h with ⟨-, rfl, -⟩ | ⟨u, hu, hcut, -, -⟩
  · cases hquoted
  · cases hcut with
    | newline | number | mark => cases hquoted
    | word =>
      rcases Lexeme.kind_ofWord (String.ofList u) with ⟨k, hk, -⟩ | ⟨hk, -⟩ <;>
      · rw [hk] at hquoted
        cases hquoted
    | string hstring =>
      have hc : c.rest.head? = some '"' := by
        rw [hu.rest]
        cases hstring <;> rfl
      rw [scanLexeme_of_quotationMark hc] at h
      obtain ⟨w, hpasses, hw, -⟩ := (scanString_ok_iff hc).mp h
      exact ⟨w, hpasses, hw⟩
    | character =>
      have hc : c.rest.head? = some '\'' := by
        rw [hu.rest]
        rfl
      rw [scanLexeme_of_apostrophe hc] at h
      exact (scanCharacter_ok_iff hc).mp h

theorem lex_of_quotes {limits : Limits} {w : List Char} {l : Lexeme} (h : Quotes w l)
    (hsize : textSize w ≤ limits.maxInputSize) (hcount : 2 ≤ limits.maxTokenCount)
    (hadmits : limits.Admits w l) : ∃ stream, lex (String.ofList w) limits = .ok stream ∧
      stream.lexemes = [l, ⟨.endOfInput, none⟩] := by
  have hread := scanLexeme_of_quotes h hadmits (z := []) (by simp [EndsBefore]) .start
  rw [List.append_nil] at hread
  refine lex_of_scanLexeme ?_ hread hsize hcount
  cases h with
  | standard | character => exact ⟨_, _, rfl, rfl, by decide⟩
  | multiLine => exact ⟨_, _, rfl, rfl, by decide⟩

theorem quotes_of_lex {source : String} {limits : Limits} {stream : TokenStream}
    (h : lex source limits = .ok stream) {token : Token} (htoken : token ∈ stream.tokens)
    (hquoted : token.kind.isQuoted) : ∃ before w after,
      Stands source.toList token.span before w after ∧ Quotes w (token.lexeme stream.symbols) := by
  have hkind : token.kind ≠ .endOfInput := by
    intro hkind
    rw [hkind] at hquoted
    cases hquoted
  obtain ⟨before, w, after, hstands, hread⟩ := scanLexeme_of_lex h htoken hkind
  obtain ⟨w', hpasses, hw⟩ := quotes_of_scanLexeme hread hquoted
  obtain rfl : w = w' := List.append_cancel_right hpasses.rest
  exact ⟨before, w, after, hstands, hw⟩

/-- Any text can be written as a string or character literal, the literal is cut out as one token
with that text, and every such token of a source has the text of its slice. -/
theorem literals_round_trip (limits : Limits) :
    (∀ s, ∃ u, Writes '"' s u) ∧ (∀ c, ∃ u, Writes '\'' [c] u) ∧
    (∀ w l, Quotes w l → textSize w ≤ limits.maxInputSize → 2 ≤ limits.maxTokenCount →
      limits.Admits w l → ∃ stream, lex (String.ofList w) limits = .ok stream ∧
        stream.lexemes = [l, ⟨.endOfInput, none⟩]) ∧
    ∀ source stream, lex source limits = .ok stream → ∀ token ∈ stream.tokens,
      token.kind.isQuoted → ∃ before w after, Stands source.toList token.span before w after ∧
        Quotes w (token.lexeme stream.symbols) ∧
        token.text? stream.symbols = some (String.ofList (token.kind.content w)) := by
  refine ⟨fun s => Writes.exists_of (.inl rfl) s, fun c => Writes.exists_of (.inr rfl) [c],
    fun w l h hsize hcount hadmits => lex_of_quotes h hsize hcount hadmits,
    fun source stream h token htoken hquoted => ?_⟩
  obtain ⟨before, w, after, hstands, hw⟩ := quotes_of_lex h htoken hquoted
  exact ⟨before, w, after, hstands, hw, hw.text_eq⟩

/-- A tab and a quotation mark by their escapes, an apostrophe as it is. -/
theorem literals_round_trip_escaped :
    Quotes "\"a\\t\\\"'\"".toList ⟨.string .standard, some "a\t\"'"⟩ ∧ ∃ stream,
      lex "\"a\\t\\\"'\"" {} = .ok stream ∧
        stream.lexemes = [⟨.string .standard, some "a\t\"'"⟩, ⟨.endOfInput, none⟩] ∧
        ∀ token ∈ stream.tokens, token.kind.isQuoted → ∃ before w after,
          Stands "\"a\\t\\\"'\"".toList token.span before w after ∧
            token.text? stream.symbols = some (String.ofList (token.kind.content w)) := by
  have hw : Quotes "\"a\\t\\\"'\"".toList ⟨.string .standard, some "a\t\"'"⟩ :=
    .standard (s := "a\t\"'".toList) (.plain (by decide) (by decide) (by decide)
      (.escape (by decide) (.escape (by decide)
        (.plain (by decide) (by decide) (by decide) .nil))))
  obtain ⟨-, -, hread, hsaid⟩ := literals_round_trip {}
  have hadmits : textSize "\"a\\t\\\"'\"".toList ≤ 10000000 := by decide
  obtain ⟨stream, h, hlexemes⟩ := hread _ _ hw (by decide) (by decide) hadmits
  refine ⟨hw, stream, h, hlexemes, fun token htoken hquoted => ?_⟩
  obtain ⟨before, w, after, hstands, -, htext⟩ := hsaid _ stream h token htoken hquoted
  exact ⟨before, w, after, hstands, htext⟩

end GoloSyntax
