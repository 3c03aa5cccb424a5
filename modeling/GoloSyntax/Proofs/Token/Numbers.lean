import GoloSyntax.Proofs.Token.Munch
import GoloSyntax.Proofs.Token.Numerals
import Mathlib.Data.Nat.Digits.Defs

/-! # Writing numbers

`Numeral kind w` says how a number of a kind is written: digits, a fraction, an exponent and a
suffix, where an underscore may only stand between two digits.  A source holds nothing but such a
text exactly if it is cut into one number (`lex_number_iff`), and wherever a number is cut out of a
source, it is one (`numeral_of_lex`).

The lexer reads the parts of a number one after the other and looks at a character or two to tell
whether there is another one.  `EndsNumber` is what must not stand behind a number for that.
-/
namespace GoloSyntax

/-- Digits, with at most one underscore between two of them. -/
inductive Digits : List Char → Prop where
  | last {d : Char} (hd : d.isDigit) : Digits [d]
  | digit {d : Char} {u : List Char} (hd : d.isDigit) (h : Digits u) : Digits (d :: u)
  | underscore {d : Char} {u : List Char} (hd : d.isDigit) (h : Digits u) : Digits (d :: '_' :: u)

/-- A point with digits behind it, or nothing. -/
inductive Fraction : List Char → Prop where
  | nil : Fraction []
  | point {u : List Char} (h : Digits u) : Fraction ('.' :: u)

/-- A letter, perhaps a sign, and digits behind it, or nothing. -/
inductive Exponent : List Char → Prop where
  | nil : Exponent []
  | letter {e : Char} {sign u : List Char} (he : e = 'e' ∨ e = 'E')
      (hsign : sign = [] ∨ sign = ['+'] ∨ sign = ['-']) (h : Digits u) : Exponent (e :: (sign ++ u))

/-- How a number of each kind is written: one without fraction and exponent is an integer or, with
its suffix, a long integer, and one with either is double or, with its suffix, single. -/
inductive Numeral : NumberKind → List Char → Prop where
  | integer {w : List Char} (h : Digits w) : Numeral .integer w
  | long {w : List Char} (h : Digits w) : Numeral .long (w ++ ['_', 'L'])
  | double {w f e : List Char} (h : Digits w) (hf : Fraction f) (he : Exponent e)
      (hne : ¬ (f = [] ∧ e = [])) : Numeral .double (w ++ (f ++ e))
  | float {w f e : List Char} (h : Digits w) (hf : Fraction f) (he : Exponent e)
      (hne : ¬ (f = [] ∧ e = [])) : Numeral .float (w ++ (f ++ e) ++ ['_', 'F'])

variable {u v z : List Char} {c c' : Cursor} {p : Position}

/-! ## Runs of digits -/

theorem Digits.exists_cons (h : Digits u) : ∃ d v, u = d :: v ∧ d.isDigit := by
  cases h with
  | last hd | digit hd | underscore hd => exact ⟨_, _, rfl, hd⟩

theorem Digits.digitRun (h : Digits u) : DigitRun u where
  chars c hc := by
    induction h with
    | last hd =>
      obtain rfl := List.mem_singleton.mp hc
      exact .inl hd
    | digit hd _ ih =>
      rcases List.mem_cons.mp hc with rfl | hc
      · exact .inl hd
      · exact ih hc
    | underscore hd _ ih =>
      rcases List.mem_cons.mp hc with rfl | hc
      · exact .inl hd
      · rcases List.mem_cons.mp hc with rfl | hc
        · exact .inr rfl
        · exact ih hc
  begins _ := by
    obtain ⟨d, v, rfl, hd⟩ := h.exists_cons
    exact hd

theorem Digits.ne_nil (h : Digits u) : u ≠ [] := by
  rintro rfl
  cases h

theorem Digits.exists_plainDigits (h : Digits u) : ∃ d ds, plainDigits u = d :: ds ∧ d.isDigit :=
  h.digitRun.exists_cons h.ne_nil

theorem Digits.beginsWithDigit (h : Digits u) (z : List Char) : beginsWithDigit (u ++ z) := by
  obtain ⟨d, v, rfl, hd⟩ := h.exists_cons
  exact hd

/-- Digits and underscores between them are the run that is read. -/
theorem Digits.splits (h : Digits u) (hz : continuesDigits z = false) :
    Splits continuesDigits u z := by
  refine ⟨?_, .inr hz⟩
  induction h with
  | @last d hd =>
    intro b hb hne
    rcases List.suffix_cons_iff.mp hb with rfl | hb
    · simp [continuesDigits, hd]
    · exact absurd (List.suffix_nil.mp hb) hne
  | @digit d u hd h ih =>
    intro b hb hne
    rcases List.suffix_cons_iff.mp hb with rfl | hb
    · simp [continuesDigits, hd]
    · exact ih b hb hne
  | @underscore d u hd h ih =>
    intro b hb hne
    rcases List.suffix_cons_iff.mp hb with rfl | hb
    · simp [continuesDigits, hd]
    · rcases List.suffix_cons_iff.mp hb with rfl | hb
      · simp [continuesDigits, h.beginsWithDigit z]
      · exact ih b hb hne

/-- An underscore is read only in front of a digit, which then belongs to the run. -/
theorem digits_of_splits {d : Char} {u : List Char} (hd : d.isDigit)
    (h : Splits continuesDigits (d :: u) v) : Digits (d :: u) := by
  have htail {a : List Char} (ha : a <:+ d :: u) : Splits continuesDigits a v :=
    ⟨fun b hb hne => h.inside b (hb.trans ha) hne, h.stop⟩
  cases u with
  | nil => exact .last hd
  | cons e u =>
    have he := h.inside (e :: u) (List.suffix_cons d _) (by simp)
    simp only [List.cons_append, continuesDigits, Bool.or_eq_true, Bool.and_eq_true,
      beq_iff_eq] at he
    rcases he with he | ⟨rfl, he⟩
    · exact .digit hd (digits_of_splits he (htail (List.suffix_cons d _)))
    · cases u with
      | nil =>
        -- The text behind an underscore would go on with the run.
        rcases h.stop with rfl | hstop
        · cases he
        · obtain ⟨d', w, rfl⟩ : ∃ d' w, v = d' :: w := by
            cases v with
            | nil => cases he
            | cons d' w => exact ⟨d', w, rfl⟩
          have hd' : d'.isDigit = true := he
          simp [continuesDigits, hd'] at hstop
      | cons d' u => exact .underscore hd (digits_of_splits he (htail ⟨[d, '_'], rfl⟩))
termination_by u.length

theorem digits_eq_of_digits (h : Digits u) (hz : continuesDigits z = false) (p : Position) :
    Cursor.digits ⟨u ++ z, p⟩ = (u, ⟨z, p.advance u⟩) := by
  rw [Cursor.digits, if_pos (h.beginsWithDigit z)]
  exact Cursor.takeWhileTail_of_splits (h.splits hz) p

theorem digits_of_digits_eq (h : c.digits = (u, c')) (hu : u ≠ []) : Digits u := by
  obtain ⟨hpasses, -, hrun, -⟩ := takes_digits h
  obtain ⟨d, v, rfl⟩ := List.exists_cons_of_ne_nil hu
  have hd : d.isDigit := hrun.begins hu
  unfold Cursor.digits at h
  split at h
  · exact digits_of_splits hd (Cursor.splits_of_takeWhileTail h).2
  · cases h

/-! ## What is read of a number -/

/-- Neither digits, a fraction nor an exponent go on with the text. -/
structure EndsNumber (z : List Char) : Prop where
  digits : continuesDigits z = false
  fraction : z.head? ≠ some '.'
  exponent : z.head? ≠ some 'e' ∧ z.head? ≠ some 'E'

/-- Neither does anything else that belongs to a word, so only a point is to be excluded. -/
theorem endsNumber_of_head? (hpart : z.head?.any isWordPart = false) (hpoint : z.head? ≠ some '.') :
    EndsNumber z := by
  cases z with
  | nil => exact ⟨rfl, nofun, nofun, nofun⟩
  | cons d z =>
    have hd : isWordPart d = false := by simpa using hpart
    have hne (c : Char) (hc : isWordPart c) : d ≠ c := by
      rintro rfl
      rw [hd] at hc
      cases hc
    have hdigit : d.isDigit = false := by
      by_contra hdigit
      simp [isWordPart, Char.isAlphanum, hdigit] at hd
    refine ⟨?_, hpoint, ?_, ?_⟩
    · simp [continuesDigits, hdigit, hne '_' rfl]
    · simpa using hne 'e' rfl
    · simpa using hne 'E' rfl

theorem endsNumber_suffix (kind : NumberKind) (hpart : z.head?.any isWordPart = false)
    (hpoint : z.head? ≠ some '.') : EndsNumber (kind.suffix ++ z) := by
  cases kind with
  | integer | double => exact endsNumber_of_head? hpart hpoint
  | long | float => exact ⟨rfl, by simp [NumberKind.suffix], by simp [NumberKind.suffix]⟩

theorem Exponent.digits (h : Exponent u) (hz : EndsNumber z) :
    continuesDigits (u ++ z) = false ∧ (u ++ z).head? ≠ some '.' := by
  cases h with
  | nil => exact ⟨hz.digits, hz.fraction⟩
  | letter he => rcases he with rfl | rfl <;> exact ⟨rfl, by simp⟩

theorem Fraction.digits (h : Fraction u) (hz : continuesDigits z = false) :
    continuesDigits (u ++ z) = false := by
  cases h with
  | nil => exact hz
  | point => rfl

theorem fraction_eq_of_fraction (h : Fraction u) (hz : continuesDigits z = false)
    (hpoint : z.head? ≠ some '.') (p : Position) :
    Cursor.fraction ⟨u ++ z, p⟩ = (u, ⟨z, p.advance u⟩) := by
  cases h with
  | nil =>
    unfold Cursor.fraction
    split
    · next cs hcs =>
      obtain rfl : z = '.' :: cs := hcs
      exact absurd rfl hpoint
    · rfl
  | point h =>
    have hread := digits_eq_of_digits h hz (p.after '.')
    simp [Cursor.fraction, h.beginsWithDigit z, Cursor.drop, hread]

theorem exponent_eq_of_exponent (h : Exponent u) (hz : EndsNumber z) (p : Position) :
    Cursor.exponent ⟨u ++ z, p⟩ = .ok (u, ⟨z, p.advance u⟩) := by
  cases h with
  | nil =>
    cases z with
    | nil => rfl
    | cons e z =>
      have he : ¬ (e = 'e' ∨ e = 'E') := by
        rintro (rfl | rfl)
        · exact hz.exponent.1 rfl
        · exact hz.exponent.2 rfl
      simp [Cursor.exponent, he]
  | @letter e sign u he hsign h =>
    obtain ⟨d, v, rfl, hd⟩ := h.exists_cons
    have hsign : Cursor.sign ⟨sign ++ (d :: v ++ z), p.after e⟩ =
        (sign, ⟨d :: v ++ z, (p.after e).advance sign⟩) := by
      rcases hsign with rfl | rfl | rfl
      · unfold Cursor.sign
        split
        · next cs hcs =>
          obtain ⟨rfl, -⟩ := List.cons.inj hcs
          cases hd
        · next cs hcs =>
          obtain ⟨rfl, -⟩ := List.cons.inj hcs
          cases hd
        · rfl
      · rfl
      · rfl
    have hread := digits_eq_of_digits h hz.digits ((p.after e).advance sign)
    rw [List.cons_append] at hsign hread
    simp [Cursor.exponent, he, Cursor.drop, hsign, hread, Position.advance_append]

theorem fraction_of_fraction_eq (h : c.fraction = (u, c')) : Fraction u := by
  obtain ⟨-, -, rfl | ⟨w, rfl, -, hne⟩⟩ := takes_fraction h
  · exact .nil
  · unfold Cursor.fraction at h
    split at h
    · split at h
      · rcases hd : (c.drop 1).digits with ⟨digits, c₁⟩
        rw [hd] at h
        obtain ⟨hw, rfl⟩ := Prod.mk.inj h
        obtain ⟨-, rfl⟩ := List.cons.inj hw
        exact .point (digits_of_digits_eq hd hne)
      · cases h
    · cases h

theorem exponent_of_exponent_eq (h : c.exponent = .ok (u, c')) : Exponent u := by
  unfold Cursor.exponent at h
  split at h
  · split at h
    · next he =>
      rcases hs : (c.drop 1).sign with ⟨sign, c₁⟩
      rcases hd : c₁.digits with ⟨digits, c₂⟩
      simp only [hs, hd] at h
      split at h
      · cases h
      · next hdigits =>
        obtain ⟨rfl, rfl⟩ := Prod.mk.inj (Except.ok.inj h)
        obtain ⟨-, -, hsign⟩ := takes_sign hs
        exact .letter he hsign (digits_of_digits_eq hd (by simpa using hdigits))
    · obtain ⟨rfl, rfl⟩ := Prod.mk.inj (Except.ok.inj h)
      exact .nil
  · obtain ⟨rfl, rfl⟩ := Prod.mk.inj (Except.ok.inj h)
    exact .nil

theorem numberSuffix_eq (kind : NumberKind) (hpart : z.head?.any isWordPart = false)
    (p : Position) :
    Cursor.numberSuffix (kind = .float ∨ kind = .double) ⟨kind.suffix ++ z, p⟩ =
      .ok ((kind, kind.suffix), ⟨z, p.advance kind.suffix⟩) := by
  have hplain (fractional : Bool) : Cursor.numberSuffix fractional ⟨z, p⟩ =
      .ok ((if fractional then .double else .integer, []), ⟨z, p⟩) := by
    cases z with
    | nil => rfl
    | cons d z =>
      have hd : d ≠ '_' := by
        rintro rfl
        cases hpart
      simp [Cursor.numberSuffix, hd]
  cases kind with
  | integer => exact hplain false
  | double => exact hplain true
  | long | float => rfl

/-- Digits, a fraction and an exponent with the suffix of a kind that goes with them. -/
theorem numeral_iff {kind : NumberKind} : Numeral kind u ↔ ∃ w f e, Digits w ∧ Fraction f ∧
    Exponent e ∧ u = w ++ (f ++ (e ++ kind.suffix)) ∧
      ((kind = .float ∨ kind = .double) ↔ ¬ (f = [] ∧ e = [])) := by
  constructor
  · intro h
    cases h with
    | integer h | long h => exact ⟨_, [], [], h, .nil, .nil, by simp [NumberKind.suffix], by simp⟩
    | double h hf he hne | float h hf he hne =>
      exact ⟨_, _, _, h, hf, he, by simp [NumberKind.suffix], by simpa using hne⟩
  · rintro ⟨w, f, e, h, hf, he, rfl, hkind⟩
    cases kind with
    | integer =>
      obtain ⟨rfl, rfl⟩ : f = [] ∧ e = [] := by simpa using hkind
      simpa [NumberKind.suffix] using Numeral.integer h
    | long =>
      obtain ⟨rfl, rfl⟩ : f = [] ∧ e = [] := by simpa using hkind
      exact .long h
    | double => simpa [NumberKind.suffix] using Numeral.double h hf he (by simpa using hkind)
    | float => simpa [NumberKind.suffix] using Numeral.float h hf he (by simpa using hkind)

/-- A numeral is read to its end, where neither a word nor a fraction would go on with it. -/
theorem scanNumber_of_numeral {kind : NumberKind} (h : Numeral kind u)
    (hpart : z.head?.any isWordPart = false) (hpoint : z.head? ≠ some '.') (p : Position) :
    scanNumber ⟨u ++ z, p⟩ =
      .ok (⟨.number kind, some (String.ofList u)⟩, ⟨z, p.advance u⟩) := by
  obtain ⟨w, f, e, hw, hf, he, rfl, hkind⟩ := numeral_iff.mp h
  have hsuffix := endsNumber_suffix kind hpart hpoint
  obtain ⟨hdigits, hpoint⟩ := he.digits hsuffix
  have hfractional : (!f.isEmpty || !e.isEmpty) = decide (kind = .float ∨ kind = .double) := by
    rw [Bool.eq_iff_iff]
    simp only [Bool.or_eq_true, Bool.not_eq_true', List.isEmpty_eq_false_iff, ne_eq,
      decide_eq_true_eq, hkind, not_and_or]
  have hpeek : Option.any isWordPart z.head? ≠ true := by simp [hpart]
  simp only [scanNumber, List.append_assoc, digits_eq_of_digits hw (hf.digits hdigits) p,
    fraction_eq_of_fraction hf hdigits hpoint, exponent_eq_of_exponent he hsuffix, hfractional,
    numberSuffix_eq kind hpart, bind, Except.bind, Cursor.peek?, if_neg hpeek,
    Position.advance_append]

/-- What is read as a number is a numeral. -/
theorem numeral_of_scanNumber {l : Lexeme} (hc : beginsWithDigit c.rest)
    (h : scanNumber c = .ok (l, c')) : ∃ u kind, c.Passes u c' ∧ Numeral kind u ∧
      l = ⟨.number kind, some (String.ofList u)⟩ := by
  rcases hw : c.digits with ⟨w, c₁⟩
  rcases hf : c₁.fraction with ⟨f, c₂⟩
  simp only [scanNumber, hw, hf, bind, Except.bind] at h
  cases he : c₂.exponent with
  | error r =>
    rw [he] at h
    cases h
  | ok answer =>
    obtain ⟨e, c₃⟩ := answer
    simp only [he] at h
    cases hs : c₃.numberSuffix (!f.isEmpty || !e.isEmpty) with
    | error r =>
      rw [hs] at h
      cases h
    | ok answer =>
      obtain ⟨⟨kind, suffix⟩, c₄⟩ := answer
      simp only [hs] at h
      split at h
      · cases h
      · obtain ⟨rfl, rfl⟩ := Prod.mk.inj (Except.ok.inj h)
        obtain ⟨hpasses₁, -, -, hne⟩ := takes_digits hw
        obtain ⟨hpasses₂, -, hfraction⟩ := takes_fraction hf
        obtain ⟨hpasses₃, -, hexponent⟩ := takes_exponent he
        obtain ⟨hpasses₄, -, rfl, hkind⟩ := takes_numberSuffix hs
        refine ⟨_, kind, ((hpasses₁.trans hpasses₂).trans hpasses₃).trans hpasses₄,
          numeral_iff.mpr ⟨w, f, e, digits_of_digits_eq hw fun hnil => hne hnil hc,
            fraction_of_fraction_eq hf, exponent_of_exponent_eq he, by simp, ?_⟩, rfl⟩
        rw [← hkind]
        simp only [Bool.or_eq_true, Bool.not_eq_true', List.isEmpty_eq_false_iff, ne_eq,
          not_and_or]

theorem NumberText.beginsWithDigit {kind : NumberKind} (h : NumberText kind u) (z : List Char) :
    beginsWithDigit (u ++ z) := by
  obtain ⟨w, f, e, rfl, hrun, hne, -⟩ := h.parts
  simp only [List.append_assoc]
  exact beginsWithDigit_append (hrun.begins hne) _

theorem Numeral.beginsWithDigit {kind : NumberKind} (h : Numeral kind u) : beginsWithDigit u := by
  obtain ⟨w, f, e, hw, -, -, rfl, -⟩ := numeral_iff.mp h
  exact hw.beginsWithDigit _

theorem scanLexeme_of_digit {limits : Limits} (hc : beginsWithDigit c.rest) :
    scanLexeme limits c = scanNumber c := by
  obtain ⟨_ | ⟨d, rest⟩, p⟩ := c
  · cases hc
  · have hd : d.isDigit = true := hc
    simp only [scanLexeme, if_pos hd]

theorem numeral_of_scanLexeme {limits : Limits} {l : Lexeme} {kind : NumberKind}
    (h : scanLexeme limits c = .ok (l, c')) (hkind : l.kind = .number kind) :
    ∃ u, c.Passes u c' ∧ Numeral kind u ∧ l.text = some (String.ofList u) := by
  -- The kind of a lexeme says with which character it begins.
  have hc : beginsWithDigit c.rest := by
    rcases cut_of_scanLexeme h with ⟨-, rfl, -⟩ | ⟨u, hu, hcut, -, -⟩
    · cases hkind
    · cases hcut with
      | number hnumber => exact hu.rest ▸ hnumber.beginsWithDigit _
      | newline | mark | string | character => cases hkind
      | word =>
        rcases Lexeme.kind_ofWord (String.ofList u) with ⟨k, hk, -⟩ | ⟨hk, -⟩ <;>
        · rw [hk] at hkind
          cases hkind
  rw [scanLexeme_of_digit hc] at h
  obtain ⟨u, kind', hpasses, hu, rfl⟩ := numeral_of_scanNumber hc h
  obtain rfl := TokenKind.number.inj hkind
  exact ⟨u, hpasses, hu, rfl⟩

/-- A number stands where its token does, and its text is what stands there. -/
theorem numeral_of_lex {source : String} {limits : Limits} {stream : TokenStream}
    (h : lex source limits = .ok stream) {token : Token} (htoken : token ∈ stream.tokens)
    {kind : NumberKind} (hkind : token.kind = .number kind) : ∃ before u after,
      Stands source.toList token.span before u after ∧ Numeral kind u ∧
        token.text? stream.symbols = some (String.ofList u) := by
  obtain ⟨before, u, after, hstands, hread⟩ := scanLexeme_of_lex h htoken (by simp [hkind])
  obtain ⟨u', hpasses, hu, htext⟩ := numeral_of_scanLexeme hread hkind
  obtain rfl : u = u' := List.append_cancel_right hpasses.rest
  exact ⟨before, u, after, hstands, hu, htext⟩

/-- A text is one number and nothing else if and only if it is a numeral. -/
theorem lex_number_iff {limits : Limits} {kind : NumberKind} {w : String}
    (hsize : w.utf8ByteSize ≤ limits.maxInputSize) (hcount : 2 ≤ limits.maxTokenCount) :
    (∃ stream, lex w limits = .ok stream ∧
      stream.lexemes = [⟨.number kind, some w⟩, ⟨.endOfInput, none⟩]) ↔
        Numeral kind w.toList := by
  constructor
  · rintro ⟨stream, h, hlexemes⟩
    obtain ⟨token, htoken, htext⟩ : ∃ token ∈ stream.tokens,
        token.lexeme stream.symbols = ⟨.number kind, some w⟩ := by
      have hmem : (⟨.number kind, some w⟩ : Lexeme) ∈ stream.lexemes := by simp [hlexemes]
      obtain ⟨token, htoken, heq⟩ := List.mem_map.mp hmem
      exact ⟨token, Array.mem_toList_iff.mp htoken, heq⟩
    obtain ⟨before, u, after, -, hu, hu'⟩ :=
      numeral_of_lex h htoken (congrArg Lexeme.kind htext)
    have hw : some w = some (String.ofList u) := by
      rw [← hu']
      exact congrArg Lexeme.text htext.symm
    obtain rfl := Option.some.inj hw
    rwa [String.toList_ofList]
  · intro h
    have hread : scanLexeme limits ⟨w.toList, .start⟩ =
        .ok (⟨.number kind, some w⟩, ⟨[], Position.start.advance w.toList⟩) := by
      have hnumber := scanNumber_of_numeral h (z := []) rfl nofun .start
      rwa [List.append_nil, String.ofList_toList, ← scanLexeme_of_digit h.beginsWithDigit] at hnumber
    obtain ⟨d, v, hw, hd⟩ : ∃ d v, w.toList = d :: v ∧ d.isDigit := by
      have hbegins := h.beginsWithDigit
      cases hw : w.toList with
      | nil =>
        rw [hw] at hbegins
        cases hbegins
      | cons d v => exact ⟨d, v, rfl, by rwa [hw] at hbegins⟩
    have hplain : isBlank d = false ∧ d ≠ '#' := by
      have := isSeparator_of_isDigit hd
      simp_all [isSeparator]
    have hlex := lex_of_scanLexeme ⟨d, v, hw, hplain⟩ hread
      (by rwa [textSize_toList]) hcount
    rwa [String.ofList_toList] at hlex

/-! ## Values -/

/-- The number that the digits of a text make, with everything between them left out. -/
def decimalValue (u : List Char) : Nat :=
  Nat.ofDigits 10 ((u.filter Char.isDigit).reverse.map fun d => d.toNat - '0'.toNat)

theorem digitsValue_concat (ds : List Char) (d : Char) :
    digitsValue (ds ++ [d]) = 10 * digitsValue ds + (d.toNat - '0'.toNat) := by
  simp [digitsValue]

theorem digitsValue_eq (ds : List Char) : digitsValue ds =
    Nat.ofDigits 10 (ds.reverse.map fun d => d.toNat - '0'.toNat) := by
  induction ds using List.reverseRecOn with
  | nil => rfl
  | append_singleton ds d ih =>
    rw [digitsValue_concat, ih, List.reverse_concat, List.map_cons, Nat.ofDigits_cons, Nat.add_comm]

theorem decimalValue_eq (u : List Char) : decimalValue u = digitsValue (u.filter Char.isDigit) :=
  (digitsValue_eq _).symm

/-- Between digits stand only underscores, which are no digits. -/
theorem Digits.filter_isDigit (h : Digits u) : u.filter Char.isDigit = plainDigits u := by
  have hne : ∀ {d : Char}, d.isDigit → (d != '_') = true := by
    intro d hd
    by_contra hne
    obtain rfl : d = '_' := by simpa using hne
    cases hd
  induction h with
  | last hd => simp [plainDigits, hd, hne hd]
  | digit hd h ih => simpa [plainDigits, hd, hne hd] using ih
  | underscore hd h ih => simpa [plainDigits, hd, hne hd, show '_'.isDigit = false from rfl] using ih

/-- The digits of an integer are those of its text. -/
theorem Numeral.numberDigits_eq {kind : NumberKind} (h : Numeral kind u)
    (hkind : kind = .integer ∨ kind = .long) :
    numberDigits (String.ofList u) = u.filter Char.isDigit ∧ u.filter Char.isDigit ≠ [] := by
  obtain ⟨w, f, e, hw, -, -, rfl, hfractional⟩ := numeral_iff.mp h
  obtain ⟨rfl, rfl⟩ : f = [] ∧ e = [] := by
    by_contra hne
    rcases hkind with rfl | rfl <;> cases hfractional.mpr hne <;> contradiction
  have hsuffix : kind.suffix.filter Char.isDigit = [] := by
    rcases hkind with rfl | rfl <;> rfl
  obtain ⟨d, v, hd, -⟩ := hw.exists_plainDigits
  rw [List.nil_append, List.nil_append, GoloSyntax.numberDigits_eq hw.digitRun.not_suffix,
    List.filter_append, hsuffix, List.append_nil, hw.filter_isDigit]
  exact ⟨rfl, by simp [hd]⟩

/-- An integer is read as the number that its digits make. -/
theorem Numeral.readInteger?_eq {kind : NumberKind} (h : Numeral kind u)
    (hkind : kind = .integer ∨ kind = .long) :
    readInteger? (numberDigits (String.ofList u)) = some (decimalValue u : Int) := by
  obtain ⟨hdigits, hne⟩ := h.numberDigits_eq hkind
  obtain ⟨d, ds, hds⟩ := List.exists_cons_of_ne_nil hne
  have hall : ∀ c ∈ d :: ds, c.isDigit := by
    rw [← hds]
    exact fun c hc => (List.mem_filter.mp hc).2
  rw [hdigits, decimalValue, hds, readInteger?_of_isDigit hall, digitsValue_eq]

end GoloSyntax
