import GoloSyntax.Proofs.Grammar.Reads
import GoloSyntax.Proofs.Token.Tiling

/-! # Values of literals

Every literal that can be cut out of a source has a value, unless it is an integer that does not
fit its type (`Cut.exists_literal?_iff`): the text of a number holds enough digits and nothing that
does not belong to one, and a number with a fraction or an exponent is rounded, however large.
-/
namespace GoloSyntax

/-- An integer is at most 2³¹ - 1, a long integer at most 2⁶³ - 1. -/
def Lexeme.Fits (l : Lexeme) : Prop :=
  ∀ text, l.text = some text →
    (l.kind = .number .integer → digitsValue (numberDigits text) ≤ 2147483647) ∧
      (l.kind = .number .long → digitsValue (numberDigits text) ≤ 9223372036854775807)

theorem Lexeme.fits_integer_iff (text : String) :
    (⟨.number .integer, some text⟩ : Lexeme).Fits ↔
      digitsValue (numberDigits text) ≤ 2147483647 := by
  simp [Fits]

theorem Lexeme.fits_long_iff (text : String) : (⟨.number .long, some text⟩ : Lexeme).Fits ↔
    digitsValue (numberDigits text) ≤ 9223372036854775807 := by
  simp [Fits]

/-! ## Digits -/

/-- The text of a number without underscores. -/
def plainDigits (u : List Char) : List Char := u.filter (· != '_')

variable {u v : List Char}

@[simp] theorem plainDigits_append : plainDigits (u ++ v) = plainDigits u ++ plainDigits v :=
  List.filter_append _ _

theorem DigitRun.all_isDigit (h : DigitRun u) : ∀ c ∈ plainDigits u, c.isDigit := by
  intro c hc
  obtain ⟨hmem, hne⟩ := List.mem_filter.mp hc
  exact (h.chars c hmem).resolve_right (by simpa using hne)

theorem DigitRun.exists_cons (h : DigitRun u) (hne : u ≠ []) :
    ∃ d ds, plainDigits u = d :: ds ∧ d.isDigit := by
  obtain ⟨d, v, rfl⟩ := List.exists_cons_of_ne_nil hne
  have hd : d.isDigit := h.begins hne
  refine ⟨d, plainDigits v, ?_, hd⟩
  rw [plainDigits, List.filter_cons_of_pos]
  · rfl
  · simp only [bne_iff_ne, ne_eq]
    rintro rfl
    cases hd

/-- The letters of the suffix go, and the underscores. -/
theorem numberDigits_eq {kind : NumberKind} (hu : ∀ c ∈ u, c ≠ 'L' ∧ c ≠ 'F') :
    numberDigits (String.ofList (u ++ kind.suffix)) = plainDigits u := by
  have hkeep : u.reverse.dropWhile (fun c => c == 'L' || c == 'F') = u.reverse := by
    cases hrev : u.reverse with
    | nil => rfl
    | cons c v =>
      have hc := hu c (List.mem_reverse.mp (hrev ▸ List.mem_cons_self))
      rw [List.dropWhile_cons_of_neg]
      simp [hc.1, hc.2]
  have hunderscore (v : List Char) : ('_' :: v).dropWhile (fun c => c == 'L' || c == 'F') =
      '_' :: v := rfl
  cases kind <;>
    simp [numberDigits, NumberKind.suffix, hkeep, hunderscore, plainDigits]

theorem splitSign_of_isDigit {d : Char} {ds : List Char} (hd : d.isDigit) :
    splitSign (d :: ds) = (false, d :: ds) := by
  unfold splitSign
  split
  · next heq =>
    obtain ⟨rfl, -⟩ := List.cons.inj heq
    cases hd
  · next heq =>
    obtain ⟨rfl, -⟩ := List.cons.inj heq
    cases hd
  · rfl

theorem readInteger?_of_isDigit {d : Char} {ds : List Char} (h : ∀ c ∈ d :: ds, c.isDigit) :
    readInteger? (d :: ds) = some (digitsValue (d :: ds) : Int) := by
  have hall : (d :: ds).all Char.isDigit := List.all_eq_true.mpr h
  simp [readInteger?, splitSign_of_isDigit (h d List.mem_cons_self), hall]

theorem fitInteger?_isSome_32 (n : Nat) : (fitInteger? 32 n).isSome ↔ n ≤ 2147483647 := by
  have hpow : Int.pow 2 (32 - 1) = 2147483648 := rfl
  rw [fitInteger?, hpow]
  split <;> simp <;> omega

theorem fitInteger?_isSome_64 (n : Nat) : (fitInteger? 64 n).isSome ↔ n ≤ 9223372036854775807 := by
  have hpow : Int.pow 2 (64 - 1) = 9223372036854775808 := rfl
  rw [fitInteger?, hpow]
  split <;> simp <;> omega

/-! ## Fractions and exponents -/

/-- What an exponent may be written as, without underscores. -/
inductive ExponentText : List Char → Prop where
  | none : ExponentText []
  | some {e d : Char} {sign ds : List Char} (he : e = 'e' ∨ e = 'E')
      (hsign : sign = [] ∨ sign = ['+'] ∨ sign = ['-']) (hds : ∀ c ∈ d :: ds, c.isDigit) :
    ExponentText (e :: (sign ++ d :: ds))

/-- The exponent that a text is read as. -/
def readExponentOf (u : List Char) : Int :=
  if '-' ∈ u then -(Decimal.exponentValue (u.filter Char.isDigit) : Int)
  else Decimal.exponentValue (u.filter Char.isDigit)

theorem isDigit_minus_not_mem (hu : ∀ c ∈ u, c.isDigit) : '-' ∉ u := by
  intro hmem
  cases hu '-' hmem

theorem readExponent?_eq {d : Char} {sign ds : List Char}
    (hsign : sign = [] ∨ sign = ['+'] ∨ sign = ['-']) (hds : ∀ c ∈ d :: ds, c.isDigit) :
    Decimal.readExponent? (sign ++ d :: ds) = some (readExponentOf (sign ++ d :: ds)) := by
  have hall : (d :: ds).all Char.isDigit := List.all_eq_true.mpr hds
  have hfilter : (d :: ds).filter Char.isDigit = d :: ds := List.filter_eq_self.mpr hds
  have hminus := isDigit_minus_not_mem hds
  rcases hsign with rfl | rfl | rfl
  · have hsplit : splitSign (d :: ds) = (false, d :: ds) :=
      splitSign_of_isDigit (hds d List.mem_cons_self)
    simp only [Decimal.readExponent?, List.nil_append, hsplit, hall, readExponentOf, hfilter,
      if_neg hminus]
    rfl
  · have hfilter' : ('+' :: d :: ds).filter Char.isDigit = d :: ds := hfilter
    have hminus' : '-' ∉ '+' :: d :: ds := by simpa using hminus
    simp only [Decimal.readExponent?, List.cons_append, List.nil_append, splitSign, hall,
      readExponentOf, hfilter', if_neg hminus']
    rfl
  · have hfilter' : ('-' :: d :: ds).filter Char.isDigit = d :: ds := hfilter
    simp only [Decimal.readExponent?, List.cons_append, List.nil_append, splitSign, hall,
      readExponentOf, hfilter', if_pos List.mem_cons_self]
    rfl

theorem ExponentText.head_not_isDigit (h : ExponentText u) : u.head?.all (!·.isDigit) := by
  cases h with
  | none => rfl
  | some he => rcases he with rfl | rfl <;> rfl

theorem takeWhile_isDigit (hu : ∀ c ∈ u, c.isDigit) (hv : v.head?.all (!·.isDigit)) :
    (u ++ v).takeWhile Char.isDigit = u ∧ (u ++ v).dropWhile Char.isDigit = v := by
  rw [List.takeWhile_append_of_pos hu, List.dropWhile_append_of_pos hu]
  cases v with
  | nil => simp
  | cons c v => simp_all

/-- Digits with a fraction and an exponent, or without, are a number of any format. -/
theorem readFloating?_eq (f : FloatFormat) {d : Char} {ds fraction exponent : List Char}
    (hds : ∀ c ∈ d :: ds, c.isDigit)
    (hfraction : fraction = [] ∨ ∃ es, fraction = '.' :: es ∧ ∀ c ∈ es, c.isDigit)
    (hexponent : ExponentText exponent) :
    readFloating? f (d :: ds ++ (fraction ++ exponent)) =
      some (Decimal.toFloating f ⟨false, digitsValue (d :: ds ++ fraction.filter Char.isDigit),
        readExponentOf exponent - (fraction.filter Char.isDigit).length⟩) := by
  have hhead : (fraction ++ exponent).head?.all (!·.isDigit) := by
    rcases hfraction with rfl | ⟨es, rfl, -⟩
    · exact hexponent.head_not_isDigit
    · rfl
  obtain ⟨htake, hdrop⟩ := takeWhile_isDigit hds hhead
  have hsplit : Decimal.splitFraction (fraction ++ exponent) =
      (fraction.filter Char.isDigit, exponent) := by
    rcases hfraction with rfl | ⟨es, rfl, hes⟩
    · cases hexponent with
      | none => rfl
      | some he => rcases he with rfl | rfl <;> rfl
    · obtain ⟨htake, hdrop⟩ := takeWhile_isDigit hes hexponent.head_not_isDigit
      have hfilter : ('.' :: es).filter Char.isDigit = es := List.filter_eq_self.mpr hes
      rw [List.cons_append, Decimal.splitFraction, htake, hdrop, hfilter]
  have hunsigned : Decimal.readUnsigned? false (d :: ds ++ (fraction ++ exponent)) =
      some ⟨false, digitsValue (d :: ds ++ fraction.filter Char.isDigit),
        readExponentOf exponent - (fraction.filter Char.isDigit).length⟩ := by
    simp only [Decimal.readUnsigned?, htake, hdrop, hsplit]
    cases hexponent with
    | none => rfl
    | @some e d' sign es he hsign hes =>
      have hletter : readExponentOf (e :: (sign ++ d' :: es)) =
          readExponentOf (sign ++ d' :: es) := by
        rcases he with rfl | rfl <;> simp [readExponentOf]
      simp [he, readExponent?_eq hsign hes, hletter]
  have hsign : splitSign (d :: (ds ++ (fraction ++ exponent))) =
      (false, d :: (ds ++ (fraction ++ exponent))) := splitSign_of_isDigit (hds d List.mem_cons_self)
  rw [List.cons_append] at hunsigned ⊢
  simp only [readFloating?, hsign, hunsigned, List.cons_append]

/-! ## Literals -/

theorem DigitRun.not_suffix (h : DigitRun u) : ∀ c ∈ u, c ≠ 'L' ∧ c ≠ 'F' := by
  intro c hc
  rcases h.chars c hc with hd | rfl
  · refine ⟨?_, ?_⟩ <;>
    · rintro rfl
      cases hd
  · decide

/-- A fraction is not taken for a suffix, and keeps its point. -/
theorem DigitRun.point (h : DigitRun u) : (∀ c ∈ '.' :: u, c ≠ 'L' ∧ c ≠ 'F') ∧
    ∃ es, plainDigits ('.' :: u) = '.' :: es ∧ ∀ c ∈ es, c.isDigit :=
  ⟨List.forall_mem_cons.mpr ⟨by decide, h.not_suffix⟩, plainDigits u, rfl, h.all_isDigit⟩

/-- An exponent is not taken for a suffix, and keeps its letter and its sign. -/
theorem DigitRun.letter {e : Char} {sign : List Char} (h : DigitRun u) (hne : u ≠ [])
    (he : e = 'e' ∨ e = 'E') (hsign : sign = [] ∨ sign = ['+'] ∨ sign = ['-']) :
    (∀ c ∈ e :: (sign ++ u), c ≠ 'L' ∧ c ≠ 'F') ∧ ExponentText (plainDigits (e :: (sign ++ u))) := by
  obtain ⟨d, ds, hds, -⟩ := h.exists_cons hne
  have hletter : e ≠ 'L' ∧ e ≠ 'F' := by rcases he with rfl | rfl <;> simp
  have hsign' : ∀ c ∈ sign, c ≠ 'L' ∧ c ≠ 'F' := by rcases hsign with rfl | rfl | rfl <;> simp
  have hplain : plainDigits (e :: (sign ++ u)) = e :: (sign ++ d :: ds) := by
    rw [← hds]
    rcases he with rfl | rfl <;> rcases hsign with rfl | rfl | rfl <;> rfl
  rw [hplain]
  exact ⟨List.forall_mem_cons.mpr ⟨hletter, List.forall_mem_append.mpr ⟨hsign', h.not_suffix⟩⟩,
    .some he hsign (hds ▸ h.all_isDigit)⟩

/-- The digits of a number: some in front, a fraction, an exponent. -/
theorem NumberText.exists_digits {kind : NumberKind} (h : NumberText kind u) :
    ∃ d ds fraction exponent,
      numberDigits (String.ofList u) = d :: ds ++ (fraction ++ exponent) ∧
      (∀ c ∈ d :: ds, c.isDigit) ∧
      (fraction = [] ∨ ∃ es, fraction = '.' :: es ∧ ∀ c ∈ es, c.isDigit) ∧
      ExponentText exponent ∧
      (kind = .integer ∨ kind = .long → fraction = [] ∧ exponent = []) := by
  obtain ⟨whole, fraction, exponent, rfl, hwhole, hne, hfraction, hexponent, hkind⟩ := h.parts
  have hfraction' : (∀ c ∈ fraction, c ≠ 'L' ∧ c ≠ 'F') ∧ (plainDigits fraction = [] ∨
      ∃ es, plainDigits fraction = '.' :: es ∧ ∀ c ∈ es, c.isDigit) := by
    rcases hfraction with rfl | ⟨es, rfl, hes, -⟩
    · exact ⟨nofun, .inl rfl⟩
    · exact hes.point.imp_right .inr
  have hexponent' : (∀ c ∈ exponent, c ≠ 'L' ∧ c ≠ 'F') ∧ ExponentText (plainDigits exponent) := by
    rcases hexponent with rfl | ⟨e, sign, es, rfl, he, hsign, hes, hes'⟩
    · exact ⟨nofun, .none⟩
    · exact hes.letter hes' he hsign
  obtain ⟨d, ds, hds, -⟩ := hwhole.exists_cons hne
  refine ⟨d, ds, plainDigits fraction, plainDigits exponent, ?_, hds ▸ hwhole.all_isDigit,
    hfraction'.2, hexponent'.2, fun hinteger => ?_⟩
  · rw [numberDigits_eq, plainDigits_append, plainDigits_append, hds, List.append_assoc]
    simp only [List.forall_mem_append]
    exact ⟨⟨hwhole.not_suffix, hfraction'.1⟩, hexponent'.1⟩
  · obtain ⟨rfl, rfl⟩ := hkind hinteger
    exact ⟨rfl, rfl⟩

/-- A number has a value, unless it is an integer that is too large. -/
theorem NumberText.ofNumber?_isSome {kind : NumberKind} (h : NumberText kind u) :
    (Literal.ofNumber? kind (String.ofList u)).isSome ↔
      (⟨.number kind, some (String.ofList u)⟩ : Lexeme).Fits := by
  obtain ⟨d, ds, fraction, exponent, hdigits, hds, hfraction, hexponent, hinteger⟩ := h.exists_digits
  cases kind with
  | integer =>
    obtain ⟨rfl, rfl⟩ := hinteger (.inl rfl)
    rw [List.append_nil, List.append_nil] at hdigits
    rw [Lexeme.fits_integer_iff, Literal.ofNumber?, hdigits, readInteger?_of_isDigit hds,
      Option.bind_some, Option.isSome_map, fitInteger?_isSome_32]
  | long =>
    obtain ⟨rfl, rfl⟩ := hinteger (.inr rfl)
    rw [List.append_nil, List.append_nil] at hdigits
    rw [Lexeme.fits_long_iff, Literal.ofNumber?, hdigits, readInteger?_of_isDigit hds,
      Option.bind_some, Option.isSome_map, fitInteger?_isSome_64]
  | float =>
    rw [Literal.ofNumber?, hdigits, readFloating?_eq _ hds hfraction hexponent]
    exact iff_of_true rfl fun _ _ => ⟨nofun, nofun⟩
  | double =>
    rw [Literal.ofNumber?, hdigits, readFloating?_eq _ hds hfraction hexponent]
    exact iff_of_true rfl fun _ _ => ⟨nofun, nofun⟩

/-- A literal of a source has a value, unless it is an integer that is too large. -/
theorem Cut.exists_literal?_iff {l : Lexeme} (h : Cut v u l) (hl : l.kind.isLiteral) :
    (∃ value, l.literal? = some value) ↔ l.Fits := by
  cases h with
  | newline | mark => cases hl
  | number hu =>
    rw [← hu.ofNumber?_isSome, Option.isSome_iff_exists]
    rfl
  | string => simp [Lexeme.literal?, Lexeme.Fits]
  | character => simp [Lexeme.literal?, Lexeme.Fits]
  | word hstart hall hv =>
    rcases Lexeme.kind_ofWord (String.ofList u) with ⟨k, hk, -⟩ | ⟨hk, -⟩
    · rw [hk] at hl ⊢
      cases k <;> first | (simp [Lexeme.literal?, Lexeme.Fits]; done) | cases hl
    · rw [hk] at hl
      cases hl

end GoloSyntax
