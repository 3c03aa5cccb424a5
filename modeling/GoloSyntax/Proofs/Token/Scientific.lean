import GoloSyntax.Proofs.Number.Rounding
import GoloSyntax.Proofs.Token.Numbers

/-! # What numbers with a fraction or an exponent stand for

`scientific` gives the number that digits, a fraction and an exponent stand for, and
`Amounts` the value of a format that is made of it.  Such a number always has a value, and the
value is the nearest one (`Numeral.exists_amounts`), however large the exponent is: what is read of
an exponent is enough to tell, unless it is outweighed by the digits (`Outweighs`).
-/
namespace GoloSyntax

/-- The format of the values of a kind. -/
def NumberKind.format : NumberKind → FloatFormat
  | .float => .single
  | _ => .double

/-- The literal of a single or double value. -/
def NumberKind.floating : NumberKind → Floating → Literal
  | .float => .float
  | _ => .double

/-- The whole number that an exponent stands for. -/
def exponentOf (e : List Char) : Int := if '-' ∈ e then -(decimalValue e : Int) else decimalValue e

/-- The decimal that digits, a fraction and an exponent stand for. -/
def decimalOf (w f e : List Char) : Decimal :=
  ⟨false, decimalValue (w ++ f), exponentOf e - (f.filter Char.isDigit).length⟩

/-- The number that digits, a fraction and an exponent stand for. -/
def scientific (w f e : List Char) : ℚ :=
  decimalValue (w ++ f) * 10 ^ (exponentOf e - (f.filter Char.isDigit).length)

/-- An exponent that is not read to its end and so many digits that this may matter. -/
def Outweighs (w f e : List Char) : Prop :=
  Decimal.exponentCap < (w ++ f).length + 500 ∧ Decimal.exponentCap ≤ decimalValue e

/-- The value of a number with a fraction or an exponent that is written as `u`. -/
inductive Amounts (kind : NumberKind) : List Char → Floating → Prop where
  | intro {w f e : List Char} {value : Floating} (hw : Digits w) (hf : Fraction f)
      (he : Exponent e) (hne : ¬ (f = [] ∧ e = []))
      (hvalue : ¬ Outweighs w f e → kind.format.Rounds (scientific w f e) value) :
      Amounts kind (w ++ (f ++ (e ++ kind.suffix))) value

theorem NumberKind.usual_format (kind : NumberKind) : kind.format.Usual := by
  cases kind with
  | float => exact FloatFormat.usual_single
  | _ => exact FloatFormat.usual_double

variable {kind : NumberKind} {w f e u : List Char}

/-! ## Digits -/

theorem filter_plainDigits (u : List Char) :
    (plainDigits u).filter Char.isDigit = u.filter Char.isDigit := by
  rw [plainDigits, List.filter_filter]
  refine List.filter_congr fun c _ => ?_
  by_cases hc : c = '_'
  · subst hc
    rfl
  · simp [hc]

theorem decimalValue_lt (u : List Char) : decimalValue u < 10 ^ (u.filter Char.isDigit).length := by
  have hdigit : ∀ n ∈ (u.filter Char.isDigit).reverse.map fun d => d.toNat - '0'.toNat, n < 10 := by
    intro n hn
    obtain ⟨d, hd, rfl⟩ := List.mem_map.mp hn
    have hd := (List.mem_filter.mp (List.mem_reverse.mp hd)).2
    simp only [Char.isDigit, Bool.and_eq_true, decide_eq_true_eq] at hd
    have hle : d.toNat ≤ 57 := hd.2
    have hzero : '0'.toNat = 48 := rfl
    omega
  simpa [decimalValue] using Nat.ofDigits_lt_base_pow_length (by norm_num) hdigit

/-- An exponent is read to its end, or what is read of it and all of it are beyond the cap. -/
theorem exponentValue_or (ds : List Char) :
    Decimal.exponentValue ds = digitsValue ds ∨
      Decimal.exponentCap ≤ Decimal.exponentValue ds ∧ Decimal.exponentCap ≤ digitsValue ds := by
  induction ds using List.reverseRecOn with
  | nil => exact .inl rfl
  | append_singleton ds d ih =>
    have hstep : Decimal.exponentValue (ds ++ [d]) =
        if Decimal.exponentValue ds < Decimal.exponentCap then
          10 * Decimal.exponentValue ds + (d.toNat - '0'.toNat)
        else Decimal.exponentValue ds := by
      simp [Decimal.exponentValue]
    rw [hstep, digitsValue_concat]
    split <;> omega

/-! ## Large exponents -/

/-- A decimal that is far too large or too small for a format is so for every such exponent. -/
theorem Decimal.toFloating_of_far {format : FloatFormat} {digits : Nat} {x y : Int}
    (h : digits ≠ 0 → 400 < x + (Nat.repr digits).length ∧ 400 < y + (Nat.repr digits).length ∨
      x + (Nat.repr digits).length < -400 ∧ y + (Nat.repr digits).length < -400) :
    Decimal.toFloating format ⟨false, digits, x⟩ = Decimal.toFloating format ⟨false, digits, y⟩ := by
  by_cases hdigits : digits = 0
  · simp [Decimal.toFloating, hdigits]
  · have hbeyond (z : Int) (hz : 400 < z + (Nat.repr digits).length) :
        Decimal.toFloating format ⟨false, digits, z⟩ = .infinite false := by
      have hsmall : ¬ (digits = 0 ∨ z + (Nat.repr digits).length < -400) := by omega
      simp only [Decimal.toFloating, if_neg hsmall, gt_iff_lt, if_pos hz]
    have hbelow (z : Int) (hz : z + (Nat.repr digits).length < -400) :
        Decimal.toFloating format ⟨false, digits, z⟩ = format.round false 0 1 := by
      simp only [Decimal.toFloating, if_pos (Or.inr hz : digits = 0 ∨ _)]
    rcases h hdigits with ⟨hx, hy⟩ | ⟨hx, hy⟩
    · rw [hbeyond x hx, hbeyond y hy]
    · rw [hbelow x hx, hbelow y hy]

/-- That an exponent is not read to its end changes nothing, unless it is outweighed. -/
theorem toFloating_readExponentOf (format : FloatFormat) (h : ¬ Outweighs w f e) :
    Decimal.toFloating format ⟨false, decimalValue (w ++ f),
        readExponentOf e - (f.filter Char.isDigit).length⟩ =
      (decimalOf w f e).toFloating format := by
  rcases exponentValue_or (e.filter Char.isDigit) with heq | ⟨hread, hall⟩
  · rw [readExponentOf, heq, ← decimalValue_eq]
    rfl
  · -- An exponent beyond the cap decides on its own, however the digits in front are placed.
    rw [← decimalValue_eq] at hall
    have hshort : (w ++ f).length + 500 ≤ Decimal.exponentCap := by
      by_contra hlong
      exact h ⟨not_le.mp hlong, hall⟩
    have hfraction : (f.filter Char.isDigit).length ≤ f.length := List.length_filter_le _ _
    refine Decimal.toFloating_of_far fun hdigits => ?_
    have hlength : (Nat.repr (decimalValue (w ++ f))).length ≤ (w ++ f).length := by
      have hne : (w ++ f).filter Char.isDigit ≠ [] := by
        intro hnil
        rw [decimalValue, hnil] at hdigits
        exact hdigits rfl
      exact ((Nat.length_repr_le_iff (List.length_pos_iff.mpr hne)).mpr (decimalValue_lt _)).trans
        (List.length_filter_le _ _)
    have hpos : 0 < (Nat.repr (decimalValue (w ++ f))).length := Nat.length_repr_pos
    rw [List.length_append] at hshort hlength
    rw [readExponentOf, exponentOf]
    split
    · right
      omega
    · left
      omega

/-! ## Reading a number -/

theorem Fraction.plain (h : Fraction f) : (∀ c ∈ f, c ≠ 'L' ∧ c ≠ 'F') ∧
    (plainDigits f = [] ∨ ∃ es, plainDigits f = '.' :: es ∧ ∀ c ∈ es, c.isDigit) := by
  cases h with
  | nil => exact ⟨nofun, .inl rfl⟩
  | point h => exact h.digitRun.point.imp_right .inr

theorem Exponent.plain (h : Exponent e) :
    (∀ c ∈ e, c ≠ 'L' ∧ c ≠ 'F') ∧ ExponentText (plainDigits e) := by
  cases h with
  | nil => exact ⟨nofun, .none⟩
  | letter he hsign h => exact h.digitRun.letter h.ne_nil he hsign

theorem readExponentOf_plainDigits (e : List Char) :
    readExponentOf (plainDigits e) = readExponentOf e := by
  have hminus : '-' ∈ plainDigits e ↔ '-' ∈ e := by simp [plainDigits]
  simp only [readExponentOf, filter_plainDigits, hminus]

/-- Digits with a fraction or an exponent have the value of the decimal that they are. -/
theorem ofNumber?_of_floating (hkind : kind = .float ∨ kind = .double) (hw : Digits w)
    (hf : Fraction f) (he : Exponent e) :
    Literal.ofNumber? kind (String.ofList (w ++ (f ++ (e ++ kind.suffix)))) =
      some (kind.floating (Decimal.toFloating kind.format ⟨false, decimalValue (w ++ f),
        readExponentOf e - (f.filter Char.isDigit).length⟩)) := by
  obtain ⟨d, ds, hds, -⟩ := hw.exists_plainDigits
  obtain ⟨hfraction, hplain⟩ := hf.plain
  obtain ⟨hexponent, htext⟩ := he.plain
  have hdigits : numberDigits (String.ofList (w ++ (f ++ (e ++ kind.suffix)))) =
      d :: ds ++ (plainDigits f ++ plainDigits e) := by
    rw [← List.append_assoc, ← List.append_assoc, numberDigits_eq, plainDigits_append,
      plainDigits_append, hds, List.append_assoc]
    simp only [List.forall_mem_append]
    exact ⟨⟨hw.digitRun.not_suffix, hfraction⟩, hexponent⟩
  have hvalue : digitsValue (d :: ds ++ f.filter Char.isDigit) = decimalValue (w ++ f) := by
    rw [decimalValue_eq, List.filter_append, hw.filter_isDigit, hds]
  have hread (format : FloatFormat) := readFloating?_eq format
    (hds ▸ hw.digitRun.all_isDigit) hplain htext
  simp only [filter_plainDigits, readExponentOf_plainDigits, hvalue] at hread
  rcases hkind with rfl | rfl <;>
  · rw [Literal.ofNumber?, hdigits, hread]
    rfl

/-- A number with a fraction or an exponent has a value, the one that it amounts to. -/
theorem Numeral.exists_amounts (h : Numeral kind u) (hkind : kind = .float ∨ kind = .double) :
    ∃ value, Amounts kind u value ∧
      Literal.ofNumber? kind (String.ofList u) = some (kind.floating value) := by
  obtain ⟨w, f, e, hw, hf, he, rfl, hfractional⟩ := numeral_iff.mp h
  refine ⟨_, .intro hw hf he (hfractional.mp hkind) fun houtweighs => ?_,
    ofNumber?_of_floating hkind hw hf he⟩
  rw [toFloating_readExponentOf _ houtweighs]
  exact (decimalOf w f e).rounds_toFloating kind.usual_format rfl

end GoloSyntax
