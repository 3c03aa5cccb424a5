import GoloSyntax.Number.Decimal
import Mathlib.Algebra.Order.Field.Basic
import Mathlib.Algebra.Order.Field.Power
import Mathlib.Algebra.Order.Ring.Abs
import Mathlib.Data.Rat.Cast.Order
import Mathlib.Tactic.FieldSimp
import Mathlib.Tactic.Linarith
import Mathlib.Tactic.NormNum.Pow
import Mathlib.Tactic.Ring

/-! # Rounding

`FloatFormat.Rounds` says which value of a format a number rounds to: the nearest one, of two that
are equally near the even one, and infinity from `FloatFormat.overflow` on, which lies halfway
between the largest finite value and what the next one would be.  That is what
`FloatFormat.round` makes of a quotient (`FloatFormat.rounds_round`) and `Decimal.toFloating` of a
decimal (`Decimal.rounds_toFloating`).

Everything is measured on a grid of whole multiples of a power of two.  A quotient is rounded on
the grid on which its leading bit becomes that of the significand, and the values that are not on
this grid are all too small to be nearer.
-/
namespace GoloSyntax

/-- `m * 2 ^ e` is a finite value of a format. -/
structure FloatFormat.Holds (f : FloatFormat) (m : Nat) (e : Int) : Prop where
  significand : m < 2 ^ f.precision
  least : f.minExponent ≤ e
  largest : e ≤ f.maxExponent

/-- From here on numbers round to infinity. -/
def FloatFormat.overflow (f : FloatFormat) : ℚ :=
  (2 ^ (f.precision + 1) - 1) * 2 ^ (f.maxExponent - 1)

/-- A number without sign is rounded to a value of a format. -/
inductive FloatFormat.Rounds (f : FloatFormat) (x : ℚ) : Floating → Prop where
  | finite {m : Nat} {e : Int} (hx : x < f.overflow) (hholds : f.Holds m e)
      (hnormal : e = f.minExponent ∨ 2 ^ (f.precision - 1) ≤ m)
      (hnearest : ∀ m' e', f.Holds m' e' → |(m : ℚ) * 2 ^ e - x| ≤ |(m' : ℚ) * 2 ^ e' - x|)
      (heven : ∀ m' e', f.Holds m' e' → |(m : ℚ) * 2 ^ e - x| = |(m' : ℚ) * 2 ^ e' - x| →
        (m : ℚ) * 2 ^ e = m' * 2 ^ e' ∨ Even m) :
      Rounds f x (.finite false m e)
  | infinite (hx : f.overflow ≤ x) : Rounds f x (.infinite false)

variable {num den : Nat} {e : Int} {x : ℚ}

/-! ## Quotients -/

theorem two_pow_mul_zpow (n : Nat) (e : Int) : (2 : ℚ) ^ n * 2 ^ e = 2 ^ (n + e) := by
  rw [zpow_add₀ two_ne_zero, zpow_natCast]

theorem scaleBinary_ratio (num : Nat) (hden : 0 < den) (e : Int) :
    0 < (scaleBinary num den e).2 ∧
      ((scaleBinary num den e).1 : ℚ) / (scaleBinary num den e).2 = num / den * 2 ^ e := by
  by_cases he : e < 0
  · have hpow : (2 : ℚ) ^ e = ((2 : ℚ) ^ (-e).toNat)⁻¹ := by
      rw [← zpow_natCast, Int.toNat_of_nonneg (by omega), zpow_neg, inv_inv]
    rw [scaleBinary, if_pos he]
    refine ⟨Nat.mul_pos hden (Nat.two_pow_pos _), ?_⟩
    rw [hpow, ← div_eq_mul_inv, div_div]
    simp
  · have hpow : (2 : ℚ) ^ e = 2 ^ e.toNat := by
      rw [← zpow_natCast, Int.toNat_of_nonneg (by omega)]
    rw [scaleBinary, if_neg he]
    refine ⟨hden, ?_⟩
    simp [hpow, div_eq_mul_inv, mul_right_comm]

theorem log2_bounds {n : Nat} (hn : 0 < n) :
    (2 : ℚ) ^ (n.log2 : Int) ≤ n ∧ (n : ℚ) < 2 ^ ((n.log2 : Int) + 1) := by
  constructor
  · rw [zpow_natCast]
    exact_mod_cast Nat.log2_self_le hn.ne'
  · rw [← Nat.cast_succ, zpow_natCast]
    exact_mod_cast Nat.lt_log2_self

/-- The logarithms of numerator and denominator give the exponent, or one more. -/
theorem binaryExponent_bounds (hnum : 0 < num) (hden : 0 < den) :
    (2 : ℚ) ^ binaryExponent num den ≤ num / den ∧
      (num / den : ℚ) < 2 ^ (binaryExponent num den + 1) := by
  set e : Int := num.log2 - den.log2 with he
  have hden' : (0 : ℚ) < den := Nat.cast_pos.mpr hden
  obtain ⟨hnumLow, hnumHigh⟩ := log2_bounds hnum
  obtain ⟨hdenLow, hdenHigh⟩ := log2_bounds hden
  have hlow : (2 : ℚ) ^ (e - 1) ≤ num / den := by
    rw [show e - 1 = num.log2 - (den.log2 + 1) by omega, zpow_sub₀ two_ne_zero]
    gcongr
  have hhigh : (num / den : ℚ) < 2 ^ (e + 1) := by
    rw [show e + 1 = num.log2 + 1 - den.log2 by omega, zpow_sub₀ two_ne_zero]
    gcongr
  obtain ⟨hunit, hratio⟩ := scaleBinary_ratio num hden (-e)
  have hcompare : (scaleBinary num den (-e)).1 < (scaleBinary num den (-e)).2 ↔
      (num / den : ℚ) < 2 ^ e := by
    rw [← Nat.cast_lt (α := ℚ), ← div_lt_one (Nat.cast_pos.mpr hunit), hratio, zpow_neg,
      ← div_eq_mul_inv, div_lt_one (zpow_pos two_pos _)]
  simp only [binaryExponent, ← he, hcompare]
  split
  · next hlt => exact ⟨hlow, by rwa [sub_add_cancel]⟩
  · next hle => exact ⟨not_lt.mp hle, hhigh⟩

/-- Rounding goes to a whole number that is at most half away, and to an even one if it is half
away. -/
theorem roundHalfEven_half (num : Nat) (hden : 0 < den) :
    |(roundHalfEven num den : ℚ) - num / den| ≤ 1 / 2 ∧
      (|(roundHalfEven num den : ℚ) - num / den| = 1 / 2 → Even (roundHalfEven num den)) := by
  have hden' : (0 : ℚ) < den := Nat.cast_pos.mpr hden
  set q := num / den with hq
  set t : ℚ := ((num % den : Nat) : ℚ) / den with ht
  have hparts : (num / den : ℚ) = q + t := by
    rw [ht, ← mul_div_cancel_left₀ (q : ℚ) hden'.ne', ← add_div, hq]
    exact_mod_cast congrArg (fun n : Nat => (n : ℚ) / den) (Nat.div_add_mod num den).symm
  have hlt : 2 * (num % den) < den ↔ t < 1 / 2 := by
    rw [ht, div_lt_div_iff₀ hden' two_pos]
    exact_mod_cast Iff.intro (fun h => by linarith) fun h => by linarith
  have hgt : 2 * (num % den) > den ↔ 1 / 2 < t := by
    rw [ht, div_lt_div_iff₀ two_pos hden']
    exact_mod_cast Iff.intro (fun h => by linarith) fun h => by linarith
  have hnonneg : 0 ≤ t := by positivity
  have hone : t < 1 := by
    rw [ht, div_lt_one hden']
    exact_mod_cast Nat.mod_lt num hden
  simp only [roundHalfEven, ← hq, hlt, hgt, hparts]
  split
  · next hless =>
    have hdist : |(q : ℚ) - (q + t)| = t := by rw [sub_add_cancel_left, abs_neg, abs_of_nonneg hnonneg]
    rw [hdist]
    exact ⟨hless.le, fun h => absurd h hless.ne⟩
  · split
    · next hmore =>
      have hdist : |((q + 1 : Nat) : ℚ) - (q + t)| = 1 - t := by
        rw [Nat.cast_succ, add_sub_add_left_eq_sub, abs_of_pos (sub_pos.mpr hone)]
      rw [hdist]
      exact ⟨by linarith, fun h => by linarith⟩
    · next hless hmore =>
      have hhalf : t = 1 / 2 := le_antisymm (not_lt.mp hmore) (not_lt.mp hless)
      have heven : Even (q + q % 2) := Nat.even_iff.mpr (by omega)
      refine ⟨?_, fun _ => heven⟩
      rw [hhalf, Nat.cast_add, add_sub_add_left_eq_sub]
      rcases Nat.mod_two_eq_zero_or_one q with hmod | hmod <;> norm_num [hmod, abs_le]

/-! ## The nearest value of a format -/

/-- What is at most half away from a number on a grid is the nearest on it. -/
theorem dist_le_of_half {y : ℚ} {m : Nat} (h : |(m : ℚ) - y| ≤ 1 / 2) (k : Nat) :
    |(m : ℚ) - y| ≤ |(k : ℚ) - y| ∧
      (|(m : ℚ) - y| = |(k : ℚ) - y| → m = k ∨ |(m : ℚ) - y| = 1 / 2) := by
  by_cases hk : m = k
  · subst hk
    exact ⟨le_rfl, fun _ => .inl rfl⟩
  · have hone : (1 : ℚ) ≤ |(m : ℚ) - k| := by
      have hint : (1 : Int) ≤ |(m : Int) - k| := Int.one_le_abs (by omega)
      exact_mod_cast hint
    have htriangle : |(m : ℚ) - k| ≤ |(m : ℚ) - y| + |(k : ℚ) - y| := by
      rw [abs_sub_comm (k : ℚ) y]
      exact abs_sub_le _ _ _
    exact ⟨by linarith, fun heq => .inr (by linarith)⟩

/-- Distances on a grid. -/
theorem dist_grid (a x : ℚ) (e : Int) : |a * 2 ^ e - x| = |a - x / 2 ^ e| * 2 ^ e := by
  have hpos : (0 : ℚ) < 2 ^ e := zpow_pos two_pos e
  rw [← abs_of_pos hpos, ← abs_mul, abs_of_pos hpos, sub_mul, div_mul_cancel₀ _ hpos.ne']

variable {f : FloatFormat} {m m' : Nat} {e' : Int}

/-- No value of a format is nearer than what is at most half away on a grid, if the number is so
large that every value of the format next to it stands on this grid. -/
theorem FloatFormat.nearest_of_half (hprecision : 0 < f.precision)
    (hhalf : |(m : ℚ) - x / 2 ^ e| ≤ 1 / 2)
    (hnormal : e = f.minExponent ∨ (2 : ℚ) ^ (f.precision - 1) * 2 ^ e ≤ x) (h : f.Holds m' e') :
    |(m : ℚ) * 2 ^ e - x| ≤ |(m' : ℚ) * 2 ^ e' - x| ∧
      (|(m : ℚ) * 2 ^ e - x| = |(m' : ℚ) * 2 ^ e' - x| →
        (m : ℚ) * 2 ^ e = m' * 2 ^ e' ∨ |(m : ℚ) - x / 2 ^ e| = 1 / 2) := by
  have hpos : (0 : ℚ) < 2 ^ e := zpow_pos two_pos e
  by_cases he : e ≤ e'
  -- The value stands on the grid.
  · have hgrid : (m' : ℚ) * 2 ^ e' = (m' * 2 ^ (e' - e).toNat : Nat) * 2 ^ e := by
      rw [Nat.cast_mul, Nat.cast_pow, Nat.cast_ofNat, ← zpow_natCast,
        Int.toNat_of_nonneg (by omega), mul_assoc, ← zpow_add₀ two_ne_zero, sub_add_cancel]
    obtain ⟨hle, heq⟩ := dist_le_of_half hhalf (m' * 2 ^ (e' - e).toNat)
    rw [hgrid, dist_grid, dist_grid]
    refine ⟨mul_le_mul_of_nonneg_right hle hpos.le, fun h => ?_⟩
    refine (heq (mul_right_cancel₀ hpos.ne' h)).imp_left fun hm => ?_
    rw [← hm]
  -- The value is below the least normal value of the grid, which is at most the number.
  · have hx : (2 : ℚ) ^ (f.precision - 1) * 2 ^ e ≤ x :=
      hnormal.resolve_left fun hleast => he (hleast ▸ h.least)
    have hbelow : (m' : ℚ) * 2 ^ e' < 2 ^ (f.precision - 1) * 2 ^ e := by
      have hm' : (m' : ℚ) < 2 ^ f.precision := by exact_mod_cast h.significand
      calc (m' : ℚ) * 2 ^ e' < 2 ^ f.precision * 2 ^ e' :=
            mul_lt_mul_of_pos_right hm' (zpow_pos two_pos e')
        _ ≤ 2 ^ f.precision * 2 ^ (e - 1) := by
            gcongr
            · norm_num
            · omega
        _ = 2 ^ (f.precision - 1) * 2 ^ e := by
            rw [two_pow_mul_zpow, two_pow_mul_zpow]
            congr 1
            omega
    have hlt : |(m : ℚ) * 2 ^ e - x| < |(m' : ℚ) * 2 ^ e' - x| := by
      have hleast := (dist_le_of_half hhalf (2 ^ (f.precision - 1))).1
      calc |(m : ℚ) * 2 ^ e - x| ≤ |((2 ^ (f.precision - 1) : Nat) : ℚ) * 2 ^ e - x| := by
            rw [dist_grid, dist_grid]
            exact mul_le_mul_of_nonneg_right hleast hpos.le
        _ = x - 2 ^ (f.precision - 1) * 2 ^ e := by
            rw [Nat.cast_pow, Nat.cast_ofNat, abs_sub_comm, abs_of_nonneg (sub_nonneg.mpr hx)]
        _ < x - m' * 2 ^ e' := by linarith
        _ ≤ |(m' : ℚ) * 2 ^ e' - x| := by
            rw [abs_sub_comm]
            exact le_abs_self _
    exact ⟨hlt.le, fun h => absurd h hlt.ne⟩

/-! ## Rounding a quotient -/

/-- What the formats in use have in common: they tell halves from wholes, and powers of ten that
no value comes near to are settled by their size. -/
structure FloatFormat.Usual (f : FloatFormat) : Prop where
  precision : 2 ≤ f.precision
  range : f.minExponent ≤ f.maxExponent
  overflow : f.maxExponent + f.precision ≤ 1200
  underflow : -1200 ≤ f.minExponent - 1

theorem FloatFormat.overflow_eq (f : FloatFormat) :
    f.overflow = (2 ^ f.precision - 1 / 2) * 2 ^ f.maxExponent := by
  rw [FloatFormat.overflow, zpow_sub_one₀ two_ne_zero]
  ring

theorem FloatFormat.overflow_le_pow (f : FloatFormat) :
    f.overflow ≤ 2 ^ f.precision * 2 ^ f.maxExponent := by
  rw [f.overflow_eq]
  exact mul_le_mul_of_nonneg_right (by linarith) (zpow_pos two_pos _).le

theorem two_pow_le_ten_pow : (2 : ℚ) ^ (1200 : Int) ≤ 10 ^ (400 : Int) := by
  have hbase : (2 : ℚ) ^ (1200 : Int) = 8 ^ (400 : Int) := by
    rw [show (8 : ℚ) = 2 ^ (3 : Int) by norm_num, ← zpow_mul]
    norm_num
  rw [hbase]
  exact zpow_le_zpow_left₀ (by norm_num) (by norm_num) (by norm_num)

theorem FloatFormat.Usual.overflow_le (hf : f.Usual) : f.overflow ≤ 10 ^ (400 : Int) := by
  refine le_trans ?_ two_pow_le_ten_pow
  calc f.overflow ≤ 2 ^ f.precision * 2 ^ f.maxExponent := f.overflow_le_pow
    _ = 2 ^ (f.maxExponent + f.precision) := by
        rw [two_pow_mul_zpow, add_comm]
    _ ≤ 2 ^ (1200 : Int) := zpow_le_zpow_right₀ one_le_two hf.overflow

theorem FloatFormat.Usual.le_underflow (hf : f.Usual) :
    (10 : ℚ) ^ (-400 : Int) ≤ 2 ^ (f.minExponent - 1) := by
  calc (10 : ℚ) ^ (-400 : Int) ≤ 2 ^ (-1200 : Int) := by
        rw [zpow_neg, zpow_neg]
        exact inv_anti₀ (zpow_pos two_pos _) two_pow_le_ten_pow
    _ ≤ 2 ^ (f.minExponent - 1) := zpow_le_zpow_right₀ one_le_two hf.underflow

/-- A number rounded on a grid: it is not larger than the significand has room for, and not
smaller than a normal value unless the grid is the finest one. -/
structure FloatFormat.OnGrid (f : FloatFormat) (x : ℚ) (e : Int) (m : Nat) : Prop where
  least : f.minExponent ≤ e
  small : x < 2 ^ f.precision * 2 ^ e
  normal : e = f.minExponent ∨ (2 : ℚ) ^ (f.precision - 1) * 2 ^ e ≤ x
  half : |(m : ℚ) - x / 2 ^ e| ≤ 1 / 2
  even : |(m : ℚ) - x / 2 ^ e| = 1 / 2 → Even m

/-- Every quotient is rounded on such a grid. -/
theorem FloatFormat.exists_onGrid (f : FloatFormat) (hprecision : 0 < f.precision) (hnum : 0 < num)
    (hden : 0 < den) : ∃ scaled unit,
      scaleBinary num den (-f.roundingExponent num den) = (scaled, unit) ∧
        f.OnGrid (num / den) (f.roundingExponent num den) (roundHalfEven scaled unit) := by
  set e := f.roundingExponent num den with he
  obtain ⟨hunit, hratio⟩ := scaleBinary_ratio num hden (-e)
  rcases hscale : scaleBinary num den (-e) with ⟨scaled, unit⟩
  rw [hscale, zpow_neg, ← div_eq_mul_inv] at hratio
  rw [hscale] at hunit
  obtain ⟨hhalf, heven⟩ := roundHalfEven_half scaled hunit
  rw [hratio] at hhalf heven
  obtain ⟨hlow, hhigh⟩ := binaryExponent_bounds hnum hden
  refine ⟨scaled, unit, rfl, le_max_left _ _, ?_, ?_, hhalf, heven⟩
  · have hexponent : binaryExponent num den - f.precision + 1 ≤ e := le_max_right _ _
    refine hhigh.trans_le ?_
    rw [two_pow_mul_zpow]
    exact zpow_le_zpow_right₀ one_le_two (by omega)
  · rcases max_choice f.minExponent (binaryExponent num den - f.precision + 1) with hmax | hmax
    · exact .inl hmax
    · refine .inr (le_trans ?_ hlow)
      rw [two_pow_mul_zpow]
      refine zpow_le_zpow_right₀ one_le_two ?_
      rw [he, roundingExponent, hmax]
      omega

namespace FloatFormat.OnGrid

theorem le_pow (h : f.OnGrid x e m) : m ≤ 2 ^ f.precision := by
  have hlt : x / 2 ^ e < 2 ^ f.precision := (div_lt_iff₀ (zpow_pos two_pos e)).mpr h.small
  have hhalf := (abs_le.mp h.half).2
  have hsucc : (m : ℚ) < (2 ^ f.precision + 1 : Nat) := by
    push_cast
    linarith
  exact Nat.lt_succ_iff.mp (Nat.cast_lt.mp hsucc)

theorem normal_le (h : f.OnGrid x e m) : e = f.minExponent ∨ 2 ^ (f.precision - 1) ≤ m := by
  refine h.normal.imp_right fun hx => ?_
  have hle : (2 : ℚ) ^ (f.precision - 1) ≤ x / 2 ^ e := (le_div_iff₀ (zpow_pos two_pos e)).mpr hx
  have hhalf := (abs_le.mp h.half).1
  have hsucc : ((2 ^ (f.precision - 1) : Nat) : ℚ) < (m + 1 : Nat) := by
    push_cast
    linarith
  exact Nat.lt_succ_iff.mp (Nat.cast_lt.mp hsucc)

/-- On the grid of the largest values, a number is too large if it rounds up to what would be the
next one: one that lies halfway does, as its other neighbour is odd. -/
theorem eq_pow_iff (h : f.OnGrid x f.maxExponent m) (hprecision : 0 < f.precision) :
    m = 2 ^ f.precision ↔ f.overflow ≤ x := by
  rw [f.overflow_eq, ← le_div_iff₀ (zpow_pos two_pos _)]
  obtain ⟨hlow, hhigh⟩ := abs_le.mp h.half
  constructor
  · rintro rfl
    rw [Nat.cast_pow, Nat.cast_ofNat] at hhigh
    linarith
  · intro hx
    by_contra hne
    have hlt : m + 1 ≤ 2 ^ f.precision := Nat.lt_of_le_of_ne h.le_pow hne
    have hlt' : (m : ℚ) + 1 ≤ 2 ^ f.precision := by exact_mod_cast hlt
    have hdist : |(m : ℚ) - x / 2 ^ f.maxExponent| = 1 / 2 := by
      rw [abs_of_nonpos (by linarith)]
      linarith
    have hpow : (m : ℚ) + 1 = 2 ^ f.precision := by linarith
    have hodd : m + 1 = 2 ^ f.precision := by exact_mod_cast hpow
    have heven : Even (2 ^ f.precision) := Even.pow_of_ne_zero even_two hprecision.ne'
    exact (Nat.even_add_one.mp (hodd ▸ heven)) (h.even hdist)

/-- Whether a number is too large is seen from where it rounds to. -/
theorem overflow_le_iff (h : f.OnGrid x e m) (hf : f.Usual) :
    f.maxExponent < (if m = 2 ^ f.precision then e + 1 else e) ↔ f.overflow ≤ x := by
  have hpos : (0 : ℚ) < 2 ^ f.precision := by positivity
  have hprecision := hf.precision
  have hrange := hf.range
  rcases lt_trichotomy e f.maxExponent with he | rfl | he
  · have hx : x < f.overflow := by
      calc x < 2 ^ f.precision * 2 ^ e := h.small
        _ ≤ 2 ^ f.precision * 2 ^ (f.maxExponent - 1) := by
            gcongr
            · norm_num
            · omega
        _ ≤ f.overflow := by
            have hone : (1 : ℚ) ≤ 2 ^ f.precision := one_le_pow₀ one_le_two
            rw [FloatFormat.overflow, pow_succ]
            exact mul_le_mul_of_nonneg_right (by linarith) (zpow_pos two_pos _).le
    refine iff_of_false ?_ (not_le.mpr hx)
    split <;> omega
  · rw [← h.eq_pow_iff (by omega)]
    split
    · next hm => exact iff_of_true (by omega) hm
    · next hm => exact iff_of_false (lt_irrefl _) hm
  · have hx : f.overflow ≤ x := by
      calc f.overflow ≤ 2 ^ f.precision * 2 ^ f.maxExponent := f.overflow_le_pow
        _ = 2 ^ (f.precision - 1) * 2 ^ (f.maxExponent + 1) := by
            rw [two_pow_mul_zpow, two_pow_mul_zpow]
            congr 1
            omega
        _ ≤ 2 ^ (f.precision - 1) * 2 ^ e := by
            gcongr
            · norm_num
            · omega
        _ ≤ x := h.normal.resolve_left (by omega)
    refine iff_of_true ?_ hx
    split <;> omega

/-- A number is rounded to where it is on the grid, or to the least value of the next one. -/
theorem rounds (h : f.OnGrid x e m) (hf : f.Usual) : f.Rounds x
    (let (m, e) := if m = 2 ^ f.precision then (2 ^ (f.precision - 1), e + 1) else (m, e)
    if f.maxExponent < e then .infinite false else .finite false m e) := by
  have hlarge := h.overflow_le_iff hf
  have hprecision := hf.precision
  have hleast := h.least
  by_cases hm : m = 2 ^ f.precision
  · simp only [if_pos hm] at hlarge ⊢
    have hvalue : ((2 ^ (f.precision - 1) : Nat) : ℚ) * 2 ^ (e + 1) = m * 2 ^ e := by
      rw [hm, Nat.cast_pow, Nat.cast_pow, Nat.cast_ofNat, two_pow_mul_zpow, two_pow_mul_zpow]
      congr 1
      omega
    have heven : Even (2 ^ (f.precision - 1)) := Even.pow_of_ne_zero even_two (by omega)
    split
    · next he => exact .infinite (hlarge.mp he)
    · next he =>
      refine .finite (not_le.mp fun hx => he (hlarge.mpr hx))
        ⟨Nat.pow_lt_pow_right one_lt_two (by omega), by omega, by omega⟩ (.inr le_rfl) ?_
        fun _ _ _ _ => .inr heven
      rw [hvalue]
      exact fun m' e' h' => (nearest_of_half (by omega) h.half h.normal h').1
  · simp only [if_neg hm] at hlarge ⊢
    split
    · next he => exact .infinite (hlarge.mp he)
    · next he =>
      refine .finite (not_le.mp fun hx => he (hlarge.mpr hx))
        ⟨Nat.lt_of_le_of_ne h.le_pow hm, hleast, not_lt.mp he⟩ h.normal_le
        (fun m' e' h' => (nearest_of_half (by omega) h.half h.normal h').1) fun m' e' h' heq => ?_
      exact ((nearest_of_half (by omega) h.half h.normal h').2 heq).imp_right h.even

end FloatFormat.OnGrid

/-- A number that is at most half as large as the smallest value rounds to zero. -/
theorem FloatFormat.Usual.rounds_tiny (hf : f.Usual) (hnonneg : 0 ≤ x)
    (hx : x ≤ 2 ^ (f.minExponent - 1)) : f.Rounds x (.finite false 0 f.minExponent) := by
  have hpos : (0 : ℚ) < 2 ^ f.minExponent := zpow_pos two_pos _
  rw [zpow_sub_one₀ two_ne_zero] at hx
  have hgrid : f.OnGrid x f.minExponent 0 := by
    refine ⟨le_rfl, ?_, .inl rfl, ?_, fun _ => Even.zero⟩
    · have hone : (1 : ℚ) ≤ 2 ^ f.precision := one_le_pow₀ one_le_two
      calc x < 1 * 2 ^ f.minExponent := by linarith
        _ ≤ 2 ^ f.precision * 2 ^ f.minExponent := mul_le_mul_of_nonneg_right hone hpos.le
    · rw [Nat.cast_zero, zero_sub, abs_neg, abs_of_nonneg (div_nonneg hnonneg hpos.le),
        div_le_iff₀ hpos]
      linarith
  have hne : 0 ≠ 2 ^ f.precision := (Nat.two_pow_pos _).ne
  simpa only [if_neg hne, if_neg (not_lt.mpr hf.range)] using hgrid.rounds hf

/-- A quotient is rounded to the nearest value. -/
theorem FloatFormat.rounds_round (hf : f.Usual) (num : Nat) (hden : 0 < den) :
    f.Rounds (num / den) (f.round false num den) := by
  have hprecision := hf.precision
  by_cases hnum : num = 0
  · simpa [FloatFormat.round, hnum] using hf.rounds_tiny le_rfl (zpow_pos two_pos _).le
  · obtain ⟨scaled, unit, hscale, hgrid⟩ :=
      f.exists_onGrid (by omega) (Nat.pos_of_ne_zero hnum) hden
    rw [FloatFormat.round, if_neg hnum]
    simp only [hscale]
    exact hgrid.rounds hf

/-! ## Rounding a decimal -/

/-- The number that a decimal is, without its sign. -/
def Decimal.magnitude (d : Decimal) : ℚ := d.digits * 10 ^ d.exponent

/-- How many digits there are tells between which powers of ten a decimal lies. -/
theorem Decimal.magnitude_bounds (d : Decimal) (hdigits : d.digits ≠ 0) :
    (10 : ℚ) ^ (d.exponent + (Nat.repr d.digits).length - 1) ≤ d.magnitude ∧
      d.magnitude < 10 ^ (d.exponent + (Nat.repr d.digits).length) := by
  set k := (Nat.repr d.digits).length with hk
  have hlength : 0 < k := Nat.length_repr_pos
  have hten : (10 : ℚ) ≠ 0 := by norm_num
  have hpos : (0 : ℚ) < 10 ^ d.exponent := zpow_pos (by norm_num) _
  have hlow : 10 ^ (k - 1) ≤ d.digits := by
    by_cases hone : k = 1
    · rw [hone]
      exact Nat.one_le_iff_ne_zero.mpr hdigits
    · by_contra hlt
      have := (Nat.length_repr_le_iff (k := k - 1) (by omega)).mpr (not_le.mp hlt)
      omega
  have hhigh : d.digits < 10 ^ k := (Nat.length_repr_le_iff hlength).mp le_rfl
  have hlow' : (10 : ℚ) ^ (k - 1) ≤ d.digits := by exact_mod_cast hlow
  have hhigh' : (d.digits : ℚ) < 10 ^ k := by exact_mod_cast hhigh
  rw [show d.exponent + k - 1 = ((k - 1 : Nat) : Int) + d.exponent by omega, add_comm d.exponent,
    zpow_add₀ hten, zpow_add₀ hten, zpow_natCast, zpow_natCast]
  exact ⟨mul_le_mul_of_nonneg_right hlow' hpos.le, mul_lt_mul_of_pos_right hhigh' hpos⟩

/-- A decimal is rounded to the nearest value.  That its size alone may settle it changes
nothing. -/
theorem Decimal.rounds_toFloating (hf : f.Usual) (d : Decimal) (hsign : d.negative = false) :
    f.Rounds d.magnitude (d.toFloating f) := by
  obtain ⟨negative, digits, exponent⟩ := d
  obtain rfl : negative = false := hsign
  have hten : (1 : ℚ) ≤ 10 := by norm_num
  have hnonneg : 0 ≤ (⟨false, digits, exponent⟩ : Decimal).magnitude := by
    have : (0 : ℚ) < 10 ^ exponent := zpow_pos (by norm_num) _
    exact mul_nonneg (Nat.cast_nonneg _) this.le
  simp only [Decimal.toFloating]
  split
  · next hsmall =>
    have hround : f.round false 0 1 = .finite false 0 f.minExponent := rfl
    rw [hround]
    refine hf.rounds_tiny hnonneg ?_
    by_cases hdigits : digits = 0
    · simpa [Decimal.magnitude, hdigits] using (zpow_pos two_pos (f.minExponent - 1)).le
    · have hsize := hsmall.resolve_left hdigits
      have hbelow := (Decimal.magnitude_bounds ⟨false, digits, exponent⟩ hdigits).2
      exact hbelow.le.trans ((zpow_le_zpow_right₀ hten (Int.le_of_lt hsize)).trans hf.le_underflow)
  · next hsmall =>
    rw [not_or] at hsmall
    split
    · next hlarge =>
      have habove := (Decimal.magnitude_bounds ⟨false, digits, exponent⟩ hsmall.1).1
      exact .infinite (hf.overflow_le.trans
        ((zpow_le_zpow_right₀ hten (Int.le_sub_one_of_lt hlarge)).trans habove))
    · split
      · next hexponent =>
        have hvalue : (⟨false, digits, exponent⟩ : Decimal).magnitude =
            (digits : ℚ) / ((10 ^ (-exponent).toNat : Nat) : ℚ) := by
          rw [Decimal.magnitude, Nat.cast_pow, Nat.cast_ofNat, ← zpow_natCast,
            Int.toNat_of_nonneg (by omega), zpow_neg, div_inv_eq_mul]
        rw [hvalue]
        exact f.rounds_round hf digits (Nat.pow_pos (by norm_num))
      · next hexponent =>
        have hvalue : (⟨false, digits, exponent⟩ : Decimal).magnitude =
            ((digits * 10 ^ exponent.toNat : Nat) : ℚ) / (1 : Nat) := by
          rw [Decimal.magnitude, Nat.cast_mul, Nat.cast_pow, Nat.cast_ofNat, ← zpow_natCast,
            Int.toNat_of_nonneg (by omega), Nat.cast_one, div_one]
        rw [hvalue]
        exact f.rounds_round hf _ one_pos

/-! ## The formats -/

theorem FloatFormat.usual_single : FloatFormat.single.Usual := by
  constructor <;> decide

theorem FloatFormat.usual_double : FloatFormat.double.Usual := by
  constructor <;> decide

end GoloSyntax
