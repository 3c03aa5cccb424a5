import GoloSyntax.Token.Lexer
import Mathlib.Data.List.TakeWhile

/-! # What a scanner has looked at

A scanner that reads a text `u` in front of a text `v` would read `u` as the same wherever
it stands, and also if only a beginning of `v` came behind it, or a beginning of `v` and
then a blank, a comment or the end of the line (`Takes`).  So a piece that is cut out of a
source between two tokens is cut into the tokens it had there, and blanks between two tokens
change neither of them.

Lengths are limited, and so this is said of any limit that `u` itself keeps.
-/
namespace GoloSyntax

/-- The number of bytes of a text. -/
def textSize (cs : List Char) : Nat := cs.foldr (fun c size => c.utf8Size + size) 0

@[simp] theorem textSize_nil : textSize [] = 0 := rfl

@[simp] theorem textSize_cons (c : Char) (cs : List Char) :
    textSize (c :: cs) = c.utf8Size + textSize cs := rfl

@[simp] theorem textSize_append (cs ds : List Char) :
    textSize (cs ++ ds) = textSize cs + textSize ds := by
  induction cs with
  | nil => simp
  | cons c cs ih => simp [ih, Nat.add_assoc]

theorem utf8ByteSize_ofList (cs : List Char) :
    (String.ofList cs).utf8ByteSize = textSize cs := by
  induction cs with
  | nil => rfl
  | cons c cs ih =>
    rw [← List.singleton_append, String.ofList_append, String.utf8ByteSize_append, ih,
      textSize_append]
    simp

@[simp] theorem textSize_toList (source : String) :
    textSize source.toList = source.utf8ByteSize := by
  rw [← utf8ByteSize_ofList, String.ofList_toList]

@[simp] theorem Position.offset_after (p : Position) (c : Char) :
    (p.after c).offset = p.offset + c.utf8Size := by
  unfold after
  split <;> rfl

@[simp] theorem Position.offset_advance (p : Position) (cs : List Char) :
    (p.advance cs).offset = p.offset + textSize cs := by
  induction cs generalizing p with
  | nil => rfl
  | cons c cs ih => simp [ih, Nat.add_assoc]

/-- Two beginnings of a text that have the same size are the same. -/
theorem append_eq_of_textSize {a b a' b' : List Char} (h : a ++ b = a' ++ b')
    (hsize : textSize a = textSize a') : a = a' ∧ b = b' := by
  rcases List.append_eq_append_iff.mp h with ⟨c, rfl, rfl⟩ | ⟨c, rfl, rfl⟩
  · cases c with
    | nil => simp
    | cons d c =>
      have := d.utf8Size_pos
      simp only [textSize_append, textSize_cons] at hsize
      omega
  · cases c with
    | nil => simp
    | cons d c =>
      have := d.utf8Size_pos
      simp only [textSize_append, textSize_cons] at hsize
      omega

theorem Position.textSize_of_advance {cs ds : List Char} (h : start.advance cs = start.advance ds) :
    textSize cs = textSize ds := by
  simpa using congrArg Position.offset h

/-- Between the cursors stands the text `u`. -/
structure Cursor.Passes (c : Cursor) (u : List Char) (c' : Cursor) : Prop where
  rest : c.rest = u ++ c'.rest
  position : c'.position = c.position.advance u

/-- A character that ends every token and begins none but the line feed: a blank, the
beginning of a comment, or a line feed. -/
def isSeparator (c : Char) : Bool := isBlank c || c == '#' || c == '\n'

/-- `z` begins as `v` does, and where it stops doing so it ends or goes on with a separator. -/
inductive Follows : List Char → List Char → Prop where
  | nil (v : List Char) : Follows v []
  | separator {d : Char} (hd : isSeparator d) (v z : List Char) : Follows v (d :: z)
  | cons (c : Char) {v z : List Char} (h : Follows v z) : Follows (c :: v) (c :: z)

/-- `f` reads `u` as `x` in front of `v` and of everything that may follow instead. -/
def Takes {α : Type} (f : Cursor → Scan α) (u v : List Char) (x : α) : Prop :=
  ∀ z, Follows v z → ∀ p, f ⟨u ++ z, p⟩ = .ok (x, ⟨z, p.advance u⟩)

/-- The same of a reader that cannot fail and answers what it reads. -/
def TakesSelf (f : Cursor → List Char × Cursor) (u v : List Char) : Prop :=
  ∀ z, Follows v z → ∀ p, f ⟨u ++ z, p⟩ = (u, ⟨z, p.advance u⟩)

namespace Cursor

variable {c c' c'' : Cursor} {u v : List Char}

theorem Passes.refl (c : Cursor) : c.Passes [] c := ⟨rfl, rfl⟩

theorem passes_nil_iff : c.Passes [] c' ↔ c' = c := by
  refine ⟨fun h => ?_, fun h => h ▸ .refl c⟩
  obtain ⟨rest, position⟩ := c
  obtain ⟨rest', position'⟩ := c'
  obtain rfl : rest = rest' := h.rest
  obtain rfl : position' = position := h.position
  rfl

theorem passes_cons_iff {d d' : Char} {cs : List Char} {p : Position} :
    Passes ⟨d :: cs, p⟩ (d' :: u) c' ↔ d = d' ∧ Passes ⟨cs, p.after d⟩ u c' := by
  constructor
  · rintro ⟨hrest, hposition⟩
    obtain ⟨rfl, hu⟩ := List.cons.inj hrest
    exact ⟨rfl, hu, hposition⟩
  · rintro ⟨rfl, hrest, hposition⟩
    exact ⟨congrArg (d :: ·) hrest, hposition⟩

theorem Passes.trans (h : c.Passes u c') (h' : c'.Passes v c'') : c.Passes (u ++ v) c'' :=
  ⟨by rw [h.rest, h'.rest, List.append_assoc],
    by rw [h'.position, h.position, Position.advance_append]⟩

theorem passes_drop (c : Cursor) (n : Nat) : c.Passes (c.rest.take n) (c.drop n) :=
  ⟨(List.take_append_drop n c.rest).symm, rfl⟩

theorem passes_of_head? {d : Char} (h : c.rest.head? = some d) : c.Passes [d] (c.drop 1) := by
  have hpasses := c.passes_drop 1
  rwa [List.take_one, h] at hpasses

theorem passes_of_startsWith (h : c.startsWith u) : c.Passes u (c.drop u.length) := by
  have hu : u <+: c.rest := List.isPrefixOf_iff_prefix.mp h
  have hpasses := c.passes_drop u.length
  rwa [← List.prefix_iff_eq_take.mp hu] at hpasses

theorem Passes.offset (h : c.Passes u c') :
    c'.position.offset - c.position.offset = textSize u := by
  rw [h.position, Position.offset_advance]
  omega

end Cursor

/-! ## What may follow instead -/

namespace Follows

variable {c : Char} {u v w z : List Char}

theorem refl (v : List Char) : Follows v v := by
  induction v with
  | nil => exact .nil []
  | cons c v ih => exact .cons c ih

theorem append (u : List Char) (h : Follows v z) : Follows (u ++ v) (u ++ z) := by
  induction u with
  | nil => exact h
  | cons c u ih => exact .cons c ih

theorem of_leading (h : z <+: v) : Follows v z := by
  obtain ⟨w, rfl⟩ := h
  simpa using (Follows.nil w).append z

/-- A character that is no separator stands in both. -/
theorem of_cons (h : Follows v (c :: z)) (hc : isSeparator c = false) :
    ∃ v', v = c :: v' ∧ Follows v' z := by
  cases h with
  | separator hd => rw [hd] at hc; cases hc
  | cons _ h => exact ⟨_, rfl, h⟩

/-- What begins with text free of separators is begun by it in both. -/
theorem isPrefix (h : Follows v z) (hw : ∀ d ∈ w, isSeparator d = false) (hwz : w <+: z) :
    w <+: v := by
  induction w generalizing v z with
  | nil => exact List.nil_prefix
  | cons d w ih =>
    obtain ⟨y, rfl⟩ := hwz
    obtain ⟨v', rfl, h'⟩ := h.of_cons (hw d List.mem_cons_self)
    exact List.prefix_cons_inj d |>.mpr
      (ih h' (fun e he => hw e (List.mem_cons_of_mem _ he)) (List.prefix_append w y))

/-- Whatever holds of the first character only if it is no separator holds of it in both. -/
theorem any_head? {q : Char → Bool} (h : Follows v z) (hq : ∀ d, q d → isSeparator d = false)
    (hz : z.head?.any q) : v.head?.any q := by
  cases h with
  | nil => cases hz
  | separator hd => exact absurd (hq _ hz) (by simp [hd])
  | cons _ _ => exact hz

theorem any_head?_eq_false {q : Char → Bool} (h : Follows v z)
    (hq : ∀ d, q d → isSeparator d = false) (hv : v.head?.any q = false) :
    z.head?.any q = false := by
  by_contra hz
  rw [h.any_head? hq (by simpa using hz)] at hv
  cases hv

end Follows

theorem isSeparator_of_isDigit {d : Char} (h : d.isDigit) : isSeparator d = false := by
  by_contra hd
  simp only [isSeparator, isBlank, Bool.not_eq_false, Bool.or_eq_true, beq_iff_eq] at hd
  rcases hd with (((rfl | rfl) | rfl) | rfl) | rfl <;> revert h <;> decide

theorem isSeparator_of_isWordPart {d : Char} (h : isWordPart d) : isSeparator d = false := by
  by_contra hd
  simp only [isSeparator, isBlank, Bool.not_eq_false, Bool.or_eq_true, beq_iff_eq] at hd
  rcases hd with (((rfl | rfl) | rfl) | rfl) | rfl <;> revert h <;> decide

theorem beginsWithDigit_of_follows {z v : List Char} (h : Follows v z)
    (hz : beginsWithDigit z) : beginsWithDigit v := by
  cases z with
  | nil => cases hz
  | cons c z =>
    obtain ⟨v', rfl, -⟩ := h.of_cons (isSeparator_of_isDigit hz)
    exact hz

theorem continuesDigits_of_follows {z v : List Char} (h : Follows v z)
    (hz : continuesDigits z) : continuesDigits v := by
  cases z with
  | nil => cases hz
  | cons c z =>
    simp only [continuesDigits, Bool.or_eq_true, Bool.and_eq_true, beq_iff_eq] at hz
    have hc : isSeparator c = false := by
      rcases hz with hz | ⟨rfl, -⟩
      · exact isSeparator_of_isDigit hz
      · rfl
    obtain ⟨v', rfl, h'⟩ := h.of_cons hc
    simp only [continuesDigits, Bool.or_eq_true, Bool.and_eq_true, beq_iff_eq]
    exact hz.imp_right fun hz => ⟨hz.1, beginsWithDigit_of_follows h' hz.2⟩

theorem beginsWithDigit_append {u : List Char} (h : beginsWithDigit u) (v : List Char) :
    beginsWithDigit (u ++ v) := by
  cases u with
  | nil => cases h
  | cons c u => exact h

/-! ## Splitting in front of a tail -/

/-- Every tail of `u ++ v` that begins inside `u` satisfies `p`, and `v` does not. -/
structure Splits (p : List Char → Bool) (u v : List Char) : Prop where
  inside : ∀ b, b <:+ u → b ≠ [] → p (b ++ v)
  stop : v = [] ∨ p v = false

namespace Cursor

variable {p : List Char → Bool} {c c' : Cursor} {u v : List Char}

theorem exists_splits (p : List Char → Bool) (taken cs : List Char) :
    ∃ u v, splitTail p taken cs = (taken.reverse ++ u, v) ∧ cs = u ++ v ∧ Splits p u v := by
  induction cs generalizing taken with
  | nil => exact ⟨[], [], by simp [splitTail], rfl, ⟨by simp, .inl rfl⟩⟩
  | cons c cs ih =>
    by_cases hc : p (c :: cs)
    · obtain ⟨u, v, hsplit, rfl, hu⟩ := ih (c :: taken)
      refine ⟨c :: u, v, by simp [splitTail, hc, hsplit], rfl, ⟨fun b hb hne => ?_, hu.stop⟩⟩
      rcases List.suffix_cons_iff.mp hb with rfl | hb
      · exact hc
      · exact hu.inside b hb hne
    · exact ⟨[], c :: cs, by simp [splitTail, hc], rfl, ⟨by simp, .inr (by simpa using hc)⟩⟩

theorem splitTail_of_splits (h : Splits p u v) (taken : List Char) :
    splitTail p taken (u ++ v) = (taken.reverse ++ u, v) := by
  induction u generalizing taken with
  | nil =>
    cases v with
    | nil => simp [splitTail]
    | cons c v =>
      have hstop := h.stop.resolve_left (by simp)
      simp [splitTail, hstop]
  | cons c u ih =>
    have hc : p (c :: (u ++ v)) := h.inside (c :: u) (List.suffix_refl _) (by simp)
    have hu : Splits p u v := ⟨fun b hb => h.inside b (hb.trans (List.suffix_cons c u)), h.stop⟩
    simp [splitTail, hc, ih hu]

theorem takeWhileTail_of_splits (h : Splits p u v) (q : Position) :
    takeWhileTail ⟨u ++ v, q⟩ p = (u, ⟨v, q.advance u⟩) := by
  simp [takeWhileTail, splitTail_of_splits h]

theorem splits_of_takeWhileTail (h : c.takeWhileTail p = (u, c')) :
    c.Passes u c' ∧ Splits p u c'.rest := by
  obtain ⟨a, b, hsplit, hrest, hab⟩ := exists_splits p [] c.rest
  simp only [takeWhileTail, hsplit, List.reverse_nil, List.nil_append] at h
  obtain ⟨rfl, rfl⟩ := Prod.mk.inj h
  exact ⟨⟨hrest, rfl⟩, hab⟩

end Cursor

/-! ## Numbers -/

/-- Digits do not depend on what comes behind them, as long as it does not go on with
digits. -/
theorem Splits.digits {u v z : List Char} (h : Splits continuesDigits u v) (hz : Follows v z) :
    Splits continuesDigits u z := by
  have hv : continuesDigits v = false := by
    rcases h.stop with rfl | hstop
    · rfl
    · exact hstop
  refine ⟨fun b hb hne => ?_, .inr ?_⟩
  · have hbv := h.inside b hb hne
    match b with
    | [c] =>
      simp only [List.cons_append, List.nil_append, continuesDigits, Bool.or_eq_true,
        Bool.and_eq_true] at hbv ⊢
      refine .inl (hbv.resolve_right fun hunderscore => ?_)
      cases v with
      | nil => cases hunderscore.2
      | cons d v =>
        have hd : d.isDigit = true := hunderscore.2
        simp [continuesDigits, hd] at hv
    | c :: d :: b => exact hbv
  · by_contra hcontinues
    rw [continuesDigits_of_follows hz (by simpa using hcontinues)] at hv
    cases hv

/-- A run of digits, perhaps none, with underscores somewhere behind the first one. -/
structure DigitRun (u : List Char) : Prop where
  chars : ∀ c ∈ u, c.isDigit ∨ c = '_'
  begins : u ≠ [] → beginsWithDigit u

theorem DigitRun.of_splits {u v : List Char} (h : Splits continuesDigits u v)
    (hbegins : u ≠ [] → beginsWithDigit u) : DigitRun u where
  chars c hc := by
    obtain ⟨a, b, rfl⟩ := List.append_of_mem hc
    have hcb := h.inside (c :: b) (List.suffix_append a _) (by simp)
    simp only [List.cons_append, continuesDigits, Bool.or_eq_true, Bool.and_eq_true,
      beq_iff_eq] at hcb
    exact hcb.imp_right And.left
  begins := hbegins

/-- Digits are read if there is one, and then at least that one. -/
theorem takes_digits {c c' : Cursor} {u : List Char} (h : c.digits = (u, c')) :
    c.Passes u c' ∧ TakesSelf Cursor.digits u c'.rest ∧ DigitRun u ∧
      (u = [] → ¬ beginsWithDigit c.rest) := by
  unfold Cursor.digits at h
  split at h
  · next hbegins =>
    obtain ⟨hpasses, hsplits⟩ := Cursor.splits_of_takeWhileTail h
    have hu : u ≠ [] := by
      rintro rfl
      obtain ⟨d, v, hv, hd⟩ : ∃ d v, c'.rest = d :: v ∧ d.isDigit := by
        rw [hpasses.rest, List.nil_append] at hbegins
        cases hrest : c'.rest with
        | nil =>
          rw [hrest] at hbegins
          cases hbegins
        | cons d v => exact ⟨d, v, rfl, by rwa [hrest] at hbegins⟩
      rcases hsplits.stop with hstop | hstop
      · rw [hv] at hstop
        cases hstop
      · simp [hv, continuesDigits, hd] at hstop
    obtain ⟨d, u, rfl⟩ := List.exists_cons_of_ne_nil hu
    have hd : d.isDigit = true := by
      rw [hpasses.rest] at hbegins
      exact hbegins
    refine ⟨hpasses, fun z hz p => ?_, .of_splits hsplits fun _ => hd, fun hnil => absurd hnil hu⟩
    rw [Cursor.digits, if_pos (show beginsWithDigit (d :: u ++ z) from hd)]
    exact Cursor.takeWhileTail_of_splits (hsplits.digits hz) p
  · next hbegins =>
    obtain ⟨rfl, rfl⟩ := Prod.mk.inj h
    refine ⟨.refl c, fun z hz p => ?_, ⟨nofun, fun hne => absurd rfl hne⟩, fun _ => hbegins⟩
    rw [Cursor.digits, if_neg]
    · rfl
    · exact fun hz' => hbegins (beginsWithDigit_of_follows hz hz')

theorem takes_fraction {c c' : Cursor} {u : List Char} (h : c.fraction = (u, c')) :
    c.Passes u c' ∧ TakesSelf Cursor.fraction u c'.rest ∧
      (u = [] ∨ ∃ digits, u = '.' :: digits ∧ DigitRun digits ∧ digits ≠ []) := by
  have hnone : ∀ c : Cursor, (∀ cs, c.rest = '.' :: cs → ¬ beginsWithDigit cs) →
      TakesSelf Cursor.fraction [] c.rest := by
    intro c hc z hz p
    unfold Cursor.fraction
    split
    · next cs hcs =>
      obtain rfl : z = '.' :: cs := hcs
      obtain ⟨v, hv, hcs⟩ := hz.of_cons rfl
      rw [if_neg]
      · rfl
      · exact fun hdigit => hc v hv (beginsWithDigit_of_follows hcs hdigit)
    · rfl
  unfold Cursor.fraction at h
  split at h
  · next cs hcs =>
    split at h
    · next hdigit =>
      rcases hd : (c.drop 1).digits with ⟨digits, c₁⟩
      rw [hd] at h
      obtain ⟨rfl, rfl⟩ := Prod.mk.inj h
      obtain ⟨hpasses, htakes, hrun, hne⟩ := takes_digits hd
      have hone : c.Passes ['.'] (c.drop 1) := by
        have := c.passes_drop 1
        rwa [hcs] at this
      have hdigits : digits ≠ [] := fun hnil => hne hnil (by simpa [Cursor.drop, hcs] using hdigit)
      refine ⟨hone.trans hpasses, fun z hz p => ?_, .inr ⟨digits, rfl, hrun, hdigits⟩⟩
      have hbegins : beginsWithDigit (digits ++ z) :=
        beginsWithDigit_append (hrun.begins hdigits) z
      have hread := htakes z hz (p.after '.')
      simp [Cursor.fraction, hbegins, Cursor.drop, hread]
    · next hdigit =>
      obtain ⟨rfl, rfl⟩ := Prod.mk.inj h
      refine ⟨.refl c, hnone c fun cs' hcs' => ?_, .inl rfl⟩
      rw [hcs] at hcs'
      cases hcs'
      exact hdigit
  · next hne =>
    obtain ⟨rfl, rfl⟩ := Prod.mk.inj h
    exact ⟨.refl c, hnone c fun cs hcs => absurd hcs (hne cs), .inl rfl⟩

theorem takes_sign {c c' : Cursor} {u : List Char} (h : c.sign = (u, c')) :
    c.Passes u c' ∧ TakesSelf Cursor.sign u c'.rest ∧ (u = [] ∨ u = ['+'] ∨ u = ['-']) := by
  unfold Cursor.sign at h
  split at h
  · next cs hcs =>
    obtain ⟨rfl, rfl⟩ := Prod.mk.inj h
    refine ⟨by simpa [hcs] using c.passes_drop 1, fun z hz p => ?_, by simp⟩
    simp [Cursor.sign, Cursor.drop]
  · next cs hcs =>
    obtain ⟨rfl, rfl⟩ := Prod.mk.inj h
    refine ⟨by simpa [hcs] using c.passes_drop 1, fun z hz p => ?_, by simp⟩
    simp [Cursor.sign, Cursor.drop]
  · next hplus hminus =>
    obtain ⟨rfl, rfl⟩ := Prod.mk.inj h
    refine ⟨.refl c, fun z hz p => ?_, .inl rfl⟩
    unfold Cursor.sign
    split
    · next cs hcs =>
      obtain rfl : z = '+' :: cs := hcs
      obtain ⟨v, hv, -⟩ := hz.of_cons rfl
      exact absurd hv (hplus v)
    · next cs hcs =>
      obtain rfl : z = '-' :: cs := hcs
      obtain ⟨v, hv, -⟩ := hz.of_cons rfl
      exact absurd hv (hminus v)
    · rfl

theorem takes_exponent {c c' : Cursor} {u : List Char} (h : c.exponent = .ok (u, c')) :
    c.Passes u c' ∧ Takes Cursor.exponent u c'.rest u ∧
      (u = [] ∨ ∃ e sign digits, u = e :: sign ++ digits ∧ (e = 'e' ∨ e = 'E') ∧
        (sign = [] ∨ sign = ['+'] ∨ sign = ['-']) ∧ DigitRun digits ∧ digits ≠ []) := by
  have hnone : ∀ c : Cursor, ¬ c.rest.head?.any (fun e => e = 'e' ∨ e = 'E') →
      Takes Cursor.exponent [] c.rest [] := by
    intro c hc z hz p
    cases z with
    | nil => rfl
    | cons e z =>
      simp only [Cursor.exponent, List.nil_append]
      rw [if_neg]
      · rfl
      · refine fun he => hc (hz.any_head? (fun d hd => ?_) (by simpa using he))
        rcases of_decide_eq_true hd with rfl | rfl <;> rfl
  unfold Cursor.exponent at h
  split at h
  · next e cs hcs =>
    split at h
    · next he =>
      rcases hs : (c.drop 1).sign with ⟨sign, c₁⟩
      rcases hd : c₁.digits with ⟨digits, c₂⟩
      simp only [hs, hd] at h
      split at h
      · cases h
      · next hdigits =>
        obtain ⟨rfl, rfl⟩ := Prod.mk.inj (Except.ok.inj h)
        obtain ⟨hpassesSign, htakesSign, hsign⟩ := takes_sign hs
        obtain ⟨hpasses, htakes, hrun, -⟩ := takes_digits hd
        have hne : digits ≠ [] := by simpa using hdigits
        have hone : c.Passes [e] (c.drop 1) := by simpa [hcs] using c.passes_drop 1
        refine ⟨(hone.trans hpassesSign).trans hpasses, fun z hz p => ?_,
          .inr ⟨e, sign, digits, rfl, he, hsign, hrun, hne⟩⟩
        have hreadSign := htakesSign (digits ++ z) (hpasses.rest ▸ hz.append digits) (p.after e)
        have hread := htakes z hz ((p.after e).advance sign)
        simp [Cursor.exponent, he, Cursor.drop, hreadSign, hread, hne, Position.advance_append]
    · next he =>
      obtain ⟨rfl, rfl⟩ := Prod.mk.inj (Except.ok.inj h)
      exact ⟨.refl c, hnone c (by simpa [hcs] using he), .inl rfl⟩
  · next hcs =>
    obtain ⟨rfl, rfl⟩ := Prod.mk.inj (Except.ok.inj h)
    exact ⟨.refl c, hnone c (by simp [hcs]), .inl rfl⟩

/-- The suffix of a number of each kind. -/
def NumberKind.suffix : NumberKind → List Char
  | .integer | .double => []
  | .long => ['_', 'L']
  | .float => ['_', 'F']

theorem takes_numberSuffix {fractional : Bool} {c c' : Cursor} {kind : NumberKind}
    {u : List Char} (h : c.numberSuffix fractional = .ok ((kind, u), c')) :
    c.Passes u c' ∧ Takes (Cursor.numberSuffix fractional) u c'.rest (kind, u) ∧
      u = kind.suffix ∧ (fractional ↔ kind = .float ∨ kind = .double) := by
  unfold Cursor.numberSuffix at h
  dsimp only at h
  split at h
  · next cs hcs =>
    split at h
    · cases h
    · next hfractional =>
      cases h
      exact ⟨by simpa [hcs] using c.passes_drop 2,
        fun z hz p => by simp [Cursor.numberSuffix, Cursor.drop, hfractional], rfl,
        by simp [hfractional]⟩
  · next cs hcs =>
    split at h
    · next hfractional =>
      cases h
      exact ⟨by simpa [hcs] using c.passes_drop 2,
        fun z hz p => by simp [Cursor.numberSuffix, Cursor.drop, hfractional], rfl,
        by simp [hfractional]⟩
    · cases h
  · next hlong hfloat =>
    cases h
    refine ⟨.refl c, fun z hz p => ?_, by cases fractional <;> rfl, by cases fractional <;> simp⟩
    unfold Cursor.numberSuffix
    dsimp only
    split
    · next cs hcs =>
      obtain rfl : z = '_' :: 'L' :: cs := hcs
      obtain ⟨v, hv, hz⟩ := hz.of_cons rfl
      obtain ⟨v', rfl, -⟩ := hz.of_cons rfl
      exact absurd hv (hlong v')
    · next cs hcs =>
      obtain rfl : z = '_' :: 'F' :: cs := hcs
      obtain ⟨v, hv, hz⟩ := hz.of_cons rfl
      obtain ⟨v', rfl, -⟩ := hz.of_cons rfl
      exact absurd hv (hfloat v')
    · rfl

/-- How a number of some kind is written. -/
structure NumberText (kind : NumberKind) (u : List Char) : Prop where
  parts : ∃ whole fraction exponent, u = whole ++ fraction ++ exponent ++ kind.suffix ∧
    DigitRun whole ∧ whole ≠ [] ∧
    (fraction = [] ∨ ∃ digits, fraction = '.' :: digits ∧ DigitRun digits ∧ digits ≠ []) ∧
    (exponent = [] ∨ ∃ e sign digits, exponent = e :: sign ++ digits ∧ (e = 'e' ∨ e = 'E') ∧
      (sign = [] ∨ sign = ['+'] ∨ sign = ['-']) ∧ DigitRun digits ∧ digits ≠ []) ∧
    (kind = .integer ∨ kind = .long → fraction = [] ∧ exponent = [])

theorem takes_scanNumber {c c' : Cursor} {l : Lexeme} (hc : beginsWithDigit c.rest)
    (h : scanNumber c = .ok (l, c')) : ∃ u kind, c.Passes u c' ∧ Takes scanNumber u c'.rest l ∧
      l = ⟨.number kind, some (String.ofList u)⟩ ∧ NumberText kind u ∧
      c'.rest.head?.any isWordPart = false := by
  rcases hw : c.digits with ⟨whole, c₁⟩
  rcases hf : c₁.fraction with ⟨fraction, c₂⟩
  simp only [scanNumber, hw, hf, bind, Except.bind] at h
  cases he : c₂.exponent with
  | error r =>
    rw [he] at h
    cases h
  | ok answer =>
    obtain ⟨exponent, c₃⟩ := answer
    simp only [he] at h
    cases hs : c₃.numberSuffix (!fraction.isEmpty || !exponent.isEmpty) with
    | error r =>
      rw [hs] at h
      cases h
    | ok answer =>
      obtain ⟨⟨kind, suffix⟩, c₄⟩ := answer
      simp only [hs] at h
      split at h
      · cases h
      · next hpart =>
        obtain ⟨rfl, rfl⟩ := Prod.mk.inj (Except.ok.inj h)
        obtain ⟨hpasses₁, htakes₁, hwhole, hne⟩ := takes_digits hw
        obtain ⟨hpasses₂, htakes₂, hfraction⟩ := takes_fraction hf
        obtain ⟨hpasses₃, htakes₃, hexponent⟩ := takes_exponent he
        obtain ⟨hpasses₄, htakes₄, rfl, hkind⟩ := takes_numberSuffix hs
        refine ⟨_, kind, ((hpasses₁.trans hpasses₂).trans hpasses₃).trans hpasses₄, fun z hz p => ?_,
          rfl, ⟨whole, fraction, exponent, rfl, hwhole, fun hnil => hne hnil hc, hfraction,
            hexponent, ?_⟩, by simpa [Cursor.peek?] using hpart⟩
        · have hz₃ : Follows c₃.rest (kind.suffix ++ z) := hpasses₄.rest ▸ hz.append _
          have hz₂ : Follows c₂.rest (exponent ++ (kind.suffix ++ z)) :=
            hpasses₃.rest ▸ hz₃.append _
          have hz₁ : Follows c₁.rest (fraction ++ (exponent ++ (kind.suffix ++ z))) :=
            hpasses₂.rest ▸ hz₂.append _
          have hpart' : z.head?.any isWordPart = false := by
            by_contra hpart'
            exact hpart (hz.any_head? (fun d hd => isSeparator_of_isWordPart hd)
              (by simpa using hpart'))
          simp only [scanNumber, List.append_assoc, htakes₁ _ hz₁, htakes₂ _ hz₂, htakes₃ _ hz₃,
            htakes₄ z hz, bind, Except.bind, Cursor.peek?, hpart']
          simp [Position.advance_append]
        · intro hwhole
          have hplain : ¬ (kind = .float ∨ kind = .double) := by
            rcases hwhole with rfl | rfl <;> simp
          have := mt hkind.mp hplain
          simpa using this

/-! ## Words and marks -/

theorem Cursor.passes_takeWhile (c : Cursor) (q : Char → Bool) :
    c.Passes (c.takeWhile q).1 (c.takeWhile q).2 ∧ (∀ d ∈ (c.takeWhile q).1, q d) ∧
      (c.takeWhile q).2.rest.head?.any q = false := by
  refine ⟨⟨(List.takeWhile_append_dropWhile).symm, rfl⟩, fun d hd => List.mem_takeWhile_imp hd, ?_⟩
  have hnone := List.head?_dropWhile_not q c.rest
  simp only [takeWhile]
  cases hrest : (c.rest.dropWhile q).head? with
  | none => rfl
  | some e => simpa [hrest] using hnone

/-- Characters of one sort are read to their end. -/
theorem Cursor.takeWhile_append {q : Char → Bool} {u z : List Char} (hall : ∀ d ∈ u, q d)
    (hz : z.head?.any q = false) (p : Position) :
    Cursor.takeWhile ⟨u ++ z, p⟩ q = (u, ⟨z, p.advance u⟩) := by
  have hstop : z.takeWhile q = [] ∧ z.dropWhile q = z := by
    cases z with
    | nil => exact ⟨rfl, rfl⟩
    | cons d z => simp_all
  simp only [takeWhile, List.takeWhile_append_of_pos hall, List.dropWhile_append_of_pos hall,
    hstop.1, hstop.2, List.append_nil]

/-- A word within the limit is read to its end. -/
theorem scanWord_append {max : Nat} {u z : List Char} (hall : ∀ d ∈ u, isWordPart d)
    (hz : z.head?.any isWordPart = false) (hmax : textSize u ≤ max) (p : Position) :
    scanWord max ⟨u ++ z, p⟩ = .ok (.ofWord (String.ofList u), ⟨z, p.advance u⟩) := by
  have hsize : ¬ (p.advance u).offset - p.offset > max := by
    rw [Position.offset_advance]
    omega
  simp only [scanWord, Cursor.takeWhile_append hall hz, if_neg hsize]

theorem takes_scanWord {max : Nat} {c c' : Cursor} {l : Lexeme}
    (h : scanWord max c = .ok (l, c')) : ∃ u, c.Passes u c' ∧ (∀ d ∈ u, isWordPart d) ∧
      c'.rest.head?.any isWordPart = false ∧ l = .ofWord (String.ofList u) ∧ textSize u ≤ max ∧
      ∀ max', textSize u ≤ max' → Takes (scanWord max') u c'.rest l := by
  obtain ⟨hpasses, hall, hstop⟩ := c.passes_takeWhile isWordPart
  simp only [scanWord] at h
  split at h
  · cases h
  · next hmax =>
    obtain ⟨rfl, rfl⟩ := Prod.mk.inj (Except.ok.inj h)
    refine ⟨_, hpasses, hall, hstop, rfl, ?_, fun max' hmax z hz p => ?_⟩
    · rw [← hpasses.offset]
      omega
    · have hpart := hz.any_head?_eq_false (fun _ => isSeparator_of_isWordPart) hstop
      exact scanWord_append hall hpart hmax p

theorem Mark.spelling_of_ofSpelling? {cs : List Char} {m : Mark}
    (h : Mark.ofSpelling? cs = some m) : m.spelling.toList = cs := by
  simpa using List.find?_some h

theorem Mark.length_spelling (m : Mark) :
    0 < m.spelling.toList.length ∧ m.spelling.toList.length ≤ 3 := by
  cases m <;> decide

/-- No mark stands there that is longer than the longest one. -/
theorem Mark.of_longest? {cs : List Char} {m : Mark} {n : Nat} (h : longest? cs = some (m, n)) :
    cs.take n = m.spelling.toList ∧ ∀ k, n < k → k ≤ 3 → ofSpelling? (cs.take k) = none := by
  simp only [longest?, List.findSome?_cons, List.findSome?_nil] at h
  cases h₃ : ofSpelling? (cs.take 3) with
  | some m₃ =>
    simp only [h₃, Option.map_some] at h
    cases h
    exact ⟨(spelling_of_ofSpelling? h₃).symm, fun k hk hk' => by omega⟩
  | none =>
    cases h₂ : ofSpelling? (cs.take 2) with
    | some m₂ =>
      simp only [h₃, h₂, Option.map_some, Option.map_none] at h
      cases h
      refine ⟨(spelling_of_ofSpelling? h₂).symm, fun k hk hk' => ?_⟩
      obtain rfl : k = 3 := by omega
      exact h₃
    | none =>
      cases h₁ : ofSpelling? (cs.take 1) with
      | some m₁ =>
        simp only [h₃, h₂, h₁, Option.map_some, Option.map_none] at h
        cases h
        refine ⟨(spelling_of_ofSpelling? h₁).symm, fun k hk hk' => ?_⟩
        obtain rfl | rfl : k = 2 ∨ k = 3 := by omega
        · exact h₂
        · exact h₃
      | none => simp [h₃, h₂, h₁] at h

/-- The longest mark is no shorter than any mark that the text begins with. -/
theorem Mark.length_le_of_longest? {cs : List Char} {m m' : Mark} {n : Nat}
    (h : longest? cs = some (m, n)) (hm' : m'.spelling.toList <+: cs) :
    m'.spelling.toList.length ≤ m.spelling.toList.length := by
  obtain ⟨hm, hlonger⟩ := of_longest? h
  have htake := List.prefix_iff_eq_take.mp hm'
  have hn : m'.spelling.toList.length ≤ n := by
    by_contra hlt
    have hnone := hlonger _ (Nat.lt_of_not_le hlt) m'.length_spelling.2
    rw [← htake, ofSpelling?_spelling] at hnone
    cases hnone
  rw [← hm, List.length_take]
  exact Nat.le_min.mpr ⟨hn, hm'.length_le⟩

/-- A mark that stands somewhere is the longest one if nothing longer there is a mark. -/
theorem Mark.longest?_of {cs : List Char} {m : Mark}
    (hm : cs.take m.spelling.toList.length = m.spelling.toList)
    (hlonger : ∀ k, m.spelling.toList.length < k → k ≤ 3 →
      ofSpelling? (cs.take k) = none ∨ cs.take k = m.spelling.toList) :
    ∃ n, longest? cs = some (m, n) ∧ cs.take n = m.spelling.toList := by
  have hlength := m.length_spelling
  have hself : ofSpelling? m.spelling.toList = some m := ofSpelling?_spelling m
  simp only [longest?, List.findSome?_cons, List.findSome?_nil]
  generalize m.spelling.toList = u at *
  obtain hu | hu | hu : u.length = 3 ∨ u.length = 2 ∨ u.length = 1 := by omega
  · rw [hu] at hm
    exact ⟨3, by simp [hm, hself], hm⟩
  · rw [hu] at hm hlonger
    rcases hlonger 3 (by omega) (by omega) with h₃ | h₃
    · exact ⟨2, by simp [h₃, hm, hself], hm⟩
    · exact ⟨3, by simp [h₃, hself], h₃⟩
  · rw [hu] at hm hlonger
    rcases hlonger 3 (by omega) (by omega) with h₃ | h₃
    · rcases hlonger 2 (by omega) (by omega) with h₂ | h₂
      · exact ⟨1, by simp [h₃, h₂, hm, hself], hm⟩
      · exact ⟨2, by simp [h₃, h₂, hself], h₂⟩
    · exact ⟨3, by simp [h₃, hself], h₃⟩

/-- No mark is written with a separator. -/
theorem Mark.isSeparator_spelling (m : Mark) : ∀ d ∈ m.spelling.toList, isSeparator d = false := by
  have h : m.spelling.toList.all fun d => !isSeparator d := by cases m <;> rfl
  simpa using h

theorem Mark.longest?_of_follows {u v z : List Char} {m : Mark} {n : Nat}
    (h : longest? (u ++ v) = some (m, n)) (hu : (u ++ v).take n = u) (hz : Follows v z) :
    ∃ n, longest? (u ++ z) = some (m, n) ∧ (u ++ z).take n = u := by
  obtain ⟨hm, hlonger⟩ := of_longest? h
  have hn : n ≤ u.length ∨ v = [] := by
    have hlength := congrArg List.length hu
    simp only [List.length_take, List.length_append] at hlength
    rcases Nat.lt_or_ge u.length n with hlt | hge
    · exact .inr (List.length_eq_zero_iff.mp (by omega))
    · exact .inl hge
  rw [hu] at hm
  rw [hm]
  refine longest?_of (by simp) fun k hk hk' => ?_
  rw [← hm] at hk ⊢
  have htake : (u ++ z).take k = u ++ z.take (k - u.length) := by
    rw [List.take_append, List.take_of_length_le (by omega)]
  rw [htake]
  have hlength : (z.take (k - u.length)).length ≤ k - u.length := List.length_take_le _ _
  have hprefix : z.take (k - u.length) <+: z := List.take_prefix _ _
  generalize z.take (k - u.length) = y at *
  -- Either the longer text stands in front of `v` as well, where it is no mark, or it has a
  -- separator in it.
  by_cases hy : ∀ d ∈ y, isSeparator d = false
  · obtain ⟨w, rfl⟩ := hz.isPrefix hy hprefix
    cases y with
    | nil => exact .inr (List.append_nil u)
    | cons d y =>
      rcases hn with hn | hn
      · have hnone := hlonger (u ++ d :: y).length (by simp; omega) (by simp at hlength ⊢; omega)
        rw [← List.append_assoc, List.take_left] at hnone
        exact .inl hnone
      · cases hn
  · refine .inl ?_
    cases hspelling : ofSpelling? (u ++ y) with
    | none => rfl
    | some m' =>
      refine absurd (fun d hd => m'.isSeparator_spelling d ?_) hy
      rw [spelling_of_ofSpelling? hspelling]
      exact List.mem_append_right u hd

theorem takes_scanMark {c c' : Cursor} {l : Lexeme} (hc : c.rest ≠ [])
    (h : scanMark c = .ok (l, c')) : ∃ u, u ≠ [] ∧ c.Passes u c' ∧ Takes scanMark u c'.rest l ∧
      (l = ⟨.newline, none⟩ ∧ u = ['\n'] ∨ ∃ m : Mark, l = ⟨.mark m, none⟩ ∧
        u = m.spelling.toList ∧ ∀ m' : Mark, m'.spelling.toList <+: c.rest →
          m'.spelling.toList.length ≤ m.spelling.toList.length) := by
  obtain ⟨d, cs, hcs⟩ := List.exists_cons_of_ne_nil hc
  simp only [scanMark, hcs] at h
  split at h
  · next hd =>
    obtain ⟨rfl, rfl⟩ := Prod.mk.inj (Except.ok.inj h)
    subst hd
    exact ⟨['\n'], by simp, by simpa [hcs] using c.passes_drop 1,
      fun z hz p => by simp [scanMark, Cursor.drop], .inl ⟨rfl, rfl⟩⟩
  · next hd =>
    split at h
    · next m n hlongest =>
      obtain ⟨rfl, rfl⟩ := Prod.mk.inj (Except.ok.inj h)
      have hu := (Mark.of_longest? hlongest).1
      have hpasses : c.Passes ((d :: cs).take n) (c.drop n) := hcs ▸ c.passes_drop n
      have hne : (d :: cs).take n ≠ [] := by
        intro hnil
        have := m.length_spelling
        rw [← hu, hnil] at this
        exact absurd this.1 (by simp)
      refine ⟨_, hne, hpasses, fun z hz p => ?_,
        .inr ⟨m, rfl, hu, fun m' hm' => Mark.length_le_of_longest? hlongest (hcs ▸ hm')⟩⟩
      have happend : (d :: cs).take n ++ (c.drop n).rest = d :: cs := by
        rw [← hpasses.rest, hcs]
      obtain ⟨n', hlongest', hu'⟩ := Mark.longest?_of_follows
        (u := (d :: cs).take n) (v := (c.drop n).rest) (by rwa [happend]) (by rw [happend]) hz
      generalize (d :: cs).take n = u at *
      cases u with
      | nil => exact absurd rfl hne
      | cons d' u =>
        obtain rfl : d' = d := by
          rw [List.cons_append] at happend
          exact (List.cons.inj happend).1
        have hrest : (d' :: u ++ z).drop n' = z := by
          have := List.take_append_drop n' (d' :: u ++ z)
          rw [hu'] at this
          exact List.append_cancel_left this
        simp only [List.cons_append] at hlongest' hu' hrest
        simp [scanMark, hd, hlongest', Cursor.drop, hu', hrest]
    · split at h <;> cases h

/-! ## Strings and characters -/

theorem unescape?_newline : unescape? '\n' = none := by decide

/-- A standard string ends with its quotation mark and stands on one line. -/
theorem takes_scanStandardFrom {cs content value : List Char} {p : Position} {c' : Cursor}
    (h : scanStandardFrom content p cs = .ok (value, c')) : ∃ u, '\n' ∉ u ∧
      Cursor.Passes ⟨cs, p⟩ (u ++ ['"']) c' ∧
      ∀ z p, scanStandardFrom content p (u ++ '"' :: z) =
        .ok (value, ⟨z, p.advance (u ++ ['"'])⟩) := by
  fun_induction scanStandardFrom content p cs with
  | case1 | case2 => cases h
  | case3 content p d cs p' value' hvalue ih =>
    obtain ⟨u, hu, hpasses, htakes⟩ := ih h
    have hd : d ≠ '\n' := by
      rintro rfl
      rw [unescape?_newline] at hvalue
      cases hvalue
    refine ⟨'\\' :: d :: u, by simp [hu, hd.symm],
      ⟨congrArg ('\\' :: d :: ·) hpasses.rest, hpasses.position⟩, fun z p => ?_⟩
    simp [scanStandardFrom, hvalue, htakes]
  | case4 => cases h
  | case5 => cases h
  | case6 content p cs _ _ _ =>
    obtain ⟨rfl, rfl⟩ := Prod.mk.inj (Except.ok.inj h)
    refine ⟨[], by simp, ⟨rfl, rfl⟩, fun z p => by simp [scanStandardFrom]⟩
  | case7 content p d cs hnil hcons hnewline hquote ih =>
    have hd : d ≠ '\\' := by
      cases cs with
      | nil => exact fun hd => hnil hd rfl
      | cons d' cs => exact fun hd => hcons d' cs hd rfl
    obtain ⟨u, hu, hpasses, htakes⟩ := ih h
    refine ⟨d :: u, by simp [hu, Ne.symm hnewline],
      ⟨congrArg (d :: ·) hpasses.rest, hpasses.position⟩, fun z p => ?_⟩
    simp [scanStandardFrom, hd, hnewline, hquote, htakes]

theorem takes_scanMultiLine {c c' : Cursor} {content : List Char}
    (h : scanMultiLine c = .ok (content, c')) :
    c.Passes (content ++ tripleQuote) c' ∧
      Takes scanMultiLine (content ++ tripleQuote) c'.rest content := by
  rcases ht : c.takeWhileTail (fun cs => !tripleQuote.isPrefixOf cs) with ⟨u, c₁⟩
  simp only [scanMultiLine, ht] at h
  split at h
  · cases h
  · next hne =>
    obtain ⟨rfl, rfl⟩ := Prod.mk.inj (Except.ok.inj h)
    obtain ⟨hpasses, hsplits⟩ := Cursor.splits_of_takeWhileTail ht
    have hstop := hsplits.stop.resolve_left (by simpa using hne)
    obtain ⟨v, hv⟩ : tripleQuote <+: c₁.rest := by simpa using hstop
    have hdrop : (c₁.drop 3).rest = v := by
      simp [Cursor.drop, ← hv, tripleQuote]
    refine ⟨⟨by rw [hpasses.rest, hdrop, List.append_assoc, hv], ?_⟩, fun z hz p => ?_⟩
    · simp [Cursor.drop, ← hv, tripleQuote, hpasses.position, Position.advance_append]
    · have hsplits' : Splits (fun cs => !tripleQuote.isPrefixOf cs) u (tripleQuote ++ z) := by
        refine ⟨fun b hb hb' => ?_, .inr (by simp [tripleQuote])⟩
        have := hsplits.inside b hb hb'
        rw [← hv] at this
        match b with
        | [d₁] | [d₁, d₂] | d₁ :: d₂ :: d₃ :: b =>
          simpa [tripleQuote, List.isPrefixOf] using this
      have hread := Cursor.takeWhileTail_of_splits hsplits' p
      rw [List.append_assoc, scanMultiLine, hread]
      simp [tripleQuote, Cursor.drop, Position.advance_append]

/-- How a string literal is written: on one line between quotation marks, or verbatim between
tripled ones. -/
inductive StringText : StringKind → List Char → Prop where
  | standard {u : List Char} (hu : '\n' ∉ u) : StringText .standard ('"' :: u ++ ['"'])
  | multiLine (u : List Char) : StringText .multiLine (tripleQuote ++ (u ++ tripleQuote))

theorem stringLexeme_ok {max : Nat} {kind : StringKind} {start c c' : Cursor}
    {content : List Char} {l : Lexeme} (h : stringLexeme max kind start content c = .ok (l, c')) :
    c = c' ∧ l = ⟨.string kind, some (String.ofList content)⟩ ∧
      c'.position.offset - start.position.offset ≤ max := by
  simp only [stringLexeme] at h
  split at h
  · cases h
  · next hmax =>
    obtain ⟨rfl, rfl⟩ := Prod.mk.inj (Except.ok.inj h)
    exact ⟨rfl, rfl, Nat.le_of_not_lt hmax⟩

theorem stringLexeme_of_size {max : Nat} {kind : StringKind} {content u w z : List Char}
    {p : Position} (hmax : textSize u ≤ max) :
    stringLexeme max kind ⟨w, p⟩ content ⟨z, p.advance u⟩ =
      .ok (⟨.string kind, some (String.ofList content)⟩, ⟨z, p.advance u⟩) := by
  rw [stringLexeme, if_neg]
  simp only [Position.offset_advance]
  omega

theorem takes_scanString {max : Nat} {c c' : Cursor} {l : Lexeme} (hc : c.rest.head? = some '"')
    (h : scanString max c = .ok (l, c')) : ∃ u kind content, StringText kind u ∧ c.Passes u c' ∧
      l = ⟨.string kind, some content⟩ ∧ textSize u ≤ max ∧
      ∀ max', textSize u ≤ max' → Takes (scanString max') u c'.rest l := by
  unfold scanString at h
  split at h
  · next htriple =>
    cases hm : scanMultiLine (c.drop 3) with
    | error r =>
      rw [hm] at h
      cases h
    | ok answer =>
      obtain ⟨content, c₁⟩ := answer
      rw [hm] at h
      obtain ⟨rfl, rfl, hmax⟩ := stringLexeme_ok h
      obtain ⟨hpasses, htakes⟩ := takes_scanMultiLine hm
      have hthree : c.Passes tripleQuote (c.drop 3) := Cursor.passes_of_startsWith htriple
      refine ⟨_, _, _, .multiLine content, hthree.trans hpasses, rfl,
        (hthree.trans hpasses).offset ▸ hmax, fun max' hmax z hz p => ?_⟩
      have hread := htakes z hz (p.advance tripleQuote)
      generalize content ++ tripleQuote = u at *
      have hstarts : Cursor.startsWith ⟨tripleQuote ++ u ++ z, p⟩ tripleQuote := by
        simp [Cursor.startsWith]
      have hdrop : Cursor.drop ⟨tripleQuote ++ u ++ z, p⟩ 3 = ⟨u ++ z, p.advance tripleQuote⟩ := by
        simp [Cursor.drop, tripleQuote]
      rw [scanString, if_pos hstarts, hdrop, hread]
      simp only [bind, Except.bind]
      rw [← Position.advance_append]
      exact stringLexeme_of_size hmax
  · next htriple =>
    dsimp only at h
    cases hm : scanStandardFrom [] (c.drop 1).position (c.drop 1).rest with
    | error r =>
      rw [hm] at h
      cases h
    | ok answer =>
      obtain ⟨content, c₁⟩ := answer
      rw [hm] at h
      obtain ⟨rfl, rfl, hmax⟩ := stringLexeme_ok h
      obtain ⟨u, hu, hpasses, htakes⟩ := takes_scanStandardFrom hm
      have hone : c.Passes ['"'] (c.drop 1) := Cursor.passes_of_head? hc
      refine ⟨_, _, _, .standard hu, hone.trans hpasses, rfl, (hone.trans hpasses).offset ▸ hmax,
        fun max' hmax z hz p => ?_⟩
      have hstarts : ¬ Cursor.startsWith ⟨'"' :: u ++ ['"'] ++ z, p⟩ tripleQuote := by
        intro hstarts
        refine htriple ?_
        have hprefix : tripleQuote <+: '"' :: u ++ ['"'] ++ z := by
          simpa [Cursor.startsWith] using hstarts
        have : tripleQuote <+: c.rest := by
          rw [(hone.trans hpasses).rest]
          exact (hz.append ('"' :: u ++ ['"'])).isPrefix
            (by simp [tripleQuote, isSeparator, isBlank]) hprefix
        simpa [Cursor.startsWith] using this
      rw [scanString, if_neg hstarts]
      simp only [Cursor.drop, List.cons_append, List.drop_succ_cons, List.drop_zero,
        List.take_succ_cons, List.take_zero, Position.advance_cons, Position.advance_nil,
        List.append_assoc, List.nil_append, htakes, bind, Except.bind]
      exact stringLexeme_of_size (p := p) (u := '"' :: u ++ ['"']) hmax

theorem takes_scanCharacterValue {c c' : Cursor} {value : Char}
    (h : scanCharacterValue c = .ok (value, c')) : ∃ u, '\n' ∉ u ∧ c.Passes u c' ∧
      ∀ z p, scanCharacterValue ⟨u ++ z, p⟩ = .ok (value, ⟨z, p.advance u⟩) := by
  unfold scanCharacterValue at h
  split at h
  · cases h
  · cases h
  · next d cs hcs =>
    split at h
    · next value' hvalue =>
      obtain ⟨rfl, rfl⟩ := Prod.mk.inj (Except.ok.inj h)
      have hd : d ≠ '\n' := by
        rintro rfl
        rw [unescape?_newline] at hvalue
        cases hvalue
      refine ⟨['\\', d], by simp [hd.symm], by simpa [hcs] using c.passes_drop 2, fun z p => ?_⟩
      simp [scanCharacterValue, hvalue, Cursor.drop]
    · cases h
  · next d cs hnil hcons hcs =>
    split at h
    · cases h
    · next hnewline =>
      split at h
      · cases h
      · next hquote =>
        obtain ⟨rfl, rfl⟩ := Prod.mk.inj (Except.ok.inj h)
        have hd : d ≠ '\\' := by
          cases cs with
          | nil => exact fun hd => hnil hd rfl
          | cons d' cs => exact fun hd => hcons d' cs hd rfl
        refine ⟨[d], by simp [Ne.symm hnewline], by simpa [hcs] using c.passes_drop 1,
          fun z p => ?_⟩
        simp [scanCharacterValue, hd, hnewline, hquote, Cursor.drop]

theorem takes_scanCharacter {c c' : Cursor} {l : Lexeme} (hc : c.rest.head? = some '\'')
    (h : scanCharacter c = .ok (l, c')) : ∃ u d, '\n' ∉ u ∧ c.Passes ('\'' :: u ++ ['\'']) c' ∧
      l = ⟨.character, some (Char.toString d)⟩ ∧
      Takes scanCharacter ('\'' :: u ++ ['\'']) c'.rest l := by
  cases hv : scanCharacterValue (c.drop 1) with
  | error r => simp [scanCharacter, hv, bind, Except.bind] at h
  | ok answer =>
    obtain ⟨value, c₁⟩ := answer
    simp only [scanCharacter, hv, bind, Except.bind] at h
    split at h
    · next hclose =>
      obtain ⟨rfl, rfl⟩ := Prod.mk.inj (Except.ok.inj h)
      obtain ⟨u, hu, hpasses, htakes⟩ := takes_scanCharacterValue hv
      have hone : c.Passes ['\''] (c.drop 1) := Cursor.passes_of_head? hc
      have hlast : c₁.Passes ['\''] (c₁.drop 1) := Cursor.passes_of_head? hclose
      refine ⟨u, value, hu, (hone.trans hpasses).trans hlast, rfl, fun z hz p => ?_⟩
      have hread := htakes ('\'' :: z) (p.after '\'')
      simp [scanCharacter, Cursor.drop, hread, bind, Except.bind, Cursor.peek?,
        Position.advance_append]
    · cases h

/-! ## Blanks and comments -/

/-- What stands between two tokens: blanks, and perhaps a comment, which reaches to the end
of its line. -/
inductive Gap : List Char → List Char → Prop where
  | blanks {bs v : List Char} (hbs : ∀ d ∈ bs, isBlank d)
      (hv : ∀ d ∈ v.head?, isBlank d = false ∧ d ≠ '#') : Gap bs v
  | comment {bs cs v : List Char} (hbs : ∀ d ∈ bs, isBlank d) (hcs : '\n' ∉ cs)
      (hv : ∀ d ∈ v.head?, d = '\n') : Gap (bs ++ '#' :: cs) v

/-- The comment in what stands between two tokens, nothing if there is none. -/
def commentIn (gap : List Char) : List Char := gap.dropWhile isBlank

theorem commentIn_blanks {bs : List Char} (hbs : ∀ d ∈ bs, isBlank d) (cs : List Char) :
    commentIn (bs ++ cs) = commentIn cs := by
  rw [commentIn, List.dropWhile_append_of_pos hbs, commentIn]

theorem gap_nil_iff {v : List Char} :
    Gap [] v ↔ ∀ d ∈ v.head?, isBlank d = false ∧ d ≠ '#' := by
  constructor
  · intro h
    generalize hgap : ([] : List Char) = gap at h
    cases h with
    | blanks _ hv => exact hv
    | comment => simp at hgap
  · exact .blanks (by simp)

/-- A blank more in front is nothing new. -/
theorem gap_cons_blank_iff {c : Char} {gap v : List Char} (hc : isBlank c) :
    Gap (c :: gap) v ↔ Gap gap v := by
  constructor
  · intro h
    generalize hcons : c :: gap = whole at h
    cases h with
    | blanks hbs hv =>
      subst hcons
      exact .blanks (fun d hd => hbs d (List.mem_cons_of_mem _ hd)) hv
    | @comment bs w _ hbs hw hv =>
      cases bs with
      | nil =>
        obtain ⟨rfl, -⟩ := List.cons.inj hcons
        cases hc
      | cons d bs =>
        obtain ⟨rfl, rfl⟩ := List.cons.inj hcons
        exact .comment (fun d hd => hbs d (List.mem_cons_of_mem _ hd)) hw hv
  · intro h
    cases h with
    | blanks hbs hv => exact .blanks (by simpa [hc] using hbs) hv
    | comment hbs hw hv =>
      rw [← List.cons_append]
      exact .comment (by simpa [hc] using hbs) hw hv

/-- A gap that begins with anything but a blank is a comment. -/
theorem gap_cons_iff {c : Char} {w v : List Char} (hc : isBlank c = false) :
    Gap (c :: w) v ↔ c = '#' ∧ '\n' ∉ w ∧ ∀ d ∈ v.head?, d = '\n' := by
  constructor
  · intro h
    generalize hcons : c :: w = whole at h
    cases h with
    | blanks hbs =>
      subst hcons
      rw [hbs c List.mem_cons_self] at hc
      cases hc
    | @comment bs w _ hbs hw hv =>
      cases bs with
      | nil =>
        obtain ⟨rfl, rfl⟩ := List.cons.inj hcons
        exact ⟨rfl, hw, hv⟩
      | cons d bs =>
        obtain ⟨rfl, -⟩ := List.cons.inj hcons
        rw [hbs c List.mem_cons_self] at hc
        cases hc
  · rintro ⟨rfl, hw, hv⟩
    exact .comment (by simp : ∀ d ∈ ([] : List Char), isBlank d) hw hv

theorem checkComment_ok_iff {max start : Nat} {c c' : Cursor} :
    checkComment max start c = .ok c' ↔ c' = c ∧ c.position.offset - start ≤ max := by
  simp only [checkComment]
  split
  · next h => simp [Nat.not_le.mpr h]
  · next h =>
    rw [Except.ok.injEq, eq_comm]
    exact (and_iff_left (Nat.le_of_not_lt h)).symm

/-- A comment is read up to the end of its line. -/
theorem skipComment_ok_iff {max start : Nat} {cs : List Char} {p : Position} {c' : Cursor} :
    skipTriviaFrom max (some start) p cs = .ok c' ↔ ∃ w, Cursor.Passes ⟨cs, p⟩ w c' ∧ '\n' ∉ w ∧
      (∀ d ∈ c'.rest.head?, d = '\n') ∧ c'.position.offset - start ≤ max := by
  induction cs generalizing p with
  | nil =>
    rw [skipTriviaFrom, checkComment_ok_iff]
    constructor
    · rintro ⟨rfl, hmax⟩
      exact ⟨[], .refl _, by simp, by simp, hmax⟩
    · rintro ⟨w, hw, -, -, hmax⟩
      obtain ⟨rfl, -⟩ := List.append_eq_nil_iff.mp hw.rest.symm
      obtain rfl := Cursor.passes_nil_iff.mp hw
      exact ⟨rfl, hmax⟩
  | cons c cs ih =>
    simp only [skipTriviaFrom]
    split
    · next hc =>
      rw [checkComment_ok_iff]
      constructor
      · rintro ⟨rfl, hmax⟩
        exact ⟨[], .refl _, by simp, by simp [hc], hmax⟩
      · rintro ⟨w, hw, hnewline, -, hmax⟩
        cases w with
        | nil =>
          obtain rfl := Cursor.passes_nil_iff.mp hw
          exact ⟨rfl, hmax⟩
        | cons d w =>
          obtain ⟨rfl, -⟩ := Cursor.passes_cons_iff.mp hw
          exact absurd (hc ▸ List.mem_cons_self) hnewline
    · next hc =>
      rw [ih]
      constructor
      · rintro ⟨w, hw, hnewline, hstop, hmax⟩
        exact ⟨c :: w, Cursor.passes_cons_iff.mpr ⟨rfl, hw⟩, by simp [hnewline, Ne.symm hc],
          hstop, hmax⟩
      · rintro ⟨w, hw, hnewline, hstop, hmax⟩
        cases w with
        | nil =>
          obtain rfl := Cursor.passes_nil_iff.mp hw
          exact absurd (hstop c rfl) hc
        | cons d w =>
          obtain ⟨rfl, htail⟩ := Cursor.passes_cons_iff.mp hw
          exact ⟨w, htail, fun h => hnewline (List.mem_cons_of_mem _ h), hstop, hmax⟩

section Skip

variable {max : Nat} {c : Char} {cs : List Char} {p : Position} {c' : Cursor}

/-- Nothing is skipped where neither a blank nor a comment begins. -/
theorem passesGap_iff_of_solid (hcs : ∀ d ∈ cs.head?, isBlank d = false ∧ d ≠ '#') :
    (∃ gap, Cursor.Passes ⟨cs, p⟩ gap c' ∧ Gap gap c'.rest ∧ textSize (commentIn gap) ≤ max) ↔
      c' = ⟨cs, p⟩ := by
  constructor
  · rintro ⟨gap, hpasses, hgap, -⟩
    cases gap with
    | nil => exact Cursor.passes_nil_iff.mp hpasses
    | cons d gap =>
      obtain rfl : cs = d :: (gap ++ c'.rest) := hpasses.rest
      obtain ⟨hblank, hhash⟩ := hcs d rfl
      exact absurd ((gap_cons_iff hblank).mp hgap).1 hhash
  · rintro rfl
    exact ⟨[], .refl _, gap_nil_iff.mpr hcs, Nat.zero_le _⟩

/-- A blank is skipped together with what is skipped behind it. -/
theorem passesGap_iff_of_blank (hblank : isBlank c) :
    (∃ gap, Cursor.Passes ⟨c :: cs, p⟩ gap c' ∧ Gap gap c'.rest ∧
        textSize (commentIn gap) ≤ max) ↔
      ∃ gap, Cursor.Passes ⟨cs, p.after c⟩ gap c' ∧ Gap gap c'.rest ∧
        textSize (commentIn gap) ≤ max := by
  have hcomment (gap : List Char) : commentIn (c :: gap) = commentIn gap := by
    simp [commentIn, hblank]
  constructor
  · rintro ⟨gap, hpasses, hgap, hmax⟩
    cases gap with
    | nil =>
      obtain rfl := Cursor.passes_nil_iff.mp hpasses
      exact absurd (gap_nil_iff.mp hgap c rfl).1 (by simp [hblank])
    | cons d gap =>
      obtain ⟨rfl, htail⟩ := Cursor.passes_cons_iff.mp hpasses
      exact ⟨gap, htail, (gap_cons_blank_iff hblank).mp hgap, hcomment gap ▸ hmax⟩
  · rintro ⟨gap, hpasses, hgap, hmax⟩
    exact ⟨c :: gap, Cursor.passes_cons_iff.mpr ⟨rfl, hpasses⟩,
      (gap_cons_blank_iff hblank).mpr hgap, (hcomment gap).symm ▸ hmax⟩

/-- Where a comment begins, the comment is all that is skipped. -/
theorem passesGap_iff_of_comment :
    (∃ gap, Cursor.Passes ⟨'#' :: cs, p⟩ gap c' ∧ Gap gap c'.rest ∧
        textSize (commentIn gap) ≤ max) ↔
      ∃ w, Cursor.Passes ⟨cs, p.after '#'⟩ w c' ∧ '\n' ∉ w ∧ (∀ d ∈ c'.rest.head?, d = '\n') ∧
        c'.position.offset - p.offset ≤ max := by
  have hsize {w : List Char} (hpasses : Cursor.Passes ⟨'#' :: cs, p⟩ ('#' :: w) c') :
      c'.position.offset - p.offset = textSize (commentIn ('#' :: w)) := hpasses.offset
  constructor
  · rintro ⟨gap, hpasses, hgap, hmax⟩
    cases gap with
    | nil =>
      obtain rfl := Cursor.passes_nil_iff.mp hpasses
      exact absurd rfl (gap_nil_iff.mp hgap '#' rfl).2
    | cons d w =>
      obtain ⟨rfl, hw⟩ := Cursor.passes_cons_iff.mp hpasses
      obtain ⟨-, hnewline, hend⟩ := (gap_cons_iff rfl).mp hgap
      exact ⟨w, hw, hnewline, hend, hsize hpasses ▸ hmax⟩
  · rintro ⟨w, hw, hnewline, hend, hmax⟩
    have hpasses : Cursor.Passes ⟨'#' :: cs, p⟩ ('#' :: w) c' :=
      Cursor.passes_cons_iff.mpr ⟨rfl, hw⟩
    exact ⟨_, hpasses, (gap_cons_iff rfl).mpr ⟨rfl, hnewline, hend⟩, hsize hpasses ▸ hmax⟩

/-- What is skipped in front of a token is all blanks and a comment, if that is not too long. -/
theorem skipTriviaFrom_ok_iff :
    skipTriviaFrom max none p cs = .ok c' ↔ ∃ gap, Cursor.Passes ⟨cs, p⟩ gap c' ∧
      Gap gap c'.rest ∧ textSize (commentIn gap) ≤ max := by
  induction cs generalizing p with
  | nil => rw [passesGap_iff_of_solid (by simp), skipTriviaFrom, Except.ok.injEq, eq_comm]
  | cons c cs ih =>
    simp only [skipTriviaFrom]
    split
    · next hblank => rw [ih, passesGap_iff_of_blank hblank]
    · next hblank =>
      split
      · next hhash =>
        subst hhash
        rw [skipComment_ok_iff, passesGap_iff_of_comment]
      · next hhash =>
        have hsolid : ∀ d ∈ (c :: cs).head?, isBlank d = false ∧ d ≠ '#' := by
          simp [hblank, hhash]
        rw [passesGap_iff_of_solid hsolid, Except.ok.injEq, eq_comm]

end Skip

theorem skipTrivia_ok_iff {max : Nat} {c c' : Cursor} :
    skipTrivia max c = .ok c' ↔ ∃ gap, c.Passes gap c' ∧ Gap gap c'.rest ∧
      textSize (commentIn gap) ≤ max :=
  skipTriviaFrom_ok_iff

end GoloSyntax
