import GoloSyntax.Text.Quoted
import Mathlib.Data.List.Basic

/-! # Quoted text can be read back

The ways in which characters are written between two delimiters form a code without common
beginnings (`Written.append_inj`): a character that is written as itself is neither a backslash
nor the delimiter, the letter behind a backslash tells the escapes apart, and a code point ends at
its closing brace.  No character begins with the delimiter, so a quoted text says where it ends
and what it is made of (`quoteText_injective`, `quoteCharacter_injective`).
-/
namespace GoloSyntax

/-! ## Digits -/

theorem digitChar_inj {m n : Nat} (hm : m < 16) (hn : n < 16)
    (h : Nat.digitChar m = Nat.digitChar n) : m = n := by
  have hall : ∀ m : Fin 16, ∀ n : Fin 16, Nat.digitChar m = Nat.digitChar n → m = n := by decide
  exact congrArg Fin.val (hall ⟨m, hm⟩ ⟨n, hn⟩ h)

/-- A number is told by its digits in base sixteen. -/
theorem toDigits_sixteen_inj {m n : Nat} (h : Nat.toDigits 16 m = Nat.toDigits 16 n) : m = n := by
  induction m using Nat.strongRecOn generalizing n with
  | ind m ih =>
    have hm := Nat.toDigits_eq_if (b := 16) (n := m) (by decide)
    have hn := Nat.toDigits_eq_if (b := 16) (n := n) (by decide)
    rw [h] at hm
    have hboth := hn.symm.trans hm
    by_cases hlt : m < 16 <;> by_cases hlt' : n < 16
    · rw [if_pos hlt, if_pos hlt'] at hboth
      exact (digitChar_inj hlt' hlt (List.singleton_inj.mp hboth)).symm
    · rw [if_pos hlt, if_neg hlt'] at hboth
      obtain ⟨hfront, -⟩ := List.append_inj' (show _ = [] ++ [m.digitChar] from hboth) rfl
      exact absurd hfront Nat.toDigits_ne_nil
    · rw [if_neg hlt, if_pos hlt'] at hboth
      obtain ⟨hfront, -⟩ := List.append_inj' (show [] ++ [n.digitChar] = _ from hboth) rfl
      exact absurd hfront.symm Nat.toDigits_ne_nil
    · rw [if_neg hlt, if_neg hlt'] at hboth
      obtain ⟨hfront, hdigit⟩ := List.append_inj' hboth rfl
      have hquotient := ih (m / 16) (by omega) hfront.symm
      have hremainder := digitChar_inj (by omega) (by omega) (List.singleton_inj.mp hdigit)
      omega

theorem digitChar_ne {c : Char} (hdigit : ∀ m : Fin 16, Nat.digitChar m ≠ c) (hstar : c ≠ '*')
    (n : Nat) : Nat.digitChar n ≠ c := by
  by_cases hn : n < 16
  · exact hdigit ⟨n, hn⟩
  · rw [Nat.digitChar_eq_star.mpr (by omega)]
    exact hstar.symm

/-- A character that is no digit does not stand among the digits of a number in base sixteen. -/
theorem not_mem_toDigits {c : Char} (hdigit : ∀ m : Fin 16, Nat.digitChar m ≠ c) (hstar : c ≠ '*')
    (n : Nat) : c ∉ Nat.toDigits 16 n := by
  induction n using Nat.strongRecOn with
  | ind n ih =>
    rw [Nat.toDigits_eq_if (by decide)]
    split
    · exact fun h => digitChar_ne hdigit hstar n (List.mem_singleton.mp h).symm
    · intro h
      rcases List.mem_append.mp h with h | h
      · exact ih (n / 16) (by omega) h
      · exact digitChar_ne hdigit hstar _ (List.mem_singleton.mp h).symm

theorem brace_not_mem_toDigits (n : Nat) : '\x7d' ∉ Nat.toDigits 16 n :=
  not_mem_toDigits (by decide) (by decide) n

/-! ## One character -/

/-- What stands in front of the first occurrence of a mark, and what stands behind it. -/
theorem append_mark_inj {α : Type} {mark : α} {us vs xs ys : List α} (hus : mark ∉ us)
    (hvs : mark ∉ vs) (h : us ++ mark :: xs = vs ++ mark :: ys) : us = vs ∧ xs = ys := by
  induction us generalizing vs with
  | nil =>
    cases vs with
    | nil => simpa using h
    | cons v vs => exact absurd (List.cons.inj h).1 (List.ne_of_not_mem_cons hvs)
  | cons u us ih =>
    cases vs with
    | nil => exact absurd (List.cons.inj h).1.symm (List.ne_of_not_mem_cons hus)
    | cons v vs =>
      simp only [List.cons_append, List.cons.injEq, List.mem_cons, not_or] at h hus hvs
      obtain ⟨rfl, h⟩ := h
      simpa using ih hus.2 hvs.2 h

/-- The character that a letter behind a backslash stands for. -/
def shortMeaning : Char → Char
  | '0' => '\x00'
  | 't' => '\t'
  | 'n' => '\n'
  | 'r' => '\r'
  | letter => letter

/-- The ways in which a character is written between two delimiters. -/
inductive Written (delimiter c : Char) : List Char → Prop where
  | plain (hslash : c ≠ '\\') (hdelimiter : c ≠ delimiter) : Written delimiter c [c]
  | short {letter : Char} (hletter : letter ≠ 'u') (hc : c = shortMeaning letter) :
    Written delimiter c ['\\', letter]
  | codePoint :
    Written delimiter c ('\\' :: 'u' :: '\x7b' :: (Nat.toDigits 16 c.toNat ++ ['\x7d']))

theorem toNat_inj {c d : Char} (h : c.toNat = d.toNat) : c = d :=
  Char.ext (UInt32.toNat_inj.mp h)

/-- Every character is written in one of these ways, between marks that stand for themselves behind
a backslash. -/
theorem written_escapeWithin {delimiter : Char} (hu : delimiter ≠ 'u')
    (hself : shortMeaning delimiter = delimiter) (c : Char) :
    Written delimiter c (escapeWithin delimiter c).toList := by
  unfold escapeWithin
  split_ifs with hzero htab hfeed hreturn hmark hpoint
  · exact .short (by decide) hzero
  · exact .short (by decide) htab
  · exact .short (by decide) hfeed
  · exact .short (by decide) hreturn
  · have hchars : ("\\" ++ c.toString).toList = ['\\', c] := by simp
    rw [hchars]
    rcases hmark with rfl | rfl
    · exact .short (by decide) rfl
    · exact .short hu hself.symm
  · simpa [hexDigits] using Written.codePoint
  · obtain ⟨hslash, hdelimiter⟩ := not_or.mp hmark
    simpa using Written.plain hslash hdelimiter

namespace Written

variable {delimiter c d : Char} {u v x y : List Char}

/-- A text cannot go on behind an opening mark with a written character and with the closing mark. -/
theorem ne_delimiter (h : Written delimiter c u) (hslash : delimiter ≠ '\\') :
    u ++ x ≠ delimiter :: y := by
  cases h with
  | plain _ hdelimiter => exact fun he => hdelimiter (List.cons.inj he).1
  | short _ _ => exact fun he => hslash (List.cons.inj he).1.symm
  | codePoint => exact fun he => hslash (List.cons.inj he).1.symm

/-- A text that begins with a written character tells the character and what comes behind it. -/
theorem append_inj (hu : Written delimiter c u) (hv : Written delimiter d v)
    (h : u ++ x = v ++ y) : c = d ∧ x = y := by
  cases hu with
  | plain hslash _ =>
    cases hv with
    | plain _ _ => simpa using h
    | short _ _ => exact absurd (List.cons.inj h).1 hslash
    | codePoint => exact absurd (List.cons.inj h).1 hslash
  | short hletter hc =>
    cases hv with
    | plain hslash _ => exact absurd (List.cons.inj h).1.symm hslash
    | short _ hd =>
      simp only [List.cons_append, List.nil_append, List.cons.injEq, true_and] at h
      obtain ⟨rfl, hrest⟩ := h
      exact ⟨hc.trans hd.symm, hrest⟩
    | codePoint =>
      simp only [List.cons_append, List.cons.injEq, true_and] at h
      exact absurd h.1 hletter
  | codePoint =>
    cases hv with
    | plain hslash _ => exact absurd (List.cons.inj h).1.symm hslash
    | short hletter _ =>
      simp only [List.cons_append, List.cons.injEq, true_and] at h
      exact absurd h.1.symm hletter
    | codePoint =>
      -- the digits end at the first brace
      simp only [List.cons_append, List.append_assoc, List.cons.injEq, true_and,
        List.nil_append] at h
      obtain ⟨hdigits, hrest⟩ := append_mark_inj (brace_not_mem_toDigits _)
        (brace_not_mem_toDigits _) h
      exact ⟨toNat_inj (toDigits_sixteen_inj hdigits), hrest⟩

end Written

/-! ## Texts and characters between their marks -/

theorem written_in_text (c : Char) : Written '"' c (escapeWithin '"' c).toList :=
  written_escapeWithin (by decide) (by decide) c

theorem written_in_character (c : Char) : Written '\'' c (escapeWithin '\'' c).toList :=
  written_escapeWithin (by decide) (by decide) c

theorem foldl_append_toList (f : Char → String) (cs : List Char) (out : String) :
    (cs.foldl (fun out c => out ++ f c) out).toList =
      out.toList ++ cs.flatMap fun c => (f c).toList := by
  induction cs generalizing out with
  | nil => simp
  | cons c cs ih => simp [ih]

theorem quoteText_toList (text : String) : (quoteText text).toList =
    '"' :: (text.toList.flatMap fun c => (escapeWithin '"' c).toList) ++ ['"'] := by
  simp [quoteText, String.foldl_eq_foldl_toList, foldl_append_toList]

/-- What stands behind an opening mark is made of the characters up to the closing one. -/
theorem written_text_inj {cs ds : List Char} {x y : List Char}
    (h : (cs.flatMap fun c => (escapeWithin '"' c).toList) ++ '"' :: x =
      (ds.flatMap fun c => (escapeWithin '"' c).toList) ++ '"' :: y) : cs = ds := by
  induction cs generalizing ds with
  | nil =>
    cases ds with
    | nil => rfl
    | cons d ds =>
      rw [List.flatMap_cons, List.append_assoc] at h
      exact absurd h.symm ((written_in_text d).ne_delimiter (by decide))
  | cons c cs ih =>
    cases ds with
    | nil =>
      rw [List.flatMap_cons, List.append_assoc] at h
      exact absurd h ((written_in_text c).ne_delimiter (by decide))
    | cons d ds =>
      rw [List.flatMap_cons, List.flatMap_cons, List.append_assoc, List.append_assoc] at h
      obtain ⟨rfl, hrest⟩ := (written_in_text c).append_inj (written_in_text d) h
      rw [ih hrest]

theorem quoteText_injective : Function.Injective quoteText := by
  intro s t h
  have hlists := congrArg String.toList h
  rw [quoteText_toList, quoteText_toList, List.cons_append, List.cons_append,
    List.cons.injEq] at hlists
  exact String.ext (written_text_inj hlists.2)

theorem quoteCharacter_injective : Function.Injective quoteCharacter := by
  intro c d h
  have hlists := congrArg String.toList h
  simp only [quoteCharacter, String.toList_append, List.append_assoc] at hlists
  exact ((written_in_character c).append_inj (written_in_character d)
    (List.append_cancel_left hlists)).1

end GoloSyntax
