import GoloSyntax.Proofs.Reading.Room
import GoloSyntax.Proofs.Shape.Arena

/-! # Limits only cut off

The limits of reading decide whether a token stream is refused and nothing else: as long as no
limit is to blame, wider ones give the same tree or the same error, and among limits of one
depth exactly those with room for the tree give it (`parse_of_wider`).
-/
namespace GoloSyntax

theorem ParseFault.isLimit_iff {fault : ParseFault} : fault.isLimit ↔
    fault.kind = .recursionLimitExceeded ∨ fault.kind = .limitExceeded := by
  cases fault with
  | unexpected expected found text => cases found <;> simp [isLimit, kind]
  | _ => simp [isLimit, kind]

open Reading

variable {stream : TokenStream} {limits limits' : Limits} {t : Tree}

/-- Wider limits change nothing, unless a limit was to blame. -/
theorem parse_eq_of_room (hdepth : limits.maxNestingDepth ≤ limits'.maxNestingDepth)
    (hnodes : limits.maxTreeNodes ≤ limits'.maxTreeNodes)
    (h : ∀ e, parse stream limits = .error e → ¬ e.fault.isLimit) :
    parse stream limits' = parse stream limits := by
  have hroom : Roomier (parse stream limits) (parse stream limits') :=
    outcome_of_room hdepth hnodes
  revert h hroom
  generalize parse stream limits = x, parse stream limits' = x'
  intro h hroom
  cases hroom with
  | same => rfl
  | limited he => exact absurd he (h _ rfl)

/-- The nodes that are allowed are those that the tree may have. -/
theorem size_le_of_parse (h : parse stream limits = .ok t) : t.size ≤ limits.maxTreeNodes := by
  have hle : t.size ≤ max 1 limits.maxTreeNodes := size_of_parse h
  have htwo : 2 ≤ t.size := two_le_size_of_parse h
  omega

/-- What can be read within the levels that are allowed becomes a tree exactly if there is room for
its nodes. -/
theorem exists_parse_iff_of_reads {r : Reader} {xs : List Construct} (htexts : stream.HasTexts)
    (h : Reads .byText limits.maxNestingDepth [.part .compilationUnit]
      (stream.reader stream.symbols.text?) r xs) :
    (∃ t, parse stream limits = .ok t) ↔ 1 + Construct.countAll xs ≤ limits.maxTreeNodes := by
  constructor
  · rintro ⟨t, ht⟩
    let wide : Limits := { limits with
      maxTreeNodes := max limits.maxTreeNodes (1 + Construct.countAll xs) }
    have hroom : 1 + Construct.countAll xs ≤ wide.maxTreeNodes := Nat.le_max_right _ _
    obtain ⟨t', ht', -, hsize⟩ := parse_complete htexts hroom h
    have hsame : parse stream wide = parse stream limits :=
      parse_eq_of_room (Nat.le_refl _) (Nat.le_max_left _ _) fun e he => by
        rw [ht] at he
        cases he
    obtain rfl : t' = t := Except.ok.inj (ht'.symm.trans (hsame.trans ht))
    exact hsize ▸ size_le_of_parse ht
  · intro hsize
    obtain ⟨t, ht, -⟩ := parse_complete htexts hsize h
    exact ⟨t, ht⟩

/-- Within wider limits a token stream gives the same tree or the same error, unless a limit was
to blame for the error; and a tree that is made within limits of the same depth is made exactly
if there is room for its nodes. -/
theorem parse_of_wider (stream : TokenStream) (limits limits' : Limits)
    (hdepth : limits.maxNestingDepth ≤ limits'.maxNestingDepth)
    (hnodes : limits.maxTreeNodes ≤ limits'.maxTreeNodes) :
    ((∀ e, parse stream limits = .error e →
        e.kind ≠ .recursionLimitExceeded ∧ e.kind ≠ .limitExceeded) →
      parse stream limits' = parse stream limits) ∧
    (limits.maxNestingDepth = limits'.maxNestingDepth → ∀ t, parse stream limits' = .ok t →
      ((∃ t', parse stream limits = .ok t') ↔ t.size ≤ limits.maxTreeNodes)) := by
  refine ⟨fun h => parse_eq_of_room hdepth hnodes fun e he hlimit => ?_, fun heq t ht => ?_⟩
  · rcases ParseFault.isLimit_iff.mp hlimit with hkind | hkind
    · exact (h e he).1 hkind
    · exact (h e he).2 hkind
  · constructor
    · rintro ⟨t', ht'⟩
      have hsame : parse stream limits' = parse stream limits :=
        parse_eq_of_room hdepth hnodes fun e he => by rw [ht'] at he; cases he
      obtain rfl : t = t' := Except.ok.inj (ht.symm.trans (hsame.trans ht'))
      exact size_le_of_parse ht'
    · exact fun hsize => ⟨t, parse_of_size heq ht hsize⟩

/-- The declaration of a sum has seven nodes: with seven allowed it is read as with more, and
with six it is refused for that reason only. -/
theorem parse_sumFunction_of_wider :
    parse sumFunction {} = parse sumFunction { maxTreeNodes := 7 } ∧
      ¬ ∃ t, parse sumFunction { maxTreeNodes := 6 } = .ok t := by
  have hsize : (parse sumFunction { maxTreeNodes := 7 }).toOption.map Tree.size = some 7 := by
    decide +kernel
  obtain ⟨t, ht, hseven⟩ : ∃ t, parse sumFunction { maxTreeNodes := 7 } = .ok t ∧ t.size = 7 := by
    cases ht : parse sumFunction { maxTreeNodes := 7 } with
    | error e =>
      rw [ht] at hsize
      cases hsize
    | ok t =>
      rw [ht] at hsize
      exact ⟨t, rfl, Option.some.inj hsize⟩
  refine ⟨(parse_of_wider sumFunction { maxTreeNodes := 7 } {} (by decide) (by decide)).1
    fun e he => ?_, fun h => ?_⟩
  · rw [ht] at he
    cases he
  · have hle := ((parse_of_wider sumFunction { maxTreeNodes := 6 } { maxTreeNodes := 7 }
      (by decide) (by decide)).2 rfl t ht).mp h
    rw [hseven] at hle
    exact absurd hle (by decide)

end GoloSyntax
