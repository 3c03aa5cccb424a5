import GoloSyntax.Proofs.Reading.CutRules
import GoloSyntax.Proofs.Reading.Rounds
import GoloSyntax.Proofs.Token.Tiling

/-! # Truncated token streams

What can be read as a compilation unit can be read from its first tokens alone, or else reading
stops for want of more input (`outcome_of_take`).  There is one way in which reading less takes
more: between empty brackets, where the closing one is missing, an argument or element is looked
for, and that takes levels of nesting that the whole stream does without.

If the first tokens include an end of input, nothing behind it was looked at in the first place
(`parse_congr`).
-/
namespace GoloSyntax

open Reading

variable {stream : TokenStream} {limits : Limits} {t : Tree}

namespace TokenStream

/-- The first tokens of a stream. -/
def take (s : TokenStream) (k : Nat) : TokenStream := ⟨s.tokens.take k, s.symbols⟩

/-- Where the last token ends. -/
def stop (s : TokenStream) : Position := (s.tokens.back?.map (·.span.stop)).getD .start

/-- The kinds of all tokens. -/
def kinds (s : TokenStream) : List TokenKind := s.tokens.toList.map (·.kind)

theorem Resolves.take (h : stream.Resolves) (k : Nat) : (stream.take k).Resolves := by
  intro token hmem
  refine h token ?_
  have hlist : token ∈ stream.tokens.toList.take k := by
    simpa [TokenStream.take] using Array.mem_toList_iff.mpr hmem
  exact Array.mem_toList_iff.mp (List.mem_of_mem_take hlist)

end TokenStream

/-! ## Cutting a stream -/

theorem toList_take (k : Nat) : (stream.take k).tokens.toList = stream.tokens.toList.take k := by
  simp [TokenStream.take]

/-- Tokens without an end of input end behind the last one. -/
theorem splitAtEnd_of_forall {tokens : Array Token}
    (hfront : ∀ token ∈ tokens.toList, token.kind ≠ .endOfInput) :
    splitAtEnd tokens =
      (tokens.toList, .endAt ((tokens.back?.map (·.span.stop)).getD .start)) := by
  have hall : ∀ token ∈ tokens.toList, (token.kind != .endOfInput) = true := by simpa using hfront
  rw [splitAtEnd_eq, List.takeWhile_eq_self_iff.mpr hall, List.dropWhile_eq_nil_iff.mpr hall]
  rfl

/-- The first tokens without an end of input stand in front of it. -/
theorem splitAtEnd_take {k : Nat}
    (hfront : ∀ token ∈ stream.tokens.toList.take k, token.kind ≠ .endOfInput) :
    splitAtEnd (stream.take k).tokens =
        (stream.tokens.toList.take k, .endAt (stream.take k).stop) ∧
      (splitAtEnd stream.tokens).1 = stream.tokens.toList.take k ++
        (stream.tokens.toList.drop k).takeWhile (·.kind != .endOfInput) := by
  constructor
  · rw [← toList_take] at hfront ⊢
    exact splitAtEnd_of_forall hfront
  · rw [splitAtEnd_eq]
    conv_lhs => rw [← List.take_append_drop k stream.tokens.toList]
    exact List.takeWhile_append_of_pos (by simpa using hfront)

/-- The first tokens with an end of input among them go up to there. -/
theorem splitAtEnd_take_of_mem {k : Nat}
    (hend : ∃ token ∈ stream.tokens.toList.take k, token.kind = .endOfInput) :
    splitAtEnd (stream.take k).tokens = splitAtEnd stream.tokens := by
  have hsplit := List.take_append_drop k stream.tokens.toList
  have hdrop : (stream.tokens.toList.take k).dropWhile (·.kind != .endOfInput) ≠ [] := by
    rw [ne_eq, List.dropWhile_eq_nil_iff]
    obtain ⟨token, hmem, hkind⟩ := hend
    exact fun hall => by simpa [hkind] using hall token hmem
  obtain ⟨token, rest, hrest⟩ := List.exists_cons_of_ne_nil hdrop
  rw [splitAtEnd_eq, splitAtEnd_eq, toList_take]
  generalize stream.tokens.toList.take k = front at *
  generalize stream.tokens.toList.drop k = behind at *
  rw [← hsplit, List.takeWhile_append, List.dropWhile_append, hrest]
  rw [if_neg]
  · rfl
  · intro hlength
    have hlength' := congrArg List.length (List.takeWhile_append_dropWhile
      (p := (·.kind != .endOfInput)) (l := front))
    simp only [List.length_append, hrest, List.length_cons] at hlength'
    omega

/-- The two lists that a stream is cut into. -/
def TokenStream.cutAt (stream : TokenStream) (limits : Limits) (k : Nat)
    (hdot : ∀ token ∈ (stream.take k).tokens.back?, token.kind ≠ .mark .dot) : Reading.Cut where
  whole := stream.context limits
  short := (stream.take k).context limits
  front := stream.tokens.toList.take k
  behind := (stream.tokens.toList.drop k).takeWhile (·.kind != .endOfInput)
  maxNodes := rfl
  wholeEnd := kind_splitAtEnd _
  endKind := kind_splitAtEnd _
  noDot := by
    intro token htoken
    rw [← toList_take, Array.getLast?_toList] at htoken
    exact hdot token htoken

theorem inBrackets_append {front behind : List TokenKind} (h : InBrackets front behind)
    (more : List TokenKind) : InBrackets front (behind ++ more) := by
  obtain ⟨left, right, before, after, i, j, hbracket, hfront, rfl⟩ := h
  exact ⟨left, right, before, after ++ more, i, j, hbracket, hfront, by simp⟩

/-- The first tokens of what is read as a compilation unit, cut behind any token but a point,
are read as one too, or they end too early: either more input is asked for where the last token
ends, or the cut leaves brackets open that the next token closes, and it takes more levels of
nesting than there are to find out. -/
theorem outcome_of_take (hresolves : stream.Resolves) (h : parse stream limits = .ok t) (k : Nat)
    (hdot : ∀ token ∈ (stream.take k).tokens.back?, token.kind ≠ .mark .dot) :
    (∃ t', parse (stream.take k) limits = .ok t') ∨
      ∃ e, parse (stream.take k) limits = .error e ∧ e.position = (stream.take k).stop ∧
        (e.kind = .unexpectedEndOfInput ∨ e.kind = .recursionLimitExceeded ∧
          InBrackets (stream.kinds.take k) (stream.kinds.drop k)) := by
  by_cases hend : ∃ token ∈ stream.tokens.toList.take k, token.kind = .endOfInput
  · exact .inl ⟨t, (parse_congr limits (splitAtEnd_take_of_mem hend) rfl).trans h⟩
  have hfront : ∀ token ∈ stream.tokens.toList.take k, token.kind ≠ .endOfInput :=
    fun token hmem hkind => hend ⟨token, hmem, hkind⟩
  obtain ⟨hshort, hwhole⟩ := splitAtEnd_take hfront
  let K := stream.cutAt limits k hdot
  have hcut {id : NodeId} {s : State} (hrun : Rule.enter (stream.context limits)
      limits.maxNestingDepth .compilationUnit .start
        ⟨(splitAtEnd stream.tokens).1, .start, .ofSymbols stream.symbols⟩ = .ok (id, s)) :
      K.Cuts True id s (Rule.enter ((stream.take k).context limits) limits.maxNestingDepth
        .compilationUnit .start ⟨(splitAtEnd (stream.take k).tokens).1, .start,
          .ofSymbols (stream.take k).symbols⟩) := by
    have hside : K.Side True True
        ⟨(splitAtEnd stream.tokens).1, .start, .ofSymbols stream.symbols⟩
        ⟨(splitAtEnd (stream.take k).tokens).1, .start, .ofSymbols (stream.take k).symbols⟩ :=
      Reading.Cut.side_of_suffix trivial hwhole (by rw [hshort]) List.suffix_rfl rfl rfl
    obtain ⟨n, hn, hrun⟩ := exists_of_enter hrun
    rw [hn]
    exact Reading.Cut.Curtails.compilationUnit (K.keeps n) _ _ _ _ id s hside hrun
  have hparse := parse_eq (stream.take k) limits
  rw [parse_eq] at h
  split at h
  · cases h
  · next root s hrun =>
    replace hcut := hcut hrun
    revert hcut hparse
    rcases Rule.enter ((stream.take k).context limits) limits.maxNestingDepth .compilationUnit .start
      _ with e | ⟨id', s'⟩
    · rintro hparse (_ | ⟨he⟩)
      refine .inr ⟨e, hparse, ?_⟩
      have hplace : K.short.endToken.span.start = (stream.take k).stop := by
        show (splitAtEnd (stream.take k).tokens).2.span.start = _
        rw [hshort]
        rfl
      cases he with
      | endOfInput hfault =>
        obtain ⟨hposition, expected, text, hfault⟩ := hfault
        exact ⟨hposition.trans hplace, .inl (by rw [ParseError.kind, hfault, ParseFault.kind])⟩
      | stalled kind hfault =>
        obtain ⟨i, -, -, hconcerns⟩ := concerns_of_parse (hresolves.take k) hparse
        rw [hfault] at hconcerns
        cases hconcerns
      | tooDeep max hfault hposition hbrackets =>
        refine ⟨hposition.trans hplace, .inr ⟨by rw [ParseError.kind, hfault, ParseFault.kind], ?_⟩⟩
        have hkinds : stream.kinds.drop k = K.behind.map (·.kind) ++
            ((stream.tokens.toList.drop k).dropWhile (·.kind != .endOfInput)).map (·.kind) := by
          rw [← List.map_append]
          show _ = (List.takeWhile _ _ ++ _).map _
          rw [List.takeWhile_append_dropWhile, List.map_drop, TokenStream.kinds]
        rw [hkinds, TokenStream.kinds, ← List.map_take]
        exact inBrackets_append hbrackets _
    · exact fun hparse _ => .inl ⟨_, hparse⟩

/-- A call without arguments that is cut behind its opening parenthesis. -/
theorem outcome_of_take_call : ∃ stream t, lex "module m\nfunction f = -> g()" {} = .ok stream ∧
    parse stream { maxNestingDepth := 9 } = .ok t ∧
      ((∃ t', parse (stream.take 9) { maxNestingDepth := 9 } = .ok t') ∨
        ∃ e, parse (stream.take 9) { maxNestingDepth := 9 } = .error e ∧
          e.position = (stream.take 9).stop ∧
          (e.kind = .unexpectedEndOfInput ∨ e.kind = .recursionLimitExceeded ∧
            InBrackets (stream.kinds.take 9) (stream.kinds.drop 9))) := by
  have hfacts : (lex "module m\nfunction f = -> g()" {}).toOption.map (fun s =>
      ((parse s { maxNestingDepth := 9 }).toOption.isSome,
        (s.take 9).tokens.back?.map (·.kind))) = some (true, some (.mark .leftParen)) := by
    decide +kernel
  cases hlex : lex "module m\nfunction f = -> g()" {} with
  | error e =>
    rw [hlex] at hfacts
    cases hfacts
  | ok stream =>
    rw [hlex] at hfacts
    obtain ⟨hsome, hback⟩ := Prod.mk.inj (Option.some.inj hfacts)
    cases hparse : parse stream { maxNestingDepth := 9 } with
    | error e =>
      rw [hparse] at hsome
      cases hsome
    | ok t =>
      refine ⟨stream, t, rfl, hparse, outcome_of_take (tiles_of_lex hlex).2.1 hparse 9 ?_⟩
      intro token htoken hdot
      rw [Option.mem_def.mp htoken, Option.map_some, hdot] at hback
      cases hback

/-- Within nine levels of nesting a call without arguments can be read, but not that its
arguments are missing. -/
theorem not_endOfInput_of_take : ¬ ∀ (stream : TokenStream) (limits : Limits) (t : Tree) (k : Nat),
    stream.Resolves → parse stream limits = .ok t →
      (∀ token ∈ (stream.take k).tokens.back?, token.kind ≠ .mark .dot) →
        (∃ t', parse (stream.take k) limits = .ok t') ∨
          ∃ e, parse (stream.take k) limits = .error e ∧ e.kind = .unexpectedEndOfInput ∧
            e.position = (stream.take k).stop := by
  intro hclaim
  have hfacts : (lex "module m\nfunction f = -> g()" {}).toOption.map (fun s =>
      ((parse s { maxNestingDepth := 9 }).toOption.isSome,
        (s.take 9).tokens.back?.map (·.kind),
        (failure? (parse (s.take 9) { maxNestingDepth := 9 })).map (·.kind))) =
      some (true, some (.mark .leftParen), some .recursionLimitExceeded) := by
    decide +kernel
  cases hlex : lex "module m\nfunction f = -> g()" {} with
  | error e =>
    rw [hlex] at hfacts
    cases hfacts
  | ok stream =>
    rw [hlex] at hfacts
    obtain ⟨hsome, hfacts⟩ := Prod.mk.inj (Option.some.inj hfacts)
    obtain ⟨hback, hkind⟩ := Prod.mk.inj hfacts
    cases hparse : parse stream { maxNestingDepth := 9 } with
    | error e =>
      rw [hparse] at hsome
      cases hsome
    | ok t =>
      have hdot : ∀ token ∈ (stream.take 9).tokens.back?, token.kind ≠ .mark .dot := by
        intro token htoken hdot
        rw [Option.mem_def.mp htoken, Option.map_some, hdot] at hback
        cases hback
      rcases hclaim stream _ t 9 (tiles_of_lex hlex).2.1 hparse hdot with ⟨t', ht⟩ | ⟨e, he, hend, -⟩
      · rw [ht] at hkind
        cases hkind
      · rw [he] at hkind
        rw [failure?, Option.map_some, hend] at hkind
        cases hkind

end GoloSyntax
