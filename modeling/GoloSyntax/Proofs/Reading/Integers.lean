import GoloSyntax.Proofs.Reading.Exhausted
import GoloSyntax.Proofs.Reading.Visits
import GoloSyntax.Proofs.Shape.Literals
import GoloSyntax.Proofs.Token.Numbers

/-! # Integers are exact

The lexer tells where a number ends, and the value is made later of its text, without underscores
and suffix.  Both agree on what the digits are (`Numeral.readInteger?_eq`), so an integer that a
primary expression begins with is a literal with the value of its digits, or is reported as too
large (`Reading.Visit.ReadsInteger`).

What a single visit makes is followed up in two ways: a failure is the end of parsing, and a
literal that is made stands in the tree, if there is one, at the place of its token.
-/
namespace GoloSyntax

/-- The bits of an integer of a kind, its sign included. -/
def NumberKind.bits : NumberKind → Nat
  | .long => 64
  | _ => 32

/-- The largest integer of a kind. -/
def NumberKind.largest (kind : NumberKind) : Nat := 2 ^ (kind.bits - 1) - 1

/-- The literal of an integer or long integer. -/
def NumberKind.whole : NumberKind → Int → Literal
  | .long => .long
  | _ => .integer

variable {kind : NumberKind} {u : List Char}

theorem fitInteger?_natCast (bits n : Nat) :
    fitInteger? bits n = if n ≤ 2 ^ (bits - 1) - 1 then some (n : Int) else none := by
  have hpow : Int.pow 2 (bits - 1) = ((2 ^ (bits - 1) : Nat) : Int) := by simp
  have hpos := Nat.two_pow_pos (bits - 1)
  rw [fitInteger?, hpow]
  congr 1
  rw [eq_iff_iff]
  omega

/-- An integer has the value of its digits, if that is not too large. -/
theorem Numeral.ofNumber?_eq (h : Numeral kind u) (hkind : kind = .integer ∨ kind = .long) :
    Literal.ofNumber? kind (String.ofList u) =
      if decimalValue u ≤ kind.largest then some (kind.whole (decimalValue u)) else none := by
  have hof : Literal.ofNumber? kind (String.ofList u) =
      ((readInteger? (numberDigits (String.ofList u))).bind (fitInteger? kind.bits)).map
        kind.whole := by
    rcases hkind with rfl | rfl <;> rfl
  rw [hof, h.readInteger?_eq hkind, Option.bind_some, fitInteger?_natCast, NumberKind.largest]
  split <;> rfl

namespace Reading

variable {c : Context} {v : Visit}

/-- What comes of a primary expression at a number. -/
theorem Visit.outcome_of_number (hend : c.endToken.kind = .endOfInput) (hrule : v.rule = .primary)
    (hstart : v.start = (v.state.current c).span.start) {text : String}
    (hlexeme : (v.state.current c).lexeme v.state.tree.symbols = ⟨.number kind, some text⟩) :
    (Literal.ofNumber? kind text = none →
      v.outcome c = .error ⟨.invalidNumber kind text, (v.state.current c).span.start⟩) ∧
    ∀ value, Literal.ofNumber? kind text = some value → v.state.tree.size < c.maxNodes →
      ∃ id s', v.outcome c = .ok (id, s') ∧ s'.rest = v.state.rest.tail ∧
        s'.tree.kind id = .literal value ∧ s'.tree.span id = (v.state.current c).span := by
  obtain ⟨levels, rule, start, s⟩ := v
  obtain rfl : rule = .primary := hrule
  have hrun : Visit.outcome c ⟨levels, .primary, start, s⟩ =
      run c (Rule.enter c levels) (Grammar.primaryOf ⟨.number kind, some text⟩) start s := by
    rw [← hlexeme]
    exact run_look_bind _
  rw [hrun]
  -- Only the value decides: the number is refused where it stands, or taken and made a node.
  simp only [Grammar.primaryOf, Grammar.literalText]
  refine ⟨fun hnone => ?_, fun value hvalue hsize => ?_⟩
  · rw [hnone]
    rfl
  · rw [hvalue]
    obtain ⟨rest, lastEnd, tree⟩ := s
    cases rest with
    | nil =>
      have hkind : c.endToken.kind = .number kind := congrArg Lexeme.kind hlexeme
      rw [hend] at hkind
      cases hkind
    | cons token rest =>
      have hkind : token.kind ≠ .newline := by
        have hnumber : token.kind = .number kind := congrArg Lexeme.kind hlexeme
        simp [hnumber]
      obtain rfl : start = token.span.start := hstart
      have hnode : ((tree.push (.literal value) (.empty token.span.start)).2.setSpan ⟨tree.size⟩
          token.span).node? ⟨tree.size⟩ = some { kind := .literal value, span := token.span } := by
        rw [Tree.setSpan, Tree.node?_modify, if_pos rfl, Tree.node?_push, if_pos rfl]
        rfl
      refine ⟨⟨tree.size⟩, ⟨rest, token.span.stop, _⟩, ?_, rfl, congrArg Node.kind (Tree.node_eq hnode),
        congrArg Node.span (Tree.node_eq hnode)⟩
      have hadvance : run c (Rule.enter c levels) advance token.span.start
          ⟨token :: rest, lastEnd, tree⟩ = .ok ((), ⟨rest, token.span.stop, tree⟩) := by
        refine (run_step .advance _).trans ?_
        rw [perform, State.advance, if_neg hkind]
        rfl
      have hopen : run c (Rule.enter c levels) (openNode (.literal value)) token.span.start
          ⟨rest, token.span.stop, tree⟩ = .ok (⟨tree.size⟩, _) := run_openNode_ok _ hsize
      exact run_bind_ok.mpr ⟨(), _, hadvance, run_bind_ok.mpr ⟨_, _, hopen, rfl⟩⟩

end Reading

open Reading

/-- What becomes of an integer written as `u` that a visited primary expression begins with. -/
structure Reading.Visit.ReadsInteger (v : Visit) (source : String) (limits : Limits) (stream : TokenStream)
    (kind : NumberKind) (u : List Char) : Prop where
  /-- If it is not too large, it is made a literal with the value of its digits. -/
  made : decimalValue u ≤ kind.largest → v.state.tree.size < limits.maxTreeNodes → ∃ id s',
    v.outcome (stream.context limits) = .ok (id, s') ∧ s'.rest = v.state.rest.tail ∧
      s'.tree.kind id = .literal (kind.whole (decimalValue u)) ∧
      s'.tree.span id = (v.state.current (stream.context limits)).span
  /-- If the source has a tree, the literal is there. -/
  kept : decimalValue u ≤ kind.largest → ∀ t, parseSource source limits = .ok t →
    ∃ id, id.index < t.size ∧ t.kind id = .literal (kind.whole (decimalValue u)) ∧
      t.span id = (v.state.current (stream.context limits)).span
  /-- If it is too large, parsing ends with it. -/
  refused : kind.largest < decimalValue u → parseSource source limits =
    .error ⟨.invalidNumber kind (String.ofList u),
      (v.state.current (stream.context limits)).span.start⟩

/-- A token that is visited and not the end of input is one of the stream. -/
theorem Reading.Visit.current_mem {limits : Limits} {stream : TokenStream} {v : Visit}
    (hv : v ∈ stream.visits limits)
    (hkind : (v.state.current (stream.context limits)).kind ≠ .endOfInput) :
    v.state.current (stream.context limits) ∈ stream.tokens := by
  have hahead := (ahead_of_visits hv).1
  cases hrest : v.state.rest with
  | nil =>
    have hcurrent : v.state.current (stream.context limits) =
        (stream.context limits).endToken := by
      rw [State.current, hrest]
      rfl
    rw [hcurrent] at hkind
    exact absurd (stream.kind_endToken limits) hkind
  | cons token rest =>
    have hcurrent : v.state.current (stream.context limits) = token := by
      rw [State.current, hrest]
      rfl
    have hfront : token ∈ (splitAtEnd stream.tokens).1 :=
      hahead.grows.rest.subset (hrest ▸ List.mem_cons_self)
    rw [hcurrent]
    exact Array.mem_toList_iff.mp ((List.takeWhile_sublist _).subset hfront)

theorem readsInteger_of_visit {source : String} {limits : Limits} {stream : TokenStream}
    (hlex : lex source limits = .ok stream) {v : Visit} (hv : v ∈ stream.visits limits)
    (hrule : v.rule = .primary) (hkind : kind = .integer ∨ kind = .long)
    (hnumber : (v.state.current (stream.context limits)).kind = .number kind) :
    ∃ before u after,
      Stands source.toList (v.state.current (stream.context limits)).span before u after ∧
        Numeral kind u ∧ v.ReadsInteger source limits stream kind u := by
  obtain ⟨hahead, hfails⟩ := ahead_of_visits hv
  have hmem := Visit.current_mem hv (by simp [hnumber])
  obtain ⟨before, u, after, hstands, hu, htext⟩ := numeral_of_lex hlex hmem hnumber
  have hlexeme : (v.state.current (stream.context limits)).lexeme stream.symbols =
      ⟨.number kind, some (String.ofList u)⟩ := congrArg₂ Lexeme.mk hnumber htext
  have hresolves := (tiles_of_lex hlex).2.1 _ hmem
  obtain ⟨hnone, hsome⟩ := Visit.outcome_of_number (stream.kind_endToken limits) hrule
    (hahead.start (by rw [hrule]; rfl))
    ((Token.lexeme_of_within hresolves hahead.grows.symbols).trans hlexeme)
  have hvalue := hu.ofNumber?_eq hkind
  refine ⟨before, u, after, hstands, hu, fun hle hroom => ?_, fun hle t ht => ?_, fun hlt => ?_⟩
  · rw [if_pos hle] at hvalue
    exact hsome _ hvalue hroom
  · rw [if_pos hle] at hvalue
    rw [parseSource, hlex] at ht
    refine exists_node_of_literal hlex ht hmem ?_
    rw [hlexeme]
    exact hvalue
  · rw [if_neg (Nat.not_le.mpr hlt)] at hvalue
    rw [parseSource, hlex]
    exact hfails _ (hnone hvalue)

/-- A text is cut into one number exactly if it is a numeral, and integers have the value of their
digits: a primary expression that begins with one makes a literal of it, and an integer that is too
large is the end of parsing. -/
theorem integers_exact :
    (∀ (limits : Limits) (kind : NumberKind) (w : String), w.utf8ByteSize ≤ limits.maxInputSize →
      2 ≤ limits.maxTokenCount → ((∃ stream, lex w limits = .ok stream ∧
        stream.lexemes = [⟨.number kind, some w⟩, ⟨.endOfInput, none⟩]) ↔
          Numeral kind w.toList)) ∧
    ∀ (source : String) (limits : Limits) (stream : TokenStream), lex source limits = .ok stream →
      ∀ v ∈ stream.visits limits, v.rule = .primary → ∀ kind, kind = .integer ∨ kind = .long →
        (v.state.current (stream.context limits)).kind = .number kind → ∃ before u after,
          Stands source.toList (v.state.current (stream.context limits)).span before u after ∧
            Numeral kind u ∧ v.ReadsInteger source limits stream kind u :=
  ⟨fun _ _ _ hsize hcount => lex_number_iff hsize hcount,
    fun _ _ _ hlex _ hv hrule _ hkind hnumber =>
      readsInteger_of_visit hlex hv hrule hkind hnumber⟩

/-- The largest integer, and an integer larger by one behind an operator, which ends parsing. -/
theorem integers_exact_at_limit :
    (∃ stream, lex "2_147_483_647" {} = .ok stream ∧
      stream.lexemes = [⟨.number .integer, some "2_147_483_647"⟩, ⟨.endOfInput, none⟩]) ∧
    ∃ stream, lex "module m\nfunction f = -> 1 + 2147483648" {} = .ok stream ∧
      ∃ v ∈ stream.visits {}, parseSource "module m\nfunction f = -> 1 + 2147483648" {} =
        .error ⟨.invalidNumber .integer "2147483648",
          (v.state.current (stream.context {})).span.start⟩ := by
  obtain ⟨halone, hvisited⟩ := integers_exact
  refine ⟨(halone {} .integer "2_147_483_647" (by decide) (by decide)).mpr (.integer ?_), ?_⟩
  · exact .underscore rfl (.digit rfl (.digit rfl (.underscore rfl (.digit rfl (.digit rfl
      (.underscore rfl (.digit rfl (.digit rfl (.last rfl)))))))))
  · have hvisits : (lex "module m\nfunction f = -> 1 + 2147483648" {}).toOption.any fun stream =>
        (stream.visits {}).any fun v => v.rule = .primary &&
          (v.state.current (stream.context {})).kind = .number .integer &&
            (v.state.current (stream.context {})).span.slice
              "module m\nfunction f = -> 1 + 2147483648" = "2147483648" := by
      decide +kernel
    obtain ⟨stream, hlex, hany⟩ := exists_ok_of_any hvisits
    obtain ⟨v, hv, hfound⟩ := List.any_eq_true.mp hany
    simp only [Bool.and_eq_true, decide_eq_true_eq] at hfound
    obtain ⟨⟨hrule, hkind⟩, hslice⟩ := hfound
    obtain ⟨before, u, after, hstands, -, hreads⟩ :=
      hvisited _ {} stream hlex v hv hrule .integer (.inl rfl) hkind
    have hu : String.ofList u = "2147483648" := by rw [← hstands.slice_eq, hslice]
    have hlarge : NumberKind.largest .integer < decimalValue u := by
      rw [← String.toList_ofList (l := u), hu]
      decide
    have hrefused := hreads.refused hlarge
    rw [hu] at hrefused
    exact ⟨stream, hlex, v, hv, hrefused⟩

end GoloSyntax
