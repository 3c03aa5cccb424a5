import GoloSyntax.Proofs.Reading.Limits
import GoloSyntax.Proofs.Shape.Atoms
import GoloSyntax.Proofs.Shape.Precedence
import GoloSyntax.Proofs.Token.Limits
import GoloSyntax.Proofs.Token.Neighbours

/-! # Long chains

Operators between operands, with methods called on the operands, can go on for as long as they like:
fifteen levels of nesting are enough for all of them (`parse_of_chain`).

Calls are made on what stands in front of them, and so are operators of one precedence, both without
a new level.  Only the operand behind an operator is read on a level of its own, as an expression of
operators that bind more tightly.  What is under way is therefore told by the precedence that is
asked for, and so is the number of levels that may still be needed (`levelsFor`).
-/
namespace GoloSyntax

/-! ## Chains -/

/-- A name or a literal, with methods called on it one after the other. -/
structure Link where
  /-- How the operand is written. -/
  text : String
  operand : Lexeme
  methods : List String
  scans : ScansAs text.toList [] operand
  isOperand : operand.IsOperand
  names : ∀ name ∈ methods, ScansAs name.toList [] ⟨.identifier, some name⟩

/-- Operands with an operator in front of each. -/
abbrev Operations : Type := List (BinaryOperator × Link)

/-- Operands with operators between them. -/
structure Chain where
  first : Link
  rest : Operations

/-- The kind of token that stands for the operator. -/
def BinaryOperator.token : BinaryOperator → TokenKind
  | orIfNull => .keyword .orIfNull
  | or => .keyword .or
  | and => .keyword .and
  | equals => .mark .equalEqual
  | notEquals => .mark .notEqual
  | is => .keyword .is
  | isNot => .keyword .isnt
  | ofType => .keyword .oftype
  | less => .mark .less
  | lessOrEquals => .mark .lessEqual
  | more => .mark .greater
  | moreOrEquals => .mark .greaterEqual
  | plus => .mark .plus
  | minus => .mark .minus
  | times => .mark .star
  | divide => .mark .slash
  | modulo => .mark .percent

/-- A call of a method without arguments. -/
def callSource (name : String) : String := ": " ++ name ++ "()"

def callLexemes (name : String) : List Lexeme :=
  [⟨.mark .colon, none⟩, ⟨.identifier, some name⟩, ⟨.mark .leftParen, none⟩,
    ⟨.mark .rightParen, none⟩]

namespace Link

def source (x : Link) : String := x.text ++ String.join (x.methods.map callSource)

def lexemes (x : Link) : List Lexeme := x.operand :: x.methods.flatMap callLexemes

/-- The nodes of the operand and of the calls. -/
def nodes (x : Link) : Nat := 1 + x.methods.length

end Link

namespace Operations

def source (ops : Operations) : String :=
  String.join (ops.map fun (op, x) => " " ++ op.spelling ++ " " ++ x.source)

def lexemes (ops : Operations) : List Lexeme :=
  ops.flatMap fun (op, x) => ⟨op.token, none⟩ :: x.lexemes

def nodes (ops : Operations) : Nat := (ops.map fun (_, x) => 1 + x.nodes).sum

end Operations

namespace Chain

def source (c : Chain) : String := c.first.source ++ c.rest.source

def lexemes (c : Chain) : List Lexeme := c.first.lexemes ++ c.rest.lexemes

/-- The nodes of the operands, the calls and the operators. -/
def nodes (c : Chain) : Nat := c.first.nodes + c.rest.nodes

end Chain

variable {x : Link} {ops : Operations} {op : BinaryOperator} {n p : Nat} {s : Reader}
  {rest ls : List Lexeme} {y : Construct} {name : String}

@[simp] theorem Operations.lexemes_nil : Operations.lexemes [] = [] := rfl

@[simp] theorem Operations.lexemes_cons : Operations.lexemes ((op, x) :: ops) =
    ⟨op.token, none⟩ :: (x.lexemes ++ ops.lexemes) := rfl

@[simp] theorem Operations.nodes_nil : Operations.nodes [] = 0 := rfl

@[simp] theorem Operations.nodes_cons :
    Operations.nodes ((op, x) :: ops) = 1 + x.nodes + ops.nodes := rfl

@[simp] theorem Operations.nodes_append (ops ops' : Operations) :
    Operations.nodes (ops ++ ops') = ops.nodes + ops'.nodes := by
  simp [nodes]

theorem BinaryOperator.ofToken?_token (op : BinaryOperator) : ofToken? op.token = some op := by
  cases op <;> rfl

theorem BinaryOperator.precedence_pos (op : BinaryOperator) : 0 < op.precedence := by
  cases op <;> decide

/-! ## Calls -/

theorem reads_noArguments (hs : s.lexemes = ⟨.mark .leftParen, none⟩ :: ⟨.mark .rightParen, none⟩ ::
    rest) : Reads .byText (n + 1) [.part .arguments] s s.advance.advance [] := by
  have hopen : s.kind = .mark .leftParen := Reader.kind_of_lexemes hs
  have hclose : s.advance.kind = .mark .rightParen :=
    Reader.kind_of_lexemes (Reader.advance_of_lexemes hs)
  refine reads_phrase_iff.mpr ⟨n, _, none, [], .argumentsNone, rfl, trivial, ?_, rfl⟩
  refine .token (by simp) hopen (.newlines ?_)
  rw [Reader.skipNewlines_of_kind_ne (by simp [hclose])]
  exact .token (by simp) hclose .nil

namespace ReadsWithin

/-- A call is made on what stands in front of it, on the same level. -/
theorem calls_of_call (h : ReadsWithin (n + 1) .calls s (callLexemes name ++ rest) y) :
    ReadsWithin (n + 1) .calls s rest (.mk (.methodInvocation name) default [y]) := by
  obtain ⟨r, y, hreads, hr, rfl⟩ := h
  have hr₁ := Reader.advance_of_lexemes hr
  have hr₂ := Reader.advance_of_lexemes hr₁
  have hr₃ := Reader.advance_of_lexemes hr₂
  have hr₄ := Reader.advance_of_lexemes hr₃
  have hbehind : Reads .byText (n + 1) [.sign .colon, .identifier name, .part .arguments] r
      r.advance.advance.advance.advance [] :=
    .token (by simp) (Reader.kind_of_lexemes hr)
      (.identifier (Reader.next_of_lexemes hr₁) (reads_noArguments hr₂))
  have hbody := reads_part_append.mpr ⟨r, [y], [], hreads, hbehind, rfl⟩
  exact ⟨_, _, reads_phrase_iff.mpr ⟨n + 1, _, _, _, .callsMethod name, rfl, trivial, hbody, rfl⟩,
    hr₄, rfl⟩

/-- However many calls there are. -/
theorem calls_of_calls {methods : List String}
    (h : ReadsWithin (n + 1) .calls s (methods.flatMap callLexemes ++ rest) y) :
    ∃ z, ReadsWithin (n + 1) .calls s rest z ∧ z.count = y.count + methods.length := by
  induction methods generalizing y with
  | nil => exact ⟨y, h, rfl⟩
  | cons name methods ih =>
    rw [List.flatMap_cons, List.append_assoc] at h
    obtain ⟨z, hz, hcount⟩ := ih h.calls_of_call
    refine ⟨z, hz, hcount.trans ?_⟩
    simp only [Construct.count, Construct.countAll, List.length_cons]
    omega

end ReadsWithin

namespace Link

/-- The operand is a primary expression, whatever calls are made on it. -/
theorem readsWithin_primary (x : Link) (hs : s.lexemes = [x.operand] ++ rest)
    (hparen : firstKind rest ≠ .mark .leftParen) (hdot : firstKind rest ≠ .mark .dot)
    (hbracket : firstKind rest ≠ .mark .leftBracket) :
    ∃ y, ReadsWithin 2 .primary s rest y ∧ y.count = 1 := by
  rcases x.isOperand with hname | hvalue
  · have hcut := (x.scans.cut x.isOperand.ne.1).1
    have heq : x.operand = ⟨x.operand.kind, x.operand.text⟩ := rfl
    rw [hname, (hcut.means (seam_nil _)).identifier hname] at heq
    rw [heq] at hs
    exact ⟨_, .primary_of_name (hcut.regular.identifier _ heq) hs hparen hdot hbracket, rfl⟩
  · obtain ⟨value, hvalue⟩ := Option.isSome_iff_exists.mp hvalue
    exact ⟨_, (ReadsWithin.primary_of_literal hvalue hs).mono (Nat.le_succ 1), rfl⟩

/-- What may stand behind an operand may stand behind the calls on it. -/
theorem readsWithin_operands (x : Link) (hs : s.lexemes = x.lexemes ++ rest) (hrest : Stops n rest)
    (p : Nat) : ∃ y, ReadsWithin 4 (.operands p) s rest y ∧ y.count = x.nodes := by
  have hbehind : firstKind (x.methods.flatMap callLexemes ++ rest) = .mark .colon ∨
      firstKind (x.methods.flatMap callLexemes ++ rest) = firstKind rest := by
    cases x.methods with
    | nil => exact .inr rfl
    | cons name methods => exact .inl rfl
  obtain ⟨hcolon, hparen, hdot, hbracket⟩ := hrest.not_call
  have hne {kind : TokenKind} (hkind : kind ≠ .mark .colon) (h : firstKind rest ≠ kind) :
      firstKind (x.methods.flatMap callLexemes ++ rest) ≠ kind := by
    rcases hbehind with heq | heq <;> rw [heq]
    · exact hkind.symm
    · exact h
  obtain ⟨y, hprimary, hy⟩ := x.readsWithin_primary hs (hne (by simp) hparen) (hne (by simp) hdot)
    (hne (by simp) hbracket)
  have hcalls := hprimary.inside .callsFirst fun _ _ => trivial
  obtain ⟨z, hz, hcount⟩ := ReadsWithin.calls_of_calls hcalls
  refine ⟨z, hz.operands_of_calls hcolon hparen p, ?_⟩
  rw [hcount, hy, nodes]

theorem firstKind_ne_newline (x : Link) (rest : List Lexeme) :
    firstKind (x.lexemes ++ rest) ≠ .newline :=
  x.isOperand.ne.2.1

end Link

/-! ## Operators -/

/-- The levels of nesting that operands take if operators of such a precedence are asked for: four
for an operand with its calls, and one for each precedence that may be under way. -/
def levelsFor (minPrecedence : Nat) : Nat := 4 + (UnaryOperator.precedence - max minPrecedence 1)

/-- The right operand of an operator takes fewer levels than all the operands. -/
theorem levelsFor_succ (hp : p ≤ op.precedence) :
    levelsFor (op.precedence + 1) + 1 ≤ levelsFor p := by
  have hpos := op.precedence_pos
  have hlt := op.precedence_lt
  simp only [levelsFor]
  omega

namespace Operations

/-- No operator between operands binds as tightly as one in front. -/
theorem stops_lexemes (ops : Operations) (hrest : Stops 0 rest) :
    Stops UnaryOperator.precedence (ops.lexemes ++ rest) := by
  cases ops with
  | nil => exact hrest.mono (Nat.zero_le _)
  | cons operation ops =>
    exact .inr ⟨operation.1, operation.1.ofToken?_token, operation.1.precedence_lt⟩

/-- Operands go on with the operators that bind tightly enough, up to the first one that does not.
The induction is on how many operators are left, both behind an operator and behind its right
operand. -/
theorem readsWithin_operands (hrest : Stops 0 rest) (ops : Operations) {p : Nat} {s : Reader}
    {y : Construct} (h : ReadsWithin (levelsFor p) (.operands p) s (ops.lexemes ++ rest) y) :
    ∃ done left z, ops = done ++ left ∧
      ReadsWithin (levelsFor p) (.operands p) s (left.lexemes ++ rest) z ∧
      z.count = y.count + nodes done ∧ Stops p (left.lexemes ++ rest) := by
  match ops with
  | [] => exact ⟨[], [], y, rfl, h, rfl, hrest.mono (Nat.zero_le p)⟩
  | (op, x) :: ops =>
    by_cases hp : p ≤ op.precedence
    · have hleft : ReadsWithin (levelsFor p) (.operands p) s
          (⟨op.token, none⟩ :: ([] ++ (x.lexemes ++ (lexemes ops ++ rest)))) y := by
        simpa using h
      -- The right operand takes what binds more tightly than the operator ...
      obtain ⟨s', hs'⟩ := Reader.exists_lexemes_eq (x.lexemes ++ (lexemes ops ++ rest))
      obtain ⟨first, hfirst, hnodes⟩ :=
        x.readsWithin_operands hs' (stops_lexemes ops hrest) (op.precedence + 1)
      obtain ⟨inner, outer, right, rfl, hright, hrightNodes, hstops⟩ :=
        readsWithin_operands hrest ops (hfirst.mono (Nat.le_add_right 4 _))
      have hexpression : ReadsWithin (levelsFor p) (.expression (op.precedence + 1)) s'
          (lexemes outer ++ rest) right :=
        (hright.expression hstops).mono (levelsFor_succ hp)
      have hbinary := ReadsWithin.operands_of_binary op.ofToken?_token hp hleft nofun
        (x.firstKind_ne_newline _) hexpression hs'
      -- ... and what is left goes on with all of it.
      obtain ⟨done, left, z, rfl, hz, hzNodes, hzStops⟩ := readsWithin_operands hrest outer hbinary
      refine ⟨(op, x) :: (inner ++ done), left, z, by simp, hz, ?_, hzStops⟩
      simp only [hzNodes, Construct.count, Construct.countAll, hrightNodes, hnodes, nodes_cons,
        nodes_append]
      omega
    · exact ⟨[], (op, x) :: ops, y, rfl, h, rfl, .inr ⟨op, op.ofToken?_token, Nat.lt_of_not_le hp⟩⟩
termination_by ops.length

/-- Where any operator would be taken, all of them are. -/
theorem eq_nil_of_stops (h : Stops 0 (ops.lexemes ++ rest)) : ops = [] := by
  cases ops with
  | nil => rfl
  | cons operation ops =>
    obtain hcloses | ⟨op, -, hlt⟩ := h
    · have hnone := TokenKind.ofToken?_of_closes hcloses
      rw [lexemes_cons, List.cons_append, firstKind_cons,
        operation.1.ofToken?_token] at hnone
      cases hnone
    · exact absurd hlt (Nat.not_lt_zero _)

end Operations

/-! ## Whole chains -/

namespace Chain

/-- Twelve levels are enough to read any chain as an expression. -/
theorem readsWithin_expression (c : Chain) (hs : s.lexemes = c.lexemes ++ rest)
    (hrest : Stops 0 rest) : ∃ y, ReadsWithin 12 (.expression 0) s rest y ∧ y.count = c.nodes := by
  rw [lexemes, List.append_assoc] at hs
  obtain ⟨first, hfirst, hnodes⟩ :=
    c.first.readsWithin_operands hs (c.rest.stops_lexemes hrest) 0
  obtain ⟨done, left, y, hops, hy, hcount, hstops⟩ :=
    Operations.readsWithin_operands (p := 0) hrest c.rest (hfirst.mono (Nat.le_add_right 4 _))
  obtain rfl := Operations.eq_nil_of_stops hstops
  rw [List.append_nil] at hops
  exact ⟨y, hy.expression hrest, by rw [hcount, hnodes, ← hops, nodes]⟩

end Chain

/-- The tokens of a chain as the value of a function make a tree if there is room for its nodes,
within fifteen levels of nesting. -/
theorem exists_parse_iff_of_chain {source : String} {stream : TokenStream} {limits limits' : Limits}
    {c : Chain} (hlex : lex source limits' = .ok stream)
    (hstream : stream.lexemes = bodyLexemes ++ c.lexemes ++ [⟨.endOfInput, none⟩])
    (hdepth : 15 ≤ limits.maxNestingDepth) :
    (∃ t, parse stream limits = .ok t) ↔ 4 + c.nodes ≤ limits.maxTreeNodes := by
  obtain ⟨pieces, hpieces⟩ := exists_pieces_of_lex hlex
  have hlexemes : pieces.map Piece.lexeme = bodyLexemes ++ c.lexemes :=
    List.append_cancel_right (hpieces.lexemes_eq.symm.trans hstream)
  have hend : Stops 0 [] := .inl rfl
  obtain ⟨s₀, hs₀⟩ := Reader.exists_lexemes_eq (c.lexemes ++ [])
  obtain ⟨x, hx, hcount⟩ := c.readsWithin_expression hs₀ hend
  have ⟨_, y, _, _, hy⟩ := hx
  obtain ⟨r, m, declaration, function, y', hunit, hbare⟩ :=
    reads_bodyLexemes (n := 12) (y := y) (s := ⟨pieces, .start, _⟩) hlexemes fun s hs => by
        obtain ⟨r, y', hreads, hr, hbare⟩ := hx.elsewhere rfl (hs.trans (by simpa using hs₀.symm))
        refine ⟨?_, r, y', hreads, by simp [hr], hbare.trans hy.symm⟩
        rw [Reader.kind_eq, hs]
        exact c.first.firstKind_ne_newline _
  have hnodes : y'.count = c.nodes := by
    rw [Construct.count_eq_of_bare hbare, ← Construct.count_bare, hy, hcount]
  rw [← hpieces.reader_eq (.refl _)] at hunit
  rw [exists_parse_iff_of_reads hpieces.hasTexts (hunit.mono hdepth)]
  simp only [Construct.countAll, Construct.count, hnodes]
  omega

/-! ## The text of a chain -/

theorem BinaryOperator.scansAs_spelling (op : BinaryOperator) :
    ScansAs op.spelling.toList [] ⟨op.token, none⟩ := by
  cases op <;> exact ⟨{}, .start, _, rfl⟩

theorem BinaryOperator.token_ne_endOfInput (op : BinaryOperator) : op.token ≠ .endOfInput := by
  cases op <;> nofun

variable {z : List Char}

/-- Calls are cut up in front of the end, of a blank and of more calls. -/
theorem cutsInto_calls {methods : List String}
    (hmethods : ∀ name ∈ methods, ScansAs name.toList [] ⟨.identifier, some name⟩)
    (hz : Follows [':'] z) (h : CutsInto z ls) :
    Follows [':'] ((String.join (methods.map callSource)).toList ++ z) ∧ CutsInto
      ((String.join (methods.map callSource)).toList ++ z) (methods.flatMap callLexemes ++ ls) := by
  induction methods with
  | nil => exact ⟨hz, h⟩
  | cons name methods ih =>
    obtain ⟨hname, hmethods⟩ := List.forall_mem_cons.mp hmethods
    obtain ⟨hfollows, hcuts⟩ := ih hmethods
    have hclose : ScansAs [')'] [':'] ⟨.mark .rightParen, none⟩ := ⟨{}, .start, _, rfl⟩
    have hopen : ScansAs ['('] [')', ':'] ⟨.mark .leftParen, none⟩ := ⟨{}, .start, _, rfl⟩
    have hcolon : ScansAs [':'] [] ⟨.mark .colon, none⟩ := ⟨{}, .start, _, rfl⟩
    have htext : (String.join ((name :: methods).map callSource)).toList ++ z =
        ':' :: ' ' :: (name.toList ++ '(' :: ')' ::
          ((String.join (methods.map callSource)).toList ++ z)) := by
      simp [callSource]
    rw [htext]
    generalize (String.join (methods.map callSource)).toList ++ z = w at *
    have hcuts₁ := hcuts.cons (hclose.of_follows (by simp) hfollows) (by simp)
    have hcuts₂ := hcuts₁.cons (hopen.of_follows (by simp) (.cons ')' hfollows)) (by simp)
    have hcuts₃ := hcuts₂.cons_blank (hname.before (.inl rfl) ⟨rfl, by simp, by simp⟩) (by simp)
    have hcuts₄ := hcuts₃.cons (hcolon.of_follows (by simp) (.separator rfl _ _)) (by simp)
    exact ⟨.cons ':' (.separator rfl _ _), by simpa [callLexemes] using hcuts₄⟩

/-- Behind a blank, an operand with its calls is cut up in front of more operators. -/
theorem Link.cutsInto (x : Link) (hz : Follows [':'] z) (h : CutsInto z ls) :
    CutsInto (' ' :: (x.source.toList ++ z)) (x.lexemes ++ ls) := by
  obtain ⟨hfollows, hcuts⟩ := cutsInto_calls x.names hz h
  have hoperand : ScansAs x.text.toList [':'] x.operand :=
    x.scans.before x.isOperand ⟨rfl, by simp, by simp⟩
  have hne := x.isOperand.ne.1
  have hlink := hcuts.cons_blank (hoperand.of_follows hne hfollows) hne
  simpa [source, lexemes] using hlink

theorem Operations.cutsInto (ops : Operations) :
    Follows [':'] ops.source.toList ∧ CutsInto ops.source.toList ops.lexemes := by
  induction ops with
  | nil => exact ⟨.nil _, .nil⟩
  | cons operation ops ih =>
    obtain ⟨op, x⟩ := operation
    have hlink := x.cutsInto ih.1 ih.2
    have hne := op.token_ne_endOfInput
    have hop := hlink.cons_blank (op.scansAs_spelling.of_follows hne (.separator rfl _ _)) hne
    have htext : (Operations.source ((op, x) :: ops)).toList =
        ' ' :: (op.spelling.toList ++ ' ' :: (x.source.toList ++ (source ops).toList)) := by
      simp [source]
    rw [htext]
    exact ⟨.separator rfl _ _, hop⟩

/-- The source of a function with a chain as its value is cut into the tokens of the chain. -/
theorem Chain.exists_lex (c : Chain) :
    ∃ limits stream, lex (bodySource c.source) limits = .ok stream ∧
      stream.lexemes = bodyLexemes ++ c.lexemes ++ [⟨.endOfInput, none⟩] := by
  have hcuts := c.first.cutsInto c.rest.cutsInto.1 c.rest.cutsInto.2
  rw [← String.toList_append] at hcuts
  have hne : c.source.toList ≠ [] := by
    intro hnil
    have htext : c.first.text.toList = [] := by simp_all [source, Link.source]
    exact (c.first.scans.cut c.first.isOperand.ne.1).1.ne_nil htext
  obtain ⟨inner, hinner⟩ := Limits.exists_clears (textSize (' ' :: c.source.toList))
  obtain ⟨limits, hlimits⟩ := Limits.exists_clears (bodySource c.source).utf8ByteSize
  rw [← String.ofList_toList (s := c.source)] at hlimits
  obtain ⟨stream, pieces, hlex, hpieces, hlexemes⟩ :=
    exists_pieces_bodySource hlimits hne (hcuts inner hinner)
  rw [String.ofList_toList] at hlex
  exact ⟨limits, stream, hlex, by rw [hpieces.lexemes_eq, hlexemes]; rfl⟩

/-! ## Sources -/

/-- Fifteen levels of nesting are enough for a chain of any length.  Whatever source is cut into the
tokens of the chain as the value of a function, and there is one, becomes a tree exactly if it and
its tokens keep the limits of the lexer and there is room for the nodes. -/
theorem parse_of_chain (c : Chain) :
    (∃ limits stream, lex (bodySource c.source) limits = .ok stream ∧
      stream.lexemes = bodyLexemes ++ c.lexemes ++ [⟨.endOfInput, none⟩]) ∧
    ∀ source limits' stream, lex source limits' = .ok stream →
      stream.lexemes = bodyLexemes ++ c.lexemes ++ [⟨.endOfInput, none⟩] →
      ∀ limits : Limits, 15 ≤ limits.maxNestingDepth →
        ((∃ t, parseSource source limits = .ok t) ↔
          limits.Allows source stream ∧ 4 + c.nodes ≤ limits.maxTreeNodes) := by
  refine ⟨c.exists_lex, fun source limits' stream hlex hstream limits hdepth => ?_⟩
  rw [← exists_parse_iff_of_chain hlex hstream hdepth]
  constructor
  · rintro ⟨t, ht⟩
    simp only [parseSource] at ht
    split at ht
    · cases ht
    · next stream' hlex' =>
      obtain ⟨rfl, hallows⟩ := (lex_iff_allows hlex).mp hlex'
      exact ⟨hallows, t, ht⟩
  · rintro ⟨hallows, t, ht⟩
    have hlex' : lex source limits = .ok stream := (lex_iff_allows hlex).mpr ⟨rfl, hallows⟩
    refine ⟨t, ?_⟩
    simp only [parseSource, hlex']
    exact ht

/-- Each operator binds less tightly than the next one, so all seven wait for the last operand. -/
def tightening : Chain where
  first := ⟨"a", ⟨.identifier, some "a"⟩, [], ⟨{}, .start, _, rfl⟩, .inl rfl, by simp⟩
  rest := [
    (.orIfNull, ⟨"null", ⟨.keyword .null, none⟩, [], ⟨{}, .start, _, rfl⟩, .inr rfl, by simp⟩),
    (.or, ⟨"b", ⟨.identifier, some "b"⟩, ["g", "h"], ⟨{}, .start, _, rfl⟩, .inl rfl, by
      simpa using ⟨⟨{}, .start, _, rfl⟩, ⟨{}, .start, _, rfl⟩⟩⟩),
    (.and, ⟨"1_L", ⟨.number .long, some "1_L"⟩, [], ⟨{}, .start, _, rfl⟩, .inr rfl, by simp⟩),
    (.isNot, ⟨"'c'", ⟨.character, some "c"⟩, [], ⟨{}, .start, _, rfl⟩, .inr rfl, by simp⟩),
    (.lessOrEquals, ⟨"2.5", ⟨.number .double, some "2.5"⟩, [], ⟨{}, .start, _, rfl⟩, .inr rfl, by
      simp⟩),
    (.plus, ⟨"\"s\"", ⟨.string .standard, some "s"⟩, ["length"], ⟨{}, .start, _, rfl⟩, .inr rfl, by
      simpa using ⟨{}, .start, _, rfl⟩⟩),
    (.times, ⟨"d", ⟨.identifier, some "d"⟩, [], ⟨{}, .start, _, rfl⟩, .inl rfl, by simp⟩)]

/-- The chain needs all fifteen levels. -/
theorem parse_of_chain_tightening :
    tightening.source =
        "a orIfNull null or b: g(): h() and 1_L isnt 'c' <= 2.5 + \"s\": length() * d" ∧
      (∃ t, parseSource (bodySource tightening.source) { maxNestingDepth := 15 } = .ok t) ∧
      ∀ t, parseSource (bodySource tightening.source) { maxNestingDepth := 14 } ≠ .ok t := by
  have hsource : tightening.source =
      "a orIfNull null or b: g(): h() and 1_L isnt 'c' <= 2.5 + \"s\": length() * d" := by
    decide +kernel
  have hlexes : (lex (bodySource tightening.source) { maxNestingDepth := 15 }).toOption.map
      (fun stream => decide (stream.lexemes = bodyLexemes ++ tightening.lexemes ++
        [⟨.endOfInput, none⟩])) = some true := by
    decide +kernel
  have hfails : (parseSource (bodySource tightening.source)
      { maxNestingDepth := 14 }).toOption.isSome = false := by
    decide +kernel
  refine ⟨hsource, ?_, fun t ht => ?_⟩
  · cases hlex : lex (bodySource tightening.source) { maxNestingDepth := 15 } with
    | error e =>
      rw [hlex] at hlexes
      cases hlexes
    | ok stream =>
      rw [hlex] at hlexes
      have hstream := of_decide_eq_true (Option.some.inj hlexes)
      have hallows := ((lex_iff_allows hlex).mp hlex).2
      exact ((parse_of_chain tightening).2 _ _ stream hlex hstream { maxNestingDepth := 15 }
        (Nat.le_refl 15)).mpr ⟨hallows, by decide⟩
  · rw [ht] at hfails
    cases hfails

end GoloSyntax
