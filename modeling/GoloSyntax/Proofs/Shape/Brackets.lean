import GoloSyntax.Proofs.Grammar.Derivations
import GoloSyntax.Proofs.Reading.Parse
import GoloSyntax.Proofs.Reading.Source

/-! # Brackets match

The brackets of an accepted token list are properly nested (`nested_of_parse`).  The table puts
an opening bracket and the closing one that belongs to it in different phrases where the end of
a list decides about its last element; so a phrase is told by the bracket that it closes
(`Phrase.pending`), and reading is followed with a stack of the brackets still open (`settle`).

Properly nested brackets are even in number, and no bracket can be missing or too many.
-/
namespace GoloSyntax

/-- The three pairs of brackets. -/
inductive BracketShape where
  | round
  | square
  | curly
deriving DecidableEq, Repr

inductive Bracket where
  | opening (shape : BracketShape)
  | closing (shape : BracketShape)
deriving DecidableEq, Repr

/-- The bracket that a token is, if it is one. -/
def TokenKind.bracket? : TokenKind → Option Bracket
  | .mark .leftParen => some (.opening .round)
  | .mark .rightParen => some (.closing .round)
  | .mark .leftBracket => some (.opening .square)
  | .mark .rightBracket => some (.closing .square)
  | .mark .leftBrace => some (.opening .curly)
  | .mark .rightBrace => some (.closing .curly)
  | _ => none

/-- The brackets among the tokens in front of the first end of input. -/
def brackets (tokens : List Token) : List Bracket :=
  (tokens.takeWhile (·.kind != .endOfInput)).filterMap (·.kind.bracket?)

/-- Every bracket has the one that belongs to it, and what is between the two is nested too. -/
inductive Nested : List Bracket → Prop where
  | nil : Nested []
  | pair {shape : BracketShape} {u v : List Bracket} (hu : Nested u) (hv : Nested v) :
    Nested (.opening shape :: u ++ .closing shape :: v)

/-! ## Nesting and a stack -/

/-- The brackets that are open behind a bracket, the innermost one first. -/
def Bracket.settle : Bracket → List BracketShape → Option (List BracketShape)
  | .opening shape, stack => some (shape :: stack)
  | .closing _, [] => none
  | .closing shape, top :: stack => if shape = top then some stack else none

/-- The brackets that are open behind a list of brackets. -/
def settle : List Bracket → List BracketShape → Option (List BracketShape)
  | [], stack => some stack
  | b :: w, stack => (b.settle stack).bind (settle w)

/-- Whatever is open in the end is closed by what follows: up to there it is nested. -/
theorem exists_nested_of_settle {w : List Bracket} {top : BracketShape}
    {stack : List BracketShape} (h : settle w (top :: stack) = some []) :
    ∃ u v, Nested u ∧ w = u ++ .closing top :: v ∧ settle v stack = some [] := by
  induction hlength : w.length using Nat.strong_induction_on generalizing w top stack with
  | _ n ih =>
    subst hlength
    cases w with
    | nil => cases h
    | cons b w =>
      cases b with
      | closing shape =>
        obtain ⟨rest, hrest, h⟩ := Option.bind_eq_some_iff.mp h
        simp only [Bracket.settle, Option.ite_none_right_eq_some, Option.some.injEq] at hrest
        obtain ⟨rfl, rfl⟩ := hrest
        exact ⟨[], w, .nil, rfl, h⟩
      | opening shape =>
        -- The bracket opened here is closed first, and then the one that was open before.
        obtain ⟨u, v, hu, rfl, hv⟩ := ih _ (by simp) (show settle w _ = _ from h) rfl
        obtain ⟨u', v', hu', rfl, hv'⟩ := ih _ (by simp; omega) hv rfl
        exact ⟨.opening shape :: u ++ .closing shape :: u', v', .pair hu hu', by simp, hv'⟩

theorem nested_of_settle {w : List Bracket} (h : settle w [] = some []) : Nested w := by
  induction hlength : w.length using Nat.strong_induction_on generalizing w with
  | _ n ih =>
    subst hlength
    cases w with
    | nil => exact .nil
    | cons b w =>
      cases b with
      | closing shape => cases h
      | opening shape =>
        obtain ⟨u, v, hu, rfl, hv⟩ := exists_nested_of_settle (show settle w [shape] = some [] from h)
        exact .pair hu (ih _ (by simp; omega) hv rfl)

theorem Nested.length_even {w : List Bracket} (h : Nested w) : w.length % 2 = 0 := by
  induction h with
  | nil => rfl
  | pair _ _ hu hv =>
    simp only [List.length_append, List.length_cons]
    omega

theorem settle_append (u v : List Bracket) (stack : List BracketShape) :
    settle (u ++ v) stack = (settle u stack).bind (settle v) := by
  induction u generalizing stack with
  | nil => rfl
  | cons b u ih =>
    show (b.settle stack).bind (settle (u ++ v)) = ((b.settle stack).bind (settle u)).bind (settle v)
    cases b.settle stack with
    | none => rfl
    | some stack => exact ih stack

theorem Nested.settle_eq {w : List Bracket} (h : Nested w) (stack : List BracketShape) :
    settle w stack = some stack := by
  induction h generalizing stack with
  | nil => rfl
  | @pair shape u v _ _ hu hv =>
    show settle (u ++ .closing shape :: v) (shape :: stack) = some stack
    rw [settle_append, hu]
    show ((if shape = shape then some stack else none).bind (settle v)) = some stack
    rw [if_pos rfl]
    exact hv stack

theorem nested_iff {w : List Bracket} : Nested w ↔ settle w [] = some [] :=
  ⟨fun h => h.settle_eq [], nested_of_settle⟩

instance : DecidablePred Nested := fun _ => decidable_of_iff _ nested_iff.symm

/-- Brackets that cross each other are not nested. -/
example : ¬ Nested [.opening .round, .opening .square, .closing .round, .closing .square] := by
  decide

/-! ## Reading and the stack -/

/-- The bracket that a phrase closes without opening it. -/
def Phrase.pending : Phrase → Option BracketShape
  | .lines _ | .linesTail _ | .members => some .curly
  | .argumentList => some .round
  | .elements => some .square
  | _ => none

/-- The brackets that are open behind an item. -/
def Item.settle : Item → List BracketShape → Option (List BracketShape)
  | .token kind, stack => GoloSyntax.settle kind.bracket?.toList stack
  | .part phrase, stack => GoloSyntax.settle (phrase.pending.map .closing).toList stack
  | _, stack => some stack

/-- The brackets that are open behind some items. -/
def Item.settleAll : List Item → List BracketShape → Option (List BracketShape)
  | [], stack => some stack
  | item :: items, stack => (item.settle stack).bind (settleAll items)

theorem Item.eq_of_settle_part {phrase : Phrase} {stack stack' : List BracketShape}
    (h : (part phrase).settle stack = some stack') : stack = phrase.pending.toList ++ stack' := by
  simp only [settle] at h
  cases hpending : phrase.pending with
  | none =>
    rw [hpending] at h
    exact Option.some.inj h
  | some shape =>
    rw [hpending] at h
    obtain ⟨rest, hrest, h⟩ := Option.bind_eq_some_iff.mp h
    cases stack with
    | nil => cases hrest
    | cons top stack =>
      simp only [Bracket.settle, Option.ite_none_right_eq_some, Option.some.injEq] at hrest
      obtain ⟨rfl, rfl⟩ := hrest
      rw [Option.some.inj h]
      rfl

theorem BinaryOperator.bracket?_of_ofToken? {kind : TokenKind} {op : BinaryOperator}
    (h : ofToken? kind = some op) : kind.bracket? = none := by
  unfold TokenKind.bracket?
  split <;> first | cases h | rfl

theorem UnaryOperator.bracket?_of_ofToken? {kind : TokenKind} {op : UnaryOperator}
    (h : ofToken? kind = some op) : kind.bracket? = none := by
  unfold TokenKind.bracket?
  split <;> first | cases h | rfl

/-- Every alternative closes the brackets that it opens, and the one that its phrase is to
close. -/
theorem Alternative.balances {naming : Naming} {phrase : Phrase} {body : List Item}
    {kind : Option NodeKind} (alt : Alternative naming phrase body kind)
    (stack : List BracketShape) :
    Item.settleAll body (phrase.pending.toList ++ stack) = some stack := by
  cases alt with
  | statement hform =>
    simp only [Phrase.statementForms, List.mem_cons, List.not_mem_nil, or_false] at hform
    rcases hform with rfl | rfl | rfl | rfl | rfl | rfl | rfl | rfl | rfl | rfl | rfl <;> rfl
  | linesMore form => cases form <;> rfl
  | operandsMore hop hmin =>
    simp [Item.settleAll, Item.settle, BinaryOperator.bracket?_of_ofToken? hop, settle,
      Phrase.pending]
  | unary hop =>
    simp [Item.settleAll, Item.settle, UnaryOperator.bracket?_of_ofToken? hop, settle,
      Phrase.pending]
  | _ => rfl

/-- The brackets still to be read. -/
def Reader.brackets (s : Reader) : List Bracket := s.lexemes.filterMap (·.kind.bracket?)

variable {naming : Naming} {n : Nat} {items : List Item} {s r : Reader} {xs : List Construct}
  {stack stack' : List BracketShape}

theorem Reader.brackets_of_next {l : Lexeme} (h : s.next = l) (hl : l.kind ≠ .endOfInput) :
    s.brackets = l.kind.bracket?.toList ++ s.advance.brackets := by
  rw [brackets, lexemes_of_next h hl, List.filterMap_cons]
  cases hb : l.kind.bracket? <;> rfl

theorem Reader.brackets_of_append {u : List Lexeme} (h : s.lexemes = u ++ r.lexemes)
    (hu : ∀ l ∈ u, l.kind.bracket? = none) : s.brackets = r.brackets := by
  rw [brackets, h, List.filterMap_append, List.filterMap_eq_nil_iff.mpr hu]
  rfl

/-- What is open behind the items is what is open where reading has come to. -/
theorem Reads.balances (h : Reads naming n items s r xs)
    (hitems : Item.settleAll items stack = some stack') :
    settle s.brackets stack = settle r.brackets stack' := by
  induction h generalizing stack stack' with
  | nil => rw [Option.some.inj hitems]
  | @token _ kind items s _ _ hne hkind h ih =>
    subst hkind
    obtain ⟨mid, hmid, hitems⟩ := Option.bind_eq_some_iff.mp hitems
    have hopen : settle s.next.kind.bracket?.toList stack = some mid := hmid
    rw [Reader.brackets_of_next rfl hne, settle_append, hopen]
    exact ih hitems
  | @newlines _ _ s _ _ h ih =>
    obtain ⟨ns, hns, hall⟩ := s.exists_newlines
    rw [Reader.brackets_of_append hns fun l hl => by rw [hall l hl]; rfl]
    exact ih hitems
  | @identifier _ _ _ s _ _ hnext h ih =>
    rw [Reader.brackets_of_next hnext (by simp)]
    exact ih hitems
  | qualified hname h ih =>
    obtain ⟨u, hu, hdotted⟩ := hname.dotted
    rw [Reader.brackets_of_append hu fun l hl => ?_]
    · exact ih hitems
    · rcases hdotted.kinds l hl with hk | hk <;> rw [hk] <;> rfl
  | @literal _ _ _ s _ _ hvalue h ih =>
    have hnone : s.next.kind.bracket? = none := by
      have hliteral := Lexeme.isLiteral_of_literal? hvalue
      unfold TokenKind.bracket?
      split <;> simp_all [TokenKind.isLiteral]
    rw [Reader.brackets_of_next rfl (Lexeme.literal?_ne hvalue).1, hnone]
    exact ih hitems
  | part alt hn hsettles hbody h ihbody ih =>
    obtain ⟨mid, hmid, hitems⟩ := Option.bind_eq_some_iff.mp hitems
    rw [Item.eq_of_settle_part hmid, ihbody (alt.balances mid)]
    exact ih hitems

/-! ## Token streams -/

variable {stream : TokenStream} {limits : Limits} {t : Tree} {u v : List Token} {b : Token}

theorem brackets_reader (stream : TokenStream) (texts : Symbol → Option String) :
    (stream.reader texts).brackets = brackets stream.tokens.toList := by
  simp only [Reader.brackets, Reader.lexemes, TokenStream.reader, brackets, List.map_map,
    List.filterMap_map]
  rfl

theorem nested_brackets_of_parse (h : parse stream limits = .ok t) :
    Nested (brackets stream.tokens.toList) := by
  obtain ⟨r, xs, hreads, -⟩ := parse_sound h
  have hend : r.rest = [] := hreads.rest_eq_nil fun l hl => by
    simp only [Reader.lexemes, TokenStream.reader, List.map_map, List.mem_map] at hl
    obtain ⟨token, htoken, rfl⟩ := hl
    simpa using List.mem_takeWhile_imp htoken
  have hsettle : settle (stream.reader t.symbols.text?).brackets [] = settle r.brackets [] :=
    hreads.balances rfl
  rw [brackets_reader, Reader.brackets, Reader.lexemes, hend] at hsettle
  exact nested_of_settle hsettle

/-- One more bracket in front of the first end of input makes one more bracket. -/
theorem length_brackets_insert (hu : ∀ token ∈ u, token.kind ≠ .endOfInput)
    (hb : b.kind.bracket?.isSome) :
    (brackets (u ++ b :: v)).length = (brackets (u ++ v)).length + 1 := by
  have hfront : ∀ token ∈ u, (token.kind != .endOfInput) = true := fun token htoken =>
    bne_iff_ne.mpr (hu token htoken)
  have hne : (b.kind != .endOfInput) = true := by
    refine bne_iff_ne.mpr fun hend => ?_
    rw [hend] at hb
    cases hb
  obtain ⟨bracket, hbracket⟩ := Option.isSome_iff_exists.mp hb
  simp only [brackets, List.takeWhile_append_of_pos hfront, List.takeWhile_cons, hne, if_true,
    List.filterMap_append, List.filterMap_cons, hbracket, List.length_append, List.length_cons]
  omega

theorem exists_error_of_odd {tokens : List Token} (hodd : (brackets tokens).length % 2 = 1)
    (symbols : SymbolTable) (limits : Limits) :
    ∃ e, parse ⟨tokens.toArray, symbols⟩ limits = .error e := by
  cases hparse : parse ⟨tokens.toArray, symbols⟩ limits with
  | error e => exact ⟨e, rfl⟩
  | ok t =>
    have heven : (brackets tokens).length % 2 = 0 := (nested_brackets_of_parse hparse).length_even
    omega

/-- The brackets of an accepted token list are properly nested, and the list is not accepted any
more with one of them less or with one bracket more, whatever the limits. -/
theorem nested_of_parse (h : parse stream limits = .ok t) :
    Nested (brackets stream.tokens.toList) ∧
    ∀ (u v : List Token) (b : Token), (∀ token ∈ u, token.kind ≠ .endOfInput) →
      b.kind.bracket?.isSome → ∀ (symbols : SymbolTable) (limits' : Limits),
      (stream.tokens.toList = u ++ b :: v →
        ∃ e, parse ⟨(u ++ v).toArray, symbols⟩ limits' = .error e) ∧
      (stream.tokens.toList = u ++ v →
        ∃ e, parse ⟨(u ++ b :: v).toArray, symbols⟩ limits' = .error e) := by
  have hnested : Nested (brackets stream.tokens.toList) := nested_brackets_of_parse h
  refine ⟨hnested, fun u v b hu hb symbols limits' => ?_⟩
  have hlength : (brackets (u ++ b :: v)).length = (brackets (u ++ v)).length + 1 :=
    length_brackets_insert hu hb
  have heven : (brackets stream.tokens.toList).length % 2 = 0 := hnested.length_even
  constructor <;> intro htokens <;> rw [htokens] at heven <;>
    exact exists_error_of_odd (by omega) symbols limits'

/-- The tokens of `module m` and, on the next line, `function m = -> [(m)]`, without places. -/
def tupleFunction : TokenStream :=
  let (name, symbols) := SymbolTable.empty.intern "m"
  let bare (kind : TokenKind) : Token := ⟨kind, .empty .start, none⟩
  let word : Token := ⟨.identifier, .empty .start, some name⟩
  ⟨#[bare (.keyword .module_), word, bare .newline, bare (.keyword .function), word,
    bare (.mark .assign), bare (.mark .arrow), bare (.mark .leftBracket), bare (.mark .leftParen),
    word, bare (.mark .rightParen), bare (.mark .rightBracket)], symbols⟩

/-- Without its closing parenthesis the tuple is rejected under all limits. -/
theorem nested_of_tupleFunction : (∃ t, parse tupleFunction {} = .ok t) ∧
    brackets tupleFunction.tokens.toList =
      [.opening .square, .opening .round, .closing .round, .closing .square] ∧
    Nested (brackets tupleFunction.tokens.toList) ∧
    ∀ limits, ∃ e, parse ⟨(tupleFunction.tokens.toList.take 10 ++
      tupleFunction.tokens.toList.drop 11).toArray, tupleFunction.symbols⟩ limits = .error e := by
  have hparse : (parse tupleFunction {}).toOption.isSome := by decide +kernel
  cases ht : parse tupleFunction {} with
  | error e =>
    rw [ht] at hparse
    cases hparse
  | ok t =>
    obtain ⟨hnested, hrejected⟩ := nested_of_parse ht
    refine ⟨⟨t, rfl⟩, by decide, hnested, fun limits => ?_⟩
    exact (hrejected _ _ ⟨.mark .rightParen, .empty .start, none⟩ (by decide) rfl _ limits).1 rfl

end GoloSyntax
