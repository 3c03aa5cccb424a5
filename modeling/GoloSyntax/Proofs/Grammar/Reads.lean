import GoloSyntax.Proofs.Grammar.Table
import GoloSyntax.Proofs.Tree.Construct
import Mathlib.Data.List.DropRight

/-! # Reading by the table

`Derives` says which words the grammar generates; several derivations may generate one
word.  `Reads` is the one derivation that reading from left to right finds, together with
the constructs it makes.  A `Reader` stands somewhere in a list of `Piece`s, and
`Reads naming n items s r xs` says that from `s` the items are read up to `r`, with at most
`n` levels of nesting, and are the constructs `xs`.

Where the table leaves a choice, reading takes as much as it can: `Phrase.Settles` says of
an alternative when it is the one taken.  All its conditions are about what comes next, and
all of them hold at the end of input.
-/
namespace GoloSyntax

/-- A lexeme at its place. -/
structure Piece where
  lexeme : Lexeme
  span : Span

/-- A place in a list of pieces. -/
structure Reader where
  /-- What is still to be read. -/
  rest : List Piece
  /-- The end of the last piece read, line feeds left out. -/
  lastEnd : Position
  /-- Where the input ends. -/
  inputEnd : Position

namespace Reader

/-- The next lexeme, the end of input if nothing is left. -/
def next (s : Reader) : Lexeme := (s.rest.head?.map Piece.lexeme).getD ⟨.endOfInput, none⟩

def kind (s : Reader) : TokenKind := s.next.kind

/-- The kind of the lexeme behind the next one. -/
def kindBehind (s : Reader) : TokenKind :=
  ((s.rest.drop 1).head?.map fun p => p.lexeme.kind).getD .endOfInput

/-- Where what comes next starts. -/
def start (s : Reader) : Position := (s.rest.head?.map fun p => p.span.start).getD s.inputEnd

def advance : Reader → Reader
  | ⟨[], lastEnd, inputEnd⟩ => ⟨[], lastEnd, inputEnd⟩
  | ⟨p :: rest, lastEnd, inputEnd⟩ =>
    ⟨rest, if p.lexeme.kind = .newline then lastEnd else p.span.stop, inputEnd⟩

def skipNewlines (s : Reader) : Reader :=
  { s with rest := s.rest.dropWhile fun p => p.lexeme.kind = .newline }

/-- What is still to be read, without places. -/
def lexemes (s : Reader) : List Lexeme := s.rest.map Piece.lexeme

/-- A point with an identifier behind it goes on with a name. -/
def ContinuesName (s : Reader) : Prop := s.kind = .mark .dot ∧ s.kindBehind = .identifier

/-- A word for a type of collection with a bracket behind it. -/
def BeginsCollection (s : Reader) : Prop :=
  s.kind = .identifier ∧ (s.next.text.bind CollectionKind.ofWord?).isSome ∧
    s.kindBehind = .mark .leftBracket

end Reader

/-- The longest name from a place on, as its segments. -/
inductive Qualified : Reader → Reader → List String → Prop where
  | last {s : Reader} {name : String} (hnext : s.next = ⟨.identifier, some name⟩)
      (hstop : ¬ s.advance.ContinuesName) : Qualified s s.advance [name]
  | more {s r : Reader} {name : String} {segments : List String}
      (hnext : s.next = ⟨.identifier, some name⟩) (hdot : s.advance.kind = .mark .dot)
      (h : Qualified s.advance.advance r segments) : Qualified s r (name :: segments)

/-- The value of a literal. -/
def Lexeme.literal? (l : Lexeme) : Option Literal :=
  match l.kind with
  | .number kind => l.text.bind (Literal.ofNumber? kind)
  | .string _ => l.text.map .string
  | .character => l.text.map fun text => .character (text.toList.head?.getD '\x00')
  | .keyword .null => some .null
  | .keyword .true_ => some (.boolean true)
  | .keyword .false_ => some (.boolean false)
  | _ => none

/-- Whether tokens of a kind have texts. -/
def TokenKind.carriesText : TokenKind → Bool
  | .identifier | .number _ | .string _ | .character => true
  | _ => false

/-- An operator that binds at least so tightly comes next. -/
def Reader.ContinuesOperands (s : Reader) (minPrecedence : Nat) : Prop :=
  ∃ op, BinaryOperator.ofToken? s.kind = some op ∧ minPrecedence ≤ op.precedence

/-- When an alternative is taken that others of its phrase compete with: what must come
next before or behind it. -/
def Phrase.Settles : Phrase → List Item → Reader → Reader → Prop
  | .declarations _, [], _, r => r.kind = .endOfInput
  | .declarations _, [_, _], _, r => r.kind = .endOfInput
  | .statement, [.part (.expression _)], s, _ =>
    ¬ (s.kind = .identifier ∧ s.kindBehind = .mark .assign)
  | .return_, [_], _, r =>
    r.kind = .newline ∨ r.kind = .mark .rightBrace ∨ r.kind = .endOfInput
  | .if_, [_, _, _], _, r => r.kind ≠ .keyword .else_
  | .try_, [_, _, .part .catch_], _, r => r.kind ≠ .keyword .finally_
  | .expression minPrecedence, _, _, r => ¬ r.ContinuesOperands minPrecedence
  | .chain, _, _, r => r.kind ≠ .mark .colon ∧ r.kind ≠ .mark .leftParen
  | .primary, [.part .named], s, _ => ¬ s.BeginsCollection
  | .named, [_], _, r => r.kind ≠ .mark .leftParen
  | _, _, _, _ => True

/-- Whether a phrase counts as a level of nesting. -/
def Phrase.level : Phrase → Nat
  | .declarations _ | .topLevel | .parameterList _ | .parameters _ | .parameter | .members
  | .member | .lines _ | .linesTail _ | .catch_ | .finally_ | .whens _ _ | .operands _ | .calls
  | .argumentList | .elements => 0
  | _ => 1

/-- The construct of a node, or the parts themselves where no node is made. -/
def wrap (kind : Option NodeKind) (start stop : Position) (parts : List Construct) :
    List Construct :=
  match kind with
  | some kind => [.mk kind ⟨start, stop⟩ parts]
  | none => parts

/-- Reading a sequence of items from one place to another, with at most `n` levels of
nesting. -/
inductive Reads (naming : Naming) : Nat → List Item → Reader → Reader → List Construct → Prop where
  | nil {n : Nat} {s : Reader} : Reads naming n [] s s []
  | token {n : Nat} {kind : TokenKind} {items : List Item} {s r : Reader} {xs : List Construct}
      (hne : kind ≠ .endOfInput) (hkind : s.kind = kind) (h : Reads naming n items s.advance r xs) :
    Reads naming n (.token kind :: items) s r xs
  | newlines {n : Nat} {items : List Item} {s r : Reader} {xs : List Construct}
      (h : Reads naming n items s.skipNewlines r xs) :
    Reads naming n (.newlines :: items) s r xs
  | identifier {n : Nat} {name : String} {items : List Item} {s r : Reader} {xs : List Construct}
      (hnext : s.next = ⟨.identifier, some name⟩) (h : Reads naming n items s.advance r xs) :
    Reads naming n (.identifier name :: items) s r xs
  | qualified {n : Nat} {segments : List String} {items : List Item} {s s' r : Reader}
      {xs : List Construct} (hname : Qualified s s' segments) (h : Reads naming n items s' r xs) :
    Reads naming n (.qualified segments :: items) s r xs
  | literal {n : Nat} {value : Literal} {items : List Item} {s r : Reader} {xs : List Construct}
      (hvalue : s.next.literal? = some value) (h : Reads naming n items s.advance r xs) :
    Reads naming n (.literal value :: items) s r xs
  | part {n m : Nat} {phrase : Phrase} {body items : List Item} {kind : Option NodeKind}
      {s s' r : Reader} {xs ys : List Construct} (alt : Alternative naming phrase body kind)
      (hn : m + phrase.level = n) (hsettles : phrase.Settles body s s')
      (hbody : Reads naming m body s s' xs) (h : Reads naming n items s' r ys) :
    Reads naming n (.part phrase :: items) s r (wrap kind s.start s'.lastEnd xs ++ ys)

variable {naming : Naming} {n : Nat} {items : List Item} {s r : Reader} {xs zs : List Construct}

/-! ## What reading each item is -/

@[simp] theorem reads_nil_iff : Reads naming n [] s r xs ↔ r = s ∧ xs = [] := by
  constructor
  · intro h
    cases h
    exact ⟨rfl, rfl⟩
  · rintro ⟨rfl, rfl⟩
    exact .nil

@[simp] theorem reads_token_iff {kind : TokenKind} :
    Reads naming n (.token kind :: items) s r xs ↔
      kind ≠ .endOfInput ∧ s.kind = kind ∧ Reads naming n items s.advance r xs := by
  constructor
  · intro h
    cases h with
    | token hne hkind h => exact ⟨hne, hkind, h⟩
  · rintro ⟨hne, hkind, h⟩
    exact .token hne hkind h

@[simp] theorem reads_newlines_iff :
    Reads naming n (.newlines :: items) s r xs ↔ Reads naming n items s.skipNewlines r xs := by
  constructor
  · intro h
    cases h with
    | newlines h => exact h
  · exact .newlines

@[simp] theorem reads_identifier_iff {name : String} :
    Reads naming n (.identifier name :: items) s r xs ↔
      s.next = ⟨.identifier, some name⟩ ∧ Reads naming n items s.advance r xs := by
  constructor
  · intro h
    cases h with
    | identifier hnext h => exact ⟨hnext, h⟩
  · rintro ⟨hnext, h⟩
    exact .identifier hnext h

@[simp] theorem reads_qualified_iff {segments : List String} :
    Reads naming n (.qualified segments :: items) s r xs ↔
      ∃ s', Qualified s s' segments ∧ Reads naming n items s' r xs := by
  constructor
  · intro h
    cases h with
    | qualified hname h => exact ⟨_, hname, h⟩
  · rintro ⟨s', hname, h⟩
    exact .qualified hname h

@[simp] theorem reads_literal_iff {value : Literal} :
    Reads naming n (.literal value :: items) s r xs ↔
      s.next.literal? = some value ∧ Reads naming n items s.advance r xs := by
  constructor
  · intro h
    cases h with
    | literal hvalue h => exact ⟨hvalue, h⟩
  · rintro ⟨hvalue, h⟩
    exact .literal hvalue h

/-- A phrase is read by one of its alternatives. -/
theorem reads_phrase_iff {phrase : Phrase} :
    Reads naming n [.part phrase] s r zs ↔ ∃ m body kind xs, Alternative naming phrase body kind ∧
      m + phrase.level = n ∧ phrase.Settles body s r ∧ Reads naming m body s r xs ∧
      zs = wrap kind s.start r.lastEnd xs := by
  constructor
  · intro h
    cases h with
    | part alt hn hsettles hbody h =>
      obtain ⟨rfl, rfl⟩ := reads_nil_iff.mp h
      exact ⟨_, _, _, _, alt, hn, hsettles, hbody, by simp⟩
  · rintro ⟨m, body, kind, xs, alt, hn, hsettles, hbody, rfl⟩
    simpa using Reads.part alt hn hsettles hbody .nil

/-- A phrase in front of other items is read on its own. -/
theorem reads_part_append {phrase : Phrase} :
    Reads naming n (.part phrase :: items) s r zs ↔ ∃ s' xs ys,
      Reads naming n [.part phrase] s s' xs ∧ Reads naming n items s' r ys ∧ zs = xs ++ ys := by
  constructor
  · intro h
    cases h with
    | part alt hn hsettles hbody h =>
      exact ⟨_, _, _, reads_phrase_iff.mpr ⟨_, _, _, _, alt, hn, hsettles, hbody, rfl⟩, h, rfl⟩
  · rintro ⟨s', xs, ys, hphrase, h, rfl⟩
    obtain ⟨m, body, kind, zs, alt, hn, hsettles, hbody, rfl⟩ := reads_phrase_iff.mp hphrase
    exact .part alt hn hsettles hbody h

@[simp] theorem reads_part_iff {phrase : Phrase} {item : Item} :
    Reads naming n (.part phrase :: item :: items) s r zs ↔ ∃ s' xs ys,
      Reads naming n [.part phrase] s s' xs ∧ Reads naming n (item :: items) s' r ys ∧
        zs = xs ++ ys :=
  reads_part_append

/-! ## Line feeds -/

@[simp] theorem Reader.skipNewlines_skipNewlines (s : Reader) :
    s.skipNewlines.skipNewlines = s.skipNewlines := by
  simp [skipNewlines, List.dropWhile_idempotent]

theorem Reader.skipNewlines_of_kind_ne (h : s.kind ≠ .newline) : s.skipNewlines = s := by
  obtain ⟨_ | ⟨p, rest⟩, lastEnd, inputEnd⟩ := s
  · rfl
  · have hp : p.lexeme.kind ≠ .newline := h
    simp [skipNewlines, hp]

theorem Reader.skipNewlines_advance (h : s.kind = .newline) :
    s.advance.skipNewlines = s.skipNewlines := by
  obtain ⟨_ | ⟨p, rest⟩, lastEnd, inputEnd⟩ := s
  · cases h
  · have hp : p.lexeme.kind = .newline := h
    simp [skipNewlines, advance, hp]

/-! ## Lines up to a closing brace -/

theorem reads_lines_iff {form : LineForm} :
    Reads naming n [.part (.lines form)] s r xs ↔
      (s.skipNewlines.kind = .mark .rightBrace ∧ r = s.skipNewlines.advance ∧ xs = []) ∨
        Reads naming n [.part form.element, .part (.linesTail form)] s.skipNewlines r xs := by
  rw [reads_phrase_iff]
  constructor
  · rintro ⟨m, body, kind, xs, alt, hm, -, hxs, rfl⟩
    obtain rfl : m = n := hm
    cases alt with
    | linesEnd => exact .inl (by simpa [wrap] using hxs)
    | linesMore => exact .inr (reads_newlines_iff.mp hxs)
  · rintro (⟨hk, rfl, rfl⟩ | h)
    · exact ⟨n, _, none, [], .linesEnd form, rfl, trivial, by simpa using hk, rfl⟩
    · exact ⟨n, _, none, xs, .linesMore form, rfl, trivial, .newlines h, rfl⟩

theorem reads_linesTail_iff {form : LineForm} :
    Reads naming n [.part (.linesTail form)] s r xs ↔
      (s.kind = .mark .rightBrace ∧ r = s.advance ∧ xs = []) ∨
        (s.kind = .newline ∧ Reads naming n [.part (.lines form)] s.skipNewlines r xs) := by
  rw [reads_phrase_iff]
  constructor
  · rintro ⟨m, body, kind, xs, alt, hm, -, hxs, rfl⟩
    obtain rfl : m = n := hm
    cases alt with
    | linesTailEnd => exact .inl (by simpa [wrap] using hxs)
    | linesTailMore =>
      obtain ⟨-, hk, hxs⟩ := reads_token_iff.mp hxs
      rw [reads_newlines_iff, Reader.skipNewlines_advance hk] at hxs
      exact .inr ⟨hk, hxs⟩
  · rintro (⟨hk, rfl, rfl⟩ | ⟨hk, h⟩)
    · exact ⟨n, _, none, [], .linesTailEnd form, rfl, trivial, by simpa using hk, rfl⟩
    · refine ⟨n, _, none, xs, .linesTailMore form, rfl, trivial, .token (by simp) hk ?_, rfl⟩
      rw [reads_newlines_iff, Reader.skipNewlines_advance hk]
      exact h

end GoloSyntax
