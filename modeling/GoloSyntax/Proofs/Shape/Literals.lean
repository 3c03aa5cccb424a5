import GoloSyntax.Proofs.Grammar.Derivations
import GoloSyntax.Proofs.Shape.Spans

/-! # Literals and their places

Going through a tree from left to right gives the literals of its source with their values and
places, all of them and no others (`literals_of_parse`).  A literal is read by an alternative of
its own, which makes a node of it (`Alternative.literal_or_worded`); every other piece is passed
over.
-/
namespace GoloSyntax

/-- The value of a piece that is a literal, with its place. -/
def Piece.literal? (p : Piece) : Option (Literal × Span) := p.lexeme.literal?.map (·, p.span)

/-- The literals that are still to be read. -/
def Reader.literals (s : Reader) : List (Literal × Span) := s.rest.filterMap Piece.literal?

/-- The literal that a node is. -/
def NodeKind.literal? : NodeKind → Option Literal
  | .literal value => some value
  | _ => none

namespace Construct

mutual

/-- The literals of a construct with their places, from left to right. -/
def literals : Construct → List (Literal × Span)
  | .mk kind span parts => (kind.literal?.map (·, span)).toList ++ allLiterals parts

def allLiterals : List Construct → List (Literal × Span)
  | [] => []
  | x :: xs => literals x ++ allLiterals xs

end

@[simp] theorem allLiterals_append (xs ys : List Construct) :
    allLiterals (xs ++ ys) = allLiterals xs ++ allLiterals ys := by
  induction xs with
  | nil => rfl
  | cons x xs ih => simp [allLiterals, ih]

end Construct

open Construct

variable {n : Nat} {items body : List Item} {phrase : Phrase} {kind : Option NodeKind}
  {s r : Reader} {xs : List Construct}

/-! ## Reading passes over everything else -/

theorem Lexeme.literal?_of_not_isLiteral {l : Lexeme} (h : l.kind.isLiteral = false) :
    l.literal? = none := by
  cases hl : l.literal? with
  | none => rfl
  | some value =>
    rw [Lexeme.isLiteral_of_literal? hl] at h
    cases h

theorem Reader.literals_advance (h : s.kind.isLiteral = false) : s.advance.literals = s.literals := by
  obtain ⟨_ | ⟨p, rest⟩, lastEnd, inputEnd⟩ := s
  · rfl
  · have hp : p.lexeme.literal? = none := Lexeme.literal?_of_not_isLiteral h
    simp [literals, Reader.advance, Piece.literal?, hp]

theorem Reader.literals_skipNewlines (s : Reader) : s.skipNewlines.literals = s.literals := by
  obtain ⟨rest, lastEnd, inputEnd⟩ := s
  have hnewline : ∀ p ∈ rest.takeWhile (fun p => p.lexeme.kind = .newline),
      p.literal? = none := by
    intro p hp
    have hkind : p.lexeme.kind = .newline := by simpa using List.mem_takeWhile_imp hp
    simp [Piece.literal?, Lexeme.literal?_of_not_isLiteral (l := p.lexeme) (by rw [hkind]; rfl)]
  calc (rest.dropWhile fun p => p.lexeme.kind = .newline).filterMap Piece.literal?
      = (rest.takeWhile fun p => p.lexeme.kind = .newline).filterMap Piece.literal? ++
          (rest.dropWhile fun p => p.lexeme.kind = .newline).filterMap Piece.literal? := by
        rw [List.filterMap_eq_nil_iff.mpr hnewline, List.nil_append]
    _ = rest.filterMap Piece.literal? := by
        rw [← List.filterMap_append, List.takeWhile_append_dropWhile]

theorem Qualified.literals_eq {segments : List String} (h : Qualified s r segments) :
    r.literals = s.literals := by
  induction h with
  | last hnext => exact Reader.literals_advance (by simp [Reader.kind, hnext, TokenKind.isLiteral])
  | more hnext hdot _ ih =>
    rw [ih, Reader.literals_advance (by simp [hdot, TokenKind.isLiteral]),
      Reader.literals_advance (by simp [Reader.kind, hnext, TokenKind.isLiteral])]

/-- What is read of a literal is its value and its place. -/
theorem Reader.literals_of_literal? {value : Literal} (h : s.next.literal? = some value) :
    s.literals = (value, ⟨s.start, s.advance.lastEnd⟩) :: s.advance.literals := by
  obtain ⟨_ | ⟨p, rest⟩, lastEnd, inputEnd⟩ := s
  · cases h
  · have hp : p.lexeme.literal? = some value := h
    have hkind : p.lexeme.kind ≠ .newline := (Lexeme.literal?_ne hp).2
    simp [literals, Reader.start, Reader.advance, Piece.literal?, hp, hkind]

/-! ## Reading makes a node of every literal -/

/-- Whether no item is a literal. -/
def Item.worded (items : List Item) : Bool :=
  items.all fun item =>
    match item with
    | .literal _ => false
    | _ => true

/-- A literal is an alternative of its own, and makes a node. -/
theorem Alternative.literal_or_worded (alt : Alternative .byText phrase body kind) :
    (∃ value, body = [.literal value] ∧ kind = some (.literal value)) ∨
      Item.worded body ∧ kind.bind NodeKind.literal? = none := by
  cases alt with
  | literal value => exact .inl ⟨value, rfl, rfl⟩
  | statement hform => exact .inr ⟨rfl, rfl⟩
  | bareName hkind =>
    refine .inr ⟨rfl, ?_⟩
    simp only [Naming.byText, NameDenotes] at hkind
    split at hkind
    · rw [hkind]
      rfl
    · rw [hkind.2]
      rfl
  | _ => exact .inr ⟨rfl, rfl⟩

theorem allLiterals_wrap (kind : Option NodeKind) (start stop : Position) :
    allLiterals (wrap kind start stop xs) =
      ((kind.bind NodeKind.literal?).map (·, ⟨start, stop⟩)).toList ++ allLiterals xs := by
  cases kind with
  | none => rfl
  | some kind => simp [wrap, allLiterals, literals]

/-- The literals between two places are those of what is read there. -/
theorem Reads.literals_eq (h : Reads .byText n items s r xs) (hmodest : Item.modest items)
    (hworded : Item.worded items) : s.literals = allLiterals xs ++ r.literals := by
  induction h with
  | nil => rfl
  | @token _ kind items _ _ _ _ hkind _ ih =>
    have hplain : kind.isLiteral = false := by simp_all [Item.modest]
    rw [← ih (Item.modest_cons hmodest).1 hworded, Reader.literals_advance (hkind ▸ hplain)]
  | newlines _ ih => rw [← ih (Item.modest_cons hmodest).1 hworded, Reader.literals_skipNewlines]
  | identifier hnext _ ih =>
    rw [← ih (Item.modest_cons hmodest).1 hworded,
      Reader.literals_advance (by simp [Reader.kind, hnext, TokenKind.isLiteral])]
  | qualified hname _ ih => rw [← ih (Item.modest_cons hmodest).1 hworded, hname.literals_eq]
  | literal => cases hworded
  | part alt hn hsettles hbody _ ihbody ih =>
    rw [allLiterals_append, allLiterals_wrap, List.append_assoc,
      ← ih (Item.modest_cons hmodest).1 hworded]
    -- A literal is the only thing its own alternative reads; elsewhere the parts have them all.
    rcases alt.literal_or_worded with ⟨value, rfl, rfl⟩ | ⟨hbodyWorded, hkind⟩
    · obtain ⟨hvalue, hrest⟩ := reads_literal_iff.mp hbody
      obtain ⟨rfl, rfl⟩ := reads_nil_iff.mp hrest
      exact Reader.literals_of_literal? hvalue
    · rw [hkind]
      simpa using ihbody alt.modest hbodyWorded

/-! ## Literals of a tree -/

namespace Construct

theorem allLiterals_eq_flatMap (xs : List Construct) : allLiterals xs = xs.flatMap literals := by
  induction xs with
  | nil => rfl
  | cons x xs ih => rw [allLiterals, ih, List.flatMap_cons]

theorem mem_literals_of_within {x y : Construct} {value : Literal} (h : y.Within x)
    (hkind : y.kind = .literal value) : (value, y.span) ∈ x.literals := by
  induction h with
  | refl x =>
    obtain ⟨kind, span, parts⟩ := x
    obtain rfl : kind = .literal value := hkind
    simp [literals, NodeKind.literal?]
  | @part x y z _ hz ih =>
    obtain ⟨kind, span, parts⟩ := x
    rw [literals, allLiterals_eq_flatMap]
    exact List.mem_append_right _ (List.mem_flatMap.mpr ⟨z, hz, ih hkind⟩)

theorem exists_within_of_mem_literals {x : Construct} {value : Literal} {span : Span}
    (h : (value, span) ∈ x.literals) :
    ∃ y : Construct, y.Within x ∧ y.kind = .literal value ∧ y.span = span := by
  induction x using byParts with
  | step kind span' parts ih =>
    rw [literals, allLiterals_eq_flatMap] at h
    rcases List.mem_append.mp h with h | h
    · refine ⟨_, .refl _, ?_⟩
      cases kind <;> simp_all [NodeKind.literal?]
    · obtain ⟨z, hz, hmem⟩ := List.mem_flatMap.mp h
      obtain ⟨y, hy, hvalue⟩ := ih z hz hmem
      exact ⟨y, .part hy hz, hvalue⟩

end Construct

namespace Tree

variable {t : Tree} {id : NodeId} {x : Construct}

/-- Everything that stands in what a node shows is shown by a node. -/
theorem Shows.exists_of_within (h : t.Shows id x) (hsize : x.count ≤ t.size) {y : Construct}
    (hy : y.Within x) : ∃ id', t.Shows id' y := by
  induction hy generalizing id with
  | refl => exact ⟨id, h⟩
  | @part x y z hw hz ih =>
    obtain ⟨child, -, hshows⟩ := exists_of_mem_forall₂ (h.children hsize).flip hz
    have hcount : z.count ≤ x.count := (Construct.Within.part (.refl z) hz).count_le
    exact ih hshows (Nat.le_trans hcount hsize)

end Tree

/-- The literals of a token stream with their places. -/
def TokenStream.literals (stream : TokenStream) : List (Literal × Span) :=
  stream.placed.filterMap fun x => x.1.literal?.map (·, x.2)

variable {source : String} {stream : TokenStream} {limits : Limits} {t : Tree}

theorem TokenStream.mem_literals_iff {value : Literal} {span : Span} :
    (value, span) ∈ stream.literals ↔ ∃ token ∈ stream.tokens,
      (token.lexeme stream.symbols).literal? = some value ∧ token.span = span := by
  simp [literals, placed, Token.placed]

theorem Pieces.literals_eq {pieces : List Piece} (h : Pieces stream source pieces) :
    stream.literals = pieces.filterMap Piece.literal? := by
  rw [TokenStream.literals, h.placed, List.filterMap_append, List.filterMap_map]
  exact List.append_nil _

/-- The literals of a source, by value and place, are those of its tree, from left to right. -/
theorem literals_of_parse (hlex : lex source limits = .ok stream)
    (h : parse stream limits = .ok t) : (t.construct Tree.root).literals = stream.literals := by
  obtain ⟨r, xs, hreads, hshows, hsize⟩ := parse_sound h
  obtain ⟨pieces, hpieces⟩ := exists_pieces_of_lex hlex
  have hcount : (Construct.mk .compilationUnit stream.unitSpan xs).count ≤ t.size := by
    rw [hsize, Construct.count]
  rw [hpieces.reader_eq (symbols_of_parse h)] at hreads
  have hend := hreads.rest_eq_nil (by
    intro l hl
    obtain ⟨p, hp, rfl⟩ := List.mem_map.mp hl
    exact hpieces.kind p hp)
  have hliterals := hreads.literals_eq rfl rfl
  rw [hshows.construct_eq hcount, hpieces.literals_eq]
  simpa [Reader.literals, hend, literals, NodeKind.literal?] using hliterals.symm

/-- A literal of a source is a node of its tree. -/
theorem exists_node_of_literal (hlex : lex source limits = .ok stream)
    (h : parse stream limits = .ok t) {token : Token} (htoken : token ∈ stream.tokens)
    {value : Literal} (hvalue : (token.lexeme stream.symbols).literal? = some value) :
    ∃ id, id.index < t.size ∧ t.kind id = .literal value ∧ t.span id = token.span := by
  obtain ⟨r, xs, -, hshows, hsize⟩ := parse_sound h
  have hcount : (Construct.mk .compilationUnit stream.unitSpan xs).count ≤ t.size := by
    rw [hsize, Construct.count]
  have hmem : (value, token.span) ∈ (t.construct Tree.root).literals := by
    rw [literals_of_parse hlex h]
    exact TokenStream.mem_literals_iff.mpr ⟨token, htoken, hvalue, rfl⟩
  rw [hshows.construct_eq hcount] at hmem
  obtain ⟨y, hy, hkind, hspan⟩ := Construct.exists_within_of_mem_literals hmem
  obtain ⟨id, hid⟩ := hshows.exists_of_within hcount hy
  exact ⟨id, hid.index_lt, hid.kind_eq.trans hkind, hid.span_eq.trans hspan⟩

/-- A literal of a tree stands where a token does that has its value. -/
theorem exists_token_of_literal (hlex : lex source limits = .ok stream)
    (h : parse stream limits = .ok t) {id : NodeId} (hid : id.index < t.size) {value : Literal}
    (hkind : t.kind id = .literal value) : ∃ token ∈ stream.tokens,
      (token.lexeme stream.symbols).literal? = some value ∧ token.span = t.span id := by
  obtain ⟨r, xs, -, hloose, hsize⟩ := parse_loose h
  have hcount : (Construct.mk .compilationUnit stream.unitSpan xs).count ≤ t.size := by
    rw [hsize, Construct.count]
  have hreaches := ((hloose.rooted rfl hsize.symm).reached id).mpr hid
  obtain ⟨y, hy, hshows⟩ := hloose.shows.exists_within hcount hreaches
  apply TokenStream.mem_literals_iff.mp
  rw [← literals_of_parse hlex h, hloose.shows.construct_eq hcount, hshows.span_eq]
  exact Construct.mem_literals_of_within hy (hshows.kind_eq.symm.trans hkind)

end GoloSyntax
