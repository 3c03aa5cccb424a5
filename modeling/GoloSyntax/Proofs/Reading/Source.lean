import GoloSyntax.Proofs.Reading.Parse
import GoloSyntax.Proofs.Token.Munch

/-! # Reading a source

A source is cut up into pieces with the end of input behind them (`exists_pieces_of_lex`), and
whatever is read as a compilation unit is read up to there (`Reads.rest_eq_nil`).
-/
namespace GoloSyntax

/-- What is cut out of a source in front of the end of input, where each piece stands. -/
structure Pieces (stream : TokenStream) (source : String) (pieces : List Piece) : Prop where
  placed : stream.placed = pieces.map (fun p => (p.lexeme, p.span)) ++
    [(⟨.endOfInput, none⟩, .empty (Position.start.advance source.toList))]
  kind : ∀ p ∈ pieces, p.lexeme.kind ≠ .endOfInput
  resolves : stream.Resolves

theorem exists_pieces_of_lex {source : String} {limits : Limits} {stream : TokenStream}
    (h : lex source limits = .ok stream) : ∃ pieces, Pieces stream source pieces := by
  obtain ⟨htiles, hresolves, -⟩ := tiles_of_lex h
  obtain ⟨front, hplaced, hfront⟩ := htiles.last_eq
  refine ⟨front.map fun x => ⟨x.1, x.2⟩, ?_, ?_, hresolves⟩
  · rw [hplaced, List.map_map]
    exact congrArg (· ++ _) (List.map_id _).symm
  · simpa using fun p l span hmem heq => heq ▸ hfront _ hmem

namespace Pieces

variable {stream : TokenStream} {source : String} {pieces : List Piece} {symbols : SymbolTable}

/-- The tokens in front of the end of input, and that end. -/
theorem exists_tokens (h : Pieces stream source pieces) : ∃ front stop,
    splitAtEnd stream.tokens = (front, stop) ∧ (∀ t ∈ front, t.HasText stream.symbols) ∧
      front.map (·.placed stream.symbols) = pieces.map (fun p => (p.lexeme, p.span)) ∧
      stop.span = .empty (Position.start.advance source.toList) := by
  obtain ⟨front, stops, htokens, hfront, hstops⟩ := List.map_eq_append_iff.mp h.placed
  obtain ⟨stop, rfl, hstop⟩ := List.map_eq_singleton_iff.mp hstops
  obtain ⟨hkind, hspan⟩ := Prod.mk.inj hstop
  replace hkind : stop.kind = .endOfInput := congrArg Lexeme.kind hkind
  have hall : ∀ t ∈ front, t.kind ≠ .endOfInput := by
    intro t ht
    obtain ⟨p, hp, heq⟩ := List.mem_map.mp (hfront ▸ List.mem_map_of_mem ht)
    rw [show t.kind = p.lexeme.kind from congrArg (·.1.kind) heq.symm]
    exact h.kind p hp
  refine ⟨front, stop, ?_, fun t ht => h.resolves t ?_, hfront, hspan⟩
  · have hbool : ∀ t ∈ front, (t.kind != .endOfInput) = true := by simpa using hall
    rw [splitAtEnd_eq, htokens, List.takeWhile_append_of_pos hbool,
      List.dropWhile_append_of_pos hbool]
    simp [hkind]
  · rw [← Array.mem_toList_iff, htokens]
    exact List.mem_append_left _ ht

/-- A source is read from its first piece on, with the texts as they are after reading. -/
theorem reader_eq (h : Pieces stream source pieces) (hsymbols : stream.symbols.Within symbols) :
    stream.reader symbols.text? = ⟨pieces, .start, Position.start.advance source.toList⟩ := by
  obtain ⟨front, stop, hsplit, htexts, hpieces, hstop⟩ := h.exists_tokens
  have hmap : front.map (fun t => (⟨⟨t.kind, t.symbol.bind symbols.text?⟩, t.span⟩ : Piece)) =
      (front.map (·.placed stream.symbols)).map fun x => ⟨x.1, x.2⟩ := by
    rw [List.map_map]
    refine List.map_congr_left fun t ht => ?_
    have hlexeme := Token.lexeme_of_within (htexts t ht) hsymbols
    simp only [Function.comp_apply, Token.placed, ← hlexeme]
    rfl
  simp only [TokenStream.reader, hsplit, hmap, hpieces, hstop, List.map_map]
  congr 1
  exact List.map_id _

theorem hasTexts (h : Pieces stream source pieces) : stream.HasTexts := by
  obtain ⟨front, stop, hsplit, htexts, -⟩ := h.exists_tokens
  rw [TokenStream.HasTexts, hsplit]
  exact htexts

theorem lexemes_eq (h : Pieces stream source pieces) :
    stream.lexemes = pieces.map Piece.lexeme ++ [⟨.endOfInput, none⟩] := by
  rw [stream.lexemes_eq, h.placed]
  simp [Function.comp_def]

end Pieces

/-! ## The end of input -/

variable {naming : Naming} {n : Nat} {items : List Item} {s r : Reader} {xs : List Construct}

theorem Reads.kind_of_suffix (h : Reads naming n items s r xs) {imports : Bool}
    (hlast : [.part (.declarations imports)] <:+ items) : r.kind = .endOfInput := by
  induction h generalizing imports with
  | nil => simp at hlast
  | token _ _ _ ih | newlines _ ih | identifier _ _ ih | qualified _ _ ih | literal _ _ ih =>
    rcases List.suffix_cons_iff.mp hlast with heq | hlast
    · cases heq
    · exact ih hlast
  | part alt hn hsettles hbody h ihbody ih =>
    rcases List.suffix_cons_iff.mp hlast with heq | hlast
    · cases heq
      obtain ⟨rfl, -⟩ := reads_nil_iff.mp h
      cases alt with
      | declarationsEnd | declarationsNewlines => exact hsettles
      | declarationsImport | declarationsTopLevel =>
        exact ihbody (List.suffix_append [_, _, _] [_])
    · exact ih hlast

/-- A compilation unit is read up to the end of input. -/
theorem Reads.rest_eq_nil (h : Reads naming n [.part .compilationUnit] s r xs)
    (hs : ∀ l ∈ s.lexemes, l.kind ≠ .endOfInput) : r.rest = [] := by
  obtain ⟨m, body, kind, ys, alt, -, -, hbody, -⟩ := reads_phrase_iff.mp h
  cases alt
  have hend : r.kind = .endOfInput := hbody.kind_of_suffix (List.suffix_append [_, _] [_])
  obtain ⟨_ | ⟨p, rest⟩, lastEnd, inputEnd⟩ := r
  · rfl
  · exact absurd hend (hs p.lexeme (h.lexemes_suffix.subset List.mem_cons_self))

end GoloSyntax
