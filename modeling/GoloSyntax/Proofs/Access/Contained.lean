import GoloSyntax.Proofs.Access.Walk
import GoloSyntax.Proofs.Shape.Spans
import GoloSyntax.Proofs.Token.Limits

/-! # Nothing is accessed that is not there

With limits that are accepted, a source is cut up, read, walked through and dumped without an
access outside of the source, its tokens, the nodes of the tree or the table of texts
(`contained_of_validate`).  The limits are what keeps numbers of nodes and texts small enough: there
is a text for each token, and reading enters two more for each at most.
-/
namespace GoloSyntax

variable {source : String} {limits : Limits} {stream : TokenStream} {t : Tree}

/-- Nothing is accessed that is not there when a source is cut up and read, and when the tree is
walked through or dumped from any of its nodes. -/
structure Contained (source : String) (limits : Limits) : Prop where
  /-- Texts are cut out between characters, and no length is less than nothing. -/
  lex : Indexed.lex? source limits = some (lex source limits)
  /-- The texts of tokens are listed, and tokens end behind where they begin. -/
  tokens : ∀ {stream}, GoloSyntax.lex source limits = .ok stream → ∀ token ∈ stream.tokens,
    token.HasText stream.symbols ∧ token.span.start.offset ≤ token.span.stop.offset
  /-- No token is looked at that is not there, no node linked, and there are numbers left for all
  nodes and texts. -/
  parse : ∀ {stream}, GoloSyntax.lex source limits = .ok stream → ∃ si,
    Indexed.parse (Indexed.inBounds limits) stream limits = some (parse stream limits, si)
  /-- Links lead to nodes of the tree, and nodes end behind where they begin. -/
  nodes : ∀ {t}, parseSource source limits = .ok t → t.Linked ∧
    ∀ id, id.index < t.size → (t.span id).start.offset ≤ (t.span id).stop.offset
  /-- A walk calls on nodes of the tree, whatever the visitor decides. -/
  walk : ∀ {t}, parseSource source limits = .ok t → ∀ id, id.index < t.size →
    ∀ {σ : Type} (v : Visitor σ) (s : σ), Indexed.walk? t v id s = some (t.walk v id s)
  /-- A dump shows nodes of the tree, with texts that are listed. -/
  dump : ∀ {t}, parseSource source limits = .ok t → ∀ id, id.index < t.size →
    ∀ options, Indexed.dumpLines? t id options = some (t.dumpLines id options)

theorem span_le_of_lex (h : lex source limits = .ok stream) {token : Token}
    (htoken : token ∈ stream.tokens) : token.span.start.offset ≤ token.span.stop.offset := by
  obtain ⟨htiles, -⟩ := tiles_of_lex h
  obtain ⟨pieces, hpieces⟩ := exists_pieces_of_lex h
  obtain ⟨hsorted, -⟩ := hpieces.sorted htiles .start
  have hplaced : ∀ x ∈ stream.placed, x.2.start.offset ≤ x.2.stop.offset := by
    rw [hpieces.placed]
    intro x hx
    rcases List.mem_append.mp hx with hx | hx
    · obtain ⟨p, hp, rfl⟩ := List.mem_map.mp hx
      exact Nat.le_of_lt (hsorted.nonempty p hp)
    · rw [List.mem_singleton.mp hx]
      exact Nat.le_refl _
  exact (stream.forall_mem_placed (P := fun _ span => span.start.offset ≤ span.stop.offset)).mp
    hplaced token htoken

/-- There are numbers left for all that reading a source enters. -/
theorem room_of_lex (h : lex source limits = .ok stream)
    (hlimit : 4 * limits.maxTokenCount ≤ numberLimit) :
    stream.symbols.size + 2 * (splitAtEnd stream.tokens).1.length ≤ numberLimit := by
  have hsymbols := Indexed.size_symbols_le_of_lex h
  have hsize : stream.size ≤ limits.maxTokenCount := (tiles_of_lex h).2.2.1
  have hfront : (splitAtEnd stream.tokens).1.length ≤ stream.size := length_splitAtEnd stream.tokens
  omega

theorem exists_parse_inBounds (h : lex source limits = .ok stream)
    (hvalid : limits.validate? = none) :
    (∃ si, Indexed.parse (Indexed.inBounds limits) stream limits = some (parse stream limits, si)) ∧
      ∀ t, parse stream limits = .ok t → t.Linked := by
  obtain ⟨htokens, hnodes⟩ := Limits.counts_of_validate hvalid
  have htexts : Indexed.Texts (stream.context limits) (Indexed.beginning stream) := by
    have hresolves : stream.Resolves := (tiles_of_lex h).2.1
    constructor
    · intro token htoken
      obtain ⟨i, hi⟩ := List.mem_iff_getElem?.mp htoken
      have htext := hasText_splitAtEnd hresolves i
      rwa [show (splitAtEnd stream.tokens).1[i]? = some token from hi] at htext
    · have htext := hasText_splitAtEnd hresolves (splitAtEnd stream.tokens).1.length
      rwa [List.getElem?_eq_none (Nat.le_refl _)] at htext
  obtain ⟨si, hparse, -, hread⟩ := Indexed.exists_parse_eq (.checked stream limits hnodes)
    (room_of_lex h htokens) ⟨Tree.linked_ofSymbols _, htexts⟩
  refine ⟨⟨si, hparse⟩, fun t ht => ?_⟩
  obtain ⟨-, s, root, ⟨hlinked, -⟩, rfl⟩ := hread t ht
  exact hlinked.setSpan

/-- Within limits that are accepted nothing is accessed that is not there. -/
theorem contained_of_validate (source : String) (h : limits.validate? = none) :
    Contained source limits := by
  have hlinked {t : Tree} (ht : parseSource source limits = .ok t) : ∃ stream,
      lex source limits = .ok stream ∧ parse stream limits = .ok t ∧ t.Linked := by
    simp only [parseSource] at ht
    split at ht
    · cases ht
    · next stream hlex => exact ⟨stream, hlex, ht, (exists_parse_inBounds hlex h).2 t ht⟩
  constructor
  case lex =>
    have htokens := (Limits.counts_of_validate h).1
    exact Indexed.lex?_eq source (by omega)
  case tokens =>
    intro stream hlex token htoken
    exact ⟨(tiles_of_lex hlex).2.1 token htoken, span_le_of_lex hlex htoken⟩
  case parse =>
    intro stream hlex
    exact (exists_parse_inBounds hlex h).1
  case nodes =>
    intro t ht
    obtain ⟨stream, hlex, hparse, hlinked⟩ := hlinked ht
    refine ⟨hlinked, fun id hid => ?_⟩
    obtain ⟨y, hshows, -, -, hlt⟩ := exists_encloses_of_parse hlex hparse hid
    rw [hshows.span_eq]
    exact Nat.le_of_lt hlt
  case walk =>
    intro t ht id hid σ v s
    obtain ⟨-, -, -, hlinked⟩ := hlinked ht
    exact Indexed.walk?_eq hlinked hid v s
  case dump =>
    intro t ht id hid options
    obtain ⟨-, -, -, hlinked⟩ := hlinked ht
    exact Indexed.dumpLines?_eq hlinked hid options

/-- A string on two lines with a character of two bytes. -/
theorem contained_of_accent : ∃ t,
    parseSource "module m\nfunction f = -> \"\"\"é\n\"\"\"" {} = .ok t ∧ t.size = 5 ∧
      ({} : Limits).validate? = none ∧
      Contained "module m\nfunction f = -> \"\"\"é\n\"\"\"" {} := by
  have hvalid : ({} : Limits).validate? = none := by decide
  have hsize : (parseSource "module m\nfunction f = -> \"\"\"é\n\"\"\"" {}).toOption.map Tree.size =
      some 5 := by
    decide +kernel
  cases h : parseSource "module m\nfunction f = -> \"\"\"é\n\"\"\"" {} with
  | error e =>
    rw [h] at hsize
    cases hsize
  | ok t =>
    rw [h] at hsize
    exact ⟨t, rfl, Option.some.inj hsize, hvalid, contained_of_validate _ hvalid⟩

end GoloSyntax
