import GoloSyntax.Proofs.Grammar.Parts
import GoloSyntax.Proofs.Reading.Source
import GoloSyntax.Proofs.Shape.Arena

/-! # Spans nest

The pieces of a source stand one behind the other (`Reader.Sorted`), and reading goes through
them in order.  So what is read between two places stands between them, part behind part
(`Laid`), and a construct that begins where its first piece does and ends where its last piece
does encloses its parts (`Reads.laid`).  A node of a tree is such a construct; only the root
reaches from end to end of the source whatever it holds (`spans_of_parse`).
-/
namespace GoloSyntax

/-- The span begins with one of the pieces and ends with one that is no line feed. -/
structure Span.Frames (pieces : List Piece) (span : Span) : Prop where
  start : ∃ p ∈ pieces, span.start = p.span.start
  stop : ∃ p ∈ pieces, p.lexeme.kind ≠ .newline ∧ span.stop = p.span.stop

theorem Span.Frames.mono {pieces pieces' : List Piece} {span : Span} (h : span.Frames pieces)
    (hsub : pieces ⊆ pieces') : span.Frames pieces' where
  start := by
    obtain ⟨p, hp, hstart⟩ := h.start
    exact ⟨p, hsub hp, hstart⟩
  stop := by
    obtain ⟨p, hp, hstop⟩ := h.stop
    exact ⟨p, hsub hp, hstop⟩

/-- The parts stand within the construct, one behind the other. -/
structure Construct.Encloses (x : Construct) : Prop where
  within : ∀ y ∈ x.parts, x.span.contains y.span
  order : x.parts.Pairwise fun y z => y.span.precedes z.span

/-- A construct that is made of whole pieces and encloses its parts. -/
structure Construct.Fits (pieces : List Piece) (x : Construct) : Prop where
  nonempty : x.span.start.offset < x.span.stop.offset
  frames : x.span.Frames pieces
  encloses : x.Encloses

theorem Construct.Fits.mono {pieces pieces' : List Piece} {x : Construct} (h : x.Fits pieces)
    (hsub : pieces ⊆ pieces') : x.Fits pieces' :=
  ⟨h.nonempty, h.frames.mono hsub, h.encloses⟩

/-! ## Places in order -/

/-- What is still to be read stands behind what has been read, piece behind piece. -/
structure Reader.Sorted (s : Reader) : Prop where
  order : s.rest.Pairwise fun p q => p.span.precedes q.span
  nonempty : ∀ p ∈ s.rest, p.span.start.offset < p.span.stop.offset
  behind : ∀ p ∈ s.rest, s.lastEnd.offset ≤ p.span.start.offset

variable {naming : Naming} {n : Nat} {items : List Item} {s s' r : Reader}
  {xs ys : List Construct} {p : Piece}

namespace Reader.Sorted

/-- Nothing stands in front of where the next piece starts. -/
theorem start_le (h : s.Sorted) (hp : p ∈ s.rest) : s.start.offset ≤ p.span.start.offset := by
  obtain ⟨_ | ⟨q, rest⟩, lastEnd, inputEnd⟩ := s
  · cases hp
  · rcases List.mem_cons.mp hp with rfl | hp
    · exact Nat.le_refl _
    · have hq := h.nonempty q List.mem_cons_self
      have hqp : q.span.stop.offset ≤ p.span.start.offset := by
        simpa [Span.precedes] using List.rel_of_pairwise_cons h.order hp
      show q.span.start.offset ≤ _
      omega

theorem advance (h : s.Sorted) : s.advance.Sorted ∧ s.lastEnd.offset ≤ s.advance.lastEnd.offset := by
  obtain ⟨_ | ⟨p, rest⟩, lastEnd, inputEnd⟩ := s
  · exact ⟨h, Nat.le_refl _⟩
  · have hp := h.nonempty p List.mem_cons_self
    have hlast : lastEnd.offset ≤ p.span.start.offset := h.behind p List.mem_cons_self
    have hrest : ∀ q ∈ rest, p.span.stop.offset ≤ q.span.start.offset := fun q hq => by
      simpa [Span.precedes] using List.rel_of_pairwise_cons h.order hq
    refine ⟨⟨h.order.of_cons, fun q hq => h.nonempty q (List.mem_cons_of_mem _ hq),
      fun q hq => ?_⟩, ?_⟩
    · have := hrest q hq
      simp only [Reader.advance]
      split <;> omega
    · simp only [Reader.advance]
      split <;> omega

theorem skipNewlines (h : s.Sorted) : s.skipNewlines.Sorted where
  order := h.order.sublist (List.dropWhile_sublist _)
  nonempty p hp := h.nonempty p ((List.dropWhile_sublist _).subset hp)
  behind p hp := h.behind p ((List.dropWhile_sublist _).subset hp)

end Reader.Sorted

/-! ## What is read between two places -/

/-- What has been read from `s` to `r` stands between them, one construct behind the other. -/
structure Laid (s r : Reader) (xs : List Construct) : Prop where
  sorted : r.Sorted
  rest : r.rest <:+ s.rest
  /-- What was read last, line feeds left out, is a piece that was still to be read. -/
  lastEnd : r.lastEnd = s.lastEnd ∨ s.lastEnd.offset ≤ r.lastEnd.offset ∧
    ∃ p ∈ s.rest, p.lexeme.kind ≠ .newline ∧ r.lastEnd = p.span.stop
  bounds : ∀ x ∈ xs, x.span.Frames s.rest ∧ x.span.stop.offset ≤ r.lastEnd.offset
  order : xs.Pairwise fun x y => x.span.precedes y.span
  fits : ∀ x ∈ xs, x.Everywhere (·.Fits s.rest)

namespace Laid

theorem lastEnd_le (h : Laid s r xs) : s.lastEnd.offset ≤ r.lastEnd.offset := by
  rcases h.lastEnd with hlast | ⟨hlast, -⟩
  · rw [hlast]
  · exact hlast

theorem refl (h : s.Sorted) : Laid s s [] :=
  ⟨h, List.suffix_rfl, .inl rfl, nofun, .nil, nofun⟩

/-- Something else may have been read before. -/
theorem after (h : Laid s' r xs) (hrest : s'.rest <:+ s.rest)
    (hlast : s'.lastEnd = s.lastEnd ∨ s.lastEnd.offset ≤ s'.lastEnd.offset ∧
      ∃ p ∈ s.rest, p.lexeme.kind ≠ .newline ∧ s'.lastEnd = p.span.stop) : Laid s r xs where
  sorted := h.sorted
  rest := h.rest.trans hrest
  lastEnd := by
    rcases h.lastEnd with heq | ⟨hle, p, hp, hkind, hstop⟩
    · rwa [heq]
    · refine .inr ⟨?_, p, hrest.subset hp, hkind, hstop⟩
      rcases hlast with heq | ⟨hle', -⟩
      · rwa [← heq]
      · exact Nat.le_trans hle' hle
  bounds x hx := ⟨(h.bounds x hx).1.mono hrest.subset, (h.bounds x hx).2⟩
  order := h.order
  fits x hx y hy := (h.fits x hx y hy).mono hrest.subset

theorem append (h : Laid s s' xs) (h' : Laid s' r ys) : Laid s r (xs ++ ys) where
  sorted := h'.sorted
  rest := h'.rest.trans h.rest
  lastEnd := (h'.after h.rest h.lastEnd).lastEnd
  bounds x hx := by
    rcases List.mem_append.mp hx with hx | hx
    · exact ⟨(h.bounds x hx).1, Nat.le_trans (h.bounds x hx).2 h'.lastEnd_le⟩
    · exact (h'.after h.rest h.lastEnd).bounds x hx
  order := by
    refine List.pairwise_append.mpr ⟨h.order, h'.order, fun x hx y hy => ?_⟩
    obtain ⟨p, hp, hstart⟩ := (h'.bounds y hy).1.start
    have hx := (h.bounds x hx).2
    have hp := h.sorted.behind p hp
    simp only [Span.precedes, decide_eq_true_eq, hstart]
    omega
  fits x hx := by
    rcases List.mem_append.mp hx with hx | hx
    · exact h.fits x hx
    · exact (h'.after h.rest h.lastEnd).fits x hx

/-- A node over all that has been read from one place to another. -/
theorem node (hs : s.Sorted) (h : Laid s r xs) (hends : s.EndsWith r) (kind : NodeKind) :
    Laid s r [.mk kind ⟨s.start, r.lastEnd⟩ xs] := by
  obtain ⟨read, p, hrest, hend⟩ := hends
  have hp : p ∈ s.rest := hrest ▸ List.mem_append_right _ List.mem_cons_self
  have hstart := hs.start_le hp
  have hbehind := hs.behind p hp
  have hnonempty := hs.nonempty p hp
  have hframes : Span.Frames s.rest ⟨s.start, r.lastEnd⟩ := by
    constructor
    · obtain ⟨q, rest, hq⟩ := List.exists_cons_of_ne_nil (List.ne_nil_of_mem hp)
      exact ⟨q, hq ▸ List.mem_cons_self, by simp [Reader.start, hq]⟩
    · rcases h.lastEnd with heq | ⟨-, hlast⟩
      -- The last piece ends behind everything that had been read before.
      · rw [← heq, hend] at hbehind
        omega
      · exact hlast
  have hfits : Construct.Fits s.rest (.mk kind ⟨s.start, r.lastEnd⟩ xs) := by
    refine ⟨by simp only [Construct.span_mk, hend]; omega, hframes, fun x hx => ?_, h.order⟩
    obtain ⟨⟨q, hq, hxstart⟩, -⟩ := (h.bounds x hx).1
    have := hs.start_le hq
    simp only [Span.contains, Construct.span_mk, hxstart, Bool.and_eq_true, decide_eq_true_eq]
    exact ⟨this, decide_eq_true (h.bounds x hx).2⟩
  refine ⟨h.sorted, h.rest, h.lastEnd, ?_, List.pairwise_singleton _ _, ?_⟩
  · exact List.forall_mem_singleton.mpr ⟨hframes, Nat.le_refl _⟩
  · exact List.forall_mem_singleton.mpr (Construct.everywhere_iff.mpr ⟨hfits, h.fits⟩)

end Laid

theorem Reader.Sorted.laid_advance (h : s.Sorted) (hend : s.kind ≠ .endOfInput)
    (hlaid : Laid s.advance r xs) : Laid s r xs := by
  refine hlaid.after s.rest_advance_suffix ?_
  obtain ⟨_ | ⟨p, rest⟩, lastEnd, inputEnd⟩ := s
  · exact absurd rfl hend
  · have hle := h.advance.2
    simp only [Reader.advance] at hle ⊢
    split
    · exact .inl rfl
    · next hkind => exact .inr ⟨by rwa [if_neg hkind] at hle, p, List.mem_cons_self, hkind, rfl⟩

theorem Qualified.laid {segments : List String} (h : Qualified s r segments) (hs : s.Sorted)
    (hlaid : r.Sorted → Laid r r []) : Laid s r [] := by
  induction h with
  | last hnext =>
    exact hs.laid_advance (by simp [Reader.kind, hnext]) (hlaid hs.advance.1)
  | more hnext hdot _ ih =>
    exact hs.laid_advance (by simp [Reader.kind, hnext])
      (hs.advance.1.laid_advance (by simp [hdot]) (ih hs.advance.1.advance.1 hlaid))

/-- The phrases that make a node end with the last piece read. -/
theorem Alternative.closes_of_node {phrase : Phrase} {body : List Item} {kind : NodeKind}
    (h : Alternative naming phrase body (some kind)) : Item.closes body :=
  h.closes (by cases h <;> rfl)

/-- Whatever is read stands where it was read, part behind part. -/
theorem Reads.laid (h : Reads naming n items s r xs) (hs : s.Sorted) : Laid s r xs := by
  induction h with
  | nil => exact .refl hs
  | token hne hkind _ ih => exact hs.laid_advance (hkind ▸ hne) (ih hs.advance.1)
  | newlines _ ih => exact (ih hs.skipNewlines).after (Reader.rest_skipNewlines_suffix _) (.inl rfl)
  | identifier hnext _ ih =>
    exact hs.laid_advance (by simp [Reader.kind, hnext]) (ih hs.advance.1)
  | qualified hname _ ih =>
    have hread := hname.laid hs .refl
    exact hread.append (ih hread.sorted)
  | literal hvalue _ ih =>
    exact hs.laid_advance (Lexeme.literal?_ne hvalue).1 (ih hs.advance.1)
  | @part _ _ _ _ _ kind _ _ _ _ _ alt _ _ hbody _ ihbody ih =>
    have hlaid := ihbody hs
    refine .append ?_ (ih hlaid.sorted)
    cases kind with
    | none => exact hlaid
    | some kind => exact hlaid.node hs (hbody.endsWith alt.closes_of_node) kind

/-! ## Sources -/

/-- Every node of a tree stands where its tokens do. -/
structure Tree.SpansNest (t : Tree) (tokens : Array Token) : Prop where
  nonempty : ∀ id, id.index < t.size → (t.span id).isEmpty = false
  /-- The root apart, a node begins with a token. -/
  starts : ∀ id, id.index < t.size → id ≠ Tree.root →
    ∃ token ∈ tokens, (t.span id).start = token.span.start
  /-- The root apart, a node ends with a token that is no line feed. -/
  stops : ∀ id, id.index < t.size → id ≠ Tree.root →
    ∃ token ∈ tokens, token.kind ≠ .newline ∧ (t.span id).stop = token.span.stop
  within : ∀ id, id.index < t.size → ∀ child ∈ t.children id,
    (t.span id).contains (t.span child)
  order : ∀ id, id.index < t.size →
    (t.children id).Pairwise fun child next => (t.span child).precedes (t.span next)

variable {source : String} {stream : TokenStream} {pieces : List Piece} {limits : Limits} {t : Tree}

namespace Pieces

/-- The pieces of a source are sorted, up to its end. -/
theorem sorted (h : Pieces stream source pieces)
    (htiles : Tiles limits .start source.toList stream.placed) (inputEnd : Position) :
    Reader.Sorted ⟨pieces, .start, inputEnd⟩ ∧
      ∀ p ∈ pieces, p.span.stop.offset ≤ (Position.start.advance source.toList).offset := by
  have horder := htiles.order
  rw [h.placed, List.map_append, List.map_map, List.pairwise_append, List.pairwise_map] at horder
  have hmem : ∀ p ∈ pieces, (p.lexeme, p.span) ∈ stream.placed := fun p hp =>
    h.placed ▸ List.mem_append_left _ (List.mem_map_of_mem hp)
  refine ⟨⟨horder.1, fun p hp => ?_, fun p hp => Nat.zero_le _⟩, fun p hp => ?_⟩
  · obtain ⟨before, u, after, hstands, hcut, -⟩ :=
      htiles.slices [] rfl rfl (seam_nil _) _ (hmem p hp) (h.kind p hp)
    obtain ⟨d, w, rfl⟩ := List.exists_cons_of_ne_nil hcut.ne_nil
    have hpos := d.utf8Size_pos
    rw [hstands.start, hstands.stop]
    simp only [Position.offset_advance, textSize_append, textSize_cons]
    omega
  · have := horder.2.2 p.span (List.mem_map_of_mem (f := fun p : Piece => p.span) hp)
      (.empty (Position.start.advance source.toList)) (by simp)
    simpa [Span.precedes, Span.empty] using this

/-- A piece is a token. -/
theorem exists_token (h : Pieces stream source pieces) {p : Piece} (hp : p ∈ pieces) :
    ∃ token ∈ stream.tokens, token.kind = p.lexeme.kind ∧ token.span = p.span := by
  have hmem : (p.lexeme, p.span) ∈ stream.placed :=
    h.placed ▸ List.mem_append_left _ (List.mem_map_of_mem hp)
  obtain ⟨token, htoken, heq⟩ := List.mem_map.mp hmem
  obtain ⟨hlexeme, hspan⟩ := Prod.mk.inj heq
  exact ⟨token, Array.mem_toList_iff.mp htoken, congrArg Lexeme.kind hlexeme, hspan⟩

end Pieces

/-- A node shows what its construct is, and its children show the parts. -/
theorem Tree.Shows.encloses {id : NodeId} {x : Construct} (h : t.Shows id x)
    (hsize : x.count ≤ t.size) (hx : x.Encloses) :
    (∀ child ∈ t.children id, (t.span id).contains (t.span child)) ∧
      (t.children id).Pairwise fun child next => (t.span child).precedes (t.span next) := by
  have hparts := h.children hsize
  have hspans : (t.children id).map t.span = x.parts.map Construct.span := by
    rw [← List.forall₂_eq_eq_eq, List.forall₂_map_left_iff, List.forall₂_map_right_iff]
    exact hparts.imp fun _ _ hshows => hshows.span_eq
  constructor
  · intro child hchild
    obtain ⟨y, hy, hshows⟩ := Tree.exists_of_mem_forall₂ hparts hchild
    rw [h.span_eq, hshows.span_eq]
    exact hx.within y hy
  · have horder : (x.parts.map Construct.span).Pairwise fun a b => a.precedes b :=
      List.pairwise_map.mpr hx.order
    rw [← hspans] at horder
    exact List.pairwise_map.mp horder

/-- A node other than the root shows something that stands below a part of the whole. -/
theorem Tree.Shows.exists_below {id : NodeId} {x : Construct} (h : t.Shows Tree.root x)
    (hsize : x.count ≤ t.size) (hid : t.Reaches id) (hne : id ≠ Tree.root) :
    ∃ z ∈ x.parts, ∃ y, y.Within z ∧ t.Shows id y := by
  cases hid with
  | root => exact absurd rfl hne
  | child hp hchild =>
    obtain ⟨y, hy, hshows⟩ := h.exists_within hsize hp
    obtain ⟨z, hz, hshown⟩ :=
      exists_of_mem_forall₂ (hshows.children (Nat.le_trans hy.count_le hsize)) hchild
    cases hy with
    | refl => exact ⟨z, hz, z, .refl z, hshown⟩
    | part hy hw => exact ⟨_, hw, z, hy.of_part hz, hshown⟩

/-- A tree that is read from a source: the root spans the whole source, and every other node shows
something that fits the pieces. -/
theorem exists_fits_of_parse (hlex : lex source limits = .ok stream)
    (h : parse stream limits = .ok t) : ∃ pieces, Pieces stream source pieces ∧
      (∃ x : Construct, t.Shows Tree.root x ∧ x.count ≤ t.size ∧ x.Encloses ∧
        x.span = ⟨.start, Position.start.advance source.toList⟩ ∧
        x.span.start.offset < x.span.stop.offset) ∧
      ∀ id, id.index < t.size → id ≠ Tree.root →
        ∃ y, t.Shows id y ∧ y.count ≤ t.size ∧ y.Fits pieces := by
  obtain ⟨htiles, -⟩ := tiles_of_lex hlex
  obtain ⟨pieces, hpieces⟩ := exists_pieces_of_lex hlex
  obtain ⟨front, stop, hsplit, -, -, hend⟩ := hpieces.exists_tokens
  obtain ⟨r, xs, hunit, hloose, hsize⟩ := parse_loose h
  rw [hpieces.reader_eq (symbols_of_parse h)] at hunit
  have hunitSpan : stream.unitSpan = ⟨.start, Position.start.advance source.toList⟩ := by
    rw [TokenStream.unitSpan, hsplit]
    exact congrArg (Span.mk .start) (congrArg Span.stop hend)
  rw [hunitSpan] at hloose
  have hcount : (Construct.mk .compilationUnit
      ⟨.start, Position.start.advance source.toList⟩ xs).count = t.size := by
    rw [hsize, Construct.count]
  have hreached := (hloose.rooted rfl hcount).reached
  obtain ⟨hsorted, hstop⟩ := hpieces.sorted htiles (Position.start.advance source.toList)
  have hlaid := hunit.laid hsorted
  have hlength := hunit.length_le.2 rfl
  refine ⟨pieces, hpieces, ⟨_, hloose.shows, hcount.le, ⟨fun y hy => ?_, hlaid.order⟩, rfl, ?_⟩,
    fun id hid hne => ?_⟩
  · obtain ⟨-, p, hp, -, hystop⟩ := (hlaid.bounds y hy).1
    have := hstop p hp
    simp only [Span.contains, Construct.span_mk, hystop, Bool.and_eq_true, decide_eq_true_eq]
    exact ⟨decide_eq_true (Nat.zero_le _), this⟩
  · obtain ⟨p, hp⟩ : ∃ p, p ∈ pieces :=
      List.exists_mem_of_length_pos (Nat.lt_of_le_of_lt (Nat.zero_le _) hlength)
    have h₁ := hsorted.nonempty p hp
    have h₂ := hstop p hp
    exact Nat.lt_of_lt_of_le (Nat.lt_of_le_of_lt (Nat.zero_le _) h₁) h₂
  · obtain ⟨z, hz, y, hy, hshows⟩ :=
      hloose.shows.exists_below hcount.le ((hreached id).mpr hid) hne
    have hle := (hy.trans (.part (.refl z) hz)).count_le
    exact ⟨y, hshows, hle.trans hcount.le, hlaid.fits z hz y hy⟩

/-- Every node that is read from a source takes up room and encloses what is below it. -/
theorem exists_encloses_of_parse (hlex : lex source limits = .ok stream)
    (h : parse stream limits = .ok t) {id : NodeId} (hid : id.index < t.size) :
    ∃ y, t.Shows id y ∧ y.count ≤ t.size ∧ y.Encloses ∧
      y.span.start.offset < y.span.stop.offset := by
  obtain ⟨pieces, -, ⟨x, hx, hle, hencloses, -, hlt⟩, hfits⟩ := exists_fits_of_parse hlex h
  by_cases hne : id = Tree.root
  · exact ⟨x, hne ▸ hx, hle, hencloses, hlt⟩
  · obtain ⟨y, hshows, hle, hy⟩ := hfits id hid hne
    exact ⟨y, hshows, hle, hy.encloses, hy.nonempty⟩

/-- The spans of a tree nest and follow the order of the source, which the root spans from its
start to its end. -/
theorem spans_of_parse (h : parseSource source limits = .ok t) : ∃ stream,
    lex source limits = .ok stream ∧ t.SpansNest stream.tokens ∧
      t.span Tree.root = ⟨.start, Position.start.advance source.toList⟩ ∧
      (t.span Tree.root).stop.offset = source.utf8ByteSize := by
  simp only [parseSource] at h
  split at h
  · cases h
  · next stream hlex =>
    obtain ⟨pieces, hpieces, ⟨x, hx, -, -, hspan, -⟩, hfits⟩ := exists_fits_of_parse hlex h
    have hroot : t.span Tree.root = ⟨.start, Position.start.advance source.toList⟩ := by
      rw [hx.span_eq, hspan]
    refine ⟨stream, hlex, ⟨fun id hid => ?_, fun id hid hne => ?_, fun id hid hne => ?_,
      fun id hid => ?_, fun id hid => ?_⟩, hroot, ?_⟩
    · obtain ⟨y, hshows, -, -, hlt⟩ := exists_encloses_of_parse hlex h hid
      rw [hshows.span_eq]
      simp only [Span.isEmpty, Span.length, beq_eq_false_iff_ne]
      omega
    · obtain ⟨y, hshows, -, hy⟩ := hfits id hid hne
      obtain ⟨p, hp, hstart⟩ := hy.frames.start
      obtain ⟨token, htoken, -, hspan⟩ := hpieces.exists_token hp
      exact ⟨token, htoken, by rw [hshows.span_eq, hstart, hspan]⟩
    · obtain ⟨y, hshows, -, hy⟩ := hfits id hid hne
      obtain ⟨p, hp, hkind, hpstop⟩ := hy.frames.stop
      obtain ⟨token, htoken, hkind', hspan⟩ := hpieces.exists_token hp
      exact ⟨token, htoken, hkind' ▸ hkind, by rw [hshows.span_eq, hpstop, hspan]⟩
    · obtain ⟨y, hshows, hle, hy, -⟩ := exists_encloses_of_parse hlex h hid
      exact (hshows.encloses hle hy).1
    · obtain ⟨y, hshows, hle, hy, -⟩ := exists_encloses_of_parse hlex h hid
      exact (hshows.encloses hle hy).2
    · rw [hroot, Position.offset_advance, textSize_toList]
      exact Nat.zero_add _

/-- Two arguments on lines of their own within parentheses that make no node, and a line feed
behind the last token. -/
theorem spans_of_arguments :
    ∃ t stream, parseSource "module m\nfunction g = |a| -> (f(a,\n2))\n" {} = .ok t ∧
      lex "module m\nfunction g = |a| -> (f(a,\n2))\n" {} = .ok stream ∧
      t.SpansNest stream.tokens ∧ (t.span Tree.root).stop.offset = 39 := by
  have hparse : (parseSource "module m\nfunction g = |a| -> (f(a,\n2))\n" {}).toOption.isSome := by
    decide +kernel
  obtain ⟨t, ht⟩ := Option.isSome_iff_exists.mp hparse
  have ht : parseSource "module m\nfunction g = |a| -> (f(a,\n2))\n" {} = .ok t := by
    revert ht
    cases parseSource "module m\nfunction g = |a| -> (f(a,\n2))\n" {} with
    | error e => nofun
    | ok t' => exact fun h => congrArg Except.ok (Option.some.inj h)
  obtain ⟨stream, hlex, hnest, -, hsize⟩ := spans_of_parse ht
  exact ⟨t, stream, ht, hlex, hnest, hsize.trans (by decide +kernel)⟩

end GoloSyntax
