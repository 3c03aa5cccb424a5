import GoloSyntax.Proofs.Reading.Twins
import GoloSyntax.Proofs.Token.Munch

/-! # Layout does not matter

Blanks put in front of a token, or a comment put in front of the end of a line, make a gap
longer and leave every tile what it was (`Tiles.insert`), so the source has the same lexemes.
Reading depends on those only, so it comes out the same but for places (`layout_irrelevant`).
-/
namespace GoloSyntax

/-! ## Insertions -/

/-- What may be put in front of a token without changing it: blanks, and in front of the end
of a line also the beginning of a comment. -/
inductive Insertable (kind : TokenKind) : List Char → Prop where
  | blanks {bs : List Char} (hbs : ∀ d ∈ bs, isBlank d) : Insertable kind bs
  | comment {cs : List Char} (hcs : '\n' ∉ cs) (hkind : kind = .newline ∨ kind = .endOfInput) :
      Insertable kind ('#' :: cs)

variable {kind : TokenKind} {ins : List Char}

theorem Insertable.follows (h : Insertable kind ins) (v : List Char) : Follows v (ins ++ v) := by
  cases h with
  | blanks hbs =>
    cases ins with
    | nil => exact .refl v
    | cons d bs =>
      exact .separator (by simp [isSeparator, hbs d List.mem_cons_self]) v (bs ++ v)
  | comment => exact .separator (by decide) v _

/-- A gap stays a gap. -/
theorem Insertable.gap {gap v : List Char} (h : Insertable kind ins) (hgap : Gap gap v)
    (hv : kind = .newline ∨ kind = .endOfInput → ∀ d ∈ v.head?, d = '\n') :
    Gap (gap ++ ins) v := by
  have hblank : ∀ {bs : List Char}, (∀ d ∈ bs, isBlank d) → '\n' ∉ bs := fun hbs hmem =>
    absurd (hbs _ hmem) (by decide)
  cases h with
  | blanks hins =>
    cases hgap with
    | blanks hbs hv' =>
      exact .blanks (fun d hd => (List.mem_append.mp hd).elim (hbs d) (hins d)) hv'
    | @comment bs cs _ hbs hcs hv' =>
      rw [List.append_assoc, List.cons_append]
      exact .comment hbs (by simp [hcs, hblank hins]) hv'
  | @comment ws hws hkind =>
    cases hgap with
    | blanks hbs => exact .comment hbs hws (hv hkind)
    | @comment bs cs _ hbs hcs hv' =>
      rw [List.append_assoc, List.cons_append]
      exact .comment hbs (by simp [hcs, hws]) hv'

namespace Tiles

variable {limits : Limits} {p : Position} {text : List Char} {placed : List (Lexeme × Span)}

/-- The place where the lexeme in front of the `i`-th one ends. -/
def stopBefore (p : Position) (placed : List (Lexeme × Span)) (i : Nat) : Position :=
  ((⟨p, p⟩ :: placed.map Prod.snd)[i]?.getD ⟨p, p⟩).stop

theorem stopBefore_cons {p : Position} {y x : Lexeme × Span} {placed : List (Lexeme × Span)}
    {i : Nat} (hx : placed[i]? = some x) :
    stopBefore p (y :: placed) (i + 1) = stopBefore y.2.stop placed i := by
  cases i with
  | zero => rfl
  | succ i =>
    have hi : i < placed.length := by
      have := (List.getElem?_eq_some_iff.mp hx).1
      omega
    simp [stopBefore, List.getElem?_eq_getElem hi]

/-- Something put in front of the `i`-th lexeme makes the gap there longer and nothing else. -/
theorem insert (h : Tiles limits p text placed) {i : Nat} {x : Lexeme × Span}
    (hx : placed[i]? = some x) (hins : Insertable x.1.kind ins) : ∃ before gap after,
      text = before ++ gap ++ after ∧ stopBefore p placed i = p.advance before ∧
      x.2.start = p.advance (before ++ gap) ∧
      (textSize (commentIn (gap ++ ins)) ≤ limits.maxCommentLength → ∃ placed',
        Tiles limits p (before ++ gap ++ ins ++ after) placed' ∧
          placed'.map Prod.fst = placed.map Prod.fst) := by
  induction h generalizing i with
  | @last p gap hgap hcomment =>
    cases i with
    | succ i => simp at hx
    | zero =>
      obtain rfl := Option.some.inj hx
      refine ⟨[], gap, [], by simp, rfl, rfl, fun hmax => ?_⟩
      have hlast : Tiles limits p (gap ++ ins)
          [(⟨.endOfInput, none⟩, .empty (p.advance (gap ++ ins)))] :=
        .last (hins.gap hgap (by simp)) hmax
      rw [List.nil_append, List.append_nil]
      exact ⟨_, hlast, rfl⟩
  | @tile p gap u v l placed htile htiles ih =>
    cases i with
    | zero =>
      obtain rfl := Option.some.inj hx
      refine ⟨[], gap, u ++ v, by simp, rfl, rfl, fun hmax => ?_⟩
      have hnewline : l.kind = .newline ∨ l.kind = .endOfInput → ∀ d ∈ (u ++ v).head?, d = '\n' := by
        rintro (hkind | hkind)
        · obtain rfl := (htile.cut.means (seam_nil _)).newline hkind
          simp
        · exact absurd hkind htile.cut.kind_ne_endOfInput
      have hlonger : Tile limits (gap ++ ins) u v l :=
        ⟨hins.gap htile.between hnewline, hmax, htile.cut, htile.admits, htile.takes⟩
      obtain ⟨placed', hmoved, hsame⟩ := htiles.move (p.advance (gap ++ ins ++ u))
      rw [List.nil_append, ← List.append_assoc]
      exact ⟨_, .tile hlonger hmoved, congrArg (l :: ·) hsame⟩
    | succ i =>
      obtain ⟨before, gap', after, rfl, hbefore, hstart, hinsert⟩ := ih hx
      refine ⟨gap ++ u ++ before, gap', after, by simp, ?_, ?_, fun hmax => ?_⟩
      · rw [stopBefore_cons (show placed[i]? = some x from hx), hbefore, ← Position.advance_append]
      · rw [hstart, ← Position.advance_append]
        simp
      · obtain ⟨placed', hinserted, hsame⟩ := hinsert hmax
        have hfollows : Follows (before ++ gap' ++ after) (before ++ gap' ++ ins ++ after) := by
          rw [List.append_assoc _ ins]
          exact (hins.follows after).append _
        have htext : gap ++ u ++ before ++ gap' ++ ins ++ after =
            gap ++ u ++ (before ++ gap' ++ ins ++ after) := by simp
        rw [htext]
        exact ⟨_, .tile (htile.of_follows hfollows) hinserted, congrArg (l :: ·) hsame⟩

end Tiles

/-! ## Sources -/

/-- The place where the token in front of the `i`-th one ends. -/
def TokenStream.stopBefore (s : TokenStream) (i : Nat) : Position :=
  ((Span.empty .start :: s.tokens.toList.map (·.span))[i]?.getD (.empty .start)).stop

theorem TokenStream.stopBefore_eq (s : TokenStream) (i : Nat) :
    s.stopBefore i = Tiles.stopBefore .start s.placed i := by
  simp [stopBefore, Tiles.stopBefore, placed, Token.placed, Function.comp_def, Span.empty]

/-- What two outcomes show of a source without its places: the lines of a dump, or the wording
of an error. -/
def SameShown : Except ParseError Tree → Except ParseError Tree → Prop
  | .ok t, .ok t' => ∀ id options, options.showSpans = false →
      t.dumpLines id options = t'.dumpLines id options
  | .error e, .error e' => e.message = e'.message
  | _, _ => False

theorem SameOutcome.shown {stream stream' : TokenStream} {x x' : Except ParseError Tree}
    (h : SameOutcome stream stream' x x') : SameShown x x' := by
  rcases x with e | t <;> rcases x' with e' | t'
  · exact congrArg ParseFault.message h.1
  · exact h.elim
  · exact h.elim
  · exact fun id options hoptions => Tree.Alike.dumpLines h id hoptions

/-- A source with something put in front of one of its tokens has the same lexemes, and reading
it comes out the same. -/
theorem sameOutcome_of_insert {source : String} {limits : Limits} {stream : TokenStream}
    (h : lex source limits = .ok stream) {i : Nat} {token : Token}
    (htoken : stream.tokens[i]? = some token) {before gap after : List Char}
    (hgap : Stands source.toList ⟨stream.stopBefore i, token.span.start⟩ before gap after)
    (hins : Insertable token.kind ins)
    (hsize : (String.ofList (before ++ gap ++ ins ++ after)).utf8ByteSize ≤ limits.maxInputSize)
    (hcomment : textSize (commentIn (gap ++ ins)) ≤ limits.maxCommentLength) : ∃ stream',
      lex (String.ofList (before ++ gap ++ ins ++ after)) limits = .ok stream' ∧
        stream'.lexemes = stream.lexemes ∧ SameOutcome stream stream' (parseSource source limits)
          (parseSource (String.ofList (before ++ gap ++ ins ++ after)) limits) := by
  obtain ⟨htiles, hresolves, hcount, -⟩ := tiles_of_lex h
  have hx : stream.placed[i]? = some (token.placed stream.symbols) := by
    rw [TokenStream.placed, List.getElem?_map, Array.getElem?_toList, htoken]
    rfl
  obtain ⟨before', gap', after', htext, hbefore, hstart, hinsert⟩ := htiles.insert hx hins
  obtain ⟨hsource, hstop, hstart'⟩ := hgap
  -- The gap is where the tiles say it is, because places of a text that have the same offset
  -- are the same.
  rw [← TokenStream.stopBefore_eq] at hbefore
  rw [htext, List.append_assoc, List.append_assoc] at hsource
  obtain ⟨rfl, hrest⟩ := append_eq_of_textSize hsource.symm
    (Position.textSize_of_advance (hstop.symm.trans hbefore))
  have hgapSize := Position.textSize_of_advance (hstart'.symm.trans hstart)
  obtain ⟨rfl, rfl⟩ := append_eq_of_textSize hrest (by simpa using hgapSize)
  obtain ⟨placed', hplaced', hsame⟩ := hinsert hcomment
  have hcount' : placed'.length ≤ limits.maxTokenCount := by
    have hlength := congrArg List.length hsame
    simp only [List.length_map, TokenStream.placed] at hlength
    rw [hlength]
    exact hcount
  obtain ⟨stream', hlex, rfl, hresolves'⟩ :=
    lex_of_tiles (by rwa [String.toList_ofList]) hcount' hsize
  have hlexemes : stream'.lexemes = stream.lexemes := by
    rw [TokenStream.lexemes_eq, TokenStream.lexemes_eq, hsame]
  refine ⟨stream', hlex, hlexemes, ?_⟩
  rw [parseSource, parseSource, h, hlex]
  exact sameOutcome_of_lexemes hlexemes.symm hresolves hresolves' limits

/-- Reading depends on lexemes only, and lexemes do not depend on blanks in front of them or on
comments in front of the end of a line. -/
theorem layout_irrelevant :
    (∀ (stream stream' : TokenStream) (limits : Limits), stream.lexemes = stream'.lexemes →
      stream.Resolves → stream'.Resolves →
        SameOutcome stream stream' (parse stream limits) (parse stream' limits)) ∧
    ∀ (source : String) (limits : Limits) (stream : TokenStream) (i : Nat) (token : Token)
      (before gap after ins : List Char), lex source limits = .ok stream →
        stream.tokens[i]? = some token →
        Stands source.toList ⟨stream.stopBefore i, token.span.start⟩ before gap after →
        Insertable token.kind ins →
        (String.ofList (before ++ gap ++ ins ++ after)).utf8ByteSize ≤ limits.maxInputSize →
        textSize (commentIn (gap ++ ins)) ≤ limits.maxCommentLength → ∃ stream',
          lex (String.ofList (before ++ gap ++ ins ++ after)) limits = .ok stream' ∧
          stream'.lexemes = stream.lexemes ∧
          SameShown (parseSource source limits)
            (parseSource (String.ofList (before ++ gap ++ ins ++ after)) limits) := by
  refine ⟨fun stream stream' limits h ht ht' => sameOutcome_of_lexemes h ht ht' limits, ?_⟩
  intro source limits stream i token before gap after ins h htoken hgap hins hsize hcomment
  obtain ⟨stream', hlex, hlexemes, houtcome⟩ :=
    sameOutcome_of_insert h htoken hgap hins hsize hcomment
  exact ⟨stream', hlex, hlexemes, houtcome.shown⟩

/-- A comment behind a blank, in front of the end of a line. -/
theorem layout_irrelevant_at_line_end : ∃ stream stream',
    lex "module m \n" {} = .ok stream ∧ lex "module m # n\n" {} = .ok stream' ∧
      stream'.lexemes = stream.lexemes ∧
      SameOutcome stream stream' (parse stream {}) (parse stream' {}) ∧
      SameShown (parseSource "module m \n" {}) (parseSource "module m # n\n" {}) := by
  have hat : (lex "module m \n" {}).toOption.map (fun s => (s.tokens[2]?, s.stopBefore 2)) =
      some (some ⟨.newline, ⟨⟨9, 1, 10⟩, ⟨10, 2, 1⟩⟩, none⟩, ⟨8, 1, 9⟩) := by decide +kernel
  cases h : lex "module m \n" {} with
  | error e =>
    rw [h] at hat
    cases hat
  | ok stream =>
    rw [h] at hat
    obtain ⟨htoken, hstop⟩ := Prod.mk.inj (Option.some.inj hat)
    obtain ⟨stream', h', hlexemes, hshown⟩ := layout_irrelevant.2 _ _ stream 2 _
      "module m".toList [' '] ['\n'] "# n".toList h htoken ⟨by decide, hstop, rfl⟩
      (.comment (by decide) (.inl rfl)) (by decide) (by decide)
    exact ⟨stream, stream', rfl, h', hlexemes, layout_irrelevant.1 _ _ _ hlexemes.symm
      (tiles_of_lex h).2.1 (tiles_of_lex h').2.1, hshown⟩

end GoloSyntax
