import GoloSyntax.Proofs.Token.Excerpts
import GoloSyntax.Proofs.Token.Munch

/-! # Limits of the lexer are exact

A source is cut up within some limits exactly if it can be cut up at all and everything that is
counted is within its limit: the source and the number of its tokens, every word, every string
and every comment (`Limits.Allows`).  The tokens and the table of their texts do not depend on
the limits (`lex_of_limits`).

Cutting a source up is deterministic in its tiles (`Lexer.gather`), and a tile mentions the
limits only where it says that they are kept.
-/
namespace GoloSyntax

variable {limits limits' : Limits} {p : Position} {text : List Char}
  {placed : List (Lexeme × Span)} {source : String} {stream : TokenStream}

/-! ## Tokens from tiles -/

namespace Lexer

/-- The tokens of some placed lexemes behind those already there, their texts entered one after
the other. -/
def gather : SymbolTable → Array Token → List (Lexeme × Span) → TokenStream
  | symbols, acc, [] => ⟨acc, symbols⟩
  | symbols, acc, (l, span) :: placed =>
    let (symbol, symbols) := internText symbols l.text
    gather symbols (acc.push ⟨l.kind, span, symbol⟩) placed

theorem collect_eq_gather {count n : Nat} {symbols : SymbolTable} {acc : Array Token}
    (hn : text.length < n) (htiles : Tiles limits p text placed)
    (hcount : count + placed.length ≤ limits.maxTokenCount) :
    collect n ⟨limits, ⟨text, p⟩, count, symbols⟩ acc = .ok (gather symbols acc placed) := by
  induction htiles generalizing n count symbols acc with
  | last hgap hcomment =>
    obtain ⟨n, rfl⟩ := Nat.exists_eq_succ_of_ne_zero (Nat.ne_of_gt (Nat.zero_lt_of_lt hn))
    exact collect_gap hcount hgap hcomment
  | tile htile _ ih =>
    obtain ⟨n, rfl⟩ := Nat.exists_eq_succ_of_ne_zero (Nat.ne_of_gt (Nat.zero_lt_of_lt hn))
    have hlength := htile.length_lt
    simp only [List.length_cons] at hcount
    rw [collect_tile (by omega) htile]
    exact ih (by omega) (by omega)

end Lexer

theorem lex_eq_gather (h : Tiles limits .start source.toList placed)
    (hcount : placed.length ≤ limits.maxTokenCount)
    (hsize : source.utf8ByteSize ≤ limits.maxInputSize) :
    lex source limits = .ok (Lexer.gather .empty #[] placed) := by
  simp only [lex, Lexer.ofSource, if_neg (Nat.not_lt.mpr hsize)]
  exact Lexer.collect_eq_gather (Nat.lt_succ_self _) h (by omega)

theorem TokenStream.length_placed (stream : TokenStream) : stream.placed.length = stream.size := by
  simp [placed, size]

/-- A source is cut into some tokens if and only if these tile it and there is room for it and for
them. -/
theorem lex_iff_tiles : lex source limits = .ok stream ↔
    stream = Lexer.gather .empty #[] stream.placed ∧ Tiles limits .start source.toList stream.placed ∧
      stream.size ≤ limits.maxTokenCount ∧ source.utf8ByteSize ≤ limits.maxInputSize := by
  constructor
  · intro h
    obtain ⟨htiles, -, hcount, hsize⟩ := tiles_of_lex h
    refine ⟨?_, htiles, hcount, hsize⟩
    rw [lex_eq_gather htiles (stream.length_placed ▸ hcount) hsize] at h
    exact (Except.ok.inj h).symm
  · rintro ⟨hgather, htiles, hcount, hsize⟩
    rw [lex_eq_gather htiles (stream.length_placed ▸ hcount) hsize, ← hgather]

/-! ## What limits allow -/

/-- A comment of a source opens with a `#` that stands in none of the tokens, and goes on to the end
of its line. -/
structure TokenStream.HasComment (stream : TokenStream) (source : String)
    (before comment after : List Char) : Prop where
  text : source.toList = before ++ comment ++ after
  opens : comment.head? = some '#'
  line : '\n' ∉ comment
  ends : ∀ d ∈ after.head?, d = '\n'
  outside : ∀ token ∈ stream.tokens,
    textSize before < token.span.start.offset ∨ token.span.stop.offset ≤ textSize before

/-- A source and its tokens are within the limits of the lexer; lengths are in bytes. -/
structure Limits.Allows (limits : Limits) (source : String) (stream : TokenStream) : Prop where
  inputSize : source.utf8ByteSize ≤ limits.maxInputSize
  /-- The end of input is counted too. -/
  tokenCount : stream.size ≤ limits.maxTokenCount
  words : ∀ token ∈ stream.tokens, token.kind = .identifier ∨ (∃ k, token.kind = .keyword k) →
    (token.span.slice source).utf8ByteSize ≤ limits.maxIdentifierLength
  /-- Delimiters and escapes are counted as they are written. -/
  strings : ∀ token ∈ stream.tokens, (∃ kind, token.kind = .string kind) →
    (token.span.slice source).utf8ByteSize ≤ limits.maxStringLength
  comments : ∀ before comment after, stream.HasComment source before comment after →
    textSize comment ≤ limits.maxCommentLength

/-- A lexeme of a kind may be so many bytes long. -/
def Limits.AllowsLength (limits : Limits) (kind : TokenKind) (length : Nat) : Prop :=
  match kind with
  | .keyword _ | .identifier => length ≤ limits.maxIdentifierLength
  | .string _ => length ≤ limits.maxStringLength
  | _ => True

theorem Limits.AllowsLength.mono {kind : TokenKind} {length : Nat}
    (h : limits.AllowsLength kind length) (hle : ∀ name, limits.get name ≤ limits'.get name) :
    limits'.AllowsLength kind length := by
  unfold AllowsLength at h ⊢
  split at h
  · exact Nat.le_trans h (hle .identifierLength)
  · exact Nat.le_trans h (hle .identifierLength)
  · exact Nat.le_trans h (hle .stringLength)
  · trivial

/-- Comments in a text read at `p` that stand in none of the tokens have at most `max` bytes. -/
def CommentsWithin (max : Nat) (p : Position) (text : List Char)
    (placed : List (Lexeme × Span)) : Prop :=
  ∀ a cs b, text = a ++ '#' :: cs ++ b → '\n' ∉ cs → (∀ d ∈ b.head?, d = '\n') →
    (∀ x ∈ placed, p.offset + textSize a < x.2.start.offset ∨
      x.2.stop.offset ≤ p.offset + textSize a) → textSize ('#' :: cs) ≤ max

/-! ## Comments and gaps -/

/-- From a `#` in a gap on there is only a comment. -/
theorem textSize_le_commentIn (a cs : List Char) :
    textSize ('#' :: cs) ≤ textSize (commentIn (a ++ '#' :: cs)) := by
  induction a with
  | nil => exact Nat.le_refl _
  | cons c a ih =>
    rw [List.cons_append, commentIn, List.dropWhile_cons]
    split
    · exact ih
    · simp only [textSize_cons, textSize_append]
      omega

theorem length_span (p : Position) (gap u : List Char) :
    (Span.mk (p.advance gap) (p.advance (gap ++ u))).length = textSize u := by
  simp only [Span.length, Position.offset_advance, textSize_append]
  omega

theorem takeWhile_line {w v : List Char} (hw : '\n' ∉ w) (hv : ∀ d ∈ v.head?, d = '\n') :
    (w ++ v).takeWhile (· != '\n') = w := by
  have hall : ∀ d ∈ w, (d != '\n') = true := fun d hd => by
    rw [bne_iff_ne]
    rintro rfl
    exact hw hd
  rw [List.takeWhile_append_of_pos hall]
  cases v with
  | nil => simp
  | cons d v => simp [hv d rfl]

namespace Gap

variable {gap v : List Char}

/-- A comment that opens in a gap ends with the gap. -/
theorem eq_of_comment {a w cs b : List Char} (h : Gap (a ++ '#' :: w) v)
    (htext : w ++ v = cs ++ b) (hcs : '\n' ∉ cs) (hb : ∀ d ∈ b.head?, d = '\n') : w = cs := by
  have hw : '\n' ∉ w := fun hmem => h.newline_not_mem (by simp [hmem])
  have hv : ∀ d ∈ v.head?, d = '\n' := by
    generalize hgap : a ++ '#' :: w = gap at h
    cases h with
    | blanks hbs _ => exact absurd (hbs '#' (by simp [← hgap])) (by decide)
    | comment _ _ hv => exact hv
  rw [← takeWhile_line hw hv, htext, takeWhile_line hcs hb]

/-- What is in a gap besides blanks is a comment. -/
theorem textSize_comment_le {max : Nat} (h : Gap gap v)
    (hcomment : ∀ bs cs, gap = bs ++ '#' :: cs → '\n' ∉ cs → (∀ d ∈ v.head?, d = '\n') →
      textSize ('#' :: cs) ≤ max) : textSize (commentIn gap) ≤ max := by
  cases h with
  | blanks hbs _ =>
    have hnone : commentIn gap = commentIn [] := by simpa using commentIn_blanks hbs []
    rw [hnone]
    exact Nat.zero_le _
  | @comment bs cs _ hbs hcs hv =>
    have hsome : commentIn (bs ++ '#' :: cs) = '#' :: cs := commentIn_blanks hbs _
    rw [hsome]
    exact hcomment bs cs rfl hcs hv

end Gap

namespace Tiles

theorem allowsLength (h : Tiles limits p text placed) :
    ∀ x ∈ placed, limits.AllowsLength x.1.kind x.2.length := by
  induction h with
  | last => exact List.forall_mem_singleton.mpr trivial
  | @tile p gap u v l placed htile _ ih =>
    refine List.forall_mem_cons.mpr ⟨?_, ih⟩
    rw [length_span]
    exact htile.admits

theorem commentsWithin (h : Tiles limits p text placed) :
    CommentsWithin limits.maxCommentLength p text placed := by
  induction h with
  | @last p gap hgap hcomment =>
    intro a cs b htext hcs hb _
    rw [List.append_assoc] at htext
    subst htext
    have heq : cs ++ b = cs := hgap.eq_of_comment (List.append_nil _) hcs hb
    rw [List.cons_append, heq] at hcomment
    exact Nat.le_trans (textSize_le_commentIn a cs) hcomment
  | @tile p gap u v l placed htile _ ih =>
    intro a cs b htext hcs hb houtside
    replace htext : gap ++ u ++ v = a ++ '#' :: (cs ++ b) := by
      rw [htext, List.append_assoc, List.cons_append]
    rcases append_eq_append_cons htext with ⟨c, rfl, rfl⟩ | ⟨c, hc, hrest⟩
    · -- The comment is behind the lexeme.
      refine ih c cs b (by simp) hcs hb fun x hx => ?_
      have hx := houtside x (List.mem_cons_of_mem _ hx)
      simpa only [Position.offset_advance, textSize_append, Nat.add_assoc] using hx
    · rcases append_eq_append_cons hc with ⟨w, rfl, rfl⟩ | ⟨w, rfl, rfl⟩
      · -- The lexeme holds the `#`.
        have hx := houtside _ List.mem_cons_self
        have hpos := Char.utf8Size_pos '#'
        simp only [Position.offset_advance, textSize_append, textSize_cons] at hx
        omega
      · rw [List.append_assoc] at hrest
        obtain rfl : w = cs := htile.between.eq_of_comment hrest.symm hcs hb
        exact Nat.le_trans (textSize_le_commentIn a w) htile.comment

theorem of_allows (h : Tiles limits p text placed)
    (hlength : ∀ x ∈ placed, limits'.AllowsLength x.1.kind x.2.length)
    (hcomments : CommentsWithin limits'.maxCommentLength p text placed) :
    Tiles limits' p text placed := by
  induction h with
  | @last p gap hgap _ =>
    refine .last hgap (hgap.textSize_comment_le fun bs cs heq hcs hv => ?_)
    refine hcomments bs cs [] (by simp [heq]) hcs hv ?_
    have hpos := Char.utf8Size_pos '#'
    simp only [List.forall_mem_singleton, Span.empty, Position.offset_advance, heq, textSize_append,
      textSize_cons]
    omega
  | @tile p gap u v l placed htile h ih =>
    obtain ⟨hfirst, hlength⟩ := List.forall_mem_cons.mp hlength
    rw [length_span] at hfirst
    have hcomment : textSize (commentIn gap) ≤ limits'.maxCommentLength :=
      htile.between.textSize_comment_le fun bs cs heq hcs hv => by
        refine hcomments bs cs (u ++ v) (by simp [heq]) hcs hv fun x hx => .inl ?_
        have hle : p.offset + textSize gap ≤ x.2.start.offset := by
          rcases List.mem_cons.mp hx with rfl | hx
          · simp
          · have hbehind := h.offset_le x hx
            simp only [Position.offset_advance, textSize_append] at hbehind
            omega
        have hpos := Char.utf8Size_pos '#'
        simp only [heq, textSize_append, textSize_cons] at hle
        omega
    refine .tile ⟨htile.between, hcomment, htile.cut, hfirst, htile.takes⟩
      (ih hlength fun a cs b htext hcs hb houtside => ?_)
    refine hcomments (gap ++ u ++ a) cs b (by simp [htext]) hcs hb
      (List.forall_mem_cons.mpr ⟨.inr ?_, fun x hx => ?_⟩)
    · simp only [Position.offset_advance, textSize_append]
      omega
    · have hx := houtside x hx
      simpa only [Position.offset_advance, textSize_append, Nat.add_assoc] using hx

end Tiles

/-! ## Whole sources -/

theorem TokenStream.forall_mem_placed {P : TokenKind → Span → Prop} :
    (∀ x ∈ stream.placed, P x.1.kind x.2) ↔ ∀ token ∈ stream.tokens, P token.kind token.span := by
  simp [placed, Token.placed, Token.lexeme]

/-- The length of a span is that of what stands on it. -/
theorem Stands.length_eq {span : Span} {before u after : List Char}
    (h : Stands source.toList span before u after) :
    span.length = (span.slice source).utf8ByteSize := by
  rw [h.slice_eq, utf8ByteSize_ofList, Span.length, h.start, h.stop]
  simp only [Position.offset_advance, textSize_append]
  omega

theorem comments_iff {max : Nat} :
    (∀ before comment after, stream.HasComment source before comment after →
      textSize comment ≤ max) ↔
      CommentsWithin max .start source.toList stream.placed := by
  have houtside (a : List Char) : (∀ x ∈ stream.placed,
      Position.start.offset + textSize a < x.2.start.offset ∨
        x.2.stop.offset ≤ Position.start.offset + textSize a) ↔ ∀ token ∈ stream.tokens,
      textSize a < token.span.start.offset ∨ token.span.stop.offset ≤ textSize a := by
    simpa [Position.start] using stream.forall_mem_placed (P := fun _ span =>
      textSize a < span.start.offset ∨ span.stop.offset ≤ textSize a)
  constructor
  · intro h a cs b htext hcs hb hplaced
    exact h a ('#' :: cs) b ⟨htext, rfl, by simp [hcs], hb, (houtside a).mp hplaced⟩
  · intro h before comment after hcomment
    obtain ⟨cs, rfl⟩ := List.head?_eq_some_iff.mp hcomment.opens
    exact h before cs after hcomment.text (fun hmem => hcomment.line (List.mem_cons_of_mem _ hmem))
      hcomment.ends ((houtside before).mpr hcomment.outside)

theorem lengths_iff (h : stream.Covers source) :
    ((∀ token ∈ stream.tokens, token.kind = .identifier ∨ (∃ k, token.kind = .keyword k) →
        (token.span.slice source).utf8ByteSize ≤ limits.maxIdentifierLength) ∧
      ∀ token ∈ stream.tokens, (∃ kind, token.kind = .string kind) →
        (token.span.slice source).utf8ByteSize ≤ limits.maxStringLength) ↔
      ∀ x ∈ stream.placed, limits.AllowsLength x.1.kind x.2.length := by
  have hlength : ∀ token ∈ stream.tokens, token.kind ≠ .endOfInput →
      token.span.length = (token.span.slice source).utf8ByteSize := fun token htoken hkind => by
    obtain ⟨before, u, after, hstands, -⟩ := h.slices token htoken hkind
    exact hstands.length_eq
  rw [stream.forall_mem_placed (P := fun kind span => limits.AllowsLength kind span.length)]
  constructor
  · rintro ⟨hwords, hstrings⟩ token htoken
    unfold Limits.AllowsLength
    split
    · next k hkind =>
      rw [hlength token htoken (by simp [hkind])]
      exact hwords token htoken (.inr ⟨k, hkind⟩)
    · next hkind =>
      rw [hlength token htoken (by simp [hkind])]
      exact hwords token htoken (.inl hkind)
    · next kind hkind =>
      rw [hlength token htoken (by simp [hkind])]
      exact hstrings token htoken ⟨kind, hkind⟩
    · trivial
  · intro hall
    constructor
    · rintro token htoken hword
      have hallowed := hall token htoken
      rcases hword with hkind | ⟨k, hkind⟩ <;>
      · rw [hlength token htoken (by simp [hkind]), hkind] at hallowed
        exact hallowed
    · rintro token htoken ⟨kind, hkind⟩
      have hallowed := hall token htoken
      rw [hlength token htoken (by simp [hkind]), hkind] at hallowed
      exact hallowed

/-- What the limits allow, said of the tiles of a source. -/
theorem allows_iff (h : stream.Covers source) : limits.Allows source stream ↔
    source.utf8ByteSize ≤ limits.maxInputSize ∧ stream.size ≤ limits.maxTokenCount ∧
      (∀ x ∈ stream.placed, limits.AllowsLength x.1.kind x.2.length) ∧
      CommentsWithin limits.maxCommentLength .start source.toList stream.placed := by
  rw [← lengths_iff h, ← comments_iff]
  constructor
  · rintro ⟨hsize, hcount, hwords, hstrings, hcomments⟩
    exact ⟨hsize, hcount, ⟨hwords, hstrings⟩, hcomments⟩
  · rintro ⟨hsize, hcount, ⟨hwords, hstrings⟩, hcomments⟩
    exact ⟨hsize, hcount, hwords, hstrings, hcomments⟩

/-- Within narrower limits a source is cut into the same tokens, if it and they keep them. -/
theorem lex_iff_of_le (hle : ∀ name, limits.get name ≤ limits'.get name) :
    lex source limits = .ok stream ↔ lex source limits' = .ok stream ∧ limits.Allows source stream := by
  constructor
  · intro h
    obtain ⟨hgather, htiles, hcount, hsize⟩ := lex_iff_tiles.mp h
    refine ⟨lex_iff_tiles.mpr ⟨hgather, ?_, Nat.le_trans hcount (hle .tokenCount),
      Nat.le_trans hsize (hle .inputSize)⟩, (allows_iff (covers_of_lex h)).mpr
        ⟨hsize, hcount, htiles.allowsLength, htiles.commentsWithin⟩⟩
    refine htiles.of_allows (fun x hx => (htiles.allowsLength x hx).mono hle) ?_
    intro a cs b htext hcs hb houtside
    exact Nat.le_trans (htiles.commentsWithin a cs b htext hcs hb houtside) (hle .commentLength)
  · rintro ⟨h, hallows⟩
    obtain ⟨hgather, htiles, -, -⟩ := lex_iff_tiles.mp h
    obtain ⟨hsize, hcount, hlengths, hcomments⟩ := (allows_iff (covers_of_lex h)).mp hallows
    exact lex_iff_tiles.mpr ⟨hgather, htiles.of_allows hlengths hcomments, hcount, hsize⟩

/-- A source that is cut into tokens within some limits is cut into the same ones within all those
that it and they keep, and into none within others. -/
theorem lex_iff_allows (h : lex source limits' = .ok stream) {stream' : TokenStream} :
    lex source limits = .ok stream' ↔ stream' = stream ∧ limits.Allows source stream := by
  let wide : Limits := ⟨max limits.maxInputSize limits'.maxInputSize,
    max limits.maxTokenCount limits'.maxTokenCount,
    max limits.maxIdentifierLength limits'.maxIdentifierLength,
    max limits.maxStringLength limits'.maxStringLength,
    max limits.maxCommentLength limits'.maxCommentLength,
    max limits.maxNestingDepth limits'.maxNestingDepth,
    max limits.maxTreeNodes limits'.maxTreeNodes⟩
  have hle : ∀ name, limits.get name ≤ wide.get name := fun name => by
    cases name <;> exact Nat.le_max_left _ _
  have hle' : ∀ name, limits'.get name ≤ wide.get name := fun name => by
    cases name <;> exact Nat.le_max_right _ _
  have hwide : lex source wide = .ok stream := ((lex_iff_of_le hle').mp h).1
  rw [lex_iff_of_le hle, hwide, Except.ok.injEq, eq_comm]
  constructor
  · rintro ⟨rfl, hallows⟩
    exact ⟨rfl, hallows⟩
  · rintro ⟨rfl, hallows⟩
    exact ⟨rfl, hallows⟩

/-- No limit at all: every number is as large as a machine number can be. -/
def Limits.unlimited : Limits :=
  let most := 2 ^ 64 - 1
  ⟨most, most, most, most, most, most, most⟩

/-- The limits of the lexer are exact: a source is cut into tokens if and only if it is cut into
them without limits, and the source, its tokens and its comments keep the limits. -/
theorem lex_of_limits (source : String) (limits : Limits)
    (hlimits : ∀ name, limits.get name ≤ 2 ^ 64 - 1) (stream : TokenStream) :
    lex source limits = .ok stream ↔
      lex source .unlimited = .ok stream ∧ limits.Allows source stream :=
  lex_iff_of_le fun name => Nat.le_trans (hlimits name) (by cases name <;> exact Nat.le_refl _)

/-- A word of six bytes, a string of five and a comment of four, each just within its limit. -/
theorem lex_of_limits_sample : ∃ stream,
    lex "return \"\\nb\" # \u00e9" ⟨17, 3, 6, 5, 4, 1, 1⟩ = .ok stream ∧
      lex "return \"\\nb\" # \u00e9" .unlimited = .ok stream ∧
      Limits.Allows ⟨17, 3, 6, 5, 4, 1, 1⟩ "return \"\\nb\" # \u00e9" stream := by
  have hok : (lex "return \"\\nb\" # \u00e9" ⟨17, 3, 6, 5, 4, 1, 1⟩).isOk := by decide +kernel
  cases h : lex "return \"\\nb\" # \u00e9" ⟨17, 3, 6, 5, 4, 1, 1⟩ with
  | error e =>
    rw [h] at hok
    cases hok
  | ok stream =>
    obtain ⟨hwide, hallows⟩ := (lex_of_limits _ ⟨17, 3, 6, 5, 4, 1, 1⟩
      (fun name => by cases name <;> decide) stream).mp h
    exact ⟨stream, rfl, hwide, hallows⟩

end GoloSyntax
