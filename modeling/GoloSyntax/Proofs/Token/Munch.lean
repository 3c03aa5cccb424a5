import GoloSyntax.Proofs.Token.Tiling
import Mathlib.Data.List.Chain
import Mathlib.Data.String.Basic

/-! # Maximal munch

What the tokens of a source say about its text.  They stand in it in order, one behind the
other, and all that they leave out is blanks and comments (`TokenStream.Covers`).  A word is as
long as it can be on either side, a mark is the longest that stands there, and a line feed is
left to no other token than a multi-line string (`covers_of_lex`).
-/
namespace GoloSyntax

/-- In a text stands `u` on a span, behind `before` and in front of `after`. -/
structure Stands (text : List Char) (span : Span) (before u after : List Char) : Prop where
  text : text = before ++ u ++ after
  start : span.start = Position.start.advance before
  stop : span.stop = Position.start.advance (before ++ u)

/-- What stands on a span of a source, from offset to offset. -/
def Span.slice (span : Span) (source : String) : String :=
  String.Pos.Raw.extract source ⟨span.start.offset⟩ ⟨span.stop.offset⟩

theorem utf8Len_eq_textSize (cs : List Char) : String.utf8Len cs = textSize cs := by
  induction cs with
  | nil => rfl
  | cons c cs ih => rw [String.utf8Len_cons, textSize_cons, ih, Nat.add_comm]

theorem Stands.slice_eq {source : String} {span : Span} {before u after : List Char}
    (h : Stands source.toList span before u after) : span.slice source = String.ofList u := by
  have hstart : span.start.offset = String.utf8Len before := by
    rw [h.start, Position.offset_advance, utf8Len_eq_textSize]
    exact Nat.zero_add _
  have hstop : span.stop.offset = String.utf8Len before + String.utf8Len u := by
    rw [h.stop, Position.offset_advance, textSize_append, utf8Len_eq_textSize, utf8Len_eq_textSize]
    exact Nat.zero_add _
  rw [Span.slice, hstart, hstop, ← String.extract_of_valid before u after, ← h.text,
    String.ofList_toList]

/-- `u` is all of a word: no letter, digit, `_` or `$` stands next to it. -/
structure WholeWord (before u after : List Char) : Prop where
  nonempty : u ≠ []
  inside : ∀ d ∈ u, isWordPart d
  left : before.getLast?.any isWordPart = false
  right : after.head?.any isWordPart = false

/-- What a token says about the text `u` it stands for, behind `before` and in front of
`after`. -/
structure Means (l : Lexeme) (before u after : List Char) : Prop where
  newline : l.kind = .newline → u = ['\n']
  word : l.kind = .identifier ∨ (∃ k, l.kind = .keyword k) → WholeWord before u after
  /-- A word is a keyword if it is spelled like one. -/
  keyword : l.kind = .identifier ∨ (∃ k, l.kind = .keyword k) →
    ∀ k, l.kind = .keyword k ↔ k.spelling = String.ofList u
  identifier : l.kind = .identifier → l.text = some (String.ofList u)
  number : ∀ kind, l.kind = .number kind → l.text = some (String.ofList u)
  mark : ∀ m, l.kind = .mark m → u = m.spelling.toList ∧
    ∀ m' : Mark, m'.spelling.toList <+: u ++ after → m'.spelling.toList.length ≤ u.length

/-- The tokens stand for all of a source but blanks and comments. -/
structure TokenStream.Covers (stream : TokenStream) (source : String) : Prop where
  /-- There is one end of input, behind all other tokens and behind the text. -/
  last : ∃ front stop, stream.tokens.toList = front ++ [stop] ∧
    (∀ token ∈ front, token.kind ≠ .endOfInput) ∧ stop.kind = .endOfInput ∧
    stop.span.start = stop.span.stop ∧ stop.span.start.offset = source.utf8ByteSize
  /-- Every other token stands for a text that is not empty. -/
  slices : ∀ token ∈ stream.tokens, token.kind ≠ .endOfInput → ∃ before u after,
    Stands source.toList token.span before u after ∧ u ≠ [] ∧
      Means (token.lexeme stream.symbols) before u after
  /-- Tokens do not overlap. -/
  order : stream.tokens.toList.Pairwise fun token token' => token.span.precedes token'.span
  /-- In front of the first token and between one token and the next is nothing else. -/
  gaps : (Span.empty .start :: stream.tokens.toList.map (·.span)).IsChain fun span span' =>
    ∃ before gap after, Stands source.toList ⟨span.stop, span'.start⟩ before gap after ∧
      Gap gap after
  /-- Every line feed is a token or stands in a multi-line string. -/
  newlines : ∀ before after, source.toList = before ++ '\n' :: after → ∃ token ∈ stream.tokens,
    (token.kind = .newline ∨ token.kind = .string .multiLine) ∧
      token.span.start.offset ≤ textSize before ∧ textSize before < token.span.stop.offset

/-! ## Seams -/

/-- No word goes on from `before` to `after`. -/
def Seam (before after : List Char) : Prop :=
  before.getLast?.any isWordPart → after.head?.any isWordPart = false

theorem seam_nil (after : List Char) : Seam [] after := nofun

theorem isWordPart_blank {d : Char} (h : isBlank d) : isWordPart d = false := by
  by_contra hd
  have := isSeparator_of_isWordPart (by simpa using hd)
  simp [isSeparator, h] at this

/-- A gap ends a word, and a comment ends with its line. -/
theorem Gap.seam {before gap v : List Char} (h : Gap gap v) (hbefore : Seam before (gap ++ v)) :
    Seam (before ++ gap) v := by
  cases h with
  | blanks hbs =>
    rcases List.eq_nil_or_concat gap with rfl | ⟨bs, d, rfl⟩
    · simpa using hbefore
    · intro hlast
      have hd : isWordPart d = true := by simpa [← List.append_assoc] using hlast
      rw [isWordPart_blank (hbs d (by simp))] at hd
      cases hd
  | comment _ _ hv =>
    intro _
    cases v with
    | nil => rfl
    | cons d v =>
      obtain rfl : d = '\n' := hv d rfl
      rfl

theorem Mark.isWordPart_spelling (m : Mark) :
    m.spelling.toList.getLast?.any isWordPart = false := by
  cases m <;> decide

/-- A lexeme that ends with a word ends that word. -/
theorem Cut.seam {before u v : List Char} {l : Lexeme} (h : Cut v u l) : Seam (before ++ u) v := by
  have hlast : (before ++ u).getLast? = u.getLast? := List.getLast?_append_of_ne_nil _ h.ne_nil
  have hquote : ∀ {w : List Char} {d : Char}, isWordPart d = false →
      (w ++ [d]).getLast?.any isWordPart → v.head?.any isWordPart = false := by
    intro w d hd hword
    rw [List.getLast?_concat] at hword
    exact absurd hword (by simpa using hd)
  rw [Seam, hlast]
  cases h with
  | newline => nofun
  | word _ _ hv => exact fun _ => hv
  | number _ hv => exact fun _ => hv
  | mark m => simp [m.isWordPart_spelling]
  | string hu =>
    cases hu with
    | standard => exact hquote rfl
    | multiLine u =>
      have hmarks : tripleQuote ++ (u ++ tripleQuote) = (tripleQuote ++ u ++ ['"', '"']) ++ ['"'] := by
        simp [tripleQuote]
      rw [hmarks]
      exact hquote rfl
  | character => exact hquote rfl

theorem Keyword.spelling_injective {k k' : Keyword} (h : k.spelling = k'.spelling) : k = k' := by
  have := Keyword.ofSpelling?_spelling k
  rw [h, Keyword.ofSpelling?_spelling] at this
  exact (Option.some.inj this).symm

/-- A lexeme behind a seam means what its token says. -/
theorem Cut.means {before u v : List Char} {l : Lexeme} (h : Cut v u l)
    (hseam : Seam before (u ++ v)) : Means l before u v := by
  have hne := h.ne_nil
  cases h with
  | word hstart hall hv =>
    obtain ⟨d, w, rfl⟩ := List.exists_cons_of_ne_nil hne
    have hwhole : WholeWord before (d :: w) v := by
      refine ⟨hne, hall, ?_, hv⟩
      by_contra hleft
      have := hseam (by simpa using hleft)
      simp [hall d List.mem_cons_self] at this
    rcases Lexeme.kind_ofWord (String.ofList (d :: w)) with ⟨k, hk, hspelling⟩ | ⟨hk, hnone⟩
    · rw [hk]
      refine ⟨nofun, fun _ => hwhole, fun _ k' => ?_, nofun, nofun, nofun⟩
      rw [TokenKind.keyword.injEq, ← hspelling]
      exact ⟨fun heq => heq ▸ rfl, fun heq => (Keyword.spelling_injective heq).symm⟩
    · rw [hk]
      exact ⟨nofun, fun _ => hwhole, fun _ k' => ⟨nofun, fun heq => absurd heq (hnone k')⟩,
        fun _ => rfl, nofun, nofun⟩
  | newline => exact ⟨fun _ => rfl, by simp, by simp, nofun, nofun, nofun⟩
  | number => exact ⟨nofun, by simp, by simp, nofun, fun _ _ => rfl, nofun⟩
  | mark m hlongest =>
    refine ⟨nofun, by simp, by simp, nofun, nofun, fun m' hm' => ?_⟩
    obtain rfl := TokenKind.mark.inj hm'
    exact ⟨rfl, hlongest⟩
  | string => exact ⟨nofun, by simp, by simp, nofun, nofun, nofun⟩
  | character => exact ⟨nofun, by simp, by simp, nofun, nofun, nofun⟩

theorem DigitRun.newline_not_mem {u : List Char} (h : DigitRun u) : '\n' ∉ u := fun hmem =>
  absurd (h.chars _ hmem) (by decide)

theorem NumberText.newline_not_mem {kind : NumberKind} {u : List Char} (h : NumberText kind u) :
    '\n' ∉ u := by
  obtain ⟨whole, fraction, exponent, rfl, hwhole, -, hfraction, hexponent, -⟩ := h.parts
  simp only [List.mem_append, not_or]
  refine ⟨⟨⟨hwhole.newline_not_mem, ?_⟩, ?_⟩, by cases kind <;> decide⟩
  · rcases hfraction with rfl | ⟨digits, rfl, hdigits, -⟩
    · simp
    · simp [hdigits.newline_not_mem]
  · rcases hexponent with rfl | ⟨e, sign, digits, rfl, he, hsign, hdigits, -⟩
    · simp
    · rcases he with rfl | rfl <;> rcases hsign with rfl | rfl | rfl <;>
        simp [hdigits.newline_not_mem]

/-- A line feed is a lexeme of its own or stands in a multi-line string. -/
theorem Cut.newline_or_multiLine {u v : List Char} {l : Lexeme} (h : Cut v u l) (hu : '\n' ∈ u) :
    l.kind = .newline ∨ l.kind = .string .multiLine := by
  cases h with
  | newline => exact .inl rfl
  | word _ hall => exact absurd (hall _ hu) (by decide)
  | number hnumber => exact absurd hu hnumber.newline_not_mem
  | mark m =>
    have : '\n' ∉ m.spelling.toList := by cases m <;> decide
    exact absurd hu this
  | string hstring =>
    cases hstring with
    | standard hcontent => simp [hcontent] at hu
    | multiLine => exact .inr rfl
  | character hcontent => simp [hcontent] at hu

theorem Gap.newline_not_mem {gap v : List Char} (h : Gap gap v) : '\n' ∉ gap := by
  cases h with
  | blanks hbs => exact fun hmem => absurd (hbs _ hmem) (by decide)
  | comment hbs hcs =>
    simp only [List.mem_append, List.mem_cons, not_or]
    exact ⟨fun hmem => absurd (hbs _ hmem) (by decide), by decide, hcs⟩

/-- A character of two texts in a row stands in one of them. -/
theorem append_eq_append_cons {x y a b : List Char} {d : Char} (h : x ++ y = a ++ d :: b) :
    (∃ c, a = x ++ c ∧ y = c ++ d :: b) ∨ ∃ c, x = a ++ d :: c ∧ b = c ++ y := by
  rcases List.append_eq_append_iff.mp h with ⟨c, rfl, rfl⟩ | ⟨c, rfl, hc⟩
  · exact .inl ⟨c, rfl, rfl⟩
  · cases c with
    | nil => exact .inl ⟨[], by simp, hc.symm⟩
    | cons e c =>
      obtain ⟨rfl, rfl⟩ := List.cons.inj hc
      exact .inr ⟨c, rfl, rfl⟩

/-! ## Runs over the tiles -/

namespace Tiles

variable {limits : Limits} {p : Position} {whole text : List Char}
  {placed : List (Lexeme × Span)}

/-- The tiles lie behind `p`. -/
theorem offset_le (h : Tiles limits p text placed) :
    ∀ x ∈ placed, p.offset ≤ x.2.start.offset := by
  induction h with
  | last => simp [Span.empty]
  | @tile p gap u v l placed htile _ ih =>
    simp only [List.forall_mem_cons, Position.offset_advance, textSize_append] at ih ⊢
    exact ⟨Nat.le_add_right _ _, fun x hx => Nat.le_trans (by omega) (ih x hx)⟩

theorem order (h : Tiles limits p text placed) :
    (placed.map Prod.snd).Pairwise fun span span' => span.precedes span' := by
  induction h with
  | last => simp
  | @tile p gap u v l placed htile h ih =>
    rw [List.map_cons, List.pairwise_cons]
    refine ⟨fun span hspan => ?_, ih⟩
    obtain ⟨x, hx, rfl⟩ := List.mem_map.mp hspan
    simpa [Span.precedes] using h.offset_le x hx

theorem starts_lt (h : Tiles limits p text placed) :
    placed.Pairwise fun x y => x.2.start.offset < y.2.start.offset := by
  induction h with
  | last => simp
  | @tile p gap u v l placed htile h ih =>
    refine List.pairwise_cons.mpr ⟨fun y hy => ?_, ih⟩
    have hle := h.offset_le y hy
    obtain ⟨d, w, rfl⟩ := List.exists_cons_of_ne_nil htile.cut.ne_nil
    have hpos := d.utf8Size_pos
    simp only [Position.offset_advance, textSize_append, textSize_cons] at hle ⊢
    omega

theorem last_eq (h : Tiles limits p text placed) : ∃ front,
    placed = front ++ [(⟨.endOfInput, none⟩, .empty (p.advance text))] ∧
      ∀ x ∈ front, x.1.kind ≠ .endOfInput := by
  induction h with
  | last => exact ⟨[], rfl, nofun⟩
  | @tile p gap u v l placed htile _ ih =>
    obtain ⟨front, rfl, hfront⟩ := ih
    refine ⟨(l, ⟨p.advance gap, p.advance (gap ++ u)⟩) :: front, ?_,
      List.forall_mem_cons.mpr ⟨htile.cut.kind_ne_endOfInput, hfront⟩⟩
    rw [List.cons_append, Position.advance_append p (gap ++ u) v]

theorem gaps (h : Tiles limits p text placed) (before : List Char)
    (hwhole : whole = before ++ text) (hp : p = Position.start.advance before) (q : Position) :
    ((⟨q, p⟩ : Span) :: placed.map Prod.snd).IsChain fun span span' =>
      ∃ before gap after, Stands whole ⟨span.stop, span'.start⟩ before gap after ∧
        Gap gap after := by
  induction h generalizing before q with
  | @last p gap hgap =>
    subst hp hwhole
    refine .cons_cons ⟨before, gap, [], ⟨by simp, rfl, ?_⟩, hgap⟩ (.singleton _)
    exact (Position.advance_append _ _ _).symm
  | @tile p gap u v l placed htile _ ih =>
    subst hp hwhole
    refine .cons_cons ⟨before, gap, u ++ v, ⟨by simp, rfl, ?_⟩, htile.between⟩ ?_
    · exact (Position.advance_append _ _ _).symm
    · exact ih (before ++ (gap ++ u)) (by simp) (Position.advance_append _ _ _).symm _

theorem slices (h : Tiles limits p text placed) (before : List Char)
    (hwhole : whole = before ++ text) (hp : p = Position.start.advance before)
    (hseam : Seam before text) :
    ∀ x ∈ placed, x.1.kind ≠ .endOfInput → ∃ before u after,
      Stands whole x.2 before u after ∧ Cut after u x.1 ∧ Seam before (u ++ after) := by
  induction h generalizing before with
  | last => simp
  | @tile p gap u v l placed htile _ ih =>
    subst hp hwhole
    have hgap : Seam (before ++ gap) (u ++ v) :=
      htile.between.seam (by rwa [← List.append_assoc])
    refine List.forall_mem_cons.mpr ⟨fun _ => ⟨before ++ gap, u, v, ⟨by simp, ?_, ?_⟩,
      htile.cut, hgap⟩, ih (before ++ gap ++ u) (by simp) ?_ htile.cut.seam⟩
    · exact (Position.advance_append _ _ _).symm
    · rw [List.append_assoc]
      exact (Position.advance_append _ _ _).symm
    · rw [List.append_assoc]
      exact (Position.advance_append _ _ _).symm

/-- Every lexeme but the last one stands where it is read. -/
theorem exists_tile (h : Tiles limits p text placed) (before : List Char)
    (hwhole : whole = before ++ text) (hp : p = Position.start.advance before) :
    ∀ x ∈ placed, x.1.kind ≠ .endOfInput → ∃ before gap u after,
      Stands whole x.2 before u after ∧ Tile limits gap u after x.1 := by
  induction h generalizing before with
  | last => simp
  | @tile p gap u v l placed htile _ ih =>
    subst hp hwhole
    refine List.forall_mem_cons.mpr ⟨fun _ => ⟨before ++ gap, gap, u, v, ⟨by simp, ?_, ?_⟩, htile⟩,
      ih (before ++ (gap ++ u)) (by simp) (Position.advance_append _ _ _).symm⟩
    · exact (Position.advance_append _ _ _).symm
    · rw [List.append_assoc]
      exact (Position.advance_append _ _ _).symm

theorem newlines (h : Tiles limits p text placed) {a b : List Char}
    (htext : text = a ++ '\n' :: b) : ∃ x ∈ placed,
      (x.1.kind = .newline ∨ x.1.kind = .string .multiLine) ∧
        x.2.start.offset ≤ p.offset + textSize a ∧ p.offset + textSize a < x.2.stop.offset := by
  induction h generalizing a with
  | last hgap => exact absurd (htext ▸ by simp) hgap.newline_not_mem
  | @tile p gap u v l placed htile _ ih =>
    rcases append_eq_append_cons htext with ⟨c, rfl, rfl⟩ | ⟨c, hc, rfl⟩
    · obtain ⟨x, hx, hkind, hstart, hstop⟩ := ih rfl
      refine ⟨x, List.mem_cons_of_mem _ hx, hkind, ?_, ?_⟩ <;>
      · simp only [Position.offset_advance, textSize_append] at hstart hstop ⊢
        omega
    · rcases append_eq_append_cons hc with ⟨w, rfl, rfl⟩ | ⟨w, rfl, -⟩
      · have hpos := Char.utf8Size_pos '\n'
        refine ⟨_, List.mem_cons_self, htile.cut.newline_or_multiLine (by simp), ?_, ?_⟩ <;>
        · simp only [Position.offset_advance, textSize_append, textSize_cons]
          omega
      · exact absurd (by simp) htile.between.newline_not_mem

end Tiles

/-- A token but the last one is read where it stands. -/
theorem scanLexeme_of_lex {source : String} {limits : Limits} {stream : TokenStream}
    (h : lex source limits = .ok stream) {token : Token} (htoken : token ∈ stream.tokens)
    (hkind : token.kind ≠ .endOfInput) : ∃ before u after,
      Stands source.toList token.span before u after ∧
      scanLexeme limits ⟨u ++ after, token.span.start⟩ =
        .ok (token.lexeme stream.symbols, ⟨after, token.span.start.advance u⟩) := by
  obtain ⟨htiles, -⟩ := tiles_of_lex h
  have hmem : token.placed stream.symbols ∈ stream.placed :=
    List.mem_map_of_mem (Array.mem_toList_iff.mpr htoken)
  obtain ⟨before, gap, u, after, hstands, htile⟩ := htiles.exists_tile [] rfl rfl _ hmem hkind
  exact ⟨before, u, after, hstands, htile.takes limits htile.admits after (.refl after) _⟩

/-- The tokens of a source cover it by maximal munch. -/
theorem covers_of_lex {source : String} {limits : Limits} {stream : TokenStream}
    (h : lex source limits = .ok stream) : stream.Covers source := by
  obtain ⟨htiles, -⟩ := tiles_of_lex h
  have hspans : stream.placed.map Prod.snd = stream.tokens.toList.map (·.span) := by
    simp [TokenStream.placed, Token.placed]
  have hmem : ∀ {token}, token ∈ stream.tokens → token.placed stream.symbols ∈ stream.placed :=
    fun htoken => List.mem_map_of_mem (Array.mem_toList_iff.mpr htoken)
  refine ⟨?_, fun token htoken hkind => ?_, ?_, ?_, fun before after hsource => ?_⟩
  · obtain ⟨front, hplaced, hfront⟩ := htiles.last_eq
    obtain ⟨tokens, stops, htokens, rfl, hstops⟩ := List.map_eq_append_iff.mp hplaced
    obtain ⟨stop, rfl, hstop⟩ := List.map_eq_singleton_iff.mp hstops
    obtain ⟨hkind, hspan⟩ := Prod.mk.inj hstop
    refine ⟨tokens, stop, htokens, fun token htoken => hfront _ (List.mem_map_of_mem htoken),
      congrArg Lexeme.kind hkind, by rw [hspan]; rfl, ?_⟩
    rw [hspan, Span.empty, Position.offset_advance, textSize_toList]
    exact Nat.zero_add _
  · obtain ⟨before, u, after, hstands, hcut, hseam⟩ :=
      htiles.slices [] rfl rfl (seam_nil _) _ (hmem htoken) hkind
    exact ⟨before, u, after, hstands, hcut.ne_nil, hcut.means hseam⟩
  · have horder := htiles.order
    rwa [hspans, List.pairwise_map] at horder
  · have hgaps := htiles.gaps [] rfl rfl .start
    rwa [hspans] at hgaps
  · obtain ⟨x, hx, hkind, hstart, hstop⟩ := htiles.newlines hsource
    obtain ⟨token, htoken, rfl⟩ := List.mem_map.mp hx
    refine ⟨token, Array.mem_toList_iff.mp htoken, hkind, ?_, ?_⟩
    · simpa [Position.start, Token.placed] using hstart
    · simpa [Position.start, Token.placed] using hstop

/-- Words, a number in front of a point, marks of one and of three characters, a comment and a
multi-line string over a line end. -/
theorem covers_of_sample : ∃ stream,
    lex "f(x...) = 1.y # \n\"\"\"a\n\"\"\"" {} = .ok stream ∧
      stream.Covers "f(x...) = 1.y # \n\"\"\"a\n\"\"\"" := by
  have hok : (lex "f(x...) = 1.y # \n\"\"\"a\n\"\"\"" {}).isOk := by decide +kernel
  cases h : lex "f(x...) = 1.y # \n\"\"\"a\n\"\"\"" {} with
  | error e =>
    rw [h] at hok
    cases hok
  | ok stream => exact ⟨stream, rfl, covers_of_lex h⟩

end GoloSyntax
