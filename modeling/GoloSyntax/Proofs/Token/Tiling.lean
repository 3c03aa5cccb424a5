import GoloSyntax.Proofs.Token.Scanning
import GoloSyntax.Proofs.Token.Texts

/-! # Cutting a source up

A source that can be cut into tokens is, from front to back, a gap and a lexeme, again and
again, and then a last gap and the end of input (`Tiles`).  What a lexeme is written as is
said by `Cut`, what a gap is by `Gap`.  A tile also says that it would be cut out as the same
lexeme if something else followed it, so a text with the same tiles has the same tokens
(`lex_of_tiles`); that is how a source with other gaps, or a part of a source, is cut up.
-/
namespace GoloSyntax

/-- `u` in front of `v` is written for the lexeme `l`. -/
inductive Cut (v : List Char) : List Char → Lexeme → Prop where
  | newline : Cut v ['\n'] ⟨.newline, none⟩
  /-- A word goes on as long as it can. -/
  | word {u : List Char} (hstart : u.head?.any isWordStart) (hall : ∀ d ∈ u, isWordPart d)
      (hv : v.head?.any isWordPart = false) : Cut v u (.ofWord (String.ofList u))
  | number {kind : NumberKind} {u : List Char} (hu : NumberText kind u)
      (hv : v.head?.any isWordPart = false) : Cut v u ⟨.number kind, some (String.ofList u)⟩
  /-- No longer mark stands there. -/
  | mark (m : Mark) (hlongest : ∀ m' : Mark, m'.spelling.toList <+: m.spelling.toList ++ v →
      m'.spelling.toList.length ≤ m.spelling.toList.length) :
      Cut v m.spelling.toList ⟨.mark m, none⟩
  | string {kind : StringKind} {u : List Char} {content : String} (hu : StringText kind u) :
      Cut v u ⟨.string kind, some content⟩
  | character {u : List Char} {content : Char} (hu : '\n' ∉ u) :
      Cut v ('\'' :: u ++ ['\'']) ⟨.character, some content.toString⟩

/-- A lexeme written as `u` is within the limit for its kind. -/
def Limits.Admits (limits : Limits) (u : List Char) (l : Lexeme) : Prop :=
  match l.kind with
  | .keyword _ | .identifier => textSize u ≤ limits.maxIdentifierLength
  | .string _ => textSize u ≤ limits.maxStringLength
  | _ => True

/-- The lexeme `l` is cut out as `u`, behind a gap and in front of `v`. -/
structure Tile (limits : Limits) (gap u v : List Char) (l : Lexeme) : Prop where
  between : Gap gap (u ++ v)
  comment : textSize (commentIn gap) ≤ limits.maxCommentLength
  cut : Cut v u l
  admits : limits.Admits u l
  /-- The text is cut out the same way in front of everything that may follow instead. -/
  takes : ∀ limits' : Limits, limits'.Admits u l → Takes (scanLexeme limits') u v l

theorem Lexeme.kind_ofWord (word : String) :
    (∃ k, ofWord word = ⟨.keyword k, none⟩ ∧ k.spelling = word) ∨
      ofWord word = ⟨.identifier, some word⟩ ∧ ∀ k : Keyword, k.spelling ≠ word := by
  simp only [ofWord, Keyword.ofSpelling?]
  cases hk : Keyword.all.find? fun k => k.spelling == word with
  | some k => exact .inl ⟨k, rfl, by simpa using List.find?_some hk⟩
  | none => exact .inr ⟨rfl, fun k => by simpa using List.find?_eq_none.mp hk k k.mem_all⟩

theorem Limits.admits_ofWord {limits : Limits} {u : List Char} {word : String} :
    limits.Admits u (.ofWord word) ↔ textSize u ≤ limits.maxIdentifierLength := by
  rcases Lexeme.kind_ofWord word with ⟨k, hk, -⟩ | ⟨hk, -⟩ <;> rw [hk] <;> rfl

namespace Cut

variable {u v : List Char} {l : Lexeme}

theorem ne_nil (h : Cut v u l) : u ≠ [] := by
  cases h with
  | newline => simp
  | word hstart => rintro rfl; cases hstart
  | number hu =>
    rintro rfl
    obtain ⟨whole, fraction, exponent, heq, -, hne, -⟩ := hu.parts
    simp only [List.nil_eq, List.append_eq_nil_iff] at heq
    exact hne heq.1.1.1
  | mark m =>
    intro hnil
    have := m.length_spelling.1
    simp [hnil] at this
  | string hu => cases hu <;> simp [tripleQuote]
  | character => simp

theorem kind_ne_endOfInput (h : Cut v u l) : l.kind ≠ .endOfInput := by
  cases h with
  | word =>
    rename_i hstart hall hv
    rcases Lexeme.kind_ofWord (String.ofList u) with ⟨k, hk, -⟩ | ⟨hk, -⟩ <;> simp [hk]
  | _ => simp

end Cut

/-! ## What follows a lexeme may change -/

theorem Follows.trans {v w z : List Char} (h : Follows v w) (h' : Follows w z) : Follows v z := by
  induction h generalizing z with
  | nil v =>
    cases h' with
    | nil => exact .nil v
    | separator hd => exact .separator hd v _
  | separator hd v =>
    cases h' with
    | nil => exact .nil v
    | separator hd' => exact .separator hd' v _
    | cons => exact .separator hd v _
  | cons c h ih =>
    cases h' with
    | nil => exact .nil _
    | separator hd' => exact .separator hd' _ _
    | cons _ h' => exact .cons c (ih h')

theorem Cut.of_follows {u v z : List Char} {l : Lexeme} (h : Cut v u l) (hz : Follows v z) :
    Cut z u l := by
  have hpart (hv : v.head?.any isWordPart = false) : z.head?.any isWordPart = false :=
    hz.any_head?_eq_false (fun _ => isSeparator_of_isWordPart) hv
  cases h with
  | newline => exact .newline
  | word hstart hall hv => exact .word hstart hall (hpart hv)
  | number hu hv => exact .number hu (hpart hv)
  | mark m hlongest =>
    refine .mark m fun m' hm' => hlongest m' ?_
    exact (hz.append m.spelling.toList).isPrefix m'.isSeparator_spelling hm'
  | string hu => exact .string hu
  | character hu => exact .character hu

theorem Gap.of_head? {gap v w : List Char} (h : Gap gap v) (hhead : w.head? = v.head?) :
    Gap gap w := by
  cases h with
  | blanks hbs hv => exact .blanks hbs (hhead ▸ hv)
  | comment hbs hcs hv => exact .comment hbs hcs (hhead ▸ hv)

theorem Tile.of_follows {limits : Limits} {gap u v z : List Char} {l : Lexeme}
    (h : Tile limits gap u v l) (hz : Follows v z) : Tile limits gap u z l where
  between := h.between.of_head? (by
    obtain ⟨d, w, rfl⟩ := List.exists_cons_of_ne_nil h.cut.ne_nil
    rfl)
  comment := h.comment
  cut := h.cut.of_follows hz
  admits := h.admits
  takes limits' hadmits y hy := h.takes limits' hadmits y (hz.trans hy)

theorem Tile.length_lt {limits : Limits} {gap u v : List Char} {l : Lexeme}
    (h : Tile limits gap u v l) : v.length < (gap ++ u ++ v).length := by
  have := List.length_pos_iff.mpr h.cut.ne_nil
  simp only [List.length_append]
  omega

/-! ## What stands at a cursor -/

theorem isWordPart_of_isWordStart {c : Char} (h : isWordStart c) : isWordPart c := by
  simp only [isWordStart, isWordPart, Char.isAlphanum, Bool.or_eq_true] at h ⊢
  exact h.imp_left fun h => h.imp_left .inl

/-- What is read at a cursor is the end of input or a lexeme that stands there. -/
theorem cut_of_scanLexeme {limits : Limits} {c c' : Cursor} {l : Lexeme}
    (h : scanLexeme limits c = .ok (l, c')) :
    c.rest = [] ∧ l = ⟨.endOfInput, none⟩ ∧ c' = c ∨
      ∃ u, c.Passes u c' ∧ Cut c'.rest u l ∧ limits.Admits u l ∧
        ∀ limits' : Limits, limits'.Admits u l → Takes (scanLexeme limits') u c'.rest l := by
  obtain ⟨rest, p⟩ := c
  cases rest with
  | nil =>
    obtain ⟨rfl, rfl⟩ := Prod.mk.inj (Except.ok.inj h)
    exact .inl ⟨rfl, rfl, rfl⟩
  | cons ch cs =>
    refine .inr ?_
    -- What is taken begins with the same character, so the same scanner takes it.
    have hhead : ∀ {u : List Char}, u ≠ [] → Cursor.Passes ⟨ch :: cs, p⟩ u c' → ∃ w, u = ch :: w :=
      fun hu hpasses => by
        obtain ⟨d, w, rfl⟩ := List.exists_cons_of_ne_nil hu
        exact ⟨w, by rw [(List.cons.inj hpasses.rest).1]⟩
    simp only [scanLexeme] at h
    split at h
    · next hdigit =>
      obtain ⟨u, kind, hpasses, htakes, rfl, hu, hv⟩ := takes_scanNumber (c := ⟨ch :: cs, p⟩) hdigit h
      have hcut : Cut c'.rest u ⟨.number kind, some (String.ofList u)⟩ := .number hu hv
      obtain ⟨w, rfl⟩ := hhead hcut.ne_nil hpasses
      refine ⟨_, hpasses, hcut, trivial, fun limits' _ z hz q => ?_⟩
      simpa only [scanLexeme, List.cons_append, if_pos hdigit] using htakes z hz q
    · next hdigit =>
      split at h
      · next hword =>
        obtain ⟨u, hpasses, hall, hv, rfl, hmax, htakes⟩ := takes_scanWord h
        have hne : u ≠ [] := by
          rintro rfl
          rw [← show ch :: cs = c'.rest from hpasses.rest] at hv
          simp [isWordPart_of_isWordStart hword] at hv
        obtain ⟨w, rfl⟩ := hhead hne hpasses
        refine ⟨_, hpasses, .word (by simpa using hword) hall hv, Limits.admits_ofWord.mpr hmax,
          fun limits' hadmits z hz q => ?_⟩
        simpa only [scanLexeme, List.cons_append, if_neg hdigit, if_pos hword] using
          htakes _ (Limits.admits_ofWord.mp hadmits) z hz q
      · next hword =>
        split at h
        · next hquote =>
          subst hquote
          obtain ⟨u, kind, content, hu, hpasses, rfl, hmax, htakes⟩ := takes_scanString rfl h
          have hcut : Cut c'.rest u ⟨.string kind, some content⟩ := .string hu
          obtain ⟨w, rfl⟩ := hhead hcut.ne_nil hpasses
          refine ⟨_, hpasses, hcut, hmax, fun limits' hadmits z hz q => ?_⟩
          simpa only [scanLexeme, List.cons_append, if_neg hdigit, if_neg hword, if_true] using
            htakes _ hadmits z hz q
        · next hquote =>
          split at h
          · next hapostrophe =>
            subst hapostrophe
            obtain ⟨u, d, hu, hpasses, rfl, htakes⟩ := takes_scanCharacter rfl h
            refine ⟨_, hpasses, .character hu, trivial, fun limits' _ z hz q => ?_⟩
            simpa only [scanLexeme, List.cons_append, if_neg hdigit, if_neg hword, if_neg hquote,
              if_true] using htakes z hz q
          · next hapostrophe =>
            obtain ⟨u, hne, hpasses, htakes, hl⟩ := takes_scanMark (by simp) h
            obtain ⟨w, rfl⟩ := hhead hne hpasses
            have htakes' : ∀ limits' : Limits, Takes (scanLexeme limits') (ch :: w) c'.rest l :=
              fun limits' z hz q => by
                simpa only [scanLexeme, List.cons_append, if_neg hdigit, if_neg hword,
                  if_neg hquote, if_neg hapostrophe] using htakes z hz q
            rcases hl with ⟨rfl, hu⟩ | ⟨m, rfl, hu, hlongest⟩
            · exact ⟨_, hpasses, hu ▸ .newline, trivial, fun limits' _ => htakes' limits'⟩
            · rw [hpasses.rest] at hlongest
              rw [hu] at hlongest hpasses htakes'
              exact ⟨_, hpasses, .mark m hlongest, trivial, fun limits' _ => htakes' limits'⟩

/-- A token is cut out behind a gap, or nothing but a gap is left. -/
theorem tile_of_scan {limits : Limits} {c c' : Cursor} {p : Position} {l : Lexeme}
    (h : scan limits c = .ok ((p, l), c')) :
    (∃ gap, c.rest = gap ∧ Gap gap [] ∧ textSize (commentIn gap) ≤ limits.maxCommentLength ∧
        l = ⟨.endOfInput, none⟩ ∧ p = c.position.advance gap ∧ c' = ⟨[], c.position.advance gap⟩) ∨
      ∃ gap u, c.Passes (gap ++ u) c' ∧ p = c.position.advance gap ∧
        Tile limits gap u c'.rest l := by
  cases hs : skipTrivia limits.maxCommentLength c with
  | error r => simp [scan, hs, bind, Except.bind] at h
  | ok start =>
    obtain ⟨gap, hpasses, hgap, hcomment⟩ := skipTrivia_ok_iff.mp hs
    cases hl : scanLexeme limits start with
    | error r => simp [scan, hs, hl, bind, Except.bind] at h
    | ok answer =>
      obtain ⟨l', stop⟩ := answer
      simp only [scan, hs, hl, bind, Except.bind, Except.ok.injEq, Prod.mk.injEq] at h
      obtain ⟨⟨rfl, rfl⟩, rfl⟩ := h
      rcases cut_of_scanLexeme hl with ⟨hnil, rfl, rfl⟩ | ⟨u, hu, hcut, hadmits, htakes⟩
      · obtain ⟨rest, position⟩ := stop
        obtain rfl : rest = [] := hnil
        exact .inl ⟨gap, by simpa using hpasses.rest, hgap, hcomment, rfl, hpasses.position,
          congrArg _ hpasses.position⟩
      · exact .inr ⟨gap, u, hpasses.trans hu, hpasses.position,
          hu.rest ▸ hgap, hcomment, hcut, hadmits, htakes⟩

theorem scan_of_tile {limits : Limits} {gap u v : List Char} {l : Lexeme}
    (h : Tile limits gap u v l) (p : Position) :
    scan limits ⟨gap ++ u ++ v, p⟩ =
      .ok ((p.advance gap, l), ⟨v, p.advance (gap ++ u)⟩) := by
  have hskip : skipTrivia limits.maxCommentLength ⟨gap ++ u ++ v, p⟩ =
      .ok ⟨u ++ v, p.advance gap⟩ :=
    skipTrivia_ok_iff.mpr ⟨gap, ⟨List.append_assoc _ _ _, rfl⟩, h.between, h.comment⟩
  have hread := h.takes limits h.admits v (.refl v) (p.advance gap)
  simp only [scan, hskip, hread, bind, Except.bind, Position.advance_append]

theorem scan_of_gap {limits : Limits} {gap : List Char} (h : Gap gap [])
    (hcomment : textSize (commentIn gap) ≤ limits.maxCommentLength) (p : Position) :
    scan limits ⟨gap, p⟩ =
      .ok ((p.advance gap, ⟨.endOfInput, none⟩), ⟨[], p.advance gap⟩) := by
  have hskip : skipTrivia limits.maxCommentLength ⟨gap, p⟩ = .ok ⟨[], p.advance gap⟩ :=
    skipTrivia_ok_iff.mpr ⟨gap, ⟨by simp, rfl⟩, h, hcomment⟩
  simp [scan, hskip, scanLexeme, bind, Except.bind]

/-! ## Whole sources -/

/-- A text read at `p` is cut up into lexemes at their places, the end of input the last one. -/
inductive Tiles (limits : Limits) : Position → List Char → List (Lexeme × Span) → Prop where
  | last {p : Position} {gap : List Char} (hgap : Gap gap [])
      (hcomment : textSize (commentIn gap) ≤ limits.maxCommentLength) :
      Tiles limits p gap [(⟨.endOfInput, none⟩, .empty (p.advance gap))]
  | tile {p : Position} {gap u v : List Char} {l : Lexeme} {placed : List (Lexeme × Span)}
      (htile : Tile limits gap u v l) (h : Tiles limits (p.advance (gap ++ u)) v placed) :
      Tiles limits p (gap ++ u ++ v)
        ((l, ⟨p.advance gap, p.advance (gap ++ u)⟩) :: placed)

/-- Every lexeme but the last one is written somewhere in the text. -/
theorem Tiles.cut_of_mem {limits : Limits} {p : Position} {text : List Char}
    {placed : List (Lexeme × Span)} (h : Tiles limits p text placed) :
    ∀ x ∈ placed, x.1 = ⟨.endOfInput, none⟩ ∨ ∃ u v, Cut v u x.1 := by
  induction h with
  | last => exact List.forall_mem_singleton.mpr (.inl rfl)
  | tile htile _ ih => exact List.forall_mem_cons.mpr ⟨.inr ⟨_, _, htile.cut⟩, ih⟩

/-- A text is cut up the same way wherever it stands. -/
theorem Tiles.move {limits : Limits} {p : Position} {text : List Char}
    {placed : List (Lexeme × Span)} (h : Tiles limits p text placed) (q : Position) : ∃ placed',
    Tiles limits q text placed' ∧ placed'.map Prod.fst = placed.map Prod.fst := by
  induction h generalizing q with
  | last hgap hcomment => exact ⟨_, .last hgap hcomment, rfl⟩
  | @tile p gap u v l placed htile _ ih =>
    obtain ⟨placed', htiles, hsame⟩ := ih (q.advance (gap ++ u))
    exact ⟨_, .tile htile htiles, congrArg (l :: ·) hsame⟩

/-- The token with its text at its place. -/
def Token.placed (t : Token) (symbols : SymbolTable) : Lexeme × Span :=
  (t.lexeme symbols, t.span)

/-- The tokens with their texts at their places. -/
def TokenStream.placed (s : TokenStream) : List (Lexeme × Span) :=
  s.tokens.toList.map (·.placed s.symbols)

theorem TokenStream.lexemes_eq (s : TokenStream) : s.lexemes = s.placed.map Prod.fst := by
  simp [lexemes, placed, Token.placed, Function.comp_def]

namespace Lexer

variable {limits : Limits} {p : Position} {text : List Char} {count n : Nat}
  {symbols : SymbolTable} {acc : Array Token} {stream : TokenStream}

/-- The text of a lexeme is in the table from then on. -/
theorem internText_spec (symbols : SymbolTable) (text : Option String) :
    symbols.Within (internText symbols text).2 ∧
      (internText symbols text).1.bind (internText symbols text).2.text? = text ∧
      ((internText symbols text).1.isSome → text.isSome) := by
  cases text with
  | none => exact ⟨.refl _, rfl, nofun⟩
  | some text =>
    exact ⟨SymbolTable.within_intern symbols text, symbols.text?_intern text, fun _ => rfl⟩

/-- A token that carries the text just entered. -/
theorem token_of_internText (l : Lexeme) (span : Span) (symbols : SymbolTable) :
    let token : Token := ⟨l.kind, span, (internText symbols l.text).1⟩
    token.HasText (internText symbols l.text).2 ∧
      token.placed (internText symbols l.text).2 = (l, span) := by
  obtain ⟨-, hbind, hsome⟩ := internText_spec symbols l.text
  refine ⟨fun symbol hsymbol => ?_, ?_⟩
  · dsimp only at hsymbol
    rw [hsymbol] at hbind hsome
    obtain ⟨text, htext⟩ := Option.isSome_iff_exists.mp (hsome rfl)
    exact ⟨text, hbind.trans htext⟩
  · simp only [Token.placed, Token.lexeme, Token.text?, hbind]

/-- Behind the tokens already there, `collect` puts tokens with the lexemes `placed`. -/
structure Collected (symbols : SymbolTable) (acc : Array Token) (stream : TokenStream)
    (added : List Token) (placed : List (Lexeme × Span)) : Prop where
  tokens : stream.tokens.toList = acc.toList ++ added
  symbols : symbols.Within stream.symbols
  texts : ∀ token ∈ added, token.HasText stream.symbols
  placed : added.map (·.placed stream.symbols) = placed

theorem next_of_scan {c' : Cursor} {q : Position} {l : Lexeme}
    (hcount : count < limits.maxTokenCount) (h : scan limits ⟨text, p⟩ = .ok ((q, l), c')) :
    next ⟨limits, ⟨text, p⟩, count, symbols⟩ =
      (.ok ⟨l.kind, ⟨q, c'.position⟩, (internText symbols l.text).1⟩,
        ⟨limits, c', count + 1, (internText symbols l.text).2⟩) := by
  rw [next, if_neg (Nat.not_le.mpr hcount), h]

/-- One token more in front of those collected behind it. -/
theorem Collected.cons {l : Lexeme} {span : Span} {added : List Token}
    {placed : List (Lexeme × Span)}
    (h : Collected (internText symbols l.text).2
      (acc.push ⟨l.kind, span, (internText symbols l.text).1⟩) stream added placed) :
    Collected symbols acc stream
      (⟨l.kind, span, (internText symbols l.text).1⟩ :: added) ((l, span) :: placed) := by
  obtain ⟨htext, hplaced⟩ := token_of_internText l span symbols
  refine ⟨by simpa using h.tokens, (internText_spec symbols l.text).1.trans h.symbols,
    List.forall_mem_cons.mpr ⟨htext.within h.symbols, h.texts⟩, ?_⟩
  rw [List.map_cons, h.placed, ← hplaced]
  exact congrArg (· :: placed) (congrArg (·, span) (Token.lexeme_of_within htext h.symbols))

/-- The end of input is collected last. -/
theorem Collected.last (q : Position) :
    Collected symbols acc ⟨acc.push (.endAt q), symbols⟩ [.endAt q]
      [(⟨.endOfInput, none⟩, .empty q)] where
  tokens := by simp
  symbols := .refl _
  texts := by simp [Token.endAt, Token.HasText]
  placed := rfl

theorem tiles_of_collect (hn : text.length < n)
    (h : collect n ⟨limits, ⟨text, p⟩, count, symbols⟩ acc = .ok stream) :
    ∃ added placed, Collected symbols acc stream added placed ∧ Tiles limits p text placed ∧
      count + placed.length ≤ limits.maxTokenCount := by
  induction n generalizing text p count symbols acc with
  | zero => omega
  | succ n ih =>
    rcases Nat.lt_or_ge count limits.maxTokenCount with hcount | hcount
    · cases hs : scan limits ⟨text, p⟩ with
      | error r =>
        simp [collect, next, Nat.not_le.mpr hcount, hs] at h
      | ok answer =>
        obtain ⟨⟨q, l⟩, c'⟩ := answer
        rw [collect, next_of_scan hcount hs] at h
        rcases tile_of_scan hs with
          ⟨gap, rfl, hgap, hcomment, rfl, rfl, rfl⟩ | ⟨gap, u, hpasses, rfl, htile⟩
        · obtain rfl := Except.ok.inj h
          exact ⟨_, _, .last _, .last hgap hcomment, hcount⟩
        · dsimp only at h
          rw [if_neg htile.cut.kind_ne_endOfInput] at h
          obtain ⟨rest, position⟩ := c'
          obtain ⟨hrest, hposition⟩ := hpasses
          obtain rfl : text = gap ++ u ++ rest := hrest
          obtain rfl : position = p.advance (gap ++ u) := hposition
          have hlength : rest.length < (gap ++ u ++ rest).length := htile.length_lt
          obtain ⟨added, placed, hadded, htiles, hmax⟩ := ih (by omega) h
          exact ⟨_, _, hadded.cons, .tile htile htiles, by simp only [List.length_cons]; omega⟩
    · simp [collect, next, hcount] at h

/-- Behind the last lexeme the end of input is collected. -/
theorem collect_gap {gap : List Char} (hcount : count < limits.maxTokenCount) (hgap : Gap gap [])
    (hcomment : textSize (commentIn gap) ≤ limits.maxCommentLength) :
    collect (n + 1) ⟨limits, ⟨gap, p⟩, count, symbols⟩ acc =
      .ok ⟨acc.push (.endAt (p.advance gap)), symbols⟩ := by
  rw [collect, next_of_scan hcount (scan_of_gap hgap hcomment _)]
  rfl

/-- A tile is collected as a token, and then what is behind it. -/
theorem collect_tile {gap u v : List Char} {l : Lexeme} (hcount : count < limits.maxTokenCount)
    (htile : Tile limits gap u v l) :
    collect (n + 1) ⟨limits, ⟨gap ++ u ++ v, p⟩, count, symbols⟩ acc =
      collect n ⟨limits, ⟨v, p.advance (gap ++ u)⟩, count + 1, (internText symbols l.text).2⟩
        (acc.push ⟨l.kind, ⟨p.advance gap, p.advance (gap ++ u)⟩,
          (internText symbols l.text).1⟩) := by
  rw [collect, next_of_scan hcount (scan_of_tile htile p)]
  dsimp only
  rw [if_neg htile.cut.kind_ne_endOfInput]

theorem collect_of_tiles {placed : List (Lexeme × Span)} (hn : text.length < n)
    (htiles : Tiles limits p text placed) (hcount : count + placed.length ≤ limits.maxTokenCount) :
    ∃ stream added, collect n ⟨limits, ⟨text, p⟩, count, symbols⟩ acc = .ok stream ∧
      Collected symbols acc stream added placed := by
  induction htiles generalizing n count symbols acc with
  | last hgap hcomment =>
    obtain ⟨n, rfl⟩ := Nat.exists_eq_succ_of_ne_zero (Nat.ne_of_gt (Nat.zero_lt_of_lt hn))
    exact ⟨_, _, collect_gap hcount hgap hcomment, .last _⟩
  | tile htile _ ih =>
    obtain ⟨n, rfl⟩ := Nat.exists_eq_succ_of_ne_zero (Nat.ne_of_gt (Nat.zero_lt_of_lt hn))
    have hlength := htile.length_lt
    simp only [List.length_cons] at hcount
    obtain ⟨stream, added, hcollect, hadded⟩ := ih (n := n) (by omega)
      (show count + 1 + _ ≤ limits.maxTokenCount by omega)
    exact ⟨stream, _, (collect_tile (by omega) htile).trans hcollect, hadded.cons⟩

/-- What goes wrong in collecting goes wrong in one call, at a lexer that calls have led to. -/
theorem exists_next_of_collect_error {P : Lexer → Prop} (hP : ∀ l, P l → P l.next.2) {l : Lexer}
    (hl : P l) {e : LexicalError} (h : l.collect n acc = .error e) :
    ∃ l', P l' ∧ l'.next.1 = .error e := by
  induction n generalizing l acc with
  | zero => cases h
  | succ n ih =>
    have hnext := hP l hl
    rw [collect] at h
    rcases hs : l.next with ⟨e' | token, l'⟩ <;> rw [hs] at h hnext
    · obtain rfl := Except.error.inj h
      exact ⟨l, hl, congrArg Prod.fst hs⟩
    · dsimp only at h
      split at h
      · cases h
      · exact ih hnext h

end Lexer

/-- A source that is cut into tokens is tiled by them, and their texts are there. -/
theorem tiles_of_lex {source : String} {limits : Limits} {stream : TokenStream}
    (h : lex source limits = .ok stream) :
    Tiles limits .start source.toList stream.placed ∧ stream.Resolves ∧
      stream.size ≤ limits.maxTokenCount ∧ source.utf8ByteSize ≤ limits.maxInputSize := by
  simp only [lex, Lexer.ofSource] at h
  split at h
  · cases h
  · next hsize =>
    obtain ⟨added, placed, hadded, htiles, hcount⟩ :=
      Lexer.tiles_of_collect (Nat.lt_succ_self _) h
    have htokens : stream.tokens.toList = added := by simpa using hadded.tokens
    have hplaced : stream.placed = placed := by
      rw [TokenStream.placed, htokens, hadded.placed]
    have hlength : stream.size = placed.length := by
      rw [← hplaced, TokenStream.placed, List.length_map]
      rfl
    refine ⟨hplaced ▸ htiles, fun token htoken => hadded.texts token ?_, by omega,
      Nat.le_of_not_lt hsize⟩
    rw [← htokens]
    exact Array.mem_toList_iff.mpr htoken

/-- What can be tiled is cut into those tokens. -/
theorem lex_of_tiles {source : String} {limits : Limits} {placed : List (Lexeme × Span)}
    (h : Tiles limits .start source.toList placed) (hcount : placed.length ≤ limits.maxTokenCount)
    (hsize : source.utf8ByteSize ≤ limits.maxInputSize) :
    ∃ stream, lex source limits = .ok stream ∧ stream.placed = placed ∧ stream.Resolves := by
  obtain ⟨stream, added, hcollect, hadded⟩ : ∃ stream added,
      Lexer.collect (source.toList.length + 1) ⟨limits, .ofSource source, 0, .empty⟩ #[] =
        .ok stream ∧ Lexer.Collected .empty #[] stream added placed :=
    Lexer.collect_of_tiles (Nat.lt_succ_self _) h (by omega)
  have htokens : stream.tokens.toList = added := by simpa using hadded.tokens
  refine ⟨stream, ?_, ?_, fun token htoken => hadded.texts token ?_⟩
  · simp only [lex, Lexer.ofSource, if_neg (Nat.not_lt.mpr hsize)]
    exact hcollect
  · rw [TokenStream.placed, htokens, hadded.placed]
  · rw [← htokens]
    exact Array.mem_toList_iff.mpr htoken

/-- A lexeme that is all of a text is its one token. -/
theorem lex_of_scanLexeme {limits : Limits} {w : List Char} {l : Lexeme} {p : Position}
    (hw : ∃ d v, w = d :: v ∧ isBlank d = false ∧ d ≠ '#')
    (h : scanLexeme limits ⟨w, .start⟩ = .ok (l, ⟨[], p⟩))
    (hsize : textSize w ≤ limits.maxInputSize) (hcount : 2 ≤ limits.maxTokenCount) :
    ∃ stream, lex (String.ofList w) limits = .ok stream ∧
      stream.lexemes = [l, ⟨.endOfInput, none⟩] := by
  obtain ⟨d, v, rfl, hblank, hhash⟩ := hw
  rcases cut_of_scanLexeme h with ⟨hnil, -, -⟩ | ⟨u, hu, hcut, hadmits, htakes⟩
  · cases hnil
  · obtain rfl : d :: v = u := by simpa using hu.rest
    have htile : Tile limits [] (d :: v) [] l :=
      ⟨gap_nil_iff.mpr (by simp [hblank, hhash]), Nat.zero_le _, hcut, hadmits, htakes⟩
    have htiles := Tiles.tile (p := .start) htile (.last (gap_nil_iff.mpr (by simp)) (Nat.zero_le _))
    simp only [List.nil_append, List.append_nil] at htiles
    rw [← String.toList_ofList (l := d :: v)] at htiles
    obtain ⟨stream, hlex, hplaced, -⟩ :=
      lex_of_tiles htiles hcount (by rwa [utf8ByteSize_ofList])
    refine ⟨stream, hlex, ?_⟩
    rw [stream.lexemes_eq, hplaced]
    rfl

end GoloSyntax
