import GoloSyntax.Proofs.Reading.Source
import GoloSyntax.Proofs.Shape.Operands
import GoloSyntax.Proofs.Token.Excerpts

/-! # A node stands for its slice of the source

What the span of an expression cuts out of the source is that expression and nothing else: put
behind `function f = ->`, it is read as the same expression, and no limit is needed that the
source itself did not need (`slice_of_parse`).

The tokens of the slice are those the node was read from (`Tiles.excerpt`), these are read the
same way where the input ends behind them (`Reads.cut`), and as a whole expression too
(`Reads.expression_of_operand`).
-/
namespace GoloSyntax

/-! ## Units with one expression -/

/-- A unit with one function, up to its value. -/
def bodyFront : List Char := "module m\nfunction f = ->".toList

def bodyLexemes : List Lexeme :=
  [⟨.keyword .module_, none⟩, ⟨.identifier, some "m"⟩, ⟨.newline, none⟩,
    ⟨.keyword .function, none⟩, ⟨.identifier, some "f"⟩, ⟨.mark .assign, none⟩, ⟨.mark .arrow, none⟩]

/-- The source of a unit whose only function gives the value of an expression. -/
def bodySource (expression : String) : String := "module m\nfunction f = -> " ++ expression

theorem toList_bodySource (u : List Char) :
    (bodySource (String.ofList u)).toList = bodyFront ++ ' ' :: u := by
  have hfront : "module m\nfunction f = -> ".toList = bodyFront ++ [' '] := by decide +kernel
  have happend : (bodySource (String.ofList u)).toList =
      "module m\nfunction f = -> ".toList ++ (String.ofList u).toList := String.toList_append
  generalize bodyFront = front at hfront ⊢
  rw [happend, hfront]
  simp

variable {limits limits' : Limits} {placed : List (Lexeme × Span)} {u : List Char}

/-- In front of a blank, the beginning of the unit is cut up by itself. -/
theorem tiles_bodyFront (hlimits : limits.Clears (textSize (bodyFront ++ ' ' :: u))) (hu : u ≠ [])
    (h : Tiles limits (Position.start.advance bodyFront) (' ' :: u) placed) : ∃ placed',
      Tiles limits .start (bodyFront ++ ' ' :: u) placed' ∧
        placed'.map Prod.fst = bodyLexemes ++ placed.map Prod.fst := by
  have hfront : (lex "module m\nfunction f = -> f" {}).toOption.map (fun stream =>
      ((stream.placed.take 7).map Prod.fst,
        ((stream.placed.take 7).getLast?.map (·.2.stop)).getD .start,
        (stream.placed.drop 7).isEmpty)) =
      some (bodyLexemes, Position.start.advance bodyFront, false) := by
    decide +kernel
  cases hlex : lex "module m\nfunction f = -> f" {} with
  | error e => simp [hlex, Except.toOption] at hfront
  | ok stream =>
    simp only [hlex, Except.toOption, Option.map_some, Option.some.injEq, Prod.mk.injEq] at hfront
    obtain ⟨hlexemes, hstop, hrest⟩ := hfront
    have hclears : limits.Clears (textSize "module m\nfunction f = -> f".toList) := by
      refine hlimits.mono ?_
      obtain ⟨d, w, rfl⟩ := List.exists_cons_of_ne_nil hu
      have := d.utf8Size_pos
      have hfront : textSize "module m\nfunction f = -> f".toList = 26 := by decide +kernel
      have hfront' : textSize bodyFront = 24 := by decide +kernel
      have hblank : Char.utf8Size ' ' = 1 := rfl
      simp only [textSize_append, textSize_cons, hfront, hfront', hblank]
      omega
    have htiles := (tiles_of_lex hlex).1.of_clears hclears
    rw [← List.take_append_drop 7 stream.placed] at htiles
    obtain ⟨text₁, text₂, htext, hend, -, hgraft⟩ := htiles.graft (by
      rintro hnil
      simp [hnil] at hrest)
    obtain ⟨rfl, -⟩ : text₁ = bodyFront ∧ text₂ = [' ', 'f'] :=
      append_eq_of_textSize (htext.symm.trans (by decide +kernel))
        (Position.textSize_of_advance (hend.symm.trans hstop))
    exact ⟨_, hgraft (.separator (by decide) _ _) h, by rw [List.map_append, hlexemes]⟩

variable {n : Nat} {s r : Reader} {y : Construct} {ls : List Lexeme}

/-- An expression behind an arrow is the value of a function. -/
theorem reads_valueOf (h₀ : s.next = ⟨.mark .arrow, none⟩) (hnewline : s.advance.kind ≠ .newline)
    (h : Reads .byText n [.part (.expression 0)] s.advance r [y]) :
    ∃ span, Reads .byText (n + 1) [.part (.function false)] s r
      [.mk (.function false true) span [y]] := by
  refine ⟨_, reads_phrase_iff.mpr ⟨n, _, _, [y], .functionArrow false, rfl, trivial, ?_, rfl⟩⟩
  refine .token (by simp) (congrArg Lexeme.kind h₀) (.newlines ?_)
  rwa [Reader.skipNewlines_of_kind_ne hnewline]

theorem reads_declarationOf (h₀ : s.next = ⟨.keyword .function, none⟩)
    (h₁ : s.advance.next = ⟨.identifier, some "f"⟩)
    (h₂ : s.advance.advance.next = ⟨.mark .assign, none⟩)
    (h : Reads .byText n [.part (.function false)] s.advance.advance.advance r [y]) :
    ∃ span, Reads .byText (n + 1) [.part .functionDeclaration] s r
      [.mk (.functionDeclaration "f" false) span [y]] := by
  refine ⟨_, reads_phrase_iff.mpr
    ⟨n, _, _, [y], .functionDeclaration "f", rfl, trivial, ?_, rfl⟩⟩
  exact .token (by simp) (congrArg Lexeme.kind h₀)
    (.identifier h₁ (.token (by simp) (congrArg Lexeme.kind h₂) h))

/-- Behind the last declaration there may be line feeds. -/
theorem reads_noDeclarations (hend : ∀ l ∈ r.lexemes, l.kind = .newline) :
    ∃ r', Reads .byText n [.part (.declarations false)] r r' [] := by
  by_cases hnewline : r.kind = .newline
  · have hall : ∀ l ∈ r.advance.lexemes, decide (l.kind = .newline) = true := fun l hl =>
      decide_eq_true (hend l ((r.rest_advance_suffix.map Piece.lexeme).subset hl))
    have hnone : r.advance.skipNewlines.rest = [] := by
      refine List.map_eq_nil_iff.mp (?_ : r.advance.skipNewlines.lexemes = [])
      rw [Reader.lexemes_skipNewlines]
      exact List.dropWhile_eq_nil_iff.mpr hall
    exact ⟨r.advance.skipNewlines, reads_phrase_iff.mpr ⟨n, _, none, [], .declarationsNewlines false,
      rfl, Reader.kind_of_rest_nil hnone, .token (by simp) hnewline (.newlines .nil), rfl⟩⟩
  · have hnone : r.rest = [] := by
      by_contra hne
      obtain ⟨p, rest, hrest⟩ := List.exists_cons_of_ne_nil hne
      have hkind : r.kind = p.lexeme.kind := by simp [Reader.kind, Reader.next, hrest]
      exact hnewline (hkind.trans (hend _ (by simp [Reader.lexemes, hrest])))
    exact ⟨r, reads_phrase_iff.mpr ⟨n, [], none, [], .declarationsEnd false, rfl,
      Reader.kind_of_rest_nil hnone, .nil, rfl⟩⟩

/-- A declaration behind the one of the module, with nothing but line feeds behind it. -/
theorem reads_unitOf (h₀ : s.next = ⟨.keyword .module_, none⟩)
    (h₁ : s.advance.next = ⟨.identifier, some "m"⟩)
    (h₂ : s.advance.advance.next = ⟨.newline, none⟩)
    (h₃ : s.advance.advance.advance.kind ≠ .newline)
    (h : Reads .byText (n + 1) [.part .functionDeclaration] s.advance.advance.advance r [y])
    (hend : ∀ l ∈ r.lexemes, l.kind = .newline) :
    ∃ span r', Reads .byText (n + 2) [.part .compilationUnit] s r'
      [.mk (.module_ "m") span [], y] := by
  obtain ⟨r', hnone⟩ := reads_noDeclarations (n := n + 1) hend
  have htop : Reads .byText (n + 1) [.part .topLevel, .part (.declarations false)]
      s.advance.advance.advance r' [y] :=
    reads_part_append.mpr ⟨r, [y], [], h.inside .topLevelFunction trivial, hnone, rfl⟩
  have hrest : Reads .byText (n + 1) [.part (.declarations true)] s.advance.advance r' [y] := by
    refine reads_phrase_iff.mpr
      ⟨n + 1, _, none, [y], .declarationsTopLevel true, rfl, trivial, ?_, rfl⟩
    refine .token (by simp) (congrArg Lexeme.kind h₂) (.newlines ?_)
    rwa [Reader.skipNewlines_of_kind_ne h₃]
  have hname : Qualified s.advance s.advance.advance ["m"] := by
    refine .last h₁ ?_
    rintro ⟨hdot, -⟩
    simp [Reader.kind, h₂] at hdot
  have hmodule : Reads .byText (n + 1) [.part .moduleDeclaration] s s.advance.advance
      [.mk (.module_ "m") ⟨s.start, s.advance.advance.lastEnd⟩ []] :=
    reads_phrase_iff.mpr ⟨n, _, _, [], .moduleDeclaration ["m"], rfl, trivial,
      .token (by simp) (congrArg Lexeme.kind h₀) (.qualified hname .nil), rfl⟩
  have hbody := reads_part_append.mpr ⟨s.advance.advance, _, [y], hmodule, hrest, rfl⟩
  rw [← Reader.skipNewlines_of_kind_ne (s := s) (by simp [Reader.kind, h₀])] at hbody
  exact ⟨_, r', reads_phrase_iff.mpr ⟨n + 1, _, none, _, .compilationUnit, rfl, trivial,
    .newlines hbody, rfl⟩⟩

/-- What is read as an expression becomes the value of the only function. -/
theorem reads_bodyLexemes (hs : s.lexemes = bodyLexemes ++ ls)
    (h : ∀ s' : Reader, s'.lexemes = ls → s'.kind ≠ .newline ∧
      ∃ r y', Reads .byText n [.part (.expression 0)] s' r [y'] ∧
        (∀ l ∈ r.lexemes, l.kind = .newline) ∧ y'.bare = y.bare) :
    ∃ r m declaration function y', Reads .byText (n + 3) [.part .compilationUnit] s r
      [.mk (.module_ "m") m [], .mk (.functionDeclaration "f" false) declaration
        [.mk (.function false true) function [y']]] ∧ y'.bare = y.bare := by
  have h₀ := Reader.next_of_lexemes hs
  have hs₁ := Reader.advance_of_lexemes hs
  have h₁ := Reader.next_of_lexemes hs₁
  have hs₂ := Reader.advance_of_lexemes hs₁
  have h₂ := Reader.next_of_lexemes hs₂
  have hs₃ := Reader.advance_of_lexemes hs₂
  have h₃ := Reader.next_of_lexemes hs₃
  have hs₄ := Reader.advance_of_lexemes hs₃
  have h₄ := Reader.next_of_lexemes hs₄
  have hs₅ := Reader.advance_of_lexemes hs₄
  have h₅ := Reader.next_of_lexemes hs₅
  have hs₆ := Reader.advance_of_lexemes hs₅
  have h₆ := Reader.next_of_lexemes hs₆
  have hs₇ := Reader.advance_of_lexemes hs₆
  obtain ⟨hnewline, r, y', hy, hend, hbare⟩ := h _ hs₇
  obtain ⟨function, hfunction⟩ := reads_valueOf h₆ hnewline hy
  obtain ⟨declaration, hdeclaration⟩ := reads_declarationOf h₃ h₄ h₅ hfunction
  obtain ⟨m, r', hunit⟩ := reads_unitOf h₀ h₁ h₂ (by simp [Reader.kind, h₃]) hdeclaration hend
  exact ⟨r', m, declaration, function, y', hunit, hbare⟩

/-! ## Slices of nodes -/

variable {source : String} {stream : TokenStream} {pieces : List Piece} {N : Nat} {t : Tree}
  {id p : NodeId}

theorem Construct.count_eq_of_bare {x x' : Construct} (h : x'.bare = x.bare) :
    x'.count = x.count := by
  rw [← count_bare, h, count_bare]

/-- What pieces of a source were read from, first to last, is a slice of it that is cut up into
the same lexemes behind a blank. -/
theorem exists_slice (htiles : Tiles limits .start source.toList stream.placed)
    (hpieces : Pieces stream source pieces) (hs : s.rest <:+ pieces) (hends : s.EndsWith r) :
    ∃ u ls, u ≠ [] ∧ (⟨s.start, r.lastEnd⟩ : Span).slice source = String.ofList u ∧
      s.lexemes = ls ++ r.lexemes ∧ ∀ q, ∃ placed, Tiles limits q (' ' :: u) placed ∧
        placed.map Prod.fst = ls ++ [⟨.endOfInput, none⟩] := by
  obtain ⟨front, rfl⟩ := hs
  obtain ⟨read, last, hrest, hlast⟩ := hends
  obtain ⟨x, mid, hread⟩ := List.exists_cons_of_ne_nil (l := read ++ [last]) (by simp)
  have hrest' : s.rest = x :: mid ++ r.rest := by rw [hrest, ← hread]; simp
  have hplaced : stream.placed = front.map (fun p => (p.lexeme, p.span)) ++
      ((x.lexeme, x.span) :: mid.map (fun p => (p.lexeme, p.span)) ++
        (r.rest.map (fun p => (p.lexeme, p.span)) ++
          [(⟨.endOfInput, none⟩, .empty (Position.start.advance source.toList))])) := by
    rw [hpieces.placed, hrest']
    simp
  have hstart : s.start = x.span.start := by simp [Reader.start, hrest']
  have hstop : r.lastEnd = ((mid.map fun p => (p.lexeme, p.span)).getLast?.map (·.2.stop)).getD
      x.span.stop := by
    have hend : (x :: mid).getLast? = some last := by rw [← hread]; simp
    rw [hlast, List.getLast?_map, Option.map_map]
    rw [List.getLast?_cons, Option.some.injEq] at hend
    rw [← hend]
    cases mid.getLast? <;> rfl
  rw [hplaced] at htiles
  obtain ⟨before, u, after, htext, hne, hbefore, hbehind, hcut⟩ := htiles.excerpt
    (hpieces.kind x (List.mem_append_right _ (hrest' ▸ List.mem_cons_self))) (by simp)
  have hstands : Stands source.toList ⟨s.start, r.lastEnd⟩ before u after :=
    ⟨htext, hstart.trans hbefore, hstop.trans hbehind⟩
  refine ⟨u, (x :: mid).map Piece.lexeme, hne, hstands.slice_eq, ?_, fun q => ?_⟩
  · rw [Reader.lexemes, hrest', List.map_append]
    rfl
  · obtain ⟨placed, htiles', hsame⟩ := hcut q
    exact ⟨placed, htiles', by rw [hsame]; simp [Function.comp_def]⟩

/-- A unit with the excerpt as its only value is cut up as it should be. -/
theorem exists_pieces_bodySource
    (hlimits : limits'.Clears (bodySource (String.ofList u)).utf8ByteSize) (hu : u ≠ [])
    (h : ∀ q, ∃ placed, Tiles limits q (' ' :: u) placed ∧
      placed.map Prod.fst = ls ++ [⟨.endOfInput, none⟩]) :
    ∃ stream pieces, lex (bodySource (String.ofList u)) limits' = .ok stream ∧
      Pieces stream (bodySource (String.ofList u)) pieces ∧
      pieces.map Piece.lexeme = bodyLexemes ++ ls := by
  have hsize : (bodySource (String.ofList u)).utf8ByteSize = textSize (bodyFront ++ ' ' :: u) := by
    rw [← toList_bodySource, ← textSize_toList]
  obtain ⟨placed, htiles, hplaced⟩ := h (Position.start.advance bodyFront)
  rw [hsize] at hlimits
  obtain ⟨placed', htiles', hplaced'⟩ := tiles_bodyFront hlimits hu
    (htiles.of_clears (hlimits.mono (by simp [textSize_append])))
  rw [← toList_bodySource] at htiles'
  have hcount := htiles'.length_le
  rw [toList_bodySource] at hcount
  obtain ⟨stream, hlex, hstream, -⟩ := lex_of_tiles htiles'
    (Nat.le_trans hcount hlimits.tokenCount) (hsize ▸ hlimits.inputSize)
  obtain ⟨pieces, hpieces⟩ := exists_pieces_of_lex hlex
  refine ⟨stream, pieces, hlex, hpieces, ?_⟩
  have hlexemes := hpieces.lexemes_eq
  rw [stream.lexemes_eq, hstream, hplaced', hplaced, ← List.append_assoc] at hlexemes
  exact (List.append_cancel_right hlexemes).symm

/-- What was read as an operand is an expression where nothing else stands. -/
theorem reads_excerpt {k : Nat} {phrase : Phrase}
    (h : Reads .byText k [.part phrase] s r [y]) (hphrase : phrase.isOperand)
    (hls : s.lexemes = ls ++ r.lexemes) {s' : Reader} (hs' : s'.lexemes = ls) :
    s'.kind ≠ .newline ∧ ∃ r' y', Reads .byText (k + phrase.outside - 3) [.part (.expression 0)]
      s' r' [y'] ∧ (∀ l ∈ r'.lexemes, l.kind = .newline) ∧ y'.bare = y.bare := by
  have hwithout : Reader.Without r.lexemes s s' := by rw [Reader.Without, hs', hls]
  obtain ⟨r', xs, hreads, hr, hbare⟩ := h.cut hwithout List.suffix_rfl
  have hend : r'.rest = [] := List.map_eq_nil_iff.mp (List.self_eq_append_left.mp hr)
  have hexpression := hreads.expression_of_operand hend hphrase
  obtain ⟨y', rfl⟩ := hexpression.exists_single rfl
  refine ⟨fun hnewline => ?_, r', y', hexpression, by simp [Reader.lexemes, hend],
    (List.cons.inj hbare).1⟩
  have hbegins := hexpression.begins
  rw [hnewline] at hbegins
  cases hbegins

theorem Reads.leaf_of_moduleDeclaration {naming : Naming} {x : Construct}
    (h : Reads naming n [.part .moduleDeclaration] s r [x]) :
    x.parts = [] ∧ ¬ x.kind.isExpression := by
  obtain ⟨_, _, _, ys, ⟨⟩, -, -, hname, hx⟩ := reads_phrase_iff.mp h
  obtain rfl := List.length_eq_zero_iff.mp (hname.length_eq rfl)
  obtain rfl := (List.cons.inj hx).1
  exact ⟨rfl, by simp [NodeKind.isExpression]⟩

/-- Expressions of a unit were read as operands, below a declaration at least. -/
theorem Reads.operand_of_unit {naming : Naming} {p : Construct} {span : Span}
    {xs : List Construct} (h : Reads naming n [.part .compilationUnit] s r xs)
    (hp : p.Within (.mk .compilationUnit span xs)) (hy : y ∈ p.parts)
    (hkind : y.kind.isExpression)
    (hfunction : y.kind.isFunction → ¬ p.kind.isFunctionDeclaration) :
    Operand naming n s r y ∧ y.count + 3 ≤ Construct.countAll xs := by
  obtain ⟨m, _, _, ys, ⟨⟩, hn, -, hbody, rfl⟩ := reads_phrase_iff.mp h
  obtain ⟨s₁, ms, zs, hmodule, hdeclarations, rfl⟩ := reads_part_append.mp (reads_newlines_iff.mp hbody)
  obtain ⟨x, rfl⟩ := hmodule.exists_single rfl
  have hs₁ : s₁.rest <:+ s.rest :=
    hmodule.rest_suffix.trans (Reader.rest_skipNewlines_suffix _)
  have hN : ∀ q, .part q ∈ [Item.part (.declarations true)] → m + q.outside ≤ n := by
    simp only [List.mem_singleton, Item.part.injEq, forall_eq]
    exact Nat.le_of_eq hn
  obtain ⟨hleaf, hexpression⟩ := hmodule.leaf_of_moduleDeclaration
  cases hp with
  | refl =>
    rcases List.mem_cons.mp hy with rfl | hy
    · exact absurd hkind hexpression
    · rcases hdeclarations.found hN hy hkind with ⟨-, q, hq, habove⟩ | ⟨hq, -⟩
      · obtain rfl := Item.part.inj (List.mem_singleton.mp hq)
        cases habove
      · simp at hq
  | part hp hx =>
    rcases List.mem_cons.mp hx with rfl | hx
    · cases hp with
      | refl => simp [hleaf] at hy
      | part _ hz => simp [hleaf] at hz
    · obtain ⟨hoperand, hcount⟩ := hdeclarations.operand_below (K := 2) hN (by simp [Phrase.above])
        hx hp hy hkind hfunction
      have := x.count_pos
      refine ⟨hoperand.extend hs₁ List.suffix_rfl, ?_⟩
      simp only [List.cons_append, List.nil_append, Construct.countAll]
      omega

/-- The value of the only declaration of a tree is a node. -/
structure Tree.CompactBody (t : Tree) (body : NodeId) : Prop where
  exists_function : ∃ m declaration function, t.children Tree.root = [m, declaration] ∧
    t.kind declaration = .functionDeclaration "f" false ∧ t.children declaration = [function] ∧
    t.kind function = .function false true ∧ t.children function = [body]

theorem Tree.Shows.compactBody {unit m declaration function : Span}
    (h : t.Shows Tree.root (.mk .compilationUnit unit [.mk (.module_ "m") m [],
      .mk (.functionDeclaration "f" false) declaration [.mk (.function false true) function [y]]]))
    (hsize : 4 + y.count ≤ t.size) : ∃ body, t.CompactBody body ∧ t.Shows body y := by
  have hroot := h.children (by simp only [Construct.count, Construct.countAll]; omega)
  obtain ⟨idm, _, -, htail, hids⟩ := List.forall₂_cons_right_iff.mp hroot
  obtain ⟨idd, _, hdeclaration, hnil, rfl⟩ := List.forall₂_cons_right_iff.mp htail
  obtain rfl := List.forall₂_nil_right_iff.mp hnil
  have hparts := hdeclaration.children (by simp only [Construct.count, Construct.countAll]; omega)
  obtain ⟨idf, _, hfunction, hnil, hidf⟩ := List.forall₂_cons_right_iff.mp hparts
  obtain rfl := List.forall₂_nil_right_iff.mp hnil
  have hvalue := hfunction.children (by simp only [Construct.count, Construct.countAll]; omega)
  obtain ⟨body, _, hbody, hnil, hidb⟩ := List.forall₂_cons_right_iff.mp hvalue
  obtain rfl := List.forall₂_nil_right_iff.mp hnil
  exact ⟨body, ⟨idm, idd, idf, hids, hdeclaration.kind_eq, hidf, hfunction.kind_eq, hidb⟩, hbody⟩

/-- The source of an expression, as the value of a function, is read as the same expression. -/
theorem slice_of_parse (h : parseSource source limits = .ok t) (hp : t.Reaches p)
    (hid : id ∈ t.children p) (hkind : (t.kind id).isExpression)
    (hfunction : (t.kind id).isFunction → ¬ (t.kind p).isFunctionDeclaration)
    (hdepth : limits'.maxNestingDepth = limits.maxNestingDepth)
    (hnodes : limits'.maxTreeNodes = limits.maxTreeNodes)
    (hlimits : limits'.Clears (bodySource ((t.span id).slice source)).utf8ByteSize) :
    ∃ t' body, parseSource (bodySource ((t.span id).slice source)) limits' = .ok t' ∧
      t'.CompactBody body ∧ (t'.construct body).bare = (t.construct id).bare := by
  simp only [parseSource] at h
  split at h
  · cases h
  · next stream hlex =>
    obtain ⟨htiles, -⟩ := tiles_of_lex hlex
    obtain ⟨pieces, hpieces⟩ := exists_pieces_of_lex hlex
    have hsize' := size_of_parse h
    obtain ⟨r₀, xs, hunit, hshows, hsize⟩ := parse_sound h
    rw [hpieces.reader_eq (symbols_of_parse h)] at hunit
    obtain ⟨x, hx, hshown⟩ := hshows.exists_within (Nat.le_of_eq hsize.symm) hp
    have hcount := hx.count_le
    simp only [Construct.count, ← hsize] at hcount
    obtain ⟨y, hy, hshown'⟩ := Tree.exists_of_mem_forall₂ (hshown.children hcount) hid
    have hcount' := (hx.of_part hy).count_le
    simp only [Construct.count, ← hsize] at hcount'
    rw [hshown.kind_eq, hshown'.kind_eq] at hfunction
    rw [hshown'.kind_eq] at hkind
    rw [hshown'.construct_eq hcount']
    rw [hshown'.span_eq] at hlimits ⊢
    obtain ⟨⟨k, phrase, s, r, hphrase, hk, hreads, hspan, hs, -⟩, hnodes'⟩ :=
      hunit.operand_of_unit hx hy hkind hfunction
    obtain ⟨u, ls, hu, hslice, hls, hcut⟩ :=
      exists_slice htiles hpieces hs (hreads.endsWith (Phrase.closes_of_isOperand hphrase))
    rw [hspan, hslice] at hlimits ⊢
    obtain ⟨stream', pieces', hlex', hpieces', hlexemes⟩ :=
      exists_pieces_bodySource hlimits hu hcut
    obtain ⟨r', m, declaration, function, y', hunit', hbare⟩ := reads_bodyLexemes
      (s := ⟨pieces', .start, _⟩) hlexemes fun s' hs' => reads_excerpt hreads hphrase hls hs'
    have hcounts := Construct.count_eq_of_bare hbare
    have houtside := Phrase.outside_of_isOperand hphrase
    rw [← hpieces'.reader_eq (.refl _)] at hunit'
    obtain ⟨t', ht', hshows', hsize'⟩ := parse_complete hpieces'.hasTexts
      (by simp only [Construct.countAll, Construct.count]; omega)
      (hunit'.mono (m := limits'.maxNestingDepth) (by omega))
    simp only [Construct.countAll, Construct.count] at hsize'
    obtain ⟨body, hbody, hbodyShows⟩ := hshows'.compactBody (by omega)
    refine ⟨t', body, ?_, hbody, ?_⟩
    · simp only [parseSource, hlex']
      exact ht'
    · rw [hbodyShows.construct_eq (by omega), hbare]

/-- The difference between the parentheses, with a line feed among its arguments. -/
theorem slice_of_difference : ∃ t t' body,
    parseSource "module m\nfunction g = |a| -> 1 - (a: f(\n2) - 3)" {} = .ok t ∧
    parseSource (bodySource "a: f(\n2) - 3") {} = .ok t' ∧ t'.CompactBody body ∧
    (t'.construct body).bare = (t.construct ⟨10⟩).bare := by
  have hparse : (parseSource "module m\nfunction g = |a| -> 1 - (a: f(\n2) - 3)" {}).toOption.map
      (fun t => decide (⟨2⟩ ∈ t.children Tree.root ∧ ⟨3⟩ ∈ t.children ⟨2⟩ ∧ ⟨11⟩ ∈ t.children ⟨3⟩ ∧
        ⟨10⟩ ∈ t.children ⟨11⟩ ∧ t.kind ⟨10⟩ = .binary .minus ∧
        (t.span ⟨10⟩).slice "module m\nfunction g = |a| -> 1 - (a: f(\n2) - 3)" =
          "a: f(\n2) - 3")) = some true := by
    decide +kernel
  cases h : parseSource "module m\nfunction g = |a| -> 1 - (a: f(\n2) - 3)" {} with
  | error e =>
    rw [h] at hparse
    cases hparse
  | ok t =>
    rw [h] at hparse
    obtain ⟨hdeclaration, hfunction, hvalue, hid, hkind, hslice⟩ :=
      of_decide_eq_true (Option.some.inj hparse)
    have hreaches : t.Reaches ⟨11⟩ := .child (.child (.child .root hdeclaration) hfunction) hvalue
    have hsize : (bodySource "a: f(\n2) - 3").utf8ByteSize = 37 := by decide +kernel
    have hclears : ({} : Limits).Clears (bodySource ((t.span ⟨10⟩).slice
        "module m\nfunction g = |a| -> 1 - (a: f(\n2) - 3)")).utf8ByteSize := by
      rw [hslice, hsize]
      exact ⟨by decide, by decide, by decide, by decide, by decide⟩
    obtain ⟨t', body, ht', hbody, hsame⟩ := slice_of_parse h hreaches hid
      (by rw [hkind]; rfl) (by simp [hkind, NodeKind.isFunction]) rfl rfl hclears
    rw [hslice] at ht'
    exact ⟨t, t', body, rfl, ht', hbody, hsame⟩

end GoloSyntax
