import GoloSyntax.Proofs.Grammar.Derivations
import GoloSyntax.Proofs.Grammar.Legible
import GoloSyntax.Proofs.Reading.Room
import GoloSyntax.Proofs.Shape.Atoms
import GoloSyntax.Proofs.Token.Numerals

/-! # What can be read

The tokens of a source make a tree exactly if they are a sentence and fair
(`exists_parse_iff`): the reader takes a derivation apart from left to right, and never loses one
by taking as much as it can.  What is fair is seen without reading: the integers fit their types,
and no `return` stands directly in front of a closing parenthesis.
-/
namespace GoloSyntax

/-- The lexemes in front of the end of input. -/
def TokenStream.words (stream : TokenStream) : List Lexeme := stream.lexemes.dropLast

variable {source : String} {limits limits' : Limits} {stream : TokenStream} {l : Lexeme}

/-! ## Words of a source -/

theorem cut_of_lex (hlex : lex source limits = .ok stream) (hl : l ∈ stream.words) :
    l = ⟨.endOfInput, none⟩ ∨ ∃ u v, Cut v u l := by
  have hmem : l ∈ stream.placed.map Prod.fst :=
    stream.lexemes_eq ▸ (List.dropLast_sublist _).subset hl
  obtain ⟨x, hx, rfl⟩ := List.mem_map.mp hmem
  exact (tiles_of_lex hlex).1.cut_of_mem x hx

theorem segmented_of_lex (hlex : lex source limits = .ok stream) : Segmented stream.words := by
  intro l hl
  rcases cut_of_lex hlex hl with rfl | ⟨u, v, hcut⟩
  · exact nofun
  · exact hcut.regular.identifier

theorem exists_literal?_of_lex (hlex : lex source limits = .ok stream) (hl : l ∈ stream.words) :
    (l.kind.isLiteral → ∃ value, l.literal? = some value) ↔ l.Fits := by
  rcases cut_of_lex hlex hl with rfl | ⟨u, v, hcut⟩
  · exact iff_of_true nofun nofun
  · by_cases hliteral : l.kind.isLiteral
    · rw [← hcut.exists_literal?_iff hliteral]
      exact ⟨fun h => h hliteral, fun h _ => h⟩
    · -- What is no literal is no number.
      refine iff_of_true (fun h => absurd h hliteral) fun text _ => ⟨fun hk => ?_, fun hk => ?_⟩ <;>
        exact absurd (hk ▸ rfl) hliteral

/-- The words of a source are fair if its integers fit and no `return` stands in front of a
closing parenthesis. -/
theorem fair_iff_of_lex (hlex : lex source limits = .ok stream) :
    Fair stream.words ↔ (∀ l ∈ stream.words, l.Fits) ∧ ∀ l l', [l, l'] <:+: stream.words →
      l.kind = .keyword .return_ → l'.kind ≠ .mark .rightParen := by
  constructor
  · intro h
    exact ⟨fun l hl => (exists_literal?_of_lex hlex hl).mp (h.literals l hl), h.returns⟩
  · rintro ⟨hfits, hreturns⟩
    exact ⟨fun l hl => (exists_literal?_of_lex hlex hl).mpr (hfits l hl), segmented_of_lex hlex,
      hreturns⟩

/-! ## Sentences -/

/-- The tokens of a source become a tree if and only if they are a sentence and fair, unless a
limit is to blame. -/
theorem exists_parse_iff (hlex : lex source limits = .ok stream)
    (hlimits : ∀ e, parse stream limits' = .error e → ¬ e.fault.isLimit) :
    (∃ t, parse stream limits' = .ok t) ↔ Sentence stream.words ∧ Fair stream.words := by
  obtain ⟨pieces, hpieces⟩ := exists_pieces_of_lex hlex
  have hwords : stream.words = pieces.map Piece.lexeme := by
    rw [TokenStream.words, hpieces.lexemes_eq, List.dropLast_concat]
  have hsegments := segmented_of_lex hlex
  rw [hwords] at hsegments ⊢
  constructor
  · rintro ⟨t, h⟩
    obtain ⟨r, xs, hreads, -⟩ := parse_sound h
    rw [hpieces.reader_eq (symbols_of_parse h)] at hreads
    have hr : r.lexemes = [] := by
      rw [Reader.lexemes, hreads.rest_eq_nil (by simpa [Reader.lexemes] using hpieces.kind)]
      rfl
    obtain ⟨w, hw, hderives⟩ := hreads.derives hsegments
    rw [hr, List.append_nil] at hw
    refine ⟨?_, hreads.fair hsegments rfl (by simp [Item.isReturn]) (hr ▸ .nil)⟩
    rw [show pieces.map Piece.lexeme = w from hw]
    exact hderives
  · rintro ⟨hsentence, hfair⟩
    obtain ⟨n, r, xs, hreads⟩ :=
      hsentence.readable (s := ⟨pieces, .start, Position.start.advance source.toList⟩) rfl hfair
    rw [← hpieces.reader_eq (.refl _)] at hreads
    exact parse_of_reads hpieces.hasTexts hreads hlimits

/-- A source that can be read is a sentence whose integers fit, and such a sentence can be read,
unless a limit is to blame. -/
theorem parseSource_sentences (hlex : lex source limits = .ok stream)
    (hlimits : ∀ e, parseSource source limits = .error e → ¬ e.fault.isLimit) :
    ((∃ t, parseSource source limits = .ok t) →
      Sentence stream.words ∧ ∀ l ∈ stream.words, l.Fits) ∧
    (Sentence stream.words → (∀ l ∈ stream.words, l.Fits) →
      (∀ l l', [l, l'] <:+: stream.words → l.kind = .keyword .return_ →
        l'.kind ≠ .mark .rightParen) →
      ∃ t, parseSource source limits = .ok t) := by
  have hparse : parseSource source limits = parse stream limits := by
    simp only [parseSource, hlex]
  rw [hparse] at hlimits ⊢
  rw [exists_parse_iff hlex hlimits, fair_iff_of_lex hlex]
  exact ⟨fun ⟨hsentence, hfits, _⟩ => ⟨hsentence, hfits⟩,
    fun hsentence hfits hreturns => ⟨hsentence, hfits, hreturns⟩⟩

/-- `return` with and without a value, and calls that belong to the function behind the arrow. -/
theorem parseSource_sentences_returns : ∃ stream,
    lex "module m\nfunction f = \x7b return\n return -> f(1)(2_L) \x7d" {} = .ok stream ∧
    Sentence stream.words ∧ ∀ l ∈ stream.words, l.Fits := by
  have hlexes : (lex "module m\nfunction f = \x7b return\n return -> f(1)(2_L) \x7d"
      {}).toOption.isSome = true := by
    decide +kernel
  have hparses : (parseSource "module m\nfunction f = \x7b return\n return -> f(1)(2_L) \x7d"
      {}).toOption.isSome = true := by
    decide +kernel
  cases hlex : lex "module m\nfunction f = \x7b return\n return -> f(1)(2_L) \x7d" {} with
  | error e =>
    rw [hlex] at hlexes
    cases hlexes
  | ok stream =>
    cases h : parseSource "module m\nfunction f = \x7b return\n return -> f(1)(2_L) \x7d" {} with
    | error e =>
      rw [h] at hparses
      cases hparses
    | ok t =>
      obtain ⟨hsentence, hfits⟩ := (parseSource_sentences hlex (by simp [h])).1 ⟨t, h⟩
      exact ⟨stream, rfl, hsentence, hfits⟩

/-! ## Empty parameter lists

The documentation of the language asks for a parameter between two bars; the reader does not. -/

/-- The table as it is documented, without the empty parameter list. -/
def Documented : Rules := fun phrase body kind =>
  Alternative Naming.plain phrase body kind ∧ body ≠ [.sign .pipe, .sign .pipe]

/-- Bars stand in pairs, with something between them. -/
inductive Barred : List Lexeme → Prop where
  | nil : Barred []
  | other {l : Lexeme} {w : List Lexeme} (hl : l.kind ≠ .mark .pipe) (h : Barred w) : Barred (l :: w)
  | between {l l' : Lexeme} {u w : List Lexeme} (hl : l.kind = .mark .pipe) (hne : u ≠ [])
      (hu : ∀ x ∈ u, x.kind ≠ .mark .pipe) (hl' : l'.kind = .mark .pipe) (h : Barred w) :
    Barred (l :: (u ++ l' :: w))

namespace Barred

variable {u v w : List Lexeme}

theorem append (hu : Barred u) (hv : Barred v) : Barred (u ++ v) := by
  induction hu with
  | nil => exact hv
  | other hl _ ih => exact .other hl ih
  | between hl hne hu hl' _ ih =>
    rw [List.cons_append, List.append_assoc]
    exact .between hl hne hu hl' ih

theorem of_plain (hu : ∀ l ∈ u, l.kind ≠ .mark .pipe) : Barred u := by
  induction u with
  | nil => exact .nil
  | cons l u ih =>
    obtain ⟨hl, hu⟩ := List.forall_mem_cons.mp hu
    exact .other hl (ih hu)

theorem of_cons {l : Lexeme} (hl : l.kind ≠ .mark .pipe) (h : Barred (l :: w)) : Barred w := by
  cases h with
  | other _ h => exact h
  | between hl' => exact absurd hl' hl

/-- A bar cannot directly follow the one that it closes. -/
theorem not_cons_cons {l l' : Lexeme} (hl : l.kind = .mark .pipe) (hl' : l'.kind = .mark .pipe) :
    ¬ Barred (l :: l' :: w) := by
  generalize heq : l :: l' :: w = w'
  intro h
  cases h with
  | nil => cases heq
  | other hne h =>
    obtain ⟨rfl, rfl⟩ := List.cons.inj heq
    exact hne hl
  | @between x x' u w hx hne hu =>
    obtain ⟨y, u, rfl⟩ := List.exists_cons_of_ne_nil hne
    obtain ⟨-, heq⟩ := List.cons.inj heq
    obtain ⟨rfl, -⟩ := List.cons.inj heq
    exact hu _ List.mem_cons_self hl'

/-- The first bar is not followed by another. -/
theorem not_append {l l' : Lexeme} (hu : ∀ x ∈ u, x.kind ≠ .mark .pipe) (hl : l.kind = .mark .pipe)
    (hl' : l'.kind = .mark .pipe) : ¬ Barred (u ++ l :: l' :: w) := by
  induction u with
  | nil => exact not_cons_cons hl hl'
  | cons x u ih =>
    obtain ⟨hx, hu⟩ := List.forall_mem_cons.mp hu
    exact fun h => ih hu (h.of_cons hx)

end Barred

/-- What stands between two bars is no bar; any other phrase has pairs of them. -/
def Phrase.Bars : Phrase → List Lexeme → Prop
  | .parameter, u | .parameters _, u => u ≠ [] ∧ ∀ l ∈ u, l.kind ≠ .mark .pipe
  | _, u => Barred u

theorem Phrase.Bars.barred {phrase : Phrase} {u : List Lexeme} (h : phrase.Bars u) : Barred u := by
  cases phrase with
  | parameter | parameters => exact .of_plain h.2
  | _ => exact h

/-- Items without a bar are spelled with pairs of them. -/
theorem Spells.barred {items : List Item} {w : List Lexeme} (h : Spells Phrase.Bars items w)
    (hitems : ∀ kind, .token kind ∈ items → kind ≠ .mark .pipe) : Barred w := by
  induction h with
  | nil => exact .nil
  | token _ ih =>
    exact .other (hitems _ List.mem_cons_self) (ih fun k hk => hitems k (List.mem_cons_of_mem _ hk))
  | newlines hns _ ih =>
    refine .append (.of_plain fun l hl => ?_) (ih fun k hk => hitems k (List.mem_cons_of_mem _ hk))
    rw [hns l hl]
    exact nofun
  | identifier _ ih =>
    exact .other nofun (ih fun k hk => hitems k (List.mem_cons_of_mem _ hk))
  | qualified hu _ ih =>
    refine .append (.of_plain fun l hl => ?_) (ih fun k hk => hitems k (List.mem_cons_of_mem _ hk))
    rcases hu.kinds l hl with hk | hk <;> simp [hk]
  | @literal _ l _ _ hl _ ih =>
    refine .other (fun hk => ?_) (ih fun k hk => hitems k (List.mem_cons_of_mem _ hk))
    rw [hk] at hl
    cases hl
  | part hu _ ih =>
    exact hu.barred.append (ih fun k hk => hitems k (List.mem_cons_of_mem _ hk))

theorem Documented.bars {phrase : Phrase} {body : List Item} {kind : Option NodeKind}
    {u : List Lexeme} (alt : Documented phrase body kind) (hu : Spells Phrase.Bars body u) :
    phrase.Bars u := by
  obtain ⟨alt, hbody⟩ := alt
  cases alt with
  | parameterListEmpty => exact absurd rfl hbody
  | parameterList varargs =>
    obtain ⟨l, u, rfl, hl, hu⟩ := Spells.token_iff.mp hu
    obtain ⟨v, u, rfl, hv, hu⟩ := Spells.part_iff.mp hu
    obtain ⟨l', u, rfl, hl', hu⟩ := Spells.token_iff.mp hu
    obtain rfl := Spells.nil_iff.mp hu
    exact .between hl hv.1 hv.2 hl' .nil
  | parameter name =>
    obtain ⟨u, rfl, hrest⟩ := Spells.identifier_iff.mp hu
    obtain rfl := Spells.nil_iff.mp hrest
    exact ⟨List.cons_ne_nil _ _, List.forall_mem_singleton.mpr nofun⟩
  | parametersLast =>
    have hparameter : Phrase.Bars .parameter u := Spells.single_iff.mp hu
    exact hparameter
  | parametersVarargs =>
    obtain ⟨v, u, rfl, hv, hu⟩ := Spells.part_iff.mp hu
    obtain ⟨l, u, rfl, hl, hu⟩ := Spells.token_iff.mp hu
    obtain rfl := Spells.nil_iff.mp hu
    refine ⟨by simp, List.forall_mem_append.mpr ⟨hv.2, List.forall_mem_singleton.mpr ?_⟩⟩
    simp [hl]
  | parametersMore varargs =>
    obtain ⟨v, u, rfl, hv, hu⟩ := Spells.part_iff.mp hu
    obtain ⟨l, u, rfl, hl, hu⟩ := Spells.token_iff.mp hu
    refine ⟨by simp, List.forall_mem_append.mpr ⟨hv.2, List.forall_mem_cons.mpr ⟨?_, ?_⟩⟩⟩
    · simp [hl]
    · exact (Spells.single_iff.mp hu).2
  | unary hop =>
    refine hu.barred fun k hk => ?_
    obtain rfl : k = _ := by simpa using hk
    rintro rfl
    cases hop
  | operandsMore hop hmin =>
    refine hu.barred fun k hk => ?_
    obtain rfl : k = _ := by simpa using hk
    rintro rfl
    cases hop
  | _ => exact hu.barred (by simp)

/-- A function with an empty parameter list becomes a tree, although the documented table does not
have it. -/
theorem parseSource_empty_parameters : ∃ stream t,
    lex "module m\nfunction f = || -> 1" {} = .ok stream ∧
    parseSource "module m\nfunction f = || -> 1" {} = .ok t ∧
    ¬ Derives Documented [.part .compilationUnit] stream.words := by
  have hlexes : (lex "module m\nfunction f = || -> 1" {}).toOption.map
      (fun stream => decide (stream.words = [⟨.keyword .module_, none⟩, ⟨.identifier, some "m"⟩,
        ⟨.newline, none⟩, ⟨.keyword .function, none⟩, ⟨.identifier, some "f"⟩,
        ⟨.mark .assign, none⟩] ++ ⟨.mark .pipe, none⟩ :: ⟨.mark .pipe, none⟩ ::
        [⟨.mark .arrow, none⟩, ⟨.number .integer, some "1"⟩])) = some true := by
    decide +kernel
  have hparses : (parseSource "module m\nfunction f = || -> 1" {}).toOption.isSome = true := by
    decide +kernel
  cases hlex : lex "module m\nfunction f = || -> 1" {} with
  | error e =>
    rw [hlex] at hlexes
    cases hlexes
  | ok stream =>
    cases h : parseSource "module m\nfunction f = || -> 1" {} with
    | error e =>
      rw [h] at hparses
      cases hparses
    | ok t =>
      refine ⟨stream, t, rfl, rfl, fun hderives => ?_⟩
      rw [hlex] at hlexes
      have hwords := of_decide_eq_true (Option.some.inj hlexes)
      have hbarred : Barred stream.words :=
        Spells.single_iff.mp (hderives.spells fun alt hu => alt.bars hu)
      rw [hwords] at hbarred
      exact Barred.not_append (by decide) rfl rfl hbarred

end GoloSyntax
