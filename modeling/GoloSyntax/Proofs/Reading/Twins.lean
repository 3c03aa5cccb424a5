import GoloSyntax.Proofs.Reading.Parse
import GoloSyntax.Proofs.Tree.Alike
import Mathlib.Data.List.TakeWhile

/-! # Reading does not look at places

Two token lists may hold the same lexemes at different places.  Two runs of one program on
them stay side by side (`Twin`): what is left to read corresponds token by token, and the
trees are alike.  So the runs end alike (`Agree`): with the same answer, or with the same
fault at tokens with the same index (`agree_run`).

A text that a token refers to must be there from the start (`TokenStream.Resolves`); a number
without a text could come to mean something while reading enters new texts.
-/
namespace GoloSyntax

namespace Reading

/-- Two tokens with the same lexeme, each with its own table of texts. -/
structure SameToken (symbols symbols' : SymbolTable) (t t' : Token) : Prop where
  lexeme : t.lexeme symbols = t'.lexeme symbols'
  text : t.HasText symbols
  text' : t'.HasText symbols'

theorem SameToken.kind {symbols symbols' : SymbolTable} {t t' : Token}
    (h : SameToken symbols symbols' t t') : t.kind = t'.kind :=
  congrArg Lexeme.kind h.lexeme

theorem SameToken.within {symbols₁ symbols₂ symbols₁' symbols₂' : SymbolTable} {t t' : Token}
    (h : SameToken symbols₁ symbols₁' t t') (h₁ : symbols₁.Within symbols₂)
    (h₂ : symbols₁'.Within symbols₂') : SameToken symbols₂ symbols₂' t t' where
  lexeme := by rw [Token.lexeme_of_within h.text h₁, Token.lexeme_of_within h.text' h₂, h.lexeme]
  text := h.text.within h₁
  text' := h.text'.within h₂

/-- The place where the token with an index starts, the one behind all others included. -/
def startAt (all : List Token) (endToken : Token) (i : Nat) : Position :=
  (all[i]?.getD endToken).span.start

/-- Two runs, over `all` and over `all'`, that have read as many tokens and built the same
nodes. -/
structure Twin (c c' : Context) (all all' : List Token) (s s' : State) : Prop where
  left : s.rest <:+ all
  left' : s'.rest <:+ all'
  rest : List.Forall₂ (SameToken s.tree.symbols s'.tree.symbols) s.rest s'.rest
  endToken : SameToken s.tree.symbols s'.tree.symbols c.endToken c'.endToken
  tree : s.tree.Alike s'.tree

/-- Two outcomes that differ in places only. -/
def Agree (c c' : Context) (all all' : List Token) {α : Type} :
    Except ParseError (α × State) → Except ParseError (α × State) → Prop
  | .ok (a, s), .ok (a', s') => a = a' ∧ Twin c c' all all' s s'
  | .error e, .error e' => e.fault = e'.fault ∧ ∃ i ≤ all.length,
      e.position = startAt all c.endToken i ∧ e'.position = startAt all' c'.endToken i
  | _, _ => False

variable {c c' : Context} {all all' : List Token} {s s' : State} {p p' : Position} {α β σ : Type}

theorem Twin.current (h : Twin c c' all all' s s') :
    SameToken s.tree.symbols s'.tree.symbols (s.current c) (s'.current c') := by
  obtain ⟨rest, lastEnd, tree⟩ := s
  obtain ⟨rest', lastEnd', tree'⟩ := s'
  cases h.rest with
  | nil => exact h.endToken
  | cons htoken _ => exact htoken

theorem Twin.behind (h : Twin c c' all all' s s') :
    ((s.rest.drop 1).head?.getD c.endToken).kind =
      ((s'.rest.drop 1).head?.getD c'.endToken).kind := by
  obtain ⟨rest, lastEnd, tree⟩ := s
  obtain ⟨rest', lastEnd', tree'⟩ := s'
  cases h.rest with
  | nil => exact h.endToken.kind
  | cons _ hrest =>
    cases hrest with
    | nil => exact h.endToken.kind
    | cons htoken _ => exact htoken.kind

/-- The next token has the index of how much has been read. -/
theorem getElem?_of_suffix {rest : List Token} (h : rest <:+ all) :
    all[all.length - rest.length]? = rest.head? := by
  obtain ⟨read, rfl⟩ := h
  have hlength : (read ++ rest).length - rest.length = read.length := by simp
  rw [hlength, List.getElem?_append_right (Nat.le_refl _), Nat.sub_self, List.head?_eq_getElem?]

theorem startAt_of_suffix {rest : List Token} (h : rest <:+ all) (endToken : Token) :
    startAt all endToken (all.length - rest.length) = (rest.head?.getD endToken).span.start := by
  rw [startAt, getElem?_of_suffix h]

/-- Runs that fail side by side fail at the same token. -/
theorem Twin.fail (hall : all.length = all'.length) (h : Twin c c' all all' s s')
    (fault : ParseFault) :
    Agree c c' all all' (s.fail c fault : Except ParseError (α × State)) (s'.fail c' fault) := by
  refine ⟨rfl, all.length - s.rest.length, Nat.sub_le _ _,
    (startAt_of_suffix h.left c.endToken).symm, ?_⟩
  rw [h.rest.length_eq, hall]
  exact (startAt_of_suffix h.left' c'.endToken).symm

/-- What follows two runs that agree agrees if it does for every answer. -/
theorem Agree.bind {x x' : Except ParseError (α × State)}
    {f f' : α × State → Except ParseError (β × State)} (hx : Agree c c' all all' x x')
    (hf : ∀ a {s s'}, Twin c c' all all' s s' → Agree c c' all all' (f (a, s)) (f' (a, s'))) :
    Agree c c' all all' (x.bind f) (x'.bind f') := by
  rcases x with e | ⟨a, s⟩ <;> rcases x' with e' | ⟨a', s'⟩
  · exact hx
  · exact hx.elim
  · exact hx.elim
  · obtain ⟨rfl, h⟩ := hx
    exact hf a h

/-- Runs stay side by side if they go on with corresponding tokens and alike trees. -/
theorem Twin.grow {rest rest' : List Token} {lastEnd lastEnd' : Position} {tree tree' : Tree}
    (h : Twin c c' all all' s s') (hleft : rest <:+ s.rest) (hleft' : rest' <:+ s'.rest)
    (hrest : List.Forall₂ (SameToken s.tree.symbols s'.tree.symbols) rest rest')
    (hsymbols : s.tree.symbols.Within tree.symbols)
    (hsymbols' : s'.tree.symbols.Within tree'.symbols) (htree : tree.Alike tree') :
    Twin c c' all all' ⟨rest, lastEnd, tree⟩ ⟨rest', lastEnd', tree'⟩ where
  left := hleft.trans h.left
  left' := hleft'.trans h.left'
  rest := hrest.imp fun _ _ ht => ht.within hsymbols hsymbols'
  endToken := h.endToken.within hsymbols hsymbols'
  tree := htree

/-- Only the tree changes. -/
theorem Twin.build {lastEnd lastEnd' : Position} {tree tree' : Tree}
    (h : Twin c c' all all' s s') (hsymbols : s.tree.symbols.Within tree.symbols)
    (hsymbols' : s'.tree.symbols.Within tree'.symbols) (htree : tree.Alike tree') :
    Twin c c' all all' ⟨s.rest, lastEnd, tree⟩ ⟨s'.rest, lastEnd', tree'⟩ :=
  h.grow List.suffix_rfl List.suffix_rfl h.rest hsymbols hsymbols' htree

theorem Twin.advance (h : Twin c c' all all' s s') :
    Twin c c' all all' s.advance s'.advance := by
  obtain ⟨rest, lastEnd, tree⟩ := s
  obtain ⟨rest', lastEnd', tree'⟩ := s'
  cases hr : h.rest with
  | nil => exact h
  | cons htoken hrest =>
    exact h.grow (List.suffix_cons _ _) (List.suffix_cons _ _) hrest (.refl _) (.refl _) h.tree

theorem forall₂_dropWhile {γ δ : Type} {R : γ → δ → Prop} {q : γ → Bool} {q' : δ → Bool}
    {as : List γ} {bs : List δ} (h : List.Forall₂ R as bs) (hq : ∀ a b, R a b → q a = q' b) :
    List.Forall₂ R (as.dropWhile q) (bs.dropWhile q') := by
  induction h with
  | nil => exact .nil
  | cons hab hrest ih =>
    rw [List.dropWhile_cons, List.dropWhile_cons, hq _ _ hab]
    split
    · exact ih
    · exact .cons hab hrest

theorem forall₂_takeWhile {γ δ : Type} {R : γ → δ → Prop} {q : γ → Bool} {q' : δ → Bool}
    {as : List γ} {bs : List δ} (h : List.Forall₂ R as bs) (hq : ∀ a b, R a b → q a = q' b) :
    List.Forall₂ R (as.takeWhile q) (bs.takeWhile q') := by
  induction h with
  | nil => exact .nil
  | cons hab hrest ih =>
    rw [List.takeWhile_cons, List.takeWhile_cons, hq _ _ hab]
    split
    · exact .cons hab ih
    · exact .nil

section Run

variable (hdepth : c.maxDepth = c'.maxDepth) (hnodes : c.maxNodes = c'.maxNodes)
  (hcount : c.tokenCount = c'.tokenCount) (hall : all.length = all'.length)
include hall

theorem agree_iterate {round round' : σ → State → Except ParseError (Round σ β × State)}
    (hround : ∀ x {s s'}, Twin c c' all all' s s' → Agree c c' all all' (round x s) (round' x s'))
    (n : Nat) (x : σ) (h : Twin c c' all all' s s') :
    Agree c c' all all' (iterate c round n x s) (iterate c' round' n x s') := by
  induction n generalizing x s s' with
  | zero =>
    simp only [iterate, h.current.kind]
    exact h.fail hall _
  | succ n ih =>
    have hxs := hround x h
    simp only [iterate]
    revert hxs
    rcases round x s with e | ⟨y | y, s₁⟩ <;> rcases round' x s' with e' | ⟨y' | y', s₁'⟩ <;>
      intro hxs
    case error.error => exact hxs
    case ok.again.ok.again =>
      obtain ⟨hy, h₁⟩ := hxs
      obtain rfl := Round.again.inj hy
      exact ih y h₁
    case ok.stop.ok.stop =>
      obtain ⟨hy, h₁⟩ := hxs
      exact ⟨Round.stop.inj hy, h₁⟩
    all_goals first | exact hxs.elim | cases hxs.1

include hnodes

theorem agree_perform (h : Twin c c' all all' s s') (action : Step) :
    Agree c c' all all' (perform c p action s) (perform c' p' action s') := by
  obtain ⟨rest, lastEnd, tree⟩ := s
  obtain ⟨rest', lastEnd', tree'⟩ := s'
  have hcurrent := h.current
  cases action with
  | look => exact ⟨hcurrent.lexeme, h⟩
  | lookBehind => exact ⟨h.behind, h⟩
  | advance => exact ⟨rfl, h.advance⟩
  | skipNewlines =>
    refine ⟨rfl, h.grow (List.dropWhile_suffix _) (List.dropWhile_suffix _) ?_ (.refl _) (.refl _)
      h.tree⟩
    exact forall₂_dropWhile h.rest fun t t' ht => by rw [ht.kind]
  | openNode kind =>
    have hsize : tree.size = tree'.size := h.tree.size
    simp only [perform, ← hsize, ← hnodes]
    split
    · exact h.fail hall _
    · obtain ⟨hid, hpush⟩ := h.tree.push kind (.empty p) (.empty p')
      exact ⟨hid, h.build (.refl _) (.refl _) hpush⟩
  | closeNode id => exact ⟨rfl, h.build (.refl _) (.refl _) (h.tree.setSpan id _ _)⟩
  | setKind id kind => exact ⟨rfl, h.build (.refl _) (.refl _) (h.tree.setKind id kind)⟩
  | attach parent child =>
    refine ⟨rfl, h.build ?_ ?_ (h.tree.attach parent child)⟩
    · rw [symbols_attach]
      exact .refl _
    · rw [symbols_attach]
      exact .refl _
  | intern text =>
    exact ⟨rfl, h.build (SymbolTable.within_intern _ _) (SymbolTable.within_intern _ _) h.tree⟩
  | reject expected =>
    have hfault : ParseFault.unexpected expected (State.current c ⟨rest, lastEnd, tree⟩).kind
        ((State.current c ⟨rest, lastEnd, tree⟩).text? tree.symbols) =
        .unexpected expected (State.current c' ⟨rest', lastEnd', tree'⟩).kind
          ((State.current c' ⟨rest', lastEnd', tree'⟩).text? tree'.symbols) := by
      rw [hcurrent.kind]
      exact congrArg _ (congrArg Lexeme.text hcurrent.lexeme)
    simp only [perform, hfault]
    exact h.fail hall _
  | refuseLiteral fault => exact h.fail hall fault

include hcount

variable {enter enter' : Rule → Position → State → Except ParseError (NodeId × State)}

/-- If calls agree, runs do. -/
theorem agree_run (henter : ∀ rule p p' {s s'}, Twin c c' all all' s s' →
      Agree c c' all all' (enter rule p s) (enter' rule p' s'))
    (m : Reading α) (h : Twin c c' all all' s s') :
    Agree c c' all all' (run c enter m p s) (run c' enter' m p' s') := by
  induction m generalizing p p' s s' with
  | done answer => exact ⟨rfl, h⟩
  | step action next ih =>
    rw [run_step, run_step]
    exact (agree_perform hnodes hall h action).bind fun x _ _ h => ih x h
  | call rule next ih =>
    rw [run_call, run_call]
    exact (henter rule p p' h).bind fun id _ _ h => ih id h
  | frame body next ihbody ih =>
    rw [run_frame, run_frame]
    exact (ihbody h).bind fun x _ _ h => ih x h
  | «repeat» round state next ihround ih =>
    rw [run_repeat, run_repeat, ← hcount]
    exact (agree_iterate hall (fun x _ _ hx => ihround x hx) _ state h).bind fun x _ _ h => ih x h

include hdepth

/-- Every rule agrees with itself, whatever the number of levels left. -/
theorem agree_enter (levels : Nat) (rule : Rule) (p p' : Position)
    (h : Twin c c' all all' s s') :
    Agree c c' all all' (Rule.enter c levels rule p s) (Rule.enter c' levels rule p' s') := by
  induction levels generalizing rule p p' s s' with
  | zero =>
    simp only [Rule.enter, hdepth]
    exact h.fail hall _
  | succ levels ih =>
    exact agree_run hnodes hcount hall (fun rule p p' {_ _} h => ih rule p p' h) rule.reading h

end Run

end Reading

/-! ## Token streams -/

namespace TokenStream

/-- Where the token with an index starts.  Behind the last token stands the end of input that
reading supplies. -/
def startOf (s : TokenStream) (i : Nat) : Position :=
  (s.tokens[i]?.map (·.span.start)).getD ((s.tokens.back?.map (·.span.stop)).getD .start)

end TokenStream

/-- What two token streams are read as differs in places only: the trees are alike, or the
faults are the same and stand at tokens with the same index. -/
def SameOutcome (stream stream' : TokenStream) :
    Except ParseError Tree → Except ParseError Tree → Prop
  | .ok t, .ok t' => t.Alike t'
  | .error e, .error e' => e.fault = e'.fault ∧ ∃ i ≤ stream.size,
      e.position = stream.startOf i ∧ e'.position = stream'.startOf i
  | _, _ => False

section Streams

open Reading

/-- The place of a token in front of the end of input, or of that end. -/
theorem startAt_splitAtEnd (stream : TokenStream) {i : Nat}
    (hi : i ≤ (splitAtEnd stream.tokens).1.length) :
    startAt (splitAtEnd stream.tokens).1 (splitAtEnd stream.tokens).2 i = stream.startOf i := by
  rw [startAt, getD_splitAtEnd _ hi, TokenStream.startOf]
  cases stream.tokens[i]? <;> rfl

variable {stream stream' : TokenStream}

theorem sameToken_of_lexemes (h : stream.lexemes = stream'.lexemes) (ht : stream.Resolves)
    (ht' : stream'.Resolves) : List.Forall₂ (SameToken stream.symbols stream'.symbols)
      stream.tokens.toList stream'.tokens.toList := by
  have hlexemes := List.forall₂_map_right_iff.mp (List.forall₂_map_left_iff.mp
    ((List.forall₂_eq_eq_eq (α := Lexeme)).symm ▸ h : List.Forall₂ Eq stream.lexemes stream'.lexemes))
  exact Tree.forall₂_of_mem hlexemes fun t hmem t' hmem' hl =>
    ⟨hl, ht t (Array.mem_toList_iff.mp hmem), ht' t' (Array.mem_toList_iff.mp hmem')⟩

/-- Reading depends on the lexemes of a token stream only, not on their places. -/
theorem sameOutcome_of_lexemes (h : stream.lexemes = stream'.lexemes) (ht : stream.Resolves)
    (ht' : stream'.Resolves) (limits : Limits) :
    SameOutcome stream stream' (parse stream limits) (parse stream' limits) := by
  have htokens := sameToken_of_lexemes h ht ht'
  have hkind : ∀ t t', SameToken stream.symbols stream'.symbols t t' →
      (t.kind != .endOfInput) = (t'.kind != .endOfInput) := fun t t' hsame => by rw [hsame.kind]
  have hrest := forall₂_takeWhile htokens hkind
  have hend : SameToken stream.symbols stream'.symbols (splitAtEnd stream.tokens).2
      (splitAtEnd stream'.tokens).2 := by
    rw [splitAtEnd_eq, splitAtEnd_eq]
    have hbehind := forall₂_dropWhile htokens hkind
    revert hbehind
    generalize stream.tokens.toList.dropWhile (·.kind != .endOfInput) = behind
    generalize stream'.tokens.toList.dropWhile (·.kind != .endOfInput) = behind'
    rintro (_ | ⟨hsame, -⟩)
    · exact ⟨rfl, nofun, nofun⟩
    · exact hsame
  have hcount : stream.size = stream'.size := htokens.length_eq
  have htwin : Twin (stream.context limits) (stream'.context limits) (splitAtEnd stream.tokens).1
      (splitAtEnd stream'.tokens).1
      ⟨(splitAtEnd stream.tokens).1, .start, .ofSymbols stream.symbols⟩
      ⟨(splitAtEnd stream'.tokens).1, .start, .ofSymbols stream'.symbols⟩ :=
    ⟨List.suffix_rfl, List.suffix_rfl, hrest, hend, .refl (.ofSymbols stream.symbols)⟩
  have hnodes : (stream.context limits).maxNodes = (stream'.context limits).maxNodes := rfl
  have hdepth : (stream.context limits).maxDepth = (stream'.context limits).maxDepth := rfl
  have hlength : (splitAtEnd stream.tokens).1.length = (splitAtEnd stream'.tokens).1.length :=
    hrest.length_eq
  have hagree := agree_enter hdepth hnodes hcount hlength limits.maxNestingDepth .compilationUnit
    .start .start htwin
  rw [parse_eq, parse_eq]
  revert hagree
  rcases Rule.enter (stream.context limits) limits.maxNestingDepth .compilationUnit .start _
    with e | ⟨id, s⟩ <;>
  rcases Rule.enter (stream'.context limits) limits.maxNestingDepth .compilationUnit .start _
    with e' | ⟨id', s'⟩ <;> intro hagree
  · obtain ⟨hfault, i, hi, hp, hp'⟩ := hagree
    refine ⟨hfault, i, Nat.le_trans hi (length_splitAtEnd _), hp.trans ?_, hp'.trans ?_⟩
    · exact startAt_splitAtEnd stream hi
    · exact startAt_splitAtEnd stream' (hrest.length_eq ▸ hi)
  · exact hagree.elim
  · exact hagree.elim
  · obtain ⟨rfl, hs⟩ := hagree
    exact hs.tree.setSpan id _ _

end Streams

end GoloSyntax
