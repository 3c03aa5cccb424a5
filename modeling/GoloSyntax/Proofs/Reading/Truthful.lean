import GoloSyntax.Proofs.Reading.ForkRules
import GoloSyntax.Proofs.Reading.Room
import GoloSyntax.Proofs.Reading.Source
import GoloSyntax.Proofs.Reading.Truncation

/-! # Questions are truthful

A token stream is not read further than some token, and the fault lists what was wanted in its
place.  Put anything that is listed there, and whatever follows it the stream is read further;
there are two kinds of question that mislead, and `Misleading` says which (`truthful_of_lex`).
-/
namespace GoloSyntax

namespace Reading

namespace Fork

variable {F : Fork} {s s' : State}

/-- Two streams that part are read alike up to there. -/
theorem abreast_compilationUnit (n n' : Nat) (p p' : Position)
    (h : F.Together none s s' ∨ F.ours.Stands s ∧ F.theirs.Stands s') :
    F.Abreast F.parting.Honest (fun _ _ => True) F.parting.Agrees
      (Rule.enter F.ours.context n .compilationUnit p s)
      (Rule.enter F.theirs.context n' .compilationUnit p' s') := by
  cases n with
  | zero => exact .ours (.of_limit rfl)
  | succ n =>
    cases n' with
    | zero => exact .theirs (.of_limit rfl)
    | succ n' =>
      rcases h with h | ⟨hs, hs'⟩
      · exact abreast_run (fun rule p p' {o s s'} hrule h =>
          abreast_enter (fun rule hrule => Parting.fits hrule) n n' rule p p' hrule h)
          Grammar.compilationUnit Parting.fits_compilationUnit h
      · have hmodule : Insists Grammar.compilationUnit [.token (.keyword .module_)] :=
          .skipNewlines (.bind (.child .moduleDeclaration (by simp)))
        exact abreast_of_meets hs hs' (hmodule.meets Parting.lenient_agrees)

/-- Where our run asks for something at the token at which the lists part, it is honest or the
other run goes on. -/
theorem honest_of_abreast {e : ParseError} {x' : Except ParseError (NodeId × State)}
    (h : F.Abreast F.parting.Honest (fun _ _ => True) F.parting.Agrees (.error e) x')
    (hasks : e.fault.expected ≠ [])
    (hplace : ∀ left : List Token, left <:+ F.ours.all → left.length ≠ F.ours.rest.length →
      e.position ≠ (left.head?.getD F.ours.context.endToken).span.start) :
    F.parting.Honest e.fault.expected ∨ (∃ r, x' = .ok r) ∨ F.theirs.Strays x' := by
  cases h with
  | parted v v' hv hv' hagrees =>
    cases hv with
    | refuses hv =>
      cases hv' with
      | passes => exact .inr (.inl ⟨_, rfl⟩)
      | refuses => exact .inl (hv ▸ hagrees)
  -- A run that has failed earlier or later has failed at another token.
  | early hleft hlt heq => exact absurd heq (hplace _ hleft (Nat.ne_of_gt hlt))
  | settled hv hhonest =>
    cases hv with
    | refuses hv => exact .inl (hv ▸ hhonest)
  | ours hours =>
    cases hours with
    | behind hleft hlt heq => exact absurd heq (hplace _ hleft (Nat.ne_of_lt hlt))
    | aside hnone => exact absurd hnone hasks
  | theirs htheirs => exact .inr (.inr htheirs)

end Fork

end Reading

open Reading

/-! ## Tokens of a source -/

theorem Cut.named {u v : List Char} {l : Lexeme} (h : Cut v u l) : l.Named := by
  intro hkind
  cases h with
  | word =>
    rw [Lexeme.ofWord] at hkind ⊢
    split at hkind <;> simp_all
  | _ => simp_all

/-- What a fault says that asks for another token. -/
theorem ParseFault.Concerns.unexpected_of_kind {fault : ParseFault} {x : Lexeme}
    (h : fault.Concerns x)
    (hkind : fault.kind = .unexpectedToken ∨ fault.kind = .unexpectedEndOfInput) :
    ∃ expected, fault = .unexpected expected x.kind x.text ∧ expected ≠ [] ∧
      expected.all Expected.isSymbolic := by
  cases h with
  | unexpected hne hsymbolic => exact ⟨_, rfl, hne, hsymbolic⟩
  | _ => simp [ParseFault.kind] at hkind

/-- The token that is found is not misleading. -/
theorem not_misleading_self {before : Option TokenKind} {found : TokenKind}
    {expected : List Expected} : ¬ Misleading before found expected found := by
  rintro (⟨-, hfound⟩ | ⟨_, -, -, hfound, -, -⟩)
  · cases hfound
  · cases hfound

/-- What is asked for stands for no value, and a name comes with its text. -/
theorem Expected.Admits.plain {w : Expected} (hw : w.isSymbolic) {x : Lexeme} (h : w.Admits x) :
    x.Named ∧ x.kind.spellsValue = false := by
  cases w with
  | token kind =>
    rw [Expected.admits_token] at h
    rw [Expected.isSymbolic_token] at hw
    rw [Lexeme.Named, h]
    cases kind <;> simp_all [TokenKind.isSymbolic, TokenKind.spellsValue]
  | name role =>
    rw [Expected.admits_name, Lexeme.isName, Bool.and_eq_true, decide_eq_true_eq] at h
    exact ⟨fun _ => h.2, by rw [h.1]; rfl⟩
  | expression =>
    rw [Expected.admits_expression] at h
    rw [Lexeme.Named, h]
    exact ⟨by simp, rfl⟩

/-! ## Texts -/

theorem Keyword.spelling_ne (word : Keyword) (sign : Mark) : word.spelling ≠ sign.spelling := by
  intro heq
  have hnone : Mark.ofSpelling? word.spelling.toList = none := by cases word <;> decide
  rw [heq, Mark.ofSpelling?_spelling] at hnone
  cases hnone

theorem quote_inj {a b : String} (h : "'" ++ a ++ "'" = "'" ++ b ++ "'") : a = b := by
  have hlist := congrArg String.toList h
  simp only [String.toList_append] at hlist
  exact String.toList_inj.mp (List.append_cancel_left (List.append_cancel_right hlist))

theorem quote_ne {text other : String} (h : other.toList.head? ≠ some '\'') :
    "'" ++ text ++ "'" ≠ other := by
  rintro rfl
  simp [String.toList_append] at h

/-- Nothing is described as a symbol but the symbol. -/
theorem TokenKind.describe_inj {kind other : TokenKind} (hkind : kind.isSymbolic)
    (h : other.describe = kind.describe) : other = kind := by
  have hname {text : String} {other : TokenKind}
      (hother : other.describe.toList.head? ≠ some '\'') : other.describe ≠ "'" ++ text ++ "'" :=
    (quote_ne hother).symm
  cases kind with
  | keyword word =>
    cases other with
    | keyword word' =>
      have hsome := Keyword.ofSpelling?_spelling word'
      rw [quote_inj h, Keyword.ofSpelling?_spelling] at hsome
      rw [Option.some.inj hsome]
    | mark sign => exact absurd (quote_inj h).symm (word.spelling_ne sign)
    | _ => exact absurd h (hname (by simp only [describe]; decide))
  | mark sign =>
    cases other with
    | keyword word => exact absurd (quote_inj h) (word.spelling_ne sign)
    | mark sign' =>
      have hsome := Mark.ofSpelling?_spelling sign'
      rw [quote_inj h, Mark.ofSpelling?_spelling] at hsome
      rw [Option.some.inj hsome]
    | _ => exact absurd h (hname (by simp only [describe]; decide))
  | newline | endOfInput =>
    cases other with
    | keyword | mark => exact absurd h (quote_ne (by decide))
    | _ => simp_all [describe]
  | _ => cases hkind

theorem TokenKind.describe_ne {kind : TokenKind} {text : String} (hkind : kind ≠ .identifier)
    (hquote : text.toList.head? ≠ some '\'')
    (hname : text ∉ ["number", "string", "character", "newline", "end of file"]) :
    kind.describe ≠ text := by
  rintro rfl
  cases kind with
  | identifier => exact hkind rfl
  | keyword | mark => exact quote_ne hquote rfl
  | _ => exact hname (by simp [describe])

/-- Nothing is described as what is asked for unless it is that. -/
theorem Expected.admits_of_describe {w : Expected} (hw : w.isSymbolic) {x : Lexeme}
    (h : ParseFault.describeFound x.kind x.text = w.describe) : w.Admits x := by
  by_cases hkind : x.kind = .identifier
  · have hfound (text : String) : ("identifier '" ++ text ++ "'").toList.take 12 =
        "identifier '".toList := by simp [String.toList_append]
    have htake : w.describe.toList.take 12 = "identifier '".toList := by
      rw [← h, hkind]
      exact hfound _
    cases w with
    | token kind =>
      cases kind with
      | keyword | mark => simp [describe, TokenKind.describe, String.toList_append] at htake
      | newline | endOfInput => exact absurd htake (by decide)
      | _ => cases hw
    | name role => cases role <;> exact absurd htake (by decide)
    | expression => exact absurd htake (by decide)
  · have hfound : x.kind.describe = w.describe := by
      rw [← h, ParseFault.describeFound.eq_def]
      split <;> simp_all
    cases w with
    | token kind => exact TokenKind.describe_inj hw hfound
    | name role => exact absurd hfound (TokenKind.describe_ne hkind (by cases role <;> decide)
        (by cases role <;> decide))
    | expression => exact absurd hfound (TokenKind.describe_ne hkind (by decide) (by decide))

section Streams

variable {source : String} {limits limits' : Limits} {stream stream' : TokenStream} {e : ParseError}

/-- The tokens of a source start one behind the other, and identifiers come with their texts. -/
theorem tokens_of_lex (h : lex source limits = .ok stream) :
    (stream.tokens.toList.Pairwise fun t t' => t.span.start.offset < t'.span.start.offset) ∧
      ∀ t ∈ stream.tokens.toList, t.HasText stream.symbols ∧ (t.lexeme stream.symbols).Named := by
  obtain ⟨htiles, hresolves, -⟩ := tiles_of_lex h
  have hstarts := htiles.starts_lt
  rw [TokenStream.placed, List.pairwise_map] at hstarts
  refine ⟨hstarts, fun t ht => ⟨hresolves t (Array.mem_toList_iff.mp ht), ?_⟩⟩
  rcases htiles.cut_of_mem _ (List.mem_map_of_mem ht) with hend | ⟨u, v, hcut⟩
  · rw [show t.lexeme stream.symbols = _ from hend]
    simp [Lexeme.Named]
  · exact hcut.named

/-- Tokens in front of the end of input. -/
theorem take_splitAtEnd {i : Nat} (hi : i ≤ (splitAtEnd stream.tokens).1.length) :
    (splitAtEnd stream.tokens).1.take i = stream.tokens.toList.take i := by
  have hfront := List.prefix_iff_eq_take.mp
    (List.takeWhile_prefix (p := (·.kind != .endOfInput)) (l := stream.tokens.toList))
  rw [splitAtEnd_eq] at hi ⊢
  rw [hfront, List.take_take, Nat.min_eq_left hi]

/-- The tokens in front of the end of input, if another stream begins with some of them. -/
theorem splitAtEnd_of_take {i : Nat} (hi : i ≤ (splitAtEnd stream.tokens).1.length)
    (htake : stream'.tokens.toList.take i = stream.tokens.toList.take i) :
    i ≤ (splitAtEnd stream'.tokens).1.length ∧
      (splitAtEnd stream'.tokens).1.take i = (splitAtEnd stream.tokens).1.take i := by
  have hlength : (stream'.tokens.toList.take i).length = i := by
    rw [htake, ← take_splitAtEnd hi, List.length_take, Nat.min_eq_left hi]
  have hfront : ∀ token ∈ stream'.tokens.toList.take i, token.kind ≠ .endOfInput := by
    rw [htake, ← take_splitAtEnd hi, splitAtEnd_eq]
    exact fun token hmem => by simpa using List.mem_takeWhile_imp (List.mem_of_mem_take hmem)
  have hi' : i ≤ (splitAtEnd stream'.tokens).1.length := by
    rw [(splitAtEnd_take hfront).2, List.length_append, hlength]
    exact Nat.le_add_right _ _
  exact ⟨hi', by rw [take_splitAtEnd hi', htake, take_splitAtEnd hi]⟩

/-- The place in a stream in front of the token with an index. -/
def TokenStream.gate (stream : TokenStream) (limits : Limits) (i : Nat)
    (hnamed : (stream.lexemeAt i).Named) : Gate where
  context := stream.context limits
  all := (splitAtEnd stream.tokens).1
  rest := (splitAtEnd stream.tokens).1.drop i
  next := stream.lexemeAt i
  named := hnamed
  endKind := stream.kind_endToken limits
  suffix := List.drop_suffix _ _
  count := length_splitAtEnd _

theorem TokenStream.knows_gate {i : Nat} {hnamed : (stream.lexemeAt i).Named}
    (hi : i ≤ (splitAtEnd stream.tokens).1.length)
    (htext : ∀ t ∈ stream.tokens[i]?, t.HasText stream.symbols) :
    (stream.gate limits i hnamed).Knows stream.symbols := by
  have htoken : (stream.gate limits i hnamed).token =
      (splitAtEnd stream.tokens).1[i]?.getD (splitAtEnd stream.tokens).2 := by
    rw [Gate.token, TokenStream.gate, List.head?_drop]
    rfl
  refine ⟨htoken ▸ lexeme_splitAtEnd stream hi, ?_⟩
  rw [htoken, getD_splitAtEnd _ hi]
  cases hget : stream.tokens[i]? with
  | none => exact fun symbol hsymbol => by cases hsymbol
  | some t => exact htext t hget

/-- Two streams that part at the token with an index. -/
def TokenStream.fork (stream stream' : TokenStream) (limits : Limits) (i : Nat)
    (hnamed : (stream.lexemeAt i).Named) (hnamed' : (stream'.lexemeAt i).Named) : Fork :=
  ⟨stream.gate limits i hnamed, stream'.gate limits i hnamed',
    (stream.tokens.toList.take i).getLast?.map (·.kind)⟩

/-- Where reading a stream begins. -/
def TokenStream.start (stream : TokenStream) : State :=
  ⟨(splitAtEnd stream.tokens).1, .start, .ofSymbols stream.symbols⟩

/-- What comes of a stream before the span of the whole source is known. -/
def TokenStream.outcome (stream : TokenStream) (limits : Limits) :
    Except ParseError (NodeId × State) :=
  Rule.enter (stream.context limits) limits.maxNestingDepth .compilationUnit .start stream.start

theorem outcome_of_parse (h : parse stream limits = .error e) :
    stream.outcome limits = .error e := by
  rw [parse_eq] at h
  rw [TokenStream.outcome, TokenStream.start]
  split at h
  · next hrun => rw [hrun, Except.error.inj h]
  · cases h

/-- Reading begins with what the streams have in common. -/
theorem TokenStream.fork_start (limits : Limits) {i : Nat} (hnamed : (stream.lexemeAt i).Named)
    (hnamed' : (stream'.lexemeAt i).Named) (hi : i ≤ (splitAtEnd stream.tokens).1.length)
    (htake : stream'.tokens.toList.take i = stream.tokens.toList.take i)
    (hwithin : stream.symbols.Within stream'.symbols)
    (htexts : ∀ t ∈ stream.tokens.toList,
      t.HasText stream.symbols ∧ (t.lexeme stream.symbols).Named)
    (htext' : ∀ t ∈ stream'.tokens[i]?, t.HasText stream'.symbols) :
    (stream.fork stream' limits i hnamed hnamed').Together none stream.start stream'.start ∨
      (stream.gate limits i hnamed).Stands stream.start ∧
        (stream'.gate limits i hnamed').Stands stream'.start := by
  obtain ⟨hi', hfront⟩ := splitAtEnd_of_take hi htake
  have hknows : (stream.gate limits i hnamed).Knows stream.symbols :=
    TokenStream.knows_gate hi fun t ht =>
      (htexts t (Array.mem_toList_iff.mpr (Array.mem_of_getElem? ht))).1
  have hknows' : (stream'.gate limits i hnamed').Knows stream'.symbols :=
    TokenStream.knows_gate hi' htext'
  cases i with
  | zero => exact .inr ⟨⟨rfl, hknows⟩, ⟨rfl, hknows'⟩⟩
  | succ i =>
    refine .inl ⟨⟨(splitAtEnd stream.tokens).1.take (i + 1),
      (splitAtEnd stream.tokens).1.take (i + 1), ⟨?_, ?_, ?_⟩, ?_, ?_⟩,
      List.suffix_rfl, rfl, hknows, hknows', by simp⟩
    · intro hnil
      have hlength := congrArg List.length hnil
      rw [List.length_take, Nat.min_eq_left hi] at hlength
      cases hlength
    · refine List.forall₂_same.mpr fun t ht => ?_
      rw [take_splitAtEnd hi] at ht
      obtain ⟨htext, hnamed⟩ := htexts t (List.mem_of_mem_take ht)
      exact ⟨⟨(Token.lexeme_of_within htext hwithin).symm, htext, htext.within hwithin⟩, hnamed⟩
    · rw [take_splitAtEnd hi]
      rfl
    · exact (List.take_append_drop _ _).symm
    · rw [← hfront]
      exact (List.take_append_drop _ _).symm

/-- The tokens of a source start at different places, the end of input included. -/
theorem startOf_of_lex (h : lex source limits = .ok stream) :
    (splitAtEnd stream.tokens).1.length < stream.size ∧
      ∀ i < stream.size, ∀ j < stream.size, stream.startOf i = stream.startOf j → i = j := by
  constructor
  · obtain ⟨pieces, hpieces⟩ := exists_pieces_of_lex h
    obtain ⟨front, stop, hsplit, -, hfront, -⟩ := hpieces.exists_tokens
    have hsize := congrArg List.length hpieces.placed
    have hlength := congrArg List.length hfront
    simp only [TokenStream.placed, List.length_map, List.length_append, List.length_singleton,
      Array.length_toList] at hsize hlength
    rw [hsplit, TokenStream.size, hsize, hlength]
    exact Nat.lt_succ_self _
  · have hlt {i j : Nat} (hij : i < j) (hj : j < stream.size) :
        (stream.startOf i).offset < (stream.startOf j).offset := by
      have hstart {i : Nat} (hi : i < stream.tokens.size) :
          stream.startOf i = stream.tokens[i].span.start := by
        simp [TokenStream.startOf, hi]
      have hi := Nat.lt_trans hij hj
      rw [hstart hi, hstart hj]
      exact List.pairwise_iff_getElem.mp (tokens_of_lex h).1 i j hi hj hij
    intro i hi j hj heq
    rcases Nat.lt_trichotomy i j with hij | hij | hij
    · exact absurd (congrArg Position.offset heq) (Nat.ne_of_lt (hlt hij hj))
    · exact hij
    · exact absurd (congrArg Position.offset heq) (Nat.ne_of_gt (hlt hij hi))

/-- A stream is not read further than a token, and another one has the same tokens in front of
it: if the former is not honest about the token of the latter, the latter is read further. -/
theorem honest_of_parse {i : Nat} (hi : i ≤ (splitAtEnd stream.tokens).1.length)
    (htake : stream'.tokens.toList.take i = stream.tokens.toList.take i)
    (hwithin : stream.symbols.Within stream'.symbols)
    (htexts : ∀ t ∈ stream.tokens.toList,
      t.HasText stream.symbols ∧ (t.lexeme stream.symbols).Named)
    (htext' : ∀ t ∈ stream'.tokens[i]?, t.HasText stream'.symbols)
    (hnamed : (stream.lexemeAt i).Named) (hnamed' : (stream'.lexemeAt i).Named)
    (h : parse stream limits = .error e) (hasks : e.fault.expected ≠ [])
    (hplace : ∀ j ≤ (splitAtEnd stream.tokens).1.length, j ≠ i → e.position ≠ stream.startOf j) :
    (∀ w ∈ e.fault.expected, w.Admits (stream'.lexemeAt i) →
      Misleading ((stream.tokens.toList.take i).getLast?.map (·.kind)) (stream.lexemeAt i).kind
        e.fault.expected (stream'.lexemeAt i).kind) ∨
    ∀ e', parse stream' limits = .error e' →
      (∃ j, i < j ∧ j ≤ (splitAtEnd stream'.tokens).1.length ∧ e'.position = stream'.startOf j) ∨
        e'.fault.expected = [] ∧
          (e'.kind = .invalidLiteral → (stream'.lexemeAt i).kind.spellsValue) := by
  obtain ⟨hi', -⟩ := splitAtEnd_of_take hi htake
  have hstart {stream : TokenStream} {left : List Token}
      (hleft : left <:+ (splitAtEnd stream.tokens).1) :
      (left.head?.getD (splitAtEnd stream.tokens).2).span.start =
        stream.startOf ((splitAtEnd stream.tokens).1.length - left.length) := by
    rw [← startAt_splitAtEnd stream (Nat.sub_le _ _), startAt_of_suffix hleft]
  have habreast : (stream.fork stream' limits i hnamed hnamed').Abreast _ _ _
      (stream.outcome limits) (stream'.outcome limits) :=
    Fork.abreast_compilationUnit _ _ _ _
      (TokenStream.fork_start limits hnamed hnamed' hi htake hwithin htexts htext')
  rw [outcome_of_parse h] at habreast
  have hplace' : ∀ left : List Token, left <:+ (splitAtEnd stream.tokens).1 →
      left.length ≠ ((splitAtEnd stream.tokens).1.drop i).length →
        e.position ≠ (left.head?.getD (splitAtEnd stream.tokens).2).span.start := by
    intro left hleft hne
    have hle := hleft.length_le
    rw [List.length_drop] at hne
    rw [hstart hleft]
    exact hplace _ (Nat.sub_le _ _) (by omega)
  rcases Fork.honest_of_abreast habreast hasks hplace' with hhonest | ⟨r, hr⟩ | hstrays
  · exact .inl hhonest
  · refine .inr fun e' he' => ?_
    rw [outcome_of_parse he'] at hr
    cases hr
  · refine .inr fun e' he' => ?_
    rw [outcome_of_parse he'] at hstrays
    cases hstrays with
    | @behind _ left hleft hlt heq =>
      have hlt' : left.length < ((splitAtEnd stream'.tokens).1.drop i).length := hlt
      rw [List.length_drop] at hlt'
      exact .inl ⟨_, by omega, Nat.sub_le _ _, heq.trans (hstart hleft)⟩
    | aside hnone hvalue => exact .inr ⟨hnone, hvalue⟩

/-- A fault that asks for nothing and blames no literal is a limit. -/
theorem isLimit_of_parse (h : parse stream limits = .error e) (hasks : e.fault.expected = [])
    (hliteral : e.kind ≠ .invalidLiteral) : e.fault.isLimit := by
  have hreports : Reports _ _ _ _ _ (stream.outcome limits) :=
    reports_enter (stream.kind_endToken limits) limits.maxNestingDepth .compilationUnit .start
      (length_splitAtEnd _)
  rw [outcome_of_parse h] at hreports
  cases hreports with
  | error hblames =>
    obtain ⟨symbols, -, hconcerns⟩ := hblames.concerns
    rw [ParseError.kind] at hliteral
    generalize e.fault = fault at hasks hliteral hconcerns
    cases hconcerns with
    | unexpected hne => exact absurd hasks hne
    | literalWithoutText | invalidNumber => exact absurd rfl hliteral
    | tooDeep | tooManyNodes => rfl

/-- A fault says what is found in place of the token with an index, and what would be read there
instead: whatever of that is put there, and whatever follows it, the stream is read further if no
limit is in the way, unless the question misleads. -/
structure Truthful (stream : TokenStream) (limits : Limits) (e : ParseError) (i : Nat) : Prop where
  position : e.position = stream.startOf i
  found : e.fault.found? = some (ParseFault.describeFound (stream.lexemeAt i).kind
    (stream.lexemeAt i).text)
  atEnd : e.kind = .unexpectedEndOfInput ↔ (stream.lexemeAt i).kind = .endOfInput
  asks : e.fault.expected ≠ []
  other : ∀ found ∈ e.fault.found?, found ∉ e.fault.expected.map Expected.describe
  further : ∀ stream' : TokenStream, stream.symbols.Within stream'.symbols →
    stream'.tokens.toList.take i = stream.tokens.toList.take i →
    (∀ t ∈ stream'.tokens[i]?, t.HasText stream'.symbols) →
    ∀ wanted ∈ e.fault.expected, wanted.Admits (stream'.lexemeAt i) →
      Misleading ((stream.tokens.toList.take i).getLast?.map (·.kind)) (stream.lexemeAt i).kind
        e.fault.expected (stream'.lexemeAt i).kind ∨
      ∀ e', parse stream' limits = .error e' → e'.fault.isLimit ∨
        ∃ j, i < j ∧ j ≤ stream'.size ∧ e'.position = stream'.startOf j

/-- Where a source is not read further for want of another token, the fault is truthful. -/
theorem truthful_of_lex (hlex : lex source limits' = .ok stream)
    (h : parse stream limits = .error e)
    (hkind : e.kind = .unexpectedToken ∨ e.kind = .unexpectedEndOfInput) :
    ∃ i < stream.size, Truthful stream limits e i := by
  obtain ⟨-, hresolves, -⟩ := tiles_of_lex hlex
  obtain ⟨-, htexts⟩ := tokens_of_lex hlex
  obtain ⟨hlength, hinj⟩ := startOf_of_lex hlex
  obtain ⟨i, hi, hposition, hconcerns⟩ := concerns_of_parse hresolves h
  obtain ⟨expected, hfault, hne, hsymbolic⟩ := hconcerns.unexpected_of_kind hkind
  have hexpected : e.fault.expected = expected := by rw [hfault]; rfl
  have hplace : ∀ j ≤ (splitAtEnd stream.tokens).1.length, j ≠ i →
      e.position ≠ stream.startOf j := by
    intro j hj hji heq
    exact hji (hinj j (by omega) i (by omega) (heq.symm.trans hposition))
  have hnamed : (stream.lexemeAt i).Named := by
    rcases stream.lexemeAt_mem i with hmem | hend
    · obtain ⟨t, ht, heq⟩ := List.mem_map.mp hmem
      exact heq ▸ (htexts t ht).2
    · rw [hend]
      simp [Lexeme.Named]
  have hforks {stream' : TokenStream} (hwithin : stream.symbols.Within stream'.symbols)
      (htake : stream'.tokens.toList.take i = stream.tokens.toList.take i)
      (htext' : ∀ t ∈ stream'.tokens[i]?, t.HasText stream'.symbols)
      (hnamed' : (stream'.lexemeAt i).Named) :=
    honest_of_parse hi htake hwithin htexts htext' hnamed hnamed' h (hexpected ▸ hne) hplace
  -- The source parts from itself nowhere: what it is asked for is not what it has.
  have hnone : ∀ w ∈ e.fault.expected, ¬ w.Admits (stream.lexemeAt i) := by
    intro w hw hadmits
    rcases hforks (.refl _) rfl (fun t ht => hresolves t (Array.mem_of_getElem? ht)) hnamed with
      hhonest | hfurther
    · exact not_misleading_self (hhonest w hw hadmits)
    · rcases hfurther e h with ⟨j, hij, hj, hposition'⟩ | ⟨hasks, -⟩
      · exact hplace j hj (Nat.ne_of_gt hij) hposition'
      · exact hne (hexpected ▸ hasks)
  have hsymbols : ∀ w ∈ e.fault.expected, w.isSymbolic := hexpected ▸ List.all_eq_true.mp hsymbolic
  refine ⟨i, by omega, hposition, by rw [hfault]; rfl, ?_, hexpected ▸ hne, ?_, ?_⟩
  · rw [ParseError.kind, hfault, ParseFault.kind.eq_def]
    split <;> simp_all
  · intro found hfound hmem
    obtain ⟨w, hw, rfl⟩ := List.mem_map.mp hmem
    rw [hfault] at hfound
    exact hnone w hw (w.admits_of_describe (hsymbols w hw) (Option.some.inj hfound))
  · intro stream' hwithin htake htext' w hw hadmits
    obtain ⟨hnamed', hvalue⟩ := hadmits.plain (hsymbols w hw)
    rcases hforks hwithin htake htext' hnamed' with hhonest | hfurther
    · exact .inl (hhonest w hw hadmits)
    · refine .inr fun e' he' => ?_
      rcases hfurther e' he' with ⟨j, hij, hj, hposition'⟩ | ⟨hasks, hliteral⟩
      · exact .inr ⟨j, hij, Nat.le_trans hj (length_splitAtEnd _), hposition'⟩
      · refine .inl (isLimit_of_parse he' hasks fun hinvalid => ?_)
        rw [hliteral hinvalid] at hvalue
        cases hvalue

/-- What becomes of a source that is not read. -/
theorem exists_of_failure {fact : TokenStream → ParseError → Bool}
    (h : ((lex source limits').toOption.bind fun stream =>
      (failure? (parse stream limits)).map (fact stream)) = some true) :
    ∃ stream e, lex source limits' = .ok stream ∧ parse stream limits = .error e ∧
      fact stream e := by
  cases hlex : lex source limits' with
  | error e =>
    rw [hlex] at h
    cases h
  | ok stream =>
    rw [hlex] at h
    cases hparse : parse stream limits with
    | ok t =>
      rw [Except.toOption, Option.bind_some, hparse] at h
      cases h
    | error e =>
      rw [Except.toOption, Option.bind_some, hparse] at h
      exact ⟨stream, e, rfl, hparse, Option.some.inj h⟩

/-- A second name behind that of a module. -/
theorem truthful_of_second_name : ∃ stream e, lex "module m n" {} = .ok stream ∧
    parse stream {} = .error e ∧ (e.kind = .unexpectedToken ∨ e.kind = .unexpectedEndOfInput) ∧
      ∃ i < stream.size, Truthful stream {} e i := by
  have hfacts : ((lex "module m n" {}).toOption.bind fun stream =>
      (failure? (parse stream {})).map fun e => decide (e.kind = .unexpectedToken)) =
        some true := by
    decide +kernel
  obtain ⟨stream, e, hlex, hparse, hkind⟩ := exists_of_failure hfacts
  exact ⟨stream, e, hlex, hparse, .inl (of_decide_eq_true hkind),
    truthful_of_lex hlex hparse (.inl (of_decide_eq_true hkind))⟩

/-- The source asks for a token of some kind in place of that with an index.  The other source has
one there, behind the same tokens, and is not read further either. -/
def Misled (source source' : String) (i : Nat) (kind : TokenKind) : Prop :=
  ∃ stream e stream' e', lex source {} = .ok stream ∧ parse stream {} = .error e ∧
    lex source' {} = .ok stream' ∧ parse stream' {} = .error e' ∧
    (e.position = stream.startOf i ∧ .token kind ∈ e.fault.expected) ∧
    (stream'.symbols.texts = stream.symbols.texts ∧
      stream'.tokens.toList.take i = stream.tokens.toList.take i) ∧
    (stream'.lexemeAt i).kind = kind ∧ e'.kind = .unexpectedToken ∧ e'.position = stream'.startOf i

theorem misled_of_failures {source' : String} {i : Nat} {kind : TokenKind}
    (h : ((lex source {}).toOption.bind fun stream => (failure? (parse stream {})).map fun e =>
      ((lex source' {}).toOption.bind fun stream' => (failure? (parse stream' {})).map fun e' =>
        decide ((e.position = stream.startOf i ∧ .token kind ∈ e.fault.expected) ∧
          (stream'.symbols.texts = stream.symbols.texts ∧
            stream'.tokens.toList.take i = stream.tokens.toList.take i) ∧
          (stream'.lexemeAt i).kind = kind ∧ e'.kind = .unexpectedToken ∧
            e'.position = stream'.startOf i)) == some true) = some true) :
    Misled source source' i kind := by
  obtain ⟨stream, e, hlex, hparse, h'⟩ := exists_of_failure h
  obtain ⟨stream', e', hlex', hparse', hfacts⟩ := exists_of_failure (beq_iff_eq.mp h')
  exact ⟨stream, e, stream', e', hlex, hparse, hlex', hparse', of_decide_eq_true hfacts⟩

/-- The input may end behind a method, but no other method may follow it on its line. -/
theorem misled_of_open_augmentation : Misled "module m\naugment A \x7b function f = -> 1"
    "module m\naugment A \x7b function f = -> 1 function" 11 (.keyword .function) :=
  misled_of_failures (by decide +kernel)

/-- A brace may stand behind `return`, but not the parenthesis that is asked for then. -/
theorem misled_of_empty_return :
    Misled "module m\nfunction f = \x7b for (var i = 0, true, return \x7d"
      "module m\nfunction f = \x7b for (var i = 0, true, return )" 17 (.mark .rightParen) :=
  misled_of_failures (by decide +kernel)

end Streams

end GoloSyntax
