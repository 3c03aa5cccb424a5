import GoloSyntax.Proofs.Grammar.Names
import GoloSyntax.Proofs.Reading.Source
import GoloSyntax.Proofs.Tree.Subtree

/-! # Nothing is lost

A source says names, values and operators, and the rest of its tokens say how these belong
together.  The tree keeps what is said, and in order: going through it from left to right
gives the names, values and operators of the source (`atoms_of_parse`).  The one exception is
the word in front of a collection, which becomes the type of the collection.

Whether a word is one of those depends on the token behind it.  So what a construct says is
compared with its tokens only if no bracket follows them; the table never puts one there
(`Alternative.apart`).
-/
namespace GoloSyntax

/-- What a token says that is not about how tokens belong together. -/
inductive Atom where
  /-- An identifier. -/
  | name (text : String)
  /-- A number or one of the literal words; nothing for a number without a value. -/
  | value (value : Option Literal)
  | string (text : String)
  | character (text : String)
  | operator (spelling : String)
deriving DecidableEq, Repr

/-! ## What tokens say -/

/-- What a token says, if anything. -/
def Lexeme.atoms (l : Lexeme) : List Atom :=
  match l.kind with
  | .identifier => [.name (l.text.getD "")]
  | .number kind => [.value (l.text.bind (Literal.ofNumber? kind))]
  | .string _ => [.string (l.text.getD "")]
  | .character => [.character (l.text.getD "")]
  | .keyword .null => [.value (some .null)]
  | .keyword .true_ => [.value (some (.boolean true))]
  | .keyword .false_ => [.value (some (.boolean false))]
  | kind =>
    match BinaryOperator.ofToken? kind, UnaryOperator.ofToken? kind with
    | some op, _ => [.operator op.spelling]
    | none, some op => [.operator op.spelling]
    | none, none => []

/-- A word for a type of collection, directly in front of a bracket. -/
def Lexeme.NamesCollection (l : Lexeme) (behind : List Lexeme) : Prop :=
  l.kind = .identifier ∧ (l.text.bind CollectionKind.ofWord?).isSome ∧
    behind.head?.any (·.kind = .mark .leftBracket)

instance (l : Lexeme) (behind : List Lexeme) : Decidable (l.NamesCollection behind) :=
  inferInstanceAs (Decidable (_ ∧ _ ∧ _))

/-- What the tokens of a list say, one after the other; words in front of collections are left
out. -/
def tokenAtoms : List Lexeme → List Atom
  | [] => []
  | l :: behind => (if l.NamesCollection behind then [] else l.atoms) ++ tokenAtoms behind

/-! ## What trees say -/

/-- What a literal says: numbers by value, texts by text. -/
def Literal.atom : Literal → Atom
  | .string text => .string text
  | .character value => .character value.toString
  | value => .value (some value)

/-- The names that a node carries; a qualified name is its segments. -/
def NodeKind.names : NodeKind → List String
  | .module_ name | .import_ name | .augmentation name | .functionInvocation name
  | .functionRef name => segments name
  | .classLiteral name => segments name ++ ["class"]
  | kind => kind.name?.toList

/-- What a node says besides its parts. -/
def NodeKind.atoms : NodeKind → List Atom
  | .binary op => [.operator op.spelling]
  | .unary op => [.operator op.spelling]
  | .literal value => [value.atom]
  | kind => kind.names.map .name

/-- Whether what a node says stands behind its first part. -/
def NodeKind.isInfix : NodeKind → Bool
  | .binary _ | .methodInvocation _ => true
  | _ => false

namespace Construct

mutual

/-- What a construct says, in source order. -/
def atoms : Construct → List Atom
  | mk kind _ [] => kind.atoms
  | mk kind _ (first :: rest) =>
    if kind.isInfix then atoms first ++ kind.atoms ++ allAtoms rest
    else kind.atoms ++ (atoms first ++ allAtoms rest)

def allAtoms : List Construct → List Atom
  | [] => []
  | x :: xs => atoms x ++ allAtoms xs

end

@[simp] theorem allAtoms_append (xs ys : List Construct) :
    allAtoms (xs ++ ys) = allAtoms xs ++ allAtoms ys := by
  induction xs with
  | nil => rfl
  | cons x xs ih => simp [allAtoms, ih]

theorem atoms_of_not_isInfix {kind : NodeKind} (h : kind.isInfix = false) (span : Span)
    (parts : List Construct) : (mk kind span parts).atoms = kind.atoms ++ allAtoms parts := by
  cases parts <;> simp [atoms, allAtoms, h]

theorem atoms_of_isInfix {kind : NodeKind} (h : kind.isInfix) (span : Span) (first : Construct)
    (rest : List Construct) :
    (mk kind span (first :: rest)).atoms = first.atoms ++ kind.atoms ++ allAtoms rest := by
  simp [atoms, h]

end Construct

open Construct

/-! ## No bracket follows -/

/-- Whether a phrase never begins with a bracket, line feeds in front of it left out. -/
def Phrase.bars : Phrase → Bool
  | .declarations _ | .linesTail _ | .whens _ _ => true
  | .compilationUnit | .members | .lines _ | .elements => false
  | phrase => !phrase.begins (.mark .leftBracket)

/-- Whether items never begin with a bracket, if none follows them. -/
def Item.bars : List Item → Bool
  | [] => true
  | .newlines :: items => bars items
  | .part phrase :: _ => phrase.bars
  | item :: _ => !item.begins (.mark .leftBracket)

variable {n : Nat} {items : List Item} {s r : Reader} {xs : List Construct}

theorem Reader.kind_ne_of_skipNewlines (h : s.skipNewlines.kind ≠ .mark .leftBracket) :
    s.kind ≠ .mark .leftBracket := by
  intro hs
  rw [skipNewlines_of_kind_ne (by rw [hs]; simp)] at h
  exact h hs

theorem Reads.kind_ne_of_bars_phrase {naming : Naming} {phrase : Phrase}
    (h : Reads naming n [.part phrase] s r xs) (hphrase : phrase.bars) :
    s.kind ≠ .mark .leftBracket := by
  intro hs
  have hbegins := h.begins
  rw [hs] at hbegins
  cases phrase with
  | declarations imports =>
    obtain ⟨m, body, kind, ys, alt, -, hsettles, hbody, -⟩ := reads_phrase_iff.mp h
    cases alt with
    | declarationsEnd =>
      obtain ⟨rfl, -⟩ := reads_nil_iff.mp hbody
      have hend : r.kind = .endOfInput := hsettles
      rw [hs] at hend
      cases hend
    | declarationsNewlines | declarationsImport | declarationsTopLevel =>
      have := (reads_token_iff.mp hbody).2.1
      rw [hs] at this
      cases this
  | linesTail form =>
    rcases reads_linesTail_iff.mp h with ⟨hk, -⟩ | ⟨hk, -⟩ <;>
    · rw [hs] at hk
      cases hk
  | whens form seen =>
    obtain ⟨m, body, kind, ys, alt, -, -, hbody, -⟩ := reads_phrase_iff.mp h
    cases alt with
    | whensMore =>
      have hskip := (reads_newlines_iff.mp hbody).begins
      rw [Reader.skipNewlines_of_kind_ne (by rw [hs]; simp), hs] at hskip
      cases hskip
    | whensLast =>
      have hskip := (reads_newlines_iff.mp hbody).begins
      rw [Reader.skipNewlines_of_kind_ne (by rw [hs]; simp), hs] at hskip
      cases hskip
  | compilationUnit | members | lines _ | elements => cases hphrase
  | _ => simp_all [Phrase.bars, Item.begins]

/-- Items that bar a bracket are not read from one. -/
theorem Reads.kind_ne_of_bars {naming : Naming} (h : Reads naming n items s r xs)
    (hitems : Item.bars items) (hr : r.kind ≠ .mark .leftBracket) :
    s.kind ≠ .mark .leftBracket := by
  induction items generalizing s xs with
  | nil =>
    obtain ⟨rfl, -⟩ := reads_nil_iff.mp h
    exact hr
  | cons item items ih =>
    cases item with
    | newlines => exact Reader.kind_ne_of_skipNewlines (ih (reads_newlines_iff.mp h) hitems)
    | part phrase =>
      obtain ⟨s', ys, zs, hphrase, -⟩ := reads_part_append.mp h
      exact hphrase.kind_ne_of_bars_phrase hitems
    | _ =>
      intro hs
      have hbegins := h.begins
      rw [hs] at hbegins
      simp_all [Item.bars]

/-- Whether no bracket stands behind a name or a phrase among the items, if none follows them;
only the word in front of a collection has one. -/
def Item.apart : List Item → Bool
  | [] => true
  | .token kind :: items => !kind.carriesText && apart items
  | .newlines :: items | .literal _ :: items => apart items
  | [.identifier name, .part .collection] => (CollectionKind.ofWord? name).isSome
  | .identifier _ :: items | .qualified _ :: items | .part _ :: items => bars items && apart items

theorem Item.apart_identifier {name : String} {items : List Item}
    (h : apart (.identifier name :: items)) :
    items = [.part .collection] ∧ (CollectionKind.ofWord? name).isSome ∨
      bars items ∧ apart items := by
  unfold apart at h
  split at h
  all_goals simp_all

theorem BinaryOperator.not_carriesText {kind : TokenKind} {op : BinaryOperator}
    (h : ofToken? kind = some op) : kind.carriesText = false := by
  cases kind with
  | keyword | mark | newline | endOfInput => rfl
  | identifier | number | string | character => cases h

theorem UnaryOperator.not_carriesText {kind : TokenKind} {op : UnaryOperator}
    (h : ofToken? kind = some op) : kind.carriesText = false := by
  cases kind with
  | keyword | mark | newline | endOfInput => rfl
  | identifier | number | string | character => cases h

theorem Alternative.apart {naming : Naming} {phrase : Phrase} {body : List Item}
    {kind : Option NodeKind} (h : Alternative naming phrase body kind) : Item.apart body := by
  cases h with
  | statement hform =>
    simp only [Phrase.statementForms, List.mem_cons, List.not_mem_nil, or_false] at hform
    rcases hform with rfl | rfl | rfl | rfl | rfl | rfl | rfl | rfl | rfl | rfl | rfl <;> rfl
  | linesMore form => cases form <;> rfl
  | @operandsMore _ _ kind hop =>
    have hbracket : ¬ TokenKind.mark .leftBracket = kind := by
      rintro rfl
      cases hop
    simp [Item.apart, Item.bars, BinaryOperator.not_carriesText hop, Item.begins, hbracket]
  | unary hop => simp [Item.apart, Item.bars, UnaryOperator.not_carriesText hop]
  | collectionWord hword => simp [Item.apart, hword]
  | _ => rfl

/-! ## Items and what they say -/

/-- Lexemes as sources have them: identifiers hold no points, and the text of a character is
that character. -/
structure Lexeme.Regular (l : Lexeme) : Prop where
  identifier : ∀ text, l = ⟨.identifier, some text⟩ → IsSegment text
  character : l.kind = .character → ∃ value : Char, l.text = some value.toString

/-- What items say that are read as the constructs `xs`. -/
inductive Says : List Item → List Construct → List Atom → Prop where
  | nil : Says [] [] []
  | token {kind : TokenKind} {items : List Item} {xs : List Construct} {as : List Atom}
      (h : Says items xs as) : Says (.token kind :: items) xs (Lexeme.atoms ⟨kind, none⟩ ++ as)
  | newlines {items : List Item} {xs : List Construct} {as : List Atom} (h : Says items xs as) :
    Says (.newlines :: items) xs as
  | identifier {name : String} {items : List Item} {xs : List Construct} {as : List Atom}
      (hbars : Item.bars items) (h : Says items xs as) :
      Says (.identifier name :: items) xs (.name name :: as)
  | collectionWord {name : String} {xs : List Construct} :
    Says [.identifier name, .part .collection] xs (allAtoms xs)
  | qualified {names : List String} {items : List Item} {xs : List Construct} {as : List Atom}
      (hne : names ≠ []) (hnames : ∀ name ∈ names, IsSegment name) (h : Says items xs as) :
      Says (.qualified names :: items) xs (names.map .name ++ as)
  | literal {value : Literal} {items : List Item} {xs : List Construct} {as : List Atom}
      (h : Says items xs as) : Says (.literal value :: items) xs (value.atom :: as)
  | part {phrase : Phrase} {items : List Item} {xs ys : List Construct} {as : List Atom}
      (hsingle : phrase.isSingle → ∃ x, xs = [x]) (h : Says items ys as) :
      Says (.part phrase :: items) (xs ++ ys) (allAtoms xs ++ as)

namespace Says

variable {as : List Atom}

@[simp] theorem nil_iff : Says [] xs as ↔ xs = [] ∧ as = [] := by
  constructor
  · rintro ⟨⟩
    exact ⟨rfl, rfl⟩
  · rintro ⟨rfl, rfl⟩
    exact .nil

@[simp] theorem token_iff {kind : TokenKind} : Says (.token kind :: items) xs as ↔
    ∃ bs, as = Lexeme.atoms ⟨kind, none⟩ ++ bs ∧ Says items xs bs := by
  constructor
  · rintro ⟨h⟩
    exact ⟨_, rfl, ‹_›⟩
  · rintro ⟨bs, rfl, h⟩
    exact .token h

@[simp] theorem newlines_iff : Says (.newlines :: items) xs as ↔ Says items xs as := by
  constructor
  · rintro ⟨h⟩
    exact ‹_›
  · exact .newlines

@[simp] theorem qualified_iff {names : List String} : Says (.qualified names :: items) xs as ↔
    names ≠ [] ∧ (∀ name ∈ names, IsSegment name) ∧
      ∃ bs, as = names.map .name ++ bs ∧ Says items xs bs := by
  constructor
  · rintro ⟨h⟩
    exact ⟨‹_›, ‹_›, _, rfl, ‹_›⟩
  · rintro ⟨hne, hnames, bs, rfl, h⟩
    exact .qualified hne hnames h

@[simp] theorem literal_iff {value : Literal} : Says (.literal value :: items) xs as ↔
    ∃ bs, as = value.atom :: bs ∧ Says items xs bs := by
  constructor
  · rintro ⟨h⟩
    exact ⟨_, rfl, ‹_›⟩
  · rintro ⟨bs, rfl, h⟩
    exact .literal h

@[simp] theorem part_iff {phrase : Phrase} : Says (.part phrase :: items) xs as ↔
    ∃ ys zs bs, xs = ys ++ zs ∧ as = allAtoms ys ++ bs ∧ (phrase.isSingle → ∃ y, ys = [y]) ∧
      Says items zs bs := by
  constructor
  · rintro ⟨h⟩
    exact ⟨_, _, _, rfl, rfl, ‹_›, ‹_›⟩
  · rintro ⟨ys, zs, bs, rfl, rfl, hsingle, h⟩
    exact .part hsingle h

theorem identifier_iff {name : String} (hitems : Item.bars items) :
    Says (.identifier name :: items) xs as ↔ ∃ bs, as = .name name :: bs ∧ Says items xs bs := by
  constructor
  · intro h
    cases h with
    | identifier hbars h => exact ⟨_, rfl, h⟩
    | collectionWord => cases hitems
  · rintro ⟨bs, rfl, h⟩
    exact .identifier hitems h

end Says

theorem BinaryOperator.atoms_of_ofToken? {kind : TokenKind} {op : BinaryOperator}
    (h : ofToken? kind = some op) : Lexeme.atoms ⟨kind, none⟩ = [.operator op.spelling] := by
  unfold Lexeme.atoms
  split <;> simp_all <;> cases h

theorem UnaryOperator.atoms_of_ofToken? {kind : TokenKind} {op : UnaryOperator}
    (h : ofToken? kind = some op) : Lexeme.atoms ⟨kind, none⟩ = [.operator op.spelling] := by
  unfold ofToken? at h
  split at h <;> cases h <;> rfl

/-- What an item says that is not read as constructs. -/
def Item.payload : Item → List Atom
  | .token kind => Lexeme.atoms ⟨kind, none⟩
  | .identifier name => [.name name]
  | .qualified names => names.map .name
  | .literal value => [value.atom]
  | .newlines | .part _ => []

/-- Whether nothing but constructs is said behind the first construct. -/
def Item.leads : List Item → Bool
  | [] => true
  | [.identifier _, .part .collection] => false
  | .part _ :: items => (items.flatMap payload).isEmpty
  | _ :: items => leads items

theorem Says.eq_of_silent {as : List Atom} (h : Says items xs as)
    (hitems : items.flatMap Item.payload = []) : as = allAtoms xs := by
  induction h with
  | nil => rfl
  | token h ih | newlines h ih | qualified _ _ h ih =>
    rw [List.flatMap_cons, List.append_eq_nil_iff] at hitems
    simp_all [Item.payload]
  | identifier | literal => simp [Item.payload] at hitems
  | collectionWord => rfl
  | part _ h ih => rw [ih (by simpa [Item.payload] using hitems), allAtoms_append]

/-- What comes in front of the first construct comes first in what is said. -/
theorem Says.eq_of_leads {as : List Atom} (h : Says items xs as) (hitems : Item.leads items) :
    as = items.flatMap Item.payload ++ allAtoms xs := by
  induction h with
  | nil => rfl
  | token h ih | newlines h ih | qualified _ _ h ih | literal h ih =>
    rw [ih hitems, List.flatMap_cons]
    simp [Item.payload]
  | @identifier name items _ _ hbars h ih =>
    have hleads : Item.leads items := by
      unfold Item.leads at hitems
      split at hitems <;> simp_all
    rw [ih hleads, List.flatMap_cons]
    rfl
  | collectionWord => cases hitems
  | @part _ items _ _ _ _ h ih =>
    have hsilent : items.flatMap Item.payload = [] := by simpa [Item.leads] using hitems
    rw [h.eq_of_silent hsilent, List.flatMap_cons, hsilent, allAtoms_append]
    rfl

/-- A node that says in front of its parts what its items say there. -/
theorem Says.node {as : List Atom} (h : Says items xs as) (hitems : Item.leads items)
    {kind : NodeKind} (hkind : kind.isInfix = false) (hatoms : kind.atoms = items.flatMap Item.payload)
    (start stop : Position) : allAtoms (wrap (some kind) start stop xs) = as := by
  rw [h.eq_of_leads hitems, wrap, allAtoms, atoms_of_not_isInfix hkind, hatoms]
  exact List.append_nil _

theorem Says.segments_dotted {as : List Atom} (h : Says items xs as) {names : List String}
    (hmem : .qualified names ∈ items) : segments (dotted names) = names := by
  induction h with
  | nil => cases hmem
  | qualified hne hnames h ih =>
    rcases List.mem_cons.mp hmem with heq | hmem
    · cases heq
      exact GoloSyntax.segments_dotted hne hnames
    · exact ih hmem
  | collectionWord => simp at hmem
  | _ => simp_all

/-- A node says what the items it was made from say. -/
theorem Alternative.allAtoms_wrap {phrase : Phrase} {body : List Item} {kind : Option NodeKind}
    (alt : Alternative .byText phrase body kind) {as : List Atom} (h : Says body xs as)
    (start stop : Position) : allAtoms (wrap kind start stop xs) = as := by
  cases alt with
  | statement hform =>
    simp only [Phrase.statementForms, List.mem_cons, List.not_mem_nil, or_false] at hform
    rcases hform with rfl | rfl | rfl | rfl | rfl | rfl | rfl | rfl | rfl | rfl | rfl <;>
      exact (h.eq_of_silent rfl).symm
  | linesMore form => cases form <;> exact (h.eq_of_silent rfl).symm
  | @operandsMore minPrecedence op _ hop =>
    simp only [Says.part_iff, Says.token_iff, Says.newlines_iff, Says.nil_iff] at h
    obtain ⟨ys, _, _, rfl, rfl, hsingle, _, rfl, zs, _, _, rfl, rfl, -, rfl, rfl⟩ := h
    obtain ⟨y, rfl⟩ := hsingle rfl
    have hinfix : (NodeKind.binary op).isInfix := rfl
    simp [wrap, allAtoms, atoms_of_isInfix hinfix, BinaryOperator.atoms_of_ofToken? hop,
      NodeKind.atoms]
  | callsMethod name =>
    rw [Says.part_iff] at h
    obtain ⟨ys, _, _, rfl, rfl, hsingle, h⟩ := h
    rw [Says.token_iff] at h
    obtain ⟨_, rfl, h⟩ := h
    rw [Says.identifier_iff rfl] at h
    obtain ⟨_, rfl, h⟩ := h
    obtain ⟨y, rfl⟩ := hsingle rfl
    rw [h.eq_of_silent rfl]
    have hinfix : (NodeKind.methodInvocation name).isInfix := rfl
    simp [wrap, allAtoms, atoms_of_isInfix hinfix, NodeKind.atoms, NodeKind.names,
      NodeKind.name?]
  | unary hop =>
    refine h.node rfl rfl ?_ start stop
    simp [Item.payload, UnaryOperator.atoms_of_ofToken? hop, NodeKind.atoms]
  | @bareName names kind hname =>
    obtain ⟨hne, hnames, bs, rfl, hbs⟩ := Says.qualified_iff.mp h
    obtain ⟨rfl, rfl⟩ := Says.nil_iff.mp hbs
    have hplain := (byText_iff_plain hne hnames).mp hname
    cases hplain with
    | reference name => exact h.node rfl rfl rfl start stop
    | classLiteral hfront =>
      refine h.node rfl rfl ?_ start stop
      have hsegments := GoloSyntax.segments_dotted hfront fun name hmem =>
        hnames name (List.mem_append_left _ hmem)
      simp [NodeKind.atoms, NodeKind.names, hsegments, Item.payload]
  | collectionWord hword =>
    cases h with
    | identifier hbars => cases hbars
    | @collectionWord _ xs =>
      rw [wrap, allAtoms, atoms_of_not_isInfix rfl]
      exact List.append_nil (allAtoms xs)
  | moduleDeclaration names | importDeclaration names | augmentation names | functionRef names
  | invocation names =>
    have hsegments : segments (dotted names) = names := h.segments_dotted (by simp)
    refine h.node rfl rfl ?_ start stop
    simp only [NodeKind.atoms, NodeKind.names, hsegments]
    simp [Item.payload, Lexeme.atoms, BinaryOperator.ofToken?, UnaryOperator.ofToken?]
  | _ =>
    first
      | exact (h.eq_of_silent rfl).symm
      | exact h.node rfl rfl rfl start stop

/-! ## Reading -/

/-- Every lexeme still to be read is as in a source. -/
def Reader.Regular (s : Reader) : Prop := ∀ l ∈ s.lexemes, l.Regular

theorem Reader.head?_lexemes (s : Reader) :
    s.lexemes.head?.any (·.kind = .mark .leftBracket) ↔ s.kind = .mark .leftBracket := by
  obtain ⟨_ | ⟨p, rest⟩, _, _⟩ := s
  · simp [lexemes, kind, next]
  · simp [lexemes, kind, next]

theorem tokenAtoms_skipNewlines (s : Reader) :
    tokenAtoms s.skipNewlines.lexemes = tokenAtoms s.lexemes := by
  obtain ⟨rest, lastEnd, inputEnd⟩ := s
  induction rest with
  | nil => rfl
  | cons p rest ih =>
    by_cases hp : p.lexeme.kind = .newline
    · have hskip : Reader.skipNewlines ⟨p :: rest, lastEnd, inputEnd⟩ =
          Reader.skipNewlines ⟨rest, lastEnd, inputEnd⟩ := by
        simp [Reader.skipNewlines, hp]
      rw [hskip, ih]
      simp [Reader.lexemes, tokenAtoms, Lexeme.NamesCollection, Lexeme.atoms, hp,
        BinaryOperator.ofToken?, UnaryOperator.ofToken?]
    · rw [Reader.skipNewlines_of_kind_ne (by simpa [Reader.kind, Reader.next] using hp)]

theorem Lexeme.atoms_of_not_carriesText {l : Lexeme} (h : l.kind.carriesText = false) :
    Lexeme.atoms ⟨l.kind, none⟩ = l.atoms := by
  obtain ⟨kind, text⟩ := l
  cases kind with
  | identifier | number | string | character => cases h
  | keyword k => cases k <;> rfl
  | mark | newline | endOfInput => rfl

theorem Lexeme.Regular.atoms_of_literal? {l : Lexeme} {value : Literal} (hl : l.Regular)
    (h : l.literal? = some value) : l.atoms = [value.atom] := by
  obtain ⟨kind, text⟩ := l
  cases kind with
  | number kind =>
    obtain ⟨spelling, rfl, hvalue⟩ := Option.bind_eq_some_iff.mp h
    have hatom : value.atom = .value (some value) := by
      unfold Literal.ofNumber? at hvalue
      split at hvalue <;> obtain ⟨_, -, rfl⟩ := Option.map_eq_some_iff.mp hvalue <;> rfl
    simp [atoms, hvalue, hatom]
  | string =>
    obtain ⟨content, rfl, rfl⟩ := Option.map_eq_some_iff.mp h
    rfl
  | character =>
    obtain ⟨content, htext⟩ := hl.character rfl
    obtain rfl : text = _ := htext
    obtain rfl := Option.some.inj h
    simp [atoms, Literal.atom]
  | keyword k => cases k <;> cases h <;> rfl
  | identifier | mark | newline | endOfInput => cases h

namespace Reader.Regular

theorem of_suffix (hs : s.Regular) (h : r.rest <:+ s.rest) : r.Regular :=
  fun l hl => hs l ((h.map Piece.lexeme).subset hl)

theorem advance (hs : s.Regular) : s.advance.Regular := hs.of_suffix s.rest_advance_suffix

theorem next (hs : s.Regular) (h : s.kind ≠ .endOfInput) : s.next.Regular :=
  hs _ (by rw [lexemes_of_next rfl h]; exact List.mem_cons_self)

end Reader.Regular

/-- What the next lexeme says, if no bracket makes it the type of a collection. -/
theorem Reader.tokenAtoms_eq (hkind : s.kind ≠ .endOfInput)
    (hbehind : s.kind = .identifier → s.advance.kind ≠ .mark .leftBracket) :
    tokenAtoms s.lexemes = s.next.atoms ++ tokenAtoms s.advance.lexemes := by
  rw [lexemes_of_next rfl hkind, tokenAtoms, if_neg]
  rintro ⟨hidentifier, -, hbracket⟩
  exact hbehind hidentifier (s.advance.head?_lexemes.mp hbracket)

theorem Qualified.tokenAtoms_eq {names : List String} (h : Qualified s r names) (hs : s.Regular)
    (hr : r.kind ≠ .mark .leftBracket) : names ≠ [] ∧ (∀ name ∈ names, IsSegment name) ∧
      tokenAtoms s.lexemes = names.map .name ++ tokenAtoms r.lexemes := by
  induction h with
  | @last s name hnext _ =>
    have hkind : s.kind ≠ .endOfInput := by simp [Reader.kind, hnext]
    refine ⟨by simp, ?_, ?_⟩
    · simpa using (hs.next hkind).identifier name hnext
    · rw [Reader.tokenAtoms_eq hkind fun _ => hr, hnext]
      rfl
  | @more s r name names hnext hdot _ ih =>
    have hkind : s.kind ≠ .endOfInput := by simp [Reader.kind, hnext]
    obtain ⟨-, hnames, hatoms⟩ := ih hs.advance.advance hr
    refine ⟨by simp, List.forall_mem_cons.mpr ⟨(hs.next hkind).identifier name hnext, hnames⟩, ?_⟩
    have hsilent : s.advance.next.atoms = [] := by
      rw [← Lexeme.atoms_of_not_carriesText] <;> rw [show s.advance.next.kind = _ from hdot] <;> rfl
    rw [Reader.tokenAtoms_eq hkind fun _ => by simp [hdot], hnext,
      Reader.tokenAtoms_eq (by simp [hdot]) (by simp [hdot]), hsilent, hatoms]
    rfl

/-- What is read says what the lexemes say that it is read from. -/
theorem Reads.says (h : Reads .byText n items s r xs) (hs : s.Regular) (hitems : Item.apart items)
    (hr : r.kind ≠ .mark .leftBracket) :
    ∃ as, Says items xs as ∧ tokenAtoms s.lexemes = as ++ tokenAtoms r.lexemes := by
  induction h with
  | nil => exact ⟨[], .nil, rfl⟩
  | @token _ kind _ s _ _ hne hkind h ih =>
    simp only [Item.apart, Bool.and_eq_true, Bool.not_eq_true'] at hitems
    obtain ⟨as, hsays, hatoms⟩ := ih hs.advance hitems.2 hr
    refine ⟨_, .token hsays, ?_⟩
    have hnext : Lexeme.atoms ⟨kind, none⟩ = s.next.atoms := by
      rw [← hkind]
      exact Lexeme.atoms_of_not_carriesText (by rw [show s.next.kind = _ from hkind]; exact hitems.1)
    rw [Reader.tokenAtoms_eq (hkind ▸ hne) ?_, hatoms, hnext, List.append_assoc]
    rintro hidentifier
    rw [← hkind, hidentifier] at hitems
    cases hitems.1
  | newlines h ih =>
    obtain ⟨as, hsays, hatoms⟩ := ih (hs.of_suffix (Reader.rest_skipNewlines_suffix _)) hitems hr
    exact ⟨as, .newlines hsays, by rw [← tokenAtoms_skipNewlines, hatoms]⟩
  | @identifier _ name items s _ xs hnext h ih =>
    have hkind : s.kind ≠ .endOfInput := by simp [Reader.kind, hnext]
    rcases Item.apart_identifier hitems with ⟨rfl, hword⟩ | ⟨hbars, hitems⟩
    · obtain ⟨as, hsays, hatoms⟩ := ih hs.advance rfl hr
      obtain ⟨ys, zs, bs, rfl, rfl, -, hnil⟩ := Says.part_iff.mp hsays
      obtain ⟨rfl, rfl⟩ := Says.nil_iff.mp hnil
      refine ⟨_, .collectionWord, ?_⟩
      have hbracket : s.advance.kind = .mark .leftBracket := of_decide_eq_true h.begins
      rw [Reader.lexemes_of_next hnext (by simp), tokenAtoms, if_pos, List.nil_append, hatoms]
      · simp
      · exact ⟨rfl, hword, s.advance.head?_lexemes.mpr hbracket⟩
    · obtain ⟨as, hsays, hatoms⟩ := ih hs.advance hitems hr
      refine ⟨_, .identifier hbars hsays, ?_⟩
      rw [Reader.tokenAtoms_eq hkind fun _ => h.kind_ne_of_bars hbars hr, hnext, hatoms]
      rfl
  | qualified hname h ih =>
    simp only [Item.apart, Bool.and_eq_true] at hitems
    obtain ⟨hne, hnames, hfront⟩ :=
      hname.tokenAtoms_eq hs (h.kind_ne_of_bars hitems.1 hr)
    obtain ⟨as, hsays, hatoms⟩ := ih (hs.of_suffix hname.rest_suffix) hitems.2 hr
    exact ⟨_, .qualified hne hnames hsays, by rw [hfront, hatoms, List.append_assoc]⟩
  | @literal _ value items s _ _ hvalue h ih =>
    have hliteral := Lexeme.isLiteral_of_literal? hvalue
    obtain ⟨as, hsays, hatoms⟩ := ih hs.advance hitems hr
    have hkind : s.kind ≠ .endOfInput := fun hend => by
      rw [show s.next.kind = _ from hend] at hliteral
      cases hliteral
    refine ⟨_, .literal hsays, ?_⟩
    rw [Reader.tokenAtoms_eq hkind fun hidentifier => ?_, hatoms,
      (hs.next hkind).atoms_of_literal? hvalue]
    · rfl
    · rw [show s.next.kind = _ from hidentifier] at hliteral
      cases hliteral
  | @part n m phrase body items kind s s' r xs ys alt hn hsettles hbody h ihbody ih =>
    simp only [Item.apart, Bool.and_eq_true] at hitems
    obtain ⟨as, hsays, hatoms⟩ := ihbody hs alt.apart (h.kind_ne_of_bars hitems.1 hr)
    obtain ⟨bs, hsays', hatoms'⟩ := ih (hs.of_suffix hbody.rest_suffix) hitems.2 hr
    have hphrase := reads_phrase_iff.mpr ⟨m, body, kind, xs, alt, hn, hsettles, hbody, rfl⟩
    refine ⟨_, .part hphrase.exists_single hsays', ?_⟩
    rw [hatoms, hatoms', alt.allAtoms_wrap hsays, List.append_assoc]

/-! ## Sources -/

theorem Cut.regular {v u : List Char} {l : Lexeme} (h : Cut v u l) : l.Regular := by
  cases h with
  | word hstart hall hv =>
    rcases Lexeme.kind_ofWord (String.ofList u) with ⟨k, hk, -⟩ | ⟨hk, -⟩ <;> rw [hk]
    · exact ⟨nofun, nofun⟩
    · refine ⟨fun text heq => ?_, nofun⟩
      cases heq
      intro hdot
      exact absurd (hall _ (by simpa using hdot)) (by decide)
  | character => exact ⟨nofun, fun _ => ⟨_, rfl⟩⟩
  | newline | number | mark | string => exact ⟨nofun, nofun⟩

theorem Tiles.regular {limits : Limits} {p : Position} {text : List Char}
    {placed : List (Lexeme × Span)} (h : Tiles limits p text placed) :
    ∀ x ∈ placed, x.1.Regular := by
  intro x hx
  rcases h.cut_of_mem x hx with hend | ⟨u, v, hcut⟩
  · rw [hend]
    exact ⟨nofun, nofun⟩
  · exact hcut.regular

theorem tokenAtoms_endOfInput (ls : List Lexeme) :
    tokenAtoms (ls ++ [⟨.endOfInput, none⟩]) = tokenAtoms ls := by
  induction ls with
  | nil => rfl
  | cons l ls ih =>
    have hnames : l.NamesCollection (ls ++ [⟨.endOfInput, none⟩]) ↔ l.NamesCollection ls := by
      cases ls <;> simp [Lexeme.NamesCollection]
    rw [List.cons_append, tokenAtoms, tokenAtoms, ih]
    simp only [hnames]

/-- The tree of a source says what its tokens say, in the same order. -/
theorem atoms_of_parse {source : String} {limits limits' : Limits} {stream : TokenStream}
    {t : Tree} (hlex : lex source limits = .ok stream) (h : parse stream limits' = .ok t) :
    (t.construct Tree.root).atoms = tokenAtoms stream.lexemes := by
  obtain ⟨pieces, hpieces⟩ := exists_pieces_of_lex hlex
  obtain ⟨r, xs, hreads, hshows, hsize⟩ := parse_sound h
  rw [hpieces.reader_eq (symbols_of_parse h)] at hreads
  have hregular : Reader.Regular ⟨pieces, .start, Position.start.advance source.toList⟩ := by
    intro l hl
    obtain ⟨p, hp, rfl⟩ := List.mem_map.mp hl
    have hmem : (p.lexeme, p.span) ∈ stream.placed := by
      rw [hpieces.placed]
      exact List.mem_append_left _ (List.mem_map_of_mem hp)
    exact (tiles_of_lex hlex).1.regular _ hmem
  have hr : r.rest = [] := hreads.rest_eq_nil (by simpa [Reader.lexemes] using hpieces.kind)
  obtain ⟨as, hsays, hatoms⟩ := hreads.says hregular rfl (by simp [Reader.kind, Reader.next, hr])
  rw [hshows.construct_eq (Nat.le_of_eq hsize.symm), atoms_of_not_isInfix rfl,
    hpieces.lexemes_eq, tokenAtoms_endOfInput]
  rw [Reader.lexemes, Reader.lexemes, hr] at hatoms
  rw [hatoms, hsays.eq_of_silent rfl]
  exact (List.append_nil _).symm

/-- A name of two segments, a call on a collection and a class among its elements, between
operators. -/
theorem atoms_of_mixedFunction : ∃ stream t,
    lex "module a.b\nfunction f = |x| -> not x or 1 < list['c', d.class]: size(x)" {} =
      .ok stream ∧ parse stream {} = .ok t ∧
    tokenAtoms stream.lexemes = [.name "a", .name "b", .name "f", .name "x", .operator "not",
      .name "x", .operator "or", .value (some (.integer 1)), .operator "<", .character "c",
      .name "d", .name "class", .name "size", .name "x"] ∧
    (t.construct Tree.root).atoms = tokenAtoms stream.lexemes := by
  have hparse : (lex "module a.b\nfunction f = |x| -> not x or 1 < list['c', d.class]: size(x)"
      {}).toOption.bind (fun stream => (parse stream {}).toOption.map fun _ =>
        decide (tokenAtoms stream.lexemes = [.name "a", .name "b", .name "f", .name "x",
          .operator "not", .name "x", .operator "or", .value (some (.integer 1)), .operator "<",
          .character "c", .name "d", .name "class", .name "size", .name "x"])) = some true := by
    decide +kernel
  cases hlex : lex "module a.b\nfunction f = |x| -> not x or 1 < list['c', d.class]: size(x)" {} with
  | error e =>
    rw [hlex] at hparse
    cases hparse
  | ok stream =>
    cases h : parse stream {} with
    | error e => simp [hlex, h, Except.toOption] at hparse
    | ok t =>
      simp only [hlex, h, Except.toOption, Option.bind_some, Option.map_some, Option.some.injEq,
        decide_eq_true_eq] at hparse
      exact ⟨stream, t, rfl, h, hparse, atoms_of_parse hlex h⟩

end GoloSyntax
