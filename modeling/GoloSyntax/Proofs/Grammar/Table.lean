import GoloSyntax.Grammar.Rule
import GoloSyntax.Token.Basic

/-! # The grammar as a table

The grammar of the language, independent of any way to read it.  A `Phrase` is a
nonterminal.  Its alternatives are sequences of `Item`s (`Alternative`), and an
alternative may say what node it makes; an alternative without a node only passes on
what its parts are.  `Derives` is what the table generates: the words of a context-free
grammar over lexemes.

Line feeds are written where they may stand: `newlines` is any number of them.  Names
carry their texts, because one place of the grammar depends on a text, the name of a
class (`a.b.class`), and so do the words in front of collections.
-/
namespace GoloSyntax

/-- What stands one to a line between braces: the statements of a block, the functions of
an augmentation. -/
inductive LineForm where
  | statements
  | functions
deriving DecidableEq, Repr

/-- A nonterminal of the grammar. -/
inductive Phrase where
  | compilationUnit
  /-- What follows a declaration of the top level, up to the end of input. -/
  | declarations (imports : Bool)
  | moduleDeclaration
  | importDeclaration
  | topLevel
  | functionDeclaration
  /-- Parameters and body; a function that is an expression does not begin with a
  brace. -/
  | function (closure : Bool)
  | parameterList (varargs : Bool)
  | parameters (varargs : Bool)
  | parameter
  | augmentation
  | struct
  /-- Members up to the closing brace. -/
  | members
  | member
  | block
  /-- Lines up to the closing brace. -/
  | lines (form : LineForm)
  /-- What follows a line, up to the closing brace. -/
  | linesTail (form : LineForm)
  | statement
  | letOrVar
  | assignment
  | return_
  | throw
  | if_
  | while_
  | for_
  | forEach
  | try_
  | catch_
  | finally_
  | case_
  | match_
  | arms (form : BranchForm)
  /-- Arms up to the last one; `seen` once there is a `when` among them. -/
  | whens (form : BranchForm) (seen : Bool)
  | when_ (form : BranchForm)
  | otherwise (form : BranchForm)
  | expression (minPrecedence : Nat)
  /-- Operands joined by operators, the last of which is the outermost. -/
  | operands (minPrecedence : Nat)
  | unary
  | chain
  /-- A primary expression with the calls made on it, the last of which is the
  outermost. -/
  | calls
  | arguments
  /-- Arguments up to the closing parenthesis. -/
  | argumentList
  | primary
  | named
  | collection
  /-- Elements up to the closing bracket. -/
  | elements
deriving DecidableEq, Repr

/-- What a line holds. -/
def LineForm.element : LineForm → Phrase
  | statements => .statement
  | functions => .functionDeclaration

/-- What an alternative is a sequence of. -/
inductive Item where
  /-- A token of one kind. -/
  | token (kind : TokenKind)
  /-- Any number of line feeds. -/
  | newlines
  /-- The identifier with this text. -/
  | identifier (name : String)
  /-- Identifiers with these texts, joined by points. -/
  | qualified (segments : List String)
  /-- A literal with this value. -/
  | literal (value : Literal)
  | part (phrase : Phrase)

namespace Item

abbrev word (keyword : Keyword) : Item := token (.keyword keyword)

abbrev sign (mark : Mark) : Item := token (.mark mark)

end Item

/-- Segments joined by points as one name. -/
def dotted : List String → String
  | [] => ""
  | first :: rest => rest.foldl (fun name segment => name ++ "." ++ segment) first

/-- What a name of some segments stands for that is not called. -/
abbrev Naming : Type := List String → NodeKind → Prop

/-- One segment is a reference; several segments must end in `class` and denote the
class named by those in front. -/
inductive Naming.plain : Naming where
  | reference (name : String) : plain [name] (.reference name)
  | classLiteral {segments : List String} (h : segments ≠ []) :
    plain (segments ++ ["class"]) (.classLiteral (dotted segments))

/-- The phrases that are statements. -/
def Phrase.statementForms : List Phrase :=
  [.letOrVar, .assignment, .return_, .throw, .if_, .while_, .for_, .forEach, .try_, .case_,
    .expression 0]

open Item in
/-- The alternatives of each phrase, with the kind of the node that each makes. -/
inductive Alternative (naming : Naming) : Phrase → List Item → Option NodeKind → Prop where
  | compilationUnit :
    Alternative naming .compilationUnit
      [newlines, part .moduleDeclaration, part (.declarations true)] none
  -- A declaration ends with a line feed, or with the input.
  | declarationsEnd (imports : Bool) : Alternative naming (.declarations imports) [] none
  | declarationsNewlines (imports : Bool) :
    Alternative naming (.declarations imports) [token .newline, newlines] none
  | declarationsImport :
    Alternative naming (.declarations true)
      [token .newline, newlines, part .importDeclaration, part (.declarations true)] none
  | declarationsTopLevel (imports : Bool) :
    Alternative naming (.declarations imports)
      [token .newline, newlines, part .topLevel, part (.declarations false)] none
  | moduleDeclaration (segments : List String) :
    Alternative naming .moduleDeclaration [word .module_, qualified segments]
      (some (.module_ (dotted segments)))
  | importDeclaration (segments : List String) :
    Alternative naming .importDeclaration [word .import_, qualified segments]
      (some (.import_ (dotted segments)))
  | topLevelFunction : Alternative naming .topLevel [part .functionDeclaration] none
  | topLevelAugmentation : Alternative naming .topLevel [part .augmentation] none
  | topLevelStruct : Alternative naming .topLevel [part .struct] none
  | functionDeclaration (name : String) :
    Alternative naming .functionDeclaration
      [word .function, identifier name, sign .assign, part (.function false)]
      (some (.functionDeclaration name false))
  | localFunctionDeclaration (name : String) :
    Alternative naming .functionDeclaration
      [word .local_, word .function, identifier name, sign .assign, part (.function false)]
      (some (.functionDeclaration name true))
  | functionBlock :
    Alternative naming (.function false) [part .block] (some (.function false false))
  | functionArrow (closure : Bool) :
    Alternative naming (.function closure) [sign .arrow, newlines, part (.expression 0)]
      (some (.function false true))
  | functionParametersBlock (closure varargs : Bool) :
    Alternative naming (.function closure) [part (.parameterList varargs), part .block]
      (some (.function varargs false))
  | functionParametersArrow (closure varargs : Bool) :
    Alternative naming (.function closure)
      [part (.parameterList varargs), sign .arrow, newlines, part (.expression 0)]
      (some (.function varargs true))
  | parameterListEmpty :
    Alternative naming (.parameterList false) [sign .pipe, sign .pipe] none
  | parameterList (varargs : Bool) :
    Alternative naming (.parameterList varargs)
      [sign .pipe, part (.parameters varargs), sign .pipe] none
  | parametersLast : Alternative naming (.parameters false) [part .parameter] none
  | parametersVarargs :
    Alternative naming (.parameters true) [part .parameter, sign .ellipsis] none
  | parametersMore (varargs : Bool) :
    Alternative naming (.parameters varargs)
      [part .parameter, sign .comma, part (.parameters varargs)] none
  | parameter (name : String) :
    Alternative naming .parameter [identifier name] (some (.parameter name))
  | augmentation (segments : List String) :
    Alternative naming .augmentation
      [word .augment, qualified segments, sign .leftBrace, part (.lines .functions)]
      (some (.augmentation (dotted segments)))
  | struct (name : String) :
    Alternative naming .struct
      [word .struct, identifier name, sign .assign, sign .leftBrace, part .members]
      (some (.struct name))
  | membersMore :
    Alternative naming .members
      [newlines, part .member, newlines, sign .comma, part .members] none
  | membersLast :
    Alternative naming .members [newlines, part .member, newlines, sign .rightBrace] none
  | member (name : String) :
    Alternative naming .member [identifier name] (some (.member name))
  | block :
    Alternative naming .block [sign .leftBrace, part (.lines .statements)] (some .block)
  | linesEnd (form : LineForm) :
    Alternative naming (.lines form) [newlines, sign .rightBrace] none
  | linesMore (form : LineForm) :
    Alternative naming (.lines form) [newlines, part form.element, part (.linesTail form)] none
  | linesTailEnd (form : LineForm) : Alternative naming (.linesTail form) [sign .rightBrace] none
  | linesTailMore (form : LineForm) :
    Alternative naming (.linesTail form) [token .newline, newlines, part (.lines form)] none
  | statement {form : Phrase} (h : form ∈ Phrase.statementForms) :
    Alternative naming .statement [part form] none
  | break_ : Alternative naming .statement [word .break_] (some .break_)
  | continue_ : Alternative naming .statement [word .continue_] (some .continue_)
  | let_ (name : String) :
    Alternative naming .letOrVar
      [word .let_, identifier name, sign .assign, newlines, part (.expression 0)]
      (some (.letOrVar name false))
  | var (name : String) :
    Alternative naming .letOrVar
      [word .var, identifier name, sign .assign, newlines, part (.expression 0)]
      (some (.letOrVar name true))
  | assignment (name : String) :
    Alternative naming .assignment
      [identifier name, sign .assign, newlines, part (.expression 0)]
      (some (.assignment name))
  | returnVoid : Alternative naming .return_ [word .return_] (some .return_)
  | returnValue :
    Alternative naming .return_ [word .return_, part (.expression 0)] (some .return_)
  | throw : Alternative naming .throw [word .throw, part (.expression 0)] (some .throw)
  | if_ :
    Alternative naming .if_ [word .if_, part (.expression 0), part .block] (some .if_)
  | ifElseIf :
    Alternative naming .if_
      [word .if_, part (.expression 0), part .block, word .else_, part .if_] (some .if_)
  | ifElse :
    Alternative naming .if_
      [word .if_, part (.expression 0), part .block, word .else_, part .block] (some .if_)
  | while_ :
    Alternative naming .while_ [word .while_, part (.expression 0), part .block] (some .while_)
  | for_ :
    Alternative naming .for_
      [word .for_, sign .leftParen, newlines, part .letOrVar, newlines, sign .comma, newlines,
        part (.expression 0), newlines, sign .comma, newlines, part .statement, newlines,
        sign .rightParen, part .block]
      (some .for_)
  | forEach (name : String) :
    Alternative naming .forEach
      [word .foreach, identifier name, word .in_, part (.expression 0), part .block]
      (some (.forEach name))
  | forEachParenthesized (name : String) :
    Alternative naming .forEach
      [word .foreach, sign .leftParen, identifier name, word .in_, part (.expression 0),
        sign .rightParen, part .block]
      (some (.forEach name))
  | tryCatch :
    Alternative naming .try_ [word .try_, part .block, part .catch_] (some .try_)
  | tryCatchFinally :
    Alternative naming .try_ [word .try_, part .block, part .catch_, part .finally_] (some .try_)
  | tryFinally :
    Alternative naming .try_ [word .try_, part .block, part .finally_] (some .try_)
  | catch_ (name : String) :
    Alternative naming .catch_
      [word .catch_, sign .leftParen, identifier name, sign .rightParen, part .block]
      (some (.catch_ name))
  | finally_ : Alternative naming .finally_ [word .finally_, part .block] (some .finally_)
  | case_ : Alternative naming .case_ [word .case_, part (.arms .blocks)] (some .case_)
  | match_ : Alternative naming .match_ [word .match_, part (.arms .values)] (some .match_)
  | arms (form : BranchForm) :
    Alternative naming (.arms form)
      [sign .leftBrace, part (.whens form false), newlines, sign .rightBrace] none
  | whensMore (form : BranchForm) (seen : Bool) :
    Alternative naming (.whens form seen)
      [newlines, part (.when_ form), part (.whens form true)] none
  | whensLast (form : BranchForm) :
    Alternative naming (.whens form true) [newlines, part (.otherwise form)] none
  | whenBlock :
    Alternative naming (.when_ .blocks) [word .when_, part (.expression 0), part .block]
      (some .when_)
  | whenValue :
    Alternative naming (.when_ .values)
      [word .when_, part (.expression 0), newlines, word .then_, newlines, part (.expression 0)]
      (some .when_)
  | otherwiseBlock :
    Alternative naming (.otherwise .blocks) [word .otherwise, part .block] (some .otherwise)
  | otherwiseValue :
    Alternative naming (.otherwise .values) [word .otherwise, newlines, part (.expression 0)]
      (some .otherwise)
  | expression (minPrecedence : Nat) :
    Alternative naming (.expression minPrecedence) [part (.operands minPrecedence)] none
  | operandsFirst (minPrecedence : Nat) :
    Alternative naming (.operands minPrecedence) [part .unary] none
  | operandsMore {minPrecedence : Nat} {op : BinaryOperator} {kind : TokenKind}
      (hop : BinaryOperator.ofToken? kind = some op) (hmin : minPrecedence ≤ op.precedence) :
    Alternative naming (.operands minPrecedence)
      [part (.operands minPrecedence), token kind, newlines, part (.expression (op.precedence + 1))]
      (some (.binary op))
  | unaryChain : Alternative naming .unary [part .chain] none
  | unary {op : UnaryOperator} {kind : TokenKind} (hop : UnaryOperator.ofToken? kind = some op) :
    Alternative naming .unary [token kind, part (.expression UnaryOperator.precedence)]
      (some (.unary op))
  | chain : Alternative naming .chain [part .calls] none
  | callsFirst : Alternative naming .calls [part .primary] none
  | callsMethod (name : String) :
    Alternative naming .calls [part .calls, sign .colon, identifier name, part .arguments]
      (some (.methodInvocation name))
  | callsAnonymous :
    Alternative naming .calls [part .calls, part .arguments] (some .anonymousCall)
  | argumentsNone :
    Alternative naming .arguments [sign .leftParen, newlines, sign .rightParen] none
  | arguments :
    Alternative naming .arguments [sign .leftParen, newlines, part .argumentList] none
  | argumentsLast :
    Alternative naming .argumentList [part (.expression 0), newlines, sign .rightParen] none
  | argumentsMore :
    Alternative naming .argumentList
      [part (.expression 0), newlines, sign .comma, newlines, part .argumentList] none
  | literal (value : Literal) :
    Alternative naming .primary [literal value] (some (.literal value))
  | grouping :
    Alternative naming .primary
      [sign .leftParen, newlines, part (.expression 0), newlines, sign .rightParen] none
  | closure : Alternative naming .primary [part (.function true)] none
  | functionRef (segments : List String) :
    Alternative naming .primary [sign .caret, qualified segments]
      (some (.functionRef (dotted segments)))
  | matchPrimary : Alternative naming .primary [part .match_] none
  | tuple : Alternative naming .primary [part .collection] (some (.collection .tuple))
  | collectionWord {word : String} {type : CollectionKind}
      (hword : CollectionKind.ofWord? word = some type) :
    Alternative naming .primary [identifier word, part .collection] (some (.collection type))
  | named : Alternative naming .primary [part .named] none
  | invocation (segments : List String) :
    Alternative naming .named [qualified segments, part .arguments]
      (some (.functionInvocation (dotted segments)))
  | bareName {segments : List String} {kind : NodeKind} (h : naming segments kind) :
    Alternative naming .named [qualified segments] (some kind)
  | collection : Alternative naming .collection [sign .leftBracket, part .elements] none
  | elementsEnd : Alternative naming .elements [newlines, sign .rightBracket] none
  | elementsLast :
    Alternative naming .elements
      [newlines, part (.expression 0), newlines, sign .rightBracket] none
  | elementsMore :
    Alternative naming .elements
      [newlines, part (.expression 0), newlines, sign .comma, part .elements] none

/-! ## Words of the grammar -/

/-- Whether tokens of a kind are literals. -/
def TokenKind.isLiteral : TokenKind → Bool
  | .number _ | .string _ | .character => true
  | .keyword .null | .keyword .true_ | .keyword .false_ => true
  | _ => false

/-- Identifiers with the given texts, joined by points. -/
inductive Dotted : List String → List Lexeme → Prop where
  | last (name : String) : Dotted [name] [⟨.identifier, some name⟩]
  | more {name : String} {segments : List String} {dot : Lexeme} {w : List Lexeme}
      (hdot : dot.kind = .mark .dot) (h : Dotted segments w) :
    Dotted (name :: segments) (⟨.identifier, some name⟩ :: dot :: w)

/-- What each phrase may be replaced by, and the node that is made. -/
abbrev Rules : Type := Phrase → List Item → Option NodeKind → Prop

/-- The lexemes that a sequence of items generates. -/
inductive Derives (rules : Rules) : List Item → List Lexeme → Prop where
  | nil : Derives rules [] []
  | token {l : Lexeme} {items : List Item} {w : List Lexeme}
      (h : Derives rules items w) : Derives rules (.token l.kind :: items) (l :: w)
  | newlines {ns : List Lexeme} {items : List Item} {w : List Lexeme}
      (hns : ∀ l ∈ ns, l.kind = .newline) (h : Derives rules items w) :
    Derives rules (.newlines :: items) (ns ++ w)
  | identifier {name : String} {items : List Item} {w : List Lexeme}
      (h : Derives rules items w) :
    Derives rules (.identifier name :: items) (⟨.identifier, some name⟩ :: w)
  | qualified {segments : List String} {items : List Item} {u w : List Lexeme}
      (hu : Dotted segments u) (h : Derives rules items w) :
    Derives rules (.qualified segments :: items) (u ++ w)
  | literal {value : Literal} {l : Lexeme} {items : List Item} {w : List Lexeme}
      (hl : l.kind.isLiteral) (h : Derives rules items w) :
    Derives rules (.literal value :: items) (l :: w)
  | part {phrase : Phrase} {body items : List Item} {kind : Option NodeKind} {u w : List Lexeme}
      (alt : rules phrase body kind) (hu : Derives rules body u) (h : Derives rules items w) :
    Derives rules (.part phrase :: items) (u ++ w)

/-- The sentences of the language: the lexemes of a source text, the end of input not
among them, that make up a compilation unit. -/
def Sentence (w : List Lexeme) : Prop :=
  Derives (Alternative Naming.plain) [.part .compilationUnit] w

end GoloSyntax
