import GoloSyntax.Proofs.Reading.Forks

/-! # What is asked for

A fault lists what would have been accepted in place of the token that was found.  Where two
token lists part, our run asks for something in place of its token; if the other token is among
it (`Expected.Admits`), the other run is not to stop there.  It does all the same in two cases
(`Misleading`): our run is through with a `return` where the other one looks for its value, and the
methods of an augmentation may end with the input but not go on in the same line.

`Parting.Fits` says so of a rule.  Most of what a program does behind the last common token is
either to read the next one (`Insists`) or to be through (`Passes`).
-/
namespace GoloSyntax

/-- The token is one that is asked for.  A null literal stands for all expressions. -/
def Expected.Admits : Expected → Lexeme → Prop
  | .token kind, x => x.kind = kind
  | .name _, x => x.isName
  | .expression, x => x.kind = .keyword .null

@[simp] theorem Expected.admits_token {kind : TokenKind} {x : Lexeme} :
    (Expected.token kind).Admits x ↔ x.kind = kind := .rfl

@[simp] theorem Expected.admits_name {role : NameRole} {x : Lexeme} :
    (Expected.name role).Admits x ↔ x.isName := .rfl

@[simp] theorem Expected.admits_expression {x : Lexeme} :
    Expected.expression.Admits x ↔ x.kind = .keyword .null := .rfl

/-- A `return` that is followed by the token has no value. -/
def TokenKind.endsReturn : TokenKind → Bool
  | .newline | .mark .rightBrace | .endOfInput => true
  | _ => false

/-- What an augmentation holds. -/
def methodStarts : List Expected :=
  [.token (.keyword .function), .token (.keyword .local_), .token (.mark .rightBrace)]

/-- A token that is asked for, but not accepted: `before` is the last token in front of it and
`found` the one found in its place. -/
inductive Misleading (before : Option TokenKind) (found : TokenKind) (expected : List Expected) :
    TokenKind → Prop where
  /-- Behind `return` a value is read, unless what is found ends the statement. -/
  | value (hbefore : before = some (.keyword .return_)) (hfound : found.endsReturn) :
      Misleading before found expected (.mark .rightParen)
  /-- Between two functions of an augmentation stands a line feed. -/
  | method (word : Keyword) (hnewline : before ≠ some .newline)
      (hbrace : before ≠ some (.mark .leftBrace)) (hfound : found = .endOfInput)
      (hexpected : expected = methodStarts) (hword : word = .function ∨ word = .local_) :
      Misleading before found expected (.keyword word)

namespace Reading

namespace Parting

variable (F : Parting)

/-- Where it stands, the other token is not asked for, or the question misleads. -/
def Honest (expected : List Expected) : Prop :=
  ∀ w ∈ expected, w.Admits F.theirs → Misleading F.before F.ours.kind expected F.theirs.kind

/-- Two refusals fit if ours is honest. -/
def Lenient {α : Type} (there : Verdict α → Verdict α → Prop) : Prop :=
  ∀ expected expected', F.Honest expected → there (.refuses expected) (.refuses expected')

/-- The other run behind a rule that ours is through with.  The rule ends with no token that
another construct may begin behind at once; behind `return` our run may be through where the other
one is not. -/
def Keeps (rule : Rule) (v : Verdict NodeId) : Prop :=
  v.Then (fun _ => (rule = .statement ∨ rule = .return_) ∧ F.before = some (.keyword .return_) ∧
      F.ours.kind.endsReturn ∧ F.theirs.kind.endsReturn = false)
    fun _ => F.before ≠ some .newline ∧ F.before ≠ some (.mark .leftBrace)

/-- Two verdicts on a whole compilation unit fit: where both ask for something, ours is honest. -/
def Agrees (v v' : Verdict NodeId) : Prop :=
  v.Then (fun expected => v'.Then (fun _ => F.Honest expected) fun _ => True) fun _ => True

/-- The verdicts of a rule on two tokens fit. -/
def Fits (rule : Rule) : Prop :=
  F.Lockstep F.Keeps rule.reading (fun _ _ => True)
    (fun v v' => v.Then F.Honest fun _ => F.Keeps rule v') none

end Parting

variable {F : Parting} {rule : Rule} {α β σ : Type} {here : α → Option Lexeme → Prop}
  {there : Verdict α → Verdict α → Prop} {o : Option Lexeme}

namespace Parting

/-- A rule reads what it asks for. -/
theorem starts_of_admits (hrule : rule ≠ .compilationUnit) (x : Lexeme) :
    ∀ wanted ∈ rule.asks, wanted.Admits x → rule.starts x.kind := by
  cases rule <;>
    simp +contextual [Rule.asks, Rule.starts, Rule.expressionStarts, Rule.primaryStarts,
      Lexeme.isName] at hrule ⊢

@[simp] theorem honest_of_not_admits {expected : List Expected}
    (h : ∀ wanted ∈ expected, ¬ wanted.Admits F.theirs) : F.Honest expected :=
  fun wanted hwanted hadmits => absurd hadmits (h wanted hwanted)

@[simp] theorem honest_asks (hrule : rule ≠ .compilationUnit)
    (h : rule.starts F.theirs.kind = false) : F.Honest rule.asks := by
  refine honest_of_not_admits fun wanted hwanted hadmits => ?_
  rw [starts_of_admits hrule _ wanted hwanted hadmits] at h
  cases h

@[simp] theorem keeps_refuses {expected : List Expected} : F.Keeps rule (.refuses expected) ↔
    (rule = .statement ∨ rule = .return_) ∧ F.before = some (.keyword .return_) ∧
      F.ours.kind.endsReturn ∧ F.theirs.kind.endsReturn = false := .rfl

@[simp] theorem keeps_passes {id : NodeId} : F.Keeps rule (.passes id) ↔
    F.before ≠ some .newline ∧ F.before ≠ some (.mark .leftBrace) := .rfl

@[simp] theorem lenient_joins {next : α → Reading β} {there : Verdict β → Verdict β → Prop} :
    F.Lenient (fun v v' => F.Joins v v' next there) ↔ F.Lenient there := by
  simp [Lenient]

@[simp] theorem lenient_then {kept : α → Verdict α → Prop} :
    F.Lenient (fun v v' => v.Then F.Honest fun a => kept a v') := fun _ _ h => h

@[simp] theorem agrees_refuses {expected expected' : List Expected} :
    F.Agrees (.refuses expected) (.refuses expected') ↔ F.Honest expected := .rfl

@[simp] theorem agrees_passes {id : NodeId} (v : Verdict NodeId) : F.Agrees (.passes id) v :=
  trivial

@[simp] theorem agrees_refuses_passes {expected : List Expected} {id : NodeId} :
    F.Agrees (.refuses expected) (.passes id) := trivial

@[simp] theorem lenient_agrees : F.Lenient F.Agrees := fun _ _ h => h

/-- A call of a rule that does not end with a `return`. -/
@[simp ↓] theorem returns_iff (hstatement : rule ≠ .statement) (hreturn : rule ≠ .return_)
    {next : NodeId → Reading α} : F.Returns F.Keeps rule next there ↔
      (F.before ≠ some .newline → F.before ≠ some (.mark .leftBrace) → ∀ id id',
        (next id).Rests F.ours fun v => (next id').Rests F.theirs (there v)) := by
  constructor
  · intro h hnewline hbrace id id'
    exact joins_passes.mp (h id (.passes id') ⟨hnewline, hbrace⟩)
  · rintro h id (expected | id') hv
    · exact absurd hv.1 (by simp [hstatement, hreturn])
    · exact joins_passes.mpr (h hv.1 hv.2 id id')

end Parting

/-! ## Programs that read the next token -/

/-- A program reads the next token unless it is none of those listed, and asks for some of these
then. -/
def Insists (m : Reading α) (wanted : List Expected) : Prop :=
  ∀ x : Lexeme, m.Rests x fun v => ∃ expected, v = .refuses expected ∧ expected ⊆ wanted ∧
    ∀ w ∈ wanted, ¬ w.Admits x

namespace Insists

variable {wanted : List Expected}

theorem intro {m : Reading α} (wanted : List Expected)
    (h : ∀ x : Lexeme, m.Rests x fun v => ∃ expected, v = .refuses expected ∧ expected ⊆ wanted ∧
      ∀ w ∈ wanted, ¬ w.Admits x) : Insists m wanted := h

theorem meets {m : Reading α} (h : Insists m wanted) (hthere : F.Lenient there) :
    F.Meets m there := by
  intro v hv v' hv'
  obtain ⟨expected, rfl, hwanted, -⟩ := h F.ours v hv
  obtain ⟨expected', rfl, -, hnone⟩ := h F.theirs v' hv'
  exact hthere _ _ (Parting.honest_of_not_admits fun w hw => hnone w (hwanted hw))

theorem bind {m : Reading β} {f : β → Reading α} (h : Insists m wanted) :
    Insists (m >>= f) wanted := by
  refine fun x => (rests_bind m f).mpr ((h x).imp ?_)
  rintro _ ⟨expected, rfl, hrefused⟩
  exact ⟨expected, rfl, hrefused⟩

theorem openNode {kind : NodeKind} {f : NodeId → Reading α} (h : ∀ id, Insists (f id) wanted) :
    Insists (openNode kind >>= f) wanted :=
  fun x => (rests_bind _ f).mpr (rests_openNode.mpr fun id => h id x)

theorem leaf {kind : NodeKind} {f : NodeId → Reading α} (h : ∀ id, Insists (f id) wanted) :
    Insists (leaf kind >>= f) wanted :=
  fun x => (rests_bind _ f).mpr (rests_leaf.mpr fun id => h id x)

theorem attach {parent child : NodeId} {f : Unit → Reading α} (h : Insists (f ()) wanted) :
    Insists (attach parent child >>= f) wanted :=
  fun x => (rests_bind _ f).mpr (rests_attach.mpr (h x))

theorem skipNewlines {f : Unit → Reading α} (h : Insists (f ()) wanted) :
    Insists (skipNewlines >>= f) wanted :=
  fun x => (rests_bind _ f).mpr (rests_skipNewlines.mpr fun _ => h x)

/-- Line feeds have been read in front of the next token. -/
theorem skipped {f : Unit → Reading α} (h : Insists (Reading.skipNewlines >>= f) wanted)
    (hours : F.ours.kind ≠ .newline) (htheirs : F.theirs.kind ≠ .newline)
    (hthere : F.Lenient there) : F.Meets (f ()) there := by
  have hmeets := h.meets hthere
  simp only [Parting.meets_iff, rests_bind, rests_skipNewlines, then_passes] at hmeets
  exact (hmeets hours).imp fun v hv => hv htheirs

theorem peek {f : TokenKind → Reading α} (wanted : List Expected)
    (h : ∀ x : Lexeme, (f x.kind).Rests x fun v => ∃ expected, v = .refuses expected ∧
      expected ⊆ wanted ∧ ∀ w ∈ wanted, ¬ w.Admits x) : Insists (peek >>= f) wanted :=
  fun x => (rests_bind _ f).mpr (rests_peek.mpr (h x))

theorem expect {sign : Mark} : Insists (expect (.mark sign)) [.token (.mark sign)] :=
  fun x => rests_expect_mark.mpr fun h => by simpa using h

theorem identifier {role : NameRole} : Insists (identifier role) [.name role] :=
  fun x => rests_identifier.mpr fun h => by simpa using h

theorem enter (rule : Rule) (hrule : rule ≠ .compilationUnit) : Insists (enter rule) rule.asks := by
  refine fun x => (rests_enter hrule).mpr fun h =>
    ⟨_, rfl, List.Subset.refl _, fun w hw hadmits => ?_⟩
  rw [Parting.starts_of_admits hrule x w hw hadmits] at h
  cases h

theorem child {parent : NodeId} (rule : Rule) (hrule : rule ≠ .compilationUnit) :
    Insists (child parent rule) rule.asks := (enter rule hrule).bind

theorem framed {m : Reading α} (h : Insists m wanted) : Insists (framed m) wanted :=
  fun x => rests_framed.mpr (h x)

theorem repeating {round : σ → Reading (Round σ β)} {state : σ} (h : Insists (round state) wanted) :
    Insists (repeating state round) wanted := by
  refine fun x => rests_repeat.mpr ((h x).imp ?_)
  rintro _ ⟨expected, rfl, hrefused⟩
  exact ⟨expected, rfl, hrefused⟩

/-- One more round. -/
theorem onward {round : σ → Reading (Round σ β)} {next : β → Reading α} {state : σ}
    (h : Insists (round state) wanted) : Insists ((Round.again state).onward round next) wanted :=
  show Insists (Reading.repeating state round >>= next) wanted from (repeating h).bind

theorem again {round : σ → Reading (Round σ β)} {next : β → Reading α} {state : σ}
    (h : Insists (round state) wanted) (hthere : F.Lenient there) :
    F.Meets (pure (Round.again state)) fun v v' => F.Joins v v' (·.onward round next) there :=
  Parting.meets_joins.mpr (Insists.meets (m := pure (Round.again state) >>= _) (onward h) hthere)

end Insists

/-! ## Programs that are through -/

/-- A program reads the next token or is through with an answer. -/
def Passes (m : Reading α) (a : α) : Prop := ∀ x : Lexeme, m.Rests x (· = .passes a)

namespace Passes

variable {a a' : α} {b b' : β}

theorem meets {m : Reading α} (h : Passes m a) (hthere : there (.passes a) (.passes a)) :
    F.Meets m there := by
  intro v hv v' hv'
  rwa [h F.ours v hv, h F.theirs v' hv']

theorem joins {next : β → Reading α} (h : Passes (next b) a) (h' : Passes (next b') a')
    (hthere : there (.passes a) (.passes a')) : F.Joins (.passes b) (.passes b') next there := by
  refine Parting.joins_passes.mpr fun v hv v' hv' => ?_
  rwa [h F.ours v hv, h' F.theirs v' hv']

theorem bind {m : Reading β} {f : β → Reading α} (h : Passes m b) (hf : Passes (f b) a) :
    Passes (m >>= f) a := by
  refine fun x => (rests_bind m f).mpr ((h x).imp ?_)
  rintro _ rfl
  exact hf x

/-- A repetition that is over unless it reads something. -/
theorem repeating {round : σ → Reading (Round σ β)} {state : σ}
    (h : Passes (round state) (.stop b)) : Passes (repeating state round) b := by
  refine fun x => rests_repeat.mpr ((h x).imp ?_)
  rintro _ rfl
  exact (rests_pure b).mpr rfl

end Passes

end Reading

end GoloSyntax
