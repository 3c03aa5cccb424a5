import GoloSyntax.Proofs.Grammar.Parts
import GoloSyntax.Proofs.Shape.Layout

/-! # Expressions out of context

Wherever an expression stands in a compilation unit, it was read as one of a few phrases
(`Reads.operand_below`), and it would be read the same way as a whole expression if the input
ended behind it (`Reads.expression_of_operand`).  The levels of nesting that lead from an
expression to its operand are at least as many as are used up in front of the operand, so this
takes no level more than the first time.
-/
namespace GoloSyntax

def NodeKind.isFunction : NodeKind → Bool
  | .function .. => true
  | _ => false

/-- The phrases that the nodes of expressions are read as. -/
def Phrase.isOperand : Phrase → Bool
  | .match_ | .operands _ | .unary | .calls | .primary | .named | .function true => true
  | _ => false

/-- A number of levels that are used up in a compilation unit before a phrase is entered. -/
def Phrase.outside : Phrase → Nat
  | .compilationUnit => 0
  | .moduleDeclaration | .importDeclaration | .declarations _ | .topLevel | .functionDeclaration
  | .augmentation | .struct | .members | .member | .lines .functions | .linesTail .functions => 1
  | .function false => 2
  | .operands _ | .unary => 4
  | .chain => 5
  | .calls | .primary => 6
  | .named | .match_ | .function true => 7
  | _ => 3

/-- A number of nodes that a compilation unit has above the nodes of a phrase, besides its own
and that of the module; of no account for phrases without expressions. -/
def Phrase.above : Phrase → Nat
  | .compilationUnit | .moduleDeclaration | .importDeclaration | .declarations _ | .topLevel
  | .functionDeclaration | .augmentation | .struct | .members | .member | .lines .functions
  | .linesTail .functions => 2
  | .function false => 1
  | _ => 0

variable {naming : Naming} {N K n k : Nat} {items : List Item} {phrase q : Phrase}
  {body : List Item} {kind : Option NodeKind} {s r : Reader} {xs : List Construct}
  {x y p : Construct}

/-- Whether something holds of every phrase among the items. -/
def Item.allPhrases (f : Phrase → Bool) (items : List Item) : Bool :=
  items.all fun
    | .part phrase => f phrase
    | _ => true

theorem Item.of_allPhrases {f : Phrase → Bool} (h : allPhrases f items) (hq : .part q ∈ items) :
    f q :=
  List.all_eq_true.mp h _ hq

namespace Alternative

theorem outside_le (alt : Alternative naming phrase body kind) (hq : .part q ∈ body) :
    q.outside ≤ phrase.outside + phrase.level := by
  have h : Item.allPhrases (fun q => q.outside ≤ phrase.outside + phrase.level) body := by
    cases alt with
    | statement hform =>
      simp only [Phrase.statementForms, List.mem_cons, List.not_mem_nil, or_false] at hform
      rcases hform with rfl | rfl | rfl | rfl | rfl | rfl | rfl | rfl | rfl | rfl | rfl <;> rfl
    | linesMore form | linesTailMore form => cases form <;> rfl
    | functionArrow closure | functionParametersBlock closure | functionParametersArrow closure =>
      cases closure <;> rfl
    | _ => rfl
  exact of_decide_eq_true (Item.of_allPhrases h hq)

theorem above_le (alt : Alternative naming phrase body kind) (hq : .part q ∈ body) :
    phrase.above ≤ q.above + if kind.isSome then 1 else 0 := by
  have h : Item.allPhrases (fun q => phrase.above ≤ q.above + if kind.isSome then 1 else 0)
      body := by
    cases alt with
    | statement hform =>
      simp only [Phrase.statementForms, List.mem_cons, List.not_mem_nil, or_false] at hform
      rcases hform with rfl | rfl | rfl | rfl | rfl | rfl | rfl | rfl | rfl | rfl | rfl <;> rfl
    | linesMore form | linesTailMore form => cases form <;> rfl
    | functionArrow closure | functionParametersBlock closure | functionParametersArrow closure =>
      cases closure <;> rfl
    | _ => rfl
  exact of_decide_eq_true (Item.of_allPhrases h hq)

/-- Only declarations have functions that are not expressions. -/
theorem of_function (alt : Alternative naming phrase body kind)
    (hq : .part (.function false) ∈ body) : ∃ name isLocal,
      kind = some (.functionDeclaration name isLocal) := by
  cases alt with
  | functionDeclaration | localFunctionDeclaration => exact ⟨_, _, rfl⟩
  | statement hform =>
    simp only [Phrase.statementForms, List.mem_cons, List.not_mem_nil, or_false] at hform
    rcases hform with rfl | rfl | rfl | rfl | rfl | rfl | rfl | rfl | rfl | rfl | rfl <;>
      simp at hq
  | linesMore form => cases form <;> simp [LineForm.element] at hq
  | _ => simp at hq

/-- The node of an expression is made by an operand or by a function. -/
theorem isOperand {kind : NodeKind} (alt : Alternative naming phrase body (some kind))
    (hkind : kind.isExpression) :
    phrase.isOperand ∨ phrase = .function false ∧ kind.isFunction := by
  cases alt with
  | functionArrow closure | functionParametersBlock closure | functionParametersArrow closure =>
    cases closure
    · exact .inr ⟨rfl, rfl⟩
    · exact .inl rfl
  | functionBlock => exact .inr ⟨rfl, rfl⟩
  | _ => first | exact .inl rfl | cases hkind

end Alternative

theorem Phrase.above_of_isOperand (h : phrase.isOperand) : phrase.above = 0 := by
  cases phrase with
  | function closure => cases closure <;> first | rfl | cases h
  | _ => first | rfl | cases h

theorem Phrase.closes_of_isOperand (h : phrase.isOperand) : phrase.closes := by
  cases phrase <;> first | rfl | cases h

theorem Phrase.outside_of_isOperand (h : phrase.isOperand) : 3 ≤ phrase.outside := by
  cases phrase with
  | function closure => cases closure <;> simp_all [isOperand, outside]
  | _ => simp_all [isOperand, outside]

/-- Between `s` and `r` stands an operand that was read as `y`, no deeper than `N` levels in
all. -/
structure Operand (naming : Naming) (N : Nat) (s r : Reader) (y : Construct) : Prop where
  reads : ∃ k phrase s' r', phrase.isOperand ∧ k + phrase.outside ≤ N ∧
    Reads naming k [.part phrase] s' r' [y] ∧ y.span = ⟨s'.start, r'.lastEnd⟩ ∧
    s'.rest <:+ s.rest ∧ r.rest <:+ r'.rest

theorem Operand.extend {s' r' : Reader} (h : Operand naming N s' r' y) (hs : s'.rest <:+ s.rest)
    (hr : r.rest <:+ r'.rest) : Operand naming N s r y := by
  obtain ⟨k, phrase, s₁, r₁, hphrase, hN, hreads, hspan, hs₁, hr₁⟩ := h.reads
  exact ⟨k, phrase, s₁, r₁, hphrase, hN, hreads, hspan, hs₁.trans hs, hr.trans hr₁⟩

/-- `y` was read as an operand by one of the items, or it is the function of a declaration. -/
def Found (naming : Naming) (N : Nat) (items : List Item) (s r : Reader) (y : Construct) : Prop :=
  (Operand naming N s r y ∧ ∃ q, .part q ∈ items ∧ q.above = 0) ∨
    (.part (.function false) ∈ items ∧ y.kind.isFunction)

theorem Found.cons {s' : Reader} {item : Item} (h : Found naming N items s' r y)
    (hs : s'.rest <:+ s.rest) : Found naming N (item :: items) s r y := by
  rcases h with ⟨hoperand, q, hq, habove⟩ | ⟨hq, hfunction⟩
  · exact .inl ⟨hoperand.extend hs List.suffix_rfl, q, List.mem_cons_of_mem _ hq, habove⟩
  · exact .inr ⟨List.mem_cons_of_mem _ hq, hfunction⟩

/-- What is read as an expression is found among what the items are read as. -/
theorem Reads.found (h : Reads naming n items s r xs)
    (hN : ∀ q, .part q ∈ items → n + q.outside ≤ N) (hy : y ∈ xs) (hkind : y.kind.isExpression) :
    Found naming N items s r y := by
  induction h with
  | nil => cases hy
  | token _ _ h ih | identifier _ h ih | literal _ h ih =>
    exact (ih (fun q hq => hN q (List.mem_cons_of_mem _ hq)) hy).cons (Reader.rest_advance_suffix _)
  | newlines h ih =>
    exact (ih (fun q hq => hN q (List.mem_cons_of_mem _ hq)) hy).cons
      (Reader.rest_skipNewlines_suffix _)
  | qualified hname h ih =>
    exact (ih (fun q hq => hN q (List.mem_cons_of_mem _ hq)) hy).cons hname.rest_suffix
  | @part n m phrase body items kind s s' r xs ys alt hn hsettles hbody h ihbody ih =>
    have hphrase := hN phrase List.mem_cons_self
    have hinner : ∀ q, .part q ∈ body → m + q.outside ≤ N := fun q hq => by
      have := alt.outside_le hq
      omega
    rcases List.mem_append.mp hy with hy | hy
    · cases kind with
      | none =>
        rcases ihbody hinner hy with ⟨hoperand, q, hq, habove⟩ | ⟨hq, -⟩
        · have := alt.above_le hq
          refine .inl ⟨hoperand.extend List.suffix_rfl h.rest_suffix, phrase, List.mem_cons_self, ?_⟩
          simpa [habove] using this
        · obtain ⟨_, _, hkind⟩ := alt.of_function hq
          cases hkind
      | some kind =>
        obtain rfl := List.mem_singleton.mp hy
        rcases alt.isOperand hkind with hoperand | ⟨rfl, hfunction⟩
        · have hreads := reads_phrase_iff.mpr ⟨m, body, some kind, xs, alt, hn, hsettles, hbody, rfl⟩
          exact .inl ⟨⟨n, phrase, s, s', hoperand, hphrase, hreads, rfl, List.suffix_rfl,
            h.rest_suffix⟩, phrase, List.mem_cons_self, Phrase.above_of_isOperand hoperand⟩
        · exact .inr ⟨List.mem_cons_self, hfunction⟩
    · exact (ih (fun q hq => hN q (List.mem_cons_of_mem _ hq)) hy).cons hbody.rest_suffix

/-- Every expression below what is read was read as an operand, and there are nodes above it. -/
theorem Reads.operand_below (h : Reads naming n items s r xs)
    (hN : ∀ q, .part q ∈ items → n + q.outside ≤ N) (hK : ∀ q, .part q ∈ items → K ≤ q.above)
    (hx : x ∈ xs) (hp : p.Within x) (hy : y ∈ p.parts) (hkind : y.kind.isExpression)
    (hfunction : y.kind.isFunction → ¬ p.kind.isFunctionDeclaration) :
    Operand naming N s r y ∧ y.count + K ≤ Construct.countAll xs := by
  induction h generalizing K x with
  | nil => cases hx
  | token _ _ h ih | identifier _ h ih | literal _ h ih =>
    obtain ⟨hoperand, hcount⟩ := ih (fun q hq => hN q (List.mem_cons_of_mem _ hq))
      (fun q hq => hK q (List.mem_cons_of_mem _ hq)) hx hp
    exact ⟨hoperand.extend (Reader.rest_advance_suffix _) List.suffix_rfl, hcount⟩
  | newlines h ih =>
    obtain ⟨hoperand, hcount⟩ := ih (fun q hq => hN q (List.mem_cons_of_mem _ hq))
      (fun q hq => hK q (List.mem_cons_of_mem _ hq)) hx hp
    exact ⟨hoperand.extend (Reader.rest_skipNewlines_suffix _) List.suffix_rfl, hcount⟩
  | qualified hname h ih =>
    obtain ⟨hoperand, hcount⟩ := ih (fun q hq => hN q (List.mem_cons_of_mem _ hq))
      (fun q hq => hK q (List.mem_cons_of_mem _ hq)) hx hp
    exact ⟨hoperand.extend hname.rest_suffix List.suffix_rfl, hcount⟩
  | @part n m phrase body items kind s s' r xs ys alt hn hsettles hbody h ihbody ih =>
    have hphrase := hN phrase List.mem_cons_self
    have hinner : ∀ q, .part q ∈ body → m + q.outside ≤ N := fun q hq => by
      have := alt.outside_le hq
      omega
    have habove : ∀ q, .part q ∈ body → K ≤ q.above + if kind.isSome then 1 else 0 :=
      fun q hq => Nat.le_trans (hK phrase List.mem_cons_self) (alt.above_le hq)
    rw [Construct.countAll_append]
    rcases List.mem_append.mp hx with hx | hx
    · cases kind with
      | none =>
        obtain ⟨hoperand, hcount⟩ := ihbody hinner (K := K) (fun q hq => by simpa using habove q hq)
          hx hp
        exact ⟨hoperand.extend List.suffix_rfl h.rest_suffix, Nat.le_add_right_of_le hcount⟩
      | some kind =>
        obtain rfl := List.mem_singleton.mp hx
        simp only [Construct.countAll, Construct.count, wrap]
        cases hp with
        | refl =>
          rcases hbody.found hinner hy hkind with ⟨hoperand, q, hq, hzero⟩ | ⟨hq, hy'⟩
          · have hK' := habove q hq
            have hcount := Construct.count_le_countAll hy
            simp only [Construct.parts_mk, hzero, Option.isSome_some, if_true] at hcount hK'
            exact ⟨hoperand.extend List.suffix_rfl h.rest_suffix, by omega⟩
          · obtain ⟨name, isLocal, hdeclaration⟩ := alt.of_function hq
            obtain rfl := Option.some.inj hdeclaration
            exact absurd rfl (hfunction hy')
        | part hp hz =>
          obtain ⟨hoperand, hcount⟩ := ihbody hinner (K := K - 1) (fun q hq => by
            have := habove q hq
            simp only [Option.isSome_some, if_true] at this
            omega) hz hp
          exact ⟨hoperand.extend List.suffix_rfl h.rest_suffix, by omega⟩
    · obtain ⟨hoperand, hcount⟩ := ih (fun q hq => hN q (List.mem_cons_of_mem _ hq))
        (fun q hq => hK q (List.mem_cons_of_mem _ hq)) hx hp
      exact ⟨hoperand.extend hbody.rest_suffix List.suffix_rfl, by omega⟩

/-! ## Operands as whole expressions -/

/-- Items that do not begin with operands of some precedence, but with any operands. -/
def Item.loosen : List Item → List Item
  | .part (.operands _) :: items => .part (.operands 0) :: items
  | items => items

/-- A sequence of operands is one whatever the operators have to bind. -/
theorem Reads.loosen (h : Reads naming n items s r xs) :
    Reads naming n (Item.loosen items) s r xs := by
  induction h with
  | nil => exact .nil
  | token hne hkind h => exact .token hne hkind h
  | newlines h => exact .newlines h
  | identifier hnext h => exact .identifier hnext h
  | qualified hname h => exact .qualified hname h
  | literal hvalue h => exact .literal hvalue h
  | @part n m phrase body items kind s s' r xs ys alt hn hsettles hbody h ihbody ih =>
    cases phrase with
    | operands minPrecedence =>
      cases alt with
      | operandsFirst => exact .part (.operandsFirst 0) hn trivial hbody h
      | operandsMore hop => exact .part (.operandsMore hop (Nat.zero_le _)) hn trivial ihbody h
    | _ => exact .part alt hn hsettles hbody h

/-- A phrase as the only part of another one. -/
theorem Reads.inside {outer inner : Phrase} (h : Reads naming n [.part inner] s r xs)
    (alt : Alternative naming outer [.part inner] none)
    (hsettles : outer.Settles [.part inner] s r) :
    Reads naming (n + outer.level) [.part outer] s r xs :=
  reads_phrase_iff.mpr ⟨n, _, none, xs, alt, rfl, hsettles, h, rfl⟩

section AtTheEnd

variable (hend : r.rest = [])
include hend

theorem Reader.kind_of_rest_nil : r.kind = .endOfInput := by simp [kind, next, hend]

theorem Reads.expression_of_operands {minPrecedence : Nat}
    (h : Reads naming n [.part (.operands minPrecedence)] s r xs) :
    Reads naming (n + 1) [.part (.expression 0)] s r xs := by
  refine h.loosen.inside (.expression 0) ?_
  rintro ⟨op, hop, -⟩
  rw [Reader.kind_of_rest_nil hend] at hop
  cases hop

theorem Reads.expression_of_unary (h : Reads naming n [.part .unary] s r xs) :
    Reads naming (n + 1) [.part (.expression 0)] s r xs :=
  (h.inside (.operandsFirst 0) trivial).expression_of_operands hend

theorem Reads.expression_of_calls (h : Reads naming n [.part .calls] s r xs) :
    Reads naming (n + 3) [.part (.expression 0)] s r xs := by
  have hchain : Phrase.chain.Settles [.part .calls] s r := by
    simp [Phrase.Settles, Reader.kind_of_rest_nil hend]
  exact ((h.inside .chain hchain).inside .unaryChain trivial).expression_of_unary hend

theorem Reads.expression_of_primary (h : Reads naming n [.part .primary] s r xs) :
    Reads naming (n + 3) [.part (.expression 0)] s r xs :=
  (h.inside .callsFirst trivial).expression_of_calls hend

/-- A name that is all there is does not begin a collection. -/
theorem Reads.not_beginsCollection (h : Reads naming n [.part .named] s r xs) :
    ¬ s.BeginsCollection := by
  rintro ⟨-, -, hbehind⟩
  rw [← Reading.kind_advance] at hbehind
  obtain ⟨m, body, kind, ys, alt, -, -, hbody, -⟩ := reads_phrase_iff.mp h
  have hname : ∀ {s' segments items}, Qualified s s' segments → Reads naming m items s' r ys →
      items = [] ∨ items = [.part .arguments] → False := by
    intro s' segments items hname hitems hcases
    cases hname with
    | last =>
      rcases hcases with rfl | rfl
      · obtain ⟨rfl, -⟩ := reads_nil_iff.mp hitems
        rw [Reader.kind_of_rest_nil hend] at hbehind
        cases hbehind
      · have := hitems.begins
        rw [hbehind] at this
        cases this
    | more _ hdot =>
      rw [hdot] at hbehind
      cases hbehind
  cases alt with
  | invocation | bareName =>
    obtain ⟨s', hqualified, hitems⟩ := reads_qualified_iff.mp hbody
    exact hname hqualified hitems (by simp)

/-- An operand behind which the input ends is an expression. -/
theorem Reads.expression_of_operand (h : Reads naming n [.part phrase] s r xs)
    (hphrase : phrase.isOperand) :
    Reads naming (n + phrase.outside - 3) [.part (.expression 0)] s r xs := by
  cases phrase with
  | operands => exact h.expression_of_operands hend
  | unary => exact h.expression_of_unary hend
  | calls => exact h.expression_of_calls hend
  | primary => exact h.expression_of_primary hend
  | named => exact (h.inside .named (h.not_beginsCollection hend)).expression_of_primary hend
  | match_ => exact (h.inside .matchPrimary trivial).expression_of_primary hend
  | function closure =>
    cases closure with
    | false => cases hphrase
    | true => exact (h.inside .closure trivial).expression_of_primary hend
  | _ => cases hphrase

end AtTheEnd

end GoloSyntax
