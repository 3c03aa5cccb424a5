import GoloSyntax.Proofs.Reading.Room

/-! # What a program may spend

Every token that is read allows five more levels of nesting and pays for one node.
`Reading.Frugal` goes through a program with what it may spend besides (`Purse`): a call demands
some levels, and a node is made either with what is left of tokens already read or on the credit
of a next token that is known to be there.  What a rule demands of its caller depends on the rule
and on its first token (`Rule.demand`, `Rule.debt`).

A frugal program that is carried out where the limits cover its purse never blames one of them
(`Lasts`, `lasts_run`).
-/
namespace GoloSyntax

namespace Rule

/-- How many levels a rule needs besides those of the tokens it reads.  Between an expression and
a name stand the rules for operators, for chains and for primary expressions. -/
@[simp] def demand : Rule → TokenKind → Nat
  | .statement, _ => 6
  | .expression _, _ => 5
  | .unary, _ => 4
  | .chain, _ => 3
  | .primary, _ | .block, _ | .compilationUnit, _ => 2
  | .function, .mark .pipe | .function, .mark .arrow => 1
  | .function, _ => 3
  | _, _ => 1

/-- How many nodes a rule makes besides those its tokens pay for.  A function in front of a brace
leaves the brace to the block; arguments pay for the node of the call with their parenthesis. -/
@[simp] def debt : Rule → TokenKind → Int
  | .function, .mark .pipe | .function, .mark .arrow => 0
  | .function, _ => 1
  | .arguments _, _ => -1
  | _, _ => 0

theorem demand_pos (rule : Rule) (kind : TokenKind) : 0 < rule.demand kind := by
  unfold demand
  split <;> decide

end Rule

namespace Reading

/-- What a program may spend besides what the tokens left allow. -/
structure Purse where
  depth : Nat
  /-- Below zero if a node was made that the next token pays for. -/
  nodes : Int
  /-- The kind of the next token, if it has been looked at. -/
  next : Option TokenKind

namespace Purse

/-- The next token is known not to be the end of input. -/
def isSolid (b : Purse) : Bool := b.next.any (· ≠ .endOfInput)

/-- Nothing is known of the next token any more. -/
def blind (b : Purse) : Purse := ⟨b.depth, b.nodes, none⟩

/-- The next token has been read. -/
def advance (b : Purse) : Purse :=
  if b.isSolid then ⟨b.depth + 5, b.nodes + 1, none⟩ else b.blind

/-- What is known of the next token allows it to be of some kind. -/
def Allows (b : Purse) (kind : TokenKind) : Prop := ∀ known ∈ b.next, kind = known

end Purse

variable {α β σ : Type}

/-- A program that gets by with its purse; `post` is to hold at its end. -/
def Frugal : {α : Type} → Reading α → (α → Purse → Prop) → Purse → Prop
  | _, .done a, post, b => post a b
  | _, .step .look next, post, b =>
    ∀ x : Lexeme, b.Allows x.kind → Frugal (next x) post ⟨b.depth, b.nodes, some x.kind⟩
  | _, .step .lookBehind next, post, b => ∀ kind, Frugal (next kind) post b
  | _, .step .advance next, post, b => Frugal (next ()) post b.advance
  | _, .step .skipNewlines next, post, b => Frugal (next ()) post b.blind
  | _, .step (.openNode _) next, post, b =>
    (0 < b.nodes ∨ b.nodes = 0 ∧ b.isSolid) ∧
      ∀ id, Frugal (next id) post ⟨b.depth, b.nodes - 1, b.next⟩
  | _, .step (.closeNode _) next, post, b => Frugal (next ()) post b
  | _, .step (.setKind ..) next, post, b => Frugal (next ()) post b
  | _, .step (.attach ..) next, post, b => Frugal (next ()) post b
  | _, .step (.intern _) next, post, b => Frugal (next ()) post b
  | _, .step (.reject _) _, _, _ => True
  | _, .step (.refuseLiteral fault) _, _, _ => fault.isLimit = false
  | _, .call rule next, post, b => ∀ kind, b.Allows kind →
    rule.demand kind ≤ b.depth ∧ rule.debt kind ≤ b.nodes ∧
      ∀ id, Frugal (next id) post ⟨b.depth, b.nodes - rule.debt kind, none⟩
  | _, .frame body next, post, b => Frugal body (fun x => Frugal (next x) post) b
  | _, .repeat round _ next, post, b =>
    (∀ x, Frugal (round x) (fun _ b' => b.depth ≤ b'.depth ∧ b.nodes ≤ b'.nodes) b.blind) ∧
      ∀ x, Frugal (next x) post b.blind

/-! ## Carrying a frugal program out -/

/-- A purse is covered where so many levels are left and so many nodes may be made in all. -/
structure Purse.Covered (b : Purse) (c : Context) (levels : Nat) (room : Int) (s : State) : Prop where
  depth : 5 * s.rest.length + b.depth ≤ levels
  nodes : s.tree.size + s.rest.length + b.nodes ≤ room
  next : b.Allows (s.current c).kind

/-- What comes of a frugal program: an answer with a purse that is covered, or an error that no
limit is to blame for. -/
inductive Lasts (c : Context) (levels : Nat) (room : Int) (post : α → Purse → Prop) :
    Except ParseError (α × State) → Prop where
  | ok {a : α} {s : State} (b : Purse) (hs : b.Covered c levels room s) (hpost : post a b) :
      Lasts c levels room post (.ok (a, s))
  | error {e : ParseError} (h : e.fault.isLimit = false) : Lasts c levels room post (.error e)

variable {c : Context} {levels : Nat} {room : Int} {s s' : State} {start : Position} {b b' : Purse}
  {post post' : α → Purse → Prop} {post₁ : β → Purse → Prop}

/-- Calls last where the limits cover what the rules need. -/
def Affordable (c : Context) (levels : Nat)
    (enter : Rule → Position → State → Except ParseError (NodeId × State)) : Prop :=
  ∀ rule p s, 5 * s.rest.length + rule.demand (s.current c).kind ≤ levels →
    ∀ room : Int, s.tree.size + s.rest.length + rule.debt (s.current c).kind ≤ room →
      room ≤ c.maxNodes → Lasts c levels room (fun _ b => 0 ≤ b.nodes) (enter rule p s)

theorem Lasts.bind {x : Except ParseError (α × State)}
    {f : α × State → Except ParseError (β × State)} (hx : Lasts c levels room post x)
    (hf : ∀ a b s, b.Covered c levels room s → post a b → Lasts c levels room post₁ (f (a, s))) :
    Lasts c levels room post₁ (x.bind f) := by
  cases hx with
  | ok b hs hpost => exact hf _ b _ hs hpost
  | error h => exact .error h

theorem Lasts.mono {levels' : Nat} {x : Except ParseError (α × State)} (hle : levels ≤ levels')
    (hx : Lasts c levels room post x) : Lasts c levels' room post x := by
  cases hx with
  | ok b hs hpost => exact .ok b ⟨Nat.le_trans hs.depth hle, hs.nodes, hs.next⟩ hpost
  | error h => exact .error h

namespace Purse.Covered

theorem blind (h : b.Covered c levels room s) : b.blind.Covered c levels room s :=
  ⟨h.depth, h.nodes, fun _ hkind => by cases hkind⟩

/-- What is covered with many tokens left is covered with fewer of them. -/
theorem of_rest (h : b.Covered c levels room s) (hrest : s'.rest <:+ s.rest)
    (htree : s'.tree = s.tree) : b.blind.Covered c levels room s' := by
  have hle : s'.rest.length ≤ s.rest.length := hrest.length_le
  have hdepth := h.depth
  have hnodes := h.nodes
  refine ⟨?_, ?_, fun _ hkind => by cases hkind⟩ <;> simp only [Purse.blind, htree] <;> omega

theorem of_le (h : b'.Covered c levels room s) (hdepth : b.depth ≤ b'.depth)
    (hnodes : b.nodes ≤ b'.nodes) : b.blind.Covered c levels room s :=
  ⟨Nat.le_trans (Nat.add_le_add_left hdepth _) h.depth,
    Int.le_trans (Int.add_le_add_left hnodes _) h.nodes, fun _ hkind => by cases hkind⟩

variable (hend : c.endToken.kind = .endOfInput)
include hend

/-- A token that is known not to be the end of input is there. -/
theorem exists_cons (h : b.Covered c levels room s) (hsolid : b.isSolid) :
    ∃ token rest, s.rest = token :: rest := by
  obtain ⟨kind, hnext, hkind⟩ := (Option.any_eq_true _ _).mp hsolid
  cases hrest : s.rest with
  | nil =>
    have hcurrent : c.endToken.kind = kind := by
      simpa [State.current, hrest] using h.next kind hnext
    rw [hend] at hcurrent
    simp [hcurrent] at hkind
  | cons token rest => exact ⟨token, rest, rfl⟩

theorem advance (h : b.Covered c levels room s) : b.advance.Covered c levels room s.advance := by
  cases hsolid : b.isSolid with
  | false =>
    rw [Purse.advance, hsolid]
    refine h.of_rest (grows_advance s).rest ?_
    obtain ⟨_ | ⟨token, rest⟩, lastEnd, tree⟩ := s <;> rfl
  | true =>
    obtain ⟨token, rest, hrest⟩ := h.exists_cons hend hsolid
    obtain ⟨_, lastEnd, tree⟩ := s
    subst hrest
    rw [Purse.advance, hsolid]
    have hdepth := h.depth
    have hnodes := h.nodes
    simp only [List.length_cons] at hdepth hnodes
    refine ⟨?_, ?_, fun _ hkind => by cases hkind⟩ <;> simp only [State.advance, if_true] <;> omega

end Purse.Covered

section Run

variable (hend : c.endToken.kind = .endOfInput)
include hend

theorem lasts_perform (hroom : room ≤ c.maxNodes) (action : Step)
    (next : action.Answer → Reading α) (h : (Reading.step action next).Frugal post b)
    (hs : b.Covered c levels room s) :
    Lasts c levels room (fun x b => (next x).Frugal post b) (perform c start action s) := by
  cases action with
  | look =>
    exact .ok ⟨b.depth, b.nodes, some _⟩ ⟨hs.depth, hs.nodes, fun _ hkind => Option.some.inj hkind⟩
      (h _ hs.next)
  | lookBehind => exact .ok b hs (h _)
  | advance => exact .ok _ (hs.advance hend) h
  | skipNewlines => exact .ok _ (hs.of_rest (List.dropWhile_suffix _) rfl) h
  | openNode kind =>
    obtain ⟨hspend, hnext⟩ := h
    have hnodes := hs.nodes
    have hlt : s.tree.size < c.maxNodes := by
      rcases hspend with hpos | ⟨hzero, hsolid⟩
      · omega
      · obtain ⟨token, rest, hrest⟩ := hs.exists_cons hend hsolid
        rw [hrest, List.length_cons] at hnodes
        omega
    simp only [perform]
    rw [if_neg (by omega)]
    refine .ok ⟨b.depth, b.nodes - 1, b.next⟩ ⟨hs.depth, ?_, hs.next⟩ (hnext _)
    simp only [Tree.size_push]
    omega
  | closeNode id | setKind id kind | attach parent child =>
    exact .ok b ⟨hs.depth, by simpa [Tree.setSpan, Tree.setKind] using hs.nodes, hs.next⟩ h
  | intern text => exact .ok b ⟨hs.depth, hs.nodes, hs.next⟩ h
  | reject expected => exact .error rfl
  | refuseLiteral fault => exact .error h

omit hend in
/-- A repetition whose rounds leave the purse as it was lasts as long as there are tokens. -/
theorem lasts_iterate {round : σ → State → Except ParseError (Round σ β × State)}
    (hround : ∀ x s, b.blind.Covered c levels room s →
      Lasts c levels room (fun _ b' => b.depth ≤ b'.depth ∧ b.nodes ≤ b'.nodes) (round x s))
    (n : Nat) (x : σ) (hs : b.blind.Covered c levels room s) :
    Lasts c levels room (fun _ b' => b' = b.blind) (iterate c round n x s) := by
  induction n generalizing x s with
  | zero => exact .error rfl
  | succ n ih =>
    rw [iterate_succ]
    refine (hround x s hs).bind fun y b' s' hs' hkept => ?_
    have hcovered : b.blind.Covered c levels room s' := hs'.of_le hkept.1 hkept.2
    cases y with
    | again y => exact ih y hcovered
    | stop a => exact .ok _ hcovered rfl

variable {enter : Rule → Position → State → Except ParseError (NodeId × State)}

omit hend in
/-- A call leaves the purse as it was, its debt apart. -/
theorem lasts_call (hroom : room ≤ c.maxNodes)
    (henter : Affordable c levels enter)
    (hgrows : ∀ {rule p s id s'}, enter rule p s = .ok (id, s') → s.Grows s') (rule : Rule)
    (hdemand : rule.demand (s.current c).kind ≤ b.depth)
    (hdebt : rule.debt (s.current c).kind ≤ b.nodes) (hs : b.Covered c levels room s) :
    Lasts c levels room (fun _ b' => b' = ⟨b.depth, b.nodes - rule.debt (s.current c).kind, none⟩)
      (enter rule start s) := by
  have hdepth := hs.depth
  have hnodes := hs.nodes
  have hx := henter rule start s (by omega) _ (Int.le_refl _) (by omega)
  cases henter : enter rule start s with
  | error e =>
    rw [henter] at hx
    cases hx with
    | error h => exact .error h
  | ok r =>
    obtain ⟨id, s'⟩ := r
    rw [henter] at hx
    cases hx with
    | ok b' hs' hpost =>
      have hle : s'.rest.length ≤ s.rest.length := (hgrows henter).rest.length_le
      have hspent := hs'.nodes
      refine .ok _ ⟨?_, ?_, fun _ hkind => by cases hkind⟩ rfl
      · show 5 * s'.rest.length + b.depth ≤ levels
        omega
      · show s'.tree.size + s'.rest.length + (b.nodes - rule.debt (s.current c).kind) ≤ room
        omega

theorem lasts_run (hroom : room ≤ c.maxNodes)
    (henter : Affordable c levels enter)
    (hgrows : ∀ {rule p s id s'}, enter rule p s = .ok (id, s') → s.Grows s')
    (m : Reading α) (h : m.Frugal post b) (hs : b.Covered c levels room s) :
    Lasts c levels room post (run c enter m start s) := by
  induction m generalizing start s b with
  | done a => exact .ok b hs h
  | step action next ih =>
    rw [run_step]
    exact (lasts_perform hend hroom action next h hs).bind fun x b s hs h => ih x h hs
  | call rule next ih =>
    obtain ⟨hdemand, hdebt, h⟩ := h _ hs.next
    rw [run_call]
    refine (lasts_call hroom henter hgrows rule hdemand hdebt hs).bind fun id b' s hs hb => ?_
    subst hb
    exact ih id (h id) hs
  | frame body next ihbody ih =>
    rw [run_frame]
    exact (ihbody h hs).bind fun x b s hs h => ih x h hs
  | «repeat» round state next ihround ih =>
    obtain ⟨hround, h⟩ := h
    rw [run_repeat]
    refine (lasts_iterate (fun x s hs => ihround x (hround x) hs) _ state hs.blind).bind
      fun x b' s hs hb => ?_
    subst hb
    exact ih x (h x) hs

end Run

/-! ## Putting frugal programs together -/

/-- What is asked of one program after the other. -/
@[simp] theorem frugal_bind (m : Reading α) (f : α → Reading β) :
    (m >>= f).Frugal post₁ b ↔ m.Frugal (fun a => (f a).Frugal post₁) b := by
  show (m.bind f).Frugal post₁ b ↔ _
  refine iff_of_eq ?_
  induction m generalizing b with
  | done a => rfl
  | step action next ih =>
    cases action with
    | look => exact forall_congr fun x => forall_congr fun _ => ih x f
    | lookBehind => exact forall_congr fun kind => ih kind f
    | openNode kind => exact congrArg (_ ∧ ·) (forall_congr fun id => ih id f)
    | advance | skipNewlines | closeNode | setKind | attach | intern => exact ih () f
    | reject | refuseLiteral => rfl
  | call rule next ih =>
    exact forall_congr fun kind => forall_congr fun _ =>
      congrArg (_ ∧ _ ∧ ·) (forall_congr fun id => ih id f)
  | frame body next _ ih =>
    exact congrArg (Frugal body · b) (funext fun x => funext fun b => ih x f)
  | «repeat» round state next _ ih => exact congrArg (_ ∧ ·) (forall_congr fun x => ih x f)

/-- The end of a program may be described more loosely. -/
theorem Frugal.imp {m : Reading α} (h : m.Frugal post b) (hpost : ∀ a b, post a b → post' a b) :
    m.Frugal post' b := by
  induction m generalizing b with
  | done a => exact hpost a b h
  | step action next ih =>
    cases action with
    | look => exact fun x hx => ih x (h x hx) hpost
    | lookBehind => exact fun kind => ih kind (h kind) hpost
    | openNode kind => exact ⟨h.1, fun id => ih id (h.2 id) hpost⟩
    | advance | skipNewlines | closeNode | setKind | attach | intern => exact ih () h hpost
    | reject | refuseLiteral => exact h
  | call rule next ih =>
    exact fun kind hkind => ⟨(h kind hkind).1, (h kind hkind).2.1,
      fun id => ih id ((h kind hkind).2.2 id) hpost⟩
  | frame body next ihbody ih => exact ihbody h fun x b h => ih x h hpost
  | «repeat» round state next _ ih => exact ⟨h.1, fun x => ih x (h.2 x) hpost⟩

@[simp] theorem frugal_pure (a : α) : (pure a : Reading α).Frugal post b ↔ post a b := .rfl

@[simp] theorem frugal_advance {post : Unit → Purse → Prop} :
    advance.Frugal post b ↔ post () b.advance := .rfl

@[simp] theorem frugal_skipNewlines {post : Unit → Purse → Prop} :
    skipNewlines.Frugal post b ↔ post () b.blind := .rfl

@[simp] theorem frugal_openNode {kind : NodeKind} {post : NodeId → Purse → Prop} :
    (openNode kind).Frugal post b ↔
      (0 < b.nodes ∨ b.nodes = 0 ∧ b.isSolid) ∧ ∀ id, post id ⟨b.depth, b.nodes - 1, b.next⟩ := .rfl

@[simp] theorem frugal_closeNode {id : NodeId} {post : NodeId → Purse → Prop} :
    (closeNode id).Frugal post b ↔ post id b := .rfl

@[simp] theorem frugal_setKind {id : NodeId} {kind : NodeKind} {post : Unit → Purse → Prop} :
    (setKind id kind).Frugal post b ↔ post () b := .rfl

@[simp] theorem frugal_attach {parent child : NodeId} {post : Unit → Purse → Prop} :
    (attach parent child).Frugal post b ↔ post () b := .rfl

@[simp] theorem frugal_intern {text : String} {post : Unit → Purse → Prop} :
    (intern text).Frugal post b ↔ post () b := .rfl

@[simp] theorem frugal_reject {expected : List Expected} :
    (reject expected : Reading α).Frugal post b := trivial

@[simp] theorem frugal_refuseLiteral {fault : ParseFault} :
    (refuseLiteral fault : Reading α).Frugal post b ↔ fault.isLimit = false := .rfl

@[simp] theorem frugal_enter {rule : Rule} {post : NodeId → Purse → Prop} :
    (enter rule).Frugal post b ↔ ∀ kind, b.Allows kind →
      rule.demand kind ≤ b.depth ∧ rule.debt kind ≤ b.nodes ∧
        ∀ id, post id ⟨b.depth, b.nodes - rule.debt kind, none⟩ := .rfl

@[simp] theorem frugal_framed {body : Reading α} :
    (framed body).Frugal post b ↔ body.Frugal post b := .rfl

@[simp] theorem frugal_peekBehind {post : TokenKind → Purse → Prop} :
    peekBehind.Frugal post b ↔ ∀ kind, post kind b := .rfl

@[simp] theorem frugal_repeating {state : σ} {round : σ → Reading (Round σ α)} :
    (repeating state round).Frugal post b ↔
      (∀ x, (round x).Frugal (fun _ b' => b.depth ≤ b'.depth ∧ b.nodes ≤ b'.nodes) b.blind) ∧
        ∀ x, post x b.blind := .rfl

@[simp] theorem frugal_repeatUntil {round : Reading (Round Unit α)} :
    (repeatUntil round).Frugal post b ↔
      round.Frugal (fun _ b' => b.depth ≤ b'.depth ∧ b.nodes ≤ b'.nodes) b.blind ∧
        ∀ x, post x b.blind := by
  simp [repeatUntil]

@[simp] theorem frugal_child {parent : NodeId} {rule : Rule} {post : Unit → Purse → Prop} :
    (child parent rule).Frugal post b ↔ ∀ kind, b.Allows kind →
      rule.demand kind ≤ b.depth ∧ rule.debt kind ≤ b.nodes ∧
        post () ⟨b.depth, b.nodes - rule.debt kind, none⟩ := by
  simp [child]

section Lookahead

variable {depth : Nat} {nodes : Int} {kind known : TokenKind} {next : Option TokenKind}

@[simp] theorem allows_none : (Purse.mk depth nodes none).Allows kind :=
  fun _ hkind => by cases hkind

@[simp] theorem allows_some : (Purse.mk depth nodes (some known)).Allows kind ↔ kind = known :=
  ⟨fun h => h known rfl, fun h _ hkind => h.trans (Option.some.inj hkind)⟩

@[simp] theorem isSolid_none : (Purse.mk depth nodes none).isSolid = false := rfl

@[simp] theorem isSolid_some :
    (Purse.mk depth nodes (some known)).isSolid = decide (known ≠ .endOfInput) := rfl

@[simp] theorem blind_purse : (Purse.mk depth nodes next).blind = ⟨depth, nodes, none⟩ := rfl

@[simp] theorem advance_purse (h : known ≠ .endOfInput) :
    (Purse.mk depth nodes (some known)).advance = ⟨depth + 5, nodes + 1, none⟩ := by
  simp [Purse.advance, h]

@[simp] theorem frugal_look {post : Lexeme → Purse → Prop} :
    look.Frugal post b ↔
      ∀ x : Lexeme, b.Allows x.kind → post x ⟨b.depth, b.nodes, some x.kind⟩ := .rfl

@[simp] theorem frugal_peek {post : TokenKind → Purse → Prop} :
    peek.Frugal post b ↔
      ∀ kind, b.Allows kind → post kind ⟨b.depth, b.nodes, some kind⟩ :=
  ⟨fun h kind => h ⟨kind, none⟩, fun h x => h x.kind⟩

theorem frugal_expect_of {post : Unit → Purse → Prop} (hend : kind ≠ .endOfInput) :
    (expect kind).Frugal post b ↔
      (b.Allows kind → post () ⟨b.depth + 5, b.nodes + 1, none⟩) := by
  simp only [expect, frugal_bind, frugal_peek]
  constructor
  · intro h hkind
    simpa [hend] using h kind hkind
  · intro h other hother
    split
    · next heq =>
      subst heq
      simpa [hend] using h hother
    · exact frugal_reject

@[simp] theorem frugal_expect_mark {sign : Mark} {post : Unit → Purse → Prop} :
    (expect (.mark sign)).Frugal post b ↔
      (b.Allows (.mark sign) → post () ⟨b.depth + 5, b.nodes + 1, none⟩) :=
  frugal_expect_of (by simp)

@[simp] theorem frugal_expect_keyword {word : Keyword} {post : Unit → Purse → Prop} :
    (expect (.keyword word)).Frugal post b ↔
      (b.Allows (.keyword word) → post () ⟨b.depth + 5, b.nodes + 1, none⟩) :=
  frugal_expect_of (by simp)

theorem frugal_accept_of {post : Bool → Purse → Prop} (hend : kind ≠ .endOfInput) :
    (accept kind).Frugal post b ↔
      (b.Allows kind → post true ⟨b.depth + 5, b.nodes + 1, none⟩) ∧
        ∀ other, b.Allows other → other ≠ kind → post false ⟨b.depth, b.nodes, some other⟩ := by
  simp only [accept, frugal_bind, frugal_peek]
  constructor
  · intro h
    refine ⟨fun hkind => ?_, fun other hother hne => ?_⟩
    · simpa [hend] using h kind hkind
    · simpa [hne] using h other hother
  · rintro ⟨htrue, hfalse⟩ other hother
    split
    · next heq =>
      subst heq
      simpa [hend] using htrue hother
    · next hne => exact hfalse other hother hne

@[simp] theorem frugal_accept_mark {sign : Mark} {post : Bool → Purse → Prop} :
    (accept (.mark sign)).Frugal post b ↔
      (b.Allows (.mark sign) → post true ⟨b.depth + 5, b.nodes + 1, none⟩) ∧
        ∀ other, b.Allows other → other ≠ .mark sign →
          post false ⟨b.depth, b.nodes, some other⟩ :=
  frugal_accept_of (by simp)

@[simp] theorem frugal_accept_keyword {word : Keyword} {post : Bool → Purse → Prop} :
    (accept (.keyword word)).Frugal post b ↔
      (b.Allows (.keyword word) → post true ⟨b.depth + 5, b.nodes + 1, none⟩) ∧
        ∀ other, b.Allows other → other ≠ .keyword word →
          post false ⟨b.depth, b.nodes, some other⟩ :=
  frugal_accept_of (by simp)

@[simp] theorem frugal_identifier {role : NameRole} {post : String → Purse → Prop} :
    (identifier role).Frugal post b ↔
      (b.Allows .identifier → ∀ text, post text ⟨b.depth + 5, b.nodes + 1, none⟩) := by
  simp only [identifier, frugal_bind, frugal_look]
  constructor
  · intro h hkind text
    simpa using h ⟨.identifier, some text⟩ hkind
  · intro h x hx
    split
    · next text => simpa using h hx text
    · exact frugal_reject

/-- Further segments of a name are not counted on. -/
theorem frugal_qualifiedName_of {role : NameRole} {post : String → Purse → Prop}
    (h : ∀ text next, post text ⟨b.depth + 5, b.nodes + 1, next⟩) :
    (qualifiedName role).Frugal post b := by
  simp only [qualifiedName, frugal_bind, frugal_identifier, frugal_peek]
  intro _ first kind _
  split
  · simp only [frugal_bind, frugal_repeating, frugal_intern, frugal_pure, frugal_peek]
    refine ⟨fun name kind _ => ?_, fun name => h name none⟩
    split
    · next hdot =>
      subst hdot
      simp only [frugal_bind, frugal_peekBehind]
      intro behind
      split
      · simp
        omega
      · simp
    · simp
  · exact h first (some kind)

theorem frugal_terminator {withinBraces : Bool} {post : Unit → Purse → Prop}
    (h : ∀ next, post () ⟨b.depth, b.nodes, next⟩) : (terminator withinBraces).Frugal post b := by
  simp only [terminator, frugal_bind, frugal_peek]
  intro kind _
  split
  · exact h none
  · exact h _
  · split
    · exact h _
    · exact frugal_reject
  · split <;> exact frugal_reject

end Lookahead

end Reading

end GoloSyntax
