import GoloSyntax.Proofs.Reading.Cutting
import GoloSyntax.Proofs.Reading.Faults

/-! # Every rule on a list that is cut short
-/
namespace GoloSyntax

namespace Reading.Cut

variable {K : Cut} {n : Nat} {P Q : Prop}

/-- A rule carried out where the short list has tokens left. -/
def Carries (K : Cut) (n : Nat) (rule : Rule) : Prop :=
  K.Curtails n True False rule.reading rule.reading

namespace Curtails

section Rules

variable (hcalls : ∀ rule, K.Keeps n rule)

/-! ## Declarations -/

theorem moduleDeclaration : K.Carries n .moduleDeclaration :=
  keyword.bind fun _ _ => qualifiedName.bind fun _ _ => leaf

theorem importDeclaration : K.Carries n .importDeclaration :=
  keyword.bind fun _ _ => qualifiedName.bind fun _ _ => leaf

/-- No parameter can be read at the end of input. -/
theorem idles_parameters {function : NodeId} :
    K.short.Idles n (Grammar.parameters function) fun _ => True := by
  refine .bind (.peek K.endKind ?_)
  rw [if_neg (by nofun)]
  exact .repeating (.bind (.framed (.bind (.identifier K.endKind))))

theorem parameters {function function' : NodeId} :
    K.Curtails n P Q (Grammar.parameters function) (Grammar.parameters function') := by
  refine peek (fun kind => ?_) fun _ => ?_
  · split
    · exact pure fun _ => rfl
    · refine .mono (Q := True) (repeating (fun _ => .bind (.framed (.bind (.identifier K.endKind))))
        (fun _ => rfl) fun _ => ?_) fun _ => trivial
      refine (framed (identifier.bind fun _ _ => leaf)).bind fun _ _ => attach.bind fun _ _ =>
        peek (fun kind => ?_) fun _ => .reject K.endKind _
      split
      · exact advance.bind fun _ _ => pure fun _ => rfl
      · refine advance.bind fun _ _ => peek (fun kind => ?_) fun _ => ?_
        · split
          · exact pure fun _ => rfl
          · exact reject
        · rw [if_neg (by nofun)]
          exact .reject K.endKind _
      · exact pure fun _ => rfl
      · exact reject
  · rw [if_neg (by nofun)]
    exact .repeating (.bind (.framed (.bind (.identifier K.endKind))))

theorem struct : K.Carries n .struct := by
  refine keyword.bind fun _ _ => identifier.bind fun _ _ => mark.bind fun _ _ => mark.bind fun _ _ =>
    openNode.bind fun struct struct' => bind (repeating (fun _ => ?_) (fun _ => rfl) fun _ => ?_)
      fun _ _ => closeNode (by simp_all)
  · exact .bind (.skipNewlines (.bind (.framed (.bind (.identifier K.endKind)))))
  · refine skipNewlines.bind fun _ _ => (framed (identifier.bind fun _ _ => leaf)).bind fun _ _ =>
      attach.bind fun _ _ => skipNewlines.bind fun _ _ => peek (fun kind => ?_) fun _ =>
        .reject K.endKind _
    split
    · exact advance.bind fun _ _ => pure fun _ => rfl
    · exact advance.bind fun _ _ => pure fun _ => rfl
    · exact reject

include hcalls

theorem functionDeclaration : K.Carries n .functionDeclaration := by
  refine bind (accept (by nofun)) fun _ _ => keyword.bind fun _ _ => identifier.bind fun _ _ =>
    mark.bind fun _ _ => openNode.bind fun declaration declaration' => peek (fun kind => ?_)
      fun _ => .reject K.endKind _
  split
  case h_4 => exact reject
  all_goals
    exact bind (child hcalls (fun _ => rfl) False.elim) fun _ _ => closeNode (by simp_all)

omit hcalls in
theorem parameterList {function function' : NodeId} :
    K.Curtails n P Q (Grammar.parameterList function) (Grammar.parameterList function') := by
  refine bind (accept (by nofun)) fun barred barred' => ?_
  cases barred <;> cases barred'
  · exact pure fun _ => rfl
  · exact of_idles (by simp) (.bind (idles_parameters.imp fun _ _ => .bind (.mark K.endKind)))
  · exact of_idles (by simp) (.pure trivial)
  · exact parameters.bind fun _ _ => mark.bind fun _ _ => pure fun hP => hP.1.2

theorem function : K.Carries n .function := by
  refine openNode.bind fun function function' => parameterList.bind fun varargs varargs' =>
    peek (fun kind => ?_) fun _ => .reject K.endKind _
  split
  · exact bind (child hcalls (fun _ => rfl) False.elim) fun _ _ => setKind.bind fun _ _ =>
      closeNode (by simp_all)
  · exact advance.bind fun _ _ => skipNewlines.bind fun _ _ => bind (part hcalls rfl) fun _ _ =>
      setKind.bind fun _ _ => closeNode (by simp_all)
  · exact reject

theorem augmentation : K.Carries n .augmentation := by
  refine keyword.bind fun _ _ => qualifiedName.bind fun _ _ => openNode.bind
    fun augmentation augmentation' => mark.bind fun _ _ => bind (repeating (fun _ =>
      .bind (.skipNewlines (.bind (.peek K.endKind (.reject K.endKind _))))) (fun _ => rfl)
        fun _ => skipNewlines.bind fun _ _ => peek (fun kind => ?_) fun _ => .reject K.endKind _)
      fun _ _ => closeNode (by simp_all)
  split
  · exact advance.bind fun _ _ => pure fun _ => rfl
  · exact bind (child hcalls (fun _ => rfl) False.elim) fun _ _ => terminator.bind fun _ _ =>
      pure fun _ => rfl
  · exact bind (child hcalls (fun _ => rfl) False.elim) fun _ _ => terminator.bind fun _ _ =>
      pure fun _ => rfl
  · exact reject

/-! ## Statements -/

theorem block : K.Carries n .block := by
  refine mark.bind fun _ _ => openNode.bind fun block block' => bind (repeating (fun _ =>
      .bind (.skipNewlines (.bind (.peek K.endKind (.reject K.endKind _))))) (fun _ => rfl)
        fun _ => skipNewlines.bind fun _ _ => peek (fun kind => ?_) fun _ => .reject K.endKind _)
      fun _ _ => closeNode (by simp_all)
  split
  · exact advance.bind fun _ _ => pure fun _ => rfl
  · exact reject
  · exact bind (child hcalls (fun _ => rfl) False.elim) fun _ _ => terminator.bind fun _ _ =>
      pure fun _ => rfl

theorem binding {kind : String → NodeKind} :
    K.Curtails n P Q (Grammar.binding kind) (Grammar.binding kind) :=
  identifier.bind fun _ _ => mark.bind fun _ _ => skipNewlines.bind fun _ _ =>
    openNode.bind fun _ _ => bind (part hcalls rfl) fun _ _ => closeNode (by simp_all)

theorem letOrVar : K.Carries n .letOrVar := by
  refine peek (fun kind => ?_) False.elim
  split
  · exact advance.bind fun _ _ => binding hcalls
  · exact advance.bind fun _ _ => binding hcalls
  · exact reject

theorem assignment : K.Carries n .assignment := binding hcalls

theorem return_ : K.Carries n .return_ := by
  refine keyword.bind fun _ _ => openNode.bind fun node node' => peek (fun kind => ?_)
    fun _ => .closeNode trivial
  split
  case h_4 =>
    exact bind (child hcalls (fun _ => rfl) False.elim) fun _ _ => closeNode (by simp_all)
  all_goals exact closeNode (by simp_all)

theorem throw : K.Carries n .throw :=
  keyword.bind fun _ _ => openNode.bind fun _ _ =>
    bind (part hcalls rfl) fun _ _ =>
      closeNode (by simp_all)

theorem if_ : K.Carries n .if_ := by
  refine keyword.bind fun _ _ => openNode.bind fun node node' =>
    bind (part hcalls rfl) fun _ _ =>
      bind (part hcalls rfl) fun _ _ =>
        bind (accept (by nofun)) fun more more' => ?_
  cases more <;> cases more'
  · exact closeNode (by simp_all)
  · exact of_idles (by simp) (.bind (.peek K.endKind (.bind (.reject K.endKind _))))
  · exact of_idles (by simp) (.closeNode trivial)
  · refine peek (fun kind => ?_) fun _ => .bind (.reject K.endKind _)
    split
    case h_3 => exact bind reject fun _ _ => closeNode (by simp_all)
    all_goals
      exact bind (child hcalls (fun _ => rfl) False.elim) fun _ _ => closeNode (by simp_all)

theorem while_ : K.Carries n .while_ :=
  keyword.bind fun _ _ => openNode.bind fun _ _ =>
    bind (part hcalls rfl) fun _ _ =>
      bind (part hcalls rfl) fun _ _ =>
        closeNode (by simp_all)

omit hcalls in
theorem clauseSeparator : K.Curtails n P Q Grammar.clauseSeparator Grammar.clauseSeparator :=
  skipNewlines.bind fun _ _ => mark.bind fun _ _ => skipNewlines

omit hcalls in
/-- A token that one run reads and the other one may have to do without. -/
theorem unlessEnded {α : Type} {b b' : Bool} {m : Reading Unit} {f f' : Unit → Reading α}
    (hb : P → b = b') (hm : K.Curtails n P True m m) (hend : K.short.Idles n m fun _ => True)
    (hf : K.Curtails n P True (f ()) (f' ())) :
    K.Curtails n P True (if b then m >>= f else f ()) (if b' then m >>= f' else f' ()) := by
  have hjoin (b : Bool) (f : Unit → Reading α) :
      (if b then m >>= f else f ()) = (if b then m else Pure.pure ()) >>= f := by
    cases b <;> rfl
  rw [hjoin b, hjoin b']
  have hf' (x x' : Unit) : K.Curtails n (P ∧ x = x') True (f x) (f' x') := by
    simpa using hf
  refine bind ?_ hf'
  cases b <;> cases b'
  · exact pure fun _ => rfl
  · exact of_idles (by simpa using hb) hend
  · exact of_idles (by simpa using hb) (.pure trivial)
  · exact hm

theorem forEach : K.Carries n .forEach := by
  refine keyword.bind fun _ _ => bind (accept (by nofun)) fun parenthesized parenthesized' =>
    identifier.bind fun _ _ => keyword.bind fun _ _ => openNode.bind fun node node' =>
      bind (part hcalls rfl) fun _ _ => unlessEnded (by simp_all) mark (.mark K.endKind) ?_
  exact bind (part hcalls rfl) fun _ _ => closeNode (by simp_all)

theorem catchClause : K.Curtails n P Q Grammar.catchClause Grammar.catchClause :=
  keyword.bind fun _ _ => mark.bind fun _ _ => identifier.bind fun _ _ => mark.bind fun _ _ =>
    openNode.bind fun _ _ => bind (part hcalls rfl) fun _ _ => closeNode (by simp_all)

theorem finallyClause : K.Curtails n P Q Grammar.finallyClause Grammar.finallyClause :=
  keyword.bind fun _ _ => openNode.bind fun _ _ => bind (part hcalls rfl) fun _ _ =>
    closeNode (by simp_all)

omit hcalls in
theorem optionalClause {node node' : NodeId} {word : Keyword} {clause : Reading NodeId}
    (hclause : ∀ {P Q}, K.Curtails n P Q clause clause) :
    K.Curtails n P Q (Grammar.optionalClause node word clause)
      (Grammar.optionalClause node' word clause) := by
  refine peek (fun kind => ?_) fun _ => ?_
  · split
    · exact (framed hclause).bind fun _ _ => attach.bind fun _ _ => pure fun _ => rfl
    · exact pure fun _ => rfl
  · rw [if_neg (by nofun)]
    exact .pure trivial

theorem try_ : K.Carries n .try_ := by
  refine keyword.bind fun _ _ => openNode.bind fun node node' => bind (part hcalls rfl) fun _ _ =>
    (optionalClause (catchClause hcalls)).bind fun caught caught' =>
      (optionalClause (finallyClause hcalls)).bind fun cleaned cleaned' => ?_
  split
  · split
    · exact closeNode (by simp_all)
    · next h h' =>
      refine of_idles ?_ (.reject K.endKind _)
      rintro ⟨⟨-, rfl⟩, rfl⟩
      exact h' h
  · exact reject

/-! ## Branchings -/

theorem branching {word : Keyword} {kind : NodeKind} {form : BranchForm} :
    K.Curtails n True False (Grammar.branching word kind form) (Grammar.branching word kind form) :=
  keyword.bind fun _ _ => openNode.bind fun _ _ =>
    bind (call hcalls (by simp_all) fun _ => ⟨rfl, .inl ⟨nofun, rfl⟩⟩) fun _ _ =>
      closeNode (by simp_all)

theorem arms {form : BranchForm} {parent : NodeId} : K.Carries n (.arms form parent) := by
  refine mark.bind fun _ _ => bind (repeating (fun seen => .bind (.skipNewlines (.bind
      (.peek K.endKind ?_)))) (fun _ => rfl) fun seen => skipNewlines.bind fun _ _ =>
      peek (fun kind => ?_) fun _ => ?_)
    fun _ _ => skipNewlines.bind fun _ _ => mark.bind fun _ _ => pure fun _ => rfl
  · cases seen <;> exact .reject K.endKind _
  · split
    · exact bind (child hcalls (fun _ => rfl) False.elim) fun _ _ => pure fun _ => rfl
    · split
      · exact bind (child hcalls (fun _ => rfl) False.elim) fun _ _ => pure fun _ => rfl
      · exact reject
    · split <;> exact reject
  · cases seen <;> exact .reject K.endKind _

theorem when_ {form : BranchForm} : K.Carries n (.when_ form) := by
  refine keyword.bind fun _ _ => openNode.bind fun node node' => bind (part hcalls rfl) fun _ _ => ?_
  cases form with
  | blocks => exact bind (part hcalls rfl) fun _ _ => closeNode (by simp_all)
  | values =>
    exact skipNewlines.bind fun _ _ => keyword.bind fun _ _ => skipNewlines.bind fun _ _ =>
      bind (part hcalls rfl) fun _ _ => closeNode (by simp_all)

theorem otherwise {form : BranchForm} : K.Carries n (.otherwise form) := by
  refine keyword.bind fun _ _ => openNode.bind fun node node' => ?_
  cases form with
  | blocks => exact bind (part hcalls rfl) fun _ _ => closeNode (by simp_all)
  | values =>
    exact skipNewlines.bind fun _ _ => bind (part hcalls rfl) fun _ _ => closeNode (by simp_all)

/-! ## Expressions -/

theorem expression {least : Nat} : K.Carries n (.expression least) := by
  refine bind (call hcalls (fun _ => rfl) False.elim) fun first first' =>
    repeating (fun _ => .bind (.peek K.endKind (.pure trivial))) And.right fun left =>
      peek (fun kind => ?_) False.elim
  split
  · exact pure fun _ => rfl
  · split
    · exact pure fun _ => rfl
    · exact advance.bind fun _ _ => skipNewlines.bind fun _ _ =>
        bind (call hcalls (fun _ => rfl) fun _ => ⟨rfl, .inl ⟨nofun, rfl⟩⟩) fun _ _ =>
          openNode.bind fun _ _ => attach.bind fun _ _ => attach.bind fun _ _ =>
            bind (closeNode (by simp_all)) fun _ _ => pure (by simp_all)

theorem unary : K.Carries n .unary := by
  refine peek (fun kind => ?_) False.elim
  split
  · exact call hcalls (fun _ => rfl) False.elim
  · exact advance.bind fun _ _ => openNode.bind fun _ _ => bind (part hcalls rfl) fun _ _ =>
      closeNode (by simp_all)

theorem callOn {receiver receiver' : NodeId} {kind kind' : NodeKind} :
    K.Curtails n P Q (Grammar.callOn receiver kind) (Grammar.callOn receiver' kind') :=
  openNode.bind fun _ _ => attach.bind fun _ _ =>
    bind (call hcalls (by simp_all) fun _ => ⟨rfl, .inl ⟨nofun, rfl⟩⟩) fun _ _ =>
      closeNode (by simp_all)

theorem chain : K.Carries n .chain := by
  refine bind (call hcalls (fun _ => rfl) False.elim) fun first first' =>
    repeating (fun _ => .bind (.peek K.endKind (.pure trivial))) And.right fun receiver =>
      peek (fun kind => ?_) False.elim
  split
  · exact advance.bind fun _ _ => identifier.bind fun _ _ => (callOn hcalls).bind fun _ _ =>
      pure (by simp_all)
  · exact (callOn hcalls).bind fun _ _ => pure (by simp_all)
  · exact pure fun _ => rfl

omit hcalls in
theorem nameEnd {name : String} : K.Curtails n P False (nameEnd name) (nameEnd name) := by
  rw [Reading.nameEnd]
  split
  · refine .mono (Q := True) ?_ fun _ => trivial
    exact (intern fun _ => rfl).bind fun _ _ => leaf
  · split
    · exact reject
    · exact leaf

omit hcalls in
/-- A node that the short run makes at its end, where the whole run makes one too. -/
theorem cuts_of_node {α : Type} {a : α} {s s' t : State} {x : Except ParseError (α × State)}
    {post : α → Prop} {p : Position} {m : Reading α}
    (hrun : run K.whole (Rule.enter K.whole n) m p s = .ok (a, t))
    (hlt : s.tree.size < t.tree.size) (hsize : s'.tree.size ≤ s.tree.size)
    (hx : s'.tree.size < K.short.maxNodes → K.short.Settles post (s'.tree.size + 1) x) :
    K.Cuts P a t x := by
  have hroom := size_run hrun
  rw [K.maxNodes] at hx
  exact .of_settles (hx (by omega)) (by omega)

omit hcalls in
theorem cuts_of_enter {id : NodeId} {rule : Rule} {s s' t : State} {p : Position}
    {x : Except ParseError (NodeId × State)} {post : NodeId → Prop}
    (hrun : Rule.enter K.whole n rule p s = .ok (id, t))
    (hlt : s.tree.size < t.tree.size) (hsize : s'.tree.size ≤ s.tree.size)
    (hx : s'.tree.size < K.short.maxNodes → K.short.Settles post (s'.tree.size + 1) x) :
    K.Cuts P id t x :=
  cuts_of_node (m := enter rule) (p := p) (by rw [run_enter_eq, hrun]) hlt hsize hx

/-- At its end the short run takes a name as it is, and so has a node for it as the whole run
does. -/
theorem nameTail {name name' : String} (hname : P → name = name') :
    K.Curtails n P True (nameTail name) (nameTail name') := by
  have htogether : K.Curtails n P False (Reading.nameTail name) (Reading.nameTail name') := by
    refine same (fun hP => by rw [hname hP]) (peek (fun kind => ?_) False.elim)
    split
    · exact openNode.mono (Q := True) (fun _ => trivial) |>.bind fun _ _ =>
        bind (call hcalls (by simp_all) fun _ => ⟨rfl, .inl ⟨nofun, rfl⟩⟩) fun _ _ =>
          closeNode (by simp_all)
    · exact nameEnd
  intro p p' s s' a t h hrun
  rcases h with h | ⟨-, h⟩
  · exact htogether p p' s s' a t (.inl h) hrun
  · exact cuts_of_node hrun (size_lt_of_nameTail hrun) h.size fun hroom =>
      settles_nameTail K.endKind name' h.rest hroom

theorem named : K.Carries n .named :=
  qualifiedName.bind fun _ _ => nameTail hcalls And.right

/-! ## Choices by the second token -/

omit hcalls in
/-- A choice by the token behind the next one, which the short run may have lost. -/
theorem cuts_behind {α : Type} {a : α} {s s' t : State} {p p' : Position}
    {f f' : TokenKind → Reading α} (h : K.Together s s')
    (hf : ∀ kind, K.Curtails n True False (f kind) (f' kind))
    (hlone : ∀ {token kind}, s'.rest = [token] →
      run K.whole (Rule.enter K.whole n) (f kind) p s = .ok (a, t) →
      K.Cuts True a t (run K.short (Rule.enter K.short n) (f' .endOfInput) p' s'))
    (hrun : run K.whole (Rule.enter K.whole n) (peekBehind >>= f) p s = .ok (a, t)) :
    K.Cuts True a t (run K.short (Rule.enter K.short n) (peekBehind >>= f') p' s') := by
  rw [run_bind] at hrun ⊢
  change run K.whole _ (f ((s.rest.drop 1).head?.getD K.whole.endToken).kind) p s = _ at hrun
  show K.Cuts True a t (run K.short _ (f' ((s'.rest.drop 1).head?.getD K.short.endToken).kind) p' s')
  rcases hrest : s'.rest with _ | ⟨token, _ | ⟨next, rest⟩⟩
  · exact absurd hrest h.ne_nil
  · have hlost := hlone hrest hrun
    rw [← K.endKind] at hlost
    exact hlost
  · rw [h.rest, hrest] at hrun
    exact hf next.kind p p' s s' a t (.inl ⟨trivial, h⟩) hrun

theorem statement : K.Carries n .statement := by
  refine peek (fun kind => ?_) False.elim
  split
  case h_3 =>
    intro p p' s s' id t h hrun
    rcases h with ⟨-, h⟩ | ⟨hQ, -⟩
    · refine cuts_behind h (fun behind => ?_) (fun {token behind} hlone hrun => ?_) hrun
      · split <;> exact call hcalls (fun _ => rfl) False.elim
      · rw [if_neg (by nofun)]
        split at hrun
        · -- The whole run reads an assignment, and the short one a name for an expression: it has
          -- room for its node because the assignment has one.
          rw [run_enter_eq] at hrun
          obtain ⟨hlevels, hlt, text, htoken⟩ := facts_of_assignment hrun
          obtain ⟨m, rfl⟩ := Nat.exists_eq_add_of_le' hlevels
          rw [← h.lexeme, State.current, hlone] at htoken
          rw [run_enter_eq]
          exact cuts_of_enter hrun hlt (Nat.le_of_eq h.size) fun hroom =>
            settles_expression K.endKind hlone htoken hroom
        · exact call (Q := False) hcalls (fun _ => rfl) False.elim p p' s s' id t
            (.inl ⟨trivial, h⟩) hrun
    · exact hQ.elim
  case h_12 | h_13 => exact advance.bind fun _ _ => leaf
  all_goals exact call hcalls (fun _ => rfl) False.elim

omit hcalls in
theorem literalToken {value : Literal} :
    K.Curtails n P Q (Grammar.literalToken value) (Grammar.literalToken value) :=
  advance.bind fun _ _ => leaf

omit hcalls in
theorem literalText {x : Lexeme} {value : String → Reading NodeId}
    (h : ∀ text, K.Curtails n P False (value text) (value text)) :
    K.Curtails n P False (Grammar.literalText x value) (Grammar.literalText x value) := by
  rw [Grammar.literalText]
  split
  · exact h _
  · exact refuseLiteral

/-- A primary expression that is told by its first token. -/
theorem primaryOf {x : Lexeme}
    (hword : x.kind = .identifier → x.text.bind CollectionKind.ofWord? = none) :
    K.Curtails n P False (Grammar.primaryOf x) (Grammar.primaryOf x) := by
  rw [Grammar.primaryOf]
  split
  case h_1 =>
    refine literalText fun text => ?_
    split
    · exact literalToken
    · exact refuseLiteral
  case h_2 | h_3 => exact literalText fun text => literalToken
  case h_4 | h_5 | h_6 => exact literalToken
  case h_7 =>
    exact advance.bind fun _ _ => skipNewlines.bind fun _ _ =>
      bind (call hcalls (fun _ => rfl) fun _ => ⟨rfl, .inl ⟨by simp, rfl⟩⟩) fun _ _ =>
        skipNewlines.bind fun _ _ => mark.bind fun _ _ => pure (by simp_all)
  case h_8 | h_9 | h_11 | h_12 => exact call hcalls (fun _ => rfl) False.elim
  case h_10 => exact advance.bind fun _ _ => qualifiedName.bind fun _ _ => leaf
  case h_13 hkind =>
    rw [hword hkind]
    exact call hcalls (fun _ => rfl) False.elim
  case h_14 => exact reject

/-- A name that the short run reads where the whole run reads the collection it introduces. -/
theorem cuts_of_collectionWord {x : Lexeme} {type : CollectionKind} {s s' t : State} {id : NodeId}
    {p p' : Position} (h : K.Together s s')
    (hx : (s'.current K.short).lexeme s'.tree.symbols = x) (hkind : x.kind = .identifier)
    (htype : x.text.bind CollectionKind.ofWord? = some type)
    (hrun : run K.whole (Rule.enter K.whole n) (Grammar.primaryOf x) p s = .ok (id, t)) :
    K.Cuts True id t (run K.short (Rule.enter K.short n) (Grammar.primaryOf x) p' s') := by
  obtain ⟨kind, text⟩ := x
  cases hkind
  obtain ⟨text, rfl, -⟩ := Option.bind_eq_some_iff.mp htype
  have hword : Grammar.primaryOf ⟨.identifier, some text⟩ = peekBehind >>= fun behind =>
      if behind = .mark .leftBracket then do
        Reading.advance
        enter (.collection type)
      else enter .named := by
    simp only [Grammar.primaryOf, htype]
  rw [hword] at hrun ⊢
  refine cuts_behind h (fun behind => ?_) (fun {token behind} hlone hrun => ?_) hrun
  · split
    · exact advance.bind fun _ _ => call hcalls (fun _ => rfl) fun _ => ⟨rfl, .inl ⟨by simp, rfl⟩⟩
    · exact call hcalls (fun _ => rfl) False.elim
  · rw [if_neg (by simp)]
    split at hrun
    · have hlt : s.tree.size < t.tree.size := by
        refine size_lt_of_bind (fun hrun => ?_) hrun
        rw [run_enter_eq] at hrun
        exact size_lt_of_collection hrun
      obtain ⟨_, s₁, -, hcollection⟩ := run_bind_ok.mp hrun
      rw [run_enter_eq] at hcollection
      obtain ⟨m, rfl, -⟩ := exists_of_enter hcollection
      rw [State.current, hlone] at hx
      rw [run_enter_eq]
      exact cuts_of_node hrun hlt (Nat.le_of_eq h.size) fun hroom =>
        settles_named K.endKind hlone hx hroom
    · exact call (Q := False) hcalls (fun _ => rfl) False.elim p p' s s' id t
        (.inl ⟨trivial, h⟩) hrun

theorem primary : K.Carries n .primary := by
  intro p p' s s' id t h hrun
  rcases h with ⟨-, h⟩ | ⟨hQ, -⟩
  · change run K.whole _ (Grammar.primaryOf ((s.current K.whole).lexeme s.tree.symbols)) p s = _ at hrun
    show K.Cuts True id t
      (run K.short _ (Grammar.primaryOf ((s'.current K.short).lexeme s'.tree.symbols)) p' s')
    rw [← h.lexeme] at hrun
    cases htype : ((s'.current K.short).lexeme s'.tree.symbols).text.bind CollectionKind.ofWord? with
    | none =>
      exact primaryOf hcalls (fun _ => htype) p p' s s' id t (.inl ⟨trivial, h⟩) hrun
    | some type =>
      by_cases hkind : ((s'.current K.short).lexeme s'.tree.symbols).kind = .identifier
      · exact cuts_of_collectionWord hcalls h rfl hkind htype hrun
      · exact primaryOf hcalls (fun h => absurd h hkind) p p' s s' id t (.inl ⟨trivial, h⟩) hrun
  · exact hQ.elim

/-! ## Loops -/

omit hcalls in
theorem reach_le_of_for {p : Position} {s t : State} {id : NodeId}
    (h : run K.whole (Rule.enter K.whole n) Grammar.for_ p s = .ok (id, t)) : 5 ≤ n := by
  obtain ⟨_, s₁, -, h⟩ := run_bind_ok.mp h
  obtain ⟨_, s₂, -, h⟩ := run_bind_ok.mp h
  obtain ⟨node, s₃, -, h⟩ := run_bind_ok.mp h
  obtain ⟨_, s₄, -, h⟩ := run_bind_ok.mp h
  obtain ⟨_, s₅, hchild, -⟩ := run_bind_ok.mp h
  obtain ⟨id₁, s₆, hvariable⟩ := exists_of_call hchild
  exact reach_le_of_letOrVar hvariable

/-- The last clause of a header may be shorter than an expression, but the first one is not. -/
theorem for_ : K.Carries n .for_ := by
  intro p p' s s' id t h hrun
  have hlevels := reach_le_of_for hrun
  have hbody : K.Curtails n True False Grammar.for_ Grammar.for_ :=
    keyword.bind fun _ _ => mark.bind fun _ _ => openNode.bind fun _ _ => skipNewlines.bind fun _ _ =>
      bind (part hcalls rfl) fun _ _ => clauseSeparator.bind fun _ _ =>
        bind (part hcalls rfl) fun _ _ => clauseSeparator.bind fun _ _ =>
          bind (child hcalls (fun _ => rfl) fun _ => ⟨rfl, .inr hlevels⟩) fun _ _ =>
            skipNewlines.bind fun _ _ => mark.bind fun _ _ => bind (part hcalls rfl) fun _ _ =>
              closeNode (by simp_all)
  exact hbody p p' s s' id t h hrun

/-! ## Brackets -/

omit hcalls in
theorem map_kind_newlines {tokens : List Token} (h : ∀ t ∈ tokens, t.kind = .newline) :
    tokens.map (·.kind) = List.replicate tokens.length .newline := by
  rw [List.map_eq_replicate_iff]
  exact h

omit hcalls in
theorem inBrackets {s s' : State} {left right : Mark} (h : K.Together s s')
    (hbracket : Bracket left right) (hleft : (s.current K.whole).kind = .mark left)
    (hright : ((s.advance.rest.dropWhile (·.kind = .newline)).head?.getD K.whole.endToken).kind =
      .mark right)
    (hended : s'.advance.rest.dropWhile (·.kind = .newline) = []) : K.InBrackets := by
  obtain ⟨rest, lastEnd, tree⟩ := s
  obtain ⟨rest', lastEnd', tree'⟩ := s'
  obtain ⟨hne, rfl, ⟨before, hfront⟩, -, -⟩ := h
  rcases rest' with _ | ⟨token, rest'⟩
  · exact absurd rfl hne
  have hbetween : ∀ t ∈ rest', t.kind = .newline := by
    simpa [State.advance, List.dropWhile_eq_nil_iff] using hended
  have hsplit := List.takeWhile_append_dropWhile (p := (·.kind = .newline)) (l := K.behind)
  have hlines : ∀ t ∈ K.behind.takeWhile (·.kind = .newline), t.kind = .newline := fun t ht => by
    simpa using List.mem_takeWhile_imp ht
  simp only [State.advance, List.cons_append, List.dropWhile_append] at hright
  rw [if_pos (by simpa using hbetween)] at hright
  cases hdrop : K.behind.dropWhile (·.kind = .newline) with
  | nil =>
    rw [hdrop, List.head?_nil, Option.getD_none, K.wholeEnd] at hright
    cases hright
  | cons close after =>
    rw [hdrop] at hright hsplit
    refine ⟨left, right, before.map (·.kind), after.map (·.kind), rest'.length,
      (K.behind.takeWhile (·.kind = .newline)).length, hbracket, ?_, ?_⟩
    · rw [← hfront, ← map_kind_newlines hbetween, ← hleft]
      simp [State.current]
    · rw [← map_kind_newlines hlines, ← hright]
      conv_lhs => rw [← hsplit]
      simp

/-- With enough levels for an expression. -/
theorem arguments_of_levels {node : NodeId} (hlevels : 4 ≤ n) : K.Carries n (.arguments node) := by
  have hargument {post : Unit → Prop} :
      K.short.Idles n (Reading.child node (.expression 0)) post :=
    .bind (.call fun hrest => enter_exhausted K.endKind rfl hlevels hrest)
  refine mark.bind fun _ _ => skipNewlines.bind fun _ _ => bind (accept (by nofun))
    fun empty empty' => ?_
  cases empty <;> cases empty'
  · refine bind (repeating (fun _ => .bind hargument) (fun _ => rfl) fun _ => ?_) fun _ _ =>
      pure fun _ => rfl
    refine bind (child hcalls (fun _ => rfl) False.elim) fun _ _ => skipNewlines.bind fun _ _ =>
      peek (fun kind => ?_) fun _ => .reject K.endKind _
    split
    · exact advance.bind fun _ _ => skipNewlines.bind fun _ _ => pure fun _ => rfl
    · exact advance.bind fun _ _ => pure fun _ => rfl
    · exact reject
  · exact of_idles (by simp) (.pure trivial)
  · exact of_idles (by simp) (.bind ((Context.Idles.repeating (.bind hargument)).imp fun _ _ =>
      .pure trivial))
  · exact pure fun _ => rfl

theorem collection_of_levels {type : CollectionKind} (hlevels : 4 ≤ n) :
    K.Carries n (.collection type) := by
  have helement {node : NodeId} {post : Unit → Prop} :
      K.short.Idles n (Reading.child node (.expression 0)) post :=
    .bind (.call fun hrest => enter_exhausted K.endKind rfl hlevels hrest)
  refine mark.bind fun _ _ => openNode.bind fun node node' => bind (repeating (fun _ => ?_)
    (fun _ => rfl) fun _ => skipNewlines.bind fun _ _ => bind (accept (by nofun))
      fun closed closed' => ?_) fun _ _ => closeNode (by simp_all)
  · exact .bind (.skipNewlines (.bind (.accept K.endKind (by nofun) (.bind helement))))
  · cases closed <;> cases closed'
    · refine bind (part hcalls rfl) fun _ _ => skipNewlines.bind fun _ _ => peek (fun kind => ?_)
        fun _ => .reject K.endKind _
      split
      · exact advance.bind fun _ _ => pure fun _ => rfl
      · exact advance.bind fun _ _ => pure fun _ => rfl
      · exact reject
    · exact of_idles (by simp) (.pure trivial)
    · exact of_idles (by simp) (.bind helement)
    · exact pure fun _ => rfl

section Few

variable {s s' t : State} {p p' : Position} {node : NodeId} (hlevels : n < 4)
include hlevels

omit hcalls in
theorem not_read_of_few {α : Type} {a : α} {f : Unit → Reading α} :
    run K.whole (Rule.enter K.whole n) (Reading.child node (.expression 0) >>= f) p s ≠ .ok (a, t) := by
  intro hrun
  obtain ⟨_, s₁, hchild, -⟩ := run_bind_ok.mp hrun
  obtain ⟨id, s₂, hvalue⟩ := exists_of_call hchild
  exact Nat.not_le_of_lt hlevels (reach_le_of_operand (.inr (.inr ⟨0, rfl⟩)) hvalue)

omit hcalls in
theorem excuses_of_few {α : Type} {f : Unit → Reading α} (hrest : s'.rest = [])
    (hcut : K.InBrackets) : ∃ e, run K.short (Rule.enter K.short n)
      (Reading.child node (.expression 0) >>= f) p' s' = .error e ∧ K.Excuses e := by
  obtain ⟨e, herror, he⟩ := enter_shallow (p := p') (.inr (.inr ⟨0, rfl⟩)) K.endKind hlevels hrest
  refine ⟨e, ?_, .tooDeep _ (by rw [he]) (by rw [he]) hcut⟩
  rw [run_bind, Reading.child, run_bind, run_enter_eq, herror]

end Few

omit hcalls

/-- The short run answers as the whole one does, or is excused. -/
inductive Closes (K : Cut) (P : Prop) {α : Type} (b : α) (t : State) :
    Except ParseError (α × State) → Prop where
  | ok {t' : State} (h : K.Side P True t t') : Closes K P b t (.ok (b, t'))
  | error {e : ParseError} (h : K.Excuses e) : Closes K P b t (.error e)

section Closed

variable {α β : Type} {a b : α} {m m' : Reading α} {left right : Mark} {s₀ s₀' s s' t : State}
  {p p' : Position}

theorem Closes.cuts {x : Except ParseError (α × State)} (h : Closes K P b t x) : K.Cuts P b t x := by
  cases h with
  | ok h => exact .ok (h.imp (fun hP => ⟨hP, rfl⟩) id)
  | error h => exact .error h

/-- Either there is nothing between the brackets or something is read. -/
theorem eq_of_closed (hread : ∀ {s}, run K.whole (Rule.enter K.whole n) m p s ≠ .ok (a, t))
    (hrun : run K.whole (Rule.enter K.whole n) (Reading.skipNewlines >>= fun _ =>
      Reading.accept (.mark right) >>= fun closed => if closed then Pure.pure b else m) p s =
        .ok (a, t)) :
    a = b ∧ t = State.advance ⟨s.rest.dropWhile (·.kind = .newline), s.lastEnd, s.tree⟩ ∧
      ((s.rest.dropWhile (·.kind = .newline)).head?.getD K.whole.endToken).kind = .mark right := by
  rw [run_bind] at hrun
  change run K.whole _ (Reading.accept _ >>= _) p ⟨_, _, _⟩ = _ at hrun
  rw [run_bind, run_accept] at hrun
  by_cases hright : (State.current K.whole
      ⟨s.rest.dropWhile (·.kind = .newline), s.lastEnd, s.tree⟩).kind = .mark right
  · rw [if_pos hright] at hrun
    cases hrun
    exact ⟨rfl, rfl, hright⟩
  · rw [if_neg hright] at hrun
    exact absurd hrun hread

/-- Behind an opening bracket, where the whole run finds the closing one: the short run finds it
too, or has come to its end between the two. -/
theorem closes (h : K.Together s₀ s₀') (hbracket : Bracket left right)
    (hleft : (s₀.current K.whole).kind = .mark left) (hside : K.Side P True s s')
    (hrest : s.rest = s₀.advance.rest) (hrest' : s'.rest = s₀'.advance.rest)
    (hright : ((s.rest.dropWhile (·.kind = .newline)).head?.getD K.whole.endToken).kind = .mark right)
    (hmissing : ∀ {s'}, s'.rest = [] → K.InBrackets →
      ∃ e, run K.short (Rule.enter K.short n) m' p' s' = .error e ∧ K.Excuses e) :
    Closes K P b (State.advance ⟨s.rest.dropWhile (·.kind = .newline), s.lastEnd, s.tree⟩)
      (run K.short (Rule.enter K.short n) (Reading.skipNewlines >>= fun _ =>
        Reading.accept (.mark right) >>= fun closed => if closed then Pure.pure b else m') p' s') := by
  rw [run_bind]
  show Closes K P b _ (run K.short _ (Reading.accept _ >>= _) p' ⟨_, _, _⟩)
  rw [run_bind, run_accept]
  rcases hside.skipNewlines with ⟨hP, htogether⟩ | ⟨-, hended⟩
  · rw [if_pos (by rw [htogether.current]; exact hright)]
    exact .ok (htogether.advance.imp (fun _ => hP) id)
  · have hcut := hended.rest
    simp only [hrest'] at hcut
    rw [hrest] at hright
    obtain ⟨e, herror, he⟩ := hmissing hended.rest (inBrackets h hbracket hleft hright hcut)
    rw [current_of_exhausted hended.rest, K.endKind, if_neg (by nofun)]
    show Closes K P b _ (run K.short _ m' p' _)
    rw [herror]
    exact .error he

/-- A repetition that is over with its first round in either run. -/
theorem closes_repeating {σ : Type} {round : σ → Reading (Round σ α)} {x : σ}
    (h : Closes K P (.stop b) t (run K.short (Rule.enter K.short n) (round x) p' s')) :
    Closes K P b t (run K.short (Rule.enter K.short n) (Reading.repeating x round) p' s') := by
  rw [run_repeating, iterate]
  revert h
  rcases run K.short (Rule.enter K.short n) (round x) p' s' with e | ⟨y, s₁⟩
  · rintro (_ | ⟨he⟩)
    exact .error he
  · rintro (⟨h⟩ | _)
    exact .ok h

theorem cuts_bind {f f' : α → Reading β} {c : β} {t₁ : State}
    (h : Closes K P a t (run K.short (Rule.enter K.short n) m' p' s'))
    (hrun : run K.whole (Rule.enter K.whole n) (f a) p t = .ok (c, t₁))
    (hf : K.Curtails n P True (f a) (f' a)) :
    K.Cuts P c t₁ (run K.short (Rule.enter K.short n) (m' >>= f') p' s') := by
  rw [run_bind]
  revert h
  rcases run K.short (Rule.enter K.short n) m' p' s' with e | ⟨y, s₁⟩
  · rintro (_ | ⟨he⟩)
    exact .error he
  · rintro (⟨h⟩ | _)
    exact hf p p' t s₁ c t₁ h hrun

end Closed

/-- With fewer levels than an expression takes there are no arguments. -/
theorem arguments_of_few {node : NodeId} (hlevels : n < 4) : K.Carries n (.arguments node) := by
  intro p p' s s' id t h hrun
  rcases h with ⟨-, h⟩ | ⟨hQ, -⟩
  · obtain ⟨_, s₁, hopen, hrun⟩ := run_bind_ok.mp hrun
    rw [run_expect] at hopen
    split at hopen
    · next hleft =>
      obtain ⟨-, rfl⟩ := Prod.mk.inj (Except.ok.inj hopen)
      obtain ⟨rfl, rfl, hright⟩ := eq_of_closed (fun hrun => by
        obtain ⟨y, s₂, hround⟩ := exists_of_repeating hrun
        exact not_read_of_few hlevels hround) hrun
      show K.Cuts True id _ (run K.short _ (Reading.expect _ >>= _) p' s')
      rw [run_bind, run_expect, h.current, if_pos hleft]
      refine (closes h .round hleft h.advance rfl rfl hright fun hrest hcut => ?_).cuts
      obtain ⟨e, herror, he⟩ := excuses_of_few hlevels hrest hcut
      exact ⟨e, run_repeating_error herror, he⟩
    · cases hopen
  · exact hQ.elim

/-- With fewer levels than an expression takes a collection has no elements. -/
theorem collection_of_few {type : CollectionKind} (hlevels : n < 4) :
    K.Carries n (.collection type) := by
  intro p p' s s' id t h hrun
  rcases h with ⟨-, h⟩ | ⟨hQ, -⟩
  · obtain ⟨_, s₁, hopen, hrun⟩ := run_bind_ok.mp hrun
    rw [run_expect] at hopen
    split at hopen
    · next hleft =>
      obtain ⟨-, rfl⟩ := Prod.mk.inj (Except.ok.inj hopen)
      obtain ⟨node, s₂, hnode, hrun⟩ := run_bind_ok.mp hrun
      obtain ⟨_, s₃, hloop, hrun⟩ := run_bind_ok.mp hrun
      show K.Cuts True id t (run K.short _ (Reading.expect _ >>= _) p' s')
      rw [run_bind, run_expect, h.current, if_pos hleft]
      have hopened : K.Cuts True node s₂ (run K.short (Rule.enter K.short n)
          (Reading.openNode (.collection type)) p' s'.advance) :=
        openNode p p' _ _ node s₂ h.advance hnode
      show K.Cuts True id t (run K.short _ (Reading.openNode _ >>= _) p' s'.advance)
      rw [run_bind]
      revert hopened
      rcases hnode' : run K.short (Rule.enter K.short n) (Reading.openNode (.collection type)) p'
        s'.advance with e | ⟨node', s₂'⟩
      · rintro (_ | ⟨he⟩)
        exact .error he
      · rintro (⟨hside⟩ | _)
        have hrest := rest_of_openNode hnode
        rw [repeatUntil, run_repeating] at hloop
        rcases iterate_succ_ok_iff.mp hloop with hfirst | ⟨_, _, hfirst, -⟩
        · -- The first round has found the closing bracket.
          obtain ⟨-, rfl, hright⟩ := eq_of_closed (fun hrun => not_read_of_few hlevels hrun) hfirst
          refine (cuts_bind (a := ()) (f := fun _ => Reading.closeNode node) (closes_repeating
            (closes h .square hleft hside hrest (rest_of_openNode hnode') hright fun hrest hcut =>
              excuses_of_few hlevels hrest hcut)) hrun (closeNode And.right)).imp And.left
        · obtain ⟨hstop, -⟩ := eq_of_closed (fun hrun => not_read_of_few hlevels hrun) hfirst
          cases hstop
    · cases hopen
  · exact hQ.elim

theorem topLevel {rule : Rule} {imports : Bool} (hcalls : ∀ rule, K.Keeps n rule) :
    K.Curtails n P False (Grammar.topLevel rule imports) (Grammar.topLevel rule imports) :=
  bind (child hcalls (fun _ => rfl) False.elim) fun _ _ => terminator.bind fun _ _ =>
    pure fun _ => rfl

/-- A compilation unit may also be looked for where nothing is left in front of the cut. -/
theorem compilationUnit (hcalls : ∀ rule, K.Keeps n rule) :
    K.Curtails n P Q Grammar.compilationUnit Grammar.compilationUnit := by
  refine skipNewlines.bind fun _ _ => bind (part hcalls rfl) fun _ _ => terminator.bind fun _ _ =>
    bind (repeating (fun _ => .bind (.skipNewlines (.bind (.peek K.endKind (.pure trivial)))))
      (fun _ => rfl) fun imports => skipNewlines.bind fun _ _ => peek (fun kind => ?_)
        fun _ => .pure trivial) fun _ _ => pure fun _ => rfl
  split
  · exact pure fun _ => rfl
  · exact topLevel hcalls
  · exact topLevel hcalls
  · exact topLevel hcalls
  · exact topLevel hcalls
  · split
    · exact topLevel hcalls
    · exact reject
  · split <;> exact reject

theorem carries (hcalls : ∀ rule, K.Keeps n rule) (rule : Rule) : K.Carries n rule := by
  cases rule with
  | compilationUnit => exact compilationUnit hcalls
  | moduleDeclaration => exact moduleDeclaration
  | importDeclaration => exact importDeclaration
  | functionDeclaration => exact functionDeclaration hcalls
  | function => exact function hcalls
  | augmentation => exact augmentation hcalls
  | struct => exact struct
  | block => exact block hcalls
  | statement => exact statement hcalls
  | letOrVar => exact letOrVar hcalls
  | assignment => exact assignment hcalls
  | return_ => exact return_ hcalls
  | throw => exact throw hcalls
  | if_ => exact if_ hcalls
  | while_ => exact while_ hcalls
  | for_ => exact for_ hcalls
  | forEach => exact forEach hcalls
  | try_ => exact try_ hcalls
  | case_ => exact branching hcalls
  | match_ => exact branching hcalls
  | arms form parent => exact arms hcalls
  | when_ form => exact when_ hcalls
  | otherwise form => exact otherwise hcalls
  | expression minPrecedence => exact expression hcalls
  | unary => exact unary hcalls
  | chain => exact chain hcalls
  | arguments call =>
    rcases Nat.lt_or_ge n 4 with hfew | hlevels
    · exact arguments_of_few hfew
    · exact arguments_of_levels hcalls hlevels
  | primary => exact primary hcalls
  | named => exact named hcalls
  | collection type =>
    rcases Nat.lt_or_ge n 4 with hfew | hlevels
    · exact collection_of_few hfew
    · exact collection_of_levels hcalls hlevels

end Rules

end Curtails

/-- Every rule, whatever the number of levels left. -/
theorem keeps (K : Cut) (n : Nat) (rule : Rule) : K.Keeps n rule := by
  induction n generalizing rule with
  | zero => exact fun p p' s s' id t _ h => nomatch h
  | succ n ih =>
    intro p p' s s' id t h hrun
    exact Curtails.carries ih rule _ _ s s' id t (.inl ⟨trivial, h⟩) hrun

end Reading.Cut

end GoloSyntax
