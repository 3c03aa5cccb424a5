import GoloSyntax.Proofs.Reading.ForkDeclarations

/-! # Every rule where two lists part

The rules of statements, branchings and expressions fit as well, so every rule does
(`Parting.fits`).  What a round of a repetition reads is named where the rounds of both runs are
compared: behind the last common token our run may begin another round where the other run ends
the repetition.
-/
namespace GoloSyntax

namespace Reading

variable {F : Parting} {rule : Rule} {α β σ : Type} {here : α → Option Lexeme → Prop}
  {there : Verdict α → Verdict α → Prop} {o : Option Lexeme} {x : Lexeme}

namespace Parting

/-! ## Statements -/

/-- A statement of a block, or its end. -/
def statementRound (block : NodeId) : Reading (Round Unit Unit) := do
  skipNewlines
  match ← peek with
  | .mark .rightBrace =>
    advance
    return .stop ()
  | .endOfInput => reject [.token (.mark .rightBrace)]
  | _ =>
    child block .statement
    terminator true
    return .again ()

theorem insists_statementRound (block : NodeId) :
    Insists (statementRound block) [.token (.mark .rightBrace), .expression] := by
  refine .skipNewlines (.peek _ fun x => ?_)
  split
  · next hbrace => simp [hbrace]
  · next hend => simp [hend]
  · next hbrace _ =>
    refine (rests_bind _ _).mpr ((rests_child (by simp)).mpr fun h =>
      ⟨_, rfl, by simp [Rule.asks], ?_⟩)
    have hnull : x.kind ≠ .keyword .null := by
      intro hnull
      simp [hnull, Rule.starts, Rule.expressionStarts, Rule.primaryStarts] at h
    simpa [hnull] using hbrace

/-- Behind a statement comes the next line, or the end of the block. -/
theorem lockstep_statement {block parent : NodeId} {next : Unit → Reading α}
    (hthere : ∀ expected v', F.Honest expected → there (.refuses expected) v') :
    F.Lockstep F.Keeps (do
      child parent .statement
      terminator true
      return Round.again ()) (fun _ _ => True) (fun v v' =>
        F.Joins v v' (·.onward (fun _ => statementRound block) next) there) o := by
  have hagain : Insists (statementRound block) _ := insists_statementRound block
  refine .child (by simp) (fun id v' hv' => ?_)
    (.terminator (fun _ _ _ => Insists.again hagain fun _ _ h => hthere _ _ h)
      fun _ => .pure trivial)
  have hline {x : Lexeme} := rests_line (x := x) (fun _ => statementRound block) next ()
    [.token (.mark .rightBrace)] (fun h => by simp [h, statementRound])
    (fun h => by simp [h, statementRound])
  have hours (hnewline : F.theirs.kind ≠ .newline) (hbrace : F.theirs.kind ≠ .mark .rightBrace)
      {v : Verdict α} (hv : AtLineEnd [.token (.mark .rightBrace)] F.ours v) (v' : Verdict α) :
      there v v' := by
    rcases hv with ⟨-, rfl⟩ | ⟨-, -, -, rfl⟩ <;>
    exact hthere _ _ (honest_of_not_admits (by simp [hnewline, hbrace]))
  cases v' with
  | refuses expected =>
    -- Our run is through with a `return`, and the other one looks for its value.
    obtain ⟨-, -, -, hends⟩ := keeps_refuses.mp hv'
    refine joins_passes_refuses.mpr (rests_joins_refuses.mpr fun v hv =>
      hours ?_ ?_ (hline v hv) _) <;>
    · intro h
      simp [h, TokenKind.endsReturn] at hends
  | passes id' =>
    refine joins_passes.mpr (meets_joins.mpr fun v hv v' hv' => ?_)
    rcases hline v' hv' with ⟨htheirs, -⟩ | ⟨hnewline, -, hbrace, -⟩
    · exact hours (by simp [htheirs]) (by simp [htheirs]) (hline v hv) _
    · exact hours hnewline hbrace (hline v hv) _

theorem fits_block : F.Fits .block := by
  refine .expect (fun _ => ?_) (.openNode fun block => .repeating (fun _ => .skipNewlines
    (fun _ hours htheirs => ?_) (.peek fun y => ?_)) fun _ => .closeNode trivial)
  · exact (Insists.openNode fun block => .bind (.repeating (insists_statementRound block))).meets
      lenient_then
  · exact (insists_statementRound block).skipped hours htheirs (by simp)
  · split
    · exact .advance (fun _ => by simp_all) (.pure trivial)
    · exact .reject
    · exact lockstep_statement fun _ _ h => h

theorem fits_statement : F.Fits .statement := by
  refine .peek fun y => ?_
  split
  case h_3 hkind =>
    refine .peekBehind (foresees_ite fun hy x hx hassign => ⟨rfl, hkind, hassign⟩) fun kind => ?_
    split
    · exact .enter (by simp) (by simp +contextual) fun _ => trivial
    · exact .enter (by simp) (by simp +contextual) fun _ => trivial
  case h_4 =>
    refine .enter (by simp) (fun id v' hv' => ?_) fun _ => trivial
    cases v' with
    | refuses expected => exact joins_passes_refuses.mpr ((rests_done id).mpr ⟨.inl rfl, hv'.2⟩)
    | passes id' => exact joins_passes.mpr ((rests_done id).mpr ((rests_done id').mpr hv'))
  case h_12 hkind => exact .advance (fun _ => by simp_all) (.leaf fun _ => trivial)
  case h_13 hkind => exact .advance (fun _ => by simp_all) (.leaf fun _ => trivial)
  all_goals exact .enter (by simp) (by simp +contextual) fun _ => trivial

theorem binding {kind : String → NodeKind} : F.Lockstep F.Keeps (Grammar.binding kind)
    (fun _ _ => True) (fun v v' => v.Then F.Honest fun _ => F.Keeps rule v') o :=
  .identifier (fun _ _ => by simp +contextual) fun _ => .expect (fun _ => by simp +contextual)
    (.skipNewlines (fun _ _ _ => by simp +contextual) (.openNode fun _ =>
      .child (by simp) (by simp +contextual) (.closeNode trivial)))

theorem fits_letOrVar : F.Fits .letOrVar := by
  refine .peek fun y => ?_
  split
  · exact .advance (fun _ => by simp +contextual [Grammar.binding]) binding
  · exact .advance (fun _ => by simp +contextual [Grammar.binding]) binding
  · exact .reject

theorem fits_assignment : F.Fits .assignment := binding

/-- What stands behind `return`. -/
def returnValue : Reading NodeId := do
  let node ← openNode .return_
  match ← peek with
  | .newline | .mark .rightBrace | .endOfInput => closeNode node
  | _ =>
    child node (.expression 0)
    closeNode node

/-- A `return` is through in front of what ends it, and looks for its value otherwise. -/
theorem rests_returnValue : returnValue.Rests x fun v => v.Then
    (fun expected => expected = [.expression] ∧ x.kind ≠ .keyword .null ∧ x.kind.endsReturn = false)
    fun _ => x.kind.endsReturn := by
  simp only [returnValue, rests_bind, rests_openNode, rests_peek, then_passes]
  intro node
  split
  case h_4 hnewline hbrace hend =>
    refine (rests_bind _ _).mpr ((rests_child (by simp)).mpr fun h => ⟨rfl, ?_, ?_⟩)
    · rintro hnull
      simp [hnull, Rule.starts, Rule.expressionStarts, Rule.primaryStarts] at h
    · rw [TokenKind.endsReturn.eq_def]
      split <;> simp_all
  all_goals
    next hkind => exact rests_closeNode.mpr (by simp [hkind, TokenKind.endsReturn])

theorem fits_return : F.Fits .return_ := by
  refine .expect (fun hbefore => ?_) (.openNode fun node => .peek fun y => ?_)
  · intro v hv v' hv'
    replace hv := rests_returnValue v hv
    replace hv' := rests_returnValue v' hv'
    cases v with
    | refuses expected =>
      obtain rfl := hv.1
      refine honest_of_not_admits ?_
      cases v' with
      | refuses => simpa using hv'.2.1
      | passes =>
        have hnull : F.theirs.kind ≠ .keyword .null := by
          intro hnull
          simp [hnull, TokenKind.endsReturn] at hv'
        simpa using hnull
    | passes =>
      cases v' with
      | refuses => exact ⟨.inr rfl, hbefore, hv, hv'.2.2⟩
      | passes => simp [hbefore]
  · split
    case h_4 => exact .child (by simp) (by simp +contextual) (.closeNode trivial)
    all_goals exact .closeNode trivial

theorem fits_throw : F.Fits .throw :=
  .expect (fun _ => by simp +contextual) (.openNode fun _ => .child (by simp)
    (by simp +contextual) (.closeNode trivial))

theorem fits_if : F.Fits .if_ := by
  refine .expect (fun _ => by simp +contextual) (.openNode fun node => .child (by simp)
    (by simp +contextual) (.child (by simp) ?_ (.accept (fun _ => ?_) (.peek fun y => ?_)
      fun _ _ => .closeNode trivial)))
  · simp +contextual
  · refine (Insists.peek [.token (.keyword .if_), .token (.mark .leftBrace)] fun x => ?_).meets
      lenient_then
    split <;> simp_all [Rule.starts, Rule.asks]
  · split
    · exact .child (by simp) (by simp +contextual) (.closeNode trivial)
    · exact .child (by simp) (by simp +contextual) (.closeNode trivial)
    · exact .reject_bind

theorem fits_while : F.Fits .while_ :=
  .expect (fun _ => by simp +contextual) (.openNode fun _ => .child (by simp)
    (by simp +contextual) (.child (by simp) (by simp +contextual) (.closeNode trivial)))

theorem fits_for : F.Fits .for_ := by
  refine .expect (fun _ => by simp +contextual) (.expect (fun _ => by simp +contextual)
    (.openNode fun node => .skipNewlines (fun _ _ _ => by simp +contextual)
      (.child (by simp) (by simp +contextual [Grammar.clauseSeparator])
        (.clauseSeparator lenient_then (by simp +contextual)
          (.child (by simp) (by simp +contextual [Grammar.clauseSeparator])
            (.clauseSeparator lenient_then (by simp +contextual) (.child (by simp) ?_
              (.skipNewlines (fun _ _ _ => by simp +contextual)
                (.expect (fun _ => by simp +contextual) (.child (by simp) (by simp +contextual)
                  (.closeNode trivial)))))))))))
  intro id v' hv'
  cases v' with
  | refuses expected =>
    -- What may stand behind `return` is asked for, but not a closing parenthesis.
    obtain ⟨-, hbefore, hours, -⟩ := keeps_refuses.mp hv'
    have hhonest : F.Honest [.token (.mark .rightParen)] := by
      intro w hw hadmits
      obtain rfl := List.mem_singleton.mp hw
      rw [show F.theirs.kind = _ from hadmits]
      exact .value hbefore hours
    simp [hhonest]
  | passes id' => simp +contextual

theorem fits_forEach : F.Fits .forEach := by
  have hname (parenthesized : Bool) (o : Option Lexeme) : F.Lockstep F.Keeps (do
      let name ← identifier .loopVariable
      expect (.keyword .in_)
      let node ← openNode (.forEach name)
      child node (.expression 0)
      if parenthesized then expect (.mark .rightParen)
      child node .block
      closeNode node) (fun _ _ => True)
        (fun v v' => v.Then F.Honest fun _ => F.Keeps .forEach v') o := by
    refine .identifier (fun _ _ => ?_) fun name => .expect (fun _ => by simp +contextual)
      (.openNode fun node => .child (by simp) ?_ ?_)
    · simp +contextual
    · cases parenthesized <;> simp +contextual
    · cases parenthesized
      · exact .child (by simp) (by simp +contextual) (.closeNode trivial)
      · exact .expect (fun _ => by simp +contextual) (.child (by simp) (by simp +contextual)
          (.closeNode trivial))
  exact .expect (fun _ => by simp +contextual) (.accept (fun _ => by simp +contextual)
    (hname true _) fun y _ => hname false _)

/-- What may follow a `try` block. -/
theorem insists_clauses (node : NodeId) : Insists (do
    let caught ← Grammar.optionalClause node .catch_ Grammar.catchClause
    let cleaned ← Grammar.optionalClause node .finally_ Grammar.finallyClause
    if caught || cleaned then closeNode node
    else reject [.token (.keyword .catch_), .token (.keyword .finally_)])
    [.token (.keyword .catch_), .token (.keyword .finally_)] := by
  intro x
  simp only [Grammar.optionalClause, rests_bind, rests_peek, then_passes]
  split
  · next hcatch => simp [Grammar.catchClause, hcatch]
  · next hcatch =>
    rw [rests_pure, then_passes]
    split
    · next hfinally => simp [Grammar.finallyClause, hfinally]
    · next hfinally => simp [hcatch, hfinally]

/-- Behind a `catch` clause nothing more is needed. -/
theorem passes_finally (node : NodeId) : Passes (do
    let cleaned ← Grammar.optionalClause node .finally_ Grammar.finallyClause
    if true || cleaned then closeNode node
    else reject [.token (.keyword .catch_), .token (.keyword .finally_)]) node := by
  intro x
  simp only [Grammar.optionalClause, rests_bind, rests_peek, then_passes]
  split
  · next hfinally => simp [Grammar.finallyClause, hfinally]
  · simp

theorem fits_try : F.Fits .try_ := by
  refine .expect (fun _ => by simp +contextual) (.openNode fun node => .child (by simp) ?_ ?_)
  · exact (returns_iff (by simp) (by simp)).mpr fun _ _ _ _ =>
      (insists_clauses node).meets lenient_then
  · have hfinally (caught : Bool) (o : Option Lexeme) : F.Lockstep F.Keeps (do
        let cleaned ← Grammar.optionalClause node .finally_ Grammar.finallyClause
        if caught || cleaned then closeNode node
        else reject [.token (.keyword .catch_), .token (.keyword .finally_)]) (fun _ _ => True)
          (fun v v' => v.Then F.Honest fun _ => F.Keeps .try_ v') o := by
      refine .bind (.peek fun y => ?_)
      split
      · refine .framed (.expect (fun _ => ?_) (.openNode fun clause => .child (by simp) ?_
          (.closeNode (.attach (.pure ?_)))))
        · simp +contextual
        · simp +contextual
        · cases caught <;> exact .closeNode trivial
      · cases caught
        · exact .pure .reject
        · exact .pure (.closeNode trivial)
    refine .bind (.peek fun y => ?_)
    split
    · refine .framed (.expect (fun _ => by simp +contextual) (.expect (fun _ => by simp +contextual)
        (.identifier (fun _ _ => by simp +contextual) fun name =>
          .expect (fun _ => by simp +contextual) (.openNode fun clause => .child (by simp) ?_
            (.closeNode (.attach (.pure (hfinally true _))))))))
      refine (returns_iff (by simp) (by simp)).mpr fun hnewline hbrace _ _ => ?_
      refine rests_closeNode.mpr (rests_closeNode.mpr (joins_passes.mpr ?_))
      refine Passes.meets (a := true) (fun x => by simp) (joins_passes.mpr ?_)
      refine (passes_finally node).meets ?_
      exact ⟨hnewline, hbrace⟩
    · exact .pure (hfinally false _)

/-! ## Branchings -/

theorem branching {keyword : Keyword} {kind : NodeKind} {form : BranchForm} :
    F.Lockstep F.Keeps (Grammar.branching keyword kind form) (fun _ _ => True)
      (fun v v' => v.Then F.Honest fun _ => F.Keeps rule v') o := by
  have harms (node : NodeId) : Insists (do
      let _ ← enter (.arms form node)
      closeNode node) [.token (.mark .leftBrace)] := .bind (.enter (.arms form node) (by simp))
  exact .expect (fun _ => (Insists.openNode harms).meets lenient_then) (.openNode fun _ =>
    .enter_bind (by simp) (by simp +contextual) fun _ => .closeNode trivial)

theorem fits_case : F.Fits .case_ := branching

theorem fits_match : F.Fits .match_ := branching

/-- An arm, or the last one if there has been one before. -/
def armRound (form : BranchForm) (parent : NodeId) (seen : Bool) : Reading (Round Bool Unit) := do
  skipNewlines
  match ← peek with
  | .keyword .when_ =>
    child parent (.when_ form)
    return .again true
  | .keyword .otherwise =>
    if seen then
      child parent (.otherwise form)
      return .stop ()
    else reject [.token (.keyword .when_)]
  | _ =>
    if seen then reject [.token (.keyword .when_), .token (.keyword .otherwise)]
    else reject [.token (.keyword .when_)]

theorem insists_armRound (form : BranchForm) (parent : NodeId) (seen : Bool) :
    Insists (armRound form parent seen)
      (if seen then [.token (.keyword .when_), .token (.keyword .otherwise)]
      else [.token (.keyword .when_)]) := by
  refine .skipNewlines (.peek _ fun x => ?_)
  cases seen <;> split <;> simp_all [Rule.starts, Rule.asks]

theorem fits_arms (form : BranchForm) (parent : NodeId) : F.Fits (.arms form parent) := by
  refine .expect (fun _ => ?_) (.repeating (fun seen => .skipNewlines (fun _ hours htheirs => ?_)
    (.peek fun y => ?_)) fun _ => .skipNewlines (fun _ _ _ => by simp +contextual)
      (.expect (fun hbefore => by simp [hbefore]) (.pure trivial)))
  · exact (Insists.bind (.repeating (insists_armRound form parent false))).meets lenient_then
  · exact (insists_armRound form parent seen).skipped hours htheirs (by simp)
  · split
    · refine .child (by simp) ((returns_iff (by simp) (by simp)).mpr fun _ _ _ _ => ?_)
        (.pure trivial)
      exact Insists.again (insists_armRound form parent true) (by simp)
    · split
      · exact .child (by simp) (by simp +contextual) (.pure trivial)
      · exact .reject
    · split <;> exact .reject

theorem fits_when (form : BranchForm) : F.Fits (.when_ form) := by
  refine .expect (fun _ => by simp +contextual) (.openNode fun node => .child (by simp) ?_ ?_)
  · cases form <;> simp +contextual
  · cases form with
    | blocks => exact .child (by simp) (by simp +contextual) (.closeNode trivial)
    | values =>
      exact .skipNewlines (fun _ _ _ => by simp +contextual) (.expect (fun _ => by simp +contextual)
        (.skipNewlines (fun _ _ _ => by simp +contextual) (.child (by simp) (by simp +contextual)
          (.closeNode trivial))))

theorem fits_otherwise (form : BranchForm) : F.Fits (.otherwise form) := by
  refine .expect (fun _ => ?_) (.openNode fun node => ?_)
  · cases form <;> simp +contextual
  · cases form with
    | blocks => exact .child (by simp) (by simp +contextual) (.closeNode trivial)
    | values =>
      exact .skipNewlines (fun _ _ _ => by simp +contextual) (.child (by simp) (by simp +contextual)
        (.closeNode trivial))

/-! ## Expressions -/

/-- An operator and its right operand, if there is one that binds tightly enough. -/
def operatorRound (minPrecedence : Nat) (left : NodeId) : Reading (Round NodeId NodeId) := do
  match BinaryOperator.ofToken? (← peek) with
  | none => return .stop left
  | some op =>
    if op.precedence < minPrecedence then return .stop left
    else
      advance
      skipNewlines
      let right ← enter (.expression (op.precedence + 1))
      let node ← openNode (.binary op)
      attach node left
      attach node right
      return .again (← closeNode node)

theorem passes_operatorRound (minPrecedence : Nat) (left : NodeId) :
    Passes (operatorRound minPrecedence left) (.stop left) := by
  intro x
  simp only [operatorRound, rests_bind, rests_peek, then_passes]
  split
  · simp
  · next op hop =>
    have hend : x.kind ≠ .endOfInput := by
      intro hend
      simp [hend, BinaryOperator.ofToken?] at hop
    split <;> simp [hend]

/-- Where nothing follows, what has been read so far is the construct. -/
theorem joins_again {round : NodeId → Reading (Round NodeId NodeId)} {id id' : NodeId}
    (hround : ∀ id, Passes (round id) (.stop id)) (hkeeps : F.Keeps rule (.passes id')) :
    F.Joins (.passes (Round.again id)) (.passes (Round.again id'))
      (fun r => r.onward round Reading.done) fun v v' => v.Then F.Honest fun _ => F.Keeps rule v' :=
  Passes.joins (.repeating (hround id)) (.repeating (hround id')) hkeeps

theorem fits_expression (minPrecedence : Nat) : F.Fits (.expression minPrecedence) := by
  refine .enter_bind (by simp) ?_ fun first => .repeating_end (fun left => .peek fun y => ?_)
    fun _ => trivial
  · refine (returns_iff (by simp) (by simp)).mpr fun hnewline hbrace _ _ => ?_
    exact joins_passes.mp (joins_again (passes_operatorRound minPrecedence) ⟨hnewline, hbrace⟩)
  · split
    · exact .pure trivial
    · split
      · exact .pure trivial
      · refine .advance (fun _ => by simp +contextual) (.skipNewlines
          (fun _ _ _ => by simp +contextual) (.enter_bind (by simp) ?_ fun right =>
            .openNode fun node => .attach (.attach (.closeNode_bind (.pure trivial)))))
        refine (returns_iff (by simp) (by simp)).mpr fun hnewline hbrace _ _ => ?_
        simp only [rests_bind, rests_openNode, rests_attach, rests_closeNode, rests_pure,
          then_passes]
        exact fun node node' => joins_again (passes_operatorRound minPrecedence) ⟨hnewline, hbrace⟩

theorem fits_unary : F.Fits .unary := by
  refine .peek fun y => ?_
  split
  · exact .enter (by simp) (by simp +contextual) fun _ => trivial
  · exact .advance (fun _ => by simp +contextual) (.openNode fun node => .child (by simp)
      (by simp +contextual) (.closeNode trivial))

/-- A call on what has been read so far, if there is one. -/
def callRound (receiver : NodeId) : Reading (Round NodeId NodeId) := do
  match ← peek with
  | .mark .colon =>
    advance
    let name ← identifier .method
    return .again (← Grammar.callOn receiver (.methodInvocation name))
  | .mark .leftParen => return .again (← Grammar.callOn receiver .anonymousCall)
  | _ => return .stop receiver

theorem passes_callRound (receiver : NodeId) : Passes (callRound receiver) (.stop receiver) := by
  intro x
  simp only [callRound, rests_bind, rests_peek, then_passes]
  split
  · next hcolon => simp [hcolon]
  · next hparen => simp [hparen, Grammar.callOn, Rule.starts, Rule.asks]
  · simp

theorem insists_callOn (receiver : NodeId) (kind : NodeKind) :
    Insists (Grammar.callOn receiver kind) [.token (.mark .leftParen)] :=
  .openNode fun node => .attach (.bind (.enter (.arguments node) (by simp)))

theorem callOn {receiver : NodeId} {kind : NodeKind} : F.Lockstep F.Keeps (do
      return Round.again (← Grammar.callOn receiver kind)) (fun _ _ => True)
    (fun v v' => F.Joins v v' (·.onward callRound .done) fun v v' =>
      v.Then F.Honest fun _ => F.Keeps .chain v') o := by
  refine .bind (.openNode fun node => .attach (.enter_bind (by simp) ?_ fun _ =>
    .closeNode (.pure trivial)))
  refine (returns_iff (by simp) (by simp)).mpr fun hnewline hbrace _ _ => ?_
  refine rests_closeNode.mpr (rests_closeNode.mpr (joins_passes.mpr ?_))
  exact (rests_pure _).mpr ((rests_pure _).mpr (joins_again passes_callRound ⟨hnewline, hbrace⟩))

theorem fits_chain : F.Fits .chain := by
  refine .enter_bind (by simp) ?_ fun first => .repeating_end (fun left => .peek fun y => ?_)
    fun _ => trivial
  · refine (returns_iff (by simp) (by simp)).mpr fun hnewline hbrace _ _ => ?_
    exact joins_passes.mp (joins_again passes_callRound ⟨hnewline, hbrace⟩)
  · split
    · refine .advance (fun _ => ?_) (.identifier (fun _ _ => ?_) fun name => callOn)
      · simp +contextual
      · exact Insists.meets (.bind (insists_callOn _ _)) (by simp)
    · exact callOn
    · exact .pure trivial

/-- What may stand behind an argument. -/
def argumentEnd : Reading (Round Unit Unit) := do
  skipNewlines
  match ← peek with
  | .mark .comma =>
    advance
    skipNewlines
    return .again ()
  | .mark .rightParen =>
    advance
    return .stop ()
  | _ => reject [.token (.mark .comma), .token (.mark .rightParen)]

theorem insists_argumentEnd :
    Insists argumentEnd [.token (.mark .comma), .token (.mark .rightParen)] := by
  refine .skipNewlines (.peek _ fun x => ?_)
  split <;> simp_all

theorem fits_arguments (call : NodeId) : F.Fits (.arguments call) := by
  have hargument {m : Reading (Round Unit Unit)} :
      Insists (child call (.expression 0) >>= fun _ => m) [.expression] :=
    .bind (.child _ (by simp))
  have hfirst : Insists (accept (.mark .rightParen) >>= fun closed => do
      if closed then return call
      else
        repeatUntil (child call (.expression 0) >>= fun _ => argumentEnd)
        return call) [.expression, .token (.mark .rightParen)] := by
    intro x
    rw [rests_bind]
    refine rests_accept_mark.mpr fun hparen =>
      (rests_bind _ _).mpr ((Insists.repeating hargument x).imp ?_)
    rintro _ ⟨expected, rfl, hsubset, hnone⟩
    exact ⟨expected, rfl, List.Subset.trans hsubset (by simp), by simpa [hparen] using hnone⟩
  refine .expect (fun _ => hfirst.skipNewlines.meets lenient_then) (.skipNewlines
    (fun _ _ _ => hfirst.meets lenient_then) (.accept (fun hbefore => by simp [hbefore])
      (.pure trivial) fun y hy => .repeating (fun _ => .child (by simp) ?_
        (.skipNewlines (fun _ hours htheirs => ?_) (.peek fun y => ?_))) fun _ => .pure trivial))
  · exact (returns_iff (by simp) (by simp)).mpr fun _ _ _ _ => insists_argumentEnd.meets (by simp)
  · exact insists_argumentEnd.skipped hours htheirs (by simp)
  · split
    · refine .advance (fun _ => ?_) (.skipNewlines
        (fun _ _ _ => Insists.again hargument (by simp)) (.pure trivial))
      exact meets_joins.mpr (Insists.meets (.skipNewlines (.onward hargument)) (by simp))
    · exact .advance (fun _ => by simp_all) (.pure trivial)
    · exact .reject

theorem literalText {value : String → Reading NodeId} {here : NodeId → Option Lexeme → Prop}
    {there : Verdict NodeId → Verdict NodeId → Prop} {y : Lexeme}
    (h : ∀ text, F.Lockstep F.Keeps (value text) here there (some y)) :
    F.Lockstep F.Keeps (Grammar.literalText y value) here there (some y) := by
  rw [Grammar.literalText]
  split
  · exact h _
  · exact .refuseLiteral

theorem literalToken {value : Literal} {y : Lexeme} (hnewline : y.kind ≠ .newline)
    (hbrace : y.kind ≠ .mark .leftBrace) :
    F.Lockstep F.Keeps (Grammar.literalToken value) (fun _ _ => True)
      (fun v v' => v.Then F.Honest fun _ => F.Keeps .primary v') (some y) :=
  .advance (fun hbefore => by simp [hbefore, hnewline, hbrace]) (.leaf fun _ => trivial)

theorem fits_primary : F.Fits .primary := by
  refine .look fun y => ?_
  rw [Grammar.primaryOf]
  split
  case h_1 kind hkind =>
    refine literalText fun text => ?_
    split
    · exact literalToken (by simp [hkind]) (by simp [hkind])
    · exact .refuseLiteral
  case h_2 kind hkind =>
    exact literalText fun text => literalToken (by simp [hkind]) (by simp [hkind])
  case h_3 hkind =>
    exact literalText fun text => literalToken (by simp [hkind]) (by simp [hkind])
  case h_4 hkind | h_5 hkind | h_6 hkind => exact literalToken (by simp [hkind]) (by simp [hkind])
  case h_7 =>
    exact .advance (fun _ => by simp +contextual) (.skipNewlines (fun _ _ _ => by simp +contextual)
      (.enter_bind (by simp) (by simp +contextual) fun inner => .skipNewlines
        (fun _ _ _ => by simp +contextual) (.expect (fun hbefore => by simp [hbefore])
          (.pure trivial))))
  case h_8 | h_9 | h_11 | h_12 => exact .enter (by simp) (by simp +contextual) fun _ => trivial
  case h_10 =>
    exact .advance (fun _ => by simp +contextual [qualifiedName]) (.qualifiedName lenient_then
      (fun hbefore _ => by simp [hbefore]) fun _ _ => .leaf fun _ => trivial)
  case h_13 hkind =>
    split
    · refine .peekBehind (foresees_ite fun hy x hx hbracket => ?_) fun kind => ?_
      · exact strides_advance.mpr ⟨by simp [hkind], by simp [hbracket, Rule.starts, Rule.asks]⟩
      · split
        · exact .advance (fun _ => by simp +contextual) (.enter (by simp) (by simp +contextual)
            fun _ => trivial)
        · exact .enter (by simp) (by simp +contextual) fun _ => trivial
    · exact .enter (by simp) (by simp +contextual) fun _ => trivial
  case h_14 => exact .reject

theorem fits_named : F.Fits .named := by
  refine .qualifiedName lenient_then (fun hbefore name => ?_) fun name o => .peek fun y => ?_
  · simp only [meets_iff, rests_bind, rests_peek, then_passes]
    split
    · next hours => simp [hours, Rule.starts, Rule.asks]
    · by_cases htheirs : F.theirs.kind = .mark .leftParen
      · intro v _
        simp [htheirs, Rule.starts, Rule.asks]
      · rw [if_neg htheirs]
        split
        · simp [hbefore]
        · split <;> simp [hbefore, htheirs]
  · split
    · exact .openNode fun node => .enter_bind (by simp) (by simp +contextual) fun _ =>
        .closeNode trivial
    · split
      · exact .intern (.leaf fun _ => trivial)
      · split
        · exact .reject
        · exact .leaf fun _ => trivial

/-- What may stand behind an element of a collection. -/
def elementEnd : Reading (Round Unit Unit) := do
  skipNewlines
  match ← peek with
  | .mark .comma =>
    advance
    return .again ()
  | .mark .rightBracket =>
    advance
    return .stop ()
  | _ => reject [.token (.mark .comma), .token (.mark .rightBracket)]

theorem insists_elementEnd :
    Insists elementEnd [.token (.mark .comma), .token (.mark .rightBracket)] := by
  refine .skipNewlines (.peek _ fun x => ?_)
  split <;> simp_all

/-- An element, or the end of a collection. -/
def elementRound (node : NodeId) : Reading (Round Unit Unit) := do
  skipNewlines
  if ← accept (.mark .rightBracket) then return .stop ()
  else
    child node (.expression 0)
    elementEnd

theorem insists_elementRound (node : NodeId) :
    Insists (elementRound node) [.expression, .token (.mark .rightBracket)] := by
  refine .skipNewlines fun x => ?_
  rw [rests_bind]
  refine rests_accept_mark.mpr fun hbracket =>
    (rests_bind _ _).mpr ((Insists.child _ (by simp) x).imp ?_)
  rintro _ ⟨expected, rfl, hsubset, hnone⟩
  exact ⟨expected, rfl, List.Subset.trans hsubset (by simp [Rule.asks]),
    by simpa [hbracket, Rule.asks] using hnone⟩

theorem fits_collection (type : CollectionKind) : F.Fits (.collection type) := by
  refine .expect (fun _ => ?_) (.openNode fun node => .repeating (fun _ => .skipNewlines
    (fun _ hours htheirs => ?_) (.accept (fun hbefore => by simp [hbefore]) (.pure trivial)
      fun y _ => .child (by simp) ?_ (.skipNewlines (fun _ hours htheirs => ?_)
        (.peek fun y => ?_)))) fun _ => .closeNode trivial)
  · exact (Insists.openNode fun node => .bind (.repeating (insists_elementRound node))).meets
      lenient_then
  · exact (insists_elementRound node).skipped hours htheirs (by simp)
  · exact (returns_iff (by simp) (by simp)).mpr fun _ _ _ _ => insists_elementEnd.meets (by simp)
  · exact insists_elementEnd.skipped hours htheirs (by simp)
  · split
    · exact .advance (fun _ => Insists.again (insists_elementRound node) (by simp)) (.pure trivial)
    · exact .advance (fun _ => by simp_all) (.pure trivial)
    · exact .reject

theorem fits (hrule : rule ≠ .compilationUnit) : F.Fits rule := by
  cases rule with
  | compilationUnit => exact absurd rfl hrule
  | moduleDeclaration => exact fits_moduleDeclaration
  | importDeclaration => exact fits_importDeclaration
  | functionDeclaration => exact fits_functionDeclaration
  | function => exact fits_function
  | augmentation => exact fits_augmentation
  | struct => exact fits_struct
  | block => exact fits_block
  | statement => exact fits_statement
  | letOrVar => exact fits_letOrVar
  | assignment => exact fits_assignment
  | return_ => exact fits_return
  | throw => exact fits_throw
  | if_ => exact fits_if
  | while_ => exact fits_while
  | for_ => exact fits_for
  | forEach => exact fits_forEach
  | try_ => exact fits_try
  | case_ => exact fits_case
  | match_ => exact fits_match
  | arms form parent => exact fits_arms form parent
  | when_ form => exact fits_when form
  | otherwise form => exact fits_otherwise form
  | expression minPrecedence => exact fits_expression minPrecedence
  | unary => exact fits_unary
  | chain => exact fits_chain
  | arguments call => exact fits_arguments call
  | primary => exact fits_primary
  | named => exact fits_named
  | collection type => exact fits_collection type

end Parting

end Reading

end GoloSyntax
