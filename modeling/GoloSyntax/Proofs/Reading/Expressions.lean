import GoloSyntax.Proofs.Reading.Declarations

/-! # Judging expressions

Every rule for expressions reads its phrase, provided that the rules it calls do.

Operators and calls are read in a loop that puts what stands on the left under one new
node after the other, where the table has a phrase that begins with itself.
`steps_of_left` turns the one into the other.
-/
namespace GoloSyntax.Reading

variable {F : Site} {P : Reader → Prop} {p : Position} {T : Growth} {n : Nat}

/-- What begins with itself, as first something else and then steps that each put what is
there on the left of a new node. -/
theorem steps_of_left (left base : Reader → Construct → Prop)
    (step : Construct → Reader → Reader → Construct → Prop)
    (hleft : ∀ r x, left r x ↔ base r x ∨ ∃ y s, left s y ∧ step y s r x)
    (hpart : ∀ y s r x, step y s r x → y ∈ x.parts) (r : Reader) (x : Construct) :
    left r x ↔ ∃ y s, base s y ∧
      Relation.ReflTransGen (fun a b => step a.1 a.2 b.2 b.1) (y, s) (x, r) := by
  constructor
  · intro h
    induction x using Construct.byParts generalizing r with
    | step kind span parts ih =>
      rcases (hleft _ _).mp h with hbase | ⟨y, s, hy, hstep⟩
      · exact ⟨_, r, hbase, .refl⟩
      · obtain ⟨z, s₀, hz, hsteps⟩ := ih y (hpart _ _ _ _ hstep) s hy
        exact ⟨z, s₀, hz, hsteps.tail hstep⟩
  · rintro ⟨y, s, hy, hsteps⟩
    suffices h : ∀ b, Relation.ReflTransGen (fun a b => step a.1 a.2 b.2 b.1) (y, s) b →
        left b.2 b.1 from h _ hsteps
    intro b hsteps
    induction hsteps with
    | refl => exact (hleft _ _).mpr (.inl hy)
    | tail _ hstep ih => exact (hleft _ _).mpr (.inr ⟨_, _, ih, hstep⟩)

/-! ## Operators -/

/-- An operator comes next that binds at least so tightly, and behind it its right
operand; `y` becomes the left one. -/
def OperatorStep (n minPrecedence : Nat) (p : Position) (y : Construct) (s r : Reader)
    (x : Construct) : Prop :=
  ∃ op right, BinaryOperator.ofToken? s.kind = some op ∧ minPrecedence ≤ op.precedence ∧
    Reads .byText n [.part (.expression (op.precedence + 1))] s.advance.skipNewlines r [right] ∧
    x = .mk (.binary op) ⟨p, r.lastEnd⟩ [y, right]

theorem ofToken?_ne_endOfInput {k : TokenKind} {op : BinaryOperator}
    (h : BinaryOperator.ofToken? k = some op) : k ≠ .endOfInput := by
  rintro rfl
  cases h

theorem reads_operands_iff {minPrecedence : Nat} {s r : Reader} {x : Construct} :
    Reads .byText n [.part (.operands minPrecedence)] s r [x] ↔
      Reads .byText n [.part .unary] s r [x] ∨ ∃ y s₁,
        Reads .byText n [.part (.operands minPrecedence)] s s₁ [y] ∧
          OperatorStep n minPrecedence s.start y s₁ r x := by
  rw [reads_phrase_iff]
  constructor
  · rintro ⟨m, body, kind, zs, alt, hm, -, hzs, h⟩
    obtain rfl : m = n := hm
    cases alt with
    | operandsFirst =>
      obtain rfl : [x] = zs := h
      exact .inl hzs
    | operandsMore hop hmin =>
      obtain ⟨s₁, xs, ys, hxs, hys, rfl⟩ := reads_part_append.mp hzs
      obtain ⟨-, hk, hys⟩ := reads_token_iff.mp hys
      obtain ⟨y, rfl⟩ := hxs.exists_single rfl
      obtain ⟨z, rfl⟩ := (reads_newlines_iff.mp hys).exists_single rfl
      refine .inr ⟨y, s₁, hxs, _, z, by rw [hk]; exact hop, hmin, reads_newlines_iff.mp hys, ?_⟩
      exact List.singleton_inj.mp h
  · rintro (h | ⟨y, s₁, hy, op, z, hop, hmin, hz, rfl⟩)
    · exact ⟨n, _, none, [x], .operandsFirst _, rfl, trivial, h, rfl⟩
    · exact ⟨n, _, _, _, .operandsMore hop hmin, rfl, trivial, reads_part_append.mpr
        ⟨s₁, [y], [z], hy, .token (ofToken?_ne_endOfInput hop) rfl (.newlines hz), rfl⟩, rfl⟩

/-- What one round of reading operators does to what stands on the left. -/
def OperatorRound (n minPrecedence : Nat) (p : Position) (y : Construct) (s r : Reader)
    (b : Round Construct Construct) : Prop :=
  (¬ s.ContinuesOperands minPrecedence ∧ r = s ∧ b = .stop y) ∨
    ∃ x, OperatorStep n minPrecedence p y s r x ∧ b = .again x

theorem judged_operator (hF : F.Calls n) (minPrecedence : Nat) (left : NodeId) (y : Construct) :
    Judged F P p (do
      match BinaryOperator.ofToken? (← peek) with
      | none => return .stop left
      | some op =>
        if op.precedence < minPrecedence then return .stop left
        else
          advance
          skipNewlines
          let right ← enter (.expression (op.precedence + 1))
          let node ← openNode (.binary op)
          attach node left
          attach node right
          return .again (← closeNode node)) (.round left y) (OperatorRound n minPrecedence p y) := by
  have hstop : ∀ {k : TokenKind}, (∀ op, BinaryOperator.ofToken? k = some op →
      op.precedence < minPrecedence) → Judged F (fun s => P s ∧ s.kind = k) p
        (pure (.stop left)) (.round left y) (OperatorRound n minPrecedence p y) := by
    intro k hk
    refine Judged.stop.congr fun s r b hs => ?_
    have hnone : ¬ s.ContinuesOperands minPrecedence := by
      rintro ⟨op, hop, hmin⟩
      have := hk op (by rw [← hs.2]; exact hop)
      omega
    constructor
    · rintro ⟨rfl, rfl⟩
      exact .inl ⟨hnone, rfl, rfl⟩
    · rintro (⟨-, rfl, rfl⟩ | ⟨x, ⟨op, _, hop, hmin, -⟩, -⟩)
      · exact ⟨rfl, rfl⟩
      · exact absurd ⟨op, hop, hmin⟩ hnone
  refine .peek fun k => ?_
  split
  · next hop => exact hstop fun op h => by simp [hop] at h
  · next op hop =>
    split
    · next hlt => exact hstop fun op' h => by rw [hop] at h; cases h; exact hlt
    · next hle =>
      refine (Fills.advance.round fun _ => Fills.skipNewlines.round fun _ =>
        Gives.join (hF.gives rfl)).congr fun s r b hs => ?_
      constructor
      · rintro ⟨_, _, ⟨rfl, -, -⟩, _, _, ⟨rfl, -, -⟩, x, hx, rfl⟩
        exact .inr ⟨_, ⟨op, x, by rw [hs.2]; exact hop, by omega, hx, rfl⟩, rfl⟩
      · rintro (⟨hnone, -⟩ | ⟨_, ⟨op', x, hop', -, hx, rfl⟩, rfl⟩)
        · exact absurd ⟨op, by rw [hs.2]; exact hop, by omega⟩ hnone
        · rw [hs.2, hop] at hop'
          cases hop'
          exact ⟨(), _, ⟨rfl, rfl, rfl⟩, (), _, ⟨rfl, rfl, rfl⟩, x, hx, rfl⟩

theorem gives_expression (hF : F.Calls n) (minPrecedence : Nat) :
    Gives F (fun s => s.start = p) p (Grammar.expression minPrecedence) fun s r x =>
      Reads .byText (n + 1) [.part (.expression minPrecedence)] s r [x] := by
  have hloop := Gives.repeating (P := fun s => s.start = p)
    (hF.gives (p := p) (show Rule.unary.phrase? = some .unary from rfl))
    (fun left y => judged_operator hF minPrecedence left y) ?_
  · refine hloop.congr fun s r x hs => ?_
    rw [reads_phrase_iff, ← steps_of_left
      (fun r x => Reads .byText n [.part (.operands minPrecedence)] s r [x])
      (fun r x => Reads .byText n [.part .unary] s r [x]) (OperatorStep n minPrecedence p)
      (fun r x => by rw [reads_operands_iff, hs])
      (by rintro y s r x ⟨op, z, -, -, -, rfl⟩; simp)]
    constructor
    · rintro ⟨hdone, hx⟩
      exact ⟨n, _, none, [x], .expression minPrecedence, rfl, hdone, hx, rfl⟩
    · rintro ⟨m, body, kind, zs, alt, hm, hsettles, hzs, h⟩
      obtain rfl := Nat.succ.inj hm
      cases alt with
      | expression =>
        obtain rfl : [x] = zs := h
        exact ⟨hsettles, hzs⟩
  · rintro y s r _ ⟨op, z, hop, -, hz, rfl⟩
    have h₁ := hz.length_le.2 rfl
    have h₂ := s.advance.length_skipNewlines_le
    have h₃ := s.length_advance_le
    simp only [Construct.count, Construct.countAll]
    omega

theorem beginsPrimary_of_unary {k : TokenKind} {op : UnaryOperator}
    (h : UnaryOperator.ofToken? k = some op) : k.beginsPrimary = false ∧ k ≠ .endOfInput := by
  unfold UnaryOperator.ofToken? at h
  split at h <;> simp_all [TokenKind.beginsPrimary, TokenKind.isLiteral]

theorem gives_unary (hF : F.Calls n) :
    Gives F (fun s => s.start = p) p Grammar.unary fun s r x =>
      Reads .byText (n + 1) [.part .unary] s r [x] := by
  refine .peek fun k => ?_
  split
  · next hop =>
    refine Gives.pass hF rfl rfl .unaryChain (fun _ _ _ => trivial) ?_
    intro s r body kind xs hs alt _ hxs
    cases alt with
    | unaryChain => exact ⟨rfl, rfl⟩
    | unary hop' =>
      obtain ⟨-, hk, -⟩ := reads_token_iff.mp hxs
      rw [← hk, hs.2, hop] at hop'
      cases hop'
  · next op hop =>
    obtain ⟨hprimary, hend⟩ := beginsPrimary_of_unary hop
    have hm : Makes F (fun s => s.start = p ∧ s.kind = k) p n (advance >>= fun _ =>
        openNode (.unary op) >>= fun node =>
        child node (.expression UnaryOperator.precedence) >>= fun _ => closeNode node)
        (fun _ : Unit => [.token k, .part (.expression UnaryOperator.precedence)])
        (fun _ => .unary op) :=
      .advance hend (fun s hs => hs.2) <| .openNode fun node => .child hF rfl .closeNode
    refine hm.phrase rfl (fun _ h => h.1) (fun _ _ _ _ _ => ⟨.unary hop, trivial⟩) ?_
    intro s r body kind xs hs alt _ hxs
    cases alt with
    | unaryChain =>
      have := hxs.begins
      simp [Item.begins, Phrase.begins, hs.2, hprimary] at this
    | unary hop' =>
      obtain ⟨-, hk, -⟩ := reads_token_iff.mp hxs
      rw [← hk, hs.2, hop] at hop'
      cases hop'
      rw [← hk, hs.2]
      exact ⟨(), rfl, rfl, trivial⟩

/-! ## Arguments and elements -/

theorem reads_argumentList_iff {s r : Reader} {zs : List Construct} :
    Reads .byText n [.part .argumentList] s r zs ↔
      SeparatedParts n (.expression 0) .rightParen [.newlines, .part .argumentList] s r zs := by
  rw [reads_phrase_iff, separatedParts_iff]
  constructor
  · rintro ⟨m, body, kind, zs, alt, hm, -, hzs, rfl⟩
    obtain rfl : m = n := hm
    cases alt with
    | argumentsLast => exact .inl hzs
    | argumentsMore => exact .inr hzs
  · rintro (h | h)
    · exact ⟨n, _, none, zs, .argumentsLast, rfl, trivial, h, rfl⟩
    · exact ⟨n, _, none, zs, .argumentsMore, rfl, trivial, h, rfl⟩

/-- What comes behind an argument. -/
theorem fills_argumentEnd : Fills F P p T (do
    match ← peek with
    | .mark .comma =>
      advance
      skipNewlines
      return .again ()
    | .mark .rightParen =>
      advance
      return .stop ()
    | _ => reject [.token (.mark .comma), .token (.mark .rightParen)]) fun s r b xs =>
    xs = [] ∧ Separated .rightParen Reader.skipNewlines s r b := by
  refine .separator (by simp) ?_ rfl ?_
  · refine (Fills.advance.bind fun _ => Fills.skipNewlines.bind fun _ =>
      Fills.done (Round.again ())).congr fun s r b xs _ => ?_
    simp
    tauto
  · intro k hcomma hparen
    split
    · exact absurd rfl hcomma
    · exact absurd rfl hparen
    · exact ⟨_, rfl⟩

theorem fills_argumentList (hF : F.Calls n) {call : NodeId} :
    Fills F P p (.under call) (repeatUntil do
      child call (.expression 0)
      skipNewlines
      match ← peek with
      | .mark .comma =>
        advance
        skipNewlines
        return .again ()
      | .mark .rightParen =>
        advance
        return .stop ()
      | _ => reject [.token (.mark .comma), .token (.mark .rightParen)]) fun s r _ xs =>
      Reads .byText n [.part .argumentList] s r xs := by
  refine .separatedParts False id Reader.skipNewlines
    (((Fills.child hF rfl).bind fun _ => Fills.skipNewlines.bind fun _ =>
      fills_argumentEnd).congr fun s r b xs _ => ?_)
    (fun _ _ _ => by simpa using reads_argumentList_iff) (fun _ _ _ => reads_newlines_iff) rfl
    (fun _ => Nat.le_refl _) Reader.length_skipNewlines_le
  constructor
  · rintro ⟨_, s₁, ys, _, hys, ⟨_, _, _, _, ⟨rfl, -, rfl⟩, ⟨rfl, hsep⟩, rfl⟩, rfl⟩
    exact .inr ⟨s₁, by simpa using hys, hsep⟩
  · rintro (⟨h, -⟩ | ⟨s₁, hxs, hsep⟩)
    · cases h
    · exact ⟨(), s₁, xs, [], hxs, ⟨(), _, [], [], ⟨rfl, rfl, rfl⟩, ⟨rfl, hsep⟩, rfl⟩, by simp⟩

theorem reads_arguments_iff {s r : Reader} {xs : List Construct} :
    Reads .byText (n + 1) [.part .arguments] s r xs ↔ s.kind = .mark .leftParen ∧
      ((s.advance.skipNewlines.kind = .mark .rightParen ∧ r = s.advance.skipNewlines.advance ∧
        xs = []) ∨ Reads .byText n [.part .argumentList] s.advance.skipNewlines r xs) := by
  rw [reads_phrase_iff]
  constructor
  · rintro ⟨m, body, kind, xs, alt, hm, -, hxs, rfl⟩
    obtain rfl := Nat.succ.inj hm
    cases alt with
    | argumentsNone =>
      obtain ⟨-, hk, hxs⟩ := reads_token_iff.mp hxs
      obtain ⟨-, hk', hxs⟩ := reads_token_iff.mp (reads_newlines_iff.mp hxs)
      obtain ⟨rfl, rfl⟩ := reads_nil_iff.mp hxs
      exact ⟨hk, .inl ⟨hk', rfl, rfl⟩⟩
    | arguments =>
      obtain ⟨-, hk, hxs⟩ := reads_token_iff.mp hxs
      exact ⟨hk, .inr (reads_newlines_iff.mp hxs)⟩
  · rintro ⟨hk, ⟨hk', rfl, rfl⟩ | h⟩
    · exact ⟨n, _, none, [], .argumentsNone, rfl, trivial,
        .token (by simp) hk (.newlines (.token (by simp) hk' .nil)), rfl⟩
    · exact ⟨n, _, none, xs, .arguments, rfl, trivial, .token (by simp) hk (.newlines h), rfl⟩

theorem fills_arguments (hF : F.Calls n) {call : NodeId} :
    Fills F P p (.under call) (Grammar.arguments call) fun s r id xs =>
      id = call ∧ Reads .byText (n + 1) [.part .arguments] s r xs := by
  have hlist : Fills F (fun _ => True) p (.under call) (accept (.mark .rightParen) >>= fun b =>
      if b then pure call else repeatUntil (do
        child call (.expression 0)
        skipNewlines
        match ← peek with
        | .mark .comma =>
          advance
          skipNewlines
          return .again ()
        | .mark .rightParen =>
          advance
          return .stop ()
        | _ => reject [.token (.mark .comma), .token (.mark .rightParen)]) >>= fun _ => pure call)
      fun s r id xs => id = call ∧ ((s.kind = .mark .rightParen ∧ r = s.advance ∧ xs = []) ∨
        Reads .byText n [.part .argumentList] s r xs) := by
    rw [accept_bind]
    refine .peek fun k => ?_
    split
    · next hk =>
      refine (Fills.advance.bind fun _ => Fills.done call).congr fun s r id xs hs => ?_
      constructor
      · rintro ⟨_, _, _, _, ⟨rfl, -, rfl⟩, ⟨rfl, rfl, rfl⟩, rfl⟩
        exact ⟨rfl, .inl ⟨hs.2.trans hk, rfl, rfl⟩⟩
      · rintro ⟨rfl, ⟨-, rfl, rfl⟩ | h⟩
        · exact ⟨(), _, [], [], ⟨rfl, rfl, rfl⟩, ⟨rfl, rfl, rfl⟩, rfl⟩
        · have := h.begins
          rw [hs.2, hk] at this
          cases this
    · next hk =>
      refine ((fills_argumentList hF).bind fun _ => Fills.done call).congr fun s r id xs hs => ?_
      constructor
      · rintro ⟨_, _, ys, _, hys, ⟨rfl, rfl, rfl⟩, rfl⟩
        exact ⟨rfl, .inr (by simpa using hys)⟩
      · rintro ⟨rfl, ⟨h, -⟩ | h⟩
        · exact absurd (hs.2.symm.trans h) hk
        · exact ⟨(), r, xs, [], h, ⟨rfl, rfl, rfl⟩, by simp⟩
  refine ((Fills.expect _).bind fun _ => Fills.skipNewlines.bind fun _ => hlist).congr
    fun s r id xs _ => ?_
  rw [reads_arguments_iff]
  constructor
  · rintro ⟨_, _, _, _, ⟨hk, rfl, -, rfl⟩, ⟨_, _, _, ys, ⟨rfl, -, rfl⟩, ⟨rfl, h⟩, rfl⟩, rfl⟩
    exact ⟨rfl, hk, h⟩
  · rintro ⟨rfl, hk, h⟩
    exact ⟨(), _, [], xs, ⟨hk, rfl, rfl, rfl⟩, ⟨(), _, [], xs, ⟨rfl, rfl, rfl⟩, ⟨rfl, h⟩, rfl⟩, rfl⟩

theorem reads_elements_iff {s r : Reader} {zs : List Construct} :
    Reads .byText n [.part .elements] s r zs ↔
      (s.skipNewlines.kind = .mark .rightBracket ∧ r = s.skipNewlines.advance ∧ zs = []) ∨
        SeparatedParts n (.expression 0) .rightBracket [.part .elements] s.skipNewlines r zs := by
  rw [reads_phrase_iff, separatedParts_iff]
  constructor
  · rintro ⟨m, body, kind, zs, alt, hm, -, hzs, rfl⟩
    obtain rfl : m = n := hm
    cases alt with
    | elementsEnd =>
      obtain ⟨-, hk, hnil⟩ := reads_token_iff.mp (reads_newlines_iff.mp hzs)
      obtain ⟨rfl, rfl⟩ := reads_nil_iff.mp hnil
      exact .inl ⟨hk, rfl, rfl⟩
    | elementsLast => exact .inr (.inl (reads_newlines_iff.mp hzs))
    | elementsMore => exact .inr (.inr (reads_newlines_iff.mp hzs))
  · rintro (⟨hk, rfl, rfl⟩ | h | h)
    · exact ⟨n, _, none, [], .elementsEnd, rfl, trivial, .newlines (.token (by simp) hk .nil), rfl⟩
    · exact ⟨n, _, none, zs, .elementsLast, rfl, trivial, .newlines h, rfl⟩
    · exact ⟨n, _, none, zs, .elementsMore, rfl, trivial, .newlines h, rfl⟩

/-- What comes behind an element. -/
theorem fills_elementEnd : Fills F P p T (do
    match ← peek with
    | .mark .comma =>
      advance
      return .again ()
    | .mark .rightBracket =>
      advance
      return .stop ()
    | _ => reject [.token (.mark .comma), .token (.mark .rightBracket)]) fun s r b xs =>
    xs = [] ∧ Separated .rightBracket id s r b := by
  refine .separator (by simp) ?_ rfl ?_
  · refine (Fills.advance.bind fun _ => Fills.done (Round.again ())).congr fun s r b xs _ => ?_
    simp
    tauto
  · intro k hcomma hbracket
    split
    · exact absurd rfl hcomma
    · exact absurd rfl hbracket
    · exact ⟨_, rfl⟩

/-- One element, or the closing bracket. -/
def ElementStep (n : Nat) (s r : Reader) (b : Round Unit Unit) (xs : List Construct) : Prop :=
  (s.kind = .mark .rightBracket ∧ b = .stop () ∧ r = s.advance ∧ xs = []) ∨
    ∃ s₁, Reads .byText n [.part (.expression 0)] s s₁ xs ∧
      Separated .rightBracket id s₁.skipNewlines r b

theorem fills_element (hF : F.Calls n) {node : NodeId} :
    Fills F P p (.under node) (do
      if ← accept (.mark .rightBracket) then return .stop ()
      else
        child node (.expression 0)
        skipNewlines
        match ← peek with
        | .mark .comma =>
          advance
          return .again ()
        | .mark .rightBracket =>
          advance
          return .stop ()
        | _ => reject [.token (.mark .comma), .token (.mark .rightBracket)]) (ElementStep n) := by
  rw [accept_bind]
  refine .peek fun k => ?_
  split
  · next hk =>
    refine (Fills.advance.bind fun _ => Fills.done (Round.stop ())).congr fun s r b xs hs => ?_
    constructor
    · rintro ⟨_, _, _, _, ⟨rfl, -, rfl⟩, ⟨rfl, rfl, rfl⟩, rfl⟩
      exact .inl ⟨hs.2.trans hk, rfl, rfl, rfl⟩
    · rintro (⟨-, rfl, rfl, rfl⟩ | ⟨s₁, hxs, -⟩)
      · exact ⟨(), _, [], [], ⟨rfl, rfl, rfl⟩, ⟨rfl, rfl, rfl⟩, rfl⟩
      · have := hxs.begins
        rw [hs.2, hk] at this
        cases this
  · next hk =>
    refine ((Fills.child hF rfl).bind fun _ => Fills.skipNewlines.bind fun _ =>
      fills_elementEnd).congr fun s r b xs hs => ?_
    constructor
    · rintro ⟨_, s₁, ys, _, hys, ⟨_, _, _, _, ⟨rfl, -, rfl⟩, ⟨rfl, hsep⟩, rfl⟩, rfl⟩
      exact .inr ⟨s₁, by simpa using hys, hsep⟩
    · rintro (⟨h, -⟩ | ⟨s₁, hxs, hsep⟩)
      · exact absurd (hs.2.symm.trans h) hk
      · exact ⟨(), s₁, xs, [], hxs, ⟨(), _, [], [], ⟨rfl, rfl, rfl⟩, ⟨rfl, hsep⟩, rfl⟩, by simp⟩

theorem fills_elements (hF : F.Calls n) {node : NodeId} :
    Fills F P p (.under node) (repeatUntil do
      skipNewlines
      if ← accept (.mark .rightBracket) then return .stop ()
      else
        child node (.expression 0)
        skipNewlines
        match ← peek with
        | .mark .comma =>
          advance
          return .again ()
        | .mark .rightBracket =>
          advance
          return .stop ()
        | _ => reject [.token (.mark .comma), .token (.mark .rightBracket)]) fun s r _ xs =>
      Reads .byText n [.part .elements] s r xs := by
  refine .separatedParts True Reader.skipNewlines id
    ((Fills.skipNewlines.bind fun _ => fills_element hF).congr
    fun s r b xs _ => ?_) (fun _ _ _ => by simpa using reads_elements_iff) (fun _ _ _ => .rfl) rfl
    Reader.length_skipNewlines_le fun _ => Nat.le_refl _
  constructor
  · rintro ⟨_, _, _, ys, ⟨rfl, -, rfl⟩, h, rfl⟩
    simpa [ElementStep] using h
  · intro h
    exact ⟨(), _, [], xs, ⟨rfl, rfl, rfl⟩, by simpa [ElementStep] using h, rfl⟩

theorem gives_collection (hF : F.Calls n) (type : CollectionKind) :
    Gives F P p (Grammar.collection type) fun s r x =>
      ∃ xs, Reads .byText (n + 1) [.part .collection] s r xs ∧
        x = .mk (.collection type) ⟨p, r.lastEnd⟩ xs := by
  have hm : Makes F P p n (Grammar.collection type)
      (fun _ : Unit => [.sign .leftBracket, .part .elements]) (fun _ => .collection type) :=
    .expect (by simp) <| .openNode fun node => .part (fills_elements hF)
      (fun _ _ _ => exists_const _) fun _ => .closeNode
  refine Judged.congr hm fun s r x _ => ⟨?_, ?_⟩
  · rintro ⟨_, -, xs, hxs, rfl⟩
    exact ⟨xs, reads_phrase_iff.mpr ⟨n, _, none, xs, .collection, rfl, trivial, hxs, rfl⟩, rfl⟩
  · rintro ⟨xs, hxs, rfl⟩
    obtain ⟨m, body, kind, ys, alt, hm, -, hys, rfl⟩ := reads_phrase_iff.mp hxs
    obtain rfl := Nat.succ.inj hm
    cases alt
    exact ⟨(), trivial, ys, hys, rfl⟩

/-! ## Calls -/

/-- A call comes next, of a method or of what stands on the left, which is `y`. -/
def CallStep (n : Nat) (p : Position) (y : Construct) (s r : Reader) (x : Construct) : Prop :=
  (∃ name xs, s.kind = .mark .colon ∧ s.advance.next = ⟨.identifier, some name⟩ ∧
    Reads .byText n [.part .arguments] s.advance.advance r xs ∧
    x = .mk (.methodInvocation name) ⟨p, r.lastEnd⟩ (y :: xs)) ∨
  ∃ xs, Reads .byText n [.part .arguments] s r xs ∧ x = .mk .anonymousCall ⟨p, r.lastEnd⟩ (y :: xs)

theorem reads_calls_iff {s r : Reader} {x : Construct} :
    Reads .byText n [.part .calls] s r [x] ↔ Reads .byText n [.part .primary] s r [x] ∨
      ∃ y s₁, Reads .byText n [.part .calls] s s₁ [y] ∧ CallStep n s.start y s₁ r x := by
  rw [reads_phrase_iff]
  constructor
  · rintro ⟨m, body, kind, zs, alt, hm, -, hzs, h⟩
    obtain rfl : m = n := hm
    cases alt with
    | callsFirst =>
      obtain rfl : [x] = zs := h
      exact .inl hzs
    | callsMethod name =>
      obtain ⟨s₁, xs, ys, hxs, hys, rfl⟩ := reads_part_append.mp hzs
      obtain ⟨-, hk, hys⟩ := reads_token_iff.mp hys
      obtain ⟨hnext, hys⟩ := reads_identifier_iff.mp hys
      obtain ⟨y, rfl⟩ := hxs.exists_single rfl
      exact .inr ⟨y, s₁, hxs, .inl ⟨name, ys, hk, hnext, hys, List.singleton_inj.mp h⟩⟩
    | callsAnonymous =>
      obtain ⟨s₁, xs, ys, hxs, hys, rfl⟩ := reads_part_append.mp hzs
      obtain ⟨y, rfl⟩ := hxs.exists_single rfl
      exact .inr ⟨y, s₁, hxs, .inr ⟨ys, hys, List.singleton_inj.mp h⟩⟩
  · rintro (h | ⟨y, s₁, hy, ⟨name, xs, hk, hnext, hxs, rfl⟩ | ⟨xs, hxs, rfl⟩⟩)
    · exact ⟨n, _, none, [x], .callsFirst, rfl, trivial, h, rfl⟩
    · exact ⟨n, _, _, _, .callsMethod name, rfl, trivial, reads_part_append.mpr
        ⟨s₁, [y], xs, hy, .token (by simp) hk (.identifier hnext hxs), rfl⟩, rfl⟩
    · exact ⟨n, _, _, _, .callsAnonymous, rfl, trivial, reads_part_append.mpr
        ⟨s₁, [y], xs, hy, hxs, rfl⟩, rfl⟩

/-- What one round of reading calls does to what stands on the left. -/
def CallRound (n : Nat) (p : Position) (y : Construct) (s r : Reader)
    (b : Round Construct Construct) : Prop :=
  (s.kind ≠ .mark .colon ∧ s.kind ≠ .mark .leftParen ∧ r = s ∧ b = .stop y) ∨
    ∃ x, CallStep n p y s r x ∧ b = .again x

theorem judged_callOn (hF : F.Calls n) (receiver : NodeId) (y : Construct) (kind : NodeKind) :
    Judged F P p (do return .again (← Grammar.callOn receiver kind)) (.round receiver y)
      fun s r b => ∃ xs, Reads .byText n [.part .arguments] s r xs ∧
        b = .again (.mk kind ⟨p, r.lastEnd⟩ (y :: xs)) := by
  have hnode : ∀ node, Ends F P p n node kind (do
      let _ ← enter (.arguments node)
      closeNode node) (fun _ : Unit => [.part .arguments]) (fun _ => kind) :=
    fun node => .arguments hF fun _ => .closeNode
  refine (Judged.again (Judged.openExtended hnode)).congr fun s r b _ => ?_
  constructor
  · rintro ⟨_, ⟨_, ⟨_, -, xs, hxs, rfl⟩, rfl⟩, rfl⟩
    exact ⟨xs, hxs, rfl⟩
  · rintro ⟨xs, hxs, rfl⟩
    exact ⟨_, ⟨_, ⟨(), trivial, xs, hxs, rfl⟩, rfl⟩, rfl⟩

theorem kind_of_reads_arguments {s r : Reader} {xs : List Construct}
    (h : Reads .byText n [.part .arguments] s r xs) : s.kind = .mark .leftParen := by
  simpa [Item.begins, Phrase.begins] using h.begins

theorem judged_call (hF : F.Calls n) (receiver : NodeId) (y : Construct) :
    Judged F P p (do
      match ← peek with
      | .mark .colon =>
        advance
        let name ← identifier .method
        return .again (← Grammar.callOn receiver (.methodInvocation name))
      | .mark .leftParen => return .again (← Grammar.callOn receiver .anonymousCall)
      | _ => return .stop receiver) (.round receiver y) (CallRound n p y) := by
  refine .peek fun k => ?_
  split
  · refine (Fills.advance.round fun _ => (Fills.identifier .method).round fun name =>
      judged_callOn hF receiver y (.methodInvocation name)).congr fun s r b hs => ?_
    constructor
    · rintro ⟨_, _, ⟨rfl, -, -⟩, name, _, ⟨hnext, rfl, -⟩, xs, hxs, rfl⟩
      exact .inr ⟨_, .inl ⟨name, xs, hs.2, hnext, hxs, rfl⟩, rfl⟩
    · rintro (⟨h, -⟩ | ⟨_, ⟨name, xs, -, hnext, hxs, rfl⟩ | ⟨xs, hxs, -⟩, rfl⟩)
      · exact absurd hs.2 h
      · exact ⟨(), _, ⟨rfl, rfl, rfl⟩, name, _, ⟨hnext, rfl, rfl⟩, xs, hxs, rfl⟩
      · exact absurd (hs.2.symm.trans (kind_of_reads_arguments hxs)) (by simp)
  · refine (judged_callOn hF receiver y .anonymousCall).congr fun s r b hs => ?_
    constructor
    · rintro ⟨xs, hxs, rfl⟩
      exact .inr ⟨_, .inr ⟨xs, hxs, rfl⟩, rfl⟩
    · rintro (⟨-, h, -⟩ | ⟨_, ⟨name, xs, h, -⟩ | ⟨xs, hxs, rfl⟩, rfl⟩)
      · exact absurd hs.2 h
      · exact absurd (hs.2.symm.trans h) (by simp)
      · exact ⟨xs, hxs, rfl⟩
  · next hcolon hparen =>
    refine Judged.stop.congr fun s r b hs => ?_
    constructor
    · rintro ⟨rfl, rfl⟩
      exact .inl ⟨by rw [hs.2]; exact hcolon, by rw [hs.2]; exact hparen, rfl, rfl⟩
    · rintro (⟨-, -, rfl, rfl⟩ | ⟨_, ⟨name, xs, h, -⟩ | ⟨xs, hxs, -⟩, -⟩)
      · exact ⟨rfl, rfl⟩
      · exact absurd (hs.2.symm.trans h) hcolon
      · exact absurd (hs.2.symm.trans (kind_of_reads_arguments hxs)) hparen

theorem gives_chain (hF : F.Calls n) :
    Gives F (fun s => s.start = p) p Grammar.chain fun s r x =>
      Reads .byText (n + 1) [.part .chain] s r [x] := by
  have hround (receiver : NodeId) (y : Construct) :
      Judged F (fun _ => True) p _ (.round receiver y) fun s r b =>
        ((s.kind ≠ .mark .colon ∧ s.kind ≠ .mark .leftParen) ∧ r = s ∧ b = .stop y) ∨
          ∃ x, CallStep n p y s r x ∧ b = .again x :=
    (judged_call hF receiver y).congr fun s r b _ => by rw [CallRound, and_assoc]
  have hloop := Gives.repeating (P := fun s => s.start = p)
    (hF.gives (p := p) (show Rule.primary.phrase? = some .primary from rfl)) hround ?_
  · refine hloop.congr fun s r x hs => ?_
    rw [reads_phrase_iff, ← steps_of_left (fun r x => Reads .byText n [.part .calls] s r [x])
      (fun r x => Reads .byText n [.part .primary] s r [x]) (CallStep n p)
      (fun r x => by rw [reads_calls_iff, hs])
      (by rintro y s r x (⟨name, xs, -, -, -, rfl⟩ | ⟨xs, -, rfl⟩) <;> simp)]
    constructor
    · rintro ⟨hdone, hx⟩
      exact ⟨n, _, none, [x], .chain, rfl, hdone, hx, rfl⟩
    · rintro ⟨m, body, kind, zs, alt, hm, hsettles, hzs, h⟩
      obtain rfl := Nat.succ.inj hm
      cases alt with
      | chain =>
        obtain rfl : [x] = zs := h
        exact ⟨hsettles, hzs⟩
  · rintro y s r _ (⟨name, xs, -, -, hxs, rfl⟩ | ⟨xs, hxs, rfl⟩)
    · have h₁ := hxs.length_le.2 rfl
      have h₂ := s.length_advance_le
      have h₃ := s.advance.length_advance_le
      simp only [Construct.count, Construct.countAll]
      omega
    · have h₁ := hxs.length_le.2 rfl
      simp only [Construct.count, Construct.countAll]
      omega

/-! ## Names -/

theorem nameDenotes_of_class {name class_ : String} (h : Grammar.classOf? name = some class_)
    (kind : NodeKind) : NameDenotes name kind ↔ kind = .classLiteral class_ := by
  simp [NameDenotes, h]

theorem nameDenotes_of_none {name : String} (h : Grammar.classOf? name = none) (kind : NodeKind) :
    NameDenotes name kind ↔ ¬ name.toList.contains '.' ∧ kind = .reference name := by
  simp [NameDenotes, h]

/-- A name that is not called stands for what its text says. -/
theorem gives_uncalledName (name : String) :
    Gives F P p (match Grammar.classOf? name with
      | some class_ => do
        intern class_
        leaf (.classLiteral class_)
      | none =>
        if name.toList.contains '.' then reject [.token (.mark .leftParen)]
        else leaf (.reference name)) fun s r x =>
      r = s ∧ ∃ kind, NameDenotes name kind ∧ x = .mk kind ⟨p, s.lastEnd⟩ [] := by
  split
  · next class_ hclass =>
    refine Judged.congr ((Fills.intern class_).gives fun _ => Gives.leaf _) fun s r x _ => ?_
    constructor
    · rintro ⟨_, _, ⟨rfl, -, -⟩, rfl, rfl⟩
      exact ⟨rfl, _, (nameDenotes_of_class hclass _).mpr rfl, rfl⟩
    · rintro ⟨rfl, kind, hkind, rfl⟩
      rw [(nameDenotes_of_class hclass _).mp hkind]
      exact ⟨(), _, ⟨rfl, rfl, rfl⟩, rfl, rfl⟩
  · next hclass =>
    split
    · next hdot =>
      refine .reject _ fun s r x _ ⟨_, kind, hkind, _⟩ => ?_
      exact ((nameDenotes_of_none hclass _).mp hkind).1 hdot
    · next hdot =>
      refine Judged.congr (Gives.leaf _) fun s r x _ => ?_
      constructor
      · rintro ⟨rfl, rfl⟩
        exact ⟨rfl, _, (nameDenotes_of_none hclass _).mpr ⟨hdot, rfl⟩, rfl⟩
      · rintro ⟨rfl, kind, hkind, rfl⟩
        rw [((nameDenotes_of_none hclass _).mp hkind).2]
        exact ⟨rfl, rfl⟩

/-- A name has been read: it is called, or it stands for what its text says. -/
theorem gives_afterName (hF : F.Calls n) (name : String) :
    Gives F P p (do
      if (← peek) = .mark .leftParen then
        let node ← openNode (.functionInvocation name)
        let _ ← enter (.arguments node)
        closeNode node
      else
        match Grammar.classOf? name with
        | some class_ =>
          intern class_
          leaf (.classLiteral class_)
        | none =>
          if name.toList.contains '.' then reject [.token (.mark .leftParen)]
          else leaf (.reference name)) fun s r x =>
      (∃ xs, Reads .byText n [.part .arguments] s r xs ∧
        x = .mk (.functionInvocation name) ⟨p, r.lastEnd⟩ xs) ∨
      (s.kind ≠ .mark .leftParen ∧ r = s ∧ ∃ kind, NameDenotes name kind ∧
        x = .mk kind ⟨p, s.lastEnd⟩ []) := by
  refine .peek fun k => ?_
  split
  · next hk =>
    have hm : Makes F (fun s => P s ∧ s.kind = k) p n (do
        let node ← openNode (.functionInvocation name)
        let _ ← enter (.arguments node)
        closeNode node) (fun _ : Unit => [.part .arguments]) (fun _ => .functionInvocation name) :=
      .openNode fun node => .arguments hF fun _ => .closeNode
    refine Judged.congr hm fun s r x hs => ?_
    constructor
    · rintro ⟨_, -, xs, hxs, rfl⟩
      exact .inl ⟨xs, hxs, rfl⟩
    · rintro (⟨xs, hxs, rfl⟩ | ⟨h, -⟩)
      · exact ⟨(), trivial, xs, hxs, rfl⟩
      · exact absurd (hs.2.trans hk) h
  · next hk =>
    refine (gives_uncalledName name).congr fun s r x hs => ?_
    have hne : s.kind ≠ .mark .leftParen := by rwa [hs.2]
    constructor
    · exact fun h => .inr ⟨hne, h⟩
    · rintro (⟨xs, hxs, -⟩ | ⟨-, h⟩)
      · exact absurd (kind_of_reads_arguments hxs) hne
      · exact h

theorem gives_named (hF : F.Calls n) :
    Gives F (fun s => s.start = p) p Grammar.named fun s r x =>
      Reads .byText (n + 1) [.part .named] s r [x] := by
  refine Judged.congr ((Fills.qualifiedName .plain).gives fun name => gives_afterName hF name)
    fun s r x hs => ?_
  rw [reads_phrase_iff, hs]
  constructor
  · rintro ⟨_, s₁, ⟨-, segments, hname, rfl⟩, ⟨xs, hxs, rfl⟩ | ⟨hparen, rfl, kind, hkind, rfl⟩⟩
    · exact ⟨n, _, _, xs, .invocation segments, rfl, trivial, .qualified hname hxs, rfl⟩
    · exact ⟨n, _, _, [], .bareName hkind, rfl, hparen, .qualified hname .nil, rfl⟩
  · rintro ⟨m, body, kind, xs, alt, hm, hsettles, hxs, h⟩
    obtain rfl := Nat.succ.inj hm
    cases alt with
    | invocation segments =>
      obtain ⟨s₁, hname, hxs⟩ := reads_qualified_iff.mp hxs
      exact ⟨_, s₁, ⟨rfl, segments, hname, rfl⟩, .inl ⟨xs, hxs, List.singleton_inj.mp h⟩⟩
    | @bareName segments kind hkind =>
      obtain ⟨s₁, hname, hxs⟩ := reads_qualified_iff.mp hxs
      obtain ⟨rfl, rfl⟩ := reads_nil_iff.mp hxs
      exact ⟨_, r, ⟨rfl, segments, hname, rfl⟩,
        .inr ⟨hsettles, rfl, kind, hkind, List.singleton_inj.mp h⟩⟩

/-! ## Primary expressions -/

theorem ne_of_isLiteral {k : TokenKind} (h : k.isLiteral) :
    (∀ sign, k ≠ .mark sign) ∧ k ≠ .keyword .match_ ∧ k ≠ .identifier := by
  unfold TokenKind.isLiteral at h
  split at h <;> simp_all

theorem reads_primary_of_literal {s r : Reader} {x : Construct} (hs : s.kind.isLiteral) :
    Reads .byText (n + 1) [.part .primary] s r [x] ↔ ∃ value, s.next.literal? = some value ∧
      r = s.advance ∧ x = .mk (.literal value) ⟨s.start, r.lastEnd⟩ [] := by
  rw [reads_phrase_iff]
  constructor
  · rintro ⟨m, body, kind, xs, alt, hm, -, hxs, h⟩
    have hbegins := hxs.begins_head
    cases alt with
    | literal value =>
      obtain ⟨hvalue, hxs⟩ := reads_literal_iff.mp hxs
      obtain ⟨rfl, rfl⟩ := reads_nil_iff.mp hxs
      exact ⟨value, hvalue, rfl, List.singleton_inj.mp h⟩
    | _ =>
      obtain ⟨hmark, hmatch, hname⟩ := ne_of_isLiteral hs
      simp [Item.begins, Phrase.begins, hmark, hmatch, hname] at hbegins
  · rintro ⟨value, hvalue, rfl, rfl⟩
    exact ⟨n, _, _, [], .literal value, rfl, trivial, .literal hvalue .nil, rfl⟩

/-- A literal that has a value. -/
theorem gives_literalToken {l : Lexeme} {value : Literal} (h : l.literal? = some value) :
    Gives F (fun s => s.start = p ∧ s.next = l) p (Grammar.literalToken value) fun s r x =>
      Reads .byText (n + 1) [.part .primary] s r [x] := by
  refine Judged.congr (Fills.advance.gives fun _ => Gives.leaf _) fun s r x hs => ?_
  have hliteral : s.kind.isLiteral := by
    rw [Reader.kind, hs.2]
    exact Lexeme.isLiteral_of_literal? h
  rw [reads_primary_of_literal hliteral, hs.1, hs.2, h]
  constructor
  · rintro ⟨_, _, ⟨rfl, -, -⟩, rfl, rfl⟩
    exact ⟨value, rfl, rfl, rfl⟩
  · rintro ⟨_, hvalue, rfl, rfl⟩
    cases hvalue
    exact ⟨(), _, ⟨rfl, rfl, rfl⟩, rfl, rfl⟩

/-- A literal that has none. -/
theorem gives_refuseLiteral {l : Lexeme} (hl : l.kind.isLiteral) (h : l.literal? = none)
    (fault : ParseFault) :
    Gives F (fun s => s.start = p ∧ s.next = l) p (refuseLiteral fault) fun s r x =>
      Reads .byText (n + 1) [.part .primary] s r [x] := by
  refine Judged.refuseLiteral fault fun s r x hs hx => ?_
  rw [reads_primary_of_literal (by rw [Reader.kind, hs.2]; exact hl), hs.2, h] at hx
  obtain ⟨value, hvalue, -⟩ := hx
  cases hvalue

/-- A literal whose value depends on its text. -/
theorem gives_literalText {l : Lexeme} {value : String → Reading NodeId} (hl : l.kind.isLiteral)
    (hnone : l.text = none → l.literal? = none)
    (hsome : ∀ text, l.text = some text →
      Gives F (fun s => s.start = p ∧ s.next = l) p (value text) fun s r x =>
        Reads .byText (n + 1) [.part .primary] s r [x]) :
    Gives F (fun s => s.start = p ∧ s.next = l) p (Grammar.literalText l value) fun s r x =>
      Reads .byText (n + 1) [.part .primary] s r [x] := by
  unfold Grammar.literalText
  split
  · next text htext => exact hsome text htext
  · next htext => exact gives_refuseLiteral hl (hnone htext) _

theorem reads_closure_iff {s r : Reader} {xs : List Construct} (hs : s.kind ≠ .mark .leftBrace) :
    Reads .byText n [.part (.function true)] s r xs ↔
      Reads .byText n [.part (.function false)] s r xs := by
  rw [reads_phrase_iff, reads_phrase_iff]
  constructor
  · rintro ⟨m, body, kind, xs, alt, hm, hsettles, hxs, rfl⟩
    cases alt with
    | functionArrow =>
      exact ⟨m, _, _, xs, .functionArrow false, hm, trivial, hxs, rfl⟩
    | functionParametersBlock _ varargs =>
      exact ⟨m, _, _, xs, .functionParametersBlock false varargs, hm, trivial, hxs, rfl⟩
    | functionParametersArrow _ varargs =>
      exact ⟨m, _, _, xs, .functionParametersArrow false varargs, hm, trivial, hxs, rfl⟩
  · rintro ⟨m, body, kind, xs, alt, hm, hsettles, hxs, rfl⟩
    cases alt with
    | functionBlock =>
      have := hxs.begins
      simp [Item.begins, Phrase.begins, hs] at this
    | functionArrow =>
      exact ⟨m, _, _, xs, .functionArrow true, hm, trivial, hxs, rfl⟩
    | functionParametersBlock _ varargs =>
      exact ⟨m, _, _, xs, .functionParametersBlock true varargs, hm, trivial, hxs, rfl⟩
    | functionParametersArrow _ varargs =>
      exact ⟨m, _, _, xs, .functionParametersArrow true varargs, hm, trivial, hxs, rfl⟩

theorem gives_closure (hF : F.Calls n) {k : TokenKind} (hk : k = .mark .pipe ∨ k = .mark .arrow) :
    Gives F (fun s => s.kind = k) p (enter .function) fun s r x =>
      Reads .byText (n + 1) [.part .primary] s r [x] := by
  refine Judged.congr (hF.gives rfl) fun s r x hs => ?_
  rw [← reads_closure_iff (by rcases hk with rfl | rfl <;> simp [hs]), reads_phrase_iff (n := n + 1)]
  constructor
  · intro hx
    exact ⟨n, _, none, [x], .closure, rfl, trivial, hx, rfl⟩
  · rintro ⟨m, body, kind, xs, alt, hm, -, hxs, h⟩
    obtain rfl := Nat.succ.inj hm
    have hbegins := hxs.begins_head
    cases alt with
    | closure =>
      obtain rfl : [x] = xs := h
      exact hxs
    | _ =>
      rw [hs] at hbegins
      rcases hk with rfl | rfl <;>
        simp [Item.begins, Phrase.begins, TokenKind.isLiteral] at hbegins

/-- Parentheses leave no trace. -/
theorem gives_grouping (hF : F.Calls n) :
    Gives F (fun s => s.kind = .mark .leftParen) p (do
      advance
      skipNewlines
      let inner ← enter (.expression 0)
      skipNewlines
      expect (.mark .rightParen)
      return inner) fun s r x => Reads .byText (n + 1) [.part .primary] s r [x] := by
  have hclose : Gives F (fun _ => True) p (enter (.expression 0) >>= fun inner =>
      (skipNewlines >>= fun _ => expect (.mark .rightParen)) >>= fun _ => pure inner) fun s r x =>
      ∃ s₁ b, Reads .byText n [.part (.expression 0)] s s₁ [x] ∧ ∃ a s₂ xs ys,
        (s₂ = s₁.skipNewlines ∧ a = () ∧ xs = []) ∧
          (s₂.kind = .mark .rightParen ∧ r = s₂.advance ∧ b = () ∧ ys = []) ∧ [] = xs ++ ys :=
    (hF.gives rfl).followed (Fills.skipNewlines.bind fun _ => Fills.expect _)
  simp only [bind_assoc] at hclose
  refine Judged.congr (Fills.advance.gives fun _ => Fills.skipNewlines.gives fun _ => hclose)
    fun s r x hs => ?_
  rw [reads_phrase_iff (n := n + 1)]
  constructor
  · rintro ⟨_, _, ⟨rfl, -, -⟩, _, _, ⟨rfl, -, -⟩, s₁, _, hx, _, _, _, _, ⟨rfl, -, -⟩,
      ⟨hk, rfl, -, -⟩, -⟩
    exact ⟨n, _, none, [x], .grouping, rfl, trivial, .token (by simp) hs (.newlines
      (reads_part_append.mpr ⟨s₁, [x], [], hx, .newlines (.token (by simp) hk .nil), rfl⟩)), rfl⟩
  · rintro ⟨m, body, kind, xs, alt, hm, -, hxs, h⟩
    obtain rfl := Nat.succ.inj hm
    have hbegins := hxs.begins_head
    cases alt with
    | grouping =>
      obtain rfl : [x] = xs := h
      obtain ⟨-, -, hxs⟩ := reads_token_iff.mp hxs
      obtain ⟨s₁, ys, zs, hys, hzs, hxs⟩ := reads_part_append.mp (reads_newlines_iff.mp hxs)
      obtain ⟨-, hk, hzs⟩ := reads_token_iff.mp (reads_newlines_iff.mp hzs)
      obtain ⟨rfl, rfl⟩ := reads_nil_iff.mp hzs
      rw [List.append_nil] at hxs
      exact ⟨(), _, ⟨rfl, rfl, rfl⟩, (), _, ⟨rfl, rfl, rfl⟩, s₁, (), hxs ▸ hys, (), _, [], [],
        ⟨rfl, trivial, rfl⟩, ⟨hk, rfl, trivial, rfl⟩, rfl⟩
    | _ =>
      rw [hs] at hbegins
      simp [Item.begins, Phrase.begins, TokenKind.isLiteral] at hbegins

theorem gives_functionRef :
    Gives F (fun s => s.start = p ∧ s.kind = .mark .caret) p (do
      advance
      let name ← qualifiedName .function
      leaf (.functionRef name)) fun s r x => Reads .byText (n + 1) [.part .primary] s r [x] := by
  have hm : Makes F (fun s => s.start = p ∧ s.kind = .mark .caret) p n (do
      advance
      let name ← qualifiedName .function
      leaf (.functionRef name)) (fun segments => [.sign .caret, .qualified segments])
      (fun segments => .functionRef (dotted segments)) :=
    .advance (by simp) (fun s hs => hs.2) <| .qualifiedName fun _ => .leaf
  refine hm.phrase rfl (fun _ h => h.1) (fun _ _ segments _ _ => ⟨.functionRef segments, trivial⟩) ?_
  intro s r body kind xs hs alt _ hxs
  have hbegins := hxs.begins_head
  cases alt with
  | functionRef segments => exact ⟨segments, rfl, rfl, trivial⟩
  | _ =>
    rw [hs.2] at hbegins
    simp [Item.begins, Phrase.begins, TokenKind.isLiteral] at hbegins

theorem gives_matchPrimary (hF : F.Calls n) :
    Gives F (fun s => s.kind = .keyword .match_) p (enter .match_) fun s r x =>
      Reads .byText (n + 1) [.part .primary] s r [x] := by
  refine Gives.pass hF rfl rfl .matchPrimary (fun _ _ _ => trivial) ?_
  intro s r body kind xs hs alt _ hxs
  have hbegins := hxs.begins_head
  cases alt with
  | matchPrimary => exact ⟨rfl, rfl⟩
  | _ =>
    rw [hs] at hbegins
    simp [Item.begins, Phrase.begins, TokenKind.isLiteral] at hbegins

theorem gives_tuple (hF : F.Calls n) :
    Gives F (fun s => s.start = p ∧ s.kind = .mark .leftBracket) p (enter (.collection .tuple))
      fun s r x => Reads .byText (n + 1) [.part .primary] s r [x] := by
  refine Judged.congr hF.collection fun s r x hs => ?_
  rw [reads_phrase_iff (n := n + 1)]
  constructor
  · rintro ⟨xs, hxs, rfl⟩
    exact ⟨n, _, _, xs, .tuple, rfl, trivial, hxs, by rw [← hs.1]; rfl⟩
  · rintro ⟨m, body, kind, xs, alt, hm, -, hxs, h⟩
    obtain rfl := Nat.succ.inj hm
    have hbegins := hxs.begins_head
    cases alt with
    | tuple =>
      rw [hs.1] at h
      exact ⟨xs, hxs, List.singleton_inj.mp h⟩
    | _ =>
      rw [hs.2] at hbegins
      simp [Item.begins, Phrase.begins, TokenKind.isLiteral] at hbegins

/-- A word in front of a bracket is the type of a collection. -/
theorem gives_collectionWord (hF : F.Calls n) {word : String} {type : CollectionKind}
    (hword : CollectionKind.ofWord? word = some type) :
    Gives F (fun s => s.start = p ∧ s.next = ⟨.identifier, some word⟩ ∧
        s.kindBehind = .mark .leftBracket) p (do
      advance
      enter (.collection type)) fun s r x => Reads .byText (n + 1) [.part .primary] s r [x] := by
  refine Judged.congr (Fills.advance.gives fun _ => hF.collection) fun s r x hs => ?_
  obtain ⟨hstart, hnext, hbehind⟩ := hs
  rw [reads_phrase_iff (n := n + 1)]
  constructor
  · rintro ⟨_, _, ⟨rfl, -, -⟩, xs, hxs, rfl⟩
    exact ⟨n, _, _, xs, .collectionWord hword, rfl, trivial, .identifier hnext hxs,
      by rw [hstart]; rfl⟩
  · rintro ⟨m, body, kind, xs, alt, hm, hsettles, hxs, h⟩
    obtain rfl := Nat.succ.inj hm
    have hkind : s.kind = .identifier := by rw [Reader.kind, hnext]
    have hbegins := hxs.begins_head
    cases alt with
    | @collectionWord word' type' hword' =>
      obtain ⟨hnext', hys⟩ := reads_identifier_iff.mp hxs
      rw [hnext] at hnext'
      cases hnext'
      rw [hword] at hword'
      cases hword'
      rw [hstart] at h
      exact ⟨(), _, ⟨rfl, rfl, rfl⟩, xs, hys, List.singleton_inj.mp h⟩
    | named => exact absurd ⟨hkind, by simp [hnext, hword], hbehind⟩ hsettles
    | _ =>
      rw [hkind] at hbegins
      simp [Item.begins, Phrase.begins, TokenKind.isLiteral] at hbegins

/-- Any other word begins a name. -/
theorem gives_namedPrimary (hF : F.Calls n) :
    Gives F (fun s => s.kind = .identifier ∧ ¬ s.BeginsCollection) p (enter .named) fun s r x =>
      Reads .byText (n + 1) [.part .primary] s r [x] := by
  refine Gives.pass hF rfl rfl .named (fun _ _ hs => hs.2) ?_
  intro s r body kind xs hs alt _ hxs
  have hbegins := hxs.begins_head
  cases alt with
  | @collectionWord word type hword =>
    obtain ⟨hnext, hxs⟩ := reads_identifier_iff.mp hxs
    have hbehind : s.kindBehind = .mark .leftBracket := by
      rw [← kind_advance]
      simpa [Item.begins, Phrase.begins] using hxs.begins
    exact absurd ⟨hs.1, by simp [hnext, hword], hbehind⟩ hs.2
  | named => exact ⟨rfl, rfl⟩
  | _ =>
    rw [hs.1] at hbegins
    simp [Item.begins, Phrase.begins, TokenKind.isLiteral] at hbegins

theorem gives_primaryOf (hF : F.Calls n) (l : Lexeme) :
    Gives F (fun s => s.start = p ∧ s.next = l) p (Grammar.primaryOf l) fun s r x =>
      Reads .byText (n + 1) [.part .primary] s r [x] := by
  obtain ⟨k, text⟩ := l
  have hkind : ∀ s : Reader, s.start = p ∧ s.next = ⟨k, text⟩ → s.kind = k := by
    rintro s ⟨-, hs⟩
    rw [Reader.kind, hs]
  unfold Grammar.primaryOf
  dsimp only
  split
  · next kind =>
    refine gives_literalText rfl (by simp +contextual [Lexeme.literal?]) fun text' htext => ?_
    subst htext
    split
    · next value hvalue => exact gives_literalToken (by simpa [Lexeme.literal?] using hvalue)
    · next hvalue => exact gives_refuseLiteral rfl (by simpa [Lexeme.literal?] using hvalue) _
  · refine gives_literalText rfl (by simp +contextual [Lexeme.literal?]) fun text' htext => ?_
    exact gives_literalToken (by simp_all [Lexeme.literal?])
  · refine gives_literalText rfl (by simp +contextual [Lexeme.literal?]) fun text' htext => ?_
    exact gives_literalToken (by simp_all [Lexeme.literal?])
  iterate 3 exact gives_literalToken rfl
  · exact (gives_grouping hF).weaken hkind
  · exact (gives_closure hF (.inl rfl)).weaken hkind
  · exact (gives_closure hF (.inr rfl)).weaken hkind
  · exact gives_functionRef.weaken fun s hs => ⟨hs.1, hkind s hs⟩
  · exact (gives_matchPrimary hF).weaken hkind
  · exact (gives_tuple hF).weaken fun s hs => ⟨hs.1, hkind s hs⟩
  · split
    · next type htype =>
      obtain ⟨word, rfl, hword⟩ := Option.bind_eq_some_iff.mp htype
      refine .peekBehind fun k' => ?_
      split
      · next hk' =>
        exact (gives_collectionWord hF hword).weaken fun s hs => ⟨hs.1.1, hs.1.2, hs.2.trans hk'⟩
      · next hk' =>
        exact (gives_namedPrimary hF).weaken fun s hs =>
          ⟨hkind s hs.1, fun h => hk' (hs.2.symm.trans h.2.2)⟩
    · next htype =>
      refine (gives_namedPrimary hF).weaken fun s hs => ⟨hkind s hs, fun h => ?_⟩
      exact absurd h.2.1 (by simp [hs.2, htype])
  · next hnumber hstring hcharacter hnull htrue hfalse hparen hpipe harrow hcaret hmatch hbracket
      hname =>
    refine .reject _ fun s r x hs hx => ?_
    have hbegins := hx.begins
    rw [hkind s hs] at hbegins
    rcases (Bool.or_eq_true _ _).mp hbegins with hliteral | hother
    · unfold TokenKind.isLiteral at hliteral
      split at hliteral
      · exact hnumber _ rfl
      · exact hstring _ rfl
      · exact hcharacter rfl
      · exact hnull rfl
      · exact htrue rfl
      · exact hfalse rfl
      · cases hliteral
    · simp only [List.contains_cons, List.contains_nil, Bool.or_eq_true, beq_iff_eq, Bool.or_false]
        at hother
      tauto

/-- No other token is told by its text. -/
theorem primaryOf_congr {k : TokenKind} (h : k.carriesText = false) (text text' : Option String) :
    Grammar.primaryOf ⟨k, text⟩ = Grammar.primaryOf ⟨k, text'⟩ := by
  cases k with
  | keyword word => cases word <;> rfl
  | mark sign => cases sign <;> rfl
  | newline | endOfInput => rfl
  | identifier | number _ | string _ | character => cases h

/-- A literal or a name without a text is refused. -/
theorem carriesText_of_run (hF : F.Calls n) {k : TokenKind} {s s' : State} {id : NodeId}
    (hs : (s.current F.context).lexeme s.tree.symbols = ⟨k, none⟩)
    (hrun : Reading.run F.context F.enter (Grammar.primaryOf ⟨k, none⟩) p s = .ok (id, s')) :
    k.carriesText = false := by
  cases k with
  | keyword _ | mark _ | newline | endOfInput => rfl
  | number _ | string _ | character => cases hrun
  | identifier =>
    have hnamed : F.enter .named p s = .ok (id, s') := by
      simp only [Grammar.primaryOf, Option.bind_none, Reading.enter, run] at hrun
      split at hrun
      · cases hrun
      · next h => exact h.trans hrun
    obtain ⟨text, htext⟩ := hF.named hnamed
    rw [hs] at htext
    cases htext

theorem gives_primary (hF : F.Calls n) :
    Gives F (fun s => s.start = p) p Grammar.primary fun s r x =>
      Reads .byText (n + 1) [.part .primary] s r [x] where
  sound {s id s'} hP hrun hknown := by
    refine (gives_primaryOf hF (F.view s).next).sound ⟨hP, rfl⟩ ?_ hknown
    rw [Site.run, Grammar.primary, run_look] at hrun
    have hknown₀ := hknown.of_grows (grows_run F.grows _ hrun)
    have hkind : (F.view s).next.kind = ((s.current F.context).lexeme s.tree.symbols).kind :=
      kind_view s
    generalize hl : (s.current F.context).lexeme s.tree.symbols = l at hrun hkind
    obtain ⟨k, _ | text⟩ := l
    · obtain rfl : (F.view s).next.kind = k := hkind
      rwa [primaryOf_congr (carriesText_of_run hF hl hrun) none (F.view s).next.text] at hrun
    · have hend : k ≠ .endOfInput := by
        rintro rfl
        cases hrun
      rwa [Site.run, next_view_of_known hknown₀ hend hl]
  complete {s r x} hP hready hsize hx := by
    have hend : (F.view s).kind ≠ .endOfInput := by
      intro hend
      have := hx.begins
      rw [hend] at this
      cases this
    obtain ⟨id, s', hrun, hview, hgiven⟩ :=
      (gives_primaryOf hF (F.view s).next).complete ⟨hP, rfl⟩ hready hsize hx
    refine ⟨id, s', ?_, hview, hgiven⟩
    rw [Site.run, Grammar.primary, run_look, lexeme_of_ready hready hend]
    exact hrun

end GoloSyntax.Reading
