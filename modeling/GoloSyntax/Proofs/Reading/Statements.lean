import GoloSyntax.Proofs.Reading.Phrases

/-! # Judging statements

Every rule for statements reads its phrase, provided that the rules it calls do.
-/
namespace GoloSyntax.Reading

variable {F : Site} {P : Reader → Prop} {p : Position} {n : Nat}

theorem makes_binding (hF : F.Calls n) (kind : String → NodeKind) :
    Makes F P p n (Grammar.binding kind)
      (fun name => [.identifier name, .sign .assign, .newlines, .part (.expression 0)]) kind :=
  .identifier fun _ => .expect (by simp) <| .skipNewlines <| .openNode fun _ =>
    .child hF rfl .closeNode

theorem gives_letOrVar (hF : F.Calls n) :
    Gives F (fun s => s.start = p) p Grammar.letOrVar fun s r x =>
      Reads .byText (n + 1) [.part .letOrVar] s r [x] := by
  refine .peek fun k => ?_
  split
  · refine (Makes.advance (by simp) (fun s hs => hs.2) (makes_binding hF _)).phrase rfl
      (fun _ h => h.1) (fun _ _ name _ _ => ⟨.let_ name, trivial⟩) ?_
    rintro s r body kind xs hs ⟨⟩ - h
    · exact ⟨_, rfl, rfl, trivial⟩
    · simp [hs.2] at h
  · refine (Makes.advance (by simp) (fun s hs => hs.2) (makes_binding hF _)).phrase rfl
      (fun _ h => h.1) (fun _ _ name _ _ => ⟨.var name, trivial⟩) ?_
    rintro s r body kind xs hs ⟨⟩ - h
    · simp [hs.2] at h
    · exact ⟨_, rfl, rfl, trivial⟩
  · next hlet hvar =>
    refine .reject _ fun s r x hs hx => ?_
    have := hx.begins
    simp [Item.begins, Phrase.begins, hs.2] at this
    tauto

theorem gives_assignment (hF : F.Calls n) :
    Gives F (fun s => s.start = p) p Grammar.assignment fun s r x =>
      Reads .byText (n + 1) [.part .assignment] s r [x] := by
  refine (makes_binding hF _).phrase rfl (fun _ h => h)
    (fun _ _ name _ _ => ⟨.assignment name, trivial⟩) ?_
  rintro s r body kind xs - ⟨⟩ - -
  exact ⟨_, rfl, rfl, trivial⟩

/-- What a return statement may be followed by if it has no value. -/
def EndsReturn (r : Reader) : Prop :=
  r.kind = .newline ∨ r.kind = .mark .rightBrace ∨ r.kind = .endOfInput

/-- Whether a return statement has a value, and what it then consists of behind its
keyword. -/
def returned (hasValue : Bool) : List Item := if hasValue then [.part (.expression 0)] else []

theorem ends_return (hF : F.Calls n) {node : NodeId} :
    Ends F (fun _ => True) p n node .return_ (do
      match ← peek with
      | .newline | .mark .rightBrace | .endOfInput => closeNode node
      | _ =>
        child node (.expression 0)
        closeNode node) returned (fun _ => .return_) (fun hasValue r => hasValue ∨ EndsReturn r) := by
  have hvoid : ∀ k : TokenKind, k = .newline ∨ k = .mark .rightBrace ∨ k = .endOfInput →
      Ends F (fun s => True ∧ s.kind = k) p n node .return_ (closeNode node) returned
        (fun _ => .return_) (fun hasValue r => hasValue ∨ EndsReturn r) := by
    intro k hk
    refine Judged.congr Closes.closeNode fun s r x hs => ⟨?_, ?_⟩
    · rintro ⟨rfl, rfl⟩
      exact ⟨false, .inr (by rw [EndsReturn, hs.2]; exact hk), [], .nil, rfl⟩
    · rintro ⟨_ | _, -, xs, hxs, rfl⟩
      · obtain ⟨rfl, rfl⟩ := reads_nil_iff.mp hxs
        exact ⟨rfl, rfl⟩
      · have := hxs.begins
        rw [hs.2] at this
        rcases hk with rfl | rfl | rfl <;> cases this
  refine .peek fun k => ?_
  split
  · exact hvoid _ (.inl rfl)
  · exact hvoid _ (.inr (.inl rfl))
  · exact hvoid _ (.inr (.inr rfl))
  · next hnewline hbrace hend =>
    refine Judged.congr (Ends.child hF rfl .closeNode) fun s r x hs => ⟨?_, ?_⟩
    · rintro ⟨_, -, h⟩
      exact ⟨true, .inl rfl, h⟩
    · rintro ⟨_ | _, hguard, xs, hxs, rfl⟩
      · obtain ⟨rfl, rfl⟩ := reads_nil_iff.mp hxs
        rcases hguard with h | h
        · cases h
        · rw [EndsReturn, hs.2] at h
          tauto
      · exact ⟨(), trivial, xs, hxs, rfl⟩

theorem gives_return (hF : F.Calls n) :
    Gives F (fun s => s.start = p) p Grammar.return_ fun s r x =>
      Reads .byText (n + 1) [.part .return_] s r [x] := by
  have hm : Makes F (fun s => s.start = p) p n Grammar.return_
      (fun hasValue => .word .return_ :: returned hasValue) (fun _ => .return_)
      (fun hasValue r => hasValue ∨ EndsReturn r) :=
    .expect (by simp) <| .openNode fun node => ends_return hF
  refine hm.phrase rfl (fun _ h => h) ?_ ?_
  · rintro s r (_ | _) - hguard
    · exact ⟨.returnVoid, hguard.resolve_left (by simp)⟩
    · exact ⟨.returnValue, trivial⟩
  · rintro s r body kind xs - ⟨⟩ hsettles -
    · exact ⟨false, rfl, rfl, .inr hsettles⟩
    · exact ⟨true, rfl, rfl, .inl rfl⟩

theorem gives_throw (hF : F.Calls n) :
    Gives F (fun s => s.start = p) p Grammar.throw fun s r x =>
      Reads .byText (n + 1) [.part .throw] s r [x] := by
  have hm : Makes F (fun s => s.start = p) p n Grammar.throw
      (fun _ : Unit => [.word .throw, .part (.expression 0)]) (fun _ => .throw) :=
    .expect (by simp) <| .openNode fun _ => .child hF rfl .closeNode
  refine hm.phrase rfl (fun _ h => h) (fun _ _ _ _ _ => ⟨.throw, trivial⟩) ?_
  rintro s r body kind xs - ⟨⟩ - -
  exact ⟨(), rfl, rfl, trivial⟩

/-- What a conditional may go on with behind its first block: nothing, another block or
another conditional. -/
def elseItems : Option Bool → List Item
  | none => []
  | some chained => [.word .else_, .part (if chained then .if_ else .block)]

/-- A conditional goes on if it can. -/
def elseGuard (e : Option Bool) (r : Reader) : Prop := e = none → r.kind ≠ .keyword .else_

theorem ends_else (hF : F.Calls n) {node : NodeId} :
    Ends F (fun _ => True) p n node .if_ (do
      match ← peek with
      | .keyword .if_ =>
        child node .if_
        closeNode node
      | .mark .leftBrace =>
        child node .block
        closeNode node
      | _ => do
        reject [.token (.keyword .if_), .token (.mark .leftBrace)]
        closeNode node) (fun chained : Bool => [.part (if chained then .if_ else .block)])
      (fun _ => .if_) := by
  refine .peek fun k => ?_
  split
  · refine .select (fun _ => true) (.child hF rfl .closeNode) ?_
    rintro s r (_ | _) xs hs - hxs
    · have := hxs.begins
      simp [Item.begins, Phrase.begins, hs.2] at this
    · exact ⟨(), rfl⟩
  · refine .select (fun _ => false) (.child hF rfl .closeNode) ?_
    rintro s r (_ | _) xs hs - hxs
    · exact ⟨(), rfl⟩
    · have := hxs.begins
      simp [Item.begins, Phrase.begins, hs.2] at this
  · next hif hbrace =>
    rw [reject_bind]
    refine .reject ?_
    rintro s r (_ | _) xs hs - hxs
    all_goals
      have := hxs.begins
      simp [Item.begins, Phrase.begins, hs.2] at this
      tauto

theorem gives_if (hF : F.Calls n) :
    Gives F (fun s => s.start = p) p Grammar.if_ fun s r x =>
      Reads .byText (n + 1) [.part .if_] s r [x] := by
  have hm : Makes F (fun s => s.start = p) p n Grammar.if_
      (fun e => .word .if_ :: .part (.expression 0) :: .part .block :: elseItems e)
      (fun _ => .if_) elseGuard := by
    refine .expect (by simp) <| .openNode fun node => .child hF rfl <| .child hF rfl ?_
    rw [accept_bind]
    refine .peek fun k => ?_
    split
    · next hk =>
      subst hk
      refine Judged.congr (Ends.advance (by simp) (fun s hs => hs.2) (ends_else hF))
        fun s r x hs => ⟨?_, ?_⟩
      · rintro ⟨chained, -, h⟩
        exact ⟨some chained, nofun, h⟩
      · rintro ⟨_ | chained, hguard, xs, hxs, rfl⟩
        · obtain ⟨rfl, rfl⟩ := reads_nil_iff.mp hxs
          exact absurd hs.2 (hguard rfl)
        · exact ⟨chained, trivial, xs, hxs, rfl⟩
    · next hk =>
      refine Judged.congr Closes.closeNode fun s r x hs => ⟨?_, ?_⟩
      · rintro ⟨rfl, rfl⟩
        exact ⟨none, fun _ => by rw [hs.2]; exact hk, [], .nil, rfl⟩
      · rintro ⟨_ | chained, -, xs, hxs, rfl⟩
        · obtain ⟨rfl, rfl⟩ := reads_nil_iff.mp hxs
          exact ⟨rfl, rfl⟩
        · exact absurd (hs.2.symm.trans (reads_token_iff.mp hxs).2.1) hk
  refine hm.phrase rfl (fun _ h => h) ?_ ?_
  · rintro s r (_ | _ | _) - hguard
    · exact ⟨.if_, hguard rfl⟩
    · exact ⟨.ifElse, trivial⟩
    · exact ⟨.ifElseIf, trivial⟩
  · rintro s r body kind xs - ⟨⟩ hsettles -
    · exact ⟨none, rfl, rfl, fun _ => hsettles⟩
    · exact ⟨some true, rfl, rfl, nofun⟩
    · exact ⟨some false, rfl, rfl, nofun⟩

theorem gives_while (hF : F.Calls n) :
    Gives F (fun s => s.start = p) p Grammar.while_ fun s r x =>
      Reads .byText (n + 1) [.part .while_] s r [x] := by
  have hm : Makes F (fun s => s.start = p) p n Grammar.while_
      (fun _ : Unit => [.word .while_, .part (.expression 0), .part .block])
      (fun _ => .while_) :=
    .expect (by simp) <| .openNode fun _ => .child hF rfl <| .child hF rfl .closeNode
  refine hm.phrase rfl (fun _ h => h) (fun _ _ _ _ _ => ⟨.while_, trivial⟩) ?_
  rintro s r body kind xs - ⟨⟩ - -
  exact ⟨(), rfl, rfl, trivial⟩

theorem Ends.clauseSeparator {ι : Type} {node : NodeId} {kind : NodeKind}
    {family : ι → List Item} {kinds : ι → NodeKind} {f : Unit → Reading NodeId}
    (hf : Ends F (fun _ => True) p n node kind (f ()) family kinds) :
    Ends F P p n node kind (Grammar.clauseSeparator >>= f)
      (fun i => .newlines :: .sign .comma :: .newlines :: family i) kinds := by
  rw [Grammar.clauseSeparator, bind_assoc]
  refine .skipNewlines ?_
  rw [bind_assoc]
  exact .expect (by simp) (.skipNewlines hf)

theorem gives_for (hF : F.Calls n) :
    Gives F (fun s => s.start = p) p Grammar.for_ fun s r x =>
      Reads .byText (n + 1) [.part .for_] s r [x] := by
  have hm : Makes F (fun s => s.start = p) p n Grammar.for_
      (fun _ : Unit => [.word .for_, .sign .leftParen, .newlines, .part .letOrVar, .newlines,
        .sign .comma, .newlines, .part (.expression 0), .newlines, .sign .comma, .newlines,
        .part .statement, .newlines, .sign .rightParen, .part .block])
      (fun _ => .for_) :=
    .expect (by simp) <| .expect (by simp) <| .openNode fun _ => .skipNewlines <|
      .child hF rfl <| .clauseSeparator <| .child hF rfl <| .clauseSeparator <|
      .child hF rfl <| .skipNewlines <| .expect (by simp) <| .child hF rfl .closeNode
  refine hm.phrase rfl (fun _ h => h) (fun _ _ _ _ _ => ⟨.for_, trivial⟩) ?_
  rintro s r body kind xs - ⟨⟩ - -
  exact ⟨(), rfl, rfl, trivial⟩

/-- The header of a loop over a collection, with parentheses or without, and its body. -/
def forEachItems (parenthesized : Bool) (name : String) : List Item :=
  if parenthesized then
    [.identifier name, .word .in_, .part (.expression 0), .sign .rightParen, .part .block]
  else [.identifier name, .word .in_, .part (.expression 0), .part .block]

theorem gives_forEach (hF : F.Calls n) :
    Gives F (fun s => s.start = p) p Grammar.forEach fun s r x =>
      Reads .byText (n + 1) [.part .forEach] s r [x] := by
  have hm : Makes F (fun s => s.start = p) p n Grammar.forEach
      (fun i : Bool × String => .word .foreach ::
        if i.1 then .sign .leftParen :: forEachItems true i.2 else forEachItems false i.2)
      (fun i => .forEach i.2) := by
    refine .expect (by simp) <| .accept forEachItems (fun _ => .forEach) (by simp)
      (fun name => ⟨.identifier name, _, rfl, rfl⟩) fun parenthesized => ?_
    cases parenthesized with
    | true =>
      exact .identifier fun _ => .expect (by simp) <| .openNode fun _ => .child hF rfl <|
        .expect (by simp) <| .child hF rfl .closeNode
    | false =>
      exact .identifier fun _ => .expect (by simp) <| .openNode fun _ => .child hF rfl <|
        .child hF rfl .closeNode
  refine hm.phrase rfl (fun _ h => h) ?_ ?_
  · rintro s r ⟨_ | _, name⟩ - -
    · exact ⟨.forEach name, trivial⟩
    · exact ⟨.forEachParenthesized name, trivial⟩
  · rintro s r body kind xs - ⟨⟩ - -
    · exact ⟨(false, _), rfl, rfl, trivial⟩
    · exact ⟨(true, _), rfl, rfl, trivial⟩

theorem gives_catch (hF : F.Calls n) :
    Gives F (fun s => s.start = p) p Grammar.catchClause fun s r x =>
      Reads .byText n [.part .catch_] s r [x] := by
  have hm : Makes F (fun s => s.start = p) p n Grammar.catchClause
      (fun name => [.word .catch_, .sign .leftParen, .identifier name, .sign .rightParen,
        .part .block]) .catch_ :=
    .expect (by simp) <| .expect (by simp) <| .identifier fun _ => .expect (by simp) <|
      .openNode fun _ => .child hF rfl .closeNode
  refine hm.phrase rfl (fun _ h => h) (fun _ _ name _ _ => ⟨.catch_ name, trivial⟩) ?_
  rintro s r body kind xs - ⟨⟩ - -
  exact ⟨_, rfl, rfl, trivial⟩

theorem gives_finally (hF : F.Calls n) :
    Gives F (fun s => s.start = p) p Grammar.finallyClause fun s r x =>
      Reads .byText n [.part .finally_] s r [x] := by
  have hm : Makes F (fun s => s.start = p) p n Grammar.finallyClause
      (fun _ : Unit => [.word .finally_, .part .block]) (fun _ => .finally_) :=
    .expect (by simp) <| .openNode fun _ => .child hF rfl .closeNode
  refine hm.phrase rfl (fun _ h => h) (fun _ _ _ _ _ => ⟨.finally_, trivial⟩) ?_
  rintro s r body kind xs - ⟨⟩ - -
  exact ⟨(), rfl, rfl, trivial⟩

/-- A clause that is read if its keyword comes next. -/
theorem Fills.optionalClause {node : NodeId} {keyword : Keyword} {clause : Reading NodeId}
    {phrase : Phrase} (hsingle : phrase.isSingle)
    (hclause : ∀ q, Gives F (fun s => s.start = q) q clause fun s r x =>
      Reads .byText n [.part phrase] s r [x]) :
    Fills F P p (.under node) (Grammar.optionalClause node keyword clause) fun s r b xs =>
      (s.kind = .keyword keyword ∧ b = true ∧ Reads .byText n [.part phrase] s r xs) ∨
        (s.kind ≠ .keyword keyword ∧ b = false ∧ r = s ∧ xs = []) := by
  refine .peek fun k => ?_
  split
  · next hk =>
    have hframed := Gives.framed (p := p) fun q =>
      (hclause q).weaken fun s (hs : (P s ∧ s.kind = k) ∧ s.start = q) => hs.2
    have hattach := (hframed.attach : Fills F _ p (.under node) _ _).bind fun _ => Fills.done true
    rw [bind_assoc] at hattach
    refine hattach.congr fun s r b xs hs => ⟨?_, ?_⟩
    · rintro ⟨_, _, _, _, ⟨x, hx, rfl⟩, ⟨rfl, rfl, rfl⟩, rfl⟩
      exact .inl ⟨hs.2.trans hk, rfl, hx⟩
    · rintro (⟨-, rfl, hxs⟩ | ⟨hne, -⟩)
      · obtain ⟨x, rfl⟩ := hxs.exists_single hsingle
        exact ⟨(), r, [x], [], ⟨x, hxs, rfl⟩, ⟨rfl, rfl, rfl⟩, rfl⟩
      · exact absurd (hs.2.trans hk) hne
  · next hk =>
    refine (Fills.done false).congr fun s r b xs hs => ⟨?_, ?_⟩
    · rintro ⟨rfl, rfl, rfl⟩
      exact .inr ⟨by rw [hs.2]; exact hk, rfl, rfl, rfl⟩
    · rintro (⟨h, -⟩ | ⟨-, rfl, rfl, rfl⟩)
      · exact absurd (hs.2.symm.trans h) hk
      · exact ⟨rfl, rfl, rfl⟩

/-- The clauses behind the block of a `try`: those of the two that there are. -/
def clauses : Bool × Bool → List Item
  | (caught, cleaned) =>
    (if caught then [.part .catch_] else []) ++ if cleaned then [.part .finally_] else []

/-- There is a clause, and a `catch` is followed by a `finally` if it can be. -/
def clausesGuard : Bool × Bool → Reader → Prop
  | (caught, cleaned), r =>
    (caught || cleaned) ∧ (cleaned = false → r.kind ≠ .keyword .finally_)

theorem ends_clauses (hF : F.Calls n) {node : NodeId} :
    Ends F (fun _ => True) p n node .try_ (do
      let caught ← Grammar.optionalClause node .catch_ Grammar.catchClause
      let cleaned ← Grammar.optionalClause node .finally_ Grammar.finallyClause
      if caught || cleaned then closeNode node
      else reject [.token (.keyword .catch_), .token (.keyword .finally_)])
      clauses (fun _ => .try_) clausesGuard := by
  have hlast : ∀ b : Bool, Closes F (fun _ => True) p node .try_
      (if b then closeNode node
        else reject [.token (.keyword .catch_), .token (.keyword .finally_)])
      fun s r x => b ∧ r = s ∧ x = .mk .try_ ⟨p, s.lastEnd⟩ [] := by
    intro b
    cases b with
    | true => exact Closes.closeNode.congr fun s r x _ => by simp
    | false => exact .reject _ fun s r x _ => by simp
  refine ((Fills.optionalClause rfl fun q => gives_catch hF).closes fun caught =>
    (Fills.optionalClause rfl fun q => gives_finally hF).closes fun cleaned =>
      hlast (caught || cleaned)).congr fun s r x _ => ?_
  constructor
  · rintro ⟨caught, s₁, xs, _, hcatch, ⟨cleaned, s₂, ys, _, hfinally, ⟨hany, rfl, rfl⟩, rfl⟩, rfl⟩
    refine ⟨(caught, cleaned), ⟨hany, ?_⟩, xs ++ ys, ?_, ?_⟩
    · rcases hfinally with ⟨-, rfl, -⟩ | ⟨hne, rfl, rfl, -⟩
      · nofun
      · exact fun _ => hne
    · rcases hcatch with ⟨-, rfl, hxs⟩ | ⟨-, rfl, rfl, rfl⟩
      · rcases hfinally with ⟨-, rfl, hys⟩ | ⟨-, rfl, rfl, rfl⟩
        · exact reads_part_append.mpr ⟨_, _, _, hxs, hys, rfl⟩
        · simpa [clauses] using hxs
      · rcases hfinally with ⟨-, rfl, hys⟩ | ⟨-, rfl, rfl, rfl⟩
        · exact hys
        · cases hany
    · simp
  · rintro ⟨⟨_ | _, _ | _⟩, ⟨hany, hne⟩, xs, hxs, rfl⟩
    · cases hany
    · have hk : s.kind = .keyword .finally_ := by
        simpa [Item.begins, Phrase.begins] using hxs.begins
      exact ⟨false, s, [], _, .inr ⟨by simp [hk], rfl, rfl, rfl⟩, ⟨true, r, xs, _,
        .inl ⟨hk, rfl, hxs⟩, ⟨rfl, rfl, rfl⟩, rfl⟩, by simp⟩
    · have hk : s.kind = .keyword .catch_ := by
        simpa [Item.begins, Phrase.begins] using hxs.begins
      exact ⟨true, r, xs, _, .inl ⟨hk, rfl, hxs⟩, ⟨false, r, [], _,
        .inr ⟨hne rfl, rfl, rfl, rfl⟩, ⟨rfl, rfl, rfl⟩, rfl⟩, by simp⟩
    · obtain ⟨s₁, ys, zs, hys, hzs, rfl⟩ := reads_part_append.mp hxs
      have hk : s.kind = .keyword .catch_ := by
        simpa [Item.begins, Phrase.begins] using hys.begins
      have hk₁ : s₁.kind = .keyword .finally_ := by
        simpa [Item.begins, Phrase.begins] using hzs.begins
      exact ⟨true, s₁, ys, _, .inl ⟨hk, rfl, hys⟩, ⟨true, r, zs, _, .inl ⟨hk₁, rfl, hzs⟩,
        ⟨rfl, rfl, rfl⟩, rfl⟩, by simp⟩

theorem gives_try (hF : F.Calls n) :
    Gives F (fun s => s.start = p) p Grammar.try_ fun s r x =>
      Reads .byText (n + 1) [.part .try_] s r [x] := by
  have hm : Makes F (fun s => s.start = p) p n Grammar.try_
      (fun i => .word .try_ :: .part .block :: clauses i) (fun _ => .try_) clausesGuard :=
    .expect (by simp) <| .openNode fun _ => .child hF rfl <| ends_clauses hF
  refine hm.phrase rfl (fun _ h => h) ?_ ?_
  · rintro s r ⟨_ | _, _ | _⟩ - ⟨hany, hne⟩
    · cases hany
    · exact ⟨.tryFinally, trivial⟩
    · exact ⟨.tryCatch, hne rfl⟩
    · exact ⟨.tryCatchFinally, trivial⟩
  · rintro s r body kind xs - ⟨⟩ hsettles -
    · exact ⟨(true, false), rfl, rfl, rfl, fun _ => hsettles⟩
    · exact ⟨(true, true), rfl, rfl, rfl, nofun⟩
    · exact ⟨(false, true), rfl, rfl, rfl, nofun⟩

/-! ## Blocks -/

theorem gives_block (hF : F.Calls n) :
    Gives F (fun s => s.start = p) p Grammar.block fun s r x =>
      Reads .byText (n + 1) [.part .block] s r [x] := by
  have hm : Makes F (fun s => s.start = p) p n Grammar.block
      (fun _ : Unit => [.sign .leftBrace, .part (.lines .statements)]) (fun _ => .block) := by
    refine .expect (by simp) <| .openNode fun node => .part (Fills.lines (.lineRound ?_))
      (fun _ _ _ => exists_const _) fun _ => .closeNode
    refine .peek fun k => ?_
    split
    · exact .lineEnd fun s hs => hs.2
    · refine .reject _ fun s r b xs hs h => ?_
      rcases h with ⟨hk, -⟩ | ⟨-, s₁, hxs, -⟩
      · simp [hs.2] at hk
      · have := hxs.begins
        rw [hs.2] at this
        cases this
    · next hbrace hend => exact .line hF rfl fun s hs hk => hbrace (hs.2.symm.trans hk)
  refine hm.phrase rfl (fun _ h => h) (fun _ _ _ _ _ => ⟨.block, trivial⟩) ?_
  rintro s r body kind xs - ⟨⟩ - -
  exact ⟨(), rfl, rfl, trivial⟩

/-! ## Any statement -/

/-- A statement that its first token tells. -/
theorem gives_formOfKind (hF : F.Calls n) {rule : Rule} {form : Phrase}
    (h : rule.phrase? = some form) (hform : form ∈ Phrase.statementForms) {k : TokenKind}
    (hP : ∀ s, P s → s.kind = k)
    (hother : ∀ other ∈ Phrase.statementForms, other ≠ form → other.begins k = false)
    (hk : k ≠ .keyword .break_ ∧ k ≠ .keyword .continue_ ∧ k ≠ .identifier) :
    Gives F P p (enter rule) fun s r x => Reads .byText (n + 1) [.part .statement] s r [x] := by
  refine Gives.pass hF h rfl (.statement hform) ?_ ?_
  · intro s r hs
    have hne : s.kind ≠ .identifier := fun he => hk.2.2 ((hP s hs).symm.trans he)
    unfold Phrase.Settles
    split
    all_goals first | trivial | exact fun he => hne he.1
  · intro s r body kind xs hs alt _ hxs
    cases alt with
    | @statement other hmem =>
      by_cases he : other = form
      · exact ⟨by rw [he], rfl⟩
      · have := hxs.begins
        rw [hP s hs, Item.begins, hother other hmem he] at this
        cases this
    | break_ => exact absurd ((hP s hs).symm.trans (reads_token_iff.mp hxs).2.1) hk.1
    | continue_ => exact absurd ((hP s hs).symm.trans (reads_token_iff.mp hxs).2.1) hk.2.1

/-- Among the statements that begin with an identifier, an assignment is told by the
equals sign behind it. -/
theorem gives_statementOfName (hF : F.Calls n) :
    Gives F (fun s => s.kind = .identifier) p (do
      if (← peekBehind) = .mark .assign then enter .assignment else enter (.expression 0))
      fun s r x => Reads .byText (n + 1) [.part .statement] s r [x] := by
  have hforms : ∀ form ∈ Phrase.statementForms, form.begins .identifier →
      form = .assignment ∨ form = .expression 0 := by decide
  refine .peekBehind fun k => ?_
  split
  · next hk =>
    refine Gives.pass hF rfl rfl (.statement (by simp [Phrase.statementForms])) (fun _ _ _ => trivial) ?_
    rintro s r body kind xs ⟨hs, hbehind⟩ alt hsettles hxs
    cases alt with
    | @statement form hmem =>
      have := hxs.begins
      rw [hs] at this
      rcases hforms form hmem this with rfl | rfl
      · exact ⟨rfl, rfl⟩
      · exact absurd ⟨hs, hbehind.trans hk⟩ hsettles
    | break_ => simp [hs] at hxs
    | continue_ => simp [hs] at hxs
  · next hk =>
    refine Gives.pass hF rfl rfl (.statement (by simp [Phrase.statementForms])) ?_ ?_
    · rintro s r ⟨-, hbehind⟩ ⟨-, h⟩
      exact hk (hbehind.symm.trans h)
    · rintro s r body kind xs ⟨hs, hbehind⟩ alt - hxs
      cases alt with
      | @statement form hmem =>
        have := hxs.begins
        rw [hs] at this
        rcases hforms form hmem this with rfl | rfl
        · rw [reads_phrase_iff] at hxs
          obtain ⟨m, body, kind, ys, alt, -, -, hys, -⟩ := hxs
          cases alt
          simp only [reads_identifier_iff, reads_token_iff, kind_advance] at hys
          exact absurd (hbehind.symm.trans hys.2.2.1) hk
        · exact ⟨rfl, rfl⟩
      | break_ => simp [hs] at hxs
      | continue_ => simp [hs] at hxs

theorem gives_statement (hF : F.Calls n) :
    Gives F (fun s => s.start = p) p Grammar.statement fun s r x =>
      Reads .byText (n + 1) [.part .statement] s r [x] := by
  have hforms : ∀ form ∈ Phrase.statementForms, ∀ k : TokenKind,
      k = .keyword .break_ ∨ k = .keyword .continue_ → form.begins k = false := by
    rintro form hmem k (rfl | rfl)
    · exact (by decide : ∀ form ∈ Phrase.statementForms, form.begins (.keyword .break_) = false)
        form hmem
    · exact (by decide : ∀ form ∈ Phrase.statementForms,
        form.begins (.keyword .continue_) = false) form hmem
  refine .peek fun k => ?_
  split
  · exact gives_formOfKind hF rfl (by simp [Phrase.statementForms]) (fun _ h => h.2)
      (by decide) (by decide)
  · exact gives_formOfKind hF rfl (by simp [Phrase.statementForms]) (fun _ h => h.2)
      (by decide) (by decide)
  · exact (gives_statementOfName hF).weaken fun s h => h.2
  iterate 8
    exact gives_formOfKind hF rfl (by simp [Phrase.statementForms]) (fun _ h => h.2)
      (by decide) (by decide)
  · have hm : Makes F (fun s => s.start = p ∧ s.kind = .keyword .break_) p n
        (advance >>= fun _ => leaf .break_) (fun _ : Unit => [.word .break_]) (fun _ => .break_) :=
      .advance (by simp) (fun _ h => h.2) .leaf
    refine hm.phrase rfl (fun _ h => h.1) (fun _ _ _ _ _ => ⟨.break_, trivial⟩) ?_
    intro s r body kind xs hs alt _ hxs
    cases alt with
    | @statement form hmem =>
      have := hxs.begins
      rw [hs.2, Item.begins, hforms form hmem _ (.inl rfl)] at this
      cases this
    | break_ => exact ⟨(), rfl, rfl, trivial⟩
    | continue_ => simp [hs.2] at hxs
  · have hm : Makes F (fun s => s.start = p ∧ s.kind = .keyword .continue_) p n
        (advance >>= fun _ => leaf .continue_) (fun _ : Unit => [.word .continue_])
        (fun _ => .continue_) :=
      .advance (by simp) (fun _ h => h.2) .leaf
    refine hm.phrase rfl (fun _ h => h.1) (fun _ _ _ _ _ => ⟨.continue_, trivial⟩) ?_
    intro s r body kind xs hs alt _ hxs
    cases alt with
    | @statement form hmem =>
      have := hxs.begins
      rw [hs.2, Item.begins, hforms form hmem _ (.inr rfl)] at this
      cases this
    | break_ => simp [hs.2] at hxs
    | continue_ => exact ⟨(), rfl, rfl, trivial⟩
  · next hlet hvar hname hreturn hthrow hif hwhile hfor hforeach htry hcase hbreak hcontinue =>
    refine Gives.pass hF rfl rfl (.statement (by simp [Phrase.statementForms]))
      (fun s r hs h => hname (hs.2.symm.trans h.1)) ?_
    intro s r body kind xs hs alt _ hxs
    cases alt with
    | @statement form hmem =>
      have hbegins := hxs.begins
      rw [hs.2] at hbegins
      simp only [Phrase.statementForms, List.mem_cons, List.not_mem_nil, or_false] at hmem
      rcases hmem with rfl | rfl | rfl | rfl | rfl | rfl | rfl | rfl | rfl | rfl | rfl
      all_goals
        first
          | exact ⟨rfl, rfl⟩
          | simp only [Item.begins, Phrase.begins, Bool.or_eq_true, decide_eq_true_eq] at hbegins
            tauto
    | break_ => exact absurd (hs.2.symm.trans (reads_token_iff.mp hxs).2.1) hbreak
    | continue_ => exact absurd (hs.2.symm.trans (reads_token_iff.mp hxs).2.1) hcontinue

end GoloSyntax.Reading
