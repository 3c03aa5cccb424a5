import GoloSyntax.Proofs.Reading.Phrases

/-! # Judging branchings

The rules for `case` and `match` and for their arms read their phrases, provided that the
rules they call do.
-/
namespace GoloSyntax.Reading

variable {F : Site} {P : Reader → Prop} {p : Position} {n : Nat}

theorem makes_branching (hF : F.Calls n) (keyword : Keyword) (kind : NodeKind)
    (form : BranchForm) :
    Makes F P p n (Grammar.branching keyword kind form)
      (fun _ : Unit => [.word keyword, .part (.arms form)]) (fun _ => kind) :=
  .expect (by simp) <| .openNode fun _ => .arms hF fun _ => .closeNode

theorem gives_case (hF : F.Calls n) :
    Gives F (fun s => s.start = p) p Grammar.case_ fun s r x =>
      Reads .byText (n + 1) [.part .case_] s r [x] := by
  refine (makes_branching hF _ _ _).phrase rfl (fun _ h => h)
    (fun _ _ _ _ _ => ⟨.case_, trivial⟩) ?_
  rintro s r body kind xs - ⟨⟩ - -
  exact ⟨(), rfl, rfl, trivial⟩

theorem gives_match (hF : F.Calls n) :
    Gives F (fun s => s.start = p) p Grammar.match_ fun s r x =>
      Reads .byText (n + 1) [.part .match_] s r [x] := by
  refine (makes_branching hF _ _ _).phrase rfl (fun _ h => h)
    (fun _ _ _ _ _ => ⟨.match_, trivial⟩) ?_
  rintro s r body kind xs - ⟨⟩ - -
  exact ⟨(), rfl, rfl, trivial⟩

/-! ## Arms -/

/-- Where an arm `when` leads. -/
def whenItems : BranchForm → List Item
  | .blocks => [.word .when_, .part (.expression 0), .part .block]
  | .values => [.word .when_, .part (.expression 0), .newlines, .word .then_, .newlines,
    .part (.expression 0)]

theorem gives_when (hF : F.Calls n) (form : BranchForm) :
    Gives F (fun s => s.start = p) p (Grammar.when_ form) fun s r x =>
      Reads .byText (n + 1) [.part (.when_ form)] s r [x] := by
  have hm : Makes F (fun s => s.start = p) p n (Grammar.when_ form)
      (fun _ : Unit => whenItems form) (fun _ => .when_) := by
    cases form with
    | blocks =>
      exact .expect (by simp) <| .openNode fun _ => .child hF rfl <| .child hF rfl .closeNode
    | values =>
      exact .expect (by simp) <| .openNode fun _ => .child hF rfl <| .skipNewlines <|
        .expect (by simp) <| .skipNewlines <| .child hF rfl .closeNode
  cases form with
  | blocks =>
    refine hm.phrase rfl (fun _ h => h) (fun _ _ _ _ _ => ⟨.whenBlock, trivial⟩) ?_
    rintro s r body kind xs - ⟨⟩ - -
    exact ⟨(), rfl, rfl, trivial⟩
  | values =>
    refine hm.phrase rfl (fun _ h => h) (fun _ _ _ _ _ => ⟨.whenValue, trivial⟩) ?_
    rintro s r body kind xs - ⟨⟩ - -
    exact ⟨(), rfl, rfl, trivial⟩

/-- Where an arm `otherwise` leads. -/
def otherwiseItems : BranchForm → List Item
  | .blocks => [.word .otherwise, .part .block]
  | .values => [.word .otherwise, .newlines, .part (.expression 0)]

theorem gives_otherwise (hF : F.Calls n) (form : BranchForm) :
    Gives F (fun s => s.start = p) p (Grammar.otherwise form) fun s r x =>
      Reads .byText (n + 1) [.part (.otherwise form)] s r [x] := by
  have hm : Makes F (fun s => s.start = p) p n (Grammar.otherwise form)
      (fun _ : Unit => otherwiseItems form) (fun _ => .otherwise) := by
    cases form with
    | blocks => exact .expect (by simp) <| .openNode fun _ => .child hF rfl .closeNode
    | values =>
      exact .expect (by simp) <| .openNode fun _ => .skipNewlines <| .child hF rfl .closeNode
  cases form with
  | blocks =>
    refine hm.phrase rfl (fun _ h => h) (fun _ _ _ _ _ => ⟨.otherwiseBlock, trivial⟩) ?_
    rintro s r body kind xs - ⟨⟩ - -
    exact ⟨(), rfl, rfl, trivial⟩
  | values =>
    refine hm.phrase rfl (fun _ h => h) (fun _ _ _ _ _ => ⟨.otherwiseValue, trivial⟩) ?_
    rintro s r body kind xs - ⟨⟩ - -
    exact ⟨(), rfl, rfl, trivial⟩

theorem reads_whens_iff {form : BranchForm} {seen : Bool} {s r : Reader}
    {xs : List Construct} :
    Reads .byText n [.part (.whens form seen)] s r xs ↔
      Reads .byText n [.part (.when_ form), .part (.whens form true)] s.skipNewlines r xs ∨
        (seen ∧ Reads .byText n [.part (.otherwise form)] s.skipNewlines r xs) := by
  rw [reads_phrase_iff]
  constructor
  · rintro ⟨m, body, kind, xs, alt, hm, -, hxs, rfl⟩
    obtain rfl : m = n := hm
    cases alt with
    | whensMore => exact .inl (reads_newlines_iff.mp hxs)
    | whensLast => exact .inr ⟨rfl, reads_newlines_iff.mp hxs⟩
  · rintro (h | ⟨rfl, h⟩)
    · exact ⟨n, _, none, xs, .whensMore form seen, rfl, trivial, .newlines h, rfl⟩
    · exact ⟨n, _, none, xs, .whensLast form, rfl, trivial, .newlines h, rfl⟩

/-- One arm. -/
def ArmStep (n : Nat) (form : BranchForm) (seen : Bool) (s r : Reader) (b : Round Bool Unit)
    (xs : List Construct) : Prop :=
  (b = .again true ∧ Reads .byText n [.part (.when_ form)] s r xs) ∨
    (seen ∧ b = .stop () ∧ Reads .byText n [.part (.otherwise form)] s r xs)

theorem fills_arm (hF : F.Calls n) {form : BranchForm} {node : NodeId} (seen : Bool) :
    Fills F P p (.under node) (do
      match ← peek with
      | .keyword .when_ =>
        child node (.when_ form)
        return .again true
      | .keyword .otherwise =>
        if seen then
          child node (.otherwise form)
          return .stop ()
        else reject [.token (.keyword .when_)]
      | _ =>
        if seen then reject [.token (.keyword .when_), .token (.keyword .otherwise)]
        else reject [.token (.keyword .when_)]) (ArmStep n form seen) := by
  refine .peek fun k => ?_
  split
  · refine ((Fills.child hF rfl).bind fun _ => Fills.done (Round.again true)).congr
      fun s r b xs hs => ?_
    constructor
    · rintro ⟨_, _, ys, _, hys, ⟨rfl, rfl, rfl⟩, rfl⟩
      exact .inl ⟨rfl, by simpa using hys⟩
    · rintro (⟨rfl, hxs⟩ | ⟨-, -, hxs⟩)
      · exact ⟨(), r, xs, [], hxs, ⟨rfl, rfl, rfl⟩, by simp⟩
      · have := hxs.begins
        rw [hs.2] at this
        cases this
  · cases seen with
    | true =>
      refine ((Fills.child hF rfl).bind fun _ => Fills.done (Round.stop ())).congr
        fun s r b xs hs => ?_
      constructor
      · rintro ⟨_, _, ys, _, hys, ⟨rfl, rfl, rfl⟩, rfl⟩
        exact .inr ⟨rfl, rfl, by simpa using hys⟩
      · rintro (⟨-, hxs⟩ | ⟨-, rfl, hxs⟩)
        · have := hxs.begins
          rw [hs.2] at this
          cases this
        · exact ⟨(), r, xs, [], hxs, ⟨rfl, rfl, rfl⟩, by simp⟩
    | false =>
      refine .reject _ fun s r b xs hs h => ?_
      rcases h with ⟨-, hxs⟩ | ⟨h, -⟩
      · have := hxs.begins
        rw [hs.2] at this
        cases this
      · cases h
  · next hwhen hotherwise =>
    have hnone : ∀ s r b xs, P s ∧ s.kind = k → ¬ ArmStep n form seen s r b xs := by
      rintro s r b xs hs (⟨-, hxs⟩ | ⟨-, -, hxs⟩)
      all_goals
        have := hxs.begins
        simp [Item.begins, Phrase.begins, hs.2] at this
        tauto
    cases seen <;> exact .reject _ hnone

theorem fills_arms (hF : F.Calls n) {form : BranchForm} {node : NodeId} :
    Fills F P p (.under node) (Grammar.arms form node) fun s r id xs =>
      id = node ∧ Reads .byText (n + 1) [.part (.arms form)] s r xs := by
  have hloop : Fills F (fun _ => True) p (.under node) (repeating false fun seen => do
      skipNewlines
      match ← peek with
      | .keyword .when_ =>
        child node (.when_ form)
        return .again true
      | .keyword .otherwise =>
        if seen then
          child node (.otherwise form)
          return .stop ()
        else reject [.token (.keyword .when_)]
      | _ =>
        if seen then reject [.token (.keyword .when_), .token (.keyword .otherwise)]
        else reject [.token (.keyword .when_)]) fun s r _ xs =>
      Reads .byText n [.part (.whens form false)] s r xs := by
    refine Fills.repeating (A := fun seen s r _ xs => Reads .byText n [.part (.whens form seen)] s r xs)
      (fun seen => Fills.skipNewlines.bind fun _ => fills_arm hF seen) ?_ ?_ false
    · intro seen s r _ zs
      rw [reads_whens_iff, reads_part_append]
      constructor
      · rintro (⟨s₁, xs, ys, hxs, hys, rfl⟩ | ⟨hseen, h⟩)
        · exact .inr ⟨true, s₁, xs, ys, ⟨(), _, [], xs, ⟨rfl, rfl, rfl⟩, .inl ⟨rfl, hxs⟩, rfl⟩, hys,
            rfl⟩
        · exact .inl ⟨(), _, [], zs, ⟨rfl, rfl, rfl⟩, .inr ⟨hseen, rfl, h⟩, rfl⟩
      · rintro (⟨_, _, _, _, ⟨rfl, -, rfl⟩, hstep, rfl⟩ |
          ⟨seen', s₁, xs, ys, ⟨_, _, _, _, ⟨rfl, -, rfl⟩, hstep, rfl⟩, hys, rfl⟩)
        · rcases hstep with ⟨h, -⟩ | ⟨hseen, -, h⟩
          · cases h
          · exact .inr ⟨hseen, h⟩
        · rcases hstep with ⟨h, hxs⟩ | ⟨-, h, -⟩
          · cases h
            exact .inl ⟨s₁, xs, ys, hxs, hys, rfl⟩
          · cases h
    · rintro seen s seen' s₁ xs ⟨_, _, _, _, ⟨rfl, -, rfl⟩, hstep, rfl⟩
      rcases hstep with ⟨-, hxs⟩ | ⟨-, h, -⟩
      · have h₁ := hxs.length_le.2 rfl
        have h₂ := s.length_skipNewlines_le
        omega
      · cases h
  refine ((Fills.expect _).bind fun _ => hloop.bind fun _ => Fills.skipNewlines.bind fun _ =>
    (Fills.expect _).bind fun _ => Fills.done node).congr fun s r id xs _ => ?_
  rw [reads_phrase_iff]
  constructor
  · rintro ⟨_, _, _, _, ⟨hk, rfl, -, rfl⟩, ⟨_, s₁, ys, _, hys, ⟨_, _, _, _, ⟨rfl, -, rfl⟩,
      ⟨_, _, _, _, ⟨hk', rfl, -, rfl⟩, ⟨rfl, rfl, rfl⟩, rfl⟩, rfl⟩, rfl⟩, rfl⟩
    refine ⟨rfl, n, _, none, _, .arms form, rfl, trivial, .token (by simp) hk ?_, rfl⟩
    exact reads_part_append.mpr
      ⟨s₁, ys, [], hys, .newlines (.token (by simp) hk' .nil), by simp⟩
  · rintro ⟨rfl, m, body, kind, zs, alt, hm, -, hzs, rfl⟩
    obtain rfl := Nat.succ.inj hm
    cases alt with
    | arms =>
      obtain ⟨-, hk, hzs⟩ := reads_token_iff.mp hzs
      obtain ⟨s₁, ys, ws, hys, hws, rfl⟩ := reads_part_append.mp hzs
      obtain ⟨-, hk', hws⟩ := reads_token_iff.mp (reads_newlines_iff.mp hws)
      obtain ⟨rfl, rfl⟩ := reads_nil_iff.mp hws
      exact ⟨(), _, [], _, ⟨hk, rfl, rfl, rfl⟩, ⟨(), s₁, ys, [], hys, ⟨(), _, [], [],
        ⟨rfl, rfl, rfl⟩, ⟨(), _, [], [], ⟨hk', rfl, rfl, rfl⟩, ⟨rfl, rfl, rfl⟩, rfl⟩, rfl⟩, rfl⟩,
        rfl⟩

end GoloSyntax.Reading
