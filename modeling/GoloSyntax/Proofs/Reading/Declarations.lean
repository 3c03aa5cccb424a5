import GoloSyntax.Proofs.Reading.Phrases

/-! # Judging declarations

Every rule for declarations reads its phrase, provided that the rules it calls do.
-/
namespace GoloSyntax.Reading

variable {F : Site} {P : Reader → Prop} {p : Position} {T : Growth} {n : Nat}

theorem gives_moduleDeclaration :
    Gives F (fun s => s.start = p) p Grammar.moduleDeclaration fun s r x =>
      Reads .byText (n + 1) [.part .moduleDeclaration] s r [x] := by
  have hm : Makes F (fun s => s.start = p) p n Grammar.moduleDeclaration
      (fun segments => [.word .module_, .qualified segments])
      (fun segments => .module_ (dotted segments)) :=
    .expect (by simp) <| .qualifiedName fun _ => .leaf
  refine hm.phrase rfl (fun _ h => h) (fun _ _ segments _ _ => ⟨.moduleDeclaration segments,
    trivial⟩) ?_
  rintro s r body kind xs - ⟨⟩ - -
  exact ⟨_, rfl, rfl, trivial⟩

theorem gives_importDeclaration :
    Gives F (fun s => s.start = p) p Grammar.importDeclaration fun s r x =>
      Reads .byText (n + 1) [.part .importDeclaration] s r [x] := by
  have hm : Makes F (fun s => s.start = p) p n Grammar.importDeclaration
      (fun segments => [.word .import_, .qualified segments])
      (fun segments => .import_ (dotted segments)) :=
    .expect (by simp) <| .qualifiedName fun _ => .leaf
  refine hm.phrase rfl (fun _ h => h) (fun _ _ segments _ _ => ⟨.importDeclaration segments,
    trivial⟩) ?_
  rintro s r body kind xs - ⟨⟩ - -
  exact ⟨_, rfl, rfl, trivial⟩

/-! ## Functions -/

/-- A function declaration behind the word for a local one. -/
def declarationItems (name : String) : List Item :=
  [.word .function, .identifier name, .sign .assign, .part (.function false)]

theorem gives_functionDeclaration (hF : F.Calls n) :
    Gives F (fun s => s.start = p) p Grammar.functionDeclaration fun s r x =>
      Reads .byText (n + 1) [.part .functionDeclaration] s r [x] := by
  have hm : Makes F (fun s => s.start = p) p n Grammar.functionDeclaration
      (fun i : Bool × String => if i.1 then .word .local_ :: declarationItems i.2
        else declarationItems i.2) (fun i => .functionDeclaration i.2 i.1) := by
    refine .accept (fun _ => declarationItems) (fun isLocal name => .functionDeclaration name isLocal)
      (by simp) (fun name => ⟨_, _, rfl, rfl⟩) fun isLocal => .expect (by simp) <|
      .identifier fun name => .expect (by simp) <| .openNode fun node => .peek fun k => ?_
    split
    iterate 3 exact .child hF rfl .closeNode
    next hpipe hbrace harrow =>
      refine .reject fun s r _ xs hs _ hxs => ?_
      have := hxs.begins
      simp [Item.begins, Phrase.begins, hs.2] at this
      tauto
  refine hm.phrase rfl (fun _ h => h) ?_ ?_
  · rintro s r ⟨_ | _, name⟩ - -
    · exact ⟨.functionDeclaration name, trivial⟩
    · exact ⟨.localFunctionDeclaration name, trivial⟩
  · rintro s r body kind xs - ⟨⟩ - -
    · exact ⟨(false, _), rfl, rfl, trivial⟩
    · exact ⟨(true, _), rfl, rfl, trivial⟩

/-- A name that is a part of its own: a parameter or a member. -/
theorem fills_namePart (node : NodeId) (role : NameRole) (kind : String → NodeKind)
    (phrase : Phrase) (hlevel : phrase.level = 0)
    (halt : ∀ name, Alternative .byText phrase [.identifier name] (some (kind name)))
    (honly : ∀ {body k}, Alternative .byText phrase body k →
      ∃ name, body = [.identifier name] ∧ k = some (kind name))
    (hsettles : ∀ body s r, phrase.Settles body s r) (hsingle : phrase.isSingle) :
    Fills F P p (.under node) (framed (do
        let name ← identifier role
        leaf (kind name)) >>= fun id => attach node id) fun s r _ xs =>
      Reads .byText n [.part phrase] s r xs := by
  have hname : ∀ q, Gives F (fun s => P s ∧ s.start = q) q (do
      let name ← identifier role
      leaf (kind name)) fun s r x => Reads .byText n [.part phrase] s r [x] := by
    intro q
    have hm : Makes F (fun s => P s ∧ s.start = q) q n (do
        let name ← identifier role
        leaf (kind name)) (fun name => [.identifier name]) kind :=
      .identifier fun _ => .leaf
    refine hm.phrase (by omega) (fun _ h => h.2) (fun s r name _ _ => ⟨halt name, hsettles _ s r⟩)
      fun s r body k xs _ alt _ _ => ?_
    obtain ⟨name, hbody, hkind⟩ := honly alt
    exact ⟨name, hbody, hkind, trivial⟩
  refine (Gives.framed hname).attach.congr fun s r _ xs _ => ⟨?_, fun hxs => ?_⟩
  · rintro ⟨x, hx, rfl⟩
    exact hx
  · obtain ⟨x, rfl⟩ := hxs.exists_single hsingle
    exact ⟨x, hxs, rfl⟩

theorem reads_parameters_iff {varargs : Bool} {s r : Reader} {zs : List Construct} :
    Reads .byText n [.part (.parameters varargs)] s r zs ↔ ∃ s₁ xs,
      Reads .byText n [.part .parameter] s s₁ xs ∧
        ((varargs = false ∧ r = s₁ ∧ zs = xs) ∨
          (varargs = true ∧ s₁.kind = .mark .ellipsis ∧ r = s₁.advance ∧ zs = xs) ∨
          (s₁.kind = .mark .comma ∧ ∃ ys, Reads .byText n [.part (.parameters varargs)] s₁.advance
            r ys ∧ zs = xs ++ ys)) := by
  rw [reads_phrase_iff]
  constructor
  · rintro ⟨m, body, kind, zs, alt, hm, -, hzs, rfl⟩
    obtain rfl : m = n := hm
    cases alt with
    | parametersLast => exact ⟨r, zs, hzs, .inl ⟨rfl, rfl, rfl⟩⟩
    | parametersVarargs =>
      obtain ⟨s₁, xs, ys, hxs, hys, rfl⟩ := reads_part_append.mp hzs
      obtain ⟨-, hk, hnil⟩ := reads_token_iff.mp hys
      obtain ⟨rfl, rfl⟩ := reads_nil_iff.mp hnil
      exact ⟨s₁, xs, hxs, .inr (.inl ⟨rfl, hk, rfl, by simp [wrap]⟩)⟩
    | parametersMore =>
      obtain ⟨s₁, xs, ys, hxs, hys, rfl⟩ := reads_part_append.mp hzs
      obtain ⟨-, hk, hys⟩ := reads_token_iff.mp hys
      exact ⟨s₁, xs, hxs, .inr (.inr ⟨hk, ys, hys, rfl⟩)⟩
  · rintro ⟨s₁, xs, hxs, ⟨rfl, rfl, rfl⟩ | ⟨rfl, hk, rfl, rfl⟩ | ⟨hk, ys, hys, rfl⟩⟩
    · exact ⟨n, _, none, zs, .parametersLast, rfl, trivial, hxs, rfl⟩
    · exact ⟨n, _, none, zs, .parametersVarargs, rfl, trivial,
        reads_part_append.mpr ⟨s₁, zs, [], hxs, .token (by simp) hk .nil, by simp⟩, rfl⟩
    · exact ⟨n, _, none, _, .parametersMore varargs, rfl, trivial,
        reads_part_append.mpr ⟨s₁, xs, ys, hxs, .token (by simp) hk hys, rfl⟩, rfl⟩

/-- What comes behind a parameter. -/
def ParameterEnd (s r : Reader) (b : Round Unit Bool) : Prop :=
  (s.kind = .mark .comma ∧ b = .again () ∧ r = s.advance) ∨
    (s.kind = .mark .ellipsis ∧ s.advance.kind = .mark .pipe ∧ b = .stop true ∧ r = s.advance) ∨
    (s.kind = .mark .pipe ∧ b = .stop false ∧ r = s)

theorem fills_parameterEnd : Fills F P p T (do
    match ← peek with
    | .mark .comma =>
      advance
      return .again ()
    | .mark .ellipsis =>
      advance
      if (← peek) = .mark .pipe then return .stop true else reject [.token (.mark .pipe)]
    | .mark .pipe => return .stop false
    | _ => reject [.token (.mark .comma), .token (.mark .ellipsis), .token (.mark .pipe)])
    fun s r b xs => xs = [] ∧ ParameterEnd s r b := by
  refine .peek fun k => ?_
  split
  · refine (Fills.advance.bind fun _ => Fills.done (Round.again ())).congr fun s r b xs hs => ?_
    constructor
    · rintro ⟨_, _, _, _, ⟨rfl, -, rfl⟩, ⟨rfl, rfl, rfl⟩, rfl⟩
      exact ⟨rfl, .inl ⟨hs.2, rfl, rfl⟩⟩
    · rintro ⟨rfl, ⟨-, rfl, rfl⟩ | ⟨h, -⟩ | ⟨h, -⟩⟩
      · exact ⟨(), _, [], [], ⟨rfl, rfl, rfl⟩, ⟨rfl, rfl, rfl⟩, rfl⟩
      · simp [hs.2] at h
      · simp [hs.2] at h
  · have hpipe : Fills F (fun _ => True) p T (do
        if (← peek) = .mark .pipe then return .stop true else reject [.token (.mark .pipe)])
        fun s r (b : Round Unit Bool) xs => s.kind = .mark .pipe ∧ r = s ∧ b = .stop true ∧ xs = [] := by
      refine .peek fun k => ?_
      split
      · next hk => exact (Fills.done _).congr fun s r b xs hs => by simp [hs.2, hk]
      · next hk => exact .reject _ fun s r b xs hs h => hk (hs.2.symm.trans h.1)
    refine (Fills.advance.bind fun _ => hpipe).congr fun s r b xs hs => ?_
    constructor
    · rintro ⟨_, _, _, _, ⟨rfl, -, rfl⟩, ⟨hk, rfl, rfl, rfl⟩, rfl⟩
      exact ⟨rfl, .inr (.inl ⟨hs.2, hk, rfl, rfl⟩)⟩
    · rintro ⟨rfl, ⟨h, -⟩ | ⟨-, hk, rfl, rfl⟩ | ⟨h, -⟩⟩
      · simp [hs.2] at h
      · exact ⟨(), _, [], [], ⟨rfl, rfl, rfl⟩, ⟨hk, rfl, rfl, rfl⟩, rfl⟩
      · simp [hs.2] at h
  · refine (Fills.done (Round.stop false)).congr fun s r b xs hs => ?_
    simp [ParameterEnd, hs.2]
    tauto
  · next hcomma hellipsis hpipe =>
    refine .reject _ ?_
    rintro s r b xs hs ⟨-, ⟨h, -⟩ | ⟨h, -⟩ | ⟨h, -⟩⟩
    · exact hcomma (hs.2.symm.trans h)
    · exact hellipsis (hs.2.symm.trans h)
    · exact hpipe (hs.2.symm.trans h)

/-- Parameters, with the closing bar next. -/
theorem fills_parameters {function : NodeId} :
    Fills F P p (.under function) (Grammar.parameters function) fun s r varargs xs =>
      r.kind = .mark .pipe ∧ ((s.kind = .mark .pipe ∧ varargs = false ∧ r = s ∧ xs = []) ∨
        Reads .byText n [.part (.parameters varargs)] s r xs) := by
  refine .peek fun k => ?_
  split
  · next hk =>
    refine (Fills.done false).congr fun s r varargs xs hs => ?_
    constructor
    · rintro ⟨rfl, rfl, rfl⟩
      exact ⟨hs.2.trans hk, .inl ⟨hs.2.trans hk, rfl, rfl, rfl⟩⟩
    · rintro ⟨-, ⟨-, rfl, rfl, rfl⟩ | hxs⟩
      · exact ⟨rfl, rfl, rfl⟩
      · have := hxs.begins
        rw [hs.2, hk] at this
        cases this
  · next hk =>
    have hround := (fills_namePart (F := F) (P := fun _ => True) (p := p) (n := n) function
      .parameter .parameter .parameter rfl .parameter
      (fun h => by cases h; exact ⟨_, rfl, rfl⟩) (fun _ _ _ => trivial) rfl).bind
      fun _ => fills_parameterEnd
    rw [bind_assoc] at hround
    refine (Fills.repeating (A := fun _ s r varargs xs =>
      r.kind = .mark .pipe ∧ Reads .byText n [.part (.parameters varargs)] s r xs)
      (fun _ => hround) ?_ ?_ ()).congr ?_
    · intro _ s r varargs zs
      rw [reads_parameters_iff]
      constructor
      · rintro ⟨hr, s₁, xs, hxs, ⟨rfl, rfl, rfl⟩ | ⟨rfl, hk, rfl, rfl⟩ | ⟨hk, ys, hys, rfl⟩⟩
        · exact .inl ⟨(), r, zs, [], hxs, ⟨rfl, .inr (.inr ⟨hr, rfl, rfl⟩)⟩, by simp⟩
        · exact .inl ⟨(), s₁, zs, [], hxs, ⟨rfl, .inr (.inl ⟨hk, hr, rfl, rfl⟩)⟩, by simp⟩
        · exact .inr ⟨(), _, xs, ys, ⟨(), s₁, xs, [], hxs, ⟨rfl, .inl ⟨hk, rfl, rfl⟩⟩, by simp⟩,
            ⟨hr, hys⟩, rfl⟩
      · rintro (⟨_, s₁, xs, _, hxs, ⟨rfl, hend⟩, rfl⟩ |
          ⟨_, s₂, _, ys, ⟨_, s₁, xs, _, hxs, ⟨rfl, hend⟩, rfl⟩, ⟨hr, hys⟩, rfl⟩)
        · rcases hend with ⟨-, h, -⟩ | ⟨hk, hpipe, h, rfl⟩ | ⟨hk, h, rfl⟩
          · cases h
          · cases h
            exact ⟨hpipe, s₁, xs, hxs, .inr (.inl ⟨rfl, hk, rfl, by simp⟩)⟩
          · cases h
            exact ⟨hk, r, xs, hxs, .inl ⟨rfl, rfl, by simp⟩⟩
        · rcases hend with ⟨hk, -, rfl⟩ | ⟨-, -, h, -⟩ | ⟨-, h, -⟩
          · exact ⟨hr, s₁, xs, hxs, .inr (.inr ⟨hk, ys, hys, by simp⟩)⟩
          · cases h
          · cases h
    · rintro _ s _ r _ ⟨_, s₁, xs, _, hxs, ⟨rfl, hend⟩, rfl⟩
      rcases hend with ⟨-, -, rfl⟩ | ⟨-, -, h, -⟩ | ⟨-, h, -⟩
      · have h₁ := hxs.length_le.2 rfl
        have h₂ := s₁.length_advance_le
        omega
      · cases h
      · cases h
    · intro s r varargs xs hs
      constructor
      · rintro ⟨hr, hxs⟩
        exact ⟨hr, .inr hxs⟩
      · rintro ⟨hr, ⟨h, -⟩ | hxs⟩
        · exact absurd (hs.2.symm.trans h) hk
        · exact ⟨hr, hxs⟩

theorem reads_parameterList_iff {varargs : Bool} {s r : Reader} {xs : List Construct} :
    Reads .byText n [.part (.parameterList varargs)] s r xs ↔ s.kind = .mark .pipe ∧ ∃ s₁,
      s₁.kind = .mark .pipe ∧ r = s₁.advance ∧ ((varargs = false ∧ s₁ = s.advance ∧ xs = []) ∨
        Reads .byText n [.part (.parameters varargs)] s.advance s₁ xs) := by
  rw [reads_phrase_iff]
  constructor
  · rintro ⟨m, body, kind, zs, alt, hm, -, hzs, rfl⟩
    obtain rfl : m = n := hm
    cases alt with
    | parameterListEmpty =>
      obtain ⟨-, hk, hzs⟩ := reads_token_iff.mp hzs
      obtain ⟨-, hk', hzs⟩ := reads_token_iff.mp hzs
      obtain ⟨rfl, rfl⟩ := reads_nil_iff.mp hzs
      exact ⟨hk, _, hk', rfl, .inl ⟨rfl, rfl, rfl⟩⟩
    | parameterList =>
      obtain ⟨-, hk, hzs⟩ := reads_token_iff.mp hzs
      obtain ⟨s₁, xs, ys, hxs, hys, rfl⟩ := reads_part_append.mp hzs
      obtain ⟨-, hk', hys⟩ := reads_token_iff.mp hys
      obtain ⟨rfl, rfl⟩ := reads_nil_iff.mp hys
      exact ⟨hk, s₁, hk', rfl, .inr (by simpa [wrap] using hxs)⟩
  · rintro ⟨hk, s₁, hk', rfl, ⟨rfl, rfl, rfl⟩ | hxs⟩
    · exact ⟨n, _, none, [], .parameterListEmpty, rfl, trivial,
        .token (by simp) hk (.token (by simp) hk' .nil), rfl⟩
    · exact ⟨n, _, none, xs, .parameterList varargs, rfl, trivial, .token (by simp) hk
        (reads_part_append.mpr ⟨s₁, xs, [], hxs, .token (by simp) hk' .nil, by simp⟩), rfl⟩

/-- Parameters between bars, or nothing. -/
theorem fills_parameterList {function : NodeId} :
    Fills F P p (.under function) (Grammar.parameterList function) fun s r varargs xs =>
      Reads .byText n [.part (.parameterList varargs)] s r xs ∨
        (s.kind ≠ .mark .pipe ∧ varargs = false ∧ r = s ∧ xs = []) := by
  have hbars : Fills F (fun _ => True) p (.under function) (do
      let varargs ← Grammar.parameters function
      expect (.mark .pipe)
      return varargs) fun s r varargs xs => ∃ s₁, s₁.kind = .mark .pipe ∧ r = s₁.advance ∧
        ((varargs = false ∧ s₁ = s ∧ xs = []) ∨
          Reads .byText n [.part (.parameters varargs)] s s₁ xs) := by
    refine ((fills_parameters (n := n)).bind fun varargs => (Fills.expect _).bind fun _ =>
      Fills.done varargs).congr fun s r varargs xs _ => ?_
    constructor
    · rintro ⟨_, s₁, ys, _, ⟨hk, hys⟩, ⟨_, _, _, _, ⟨-, rfl, -, rfl⟩, ⟨rfl, rfl, rfl⟩, rfl⟩, rfl⟩
      refine ⟨s₁, hk, rfl, ?_⟩
      rcases hys with ⟨-, rfl, rfl, rfl⟩ | hys
      · exact .inl ⟨rfl, rfl, rfl⟩
      · exact .inr (by simpa using hys)
    · rintro ⟨s₁, hk, rfl, hxs⟩
      refine ⟨varargs, s₁, xs, [], ⟨hk, ?_⟩, ⟨(), _, [], [], ⟨hk, rfl, rfl, rfl⟩, ⟨rfl, rfl, rfl⟩,
        rfl⟩, by simp⟩
      rcases hxs with ⟨rfl, rfl, rfl⟩ | hxs
      · exact .inl ⟨hk, rfl, rfl, rfl⟩
      · exact .inr hxs
  rw [Grammar.parameterList, accept_bind]
  refine .peek fun k => ?_
  split
  · next hk =>
    refine (Fills.advance.bind fun _ => hbars).congr fun s r varargs xs hs => ?_
    rw [reads_parameterList_iff]
    constructor
    · rintro ⟨_, _, _, ys, ⟨rfl, -, rfl⟩, h, rfl⟩
      exact .inl ⟨hs.2.trans hk, h⟩
    · rintro (⟨-, h⟩ | ⟨h, -⟩)
      · exact ⟨(), _, [], xs, ⟨rfl, rfl, rfl⟩, h, rfl⟩
      · exact absurd (hs.2.trans hk) h
  · next hk =>
    refine (Fills.done false).congr fun s r varargs xs hs => ?_
    rw [reads_parameterList_iff]
    constructor
    · rintro ⟨rfl, rfl, rfl⟩
      exact .inr ⟨fun h => hk (hs.2.symm.trans h), rfl, rfl, rfl⟩
    · rintro (⟨h, -⟩ | ⟨-, rfl, rfl, rfl⟩)
      · exact absurd (hs.2.symm.trans h) hk
      · exact ⟨rfl, rfl, rfl⟩

/-- What a function leads to: an expression or a block. -/
def bodyItems (compact : Bool) : List Item :=
  if compact then [.sign .arrow, .newlines, .part (.expression 0)] else [.part .block]

theorem ends_body (hF : F.Calls n) {function : NodeId} {kind : NodeKind} (varargs : Bool) :
    Ends F (fun _ => True) p n function kind (do
      match ← peek with
      | .mark .leftBrace =>
        child function .block
        setKind function (.function varargs false)
        closeNode function
      | .mark .arrow =>
        advance
        skipNewlines
        child function (.expression 0)
        setKind function (.function varargs true)
        closeNode function
      | _ => reject [.token (.mark .leftBrace), .token (.mark .arrow)])
      bodyItems (fun compact => .function varargs compact) := by
  refine .peek fun k => ?_
  split
  · refine .select (fun _ => false) (.child hF rfl <| .setKind .closeNode) ?_
    rintro s r (_ | _) xs hs - hxs
    · exact ⟨(), rfl⟩
    · simp [bodyItems, hs.2] at hxs
  · refine .select (fun _ => true) (.advance (by simp) (fun s hs => hs.2) <| .skipNewlines <|
      .child hF rfl <| .setKind .closeNode) ?_
    rintro s r (_ | _) xs hs - hxs
    · have := hxs.begins
      rw [hs.2] at this
      cases this
    · exact ⟨(), rfl⟩
  · next hbrace harrow =>
    refine .reject ?_
    rintro s r (_ | _) xs hs - hxs
    · have := hxs.begins
      simp [Item.begins, Phrase.begins, hs.2] at this
      exact hbrace this
    · exact harrow (hs.2.symm.trans (reads_token_iff.mp hxs).2.1)

/-- The alternatives of a function: with parameters between bars or without, and what it
leads to. -/
def functionItems : Option Bool × Bool → List Item
  | (none, compact) => bodyItems compact
  | (some varargs, compact) => .part (.parameterList varargs) :: bodyItems compact

theorem gives_function (hF : F.Calls n) :
    Gives F (fun s => s.start = p) p Grammar.function fun s r x =>
      Reads .byText (n + 1) [.part (.function false)] s r [x] := by
  have hm : Makes F (fun s => s.start = p) p n Grammar.function functionItems
      (fun i => .function (i.1.getD false) i.2) := by
    refine .openNode fun node => ?_
    refine ((fills_parameterList (n := n)).closes fun varargs => ends_body hF varargs).congr
      fun s r x _ => ?_
    constructor
    · rintro ⟨varargs, s₁, xs, _, hxs, ⟨compact, -, ys, hys, rfl⟩, rfl⟩
      rcases hxs with hxs | ⟨-, rfl, rfl, rfl⟩
      · exact ⟨(some varargs, compact), trivial, xs ++ ys,
          reads_part_append.mpr ⟨s₁, xs, ys, hxs, hys, rfl⟩, rfl⟩
      · exact ⟨(none, compact), trivial, ys, hys, rfl⟩
    · rintro ⟨⟨_ | varargs, compact⟩, -, zs, hzs, rfl⟩
      · have hpipe : s.kind ≠ .mark .pipe := by
          intro hk
          cases compact with
          | true => exact absurd (hk.symm.trans (reads_token_iff.mp hzs).2.1) (by simp)
          | false =>
            have := Reads.begins hzs
            rw [hk] at this
            cases this
        exact ⟨false, s, [], _, .inr ⟨hpipe, rfl, rfl, rfl⟩, ⟨compact, trivial, zs, hzs, rfl⟩, rfl⟩
      · obtain ⟨s₁, xs, ys, hxs, hys, rfl⟩ := reads_part_append.mp hzs
        exact ⟨varargs, s₁, xs, _, .inl hxs, ⟨compact, trivial, ys, hys, rfl⟩, rfl⟩
  refine hm.phrase rfl (fun _ h => h) ?_ ?_
  · rintro s r ⟨_ | varargs, _ | _⟩ - -
    · exact ⟨.functionBlock, trivial⟩
    · exact ⟨.functionArrow false, trivial⟩
    · exact ⟨.functionParametersBlock false varargs, trivial⟩
    · exact ⟨.functionParametersArrow false varargs, trivial⟩
  · rintro s r body kind xs - ⟨⟩ - -
    · exact ⟨(none, false), rfl, rfl, trivial⟩
    · exact ⟨(none, true), rfl, rfl, trivial⟩
    · exact ⟨(some _, false), rfl, rfl, trivial⟩
    · exact ⟨(some _, true), rfl, rfl, trivial⟩

/-! ## Augmentations and structures -/

theorem gives_augmentation (hF : F.Calls n) :
    Gives F (fun s => s.start = p) p Grammar.augmentation fun s r x =>
      Reads .byText (n + 1) [.part .augmentation] s r [x] := by
  have hm : Makes F (fun s => s.start = p) p n Grammar.augmentation
      (fun segments => [.word .augment, .qualified segments, .sign .leftBrace,
        .part (.lines .functions)]) (fun segments => .augmentation (dotted segments)) := by
    refine .expect (by simp) <| .qualifiedName fun target => .openNode fun node =>
      .expect (by simp) <| .part (Fills.lines (.lineRound ?_)) (fun _ _ _ => exists_const _)
        fun _ => .closeNode
    refine .peek fun k => ?_
    split
    · exact .lineEnd fun s hs => hs.2
    · exact .line hF rfl fun s hs => by simp [hs.2]
    · exact .line hF rfl fun s hs => by simp [hs.2]
    · next hbrace hfunction hlocal =>
      refine .reject _ fun s r b xs hs h => ?_
      rcases h with ⟨hk, -⟩ | ⟨-, s₁, hxs, -⟩
      · exact hbrace (hs.2.symm.trans hk)
      · have := hxs.begins
        simp [LineForm.element, Item.begins, Phrase.begins, hs.2] at this
        tauto
  refine hm.phrase rfl (fun _ h => h) (fun _ _ segments _ _ => ⟨.augmentation segments,
    trivial⟩) ?_
  rintro s r body kind xs - ⟨⟩ - -
  exact ⟨_, rfl, rfl, trivial⟩

theorem reads_members_iff {s r : Reader} {zs : List Construct} :
    Reads .byText n [.part .members] s r zs ↔
      SeparatedParts n .member .rightBrace [.part .members] s.skipNewlines r zs := by
  rw [reads_phrase_iff, separatedParts_iff]
  constructor
  · rintro ⟨m, body, kind, zs, alt, hm, -, hzs, rfl⟩
    obtain rfl : m = n := hm
    cases alt with
    | membersMore => exact .inr (reads_newlines_iff.mp hzs)
    | membersLast => exact .inl (reads_newlines_iff.mp hzs)
  · rintro (h | h)
    · exact ⟨n, _, none, zs, .membersLast, rfl, trivial, .newlines h, rfl⟩
    · exact ⟨n, _, none, zs, .membersMore, rfl, trivial, .newlines h, rfl⟩

/-- What comes behind a member. -/
theorem fills_memberEnd : Fills F P p T (do
    match ← peek with
    | .mark .comma =>
      advance
      return .again ()
    | .mark .rightBrace =>
      advance
      return .stop ()
    | _ => reject [.token (.mark .comma), .token (.mark .rightBrace)]) fun s r b xs =>
    xs = [] ∧ Separated .rightBrace id s r b := by
  refine .separator (by simp) ?_ rfl ?_
  · refine (Fills.advance.bind fun _ => Fills.done (Round.again ())).congr fun s r b xs _ => ?_
    simp
    tauto
  · intro k hcomma hbrace
    split
    · exact absurd rfl hcomma
    · exact absurd rfl hbrace
    · exact ⟨_, rfl⟩

theorem fills_members {node : NodeId} :
    Fills F P p (.under node) (repeatUntil do
      skipNewlines
      let member ← framed do
        let name ← identifier .member
        leaf (.member name)
      attach node member
      skipNewlines
      match ← peek with
      | .mark .comma =>
        advance
        return .again ()
      | .mark .rightBrace =>
        advance
        return .stop ()
      | _ => reject [.token (.mark .comma), .token (.mark .rightBrace)]) fun s r _ xs =>
      Reads .byText n [.part .members] s r xs := by
  have hmember := (fills_namePart (F := F) (P := fun _ => True) (p := p) (n := n) node
    .member .member .member rfl .member
    (fun h => by cases h; exact ⟨_, rfl, rfl⟩) (fun _ _ _ => trivial) rfl).bind fun _ =>
    Fills.skipNewlines.bind fun _ => fills_memberEnd
  rw [bind_assoc] at hmember
  refine .separatedParts False Reader.skipNewlines id
    ((Fills.skipNewlines.bind fun _ => hmember).congr
    fun s r b xs _ => ?_) (fun _ _ _ => by simpa using reads_members_iff) (fun _ _ _ => .rfl) rfl
    Reader.length_skipNewlines_le fun _ => Nat.le_refl _
  constructor
  · rintro ⟨_, _, _, _, ⟨rfl, -, rfl⟩, ⟨_, s₁, ys, _, hys, ⟨_, _, _, _, ⟨rfl, -, rfl⟩, ⟨rfl, hsep⟩,
      rfl⟩, rfl⟩, rfl⟩
    exact .inr ⟨s₁, by simpa using hys, hsep⟩
  · rintro (⟨h, -⟩ | ⟨s₁, hxs, hsep⟩)
    · cases h
    · exact ⟨(), _, [], xs, ⟨rfl, rfl, rfl⟩, ⟨(), s₁, xs, [], hxs, ⟨(), _, [], [], ⟨rfl, rfl, rfl⟩,
        ⟨rfl, hsep⟩, rfl⟩, by simp⟩, rfl⟩

theorem gives_struct :
    Gives F (fun s => s.start = p) p Grammar.struct fun s r x =>
      Reads .byText (n + 1) [.part .struct] s r [x] := by
  have hm : Makes F (fun s => s.start = p) p n Grammar.struct
      (fun name => [.word .struct, .identifier name, .sign .assign, .sign .leftBrace,
        .part .members]) .struct :=
    .expect (by simp) <| .identifier fun name => .expect (by simp) <| .expect (by simp) <|
      .openNode fun node => .part fills_members (fun _ _ _ => exists_const _) fun _ => .closeNode
  refine hm.phrase rfl (fun _ h => h) (fun _ _ name _ _ => ⟨.struct name, trivial⟩) ?_
  rintro s r body kind xs - ⟨⟩ - -
  exact ⟨_, rfl, rfl, trivial⟩

/-! ## Compilation units -/

/-- What one round at the top level reads, and what it says about further imports. -/
def TopLevelStep (n : Nat) (imports : Bool) (s r : Reader) (b : Round Bool Unit)
    (xs : List Construct) : Prop :=
  (s.kind = .endOfInput ∧ b = .stop () ∧ r = s ∧ xs = []) ∨
    ∃ s₁, ((s₁.kind = .newline ∧ r = s₁.skipNewlines) ∨ (s₁.kind = .endOfInput ∧ r = s₁)) ∧
      ((imports ∧ b = .again true ∧ Reads .byText n [.part .importDeclaration] s s₁ xs) ∨
        (b = .again false ∧ Reads .byText n [.part .topLevel] s s₁ xs))

/-- What is read at the top level behind line feeds. -/
def TopLevelRest (n : Nat) (imports : Bool) (s r : Reader) (xs : List Construct) : Prop :=
  (s.kind = .endOfInput ∧ r = s ∧ xs = []) ∨
    (imports ∧ Reads .byText n [.part .importDeclaration, .part (.declarations true)] s r xs) ∨
    Reads .byText n [.part .topLevel, .part (.declarations false)] s r xs

theorem reads_declarations_iff {imports : Bool} {s r : Reader} {xs : List Construct} :
    Reads .byText n [.part (.declarations imports)] s r xs ↔
      (s.kind = .newline ∧ TopLevelRest n imports s.skipNewlines r xs) ∨
        (s.kind = .endOfInput ∧ r = s ∧ xs = []) := by
  rw [reads_phrase_iff]
  constructor
  · rintro ⟨m, body, kind, xs, alt, hm, hsettles, hxs, rfl⟩
    obtain rfl : m = n := hm
    cases alt with
    | declarationsEnd =>
      obtain ⟨rfl, rfl⟩ := reads_nil_iff.mp hxs
      exact .inr ⟨hsettles, rfl, rfl⟩
    | declarationsNewlines =>
      obtain ⟨-, hk, hxs⟩ := reads_token_iff.mp hxs
      rw [reads_newlines_iff, Reader.skipNewlines_advance hk] at hxs
      obtain ⟨rfl, rfl⟩ := reads_nil_iff.mp hxs
      exact .inl ⟨hk, .inl ⟨hsettles, rfl, rfl⟩⟩
    | declarationsImport =>
      obtain ⟨-, hk, hxs⟩ := reads_token_iff.mp hxs
      rw [reads_newlines_iff, Reader.skipNewlines_advance hk] at hxs
      exact .inl ⟨hk, .inr (.inl ⟨rfl, hxs⟩)⟩
    | declarationsTopLevel =>
      obtain ⟨-, hk, hxs⟩ := reads_token_iff.mp hxs
      rw [reads_newlines_iff, Reader.skipNewlines_advance hk] at hxs
      exact .inl ⟨hk, .inr (.inr hxs)⟩
  · rintro (⟨hk, ⟨hend, rfl, rfl⟩ | ⟨rfl, h⟩ | h⟩ | ⟨hk, rfl, rfl⟩)
    · refine ⟨n, _, none, [], .declarationsNewlines imports, rfl, hend, .token (by simp) hk ?_, rfl⟩
      rw [reads_newlines_iff, Reader.skipNewlines_advance hk]
      exact .nil
    · refine ⟨n, _, none, xs, .declarationsImport, rfl, trivial, .token (by simp) hk ?_, rfl⟩
      rw [reads_newlines_iff, Reader.skipNewlines_advance hk]
      exact h
    · refine ⟨n, _, none, xs, .declarationsTopLevel imports, rfl, trivial, .token (by simp) hk ?_,
        rfl⟩
      rw [reads_newlines_iff, Reader.skipNewlines_advance hk]
      exact h
    · exact ⟨n, _, none, [], .declarationsEnd imports, rfl, hk, .nil, rfl⟩

theorem topLevelRest_of_endOfInput {imports : Bool} {s r : Reader} {xs : List Construct}
    (hs : s.kind = .endOfInput) (h : TopLevelRest n imports s r xs) : r = s ∧ xs = [] := by
  rcases h with ⟨-, rfl, rfl⟩ | ⟨-, h⟩ | h
  · exact ⟨rfl, rfl⟩
  all_goals
    have := h.begins
    rw [hs] at this
    cases this

/-- A declaration, what ends it, and the declarations behind it. -/
theorem reads_declarations_of_end {imports : Bool} {s s₁ r : Reader} {xs : List Construct}
    (hend : (s.kind = .newline ∧ s₁ = s.skipNewlines) ∨ (s.kind = .endOfInput ∧ s₁ = s)) :
    Reads .byText n [.part (.declarations imports)] s r xs ↔
      TopLevelRest n imports s₁.skipNewlines r xs := by
  rw [reads_declarations_iff]
  rcases hend with ⟨hk, rfl⟩ | ⟨hk, rfl⟩
  · simp [hk]
  · rw [Reader.skipNewlines_of_kind_ne (by simp [hk])]
    constructor
    · rintro (⟨h, -⟩ | ⟨-, h⟩)
      · exact absurd (hk.symm.trans h) (by simp)
      · exact .inl ⟨hk, h⟩
    · intro h
      exact .inr ⟨hk, topLevelRest_of_endOfInput hk h⟩

theorem exists_end_of_reads_declarations {imports : Bool} {s r : Reader} {xs : List Construct}
    (h : Reads .byText n [.part (.declarations imports)] s r xs) :
    ∃ s₁, (s.kind = .newline ∧ s₁ = s.skipNewlines) ∨ (s.kind = .endOfInput ∧ s₁ = s) := by
  rcases reads_declarations_iff.mp h with ⟨hk, -⟩ | ⟨hk, -⟩
  · exact ⟨_, .inl ⟨hk, rfl⟩⟩
  · exact ⟨_, .inr ⟨hk, rfl⟩⟩

theorem fills_topLevel (hF : F.Calls n) {rule : Rule} {phrase : Phrase} (imports : Bool)
    (h : rule.phrase? = some phrase) :
    Fills F P p (.under Tree.root) (Grammar.topLevel rule imports) fun s r b xs =>
      b = .again imports ∧ ∃ s₁, ((s₁.kind = .newline ∧ r = s₁.skipNewlines) ∨
        (s₁.kind = .endOfInput ∧ r = s₁)) ∧ Reads .byText n [.part phrase] s s₁ xs := by
  refine ((Fills.child hF h).bind fun _ => (Fills.terminator false).bind fun _ =>
    Fills.done (Round.again imports)).congr fun s r b xs _ => ?_
  constructor
  · rintro ⟨_, s₁, ys, _, hys, ⟨_, _, _, _, ⟨rfl, hend⟩, ⟨rfl, rfl, rfl⟩, rfl⟩, rfl⟩
    exact ⟨rfl, s₁, by simpa using hend, by simpa using hys⟩
  · rintro ⟨rfl, s₁, hend, hxs⟩
    exact ⟨(), s₁, xs, [], hxs, ⟨(), r, [], [], ⟨rfl, by simpa using hend⟩, ⟨rfl, rfl, rfl⟩, rfl⟩,
      by simp⟩

theorem reads_topLevel_iff {s r : Reader} {xs : List Construct} :
    Reads .byText n [.part .topLevel] s r xs ↔
      Reads .byText n [.part .functionDeclaration] s r xs ∨
        Reads .byText n [.part .augmentation] s r xs ∨ Reads .byText n [.part .struct] s r xs := by
  rw [reads_phrase_iff]
  constructor
  · rintro ⟨m, body, kind, xs, alt, hm, -, hxs, rfl⟩
    obtain rfl : m = n := hm
    cases alt with
    | topLevelFunction => exact .inl hxs
    | topLevelAugmentation => exact .inr (.inl hxs)
    | topLevelStruct => exact .inr (.inr hxs)
  · rintro (h | h | h)
    · exact ⟨n, _, none, xs, .topLevelFunction, rfl, trivial, h, rfl⟩
    · exact ⟨n, _, none, xs, .topLevelAugmentation, rfl, trivial, h, rfl⟩
    · exact ⟨n, _, none, xs, .topLevelStruct, rfl, trivial, h, rfl⟩

/-- A declaration that is no import, told by its first token. -/
theorem fills_topLevelStep (hF : F.Calls n) {rule : Rule} {phrase : Phrase} {k : TokenKind}
    {imports : Bool} (h : rule.phrase? = some phrase) (hP : ∀ s, P s → s.kind = k)
    (hk : k ≠ .keyword .import_ ∧ k ≠ .endOfInput)
    (hphrase : ∀ s r xs, s.kind = k → (Reads .byText n [.part .topLevel] s r xs ↔
      Reads .byText n [.part phrase] s r xs)) :
    Fills F P p (.under Tree.root) (Grammar.topLevel rule false) (TopLevelStep n imports) := by
  refine (fills_topLevel hF false h).congr fun s r b xs hs => ?_
  constructor
  · rintro ⟨rfl, s₁, hend, hxs⟩
    exact .inr ⟨s₁, hend, .inr ⟨rfl, (hphrase _ _ _ (hP s hs)).mpr hxs⟩⟩
  · rintro (⟨h, -⟩ | ⟨s₁, hend, ⟨-, -, hxs⟩ | ⟨rfl, hxs⟩⟩)
    · exact absurd ((hP s hs).symm.trans h) hk.2
    · have hkind : s.kind = .keyword .import_ := by
        simpa [Item.begins, Phrase.begins] using hxs.begins
      exact absurd ((hP s hs).symm.trans hkind) hk.1
    · exact ⟨rfl, s₁, hend, (hphrase _ _ _ (hP s hs)).mp hxs⟩

/-- The phrase at the top level that begins with a token of some kind. -/
theorem reads_topLevel_of_kind {s r : Reader} {xs : List Construct} :
    ((s.kind = .keyword .function ∨ s.kind = .keyword .local_) →
      (Reads .byText n [.part .topLevel] s r xs ↔
        Reads .byText n [.part .functionDeclaration] s r xs)) ∧
    (s.kind = .keyword .augment → (Reads .byText n [.part .topLevel] s r xs ↔
        Reads .byText n [.part .augmentation] s r xs)) ∧
    (s.kind = .keyword .struct → (Reads .byText n [.part .topLevel] s r xs ↔
        Reads .byText n [.part .struct] s r xs)) := by
  have hnot : ∀ phrase : Phrase, phrase.begins s.kind = false →
      ¬ Reads .byText n [.part phrase] s r xs := by
    intro phrase hphrase hxs
    have := hxs.begins
    rw [Item.begins, hphrase] at this
    cases this
  rw [reads_topLevel_iff]
  refine ⟨fun hk => ?_, fun hk => ?_, fun hk => ?_⟩
  · have h₁ := hnot .augmentation (by rcases hk with hk | hk <;> simp [Phrase.begins, hk])
    have h₂ := hnot .struct (by rcases hk with hk | hk <;> simp [Phrase.begins, hk])
    tauto
  · have h₁ := hnot .functionDeclaration (by simp [Phrase.begins, hk])
    have h₂ := hnot .struct (by simp [Phrase.begins, hk])
    tauto
  · have h₁ := hnot .functionDeclaration (by simp [Phrase.begins, hk])
    have h₂ := hnot .augmentation (by simp [Phrase.begins, hk])
    tauto

theorem fills_topLevelRound (hF : F.Calls n) (imports : Bool) :
    Fills F P p (.under Tree.root) (do
      match ← peek with
      | .endOfInput => return .stop ()
      | .keyword .function | .keyword .local_ => Grammar.topLevel .functionDeclaration false
      | .keyword .augment => Grammar.topLevel .augmentation false
      | .keyword .struct => Grammar.topLevel .struct false
      | .keyword .import_ =>
        if imports then Grammar.topLevel .importDeclaration true else reject Grammar.topLevelStarts
      | _ =>
        if imports then reject (.token (.keyword .import_) :: Grammar.topLevelStarts)
        else reject Grammar.topLevelStarts) (TopLevelStep n imports) := by
  refine .peek fun k => ?_
  split
  · refine (Fills.done (Round.stop ())).congr fun s r b xs hs => ?_
    constructor
    · rintro ⟨rfl, rfl, rfl⟩
      exact .inl ⟨hs.2, rfl, rfl, rfl⟩
    · rintro (⟨-, rfl, rfl, rfl⟩ | ⟨s₁, -, ⟨-, -, hxs⟩ | ⟨-, hxs⟩⟩)
      · exact ⟨rfl, rfl, rfl⟩
      all_goals
        have := hxs.begins
        rw [hs.2] at this
        cases this
  · exact fills_topLevelStep hF rfl (fun s hs => hs.2) (by simp)
      fun s r xs hk => reads_topLevel_of_kind.1 (.inl hk)
  · exact fills_topLevelStep hF rfl (fun s hs => hs.2) (by simp)
      fun s r xs hk => reads_topLevel_of_kind.1 (.inr hk)
  · exact fills_topLevelStep hF rfl (fun s hs => hs.2) (by simp)
      fun s r xs hk => reads_topLevel_of_kind.2.1 hk
  · exact fills_topLevelStep hF rfl (fun s hs => hs.2) (by simp)
      fun s r xs hk => reads_topLevel_of_kind.2.2 hk
  · have hnone : ∀ {s r xs}, s.kind = .keyword .import_ →
        ¬ Reads .byText n [.part .topLevel] s r xs := by
      intro s r xs hk hxs
      have := hxs.begins
      rw [hk] at this
      cases this
    cases imports with
    | true =>
      refine (fills_topLevel hF true rfl).congr fun s r b xs hs => ?_
      constructor
      · rintro ⟨rfl, s₁, hend, hxs⟩
        exact .inr ⟨s₁, hend, .inl ⟨rfl, rfl, hxs⟩⟩
      · rintro (⟨h, -⟩ | ⟨s₁, hend, ⟨-, rfl, hxs⟩ | ⟨-, hxs⟩⟩)
        · simp [hs.2] at h
        · exact ⟨rfl, s₁, hend, hxs⟩
        · exact absurd hxs (hnone hs.2)
    | false =>
      refine .reject _ fun s r b xs hs h => ?_
      rcases h with ⟨h, -⟩ | ⟨s₁, -, ⟨h, -⟩ | ⟨-, hxs⟩⟩
      · simp [hs.2] at h
      · cases h
      · exact hnone hs.2 hxs
  · next hend hfunction hlocal haugment hstruct himport =>
    have hnone : ∀ s r b xs, P s ∧ s.kind = k → ¬ TopLevelStep n imports s r b xs := by
      rintro s r b xs hs (⟨h, -⟩ | ⟨s₁, -, ⟨-, -, hxs⟩ | ⟨-, hxs⟩⟩)
      · exact hend (hs.2.symm.trans h)
      all_goals
        have := hxs.begins
        simp [Item.begins, Phrase.begins, hs.2] at this
        tauto
    cases imports <;> exact .reject _ hnone

theorem fills_topLevels (hF : F.Calls n) (imports : Bool) :
    Fills F P p (.under Tree.root) (repeating imports fun imports => do
      skipNewlines
      match ← peek with
      | .endOfInput => return .stop ()
      | .keyword .function | .keyword .local_ => Grammar.topLevel .functionDeclaration false
      | .keyword .augment => Grammar.topLevel .augmentation false
      | .keyword .struct => Grammar.topLevel .struct false
      | .keyword .import_ =>
        if imports then Grammar.topLevel .importDeclaration true else reject Grammar.topLevelStarts
      | _ =>
        if imports then reject (.token (.keyword .import_) :: Grammar.topLevelStarts)
        else reject Grammar.topLevelStarts) fun s r _ xs =>
      TopLevelRest n imports s.skipNewlines r xs := by
  have hround : ∀ imports, Fills F (fun _ => True) p (.under Tree.root) _
      fun s r b xs => TopLevelStep n imports s.skipNewlines r b xs := fun imports =>
    (Fills.skipNewlines.bind fun _ => fills_topLevelRound hF imports).congr fun s r b xs _ => by
      constructor
      · rintro ⟨_, _, _, ys, ⟨rfl, -, rfl⟩, h, rfl⟩
        exact h
      · intro h
        exact ⟨(), _, [], xs, ⟨rfl, rfl, rfl⟩, h, rfl⟩
  refine Fills.repeating (A := fun imports s r _ xs => TopLevelRest n imports s.skipNewlines r xs)
    hround ?_ ?_ imports
  · intro imports s r _ zs
    constructor
    · rintro (⟨hk, rfl, rfl⟩ | ⟨rfl, h⟩ | h)
      · exact .inl (.inl ⟨hk, rfl, rfl, rfl⟩)
      · obtain ⟨s₁, xs, ys, hxs, hys, rfl⟩ := reads_part_iff.mp h
        obtain ⟨s₂, hend⟩ := exists_end_of_reads_declarations hys
        exact .inr ⟨true, s₂, xs, ys, .inr ⟨s₁, hend, .inl ⟨rfl, rfl, hxs⟩⟩,
          (reads_declarations_of_end hend).mp hys, rfl⟩
      · obtain ⟨s₁, xs, ys, hxs, hys, rfl⟩ := reads_part_iff.mp h
        obtain ⟨s₂, hend⟩ := exists_end_of_reads_declarations hys
        exact .inr ⟨false, s₂, xs, ys, .inr ⟨s₁, hend, .inr ⟨rfl, hxs⟩⟩,
          (reads_declarations_of_end hend).mp hys, rfl⟩
    · rintro ((⟨hk, -, rfl, rfl⟩ | ⟨s₁, -, ⟨-, h, -⟩ | ⟨h, -⟩⟩) |
        ⟨imports', s₂, xs, ys, ⟨-, h, -⟩ | ⟨s₁, hend, ⟨rfl, h, hxs⟩ | ⟨h, hxs⟩⟩, hys, rfl⟩)
      · exact .inl ⟨hk, rfl, rfl⟩
      · cases h
      · cases h
      · cases h
      · cases h
        exact .inr (.inl ⟨rfl, reads_part_iff.mpr
          ⟨s₁, xs, ys, hxs, (reads_declarations_of_end hend).mpr hys, rfl⟩⟩)
      · cases h
        exact .inr (.inr (reads_part_iff.mpr
          ⟨s₁, xs, ys, hxs, (reads_declarations_of_end hend).mpr hys, rfl⟩))
  · rintro imports s imports' r xs (⟨-, h, -⟩ | ⟨s₁, hend, hxs⟩)
    · cases h
    · have h₁ := s.length_skipNewlines_le
      have h₂ := s₁.length_skipNewlines_le
      have h₃ : s₁.rest.length < s.skipNewlines.rest.length := by
        rcases hxs with ⟨-, -, hxs⟩ | ⟨-, hxs⟩ <;> exact hxs.length_le.2 rfl
      rcases hend with ⟨-, rfl⟩ | ⟨-, rfl⟩ <;> omega

theorem fills_compilationUnit (hF : F.Calls n) :
    Fills F P p (.under Tree.root) Grammar.compilationUnit fun s r id xs =>
      id = Tree.root ∧ Reads .byText (n + 1) [.part .compilationUnit] s r xs := by
  refine (Fills.skipNewlines.bind fun _ => (Fills.child hF rfl).bind fun _ =>
    (Fills.terminator false).bind fun _ => (fills_topLevels hF true).bind fun _ =>
    Fills.done Tree.root).congr fun s r id zs _ => ?_
  rw [reads_phrase_iff]
  constructor
  · rintro ⟨_, _, _, _, ⟨rfl, -, rfl⟩, ⟨_, s₁, xs, _, hxs, ⟨_, s₂, _, _, ⟨rfl, hend⟩,
      ⟨_, _, ys, _, hys, ⟨rfl, rfl, rfl⟩, rfl⟩, rfl⟩, rfl⟩, rfl⟩
    refine ⟨rfl, n, _, none, _, .compilationUnit, rfl, trivial, .newlines (reads_part_iff.mpr
      ⟨s₁, xs, ys, hxs, (reads_declarations_of_end (by simpa using hend)).mpr hys, rfl⟩), ?_⟩
    simp [wrap]
  · rintro ⟨rfl, m, body, kind, zs, alt, hm, -, hzs, rfl⟩
    obtain rfl := Nat.succ.inj hm
    cases alt with
    | compilationUnit =>
      obtain ⟨s₁, xs, ys, hxs, hys, rfl⟩ := reads_part_iff.mp (reads_newlines_iff.mp hzs)
      obtain ⟨s₂, hend⟩ := exists_end_of_reads_declarations hys
      exact ⟨(), _, [], _, ⟨rfl, rfl, rfl⟩, ⟨(), s₁, xs, ys, hxs, ⟨(), s₂, [], ys,
        ⟨rfl, by simpa using hend⟩, ⟨(), r, ys, [], (reads_declarations_of_end hend).mp hys,
          ⟨rfl, rfl, rfl⟩, by simp⟩, rfl⟩, rfl⟩, rfl⟩

end GoloSyntax.Reading
