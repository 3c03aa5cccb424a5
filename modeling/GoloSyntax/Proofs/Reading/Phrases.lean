import GoloSyntax.Proofs.Grammar.Progress
import GoloSyntax.Proofs.Reading.Nodes

/-! # Judging the phrases that rules share

`Site.Calls` is what a program may rely on when it calls a rule: at a given number of
levels, a rule reads its phrase.  The rest of this module judges names, what ends a line
and the calls themselves.
-/
namespace GoloSyntax

/-- What the text of a name stands for that is not called: a name ending in `.class`
denotes a class, any other one without a point is a reference. -/
def NameDenotes (name : String) (kind : NodeKind) : Prop :=
  match Grammar.classOf? name with
  | some class_ => kind = .classLiteral class_
  | none => ¬ name.toList.contains '.' ∧ kind = .reference name

/-- A name that is not called, by its text. -/
def Naming.byText : Naming := fun segments => NameDenotes (dotted segments)

/-- The phrase that a rule reads as one construct. -/
def Rule.phrase? : Rule → Option Phrase
  | .compilationUnit | .arms _ _ | .arguments _ | .collection _ => none
  | .moduleDeclaration => some .moduleDeclaration
  | .importDeclaration => some .importDeclaration
  | .functionDeclaration => some .functionDeclaration
  | .function => some (.function false)
  | .augmentation => some .augmentation
  | .struct => some .struct
  | .block => some .block
  | .statement => some .statement
  | .letOrVar => some .letOrVar
  | .assignment => some .assignment
  | .return_ => some .return_
  | .throw => some .throw
  | .if_ => some .if_
  | .while_ => some .while_
  | .for_ => some .for_
  | .forEach => some .forEach
  | .try_ => some .try_
  | .case_ => some .case_
  | .match_ => some .match_
  | .when_ form => some (.when_ form)
  | .otherwise form => some (.otherwise form)
  | .expression minPrecedence => some (.expression minPrecedence)
  | .unary => some .unary
  | .chain => some .chain
  | .primary => some .primary
  | .named => some .named

namespace Reading

variable {F : Site} {α β γ : Type} {P : Reader → Prop} {p : Position} {T : Growth} {n : Nat}

/-- With `n` levels left, calling a rule reads its phrase. -/
structure Site.Calls (F : Site) (n : Nat) : Prop where
  gives : ∀ {rule phrase P p}, rule.phrase? = some phrase →
    Gives F P p (Reading.enter rule) fun s r x => Reads .byText n [.part phrase] s r [x]
  arguments : ∀ {node P p}, Fills F P p (.under node) (Reading.enter (.arguments node))
    fun s r id xs => id = node ∧ Reads .byText n [.part .arguments] s r xs
  arms : ∀ {form node P p}, Fills F P p (.under node) (Reading.enter (.arms form node))
    fun s r id xs => id = node ∧ Reads .byText n [.part (.arms form)] s r xs
  /-- What begins a name has a text right away. -/
  named : ∀ {p s id s'}, F.enter .named p s = .ok (id, s') →
    ∃ text, ((s.current F.context).lexeme s.tree.symbols).text = some text
  collection : ∀ {type P p}, Gives F P p (Reading.enter (.collection type))
    fun s r x => ∃ xs, Reads .byText n [.part .collection] s r xs ∧
      x = .mk (.collection type) ⟨p, r.lastEnd⟩ xs

/-! ## Names -/

theorem kind_advance (s : Reader) : s.advance.kind = s.kindBehind := by
  obtain ⟨_ | ⟨p, _ | ⟨q, rest⟩⟩, _, _⟩ := s <;> rfl

/-- What a name goes on with, as its further segments. -/
def ContinuesWith (s r : Reader) (segments : List String) : Prop :=
  (¬ s.ContinuesName ∧ segments = [] ∧ r = s) ∨
    (s.ContinuesName ∧ Qualified s.advance r segments)

theorem qualified_cons_iff {s r : Reader} {name : String} {segments : List String} :
    Qualified s r (name :: segments) ↔
      s.next = ⟨.identifier, some name⟩ ∧ ContinuesWith s.advance r segments := by
  constructor
  · intro h
    cases h with
    | last hnext hstop => exact ⟨hnext, .inl ⟨hstop, rfl, rfl⟩⟩
    | more hnext hdot h =>
      have hbehind : s.advance.kindBehind = .identifier := by
        rw [← kind_advance]
        cases h <;> simp_all [Reader.kind]
      exact ⟨hnext, .inr ⟨⟨hdot, hbehind⟩, h⟩⟩
  · rintro ⟨hnext, ⟨hstop, rfl, rfl⟩ | ⟨hgo, h⟩⟩
    · exact .last hnext hstop
    · exact .more hnext hgo.1 h

theorem exists_cons_of_qualified {s r : Reader} {segments : List String}
    (h : Qualified s r segments) : ∃ name rest, segments = name :: rest := by
  cases h <;> exact ⟨_, _, rfl⟩

/-- One more segment of a name. -/
def nameRound (name : String) : Reading (Round String String) := do
  if (← peek) = .mark .dot then
    if (← peekBehind) = .identifier then
      Reading.advance
      let segment ← identifier .plain
      return .again (name ++ "." ++ segment)
    else return .stop name
  else return .stop name

theorem Fills.nameRound (name : String) :
    Fills F P p T (nameRound name) fun s r b xs => xs = [] ∧
      ((¬ s.ContinuesName ∧ b = .stop name ∧ r = s) ∨
        (s.ContinuesName ∧ ∃ segment, s.advance.next = ⟨.identifier, some segment⟩ ∧
          b = .again (name ++ "." ++ segment) ∧ r = s.advance.advance)) := by
  refine .peek fun k => ?_
  split
  · refine .peekBehind fun k' => ?_
    split
    · refine (Fills.advance.bind fun _ => (Fills.identifier .plain).bind fun segment =>
        .done (Round.again (name ++ "." ++ segment))).congr fun s r b xs hs => ?_
      have hgo : s.ContinuesName := ⟨by simp_all, by simp_all⟩
      constructor
      · rintro ⟨_, _, _, _, ⟨rfl, rfl, rfl⟩, ⟨segment, _, _, _, ⟨hnext, rfl, rfl⟩, ⟨rfl, rfl, rfl⟩,
          rfl⟩, rfl⟩
        exact ⟨rfl, .inr ⟨hgo, segment, hnext, rfl, rfl⟩⟩
      · rintro ⟨rfl, ⟨hstop, _⟩ | ⟨_, segment, hnext, rfl, rfl⟩⟩
        · exact absurd hgo hstop
        · exact ⟨(), s.advance, [], [], ⟨rfl, rfl, rfl⟩, ⟨segment, _, [], [], ⟨hnext, rfl, rfl⟩,
            ⟨rfl, rfl, rfl⟩, rfl⟩, rfl⟩
    · refine (Fills.done (Round.stop name)).congr fun s r b xs hs => ?_
      have hstop : ¬ s.ContinuesName := fun hgo => by simp_all [Reader.ContinuesName]
      simp [hstop]
      tauto
  · refine (Fills.done (Round.stop name)).congr fun s r b xs hs => ?_
    have hstop : ¬ s.ContinuesName := fun hgo => by simp_all [Reader.ContinuesName]
    simp [hstop]
    tauto

/-- All further segments of a name. -/
theorem Fills.nameSegments (name : String) :
    Fills F P p T (Reading.repeating name Reading.nameRound) fun s r name' xs => xs = [] ∧
      ∃ segments, ContinuesWith s r segments ∧
        name' = segments.foldl (fun name segment => name ++ "." ++ segment) name := by
  refine Fills.repeating (A := fun name s r name' xs => xs = [] ∧
    ∃ segments, ContinuesWith s r segments ∧
      name' = segments.foldl (fun name segment => name ++ "." ++ segment) name)
    (fun name => Fills.nameRound name) ?_ ?_ name
  · intro name s r name' zs
    constructor
    · rintro ⟨rfl, segments, ⟨hstop, rfl, rfl⟩ | ⟨hgo, h⟩, rfl⟩
      · exact .inl ⟨rfl, .inl ⟨hstop, rfl, rfl⟩⟩
      · obtain ⟨segment, rest, rfl⟩ := exists_cons_of_qualified h
        obtain ⟨hnext, hrest⟩ := qualified_cons_iff.mp h
        exact .inr ⟨_, _, [], [], ⟨rfl, .inr ⟨hgo, segment, hnext, rfl, rfl⟩⟩,
          ⟨rfl, rest, hrest, rfl⟩, rfl⟩
    · rintro (⟨rfl, ⟨hstop, h, rfl⟩ | ⟨_, _, _, h, _⟩⟩ | ⟨name₁, s₁, xs, ys, ⟨rfl, h⟩, ⟨rfl, h'⟩, rfl⟩)
      · cases h
        exact ⟨rfl, [], .inl ⟨hstop, rfl, rfl⟩, rfl⟩
      · cases h
      · rcases h with ⟨_, h, _⟩ | ⟨hgo, segment, hnext, h, rfl⟩
        · cases h
        · cases h
          obtain ⟨rest, hrest, rfl⟩ := h'
          exact ⟨rfl, segment :: rest, .inr ⟨hgo, qualified_cons_iff.mpr ⟨hnext, hrest⟩⟩, rfl⟩
  · rintro name s name₁ s₁ xs ⟨-, ⟨_, h, _⟩ | ⟨hgo, segment, hnext, -, rfl⟩⟩
    · cases h
    · have h₁ := Reader.length_advance_lt (s := s) (by simp [hgo.1])
      have h₂ := Reader.length_advance_le s.advance
      omega

theorem Fills.qualifiedName (role : NameRole) :
    Fills F P p T (Reading.qualifiedName role) fun s r name xs =>
      xs = [] ∧ ∃ segments, Qualified s r segments ∧ name = dotted segments := by
  have hrest : ∀ first, Fills F (fun _ => True) p T (do
      if (← Reading.peek) = .mark .dot then
        let name ← Reading.repeating first Reading.nameRound
        Reading.intern name
        return name
      else return first) fun s r name xs => xs = [] ∧ ∃ segments, ContinuesWith s r segments ∧
        name = segments.foldl (fun name segment => name ++ "." ++ segment) first := by
    intro first
    refine .peek fun k => ?_
    split
    · refine ((Fills.nameSegments first).bind fun name => (Fills.intern name).bind fun _ =>
        .done name).congr fun s r name xs _ => ?_
      constructor
      · rintro ⟨_, _, _, _, h, ⟨_, _, _, _, ⟨rfl, rfl, rfl⟩, ⟨rfl, rfl, rfl⟩, rfl⟩, rfl⟩
        simpa using h
      · rintro ⟨rfl, h⟩
        exact ⟨name, r, [], [], ⟨rfl, h⟩, ⟨(), r, [], [], ⟨rfl, rfl, rfl⟩, ⟨rfl, rfl, rfl⟩, rfl⟩,
          rfl⟩
    · next hk =>
      refine (Fills.done first).congr fun s r name xs hs => ?_
      have hstop : ¬ s.ContinuesName := fun hgo => hk (hs.2.symm.trans hgo.1)
      simp only [ContinuesWith, hstop, not_false_eq_true, true_and, false_and, or_false]
      constructor
      · rintro ⟨rfl, rfl, rfl⟩
        exact ⟨rfl, [], ⟨rfl, rfl⟩, rfl⟩
      · rintro ⟨rfl, segments, ⟨rfl, rfl⟩, rfl⟩
        exact ⟨rfl, rfl, rfl⟩
  refine ((Fills.identifier role).bind fun first => hrest first).congr fun s r name xs _ => ?_
  constructor
  · rintro ⟨first, _, _, _, ⟨hnext, rfl, rfl⟩, ⟨rfl, segments, h, rfl⟩, rfl⟩
    exact ⟨rfl, first :: segments, qualified_cons_iff.mpr ⟨hnext, h⟩, rfl⟩
  · rintro ⟨rfl, segments, h, rfl⟩
    obtain ⟨first, rest, rfl⟩ := exists_cons_of_qualified h
    obtain ⟨hnext, hrest⟩ := qualified_cons_iff.mp h
    exact ⟨first, _, [], [], ⟨hnext, rfl, rfl⟩, ⟨rfl, rest, hrest, rfl⟩, rfl⟩

/-! ## Ends of lines -/

theorem Fills.terminator (withinBraces : Bool) :
    Fills F P p T (Reading.terminator withinBraces) fun s r _ xs => xs = [] ∧
      ((s.kind = .newline ∧ r = s.skipNewlines) ∨ (s.kind = .endOfInput ∧ r = s) ∨
        (withinBraces ∧ s.kind = .mark .rightBrace ∧ r = s)) := by
  refine .peek fun k => ?_
  split
  · exact Fills.skipNewlines.congr fun s r _ xs hs => by simp [hs.2]; tauto
  · exact (Fills.done ()).congr fun s r _ xs hs => by simp [hs.2]; tauto
  · cases withinBraces with
    | true => exact (Fills.done ()).congr fun s r _ xs hs => by simp [hs.2]; tauto
    | false => exact .reject _ fun s r _ xs hs => by simp [hs.2]
  · next hnewline hend hbrace =>
    cases withinBraces
    all_goals
      refine Fills.reject _ fun s r _ xs hs => ?_
      rintro ⟨-, ⟨hk, -⟩ | ⟨hk, -⟩ | ⟨-, hk, -⟩⟩
      · exact hnewline (hs.2.symm.trans hk)
      · exact hend (hs.2.symm.trans hk)
      · exact hbrace (hs.2.symm.trans hk)

/-! ## Calls -/

theorem isSingle_of_phrase? {rule : Rule} {phrase : Phrase} (h : rule.phrase? = some phrase) :
    phrase.isSingle := by
  cases rule <;> cases h <;> rfl

/-- The construct of a rule becomes the last part of a node. -/
theorem Fills.child (hF : F.Calls n) {node : NodeId} {rule : Rule} {phrase : Phrase}
    (h : rule.phrase? = some phrase) :
    Fills F P p (.under node) (Reading.child node rule) fun s r _ xs =>
      Reads .byText n [.part phrase] s r xs := by
  refine (hF.gives h).attach.congr fun s r _ xs _ => ⟨?_, fun hxs => ?_⟩
  · rintro ⟨x, hx, rfl⟩
    exact hx
  · obtain ⟨x, rfl⟩ := hxs.exists_single (isSingle_of_phrase? h)
    exact ⟨x, hxs, rfl⟩

/-- A phrase that is read by the rule of another one: no other alternative fits. -/
theorem Gives.pass (hF : F.Calls n) {rule : Rule} {phrase inner : Phrase}
    (h : rule.phrase? = some inner) (hlevel : phrase.level = 1)
    (halt : Alternative .byText phrase [.part inner] none)
    (hsettles : ∀ s r, P s → phrase.Settles [.part inner] s r)
    (honly : ∀ s r body kind xs, P s → Alternative .byText phrase body kind →
      phrase.Settles body s r → Reads .byText n body s r xs → body = [.part inner] ∧ kind = none) :
    Gives F P p (Reading.enter rule) fun s r x => Reads .byText (n + 1) [.part phrase] s r [x] := by
  refine (hF.gives h).congr fun s r x hs => .trans ?_ reads_phrase_iff.symm
  constructor
  · intro hx
    exact ⟨n, _, none, [x], halt, by rw [hlevel], hsettles s r hs, hx, rfl⟩
  · rintro ⟨m, body, kind, xs, alt, hm, hsettles, hxs, h⟩
    rw [hlevel] at hm
    obtain rfl := Nat.succ.inj hm
    obtain ⟨rfl, rfl⟩ := honly s r body kind xs hs alt hsettles hxs
    simpa [wrap, h] using hxs

/-! ## Lines up to a closing brace -/

/-- From `s` a line ends, and `r` is where what follows it begins. -/
def EndsLine (s r : Reader) : Prop :=
  (s.kind = .newline ∧ r = s.skipNewlines) ∨ (s.kind = .endOfInput ∧ r = s) ∨
    (s.kind = .mark .rightBrace ∧ r = s)

/-- What one round of reading lines does behind line feeds. -/
def LineStep (n : Nat) (form : LineForm) (s r : Reader) (b : Round Unit Unit)
    (xs : List Construct) : Prop :=
  (s.kind = .mark .rightBrace ∧ b = .stop () ∧ r = s.advance ∧ xs = []) ∨
    (b = .again () ∧ ∃ s₁, Reads .byText n [.part form.element] s s₁ xs ∧ EndsLine s₁ r)

/-- What one round of reading lines does. -/
def LineRound (n : Nat) (form : LineForm) (s r : Reader) (b : Round Unit Unit)
    (xs : List Construct) : Prop :=
  LineStep n form s.skipNewlines r b xs

/-- A round skips line feeds first. -/
theorem Fills.lineRound {form : LineForm} {f : Unit → Reading (Round Unit Unit)}
    (hf : Fills F (fun _ => True) p T (f ()) (LineStep n form)) :
    Fills F P p T (Reading.skipNewlines >>= f) (LineRound n form) := by
  refine (Fills.skipNewlines.bind fun _ => hf).congr fun s r b xs _ => ?_
  constructor
  · rintro ⟨_, _, _, ys, ⟨rfl, -, rfl⟩, h, rfl⟩
    exact h
  · intro h
    exact ⟨(), _, [], xs, ⟨rfl, rfl, rfl⟩, h, rfl⟩

/-- The closing brace. -/
theorem Fills.lineEnd {form : LineForm} (hP : ∀ s, P s → s.kind = .mark .rightBrace) :
    Fills F P p T (do
      Reading.advance
      return .stop ()) (LineStep n form) := by
  refine (Fills.advance.bind fun _ => Fills.done (Round.stop ())).congr fun s r b xs hs => ?_
  constructor
  · rintro ⟨_, _, _, _, ⟨rfl, -, rfl⟩, ⟨rfl, rfl, rfl⟩, rfl⟩
    exact .inl ⟨hP s hs, rfl, rfl, rfl⟩
  · rintro (⟨-, rfl, rfl, rfl⟩ | ⟨-, s₁, hxs, -⟩)
    · exact ⟨(), _, [], [], ⟨rfl, rfl, rfl⟩, ⟨rfl, rfl, rfl⟩, rfl⟩
    · have := hxs.begins
      rw [hP s hs] at this
      cases form <;> cases this

theorem Fills.line (hF : F.Calls n) {node : NodeId} {rule : Rule} {form : LineForm}
    (h : rule.phrase? = some form.element) (hP : ∀ s, P s → s.kind ≠ .mark .rightBrace) :
    Fills F P p (.under node) (do
      Reading.child node rule
      Reading.terminator true
      return .again ()) (LineStep n form) := by
  refine ((Fills.child hF h).bind fun _ => (Fills.terminator true).bind fun _ =>
    Fills.done (Round.again ())).congr fun s r b xs hs => ?_
  constructor
  · rintro ⟨_, s₁, ys, _, hys, ⟨_, s₂, _, _, ⟨rfl, hend⟩, ⟨rfl, rfl, rfl⟩, rfl⟩, rfl⟩
    exact .inr ⟨rfl, s₁, by simpa using hys, by simpa [EndsLine] using hend⟩
  · rintro (⟨hk, -⟩ | ⟨rfl, s₁, hxs, hend⟩)
    · exact absurd hk (hP s hs)
    · exact ⟨(), s₁, xs, [], hxs, ⟨(), r, [], [], ⟨rfl, by simpa [EndsLine] using hend⟩,
        ⟨rfl, rfl, rfl⟩, rfl⟩, by simp⟩

theorem begins_element (form : LineForm) :
    form.element.begins (.mark .rightBrace) = false ∧ form.element.begins .endOfInput = false := by
  cases form <;> exact ⟨rfl, rfl⟩

theorem Fills.lines {form : LineForm} {round : Reading (Round Unit Unit)}
    (hround : Fills F (fun _ => True) p T round (LineRound n form)) :
    Fills F P p T (Reading.repeatUntil round) fun s r _ xs =>
      Reads .byText n [.part (.lines form)] s r xs := by
  refine Fills.repeating (A := fun _ s r _ xs => Reads .byText n [.part (.lines form)] s r xs)
    (fun _ => hround) ?_ ?_ ()
  · intro _ s r _ zs
    obtain ⟨hbrace, hend⟩ := begins_element form
    have hne : ∀ {s r xs}, Reads .byText n [.part form.element, .part (.linesTail form)] s r xs →
        s.kind ≠ .mark .rightBrace ∧ s.kind ≠ .endOfInput := by
      intro s r xs h
      have := h.begins
      exact ⟨fun hk => by simp_all [Item.begins], fun hk => by simp_all [Item.begins]⟩
    constructor
    · intro h
      rcases reads_lines_iff.mp h with ⟨hk, rfl, rfl⟩ | h
      · exact .inl (.inl ⟨hk, rfl, rfl, rfl⟩)
      · obtain ⟨s₁, xs, ys, hxs, hys, rfl⟩ := reads_part_iff.mp h
        rcases reads_linesTail_iff.mp hys with ⟨hk, rfl, rfl⟩ | ⟨hk, hys⟩
        · refine .inr ⟨(), s₁, xs, [], .inr ⟨rfl, s₁, hxs, .inr (.inr ⟨hk, rfl⟩)⟩, ?_, rfl⟩
          have hskip := Reader.skipNewlines_of_kind_ne (s := s₁) (by simp [hk])
          exact reads_lines_iff.mpr (.inl (by rw [hskip]; exact ⟨hk, rfl, rfl⟩))
        · exact .inr ⟨(), _, xs, ys, .inr ⟨rfl, s₁, hxs, .inl ⟨hk, rfl⟩⟩, hys, rfl⟩
    · rintro ((⟨hk, -, rfl, rfl⟩ | ⟨h, -⟩) |
        ⟨_, s₂, xs, ys, ⟨_, h, -⟩ | ⟨-, s₁, hxs, hends⟩, hys, rfl⟩)
      · exact reads_lines_iff.mpr (.inl ⟨hk, rfl, rfl⟩)
      · cases h
      · cases h
      · refine reads_lines_iff.mpr (.inr (reads_part_iff.mpr ⟨s₁, xs, ys, hxs, ?_, rfl⟩))
        refine reads_linesTail_iff.mpr ?_
        rcases hends with ⟨hk, rfl⟩ | ⟨hk, rfl⟩ | ⟨hk, rfl⟩
        · exact .inr ⟨hk, hys⟩
        · have hskip := Reader.skipNewlines_of_kind_ne (s := s₂) (by simp [hk])
          rcases reads_lines_iff.mp hys with ⟨hk', -⟩ | h
          · simp [hskip, hk] at hk'
          · rw [hskip] at h
            exact absurd hk (hne h).2
        · have hskip := Reader.skipNewlines_of_kind_ne (s := s₂) (by simp [hk])
          rcases reads_lines_iff.mp hys with ⟨-, rfl, rfl⟩ | h
          · exact .inl ⟨hk, by rw [hskip], rfl⟩
          · rw [hskip] at h
            exact absurd hk (hne h).1
  · rintro _ s _ s₁ xs (⟨_, h, -⟩ | ⟨-, s₂, hxs, hends⟩)
    · cases h
    · have h₁ := hxs.length_le.2 (by cases form <;> rfl)
      have h₂ := s.length_skipNewlines_le
      have h₃ : s₁.rest.length ≤ s₂.rest.length := by
        rcases hends with ⟨-, rfl⟩ | ⟨-, rfl⟩ | ⟨-, rfl⟩
        · exact s₂.length_skipNewlines_le
        · exact Nat.le_refl _
        · exact Nat.le_refl _
      omega

/-! ## Parts between commas -/

/-- Behind a part there is a comma, and another round begins behind it, or the closing
mark. -/
def Separated (close : Mark) (behind : Reader → Reader) (s r : Reader) (b : Round Unit Unit) :
    Prop :=
  (s.kind = .mark .comma ∧ b = .again () ∧ r = behind s.advance) ∨
    (s.kind = .mark close ∧ b = .stop () ∧ r = s.advance)

theorem Fills.separator {close : Mark} {behind : Reader → Reader}
    {f : TokenKind → Reading (Round Unit Unit)} (hne : close ≠ .comma)
    (hcomma : ∀ {P : Reader → Prop}, Fills F P p T (f (.mark .comma)) fun s r b xs =>
      b = .again () ∧ r = behind s.advance ∧ xs = [])
    (hclose : f (.mark close) = (do
      Reading.advance
      return .stop ()))
    (hother : ∀ k, k ≠ .mark .comma → k ≠ .mark close → ∃ expected, f k = Reading.reject expected) :
    Fills F P p T (Reading.peek >>= f) fun s r b xs => xs = [] ∧ Separated close behind s r b := by
  refine .peek fun k => ?_
  by_cases hk : k = .mark .comma
  · subst hk
    refine hcomma.congr fun s r b xs hs => ?_
    simp [Separated, hs.2, hne.symm]
    tauto
  · by_cases hk' : k = .mark close
    · subst hk'
      rw [hclose]
      refine (Fills.advance.bind fun _ => Fills.done (Round.stop ())).congr fun s r b xs hs => ?_
      simp [Separated, hs.2, hne]
      tauto
    · obtain ⟨expected, h⟩ := hother k hk hk'
      rw [h]
      refine .reject _ ?_
      rintro s r b xs hs ⟨-, ⟨h, -⟩ | ⟨h, -⟩⟩
      · exact hk (hs.2.symm.trans h)
      · exact hk' (hs.2.symm.trans h)

/-- A part, and behind line feeds either the closing mark or a comma and the rest. -/
def SeparatedParts (n : Nat) (phrase : Phrase) (close : Mark) (rest : List Item) (s r : Reader)
    (zs : List Construct) : Prop :=
  ∃ s₁ xs, Reads .byText n [.part phrase] s s₁ xs ∧
    ((s₁.skipNewlines.kind = .mark close ∧ r = s₁.skipNewlines.advance ∧ zs = xs) ∨
      (s₁.skipNewlines.kind = .mark .comma ∧ ∃ ys,
        Reads .byText n rest s₁.skipNewlines.advance r ys ∧ zs = xs ++ ys))

theorem separatedParts_iff {phrase : Phrase} {close : Mark} {rest : List Item} {s r : Reader}
    {zs : List Construct} :
    SeparatedParts n phrase close rest s r zs ↔
      Reads .byText n [.part phrase, .newlines, .sign close] s r zs ∨
        Reads .byText n (.part phrase :: .newlines :: .sign .comma :: rest) s r zs := by
  constructor
  · rintro ⟨s₁, xs, hxs, ⟨hk, rfl, rfl⟩ | ⟨hk, ys, hys, rfl⟩⟩
    · exact .inl (reads_part_append.mpr
        ⟨s₁, zs, [], hxs, .newlines (.token (by simp) hk .nil), by simp⟩)
    · exact .inr (reads_part_append.mpr ⟨s₁, xs, ys, hxs, .newlines (.token (by simp) hk hys), rfl⟩)
  · rintro (h | h)
    · obtain ⟨s₁, xs, ys, hxs, hys, rfl⟩ := reads_part_append.mp h
      obtain ⟨-, hk, hys⟩ := reads_token_iff.mp (reads_newlines_iff.mp hys)
      obtain ⟨rfl, rfl⟩ := reads_nil_iff.mp hys
      exact ⟨s₁, xs, hxs, .inl ⟨hk, rfl, by simp⟩⟩
    · obtain ⟨s₁, xs, ys, hxs, hys, rfl⟩ := reads_part_append.mp h
      obtain ⟨-, hk, hys⟩ := reads_token_iff.mp (reads_newlines_iff.mp hys)
      exact ⟨s₁, xs, hxs, .inr ⟨hk, ys, hys, rfl⟩⟩

/-- Rounds that read a part each read all of them.  Line feeds may be skipped before a
round and behind a comma, and there may be nothing but the closing mark. -/
theorem Fills.separatedParts {phrase tail : Phrase} {close : Mark} {rest : List Item}
    (mayEnd : Prop) (before behind : Reader → Reader) {round : Reading (Round Unit Unit)}
    (hround : Fills F (fun _ => True) p T round fun s r b xs =>
      (mayEnd ∧ (before s).kind = .mark close ∧ b = .stop () ∧ r = (before s).advance ∧ xs = []) ∨
        ∃ s₁, Reads .byText n [.part phrase] (before s) s₁ xs ∧
          Separated close behind s₁.skipNewlines r b)
    (htail : ∀ s r zs, Reads .byText n [.part tail] s r zs ↔
      (mayEnd ∧ (before s).kind = .mark close ∧ r = (before s).advance ∧ zs = []) ∨
        SeparatedParts n phrase close rest (before s) r zs)
    (hrest : ∀ s r zs, Reads .byText n rest s r zs ↔ Reads .byText n [.part tail] (behind s) r zs)
    (hsolid : (Item.part phrase).isSolid)
    (hbefore : ∀ s, (before s).rest.length ≤ s.rest.length)
    (hbehind : ∀ s, (behind s).rest.length ≤ s.rest.length) :
    Fills F P p T (Reading.repeatUntil round) fun s r _ xs =>
      Reads .byText n [.part tail] s r xs := by
  refine Fills.repeating (A := fun _ s r _ xs => Reads .byText n [.part tail] s r xs)
    (fun _ => hround) ?_ ?_ ()
  · intro _ s r _ zs
    rw [htail]
    constructor
    · rintro (⟨hmay, hk, rfl, rfl⟩ | ⟨s₁, xs, hxs, ⟨hk, rfl, rfl⟩ | ⟨hk, ys, hys, rfl⟩⟩)
      · exact .inl (.inl ⟨hmay, hk, rfl, rfl, rfl⟩)
      · exact .inl (.inr ⟨s₁, hxs, .inr ⟨hk, rfl, rfl⟩⟩)
      · exact .inr ⟨(), _, xs, ys, .inr ⟨s₁, hxs, .inl ⟨hk, rfl, rfl⟩⟩, (hrest _ _ _).mp hys, rfl⟩
    · rintro ((⟨hmay, hk, -, rfl, rfl⟩ | ⟨s₁, hxs, hsep⟩) |
        ⟨_, s₂, xs, ys, ⟨-, -, h, -⟩ | ⟨s₁, hxs, hsep⟩, hys, rfl⟩)
      · exact .inl ⟨hmay, hk, rfl, rfl⟩
      · rcases hsep with ⟨-, h, -⟩ | ⟨hk, -, rfl⟩
        · cases h
        · exact .inr ⟨s₁, zs, hxs, .inl ⟨hk, rfl, rfl⟩⟩
      · cases h
      · rcases hsep with ⟨hk, -, rfl⟩ | ⟨-, h, -⟩
        · exact .inr ⟨s₁, xs, hxs, .inr ⟨hk, ys, (hrest _ _ _).mpr hys, rfl⟩⟩
        · cases h
  · rintro _ s _ s₂ xs (⟨-, -, h, -⟩ | ⟨s₁, hxs, ⟨hk, -, rfl⟩ | ⟨-, h, -⟩⟩)
    · cases h
    · have h₀ := hbefore s
      have h₁ := hxs.length_le.2 (by simp [hsolid])
      have h₂ := s₁.length_skipNewlines_le
      have h₃ := s₁.skipNewlines.length_advance_le
      have h₄ := hbehind s₁.skipNewlines.advance
      omega
    · cases h

/-! ## Sequences of items

Most programs read a sequence of items and make one node of it.  There may be several
sequences, with a condition on what comes behind each, and they may depend on names that
are read on the way: a program is judged by a family of sequences. -/

/-- Some items are read and are the parts of a node of a given kind. -/
def Made (n : Nat) (p : Position) (items : List Item) (kind : NodeKind) (guard : Reader → Prop)
    (s r : Reader) (x : Construct) : Prop :=
  guard r ∧ ∃ xs, Reads .byText n items s r xs ∧ x = .mk kind ⟨p, r.lastEnd⟩ xs

/-- `m` reads one of a family of sequences as further parts of a node and ends it. -/
def Ends {ι : Type} (F : Site) (P : Reader → Prop) (p : Position) (n : Nat) (node : NodeId)
    (kind : NodeKind) (m : Reading NodeId) (family : ι → List Item) (kinds : ι → NodeKind)
    (guards : ι → Reader → Prop := fun _ _ => True) : Prop :=
  Closes F P p node kind m fun s r x => ∃ i, Made n p (family i) (kinds i) (guards i) s r x

/-- `m` reads one of a family of sequences and makes the node for it. -/
def Makes {ι : Type} (F : Site) (P : Reader → Prop) (p : Position) (n : Nat)
    (m : Reading NodeId) (family : ι → List Item) (kinds : ι → NodeKind)
    (guards : ι → Reader → Prop := fun _ _ => True) : Prop :=
  Gives F P p m fun s r x => ∃ i, Made n p (family i) (kinds i) (guards i) s r x

section Sequences

variable {ι κ : Type} {node : NodeId} {kind : NodeKind} {items : List Item}
  {family : ι → List Item} {kinds : ι → NodeKind} {guards : ι → Reader → Prop}
  {family' : κ → List Item} {kinds' : κ → NodeKind} {guards' : κ → Reader → Prop}

theorem Ends.closeNode : Ends F P p n node kind (Reading.closeNode node) (fun _ : Unit => [])
    (fun _ => kind) :=
  Closes.closeNode.congr fun s r x _ => by
    constructor
    · rintro ⟨rfl, rfl⟩
      exact ⟨(), trivial, [], .nil, rfl⟩
    · rintro ⟨_, -, xs, h, rfl⟩
      obtain ⟨rfl, rfl⟩ := reads_nil_iff.mp h
      exact ⟨rfl, rfl⟩

theorem Ends.setKind {kind' : NodeKind} {f : Unit → Reading NodeId}
    (hf : Ends F P p n node kind' (f ()) family kinds guards) :
    Ends F P p n node kind (Reading.setKind node kind' >>= f) family kinds guards :=
  Closes.setKind hf

/-- Parts that another program reads, in front of the rest. -/
theorem Ends.part {m : Reading α} {f : α → Reading NodeId} {phrase : Phrase}
    {R : Reader → Reader → α → List Construct → Prop} (hm : Fills F P p (.under node) m R)
    (hR : ∀ s r xs, (∃ a, R s r a xs) ↔ Reads .byText n [.part phrase] s r xs)
    (hf : ∀ a, Ends F (fun _ => True) p n node kind (f a) family kinds guards) :
    Ends F P p n node kind (m >>= f) (fun i => .part phrase :: family i) kinds guards := by
  refine (hm.closes hf).congr fun s r x _ => ?_
  constructor
  · rintro ⟨a, s₁, xs, _, hxs, ⟨i, hguard, ys, hys, rfl⟩, rfl⟩
    exact ⟨i, hguard, xs ++ ys,
      reads_part_append.mpr ⟨s₁, xs, ys, (hR _ _ _).mp ⟨a, hxs⟩, hys, rfl⟩, rfl⟩
  · rintro ⟨i, hguard, zs, hzs, rfl⟩
    obtain ⟨s₁, xs, ys, hxs, hys, rfl⟩ := reads_part_append.mp hzs
    obtain ⟨a, hxs⟩ := (hR _ _ _).mpr hxs
    exact ⟨a, s₁, xs, _, hxs, ⟨i, hguard, ys, hys, rfl⟩, rfl⟩

theorem Ends.child (hF : F.Calls n) {rule : Rule} {phrase : Phrase}
    {f : Unit → Reading NodeId} (h : rule.phrase? = some phrase)
    (hf : Ends F (fun _ => True) p n node kind (f ()) family kinds guards) :
    Ends F P p n node kind (Reading.child node rule >>= f) (fun i => .part phrase :: family i)
      kinds guards :=
  .part (Fills.child hF h) (fun _ _ _ => exists_const _) fun _ => hf

theorem Ends.arguments (hF : F.Calls n) {f : NodeId → Reading NodeId}
    (hf : ∀ id, Ends F (fun _ => True) p n node kind (f id) family kinds guards) :
    Ends F P p n node kind (Reading.enter (.arguments node) >>= f)
      (fun i => .part .arguments :: family i) kinds guards :=
  .part hF.arguments (fun _ _ _ => by simp) hf

theorem Ends.arms (hF : F.Calls n) {form : BranchForm} {f : NodeId → Reading NodeId}
    (hf : ∀ id, Ends F (fun _ => True) p n node kind (f id) family kinds guards) :
    Ends F P p n node kind (Reading.enter (.arms form node) >>= f)
      (fun i => .part (.arms form) :: family i) kinds guards :=
  .part hF.arms (fun _ _ _ => by simp) hf

theorem Ends.skipNewlines {f : Unit → Reading NodeId}
    (hf : Ends F (fun _ => True) p n node kind (f ()) family kinds guards) :
    Ends F P p n node kind (Reading.skipNewlines >>= f) (fun i => .newlines :: family i) kinds
      guards := by
  refine (Fills.skipNewlines.closes fun _ => hf).congr fun s r x _ => ?_
  constructor
  · rintro ⟨_, s₁, xs, _, ⟨rfl, -, rfl⟩, ⟨i, hguard, ys, hys, rfl⟩, rfl⟩
    exact ⟨i, hguard, ys, .newlines hys, rfl⟩
  · rintro ⟨i, hguard, zs, hzs, rfl⟩
    exact ⟨(), _, [], _, ⟨rfl, rfl, rfl⟩, ⟨i, hguard, zs, reads_newlines_iff.mp hzs, rfl⟩, rfl⟩

theorem Ends.expect {k : TokenKind} (hk : k ≠ .endOfInput) {f : Unit → Reading NodeId}
    (hf : Ends F (fun _ => True) p n node kind (f ()) family kinds guards) :
    Ends F P p n node kind (Reading.expect k >>= f) (fun i => .token k :: family i) kinds
      guards := by
  refine ((Fills.expect k).closes fun _ => hf).congr fun s r x _ => ?_
  constructor
  · rintro ⟨_, s₁, xs, _, ⟨hs, rfl, -, rfl⟩, ⟨i, hguard, ys, hys, rfl⟩, rfl⟩
    exact ⟨i, hguard, ys, .token hk hs hys, rfl⟩
  · rintro ⟨i, hguard, zs, hzs, rfl⟩
    obtain ⟨-, hs, hys⟩ := reads_token_iff.mp hzs
    exact ⟨(), _, [], _, ⟨hs, rfl, rfl, rfl⟩, ⟨i, hguard, zs, hys, rfl⟩, rfl⟩

theorem Ends.advance {k : TokenKind} (hk : k ≠ .endOfInput) (hP : ∀ s, P s → s.kind = k)
    {f : Unit → Reading NodeId}
    (hf : Ends F (fun _ => True) p n node kind (f ()) family kinds guards) :
    Ends F P p n node kind (Reading.advance >>= f) (fun i => .token k :: family i) kinds
      guards := by
  refine (Fills.advance.closes fun _ => hf).congr fun s r x hs => ?_
  constructor
  · rintro ⟨_, s₁, xs, _, ⟨rfl, -, rfl⟩, ⟨i, hguard, ys, hys, rfl⟩, rfl⟩
    exact ⟨i, hguard, ys, .token hk (hP s hs) hys, rfl⟩
  · rintro ⟨i, hguard, zs, hzs, rfl⟩
    obtain ⟨-, -, hys⟩ := reads_token_iff.mp hzs
    exact ⟨(), _, [], _, ⟨rfl, rfl, rfl⟩, ⟨i, hguard, zs, hys, rfl⟩, rfl⟩

/-- Sequences that cannot be read wherever the program is run may be added. -/
theorem Ends.select {m : Reading NodeId} (g : ι → κ)
    (hm : Ends F P p n node kind m (fun i => family' (g i)) (fun i => kinds' (g i))
      (fun i => guards' (g i)))
    (hother : ∀ s r j xs, P s → guards' j r → Reads .byText n (family' j) s r xs → ∃ i, g i = j) :
    Ends F P p n node kind m family' kinds' guards' := by
  refine Judged.congr hm fun s r x hs => ⟨?_, ?_⟩
  · rintro ⟨i, h⟩
    exact ⟨g i, h⟩
  · rintro ⟨j, hguard, xs, hxs, rfl⟩
    obtain ⟨i, rfl⟩ := hother s r j xs hs hguard hxs
    exact ⟨i, hguard, xs, hxs, rfl⟩

theorem Ends.peek {f : TokenKind → Reading NodeId}
    (hf : ∀ k, Ends F (fun s => P s ∧ s.kind = k) p n node kind (f k) family kinds guards) :
    Ends F P p n node kind (Reading.peek >>= f) family kinds guards :=
  Judged.peek hf

theorem Ends.reject {expected : List Expected}
    (h : ∀ s r i xs, P s → guards i r → ¬ Reads .byText n (family i) s r xs) :
    Ends F P p n node kind (Reading.reject expected) family kinds guards := by
  refine Judged.reject _ ?_
  rintro s r x hs ⟨i, hguard, xs, hxs, -⟩
  exact h s r i xs hs hguard hxs

theorem Makes.openNode {f : NodeId → Reading NodeId}
    (hf : ∀ node, Ends F P p n node kind (f node) family kinds guards) :
    Makes F P p n (Reading.openNode kind >>= f) family kinds guards :=
  Gives.openNode hf

theorem Makes.leaf : Makes F P p n (Reading.leaf kind) (fun _ : Unit => []) (fun _ => kind) :=
  .openNode fun _ => .closeNode

theorem Makes.expect {k : TokenKind} (hk : k ≠ .endOfInput) {f : Unit → Reading NodeId}
    (hf : Makes F (fun _ => True) p n (f ()) family kinds guards) :
    Makes F P p n (Reading.expect k >>= f) (fun i => .token k :: family i) kinds guards := by
  refine ((Fills.expect k).gives fun _ => hf).congr fun s r x _ => ?_
  constructor
  · rintro ⟨_, s₁, ⟨hs, rfl, -, -⟩, i, hguard, xs, hxs, rfl⟩
    exact ⟨i, hguard, xs, .token hk hs hxs, rfl⟩
  · rintro ⟨i, hguard, xs, hxs, rfl⟩
    obtain ⟨-, hs, hxs⟩ := reads_token_iff.mp hxs
    exact ⟨(), _, ⟨hs, rfl, rfl, rfl⟩, i, hguard, xs, hxs, rfl⟩

/-- A token that is known to come next is read. -/
theorem Makes.advance {k : TokenKind} (hk : k ≠ .endOfInput) (hP : ∀ s, P s → s.kind = k)
    {f : Unit → Reading NodeId} (hf : Makes F (fun _ => True) p n (f ()) family kinds guards) :
    Makes F P p n (Reading.advance >>= f) (fun i => .token k :: family i) kinds guards := by
  refine (Fills.advance.gives fun _ => hf).congr fun s r x hs => ?_
  constructor
  · rintro ⟨_, s₁, ⟨rfl, -, -⟩, i, hguard, xs, hxs, rfl⟩
    exact ⟨i, hguard, xs, .token hk (hP s hs) hxs, rfl⟩
  · rintro ⟨i, hguard, xs, hxs, rfl⟩
    obtain ⟨-, -, hxs⟩ := reads_token_iff.mp hxs
    exact ⟨(), _, ⟨rfl, rfl, rfl⟩, i, hguard, xs, hxs, rfl⟩

theorem Makes.skipNewlines {f : Unit → Reading NodeId}
    (hf : Makes F (fun _ => True) p n (f ()) family kinds guards) :
    Makes F P p n (Reading.skipNewlines >>= f) (fun i => .newlines :: family i) kinds
      guards := by
  refine (Fills.skipNewlines.gives fun _ => hf).congr fun s r x _ => ?_
  constructor
  · rintro ⟨_, s₁, ⟨rfl, -, -⟩, i, hguard, xs, hxs, rfl⟩
    exact ⟨i, hguard, xs, .newlines hxs, rfl⟩
  · rintro ⟨i, hguard, xs, hxs, rfl⟩
    exact ⟨(), _, ⟨rfl, rfl, rfl⟩, i, hguard, xs, reads_newlines_iff.mp hxs, rfl⟩

theorem Makes.identifier {role : NameRole} {f : String → Reading NodeId}
    {family : String → List Item} {kinds : String → NodeKind}
    (hf : ∀ name, Makes F (fun _ => True) p n (f name) (fun _ : Unit => family name)
      (fun _ => kinds name)) :
    Makes F P p n (Reading.identifier role >>= f) (fun name => .identifier name :: family name)
      kinds := by
  refine ((Fills.identifier role).gives hf).congr fun s r x _ => ?_
  constructor
  · rintro ⟨name, s₁, ⟨hnext, rfl, -⟩, _, -, xs, hxs, rfl⟩
    exact ⟨name, trivial, xs, .identifier hnext hxs, rfl⟩
  · rintro ⟨name, -, xs, hxs, rfl⟩
    obtain ⟨hnext, hxs⟩ := reads_identifier_iff.mp hxs
    exact ⟨name, _, ⟨hnext, rfl, rfl⟩, (), trivial, xs, hxs, rfl⟩

theorem Makes.qualifiedName {role : NameRole} {f : String → Reading NodeId}
    {items : List Item} {kinds : String → NodeKind}
    (hf : ∀ name, Makes F (fun _ => True) p n (f name) (fun _ : Unit => items)
      (fun _ => kinds name)) :
    Makes F P p n (Reading.qualifiedName role >>= f) (fun segments => .qualified segments :: items)
      (fun segments => kinds (dotted segments)) := by
  refine ((Fills.qualifiedName role).gives hf).congr fun s r x _ => ?_
  constructor
  · rintro ⟨name, s₁, ⟨-, segments, hname, rfl⟩, _, -, xs, hxs, rfl⟩
    exact ⟨segments, trivial, xs, .qualified hname hxs, rfl⟩
  · rintro ⟨segments, -, xs, hxs, rfl⟩
    obtain ⟨s₁, hname, hxs⟩ := reads_qualified_iff.mp hxs
    exact ⟨_, s₁, ⟨rfl, segments, hname, rfl⟩, (), trivial, xs, hxs, rfl⟩

/-- A token that is read if it comes next.  What is read without it must not begin with
it. -/
theorem Makes.accept (family : Bool → ι → List Item) (kinds : Bool → ι → NodeKind)
    {k : TokenKind} (hk : k ≠ .endOfInput) {f : Bool → Reading NodeId}
    (hbegins : ∀ i, ∃ item items, family false i = item :: items ∧ item.begins k = false)
    (hf : ∀ b, Makes F (fun _ => True) p n (f b) (family b) (kinds b)) :
    Makes F P p n (Reading.accept k >>= f)
      (fun i : Bool × ι => if i.1 then .token k :: family true i.2 else family false i.2)
      (fun i => kinds i.1 i.2) := by
  refine ((Fills.accept k).gives hf).congr fun s r x _ => ?_
  constructor
  · rintro ⟨b, s₁, ⟨-, ⟨hs, rfl, rfl⟩ | ⟨-, rfl, rfl⟩⟩, i, hguard, xs, hxs, rfl⟩
    · exact ⟨(true, i), hguard, xs, .token hk hs hxs, rfl⟩
    · exact ⟨(false, i), hguard, xs, hxs, rfl⟩
  · rintro ⟨⟨_ | _, i⟩, hguard, xs, hxs, rfl⟩
    · obtain ⟨item, items, he, hitem⟩ := hbegins i
      have hne : s.kind ≠ k := by
        rintro rfl
        have hxs : Reads .byText n (family false i) s r xs := hxs
        rw [he] at hxs
        rw [hxs.begins] at hitem
        cases hitem
      exact ⟨false, s, ⟨rfl, .inr ⟨hne, rfl, rfl⟩⟩, i, hguard, xs, hxs, rfl⟩
    · obtain ⟨-, hs, hxs⟩ := reads_token_iff.mp hxs
      exact ⟨true, _, ⟨rfl, .inl ⟨hs, rfl, rfl⟩⟩, i, hguard, xs, hxs, rfl⟩

/-- A program reads a phrase if the sequences it reads are the alternatives that can be
taken. -/
theorem Makes.phrase {m : Reading NodeId} {phrase : Phrase} {n' : Nat}
    (hm : Makes F P p n m family kinds guards) (hn : n + phrase.level = n')
    (hP : ∀ s, P s → s.start = p)
    (halt : ∀ s r i, P s → guards i r → Alternative .byText phrase (family i) (some (kinds i)) ∧
      phrase.Settles (family i) s r)
    (honly : ∀ s r body kind xs, P s → Alternative .byText phrase body kind →
      phrase.Settles body s r → Reads .byText n body s r xs →
      ∃ i, body = family i ∧ kind = some (kinds i) ∧ guards i r) :
    Gives F P p m fun s r x => Reads .byText n' [.part phrase] s r [x] := by
  refine Judged.congr hm fun s r x hs => ?_
  rw [reads_phrase_iff, hP s hs]
  constructor
  · rintro ⟨i, hguard, xs, hxs, rfl⟩
    obtain ⟨alt, hsettles⟩ := halt s r i hs hguard
    exact ⟨n, _, _, xs, alt, hn, hsettles, hxs, rfl⟩
  · rintro ⟨m, body, kind, xs, alt, hm, hsettles, hxs, h⟩
    obtain rfl := Nat.add_right_cancel (hm.trans hn.symm)
    obtain ⟨i, rfl, rfl, hguard⟩ := honly s r body kind xs hs alt hsettles hxs
    exact ⟨i, hguard, xs, hxs, List.singleton_inj.mp h⟩

end Sequences

end Reading

end GoloSyntax
