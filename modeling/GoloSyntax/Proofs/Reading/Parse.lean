import GoloSyntax.Proofs.Reading.Branchings
import GoloSyntax.Proofs.Reading.Expressions
import GoloSyntax.Proofs.Reading.Statements
import GoloSyntax.Proofs.Tree.Subtree

/-! # Parsing is reading by the table

Every rule reads its phrase whatever the number of levels left (`site_calls`), and so
`parse` gives a tree exactly if the pieces of the token stream can be read as a
compilation unit within the limits: `parse_sound` and `parse_complete`.
-/
namespace GoloSyntax

namespace Reading

variable {c : Context} {texts : Symbol → Option String} (hend : c.endToken.kind = .endOfInput)
  {P : Reader → Prop} {p : Position} {n : Nat}

/-- Calls with a number of levels left. -/
def site (c : Context) (texts : Symbol → Option String) (hend : c.endToken.kind = .endOfInput)
    (n : Nat) : Site where
  context := c
  texts := texts
  enter := Rule.enter c n
  endKind := hend
  grows := grows_enter

theorem run_enter (rule : Rule) (s : State) :
    (site c texts hend (n + 1)).run (enter rule) p s =
      (site c texts hend n).run rule.reading
        (if rule.inheritsStart then p else (s.current c).span.start) s := by
  show run c (Rule.enter c (n + 1)) (enter rule) p s = run c (Rule.enter c n) rule.reading _ s
  rw [enter, run_call, Rule.enter]
  cases run c (Rule.enter c n) rule.reading
    (if rule.inheritsStart then p else (s.current c).span.start) s <;> rfl

section Lift

variable {β : Type} {rule : Rule} {E : Effect NodeId β} {R : Reader → Reader → β → Prop}

/-- A call is judged by what the rule does with one level less. -/
theorem Judged.lift (h : Judged (site c texts hend n) P p rule.reading E R)
    (hrule : rule.inheritsStart) : Judged (site c texts hend (n + 1)) P p (enter rule) E R where
  sound hP hrun hknown := by
    rw [run_enter, if_pos hrule] at hrun
    exact h.sound hP hrun hknown
  complete hP hready hsize hR := by
    obtain ⟨id, s', hrun, hview, heffect⟩ :=
      h.complete hP ⟨hready.bounded, hready.texts⟩ hsize hR
    refine ⟨id, s', ?_, hview, heffect⟩
    rw [run_enter, if_pos hrule]
    exact hrun

/-- A rule that starts where its caller stands is judged for every such start. -/
theorem Judged.liftStart
    (h : ∀ q, Judged (site c texts hend n) (fun s => s.start = q) q rule.reading E R)
    (hrule : rule.inheritsStart = false) :
    Judged (site c texts hend (n + 1)) P p (enter rule) E R where
  sound {s id s'} hP hrun hknown := by
    rw [run_enter, hrule] at hrun
    exact (h _).sound (start_view (F := site c texts hend n) s) hrun hknown
  complete {s r b} hP hready hsize hR := by
    obtain ⟨id, s', hrun, hview, heffect⟩ := (h _).complete
      (start_view (F := site c texts hend n) s) ⟨hready.bounded, hready.texts⟩ hsize hR
    refine ⟨id, s', ?_, hview, heffect⟩
    rw [run_enter, hrule]
    exact hrun

end Lift

/-- Without any levels left, no call succeeds and there is nothing to be read. -/
theorem judged_enter_zero {β : Type} {rule : Rule} {E : Effect NodeId β}
    {R : Reader → Reader → β → Prop} (hR : ∀ s r b, ¬ R s r b) :
    Judged (site c texts hend 0) P p (enter rule) E R where
  sound _ hrun _ := by cases hrun
  complete _ _ _ h := absurd h (hR _ _ _)

theorem not_reads_of_level {phrase : Phrase} {s r : Reader} {xs : List Construct}
    (h : phrase.level = 1) : ¬ Reads .byText 0 [.part phrase] s r xs := by
  rw [reads_phrase_iff]
  rintro ⟨m, -, -, -, -, hm, -⟩
  omega

theorem level_of_phrase? {rule : Rule} {phrase : Phrase} (h : rule.phrase? = some phrase) :
    phrase.level = 1 := by
  cases rule <;> cases h <;> rfl

theorem calls_zero : (site c texts hend 0).Calls 0 where
  gives h := judged_enter_zero hend fun _ _ _ => not_reads_of_level (level_of_phrase? h)
  arguments := judged_enter_zero hend fun _ _ _ h => not_reads_of_level rfl h.2
  arms := judged_enter_zero hend fun _ _ _ h => not_reads_of_level rfl h.2
  named h := by cases h
  collection := judged_enter_zero hend fun _ _ _ ⟨_, h, _⟩ => not_reads_of_level rfl h

/-- What begins a name must have a text. -/
theorem exists_text_of_named {F : Site} {s s' : State} {id : NodeId}
    (h : F.run Grammar.named p s = .ok (id, s')) :
    ∃ text, ((s.current F.context).lexeme s.tree.symbols).text = some text := by
  obtain ⟨name, s₁, hname, -⟩ := run_bind_ok.mp h
  obtain ⟨first, s₂, hfirst, -⟩ := run_bind_ok.mp hname
  rw [identifier, run_look] at hfirst
  split at hfirst
  · next text hl => exact ⟨text, by rw [hl]⟩
  · cases hfirst

theorem gives_reading {F : Site} (hF : F.Calls n) {rule : Rule} {phrase : Phrase}
    (h : rule.phrase? = some phrase) :
    Gives F (fun s => s.start = p) p rule.reading fun s r x =>
      Reads .byText (n + 1) [.part phrase] s r [x] := by
  cases rule <;> cases h
  case moduleDeclaration => exact gives_moduleDeclaration
  case importDeclaration => exact gives_importDeclaration
  case functionDeclaration => exact gives_functionDeclaration hF
  case function => exact gives_function hF
  case augmentation => exact gives_augmentation hF
  case struct => exact gives_struct
  case block => exact gives_block hF
  case statement => exact gives_statement hF
  case letOrVar => exact gives_letOrVar hF
  case assignment => exact gives_assignment hF
  case return_ => exact gives_return hF
  case throw => exact gives_throw hF
  case if_ => exact gives_if hF
  case while_ => exact gives_while hF
  case for_ => exact gives_for hF
  case forEach => exact gives_forEach hF
  case try_ => exact gives_try hF
  case case_ => exact gives_case hF
  case match_ => exact gives_match hF
  case when_ form => exact gives_when hF form
  case otherwise form => exact gives_otherwise hF form
  case expression minPrecedence => exact gives_expression hF minPrecedence
  case unary => exact gives_unary hF
  case chain => exact gives_chain hF
  case primary => exact gives_primary hF
  case named => exact gives_named hF

variable (texts) in
/-- Whatever the number of levels left, every rule reads its phrase. -/
theorem site_calls (n : Nat) : (site c texts hend n).Calls n := by
  induction n with
  | zero => exact calls_zero hend
  | succ n ih =>
    exact {
      gives := fun {rule} _ _ _ h => Judged.liftStart hend (fun q => gives_reading ih h) (by
        cases rule <;> first | rfl | cases h)
      arguments := Judged.liftStart hend (fun q => fills_arguments ih) rfl
      arms := Judged.liftStart hend (fun q => fills_arms ih) rfl
      named := fun h => exists_text_of_named (F := site c texts hend n) h
      collection := Judged.lift hend (gives_collection ih _) rfl }

end Reading

/-! ## Whole token streams -/

open Reading

/-- The end of input is the first token that is left behind the others. -/
theorem splitAtEnd_eq (tokens : Array Token) : splitAtEnd tokens =
    (tokens.toList.takeWhile (·.kind != .endOfInput),
      (tokens.toList.dropWhile (·.kind != .endOfInput)).head?.getD
        (.endAt ((tokens.back?.map (·.span.stop)).getD .start))) := by
  simp only [splitAtEnd, List.find?_eq_head?_dropWhile_not]
  rfl

theorem kind_splitAtEnd (tokens : Array Token) : (splitAtEnd tokens).2.kind = .endOfInput := by
  simp only [splitAtEnd]
  cases hfind : tokens.toList.find? (·.kind == .endOfInput) with
  | none => rfl
  | some token => simpa using List.find?_some hfind

theorem length_splitAtEnd (tokens : Array Token) :
    (splitAtEnd tokens).1.length ≤ tokens.size := by
  exact (List.takeWhile_sublist _).length_le

/-- A token in front of the end of input, or that end, stands in the stream or is supplied. -/
theorem getD_splitAtEnd (tokens : Array Token) {i : Nat}
    (hi : i ≤ (splitAtEnd tokens).1.length) :
    (splitAtEnd tokens).1[i]?.getD (splitAtEnd tokens).2 =
      tokens[i]?.getD (.endAt ((tokens.back?.map (·.span.stop)).getD .start)) := by
  obtain ⟨tokens⟩ := tokens
  have hsplit := List.takeWhile_append_dropWhile (p := (·.kind != .endOfInput)) (l := tokens)
  simp only [splitAtEnd_eq, List.getElem?_toArray] at hi ⊢
  generalize tokens.takeWhile (·.kind != .endOfInput) = front at *
  generalize tokens.dropWhile (·.kind != .endOfInput) = behind at *
  subst hsplit
  rcases Nat.lt_or_ge i front.length with hlt | hge
  · simp [List.getElem?_append_left hlt, List.getElem?_eq_getElem hlt]
  · obtain rfl : i = front.length := Nat.le_antisymm hi hge
    cases behind with
    | nil => simp
    | cons token behind => simp

namespace TokenStream

/-- The pieces that a token stream is read as, with the texts of its tokens given. -/
def reader (stream : TokenStream) (texts : Symbol → Option String) : Reader :=
  ⟨(splitAtEnd stream.tokens).1.map fun t => ⟨⟨t.kind, t.symbol.bind texts⟩, t.span⟩, .start,
    (splitAtEnd stream.tokens).2.span.start⟩

def context (stream : TokenStream) (limits : Limits) : Context :=
  ⟨(splitAtEnd stream.tokens).2, limits.maxNestingDepth, limits.maxTreeNodes, stream.size⟩

theorem kind_endToken (stream : TokenStream) (limits : Limits) :
    (stream.context limits).endToken.kind = .endOfInput := kind_splitAtEnd _

/-- The span of the whole source. -/
def unitSpan (stream : TokenStream) : Span := ⟨.start, (splitAtEnd stream.tokens).2.span.stop⟩

/-- Every token in front of the end of input that has a number of a text has the text. -/
def HasTexts (stream : TokenStream) : Prop :=
  ∀ token ∈ (splitAtEnd stream.tokens).1, ∀ symbol, token.symbol = some symbol →
    ∃ text, stream.symbols.text? symbol = some text

end TokenStream

theorem loose_ofSymbols (symbols : SymbolTable) :
    (Tree.ofSymbols symbols).Loose Tree.root (.mk .compilationUnit (.empty .start) []) := by
  have hn : (Tree.ofSymbols symbols).node? Tree.root =
      some { kind := .compilationUnit, span := .empty .start } := rfl
  refine ⟨Tree.shows_mk.mpr ⟨_, [], hn, rfl, rfl, ⟨rfl, rfl, by simp, by simp⟩, .nil⟩, ?_, ?_⟩
  · rw [Tree.node_eq hn]
  · rw [Tree.node_eq hn]

/-- The tree with which reading begins, after it has been filled and its root ended. -/
theorem loose_of_filled {symbols : SymbolTable} {t : Tree} {xs : List Construct} (span : Span)
    (h : (Tree.ofSymbols symbols).Filled Tree.root t xs) :
    (t.setSpan Tree.root span).Loose Tree.root (.mk .compilationUnit span xs) ∧
      (t.setSpan Tree.root span).size = 1 + Construct.countAll xs := by
  obtain ⟨hloose, -⟩ := h.loose (loose_ofSymbols symbols)
  refine ⟨hloose.modify_self fun n hkind _ => by simp [hkind], ?_⟩
  exact (Tree.size_modify _ _ _).trans h.size

variable {stream : TokenStream} {limits : Limits} {t : Tree}

theorem parse_eq (stream : TokenStream) (limits : Limits) :
    parse stream limits = match Rule.enter (stream.context limits) limits.maxNestingDepth
        .compilationUnit .start ⟨(splitAtEnd stream.tokens).1, .start, .ofSymbols stream.symbols⟩ with
      | .error e => .error e
      | .ok (root, s) => .ok (s.tree.setSpan root stream.unitSpan) := rfl

/-- What a tree was made from can be read, and its root, which hangs from nothing, shows
what is read. -/
theorem parse_loose (h : parse stream limits = .ok t) : ∃ r xs,
    Reads .byText limits.maxNestingDepth [.part .compilationUnit] (stream.reader t.symbols.text?)
      r xs ∧ t.Loose Tree.root (.mk .compilationUnit stream.unitSpan xs) ∧
      t.size = 1 + Construct.countAll xs := by
  rw [parse_eq] at h
  split at h
  · cases h
  · next root s hrun =>
    obtain rfl := Except.ok.inj h
    obtain ⟨n, hn⟩ : ∃ n, limits.maxNestingDepth = n + 1 := by
      cases hdepth : limits.maxNestingDepth with
      | zero =>
        rw [hdepth] at hrun
        cases hrun
      | succ n => exact ⟨n, rfl⟩
    rw [hn] at hrun ⊢
    have hend := stream.kind_endToken limits
    obtain ⟨⟨_, xs⟩, ⟨hroot, hxs⟩, hid, hfilled⟩ := (fills_compilationUnit
      (P := fun _ => True) (site_calls s.tree.symbols.text? hend n)).sound trivial hrun
      fun _ _ htext => htext
    obtain rfl : root = Tree.root := hid.trans hroot
    exact ⟨_, xs, hxs, loose_of_filled _ hfilled⟩

/-- Texts keep their numbers. -/
theorem symbols_of_parse (h : parse stream limits = .ok t) : stream.symbols.Within t.symbols := by
  rw [parse_eq] at h
  split at h
  · cases h
  · next root s hrun =>
    obtain rfl := Except.ok.inj h
    exact (grows_enter hrun).symbols

/-- A tree has no more nodes than are allowed, the root apart. -/
theorem size_of_parse (h : parse stream limits = .ok t) : t.size ≤ max 1 limits.maxTreeNodes := by
  rw [parse_eq] at h
  split at h
  · cases h
  · next root s hrun =>
    obtain rfl := Except.ok.inj h
    exact (Tree.size_modify _ _ _).trans_le (size_enter hrun)

/-- What a tree was made from can be read, and the tree shows what is read. -/
theorem parse_sound (h : parse stream limits = .ok t) : ∃ r xs,
    Reads .byText limits.maxNestingDepth [.part .compilationUnit] (stream.reader t.symbols.text?)
      r xs ∧ t.Shows Tree.root (.mk .compilationUnit stream.unitSpan xs) ∧
      t.size = 1 + Construct.countAll xs := by
  obtain ⟨r, xs, hxs, hloose, hsize⟩ := parse_loose h
  exact ⟨r, xs, hxs, hloose.shows, hsize⟩

/-- What can be read within the limits becomes a tree. -/
theorem parse_complete {r : Reader} {xs : List Construct} (htexts : stream.HasTexts)
    (hsize : 1 + Construct.countAll xs ≤ limits.maxTreeNodes)
    (h : Reads .byText limits.maxNestingDepth [.part .compilationUnit]
      (stream.reader stream.symbols.text?) r xs) :
    ∃ t, parse stream limits = .ok t ∧
      t.Shows Tree.root (.mk .compilationUnit stream.unitSpan xs) ∧
      t.size = 1 + Construct.countAll xs := by
  obtain ⟨n, hn⟩ : ∃ n, limits.maxNestingDepth = n + 1 := by
    cases hdepth : limits.maxNestingDepth with
    | zero =>
      rw [hdepth] at h
      exact absurd h (not_reads_of_level rfl)
    | succ n => exact ⟨n, rfl⟩
  rw [hn] at h
  have hend := stream.kind_endToken limits
  obtain ⟨_, s, hrun, -, rfl, hfilled⟩ := (fills_compilationUnit (P := fun _ => True)
    (site_calls stream.symbols.text? hend n)).complete (b := (Tree.root, xs))
    (s := ⟨(splitAtEnd stream.tokens).1, .start, .ofSymbols stream.symbols⟩) trivial
    ⟨length_splitAtEnd _, fun token htoken symbol hsymbol => by
      obtain ⟨text, htext⟩ := htexts token htoken symbol hsymbol
      exact ⟨text, htext, htext⟩⟩ hsize ⟨rfl, h⟩
  obtain ⟨hloose, hcount⟩ := loose_of_filled stream.unitSpan hfilled
  refine ⟨s.tree.setSpan Tree.root stream.unitSpan, ?_, hloose.shows, hcount⟩
  rw [parse_eq, hn]
  have hrun' : Rule.enter (stream.context limits) (n + 1) .compilationUnit .start
      ⟨(splitAtEnd stream.tokens).1, .start, .ofSymbols stream.symbols⟩ = .ok (Tree.root, s) := hrun
  rw [hrun']

end GoloSyntax
