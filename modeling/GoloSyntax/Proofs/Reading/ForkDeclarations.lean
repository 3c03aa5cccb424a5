import GoloSyntax.Proofs.Reading.Questions

/-! # Declarations where two lists part

Every rule of a declaration fits (`Parting.Fits`): whatever token it meets behind the last common
one, what it asks for there is read in its place.  The phrases that rules share come first.
-/
namespace GoloSyntax

namespace Reading

variable {F : Parting} {rule : Rule} {α β σ : Type} {here : α → Option Lexeme → Prop}
  {there : Verdict α → Verdict α → Prop} {o : Option Lexeme} {x : Lexeme}

/-! ## Names and lines -/

theorem passes_nameRound (name : String) : Passes (nameRound name) (.stop name) := by
  intro x
  simp only [nameRound, rests_bind, rests_peek, then_passes]
  split
  · next hdot =>
    simp only [rests_bind, rests_peekBehind, then_passes]
    intro kind
    split <;> simp [hdot]
  · simp

/-- What ends a line within braces is read, or left alone, or asked for. -/
theorem rests_terminator {post : Verdict Unit → Prop} : (terminator true).Rests x post ↔
    (x.kind = .endOfInput ∨ x.kind = .mark .rightBrace → post (.passes ())) ∧
      (x.kind ≠ .newline → x.kind ≠ .endOfInput → x.kind ≠ .mark .rightBrace →
        post (.refuses [.token .newline, .token (.mark .rightBrace)])) := by
  simp only [terminator, rests_bind, rests_peek, then_passes]
  split <;> simp_all

/-- What comes of the end of a line within braces: if the input ends there, more is wanted. -/
def AtLineEnd (wanted : List Expected) (x : Lexeme) (v : Verdict α) : Prop :=
  x.kind = .endOfInput ∧ v = .refuses wanted ∨ x.kind ≠ .newline ∧ x.kind ≠ .endOfInput ∧
    x.kind ≠ .mark .rightBrace ∧ v = .refuses [.token .newline, .token (.mark .rightBrace)]

/-- A round of a repetition that reads lines within braces ends with a line. -/
theorem rests_line (round : σ → Reading (Round σ β)) (next : β → Reading α) (state : σ)
    (wanted : List Expected)
    (hbrace : x.kind = .mark .rightBrace → (round state).Rests x fun _ => False)
    (hend : x.kind = .endOfInput → (round state).Rests x (· = .refuses wanted)) :
    Rests x ((do
        terminator true
        return .again state : Reading (Round σ β)) >>= (·.onward round next))
      (AtLineEnd wanted x) := by
  simp only [AtLineEnd, rests_bind, rests_terminator, rests_pure, then_passes, then_refuses,
    Round.onward_again]
  refine ⟨fun hkind => rests_repeat.mpr ?_, fun hnewline hinput hbrace =>
    .inr ⟨hnewline, hinput, hbrace, by simp⟩⟩
  rcases hkind with hkind | hkind
  · refine (hend hkind).imp ?_
    rintro _ rfl
    exact .inl ⟨hkind, rfl⟩
  · exact (hbrace hkind).imp fun v hv => hv.elim

namespace Parting

theorem rests_joins_refuses {m : Reading β} {f : β → Reading α} {expected : List Expected} :
    (m.Rests F.ours fun v => F.Joins v (.refuses expected) f there) ↔
      (m >>= f).Rests F.ours fun v => there v (.refuses expected) := by
  rw [rests_bind]
  refine forall_congr' fun v => imp_congr_right fun _ => ?_
  cases v <;> simp

/-- A program that goes by one kind behind the next token foresees where the lists part if it
reads both tokens whenever that kind is among them. -/
theorem foresees_ite {y : Lexeme} {kind : TokenKind} {m m' : Reading α}
    (h : y.Named → ∀ x : Lexeme, x.Named → x.kind = kind → m.Strides y x) :
    F.Foresees (fun kind' => if kind' = kind then m else m') (some y) := by
  refine ⟨y, rfl, fun hy _ => ?_⟩
  by_cases hours : F.ours.kind = kind
  · simp only [hours, if_true]
    exact .inl (h hy _ F.named hours)
  · by_cases htheirs : F.theirs.kind = kind
    · simp only [htheirs, if_true]
      exact .inr (.inl (h hy _ F.named' htheirs))
    · simp [hours, htheirs]

theorem strides_advance {y x : Lexeme} {f : Unit → Reading α} :
    (advance >>= f).Strides y x ↔ y.kind ≠ .endOfInput ∧ (f ()).Rests x fun _ => False := .rfl

namespace Lockstep

/-- A point is read together with the identifier behind it. -/
theorem nameRound {name : String}
    {there : Verdict (Round String String) → Verdict (Round String String) → Prop}
    (hrefuses : F.Lenient there) (hpasses : F.before = some .identifier →
      ∀ name, there (.passes (.again name)) (.passes (.again name))) :
    F.Lockstep F.Keeps (nameRound name) (fun _ _ => True) there o := by
  refine .peek fun y => ?_
  split
  · next hdot =>
    refine .peekBehind (foresees_ite fun _ x hnamed hx => ?_) fun kind => ?_
    · exact strides_advance.mpr ⟨by simp [hdot], by simp [Lexeme.isName, hx, hnamed hx]⟩
    · split
      · refine .advance (fun _ => ?_) (.identifier (fun text hbefore => ?_) fun _ => .pure trivial)
        · simp +contextual [hrefuses _ _]
        · simp [hpasses hbefore]
      · exact .pure trivial
  · exact .pure trivial

/-- Behind a name that is read to its end comes the next construct. -/
theorem qualifiedName {role : NameRole} {f : String → Reading α} (hrefuses : F.Lenient there)
    (hgate : F.before = some .identifier → ∀ name, F.Meets (f name) there)
    (h : ∀ name o, F.Lockstep F.Keeps (f name) here there o) :
    F.Lockstep F.Keeps (qualifiedName role >>= f) here there o := by
  have htail (name : String) : Passes (do
      let name ← Reading.repeating name Reading.nameRound
      Reading.intern name
      return name) name :=
    .bind (.repeating (passes_nameRound name)) fun x => by simp
  have hjoins (name : String) (hbefore : F.before = some .identifier) :
      F.Joins (.passes name) (.passes name) f there := joins_passes.mpr (hgate hbefore name)
  refine .bind (.identifier (fun name hbefore => ?_) fun name => .peek fun y => ?_)
  · refine Passes.meets (fun x => (rests_bind _ _).mpr (rests_peek.mpr ?_)) (hjoins name hbefore)
    rw [then_passes]
    split
    · exact htail name x
    · exact (rests_pure name).mpr rfl
  · split
    · exact .repeating (fun name => .nameRound (lenient_joins.mpr (lenient_joins.mpr hrefuses))
        fun hbefore name => (htail name).joins (htail name) (hjoins name hbefore))
        fun name => .intern (h name _)
    · exact h name _

/-- Parameters stand between two bars. -/
theorem parameterList {function : NodeId} {f : Bool → Reading α} (hrefuses : F.Lenient there)
    (hgate : F.before = some (.mark .pipe) → ∀ varargs, F.Meets (f varargs) there)
    (h : ∀ varargs o, F.Lockstep F.Keeps (f varargs) here there o) :
    F.Lockstep F.Keeps (Grammar.parameterList function >>= f) here there o := by
  have hname {f : NodeId → Reading (Round Unit Bool)} :
      Insists (Reading.framed (Reading.identifier .parameter >>= fun name =>
        Reading.leaf (.parameter name)) >>= f) [.name .parameter] :=
    .bind (.framed (.bind .identifier))
  have hclose (varargs : Bool) (o : Option Lexeme) : F.Lockstep F.Keeps
      (Reading.expect (.mark .pipe) >>= fun _ => Pure.pure varargs)
      (fun varargs => F.Lockstep F.Keeps (f varargs) here there)
      (fun v v' => F.Joins v v' f there) o :=
    .expect (fun hbefore => by simpa using hgate hbefore varargs) (.pure (h varargs _))
  refine .bind (.accept (fun _ => ?_) (.bind (.peek fun y => ?_)) fun y _ => .pure (h false _))
  · have hparameters : Insists (Grammar.parameters function >>= fun varargs => do
        Reading.expect (.mark .pipe)
        return varargs) [.name .parameter] := by
      refine fun x => ?_
      simp only [Grammar.parameters, rests_bind, rests_peek, then_passes]
      split
      · next hpipe => simp [hpipe]
      · refine rests_repeat.mpr ((hname x).imp ?_)
        rintro _ ⟨expected, rfl, hrefused⟩
        exact ⟨expected, rfl, hrefused⟩
    exact hparameters.meets (lenient_joins.mpr hrefuses)
  · split
    · exact .pure (hclose _ _)
    · refine .repeating_end (fun _ => .framed (.identifier (fun name _ => ?_) fun name =>
        .leaf fun parameter => .attach (.peek fun y => ?_))) fun varargs => hclose varargs _
      · refine meets_joins.mpr (meets_joins.mpr (meets_joins.mpr ((Insists.intro
          [.token (.mark .comma), .token (.mark .ellipsis), .token (.mark .pipe)] fun x => ?_).meets
            (by simpa using hrefuses))))
        simp only [rests_bind, rests_leaf, rests_attach, then_passes, rests_peek]
        split <;> simp_all
      · split
        · exact .advance (fun _ => Insists.again hname (by simpa using hrefuses)) (.pure trivial)
        · refine .advance (fun _ => ?_) (.peek fun y => ?_)
          · refine meets_joins.mpr (meets_joins.mpr ((Insists.intro [.token (.mark .pipe)]
              fun x => ?_).meets (by simpa using hrefuses)))
            simp only [rests_bind, rests_peek, then_passes]
            split <;> simp_all
          · split
            · exact .pure trivial
            · exact .reject
        · exact .pure trivial
        · exact .reject

/-- A comma with line feeds around it. -/
theorem clauseSeparator {f : Unit → Reading α} (hrefuses : F.Lenient there)
    (hgate : F.Meets (f ()) there) (h : F.Lockstep F.Keeps (f ()) here there none) :
    F.Lockstep F.Keeps (Grammar.clauseSeparator >>= f) here there o := by
  refine .bind (.skipNewlines (fun _ _ _ => ?_) (.expect (fun _ => ?_)
    (.skipNewlines_end (fun _ _ _ => joins_passes.mpr hgate) h)))
  · exact (Insists.bind .expect).meets (lenient_joins.mpr hrefuses)
  · exact Passes.meets (a := ()) (fun x => by simp) (joins_passes.mpr hgate)

/-- A line ends with a line feed or is left alone. -/
theorem terminator {withinBraces : Bool} {f : Unit → Reading α}
    (hgate : F.before = some .newline → F.ours.kind ≠ .newline → F.theirs.kind ≠ .newline →
      F.Meets (f ()) there) (h : ∀ o, F.Lockstep F.Keeps (f ()) here there o) :
    F.Lockstep F.Keeps (terminator withinBraces >>= f) here there o := by
  refine .bind (.peek fun y => ?_)
  split
  · exact .skipNewlines_end (by simpa using hgate) (h _)
  · exact h _
  · split
    · exact h _
    · exact .reject
  · split <;> exact .reject

end Lockstep

/-! ## Declarations -/

theorem fits_moduleDeclaration : F.Fits .moduleDeclaration :=
  .expect (fun _ => by simp +contextual [qualifiedName]) (.qualifiedName lenient_then
    (fun hbefore _ => by simp [hbefore]) fun _ _ => .leaf fun _ => trivial)

theorem fits_importDeclaration : F.Fits .importDeclaration :=
  .expect (fun _ => by simp +contextual [qualifiedName]) (.qualifiedName lenient_then
    (fun hbefore _ => by simp [hbefore]) fun _ _ => .leaf fun _ => trivial)

theorem fits_functionDeclaration : F.Fits .functionDeclaration := by
  refine .accept (fun _ => by simp +contextual) ?_ fun y _ => ?_ <;>
  · refine .expect (fun _ => by simp +contextual) (.identifier (fun _ _ => by simp +contextual)
      fun name => .expect (fun _ => ?_) (.openNode fun declaration => .peek fun y => ?_))
    · refine (Insists.openNode fun declaration => .peek
        [.token (.mark .pipe), .token (.mark .leftBrace), .token (.mark .arrow)] fun x => ?_).meets
          lenient_then
      split <;> simp_all [Rule.starts]
    · split
      case h_4 => exact .reject
      all_goals exact .child (by simp) (by simp +contextual) (.closeNode trivial)

theorem fits_function : F.Fits .function := by
  refine .openNode fun function => .parameterList lenient_then (fun hbefore varargs => ?_)
    fun varargs o => .peek fun y => ?_
  · refine (Insists.peek [.token (.mark .leftBrace), .token (.mark .arrow)] fun x => ?_).meets
      lenient_then
    split <;> simp_all [Rule.starts, Rule.asks]
  · split
    · exact .child (by simp) (by simp +contextual) (.setKind (.closeNode trivial))
    · exact .advance (fun _ => by simp +contextual) (.skipNewlines
        (fun _ _ _ => by simp +contextual) (.child (by simp) (by simp +contextual)
          (.setKind (.closeNode trivial))))
    · exact .reject

theorem fits_struct : F.Fits .struct := by
  have hmember {f : NodeId → Reading (Round Unit Unit)} : Insists (skipNewlines >>= fun _ =>
      (framed (identifier .member >>= fun name => leaf (.member name)) >>= f)) [.name .member] :=
    .skipNewlines (.bind (.framed (.bind .identifier)))
  refine .expect (fun _ => by simp +contextual) (.identifier (fun _ _ => by simp +contextual)
    fun name => .expect (fun _ => by simp +contextual) (.expect (fun _ => ?_)
      (.openNode fun struct => .repeating (fun _ => .skipNewlines (fun _ _ _ => ?_)
        (.framed (.identifier (fun _ hbefore => ?_) fun name => .leaf fun member => .attach
          (.skipNewlines (fun _ _ _ => ?_) (.peek fun y => ?_))))) fun _ => .closeNode trivial)))
  · exact (Insists.openNode fun struct => .bind (.repeating hmember)).meets lenient_then
  · exact (Insists.bind (.framed (.bind .identifier))).meets (by simp)
  · refine meets_joins.mpr (Insists.meets (.leaf fun member => .attach (.skipNewlines
      (.peek [.token (.mark .comma), .token (.mark .rightBrace)] fun x => ?_))) (by simp))
    split <;> simp_all
  · refine (Insists.peek [.token (.mark .comma), .token (.mark .rightBrace)] fun x => ?_).meets
      (by simp)
    split <;> simp_all
  · split
    · exact .advance (fun _ => Insists.again hmember (by simp)) (.pure trivial)
    · exact .advance (fun hbefore => by simp_all) (.pure trivial)
    · exact .reject

/-- A method of an augmentation, or its end. -/
def methodRound (augmentation : NodeId) : Reading (Round Unit Unit) := do
  skipNewlines
  match ← peek with
  | .mark .rightBrace =>
    advance
    return .stop ()
  | .keyword .function | .keyword .local_ =>
    child augmentation .functionDeclaration
    terminator true
    return .again ()
  | _ => reject methodStarts

theorem insists_methodRound (augmentation : NodeId) :
    Insists (methodRound augmentation) methodStarts := by
  refine .skipNewlines (.peek _ fun x => ?_)
  split <;> simp_all [Rule.starts, methodStarts]

/-- Behind a method the input may end, but no other method may begin. -/
theorem lockstep_method {augmentation parent : NodeId} {next : Unit → Reading α}
    (hthere : ∀ expected v', F.Honest expected → there (.refuses expected) v') :
    F.Lockstep F.Keeps (do
      child parent .functionDeclaration
      terminator true
      return Round.again ()) (fun _ _ => True) (fun v v' =>
        F.Joins v v' (·.onward (fun _ => methodRound augmentation) next) there) o := by
  have hagain : Insists (methodRound augmentation) methodStarts := insists_methodRound augmentation
  refine .child (by simp) ((returns_iff (by simp) (by simp)).mpr fun hnewline hbrace _ _ => ?_)
    (.terminator (fun _ _ _ => Insists.again hagain fun _ _ h => hthere _ _ h)
      fun _ => .pure trivial)
  refine meets_joins.mpr fun v hv v' hv' => ?_
  have hline {x : Lexeme} := rests_line (x := x) (fun _ => methodRound augmentation) next ()
    methodStarts (fun h => by simp [h, methodRound]) (fun h => by simp [h, methodRound])
  rcases hline v hv with ⟨hours, rfl⟩ | ⟨-, -, -, rfl⟩
  · -- The input ends behind the method: another one is asked for, but not a line feed before it.
    refine hthere _ _ fun w hw hadmits => ?_
    have hbrace' : F.theirs.kind ≠ .mark .rightBrace := by
      rcases hline v' hv' with ⟨htheirs, -⟩ | ⟨-, -, hne, -⟩
      · simp [htheirs]
      · exact hne
    have hmethod (word : Keyword) (hword : word = .function ∨ word = .local_)
        (hkind : F.theirs.kind = .keyword word) :
        Misleading F.before F.ours.kind methodStarts F.theirs.kind := by
      rw [hkind]
      exact .method word hnewline hbrace hours rfl hword
    simp only [methodStarts, List.mem_cons, List.not_mem_nil, or_false] at hw
    obtain rfl | rfl | rfl := hw
    · exact hmethod .function (.inl rfl) hadmits
    · exact hmethod .local_ (.inr rfl) hadmits
    · exact absurd hadmits hbrace'
  · refine hthere _ _ (honest_of_not_admits ?_)
    rcases hline v' hv' with ⟨htheirs, -⟩ | ⟨hnewline, -, hbrace, -⟩
    · simp [htheirs]
    · simp [hnewline, hbrace]

theorem fits_augmentation : F.Fits .augmentation := by
  refine .expect (fun _ => by simp +contextual [qualifiedName]) (.qualifiedName lenient_then
    (fun hbefore _ => by simp +contextual) fun name o => .openNode fun augmentation =>
      .expect (fun _ => ?_) (.repeating (fun _ => .skipNewlines (fun _ hours htheirs => ?_)
        (.peek fun y => ?_)) fun _ => .closeNode trivial))
  · exact (Insists.bind (.repeating (insists_methodRound augmentation))).meets lenient_then
  · exact (insists_methodRound augmentation).skipped hours htheirs (by simp)
  · split
    · exact .advance (fun _ => by simp_all) (.pure trivial)
    · exact lockstep_method fun _ _ h => h
    · exact lockstep_method fun _ _ h => h
    · exact .reject

/-! ## Compilation units -/

/-- What a compilation unit may go on with. -/
def declarationStarts (imports : Bool) : List Expected :=
  if imports then .token (.keyword .import_) :: Grammar.topLevelStarts else Grammar.topLevelStarts

/-- A declaration of a compilation unit, or its end. -/
def declarationRound (imports : Bool) : Reading (Round Bool Unit) := do
  skipNewlines
  match ← peek with
  | .endOfInput => return .stop ()
  | .keyword .function | .keyword .local_ => Grammar.topLevel .functionDeclaration false
  | .keyword .augment => Grammar.topLevel .augmentation false
  | .keyword .struct => Grammar.topLevel .struct false
  | .keyword .import_ =>
    if imports then Grammar.topLevel .importDeclaration true else reject Grammar.topLevelStarts
  | _ =>
    if imports then reject (.token (.keyword .import_) :: Grammar.topLevelStarts)
    else reject Grammar.topLevelStarts

theorem rests_declarationRound (imports : Bool) : (declarationRound imports).Rests x fun v =>
    x.kind = .endOfInput ∧ v = .passes (.stop ()) ∨ v = .refuses (declarationStarts imports) ∧
      ∀ w ∈ declarationStarts imports, ¬ w.Admits x := by
  simp only [declarationRound, rests_bind, rests_skipNewlines, rests_peek, then_passes]
  intro hnewline
  split
  all_goals
    next hkind =>
      cases imports <;> simp_all [declarationStarts, Grammar.topLevelStarts, Grammar.topLevel,
        Rule.starts, Rule.asks]

/-- A program reads the next token, or ends the compilation unit in front of it, or asks for what
is listed, and the token is none of that. -/
def Closes (m : Reading NodeId) (wanted : List Expected) : Prop :=
  ∀ x : Lexeme, m.Rests x fun v => v = .passes Tree.root ∨
    v = .refuses wanted ∧ ∀ w ∈ wanted, ¬ w.Admits x

theorem Closes.meets {m : Reading NodeId} {wanted : List Expected} (h : Closes m wanted) :
    F.Meets m F.Agrees := by
  intro v hv v' hv'
  rcases h F.ours v hv with rfl | ⟨rfl, -⟩
  · trivial
  · rcases h F.theirs v' hv' with rfl | ⟨rfl, hnone⟩
    · trivial
    · exact honest_of_not_admits hnone

theorem closes_declarations (imports : Bool) : Closes
    (.repeat declarationRound imports fun _ => .done Tree.root) (declarationStarts imports) := by
  refine fun x => rests_repeat.mpr ((rests_declarationRound imports).imp ?_)
  rintro _ (⟨-, rfl⟩ | ⟨rfl, hnone⟩)
  · exact (rests_done _).mpr (.inl rfl)
  · exact .inr ⟨rfl, hnone⟩

/-- Behind a declaration of the top level the line ends, or the input. -/
theorem closes_line (imports : Bool) : Closes (do
    terminator false
    .repeat declarationRound imports fun _ => .done Tree.root)
    [.token .newline, .token .endOfInput] := by
  intro x
  simp only [terminator, rests_bind, rests_peek, then_passes]
  split
  · next hnewline => simp [hnewline]
  · next hend =>
    have hwanted : .token .endOfInput ∈ declarationStarts imports := by
      cases imports <;> simp [declarationStarts, Grammar.topLevelStarts]
    refine (rests_pure ()).mpr (rests_repeat.mpr ((rests_declarationRound imports).imp ?_))
    rintro _ (⟨-, rfl⟩ | ⟨rfl, hnone⟩)
    · exact (rests_done _).mpr (.inl rfl)
    · exact absurd hend (hnone _ hwanted)
  · next hbrace => simp [hbrace]
  · next hnewline hend _ => simpa using ⟨hnewline, hend⟩

theorem lockstep_topLevel {imports : Bool} (hcompilation : rule ≠ .compilationUnit)
    (hstatement : rule ≠ .statement) (hreturn : rule ≠ .return_) :
    F.Lockstep F.Keeps (Grammar.topLevel rule imports) (fun _ _ => True) (fun v v' =>
      F.Joins v v' (·.onward declarationRound fun _ => .done Tree.root) F.Agrees) o := by
  refine .child hcompilation ((returns_iff hstatement hreturn).mpr fun _ _ _ _ => ?_)
    (.terminator (fun _ _ _ => ?_) fun _ => .pure trivial)
  · have hline : Closes ((do
        terminator false
        return Round.again imports : Reading (Round Bool Unit)) >>=
          (·.onward declarationRound fun _ => .done Tree.root))
        [.token .newline, .token .endOfInput] := by
      intro x
      have hline := closes_line imports x
      rw [rests_bind] at hline
      rw [rests_bind, rests_bind]
      refine hline.imp fun v hv => ?_
      cases v with
      | refuses expected => exact hv
      | passes => exact (rests_pure _).mpr hv
    exact meets_joins.mpr hline.meets
  · exact meets_joins.mpr (closes_declarations imports).meets

theorem fits_compilationUnit :
    F.Lockstep F.Keeps Grammar.compilationUnit (fun _ _ => True) F.Agrees o := by
  refine .skipNewlines (fun _ _ _ => ?_) (.child (by simp) ?_ (.terminator (fun _ _ _ => ?_)
    fun _ => .repeating (fun imports => .skipNewlines (fun _ hours htheirs => ?_)
      (.peek fun y => ?_)) fun _ => .pure trivial))
  · exact (Insists.bind (.child .moduleDeclaration (by simp))).meets lenient_agrees
  · exact (returns_iff (by simp) (by simp)).mpr fun _ _ _ _ => (closes_line true).meets
  · exact (closes_declarations true).meets
  · intro v hv v' hv'
    rcases rests_declarationRound imports v ⟨hours, hv⟩ with ⟨-, rfl⟩ | ⟨rfl, -⟩ <;>
    rcases rests_declarationRound imports v' ⟨htheirs, hv'⟩ with ⟨-, rfl⟩ | ⟨rfl, hnone⟩
    · simp
    · simp
    · simp
    · exact joins_refuses.mpr (honest_of_not_admits hnone)
  · split
    · exact .pure trivial
    · exact lockstep_topLevel (by simp) (by simp) (by simp)
    · exact lockstep_topLevel (by simp) (by simp) (by simp)
    · exact lockstep_topLevel (by simp) (by simp) (by simp)
    · exact lockstep_topLevel (by simp) (by simp) (by simp)
    · split
      · exact lockstep_topLevel (by simp) (by simp) (by simp)
      · exact .reject
    · split <;> exact .reject

end Parting

end Reading

end GoloSyntax
