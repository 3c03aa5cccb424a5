import GoloSyntax.Proofs.Reading.Gates

/-! # Two token lists that part

Two token lists begin alike and part at some token, and one program is carried out over both
(`Fork`).  As long as there are common tokens left the runs are `Together`; then each of them
comes to a verdict on its own token, unless it goes astray or both have failed before.

`Parting.Lockstep` goes through a program and asks that the verdicts fit each other, wherever the
runs may get to the token at which the lists part; `abreast_run` says that they do.
-/
namespace GoloSyntax

/-- A token that is an identifier has a text. -/
def Lexeme.Named (x : Lexeme) : Prop := x.kind = .identifier → x.text.isSome

namespace Reading

/-- What is known of two token lists where they part. -/
structure Parting where
  /-- The first token of the one list that the other one does not have. -/
  ours : Lexeme
  /-- The token in its place. -/
  theirs : Lexeme
  /-- The last token in front of these. -/
  before : Option TokenKind
  named : ours.Named
  named' : theirs.Named

/-- The program reads the token `y` and the token `x` behind it. -/
def Strides (y x : Lexeme) : {α : Type} → Reading α → Prop
  | _, .step .look next => Strides y x (next y)
  | _, .step .advance next => y.kind ≠ .endOfInput ∧ (next ()).Rests x fun _ => False
  | _, .call rule _ => rule = .assignment ∧ y.kind = .identifier ∧ x.kind = .mark .assign
  | _, _ => False

namespace Parting

variable (F : Parting) {α β : Type}

/-- Verdicts of one program on either token. -/
def Meets (m : Reading α) (there : Verdict α → Verdict α → Prop) : Prop :=
  m.Rests F.ours fun v => m.Rests F.theirs (there v)

/-- Verdicts that two verdicts lead to. -/
def Joins (v v' : Verdict α) (next : α → Reading β) (there : Verdict β → Verdict β → Prop) : Prop :=
  ∀ w w', Leads (· = v) (fun a => (next a).Leaves F.ours) w →
    Leads (· = v') (fun a => (next a).Leaves F.theirs) w' → there w w'

/-- A program that goes by the token behind the next one goes on alike, or reads that token. -/
def Foresees (next : TokenKind → Reading α) (o : Option Lexeme) : Prop :=
  ∃ y, o = some y ∧ (y.Named → F.before = some y.kind →
    (next F.ours.kind).Strides y F.ours ∨ (next F.theirs.kind).Strides y F.theirs ∨
      next F.ours.kind = next F.theirs.kind)

/-- Two runs of the program come to verdicts as `there` says if they get to where the lists part.
Otherwise they come to the end of the program together, as `here` says; the next token is known
if it has been looked at.  Where our run comes to the end of a rule, `keeps` describes the verdict
that the other one comes to. -/
def Lockstep (keeps : Rule → Verdict NodeId → Prop) : {α : Type} → Reading α →
    (α → Option Lexeme → Prop) → (Verdict α → Verdict α → Prop) → Option Lexeme → Prop
  | _, .done a, here, _, o => here a o
  | _, .step .look next, here, there, o =>
    match o with
    | some y => Lockstep keeps (next y) here there o
    | none => ∀ y, Lockstep keeps (next y) here there (some y)
  | _, .step .lookBehind next, here, there, o =>
    F.Foresees next o ∧ ∀ kind, Lockstep keeps (next kind) here there o
  | _, .step .advance next, here, there, o =>
    ((∀ y ∈ o, F.before = some y.kind) → F.Meets (next ()) there) ∧
      Lockstep keeps (next ()) here there none
  | _, .step .skipNewlines next, here, there, _ =>
    (F.before = some .newline → F.ours.kind ≠ .newline → F.theirs.kind ≠ .newline →
      F.Meets (next ()) there) ∧ Lockstep keeps (next ()) here there none
  | _, .step (.openNode _) next, here, there, o => ∀ id, Lockstep keeps (next id) here there o
  | _, .step (.closeNode _) next, here, there, o => Lockstep keeps (next ()) here there o
  | _, .step (.setKind ..) next, here, there, o => Lockstep keeps (next ()) here there o
  | _, .step (.attach ..) next, here, there, o => Lockstep keeps (next ()) here there o
  | _, .step (.intern _) next, here, there, o => Lockstep keeps (next ()) here there o
  | _, .step (.reject _) _, _, _, _ => True
  | _, .step (.refuseLiteral _) _, _, _, _ => True
  | _, .call rule next, here, there, _ => rule ≠ .compilationUnit ∧
    (∀ id v', keeps rule v' → F.Joins (.passes id) v' next there) ∧
      ∀ id, Lockstep keeps (next id) here there none
  | _, .frame body next, here, there, o =>
    Lockstep keeps body (fun a => Lockstep keeps (next a) here there)
      (fun v v' => F.Joins v v' next there) o
  | _, .repeat round _ next, here, there, _ =>
    (∀ x, Lockstep keeps (round x) (fun _ _ => True)
      (fun v v' => F.Joins v v' (·.onward round next) there) none) ∧
        ∀ a, Lockstep keeps (next a) here there none

end Parting

/-- Two runs over lists that part. -/
structure Fork where
  ours : Gate
  theirs : Gate
  /-- The last token in front of the place where the lists part. -/
  before : Option TokenKind

namespace Fork

/-- What programs can tell of a fork. -/
def parting (F : Fork) : Parting :=
  ⟨F.ours.next, F.theirs.next, F.before, F.ours.named, F.theirs.named⟩

variable (F : Fork)

/-- Common tokens that are left to read. -/
structure Common (symbols symbols' : SymbolTable) (front front' : List Token) : Prop where
  ne_nil : front ≠ []
  same : List.Forall₂
    (fun t t' => SameToken symbols symbols' t t' ∧ (t.lexeme symbols).Named) front front'
  last : front.getLast?.map (·.kind) = F.before

/-- Two runs that have not come to where the lists part. -/
structure Together (o : Option Lexeme) (s s' : State) : Prop where
  front : ∃ front front', F.Common s.tree.symbols s'.tree.symbols front front' ∧
    s.rest = front ++ F.ours.rest ∧ s'.rest = front' ++ F.theirs.rest
  suffix : s.rest <:+ F.ours.all
  size : s'.tree.size = s.tree.size
  ours : F.ours.Knows s.tree.symbols
  theirs : F.theirs.Knows s'.tree.symbols
  next : ∀ y ∈ o, (s.current F.ours.context).lexeme s.tree.symbols = y

/-- What comes of two runs of one program.  If our run asks for something that `settled` allows,
nothing need be known of the other one. -/
inductive Abreast (settled : List Expected → Prop) {α : Type} (here : α → Option Lexeme → Prop)
    (there : Verdict α → Verdict α → Prop) :
    Except ParseError (α × State) → Except ParseError (α × State) → Prop where
  | together {a : α} {s s' : State} (o : Option Lexeme) (h : F.Together o s s') (hhere : here a o) :
      Abreast settled here there (.ok (a, s)) (.ok (a, s'))
  | parted {x x' : Except ParseError (α × State)} (v v' : Verdict α) (h : F.ours.Comes v x)
      (h' : F.theirs.Comes v' x') (hthere : there v v') : Abreast settled here there x x'
  /-- Our run fails before the lists part. -/
  | early {e : ParseError} {x' : Except ParseError (α × State)} {left : List Token}
      (hleft : left <:+ F.ours.all) (hlt : F.ours.rest.length < left.length)
      (hplace : e.position = (left.head?.getD F.ours.context.endToken).span.start) :
      Abreast settled here there (.error e) x'
  | settled {x x' : Except ParseError (α × State)} {expected : List Expected}
      (h : F.ours.Comes (.refuses expected) x) (hsettled : settled expected) :
      Abreast settled here there x x'
  | ours {x x' : Except ParseError (α × State)} (h : F.ours.Strays x) :
      Abreast settled here there x x'
  | theirs {x x' : Except ParseError (α × State)} (h : F.theirs.Strays x') :
      Abreast settled here there x x'

variable {F} {n n' : Nat} {α β σ : Type} {p p' : Position} {s s' : State} {o : Option Lexeme}
  {here : α → Option Lexeme → Prop} {there : Verdict α → Verdict α → Prop}
  {here₁ : β → Option Lexeme → Prop} {there₁ : Verdict β → Verdict β → Prop}
  {settled : List Expected → Prop}

/-! ## Common tokens -/

/-- The next token is a common one. -/
theorem Together.current (h : F.Together o s s') :
    SameToken s.tree.symbols s'.tree.symbols (s.current F.ours.context)
      (s'.current F.theirs.context) ∧ ((s.current F.ours.context).lexeme s.tree.symbols).Named := by
  obtain ⟨front, front', ⟨hne, hsame, -⟩, hrest, hrest'⟩ := h.front
  cases hsame with
  | nil => exact absurd rfl hne
  | cons hsame => simpa [State.current, hrest, hrest'] using hsame

theorem Together.length_lt (h : F.Together o s s') : F.ours.rest.length < s.rest.length := by
  obtain ⟨front, front', hcommon, hrest, -⟩ := h.front
  have hpos := List.length_pos_iff.mpr hcommon.ne_nil
  rw [hrest, List.length_append]
  omega

/-- Both runs fail. -/
theorem Together.fail (h : F.Together o s s') (fault : ParseFault)
    (x' : Except ParseError (α × State)) :
    F.Abreast settled here there (s.fail F.ours.context fault) x' :=
  .early h.suffix h.length_lt rfl

/-- Nothing need be known of the next token. -/
theorem Together.forget (h : F.Together o s s') : F.Together none s s' :=
  { h with next := nofun }

/-- Only the trees change. -/
theorem Together.build {tree tree' : Tree} {lastEnd lastEnd' : Position} (h : F.Together o s s')
    (hwithin : s.tree.symbols.Within tree.symbols)
    (hwithin' : s'.tree.symbols.Within tree'.symbols) (hsize : tree'.size = tree.size) :
    F.Together o ⟨s.rest, lastEnd, tree⟩ ⟨s'.rest, lastEnd', tree'⟩ := by
  have htext := h.current.1.text
  obtain ⟨front, front', hcommon, hrest, hrest'⟩ := h.front
  refine ⟨⟨front, front', ⟨hcommon.ne_nil, ?_, hcommon.last⟩, hrest, hrest'⟩, h.suffix, hsize,
    h.ours.within hwithin, h.theirs.within hwithin', ?_⟩
  · refine hcommon.same.imp fun t _ ⟨hsame, hnamed⟩ => ⟨hsame.within hwithin hwithin', ?_⟩
    rwa [Token.lexeme_of_within hsame.text hwithin]
  · intro y hy
    rw [← h.next y hy]
    exact Token.lexeme_of_within htext hwithin

/-- Some of the common tokens have been read. -/
theorem Together.drop {front front' : List Token} {lastEnd lastEnd' : Position}
    (h : F.Together o s s') (hcommon : F.Common s.tree.symbols s'.tree.symbols front front')
    (hsuffix : front ++ F.ours.rest <:+ F.ours.all) :
    F.Together none ⟨front ++ F.ours.rest, lastEnd, s.tree⟩
      ⟨front' ++ F.theirs.rest, lastEnd', s'.tree⟩ :=
  ⟨⟨front, front', hcommon, rfl, rfl⟩, hsuffix, h.size, h.ours, h.theirs, nofun⟩

/-- The next token is read: it may be the last common one. -/
theorem Together.advance (h : F.Together o s s') :
    (F.before = some (s.current F.ours.context).kind ∧ F.ours.Stands s.advance ∧
        F.theirs.Stands s'.advance) ∨ F.Together none s.advance s'.advance := by
  obtain ⟨front, front', hcommon, hrest, hrest'⟩ := h.front
  obtain ⟨rest, lastEnd, tree⟩ := s
  obtain ⟨rest', lastEnd', tree'⟩ := s'
  obtain rfl : rest = front ++ F.ours.rest := hrest
  obtain rfl : rest' = front' ++ F.theirs.rest := hrest'
  obtain ⟨hne, hsame, hlast⟩ := hcommon
  cases hsame with
  | nil => exact absurd rfl hne
  | @cons token token' front front' htoken hsame =>
    cases hsame with
    | nil => exact .inl ⟨hlast.symm, ⟨rfl, h.ours⟩, ⟨rfl, h.theirs⟩⟩
    | cons hsecond hsame =>
      have hsuffix := (List.suffix_cons _ _).trans h.suffix
      exact .inr (h.drop ⟨List.cons_ne_nil _ _, .cons hsecond hsame, hlast⟩ hsuffix)

/-- Line feeds are skipped: they may be the last common tokens. -/
theorem Together.skipNewlines (h : F.Together o s s') :
    (F.before = some .newline ∧ s.rest.dropWhile (·.kind = .newline) =
        F.ours.rest.dropWhile (·.kind = .newline) ∧ s'.rest.dropWhile (·.kind = .newline) =
        F.theirs.rest.dropWhile (·.kind = .newline)) ∨
      F.Together none ⟨s.rest.dropWhile (·.kind = .newline), s.lastEnd, s.tree⟩
        ⟨s'.rest.dropWhile (·.kind = .newline), s'.lastEnd, s'.tree⟩ := by
  obtain ⟨front, front', ⟨hne, hsame, hlast⟩, hrest, hrest'⟩ := h.front
  have hdrop : List.Forall₂ _ (front.dropWhile fun t => decide (t.kind = .newline))
      (front'.dropWhile fun t => decide (t.kind = .newline)) :=
    forall₂_dropWhile hsame fun t t' ht => by rw [ht.1.kind]
  have hdropWhile {front : List Token} (rest : List Token)
      (hnil : front.dropWhile (·.kind = .newline) = []) :
      (front ++ rest).dropWhile (·.kind = .newline) = rest.dropWhile (·.kind = .newline) := by
    rw [List.dropWhile_append, if_pos (by simpa using hnil)]
  rw [hrest, hrest']
  generalize hfront : front.dropWhile (fun t => decide (t.kind = .newline)) = left at hdrop
  generalize hfront' : front'.dropWhile (fun t => decide (t.kind = .newline)) = left' at hdrop
  cases hdrop with
  | nil =>
    refine .inl ⟨?_, hdropWhile _ hfront, hdropWhile _ hfront'⟩
    obtain ⟨token, htoken⟩ := Option.ne_none_iff_exists'.mp
      (fun hnone => hne (List.getLast?_eq_none_iff.mp hnone) : front.getLast? ≠ none)
    have hnewline := List.dropWhile_eq_nil_iff.mp hfront token (List.mem_of_getLast? htoken)
    rw [← hlast, htoken]
    simpa using hnewline
  | @cons token token' left left' htoken hdrop =>
    have hsuffix : front.dropWhile (fun t => decide (t.kind = .newline)) <:+ front :=
      List.dropWhile_suffix _
    rw [hfront] at hsuffix
    rw [List.dropWhile_append, List.dropWhile_append, hfront, hfront']
    refine .inr (h.drop ⟨List.cons_ne_nil _ _, .cons htoken hdrop, ?_⟩ ?_)
    · obtain ⟨skipped, rfl⟩ := hsuffix
      rw [← hlast, List.getLast?_append_of_ne_nil _ (List.cons_ne_nil _ _)]
    · refine List.IsSuffix.trans ?_ h.suffix
      rw [hrest]
      obtain ⟨skipped, rfl⟩ := hsuffix
      exact ⟨skipped, by simp⟩

/-- The token behind the next one: the next one may be the last common token. -/
theorem Together.behind (h : F.Together o s s') :
    (F.before = some (s.current F.ours.context).kind ∧
        ((s.rest.drop 1).head?.getD F.ours.context.endToken).kind = F.ours.next.kind ∧
        ((s'.rest.drop 1).head?.getD F.theirs.context.endToken).kind = F.theirs.next.kind ∧
        F.ours.Stands s.advance ∧ F.theirs.Stands s'.advance) ∨
      ((s.rest.drop 1).head?.getD F.ours.context.endToken).kind =
        ((s'.rest.drop 1).head?.getD F.theirs.context.endToken).kind := by
  rcases h.advance with ⟨hbefore, hs, hs'⟩ | hs
  · have hkind {G : Gate} {s : State} (hs : G.Stands s.advance) :
        ((s.rest.drop 1).head?.getD G.context.endToken).kind = G.next.kind := by
      rw [← hs.knows.lexeme, Gate.token, ← hs.rest]
      obtain ⟨_ | ⟨token, rest⟩, lastEnd, tree⟩ := s <;> rfl
    exact .inl ⟨hbefore, hkind hs, hkind hs', hs, hs'⟩
  · refine .inr ?_
    have hkind := hs.current.1.kind
    obtain ⟨_ | ⟨token, rest⟩, lastEnd, tree⟩ := s <;>
      obtain ⟨_ | ⟨token', rest'⟩, lastEnd', tree'⟩ := s' <;> exact hkind

/-! ## Where the lists part -/

theorem abreast_of_meets {m : Reading α} (hs : F.ours.Stands s) (hs' : F.theirs.Stands s')
    (h : F.parting.Meets m there) :
    F.Abreast settled here there (run F.ours.context (Rule.enter F.ours.context n) m p s)
      (run F.theirs.context (Rule.enter F.theirs.context n') m p' s') := by
  rcases Gate.ends_run (n := n) (p := p) m hs with hours | ⟨v, hv, hleaves⟩
  · exact .ours hours
  · rcases Gate.ends_run (n := n') (p := p') m hs' with htheirs | ⟨v', hv', hleaves'⟩
    · exact .theirs htheirs
    · exact .parted v v' hv hv' (h v hleaves v' hleaves')

/-- What a call that is described by `keeps` leads to. -/
theorem Abreast.called {kept : Verdict NodeId → Prop} {next : NodeId → Reading β}
    {here : NodeId → Option Lexeme → Prop} {x x' : Except ParseError (NodeId × State)}
    (hx : F.Abreast settled here (fun v v' => v.Then settled fun _ => kept v') x x')
    (hjoins : ∀ id v', kept v' → F.parting.Joins (.passes id) v' next there₁) :
    F.Abreast settled here (fun v v' => F.parting.Joins v v' next there₁) x x' := by
  cases hx with
  | together o h ha => exact .together o h ha
  | early hleft hlt hplace => exact .early hleft hlt hplace
  | settled h hsettled => exact .settled h hsettled
  | ours h => exact .ours h
  | theirs h => exact .theirs h
  | parted v v' hv hv' hthere =>
    cases v with
    | refuses expected => exact .settled hv hthere
    | passes id => exact .parted _ _ hv hv' (hjoins id v' hthere)

/-- What two outcomes lead to. -/
theorem Abreast.bind {x x' : Except ParseError (α × State)}
    {f f' : α × State → Except ParseError (β × State)} (next : α → Reading β)
    (hx : F.Abreast settled here (fun v v' => F.parting.Joins v v' next there₁) x x')
    (hgo : ∀ a s, Forward F.ours.context s (f (a, s)))
    (hgo' : ∀ a s, Forward F.theirs.context s (f' (a, s)))
    (hf : ∀ a {s}, F.ours.Stands s → F.ours.Ends ((next a).Leaves F.ours.next) (f (a, s)))
    (hf' : ∀ a {s}, F.theirs.Stands s → F.theirs.Ends ((next a).Leaves F.theirs.next) (f' (a, s)))
    (hhere : ∀ a o {s s'}, F.Together o s s' → here a o →
      F.Abreast settled here₁ there₁ (f (a, s)) (f' (a, s'))) :
    F.Abreast settled here₁ there₁ (x.bind f) (x'.bind f') := by
  cases hx with
  | together o h ha => exact hhere _ o h ha
  | early hleft hlt hplace => exact .early hleft hlt hplace
  | settled h hsettled =>
    cases h with
    | refuses h => exact .settled (.refuses h) hsettled
  | ours h => exact .ours (h.bind hgo)
  | theirs h => exact .theirs (h.bind hgo')
  | parted v v' h h' hjoins =>
    -- The two runs have nothing to do with each other any more.
    have hours : F.ours.Ends (Leads (· = v) fun a => (next a).Leaves F.ours.next) (x.bind f) := by
      cases h with
      | passes hs => exact .imp (fun w hw => .inl ⟨_, rfl, hw⟩) (hf _ hs)
      | refuses he => exact .comes _ (.refuses he) (.inr ⟨_, rfl, rfl⟩)
    have htheirs : F.theirs.Ends (Leads (· = v') fun a => (next a).Leaves F.theirs.next)
        (x'.bind f') := by
      cases h' with
      | passes hs => exact .imp (fun w hw => .inl ⟨_, rfl, hw⟩) (hf' _ hs)
      | refuses he => exact .comes _ (.refuses he) (.inr ⟨_, rfl, rfl⟩)
    rcases hours with hours | ⟨w, hw, hleads⟩
    · exact .ours hours
    · rcases htheirs with htheirs | ⟨w', hw', hleads'⟩
      · exact .theirs htheirs
      · exact .parted w w' hw hw' (hjoins w w' hleads hleads')

/-! ## Reading two tokens at once -/

theorem strides_assignment {y x : Lexeme} (hnamed : y.Named) (hkind : y.kind = .identifier)
    (hassign : x.kind = .mark .assign) : Rule.assignment.reading.Strides y x := by
  obtain ⟨kind, text⟩ := y
  obtain rfl : kind = .identifier := hkind
  obtain ⟨text, rfl⟩ := Option.isSome_iff_exists.mp (hnamed rfl)
  refine ⟨nofun, ?_⟩
  show Rests x (expect (.mark .assign) >>= _) _
  simp [hassign]

section Strides

variable {G : Gate} {y : Lexeme} (hs : (s.current G.context).lexeme s.tree.symbols = y)
  (hadvance : G.Stands s.advance)
include hs hadvance

theorem strays_run (hcall : ∀ p, y.kind = .identifier → G.next.kind = .mark .assign →
      G.Strays (Rule.enter G.context n .assignment p s)) (m : Reading α) (h : m.Strides y G.next) :
    G.Strays (run G.context (Rule.enter G.context n) m p s) := by
  induction m with
  | step action next ih =>
    rw [run_step]
    cases action with
    | look =>
      subst hs
      exact ih _ h
    | advance =>
      rcases Gate.ends_run (n := n) (p := p) (next ()) hadvance with hstrays | ⟨v, -, hleaves⟩
      · exact hstrays
      · exact (h.2 v hleaves).elim
    | _ => exact h.elim
  | call rule next ih =>
    obtain ⟨rfl, hkind, hassign⟩ := h
    rw [run_call]
    exact (hcall p hkind hassign).bind fun id s => forward_run (forward_enter n) (next id) s
  | done | frame | «repeat» => exact h.elim

theorem strays_assignment (hnamed : y.Named) (n : Nat) (p : Position) (hkind : y.kind = .identifier)
    (hassign : G.next.kind = .mark .assign) :
    G.Strays (Rule.enter G.context n .assignment p s) := by
  induction n generalizing p with
  | zero => exact .of_limit rfl
  | succ n ih =>
    exact strays_run hs hadvance (fun p _ _ => ih p) Rule.assignment.reading
      (strides_assignment hnamed hkind hassign)

theorem strays_of_strides (hnamed : y.Named) (m : Reading α) (h : m.Strides y G.next) :
    G.Strays (run G.context (Rule.enter G.context n) m p s) :=
  strays_run hs hadvance (fun p => strays_assignment hs hadvance hnamed n p) m h

end Strides

/-! ## Side by side -/

theorem stands_skipNewlines {G : Gate}
    (h : G.Knows s.tree.symbols)
    (hrest : s.rest.dropWhile (·.kind = .newline) = G.rest.dropWhile (·.kind = .newline)) :
    (G.next.kind ≠ .newline ∧
        G.Stands ⟨s.rest.dropWhile (·.kind = .newline), s.lastEnd, s.tree⟩) ∨
      s.rest.dropWhile (·.kind = .newline) <:+ G.all ∧
        (s.rest.dropWhile (·.kind = .newline)).length < G.rest.length := by
  have hstands : G.Stands ⟨G.rest, s.lastEnd, s.tree⟩ := ⟨rfl, h⟩
  rw [hrest]
  rcases hstands.skipNewlines with ⟨hkind, hdrop⟩ | hlt
  · exact .inl ⟨hkind, hdrop, h⟩
  · exact .inr hlt

/-- Line feeds are read: they may be the last common tokens, and there may be more of them
behind. -/
theorem abreast_skipNewlines {m : Reading α} (h : F.Together o s s')
    (hmeets : F.before = some .newline → F.ours.next.kind ≠ .newline →
      F.theirs.next.kind ≠ .newline → F.parting.Meets m there)
    (hnext : ∀ {s s'}, F.Together none s s' → F.Abreast settled here there
      (run F.ours.context (Rule.enter F.ours.context n) m p s)
      (run F.theirs.context (Rule.enter F.theirs.context n') m p' s')) :
    F.Abreast settled here there
      (run F.ours.context (Rule.enter F.ours.context n) m p
        ⟨s.rest.dropWhile (·.kind = .newline), s.lastEnd, s.tree⟩)
      (run F.theirs.context (Rule.enter F.theirs.context n') m p'
        ⟨s'.rest.dropWhile (·.kind = .newline), s'.lastEnd, s'.tree⟩) := by
  rcases h.skipNewlines with ⟨hbefore, hrest, hrest'⟩ | h'
  · -- A run that skips the token at which the lists part has gone past it.
    rcases stands_skipNewlines h.ours hrest with ⟨hkind, hs⟩ | ⟨hsuffix, hlt⟩
    · rcases stands_skipNewlines h.theirs hrest' with ⟨hkind', hs'⟩ | ⟨hsuffix, hlt⟩
      · exact abreast_of_meets hs hs' (hmeets hbefore hkind hkind')
      · exact .theirs (.of_forward hsuffix hlt (forward_run (forward_enter n') m _))
    · exact .ours (.of_forward hsuffix hlt (forward_run (forward_enter n) m _))
  · exact hnext h'

/-- The token behind the next one is foreseen: it may be the one at which the lists part. -/
theorem abreast_lookBehind {next : TokenKind → Reading α} (h : F.Together o s s')
    (hforesees : F.parting.Foresees next o)
    (hnext : ∀ kind, F.Abreast settled here there
      (run F.ours.context (Rule.enter F.ours.context n) (next kind) p s)
      (run F.theirs.context (Rule.enter F.theirs.context n') (next kind) p' s')) :
    F.Abreast settled here there
      (run F.ours.context (Rule.enter F.ours.context n)
        (next ((s.rest.drop 1).head?.getD F.ours.context.endToken).kind) p s)
      (run F.theirs.context (Rule.enter F.theirs.context n')
        (next ((s'.rest.drop 1).head?.getD F.theirs.context.endToken).kind) p' s') := by
  obtain ⟨y, rfl, hforesees⟩ := hforesees
  rcases h.behind with ⟨hbefore, hbehind, hbehind', hs, hs'⟩ | hbehind
  · have hy := h.next y rfl
    have hy' := h.current.1.lexeme.symm.trans hy
    have hnamed := hy ▸ h.current.2
    rw [hbehind, hbehind']
    rcases hforesees hnamed (hbefore.trans (congrArg (some ·.kind) hy)) with hours | htheirs | heq
    · exact .ours (strays_of_strides hy hs hnamed _ hours)
    · exact .theirs (strays_of_strides hy' hs' hnamed _ htheirs)
    · rw [show next F.theirs.next.kind = next F.ours.next.kind from heq.symm]
      exact hnext _
  · rw [hbehind]
    exact hnext _

section Run

variable {keeps : Rule → Verdict NodeId → Prop}
  (hcalls : ∀ rule p p' {o s s'}, rule ≠ .compilationUnit → F.Together o s s' →
    F.Abreast settled (fun _ _ => True) (fun v v' => v.Then settled fun _ => keeps rule v')
      (Rule.enter F.ours.context n rule p s) (Rule.enter F.theirs.context n' rule p' s'))

theorem abreast_runRounds {round : σ → Reading (Round σ β)} {next : β → Reading α}
    (hround : ∀ x {s s'}, F.Together none s s' → F.Abreast settled (fun _ _ => True)
      (fun v v' => F.parting.Joins v v' (·.onward round next) there)
      (run F.ours.context (Rule.enter F.ours.context n) (round x) p s)
      (run F.theirs.context (Rule.enter F.theirs.context n') (round x) p' s'))
    (hnext : ∀ x {s s'}, F.Together none s s' → F.Abreast settled here there
      (run F.ours.context (Rule.enter F.ours.context n) (next x) p s)
      (run F.theirs.context (Rule.enter F.theirs.context n') (next x) p' s'))
    (count count' : Nat) (x : σ) (h : F.Together none s s') :
    F.Abreast settled here there (runRounds F.ours.context n round next p count x s)
      (runRounds F.theirs.context n' round next p' count' x s') := by
  induction count generalizing count' x s s' with
  | zero => exact .ours .of_stalled
  | succ count ih =>
    cases count' with
    | zero => exact .theirs .of_stalled
    | succ count' =>
      rw [runRounds_succ, runRounds_succ]
      refine (hround x h).bind (·.onward round next) (forward_runOnward _ _ _ _ _ _)
        (forward_runOnward _ _ _ _ _ _) (fun _ _ hs => Gate.ends_runOnward _ hs)
        (fun _ _ hs => Gate.ends_runOnward _ hs) fun y o s s' h _ => ?_
      cases y with
      | again y => exact ih count' y h.forget
      | stop b => exact hnext b h.forget

include hcalls

theorem abreast_run (m : Reading α) (hm : F.parting.Lockstep keeps m here there o)
    (h : F.Together o s s') :
    F.Abreast settled here there (run F.ours.context (Rule.enter F.ours.context n) m p s)
      (run F.theirs.context (Rule.enter F.theirs.context n') m p' s') := by
  -- By the program.  The runs stay together until one of them may have read the last common
  -- token; from there on the rest of the program is judged by the token that comes next.
  induction m generalizing o p p' s s' with
  | done a => exact .together o h hm
  | step action next ih =>
    rw [run_step, run_step]
    cases action with
    | look =>
      obtain ⟨hsame, hnamed⟩ := h.current
      show F.Abreast settled here there (run _ _ (next ((s.current _).lexeme _)) p s)
        (run _ _ (next ((s'.current _).lexeme _)) p' s')
      rw [← hsame.lexeme]
      cases o with
      | none => exact ih _ (hm _) { h with next := fun y hy => Option.some.inj hy }
      | some y =>
        rw [h.next y rfl]
        exact ih y hm h
    | lookBehind => exact abreast_lookBehind h hm.1 fun kind => ih kind (hm.2 kind) h
    | advance =>
      rcases h.advance with ⟨hbefore, hs, hs'⟩ | h'
      · refine abreast_of_meets hs hs' (hm.1 fun y hy => ?_)
        rw [← h.next y hy]
        exact hbefore
      · exact ih () hm.2 h'
    | skipNewlines => exact abreast_skipNewlines h hm.1 fun h' => ih () hm.2 h'
    | openNode kind =>
      simp only [perform]
      split
      · exact .ours (.of_limit rfl)
      · split
        · exact .theirs (.of_limit rfl)
        · show F.Abreast settled here there (run _ _ (next ⟨s.tree.size⟩) p _)
            (run _ _ (next ⟨s'.tree.size⟩) p' _)
          rw [h.size]
          exact ih _ (hm _) (h.build (.refl _) (.refl _) (by simp [h.size]))
    | closeNode id | setKind id kind =>
      exact ih () hm (h.build (.refl _) (.refl _) (by simp [Tree.setSpan, Tree.setKind, h.size]))
    | attach parent child =>
      refine ih () hm (h.build ?_ ?_ (by simp [h.size]))
      · rw [symbols_attach]
        exact .refl _
      · rw [symbols_attach]
        exact .refl _
    | intern text =>
      exact ih () hm (h.build (SymbolTable.within_intern _ _) (SymbolTable.within_intern _ _)
        h.size)
    | reject expected => exact h.fail _ _
    | refuseLiteral fault => exact h.fail _ _
  | call rule next ih =>
    obtain ⟨hrule, hjoins, hm⟩ := hm
    rw [run_call, run_call]
    exact ((hcalls rule p p' hrule h).called hjoins).bind next
      (fun id s => forward_run (forward_enter n) (next id) s)
      (fun id s => forward_run (forward_enter n') (next id) s) (fun id _ hs => Gate.ends_run _ hs)
      (fun id _ hs => Gate.ends_run _ hs) fun id o s s' h _ => ih id (hm id) h.forget
  | frame body next ihbody ih =>
    rw [run_frame, run_frame]
    exact (ihbody hm h).bind next (fun b s => forward_run (forward_enter n) (next b) s)
      (fun b s => forward_run (forward_enter n') (next b) s) (fun b _ hs => Gate.ends_run _ hs)
      (fun b _ hs => Gate.ends_run _ hs) fun b o s s' h hb => ih b hb h
  | «repeat» round state next ihround ih =>
    rw [run_repeat, run_repeat]
    exact abreast_runRounds (fun x {s s'} h => ihround x (hm.1 x) h)
      (fun x {s s'} h => ih x (hm.2 x) h) _ _ state h.forget

omit hcalls in
/-- If the verdicts of every rule fit, those of calls do, whatever the numbers of levels left. -/
theorem abreast_enter
    (hrules : ∀ rule, rule ≠ .compilationUnit → F.parting.Lockstep keeps rule.reading
      (fun _ _ => True) (fun v v' => v.Then settled fun _ => keeps rule v') none)
    (n n' : Nat) (rule : Rule) (p p' : Position) (hrule : rule ≠ .compilationUnit)
    (h : F.Together o s s') :
    F.Abreast settled (fun _ _ => True) (fun v v' => v.Then settled fun _ => keeps rule v')
      (Rule.enter F.ours.context n rule p s) (Rule.enter F.theirs.context n' rule p' s') := by
  induction n generalizing n' rule p p' o s s' with
  | zero => exact .ours (.of_limit rfl)
  | succ n ih =>
    cases n' with
    | zero => exact .theirs (.of_limit rfl)
    | succ n' =>
      exact abreast_run (fun rule p p' {o s s'} hrule h => ih n' rule p p' hrule h) rule.reading
        (hrules rule hrule) h.forget

end Run

end Fork

/-! ## Putting programs together -/

namespace Parting

variable {F : Parting} {keeps : Rule → Verdict NodeId → Prop} {α β σ : Type}
  {here : α → Option Lexeme → Prop} {there : Verdict α → Verdict α → Prop} {o : Option Lexeme}
  {y : Lexeme}

@[simp ↓] theorem meets_iff {m : Reading α} :
    F.Meets m there ↔ m.Rests F.ours fun v => m.Rests F.theirs (there v) := .rfl

theorem joins_iff {v v' : Verdict β} {next : β → Reading α} : F.Joins v v' next there ↔
    v.Then
      (fun expected => v'.Then (fun expected' => there (.refuses expected) (.refuses expected'))
        fun b' => (next b').Rests F.theirs (there (.refuses expected)))
      fun b => (next b).Rests F.ours fun w =>
        v'.Then (fun expected' => there w (.refuses expected'))
          fun b' => (next b').Rests F.theirs (there w) := by
  cases v <;> cases v' <;> simp only [Joins, Rests, leads_passes, leads_refuses, then_passes,
    then_refuses, forall_eq, forall_eq_apply_imp_iff]
  · exact ⟨fun h w' => h _ w' rfl, fun h w w' hw => hw ▸ h w'⟩
  · exact ⟨fun h w hw w' => h w w' hw, fun h w w' hw => h w hw w'⟩

@[simp ↓] theorem joins_refuses {expected expected' : List Expected} {next : β → Reading α} :
    F.Joins (.refuses expected) (.refuses expected') next there ↔
      there (.refuses expected) (.refuses expected') := joins_iff

@[simp ↓] theorem joins_passes {b b' : β} {next : β → Reading α} :
    F.Joins (.passes b) (.passes b') next there ↔ (next b).Rests F.ours fun v =>
      (next b').Rests F.theirs (there v) := joins_iff

@[simp ↓] theorem joins_refuses_passes {expected : List Expected} {b : β} {next : β → Reading α} :
    F.Joins (.refuses expected) (.passes b) next there ↔
      (next b).Rests F.theirs (there (.refuses expected)) := joins_iff

@[simp ↓] theorem joins_passes_refuses {expected : List Expected} {b : β} {next : β → Reading α} :
    F.Joins (.passes b) (.refuses expected) next there ↔
      (next b).Rests F.ours fun v => there v (.refuses expected) := joins_iff

theorem Meets.imp {there' : Verdict α → Verdict α → Prop} {m : Reading α} (h : F.Meets m there)
    (hthere : ∀ v v', there v v' → there' v v') : F.Meets m there' :=
  fun v hv v' hv' => hthere v v' (h v hv v' hv')

theorem Joins.imp {v v' : Verdict β} {next : β → Reading α} {there' : Verdict α → Verdict α → Prop}
    (h : F.Joins v v' next there) (hthere : ∀ v v', there v v' → there' v v') :
    F.Joins v v' next there' :=
  fun w w' hw hw' => hthere w w' (h w w' hw hw')

/-- One program after another at once, or one by one. -/
theorem meets_joins {m : Reading β} {f : β → Reading α} :
    F.Meets m (fun v v' => F.Joins v v' f there) ↔ F.Meets (m >>= f) there := by
  constructor
  · intro h w hw w' hw'
    obtain ⟨v, hv, hw⟩ := leads_iff.mp ((leaves_bind m f w).mp hw)
    obtain ⟨v', hv', hw'⟩ := leads_iff.mp ((leaves_bind m f w').mp hw')
    exact h v hv v' hv' w w' hw hw'
  · intro h v hv v' hv' w w' hw hw'
    exact h w ((leaves_bind m f w).mpr (leads_iff.mpr ⟨v, hv, hw⟩)) w'
      ((leaves_bind m f w').mpr (leads_iff.mpr ⟨v', hv', hw'⟩))

theorem Joins.bind {γ : Type} {v v' : Verdict γ} {next : γ → Reading β} {f : β → Reading α}
    (h : F.Joins v v' next fun w w' => F.Joins w w' f there) :
    F.Joins v v' (fun c => next c >>= f) there := by
  have hleads {x : Lexeme} {v : Verdict γ} {w : Verdict α}
      (hw : Leads (· = v) (fun c => (next c >>= f).Leaves x) w) :
      ∃ u, Leads (· = v) (fun c => (next c).Leaves x) u ∧
        Leads (· = u) (fun b => (f b).Leaves x) w := by
    have hassoc := (leads_congr (fun _ => .rfl) fun c => leaves_bind (next c) f).mp hw
    exact leads_iff.mp (leads_assoc.mp hassoc)
  intro w w' hw hw'
  obtain ⟨u, hu, hw⟩ := hleads hw
  obtain ⟨u', hu', hw'⟩ := hleads hw'
  exact h u u' hu hu' w w' hw hw'

/-- What is asked of what follows a call. -/
def Returns (F : Parting) (keeps : Rule → Verdict NodeId → Prop) (rule : Rule)
    (next : NodeId → Reading α) (there : Verdict α → Verdict α → Prop) : Prop :=
  ∀ id v', keeps rule v' → F.Joins (.passes id) v' next there

theorem strides_bind {x : Lexeme} {m : Reading β} (f : β → Reading α) (h : m.Strides y x) :
    (m >>= f).Strides y x := by
  show (m.bind f).Strides y x
  induction m with
  | step action next ih =>
    cases action with
    | look => exact ih y f h
    | advance =>
      refine ⟨h.1, (rests_bind _ f).mpr (h.2.imp fun v hv => hv.elim)⟩
    | _ => exact h.elim
  | call => exact h
  | done | frame | «repeat» => exact h.elim

namespace Lockstep

theorem imp {here' : α → Option Lexeme → Prop} {there' : Verdict α → Verdict α → Prop}
    {m : Reading α} (h : F.Lockstep keeps m here there o) (hhere : ∀ a o, here a o → here' a o)
    (hthere : ∀ v v', there v v' → there' v v') : F.Lockstep keeps m here' there' o := by
  induction m generalizing o with
  | done a => exact hhere a o h
  | step action next ih =>
    cases action with
    | look =>
      cases o with
      | none => exact fun y => ih y (h y) hhere hthere
      | some y => exact ih y h hhere hthere
    | lookBehind => exact ⟨h.1, fun kind => ih kind (h.2 kind) hhere hthere⟩
    | advance => exact ⟨fun hbefore => (h.1 hbefore).imp hthere, ih () h.2 hhere hthere⟩
    | skipNewlines =>
      exact ⟨fun hbefore hours htheirs => (h.1 hbefore hours htheirs).imp hthere,
        ih () h.2 hhere hthere⟩
    | openNode => exact fun id => ih id (h id) hhere hthere
    | closeNode | setKind | attach | intern => exact ih () h hhere hthere
    | reject | refuseLiteral => trivial
  | call rule next ih =>
    exact ⟨h.1, fun id v' hv' => (h.2.1 id v' hv').imp hthere,
      fun id => ih id (h.2.2 id) hhere hthere⟩
  | frame body next ihbody ih =>
    exact ihbody h (fun b o hb => ih b hb hhere hthere) fun v v' hv => hv.imp hthere
  | «repeat» round state next ihround ih =>
    exact ⟨fun x => ihround x (h.1 x) (fun _ _ => id) fun v v' hv => hv.imp hthere,
      fun b => ih b (h.2 b) hhere hthere⟩

theorem bind {m : Reading β} {f : β → Reading α}
    (h : F.Lockstep keeps m (fun b => F.Lockstep keeps (f b) here there)
      (fun v v' => F.Joins v v' f there) o) : F.Lockstep keeps (m >>= f) here there o := by
  show F.Lockstep keeps (m.bind f) here there o
  induction m generalizing o with
  | done b => exact h
  | step action next ih =>
    cases action with
    | look =>
      cases o with
      | none => exact fun y => ih y (h y)
      | some y => exact ih y h
    | lookBehind =>
      obtain ⟨⟨y, rfl, hforesees⟩, h⟩ := h
      refine ⟨⟨y, rfl, fun hnamed hbefore => ?_⟩, fun kind => ih kind (h kind)⟩
      rcases hforesees hnamed hbefore with hours | htheirs | heq
      · exact .inl (strides_bind f hours)
      · exact .inr (.inl (strides_bind f htheirs))
      · exact .inr (.inr (congrArg (·.bind f) heq))
    | advance => exact ⟨fun hbefore => meets_joins.mp (h.1 hbefore), ih () h.2⟩
    | skipNewlines =>
      exact ⟨fun hbefore hours htheirs => meets_joins.mp (h.1 hbefore hours htheirs), ih () h.2⟩
    | openNode => exact fun id => ih id (h id)
    | closeNode | setKind | attach | intern => exact ih () h
    | reject | refuseLiteral => trivial
  | call rule next ih =>
    exact ⟨h.1, fun id v' hv' => (h.2.1 id v' hv').bind, fun id => ih id (h.2.2 id)⟩
  | frame body next ihbody ih =>
    exact imp (m := body) h (fun b o hb => ih b hb) fun v v' hv => hv.bind
  | «repeat» round state next ihround ih =>
    refine ⟨fun x => (h.1 x).imp (fun _ _ => id) fun v v' hv => ?_, fun b => ih b (h.2 b)⟩
    have hv' := hv.bind
    refine cast (congrArg (F.Joins v v' · there) (funext fun r => ?_)) hv'
    cases r <;> rfl

theorem pure {a : α} (h : here a o) : F.Lockstep keeps (pure a) here there o := h

theorem reject {expected : List Expected} :
    F.Lockstep keeps (reject expected) here there o := trivial

theorem reject_bind {expected : List Expected} {f : β → Reading α} :
    F.Lockstep keeps (Reading.reject expected >>= f) here there o := trivial

theorem refuseLiteral {fault : ParseFault} :
    F.Lockstep keeps (refuseLiteral fault) here there o := trivial

theorem look {f : Lexeme → Reading α} (h : ∀ y, F.Lockstep keeps (f y) here there (some y)) :
    F.Lockstep keeps (look >>= f) here there o := by
  cases o with
  | none => exact h
  | some y => exact h y

theorem peek {f : TokenKind → Reading α}
    (h : ∀ y : Lexeme, F.Lockstep keeps (f y.kind) here there (some y)) :
    F.Lockstep keeps (peek >>= f) here there o := by
  cases o with
  | none => exact h
  | some y => exact h y

theorem peekBehind {f : TokenKind → Reading α} (hf : F.Foresees f o)
    (h : ∀ kind, F.Lockstep keeps (f kind) here there o) :
    F.Lockstep keeps (peekBehind >>= f) here there o := ⟨hf, h⟩

theorem advance {f : Unit → Reading α} (hgate : F.before = some y.kind → F.Meets (f ()) there)
    (h : F.Lockstep keeps (f ()) here there none) :
    F.Lockstep keeps (advance >>= f) here there (some y) :=
  ⟨fun hy => hgate (hy y rfl), h⟩

theorem skipNewlines {f : Unit → Reading α}
    (hgate : F.before = some .newline → F.ours.kind ≠ .newline → F.theirs.kind ≠ .newline →
      F.Meets (f ()) there) (h : F.Lockstep keeps (f ()) here there none) :
    F.Lockstep keeps (skipNewlines >>= f) here there o := ⟨hgate, h⟩

theorem skipNewlines_end {here : Unit → Option Lexeme → Prop}
    {there : Verdict Unit → Verdict Unit → Prop}
    (hgate : F.before = some .newline → F.ours.kind ≠ .newline → F.theirs.kind ≠ .newline →
      there (.passes ()) (.passes ())) (h : here () none) :
    F.Lockstep keeps Reading.skipNewlines here there o :=
  ⟨fun hbefore hours htheirs => meets_iff.mpr
    ((rests_done ()).mpr ((rests_done ()).mpr (hgate hbefore hours htheirs))), h⟩

theorem openNode {kind : NodeKind} {f : NodeId → Reading α}
    (h : ∀ id, F.Lockstep keeps (f id) here there o) :
    F.Lockstep keeps (openNode kind >>= f) here there o := h

theorem closeNode {id : NodeId} {here : NodeId → Option Lexeme → Prop}
    {there : Verdict NodeId → Verdict NodeId → Prop} (h : here id o) :
    F.Lockstep keeps (closeNode id) here there o := h

theorem closeNode_bind {id : NodeId} {f : NodeId → Reading α}
    (h : F.Lockstep keeps (f id) here there o) :
    F.Lockstep keeps (Reading.closeNode id >>= f) here there o := h

theorem setKind {id : NodeId} {kind : NodeKind} {f : Unit → Reading α}
    (h : F.Lockstep keeps (f ()) here there o) :
    F.Lockstep keeps (setKind id kind >>= f) here there o := h

theorem attach {parent child : NodeId} {f : Unit → Reading α}
    (h : F.Lockstep keeps (f ()) here there o) :
    F.Lockstep keeps (attach parent child >>= f) here there o := h

theorem intern {text : String} {f : Unit → Reading α}
    (h : F.Lockstep keeps (f ()) here there o) :
    F.Lockstep keeps (intern text >>= f) here there o := h

theorem leaf {kind : NodeKind} {here : NodeId → Option Lexeme → Prop}
    {there : Verdict NodeId → Verdict NodeId → Prop} (h : ∀ id, here id o) :
    F.Lockstep keeps (leaf kind) here there o := h

theorem enter {rule : Rule} {here : NodeId → Option Lexeme → Prop}
    {there : Verdict NodeId → Verdict NodeId → Prop} (hrule : rule ≠ .compilationUnit)
    (hgate : F.Returns keeps rule .done there) (h : ∀ id, here id none) :
    F.Lockstep keeps (enter rule) here there o := ⟨hrule, hgate, h⟩

theorem enter_bind {rule : Rule} {f : NodeId → Reading α} (hrule : rule ≠ .compilationUnit)
    (hgate : F.Returns keeps rule f there) (h : ∀ id, F.Lockstep keeps (f id) here there none) :
    F.Lockstep keeps (Reading.enter rule >>= f) here there o := ⟨hrule, hgate, h⟩

theorem child {parent : NodeId} {rule : Rule} {f : Unit → Reading α}
    (hrule : rule ≠ .compilationUnit) (hgate : F.Returns keeps rule (fun _ => f ()) there)
    (h : F.Lockstep keeps (f ()) here there none) :
    F.Lockstep keeps (child parent rule >>= f) here there o := ⟨hrule, hgate, fun _ => h⟩

theorem framed {body : Reading β} {f : β → Reading α}
    (h : F.Lockstep keeps body (fun b => F.Lockstep keeps (f b) here there)
      (fun v v' => F.Joins v v' f there) o) :
    F.Lockstep keeps (framed body >>= f) here there o := h

theorem repeating {state : σ} {round : σ → Reading (Round σ β)} {f : β → Reading α}
    (hround : ∀ x, F.Lockstep keeps (round x) (fun _ _ => True)
      (fun v v' => F.Joins v v' (·.onward round f) there) none)
    (h : ∀ b, F.Lockstep keeps (f b) here there none) :
    F.Lockstep keeps (repeating state round >>= f) here there o := ⟨hround, h⟩

theorem repeating_end {state : σ} {round : σ → Reading (Round σ β)}
    {here : β → Option Lexeme → Prop} {there : Verdict β → Verdict β → Prop}
    (hround : ∀ x, F.Lockstep keeps (round x) (fun _ _ => True)
      (fun v v' => F.Joins v v' (·.onward round .done) there) none)
    (h : ∀ b, here b none) : F.Lockstep keeps (Reading.repeating state round) here there o :=
  ⟨hround, h⟩

theorem expect {kind : TokenKind} {f : Unit → Reading α}
    (hgate : F.before = some kind → F.Meets (f ()) there)
    (h : F.Lockstep keeps (f ()) here there none) :
    F.Lockstep keeps (expect kind >>= f) here there o := by
  show F.Lockstep keeps (Reading.peek >>= fun k =>
    (if k = kind then Reading.advance else Reading.reject [.token kind]) >>= f) here there o
  refine peek fun y => ?_
  split
  · next hy => exact advance (hy ▸ hgate) h
  · exact reject_bind

theorem accept {kind : TokenKind} {f : Bool → Reading α}
    (hgate : F.before = some kind → F.Meets (f true) there)
    (h : F.Lockstep keeps (f true) here there none)
    (hother : ∀ y : Lexeme, y.kind ≠ kind → F.Lockstep keeps (f false) here there (some y)) :
    F.Lockstep keeps (accept kind >>= f) here there o := by
  show F.Lockstep keeps (Reading.peek >>= fun k =>
    (if k = kind then Reading.advance >>= fun _ => Pure.pure true else Pure.pure false) >>= f)
      here there o
  refine peek fun y => ?_
  split
  · next hy => exact advance (hy ▸ hgate) h
  · next hy => exact hother y hy

theorem identifier {role : NameRole} {f : String → Reading α}
    (hgate : ∀ text, F.before = some .identifier → F.Meets (f text) there)
    (h : ∀ text, F.Lockstep keeps (f text) here there none) :
    F.Lockstep keeps (identifier role >>= f) here there o := by
  refine bind (look fun y => ?_)
  split
  · next text => exact advance (fun hbefore => meets_joins.mpr (hgate text hbefore)) (pure (h text))
  · exact reject

end Lockstep

end Parting

end Reading

end GoloSyntax
