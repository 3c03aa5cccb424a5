import GoloSyntax.Proofs.Grammar.Reads
import GoloSyntax.Proofs.Reading.Run
import GoloSyntax.Proofs.Tree.Building

/-! # Judging programs

A judgement `Judged` says of a program what it reads and what it does to the tree, both
ways: whenever the program succeeds, what it read and built is as the judgement says,
and whenever there is something to be read as the judgement says, the program succeeds
with it, unless the tree becomes too large.  What is read is a relation between two
places (`Reader`); what is done to the tree is an `Effect`.

Texts are given by a function of their numbers.  A program that succeeds has only used
texts of the table it ends with; a program that is to succeed must find the texts of the
tokens ahead of it in the table it begins with.

There is one lemma for each step and for each way to combine programs.  A rule of the
grammar is judged by putting these together.
-/
namespace GoloSyntax.Reading

/-- What programs are judged with. -/
structure Site where
  context : Context
  texts : Symbol → Option String
  enter : Rule → Position → State → Except ParseError (NodeId × State)
  endKind : context.endToken.kind = .endOfInput
  grows : ∀ {rule p s id s'}, enter rule p s = .ok (id, s') → s.Grows s'

/-- What a program does to the tree: `holds a t t' b` if answering `a` it turned `t` into
`t'` in the way described by `b`, which takes `cost b` new nodes. -/
structure Effect (α β : Type) where
  cost : β → Nat
  holds : α → Tree → Tree → β → Prop

namespace Site

variable (F : Site)

def piece (t : Token) : Piece := ⟨⟨t.kind, t.symbol.bind F.texts⟩, t.span⟩

/-- Where a state stands. -/
def view (s : State) : Reader :=
  ⟨s.rest.map F.piece, s.lastEnd, F.context.endToken.span.start⟩

def run {α : Type} (m : Reading α) (p : Position) (s : State) : Except ParseError (α × State) :=
  Reading.run F.context F.enter m p s

/-- The texts of a state are among the given ones. -/
def Known (s : State) : Prop :=
  ∀ symbol text, s.tree.symbols.text? symbol = some text → F.texts symbol = some text

/-- The tokens ahead have texts, and are not too many. -/
structure Ready (s : State) : Prop where
  bounded : s.rest.length ≤ F.context.tokenCount
  texts : ∀ t ∈ s.rest, ∀ symbol, t.symbol = some symbol →
    ∃ text, s.tree.symbols.text? symbol = some text ∧ F.texts symbol = some text

end Site

variable {F : Site} {α β γ δ : Type} {P P' : Reader → Prop} {p : Position} {s s' : State}

theorem Site.Known.of_grows (h : F.Known s') (hs : s.Grows s') : F.Known s :=
  fun symbol text ht => h symbol text (hs.symbols symbol text ht)

theorem Site.Ready.grows (h : F.Ready s) (hs : s.Grows s') : F.Ready s' where
  bounded := Nat.le_trans hs.rest.length_le h.bounded
  texts t ht symbol hsymbol := by
    obtain ⟨text, htext, hknown⟩ := h.texts t (hs.rest.mem ht) symbol hsymbol
    exact ⟨text, hs.symbols symbol text htext, hknown⟩

/-- `m` reads what `R` relates, with the effect `E`, wherever `P` holds. -/
structure Judged (F : Site) (P : Reader → Prop) (p : Position) (m : Reading α) (E : Effect α β)
    (R : Reader → Reader → β → Prop) : Prop where
  sound : ∀ {s a s'}, P (F.view s) → F.run m p s = .ok (a, s') → F.Known s' →
    ∃ b, R (F.view s) (F.view s') b ∧ E.holds a s.tree s'.tree b
  complete : ∀ {s r b}, P (F.view s) → F.Ready s → s.tree.size + E.cost b ≤ F.context.maxNodes →
    R (F.view s) r b → ∃ a s', F.run m p s = .ok (a, s') ∧ F.view s' = r ∧
      E.holds a s.tree s'.tree b

/-! ## Where a state stands -/

section View

@[simp] theorem kind_view (s : State) : (F.view s).kind = (s.current F.context).kind := by
  obtain ⟨rest, lastEnd, tree⟩ := s
  cases rest with
  | nil => exact F.endKind.symm
  | cons t rest => rfl

@[simp] theorem kindBehind_view (s : State) :
    (F.view s).kindBehind = ((s.rest.drop 1).head?.getD F.context.endToken).kind := by
  obtain ⟨rest, lastEnd, tree⟩ := s
  rcases rest with _ | ⟨t, _ | ⟨t', rest⟩⟩
  · exact F.endKind.symm
  · exact F.endKind.symm
  · rfl

@[simp] theorem start_view (s : State) :
    (F.view s).start = (s.current F.context).span.start := by
  obtain ⟨rest, lastEnd, tree⟩ := s
  cases rest <;> rfl

@[simp] theorem lastEnd_view (s : State) : (F.view s).lastEnd = s.lastEnd := rfl

@[simp] theorem view_advance (s : State) : F.view s.advance = (F.view s).advance := by
  obtain ⟨rest, lastEnd, tree⟩ := s
  cases rest with
  | nil => rfl
  | cons t rest => simp [Site.view, State.advance, Reader.advance, Site.piece]

@[simp] theorem length_rest_view (s : State) : (F.view s).rest.length = s.rest.length := by
  simp [Site.view]

/-- Where a state stands does not depend on its tree. -/
theorem view_tree (s : State) (t : Tree) : F.view ⟨s.rest, s.lastEnd, t⟩ = F.view s := rfl

theorem view_skipNewlines (s : State) :
    F.view ⟨s.rest.dropWhile (·.kind = .newline), s.lastEnd, s.tree⟩ =
      (F.view s).skipNewlines := by
  simp only [Site.view, Reader.skipNewlines, List.dropWhile_map]
  rfl

/-- A text that a token has is the one that is read. -/
theorem next_view_of_known (hknown : F.Known s) {kind : TokenKind} {text : String}
    (hkind : kind ≠ .endOfInput)
    (h : (s.current F.context).lexeme s.tree.symbols = ⟨kind, some text⟩) :
    (F.view s).next = ⟨kind, some text⟩ := by
  obtain ⟨rest, lastEnd, tree⟩ := s
  obtain ⟨hk, ht⟩ := Lexeme.mk.inj h
  cases rest with
  | nil => exact absurd (hk.symm.trans F.endKind) hkind
  | cons t rest =>
    obtain ⟨symbol, hsymbol, htext⟩ := Option.bind_eq_some_iff.mp ht
    have hkind' : t.kind = kind := hk
    have hsymbol' : t.symbol = some symbol := hsymbol
    simp [Site.view, Reader.next, Site.piece, hkind', hsymbol', hknown symbol text htext]

/-- A text that is read is the one that the token has. -/
theorem lexeme_of_ready (hready : F.Ready s) (h : (F.view s).kind ≠ .endOfInput) :
    (s.current F.context).lexeme s.tree.symbols = (F.view s).next := by
  obtain ⟨rest, lastEnd, tree⟩ := s
  cases rest with
  | nil => exact absurd rfl h
  | cons t rest =>
    have htext : t.text? tree.symbols = t.symbol.bind F.texts := by
      cases hsymbol : t.symbol with
      | none => simp [Token.text?, hsymbol]
      | some symbol =>
        obtain ⟨text, hs, hk⟩ := hready.texts t (by simp) symbol hsymbol
        simpa [Token.text?, hsymbol, hk] using hs
    show Token.lexeme t tree.symbols = (F.piece t).lexeme
    simp [Token.lexeme, Site.piece, htext]

end View

theorem run_look {f : Lexeme → Reading α} :
    Reading.run F.context F.enter (Reading.look >>= f) p s =
      Reading.run F.context F.enter (f ((s.current F.context).lexeme s.tree.symbols)) p s :=
  run_look_bind f

@[simp] theorem nodes_advance (s : State) : s.advance.tree.nodes = s.tree.nodes := by
  obtain ⟨rest, _, _⟩ := s
  cases rest <;> rfl

/-! ## Programs under other judgements -/

namespace Judged

variable {m : Reading α} {f : α → Reading γ} {E : Effect α β} {R R' : Reader → Reader → β → Prop}

theorem congr (hm : Judged F P p m E R) (h : ∀ s r b, P s → (R s r b ↔ R' s r b)) :
    Judged F P p m E R' where
  sound hP hrun hknown := by
    obtain ⟨b, hR, hE⟩ := hm.sound hP hrun hknown
    exact ⟨b, (h _ _ _ hP).mp hR, hE⟩
  complete hP hready hsize hR := hm.complete hP hready hsize ((h _ _ _ hP).mpr hR)

theorem weaken (hm : Judged F P p m E R) (h : ∀ s, P' s → P s) : Judged F P' p m E R where
  sound hP := hm.sound (h _ hP)
  complete hP := hm.complete (h _ hP)

/-- One program after the other: their effects together make up a third one. -/
theorem bind (E₂ : α → β → Effect γ δ) {ε : Type} (E₃ : Effect γ ε)
    (R₂ : β → Reader → Reader → δ → Prop) (join : β → δ → ε) (hm : Judged F P p m E R)
    (hf : ∀ {a t t₁ b}, E.holds a t t₁ b → Judged F (fun _ => True) p (f a) (E₂ a b) (R₂ b))
    (hE : ∀ {a t t₁ t₂ b c d}, E.holds a t t₁ b → (E₂ a b).holds c t₁ t₂ d →
      E₃.holds c t t₂ (join b d))
    (hcost : ∀ {a t t₁ b d}, E.holds a t t₁ b →
      t₁.size + (E₂ a b).cost d ≤ t.size + E₃.cost (join b d))
    (hle : ∀ b d, E.cost b ≤ E₃.cost (join b d)) :
    Judged F P p (m >>= f) E₃ fun s r e =>
      ∃ b s₁ d, R s s₁ b ∧ R₂ b s₁ r d ∧ e = join b d where
  sound hP hrun hknown := by
    obtain ⟨a, s₁, hrun₁, hrun₂⟩ := run_bind_ok.mp hrun
    obtain ⟨b, hR, heff⟩ := hm.sound hP hrun₁ (hknown.of_grows (grows_run F.grows (f a) hrun₂))
    obtain ⟨d, hR₂, heff₂⟩ := (hf heff).sound trivial hrun₂ hknown
    exact ⟨join b d, ⟨b, F.view s₁, d, hR, hR₂, rfl⟩, hE heff heff₂⟩
  complete {s r e} hP hready hsize hR := by
    obtain ⟨b, r₁, d, hR, hR₂, rfl⟩ := hR
    obtain ⟨a, s₁, hrun₁, rfl, heff⟩ :=
      hm.complete hP hready (Nat.le_trans (Nat.add_le_add_left (hle b d) _) hsize) hR
    obtain ⟨c, s₂, hrun₂, hview, heff₂⟩ := (hf heff).complete trivial
      (hready.grows (grows_run F.grows m hrun₁)) (Nat.le_trans (hcost heff) hsize) hR₂
    exact ⟨c, s₂, run_bind_ok.mpr ⟨a, s₁, hrun₁, hrun₂⟩, hview, hE heff heff₂⟩

/-- A program that goes by the kind of the next token. -/
theorem peek {f : TokenKind → Reading α}
    (hf : ∀ k, Judged F (fun s => P s ∧ s.kind = k) p (f k) E R) :
    Judged F P p (Reading.peek >>= f) E R where
  sound {s _ _} hP hrun hknown := by
    rw [Site.run, run_bind] at hrun
    exact (hf _).sound ⟨hP, kind_view s⟩ hrun hknown
  complete {s _ _} hP hready hsize hR := by
    rw [Site.run, run_bind]
    exact (hf _).complete ⟨hP, kind_view s⟩ hready hsize hR

/-- A program that goes by the kind of the token behind the next one. -/
theorem peekBehind {f : TokenKind → Reading α}
    (hf : ∀ k, Judged F (fun s => P s ∧ s.kindBehind = k) p (f k) E R) :
    Judged F P p (Reading.peekBehind >>= f) E R where
  sound {s _ _} hP hrun hknown := by
    rw [Site.run, run_bind] at hrun
    exact (hf _).sound ⟨hP, kindBehind_view s⟩ hrun hknown
  complete {s _ _} hP hready hsize hR := by
    rw [Site.run, run_bind]
    exact (hf _).complete ⟨hP, kindBehind_view s⟩ hready hsize hR

/-- A program that gives up where there is nothing to be read. -/
theorem reject (expected : List Expected) (hR : ∀ s r b, P s → ¬ R s r b) :
    Judged F P p (Reading.reject expected) E R where
  sound _ hrun _ := by cases hrun
  complete hP _ _ h := absurd h (hR _ _ _ hP)

theorem refuseLiteral (fault : ParseFault) (hR : ∀ s r b, P s → ¬ R s r b) :
    Judged F P p (Reading.refuseLiteral fault) E R where
  sound _ hrun _ := by cases hrun
  complete hP _ _ h := absurd h (hR _ _ _ hP)

end Judged

/-! ## Reading tokens and parts -/

/-- A way in which a tree may change while parts are read. -/
structure Growth where
  holds : Tree → Tree → List Construct → Prop
  of_nodes : ∀ {t t'}, t'.nodes = t.nodes → holds t t' []
  trans : ∀ {t t' t'' xs ys}, holds t t' xs → holds t' t'' ys → holds t t'' (xs ++ ys)
  size : ∀ {t t' xs}, holds t t' xs → t'.size = t.size + Construct.countAll xs

/-- Nothing happens to the nodes. -/
def Growth.still : Growth where
  holds t t' xs := t'.nodes = t.nodes ∧ xs = []
  of_nodes h := ⟨h, rfl⟩
  trans := by
    rintro _ _ _ _ _ ⟨h, rfl⟩ ⟨h', rfl⟩
    exact ⟨h'.trans h, rfl⟩
  size := by
    rintro _ _ _ ⟨h, rfl⟩
    simp [Tree.size, h, Construct.countAll]

/-- A loose node gains parts. -/
def Growth.under (node : NodeId) : Growth where
  holds t t' xs := t.Filled node t' xs
  of_nodes h := .of_nodes node h
  trans h h' := h.trans h'
  size h := h.size

def Effect.fill (T : Growth) : Effect α (α × List Construct) where
  cost b := Construct.countAll b.2
  holds a t t' b := a = b.1 ∧ T.holds t t' b.2

/-- `m` reads what `R` says, the answer and the parts read. -/
def Fills (F : Site) (P : Reader → Prop) (p : Position) (T : Growth) (m : Reading α)
    (R : Reader → Reader → α → List Construct → Prop) : Prop :=
  Judged F P p m (.fill T) fun s r b => R s r b.1 b.2

namespace Fills

variable {T : Growth} {m : Reading α} {f : α → Reading γ}
  {R R' : Reader → Reader → α → List Construct → Prop}

theorem congr (hm : Fills F P p T m R) (h : ∀ s r a xs, P s → (R s r a xs ↔ R' s r a xs)) :
    Fills F P p T m R' :=
  Judged.congr hm fun s r b hs => h s r b.1 b.2 hs

theorem bind {R₂ : α → Reader → Reader → γ → List Construct → Prop} (hm : Fills F P p T m R)
    (hf : ∀ a, Fills F (fun _ => True) p T (f a) (R₂ a)) :
    Fills F P p T (m >>= f) fun s r c zs =>
      ∃ a s₁ xs ys, R s s₁ a xs ∧ R₂ a s₁ r c ys ∧ zs = xs ++ ys := by
  refine (Judged.bind (fun _ _ => .fill T) (.fill T) (fun b s r d => R₂ b.1 s r d.1 d.2)
    (fun b d => (d.1, b.2 ++ d.2))
    hm ?_ ?_ ?_ ?_).congr ?_
  · rintro a _ _ b ⟨h, -⟩
    rw [h]
    exact hf b.1
  · rintro _ t t₁ t₂ b c d ⟨-, h₁⟩ ⟨h, h₂⟩
    exact ⟨h, T.trans h₁ h₂⟩
  · rintro a t t₁ b d ⟨-, h⟩
    have := T.size h
    simp only [Effect.fill, Construct.countAll_append]
    omega
  · intro b d
    simp [Effect.fill]
  · rintro s r ⟨c, zs⟩ _
    constructor
    · rintro ⟨⟨a, xs⟩, s₁, ⟨c', ys⟩, hR, hR₂, h⟩
      obtain ⟨rfl, rfl⟩ := Prod.mk.inj h
      exact ⟨a, s₁, xs, ys, hR, hR₂, rfl⟩
    · rintro ⟨a, s₁, xs, ys, hR, hR₂, rfl⟩
      exact ⟨(a, xs), s₁, (c, ys), hR, hR₂, rfl⟩

theorem peek {f : TokenKind → Reading α}
    (hf : ∀ k, Fills F (fun s => P s ∧ s.kind = k) p T (f k) R) :
    Fills F P p T (Reading.peek >>= f) R :=
  Judged.peek hf

theorem peekBehind {f : TokenKind → Reading α}
    (hf : ∀ k, Fills F (fun s => P s ∧ s.kindBehind = k) p T (f k) R) :
    Fills F P p T (Reading.peekBehind >>= f) R :=
  Judged.peekBehind hf

theorem reject (expected : List Expected) (hR : ∀ s r a xs, P s → ¬ R s r a xs) :
    Fills F P p T (Reading.reject expected) R :=
  Judged.reject expected fun s r b => hR s r b.1 b.2

/-- A step that always goes well and leaves the nodes alone. -/
theorem of_run (g : Reader → Reader) (a : α)
    (h : ∀ s, ∃ s', F.run m p s = .ok (a, s') ∧ F.view s' = g (F.view s) ∧
      s'.tree.nodes = s.tree.nodes) :
    Fills F P p T m fun s r b xs => r = g s ∧ b = a ∧ xs = [] := by
  constructor
  · intro s b s' _ hrun _
    obtain ⟨s₁, hrun₁, hview, hnodes⟩ := h s
    obtain ⟨rfl, rfl⟩ := Prod.mk.inj (Except.ok.inj (hrun₁.symm.trans hrun))
    exact ⟨(_, []), ⟨hview, rfl, rfl⟩, rfl, T.of_nodes hnodes⟩
  · rintro s r ⟨_, _⟩ _ _ _ ⟨rfl, rfl, rfl⟩
    obtain ⟨s₁, hrun₁, hview, hnodes⟩ := h s
    exact ⟨_, s₁, hrun₁, hview, rfl, T.of_nodes hnodes⟩

theorem done (a : α) : Fills F P p T (pure a) fun s r b xs => r = s ∧ b = a ∧ xs = [] :=
  of_run id a fun s => ⟨s, rfl, rfl, rfl⟩

theorem advance :
    Fills F P p T Reading.advance fun s r b xs => r = s.advance ∧ b = () ∧ xs = [] :=
  of_run Reader.advance () fun s => ⟨s.advance, rfl, view_advance s, nodes_advance s⟩

theorem skipNewlines :
    Fills F P p T Reading.skipNewlines fun s r b xs => r = s.skipNewlines ∧ b = () ∧ xs = [] :=
  of_run Reader.skipNewlines () fun s =>
    ⟨⟨s.rest.dropWhile (·.kind = .newline), s.lastEnd, s.tree⟩, rfl, view_skipNewlines s, rfl⟩

theorem intern (text : String) :
    Fills F P p T (Reading.intern text) fun s r b xs => r = s ∧ b = () ∧ xs = [] :=
  of_run id () fun s => ⟨⟨s.rest, s.lastEnd, s.tree.intern text⟩, rfl, rfl, rfl⟩

theorem expect (k : TokenKind) :
    Fills F P p T (Reading.expect k) fun s r b xs =>
      s.kind = k ∧ r = s.advance ∧ b = () ∧ xs = [] := by
  refine peek fun k' => ?_
  split
  · next h => exact advance.congr fun s r b xs hs => by simp [hs.2, h]
  · next h => exact reject _ fun s r b xs hs hR => h (hs.2.symm.trans hR.1)

theorem accept (k : TokenKind) :
    Fills F P p T (Reading.accept k) fun s r b xs => xs = [] ∧
      ((s.kind = k ∧ b = true ∧ r = s.advance) ∨ (s.kind ≠ k ∧ b = false ∧ r = s)) := by
  refine peek fun k' => ?_
  split
  · next h =>
    refine (advance.bind fun _ => done true).congr fun s r b xs hs => ?_
    simp [hs.2, h]
    tauto
  · next h =>
    refine (done false).congr fun s r b xs hs => ?_
    simp [hs.2, h]
    tauto

theorem identifier (role : NameRole) :
    Fills F P p T (Reading.identifier role) fun s r name xs =>
      s.next = ⟨.identifier, some name⟩ ∧ r = s.advance ∧ xs = [] := by
  constructor
  · intro s name s' _ hrun hknown
    rw [Site.run, Reading.identifier, run_look] at hrun
    split at hrun
    · next text hl =>
      obtain ⟨rfl, rfl⟩ := Prod.mk.inj (Except.ok.inj hrun)
      refine ⟨(text, []), ⟨next_view_of_known ?_ (by simp) hl, view_advance s, rfl⟩, rfl,
        T.of_nodes (nodes_advance s)⟩
      exact hknown.of_grows (grows_advance s)
    · cases hrun
  · rintro s r ⟨name, _⟩ _ hready _ ⟨hnext, rfl, rfl⟩
    have hl := lexeme_of_ready hready (by simp [Reader.kind, hnext])
    refine ⟨name, s.advance, ?_, view_advance s, rfl, T.of_nodes (nodes_advance s)⟩
    rw [Site.run, Reading.identifier, run_look, hl, hnext]
    rfl

/-! ### Repetitions

`A` is told by what the first round does, and every round but the last reads something. -/

section Repeating

variable {σ : Type} {round : σ → Reading (Round σ α)}
  {Rr : σ → Reader → Reader → Round σ α → List Construct → Prop}
  {A : σ → Reader → Reader → α → List Construct → Prop} {n : Nat} {x : σ} {a : α}
  (hround : ∀ x, Fills F (fun _ => True) p T (round x) (Rr x))
  (hA : ∀ x s r a zs, A x s r a zs ↔ Rr x s r (.stop a) zs ∨
    ∃ y s₁ xs ys, Rr x s s₁ (.again y) xs ∧ A y s₁ r a ys ∧ zs = xs ++ ys)
  (hless : ∀ x s y s₁ xs, Rr x s s₁ (.again y) xs → s₁.rest.length < s.rest.length)

include hround hA

theorem iterate_sound (h : iterate F.context (fun x s => F.run (round x) p s) n x s = .ok (a, s'))
    (hknown : F.Known s') :
    ∃ xs, A x (F.view s) (F.view s') a xs ∧ T.holds s.tree s'.tree xs := by
  induction n generalizing x s with
  | zero => cases h
  | succ n ih =>
    rcases iterate_succ_ok_iff.mp h with hr | ⟨y, s₁, hr, h⟩
    · obtain ⟨⟨_, xs⟩, hR, rfl, hT⟩ := (hround x).sound trivial hr hknown
      exact ⟨xs, (hA _ _ _ _ _).mpr (.inl hR), hT⟩
    · have hgrow := grows_iterate (fun x _ _ _ hr => grows_run F.grows (round x) hr) h
      obtain ⟨⟨_, xs⟩, hR, rfl, hT⟩ := (hround x).sound trivial hr (hknown.of_grows hgrow)
      obtain ⟨ys, hys, hT'⟩ := ih h
      exact ⟨xs ++ ys, (hA _ _ _ _ _).mpr (.inr ⟨y, F.view s₁, xs, ys, hR, hys, rfl⟩),
        T.trans hT hT'⟩

include hless

/-- More rounds than there are tokens are enough. -/
theorem iterate_complete {r : Reader} {zs : List Construct} (hready : F.Ready s)
    (hlen : s.rest.length < n) (hsize : s.tree.size + Construct.countAll zs ≤ F.context.maxNodes)
    (hzs : A x (F.view s) r a zs) :
    ∃ s', iterate F.context (fun x s => F.run (round x) p s) n x s = .ok (a, s') ∧
      F.view s' = r ∧ T.holds s.tree s'.tree zs := by
  induction n generalizing x s zs with
  | zero => exact absurd hlen (Nat.not_lt_zero _)
  | succ n ih =>
    rcases (hA _ _ _ _ _).mp hzs with hR | ⟨y, r₁, xs, ys, hR, hys, rfl⟩
    · obtain ⟨_, s', hrun, hview, rfl, hT⟩ :=
        (hround x).complete (b := (.stop a, zs)) trivial hready hsize hR
      exact ⟨s', iterate_succ_ok_iff.mpr (.inl hrun), hview, hT⟩
    · rw [Construct.countAll_append] at hsize
      obtain ⟨_, s₁, hrun, rfl, rfl, hT⟩ :=
        (hround x).complete (b := (.again y, xs)) trivial hready
          (by simp only [Effect.fill]; omega) hR
      have hlt := hless _ _ _ _ _ hR
      have hsize₁ := T.size hT
      simp only [length_rest_view] at hlt hsize₁
      obtain ⟨s', hloop, hview, hT'⟩ :=
        ih (hready.grows (grows_run F.grows (round x) hrun)) (by omega) (by omega) hys
      exact ⟨s', iterate_succ_ok_iff.mpr (.inr ⟨y, s₁, hrun, hloop⟩), hview, T.trans hT hT'⟩

/-- A repetition reads what its rounds read. -/
theorem repeating (x : σ) : Fills F P p T (Reading.repeating x round) (A x) := by
  constructor
  · intro s a s' _ hrun hknown
    rw [Site.run, run_repeating] at hrun
    obtain ⟨xs, hxs, hT⟩ := iterate_sound hround hA hrun hknown
    exact ⟨(a, xs), hxs, rfl, hT⟩
  · rintro s r ⟨a, xs⟩ _ hready hsize hxs
    obtain ⟨s', hloop, hview, hT⟩ := iterate_complete hround hA hless hready
      (Nat.lt_succ_of_le hready.bounded) hsize hxs
    refine ⟨a, s', ?_, hview, rfl, hT⟩
    rw [Site.run, run_repeating]
    exact hloop

end Repeating

end Fills

end GoloSyntax.Reading
