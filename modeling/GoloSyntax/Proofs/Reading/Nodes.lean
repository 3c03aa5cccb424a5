import GoloSyntax.Proofs.Reading.Judgement
import Mathlib.Logic.Relation

/-! # Judging programs that make nodes

A program may end a node that was made before (`Closes`) or make one (`Gives`); both
answer the node and are judged by the construct it then shows.  A node that a rule gives
can be attached to another one (`Gives.attach`), or it can become the first part of a
new one, again and again (`Gives.repeating`), as operators and calls do with what stands
on their left.
-/
namespace GoloSyntax.Reading

variable {F : Site} {α β γ : Type} {P : Reader → Prop} {p : Position}

theorem bind_assoc (m : Reading α) (f : α → Reading β) (g : β → Reading γ) :
    m >>= f >>= g = m >>= fun a => f a >>= g := by
  show (m.bind f).bind g = m.bind fun a => (f a).bind g
  induction m with
  | done answer => rfl
  | step action next ih => simp only [Reading.bind, ih]
  | call rule next ih => simp only [Reading.bind, ih]
  | frame body next _ ih => simp only [Reading.bind, ih]
  | «repeat» round state next _ ih => simp only [Reading.bind, ih]

theorem reject_bind (expected : List Expected) (f : α → Reading β) :
    Reading.reject expected >>= f = Reading.reject expected :=
  congrArg (Reading.step (.reject expected)) (funext fun x => x.elim)

theorem accept_bind (k : TokenKind) (f : Bool → Reading β) :
    Reading.accept k >>= f = (do
      if (← Reading.peek) = k then
        Reading.advance
        f true
      else f false) := by
  rw [Reading.accept, bind_assoc]
  refine congrArg _ (funext fun k' => ?_)
  split <;> rfl

theorem run_openNode (kind : NodeKind) (s : State) :
    Reading.run F.context F.enter (Reading.openNode kind) p s =
      if s.tree.size ≥ F.context.maxNodes then
        s.fail F.context (.tooManyNodes s.tree.size F.context.maxNodes)
      else .ok ((s.tree.push kind (.empty p)).1,
        ⟨s.rest, s.lastEnd, (s.tree.push kind (.empty p)).2⟩) := by
  obtain ⟨rest, lastEnd, tree⟩ := s
  refine (run.eq_2 F.context F.enter NodeId p ⟨rest, lastEnd, tree⟩ (.openNode kind) .done).trans ?_
  by_cases h : tree.size ≥ F.context.maxNodes
  · simp only [perform, if_pos h]
    rfl
  · simp only [perform, if_neg h]
    rfl

theorem run_attach (parent child : NodeId) (f : Unit → Reading α) (s : State) :
    Reading.run F.context F.enter (Reading.attach parent child >>= f) p s =
      Reading.run F.context F.enter (f ()) p
        ⟨s.rest, s.lastEnd, s.tree.attach parent child⟩ := by
  rw [run_bind]
  rfl

theorem run_closeNode (id : NodeId) (f : NodeId → Reading α) (s : State) :
    Reading.run F.context F.enter (Reading.closeNode id >>= f) p s =
      Reading.run F.context F.enter (f id) p
        ⟨s.rest, s.lastEnd, s.tree.setSpan id ⟨p, s.lastEnd⟩⟩ := by
  rw [run_bind]
  rfl

/-- A loose node of a given kind is ended. -/
def Effect.close (node : NodeId) (kind : NodeKind) : Effect NodeId Construct where
  cost x := Construct.countAll x.parts
  holds id t t' x := id = node ∧ t.Closed node kind t' x

/-- A new node is made. -/
def Effect.give : Effect NodeId Construct where
  cost x := x.count
  holds id t t' x := t.Given id t' x

/-- `m` reads the parts that `node` still lacks, and ends it. -/
abbrev Closes (F : Site) (P : Reader → Prop) (p : Position) (node : NodeId) (kind : NodeKind)
    (m : Reading NodeId) (R : Reader → Reader → Construct → Prop) : Prop :=
  Judged F P p m (.close node kind) R

/-- `m` reads a construct and makes the node for it. -/
abbrev Gives (F : Site) (P : Reader → Prop) (p : Position) (m : Reading NodeId)
    (R : Reader → Reader → Construct → Prop) : Prop :=
  Judged F P p m .give R

section

variable {m : Reading α} {node : NodeId} {kind kind' : NodeKind}
  {R : Reader → Reader → α → List Construct → Prop} {Rx : Reader → Reader → Construct → Prop}
  {R₂ : α → Reader → Reader → Construct → Prop}

theorem Fills.closes {f : α → Reading NodeId} (hm : Fills F P p (.under node) m R)
    (hf : ∀ a, Closes F (fun _ => True) p node kind (f a) (R₂ a)) :
    Closes F P p node kind (m >>= f) fun s r x =>
      ∃ a s₁ xs y, R s s₁ a xs ∧ R₂ a s₁ r y ∧ x = .mk y.kind y.span (xs ++ y.parts) := by
  refine (Judged.bind (fun _ _ => .close node kind) (.close node kind) (fun b => R₂ b.1)
    (fun b y => .mk y.kind y.span (b.2 ++ y.parts))
    hm ?_ ?_ ?_ ?_).congr ?_
  · rintro a _ _ b ⟨h, -⟩
    rw [h]
    exact hf b.1
  · rintro _ t t₁ t₂ b c y ⟨-, h₁⟩ ⟨h, h₂⟩
    exact ⟨h, h₁.closed h₂⟩
  · rintro a t t₁ b y ⟨-, h⟩
    have := h.size
    simp only [Effect.close, Construct.parts_mk, Construct.countAll_append]
    omega
  · intro b y
    simp [Effect.fill, Effect.close]
  · intro s r x _
    constructor
    · rintro ⟨⟨a, xs⟩, s₁, y, hR, hR₂, rfl⟩
      exact ⟨a, s₁, xs, y, hR, hR₂, rfl⟩
    · rintro ⟨a, s₁, xs, y, hR, hR₂, rfl⟩
      exact ⟨(a, xs), s₁, y, hR, hR₂, rfl⟩

theorem Closes.closeNode : Closes F P p node kind (Reading.closeNode node) fun s r x =>
    r = s ∧ x = .mk kind ⟨p, s.lastEnd⟩ [] := by
  constructor
  · intro s id s' _ hrun _
    obtain ⟨rfl, rfl⟩ := Prod.mk.inj (Except.ok.inj hrun)
    exact ⟨_, ⟨rfl, rfl⟩, rfl, Tree.closed_setSpan _ _ _ _⟩
  · rintro s r x _ _ _ ⟨rfl, rfl⟩
    exact ⟨_, _, rfl, rfl, rfl, Tree.closed_setSpan _ _ _ _⟩

theorem Closes.setKind {f : Unit → Reading NodeId} (hf : Closes F P p node kind' (f ()) Rx) :
    Closes F P p node kind (Reading.setKind node kind' >>= f) Rx where
  sound {s id s'} hP hrun hknown := by
    obtain ⟨x, hx, h, hclosed⟩ :=
      hf.sound (s := ⟨s.rest, s.lastEnd, s.tree.setKind node kind'⟩) hP hrun hknown
    exact ⟨x, hx, h, hclosed.of_setKind⟩
  complete {s r x} hP hready hsize hx := by
    obtain ⟨id, s', hrun, hview, h, hclosed⟩ :=
      hf.complete (s := ⟨s.rest, s.lastEnd, s.tree.setKind node kind'⟩) hP
        ⟨hready.bounded, hready.texts⟩ (by simpa [Tree.setKind, Effect.close] using hsize) hx
    exact ⟨id, s', hrun, hview, h, hclosed.of_setKind⟩

/-- Tokens read in front of a program that makes or ends nodes. -/
theorem Fills.andThen {ε δ : Type} {f : α → Reading ε} {E : Effect ε δ}
    {R₂ : α → Reader → Reader → δ → Prop} (hm : Fills F P p .still m R)
    (hf : ∀ a, Judged F (fun _ => True) p (f a) E (R₂ a))
    (hE : ∀ {a t t₁ t₂ b}, t₁.nodes = t.nodes → E.holds a t₁ t₂ b → E.holds a t t₂ b) :
    Judged F P p (m >>= f) E fun s r b => ∃ a s₁, R s s₁ a [] ∧ R₂ a s₁ r b where
  sound {s c s'} hP hrun hknown := by
    obtain ⟨a, s₁, hrun₁, hrun₂⟩ := run_bind_ok.mp hrun
    obtain ⟨b, hR₂, heff⟩ := (hf a).sound trivial hrun₂ hknown
    obtain ⟨⟨_, _⟩, hR, ha, hnodes, hxs⟩ :=
      hm.sound hP hrun₁ (hknown.of_grows (grows_run F.grows (f a) hrun₂))
    obtain rfl : a = _ := ha
    obtain rfl : _ = [] := hxs
    exact ⟨b, ⟨_, F.view s₁, hR, hR₂⟩, hE hnodes heff⟩
  complete {s r b} hP hready hsize := by
    rintro ⟨a, r₁, hR, hR₂⟩
    obtain ⟨a', s₁, hrun₁, rfl, ha, hnodes, -⟩ := hm.complete (b := (a, [])) hP hready
      (by simp only [Effect.fill, Construct.countAll]; omega) hR
    obtain rfl : a' = a := ha
    have hsize₁ : s₁.tree.size = s.tree.size := by simp [Tree.size, hnodes]
    obtain ⟨c, s₂, hrun₂, hview, heff⟩ := (hf _).complete trivial
      (hready.grows (grows_run F.grows m hrun₁)) (by rw [hsize₁]; exact hsize) hR₂
    exact ⟨c, s₂, run_bind_ok.mpr ⟨_, s₁, hrun₁, hrun₂⟩, hview, hE hnodes heff⟩

theorem Fills.gives {f : α → Reading NodeId} (hm : Fills F P p .still m R)
    (hf : ∀ a, Gives F (fun _ => True) p (f a) (R₂ a)) :
    Gives F P p (m >>= f) fun s r x => ∃ a s₁, R s s₁ a [] ∧ R₂ a s₁ r x :=
  hm.andThen hf fun hnodes h => Tree.Given.of_nodes h hnodes

/-- Tokens read behind what a program gives. -/
theorem Gives.followed {m : Reading NodeId} {k : Reading β}
    {Rk : Reader → Reader → β → List Construct → Prop} (hm : Gives F P p m Rx)
    (hk : Fills F (fun _ => True) p .still k Rk) :
    Gives F P p (m >>= fun id => k >>= fun _ => pure id) fun s r x =>
      ∃ s₁ b, Rx s s₁ x ∧ Rk s₁ r b [] where
  sound {s id s'} hP hrun hknown := by
    obtain ⟨id', s₁, hrun₁, hrun₂⟩ := run_bind_ok.mp hrun
    obtain ⟨b, s₂, hrun₃, hdone⟩ := run_bind_ok.mp hrun₂
    obtain ⟨rfl, rfl⟩ := Prod.mk.inj (Except.ok.inj hdone)
    obtain ⟨⟨b', xs⟩, hR, -, hnodes, hxs⟩ := hk.sound trivial hrun₃ hknown
    obtain rfl : xs = [] := hxs
    obtain ⟨x, hx, hgiven⟩ := hm.sound hP hrun₁ (hknown.of_grows (grows_run F.grows k hrun₃))
    exact ⟨x, ⟨_, b', hx, hR⟩, hgiven.with_nodes hnodes⟩
  complete {s r x} hP hready hsize := by
    rintro ⟨r₁, b, hx, hR⟩
    obtain ⟨id, s₁, hrun₁, rfl, hgiven⟩ := hm.complete hP hready hsize hx
    obtain ⟨b', s₂, hrun₂, hview, -, hnodes, -⟩ := hk.complete (b := (b, [])) trivial
      (hready.grows (grows_run F.grows m hrun₁)) (by
        have := hgiven.size
        simp only [Effect.fill, Effect.give, Construct.countAll] at hsize ⊢
        omega) hR
    exact ⟨id, s₂, run_bind_ok.mpr ⟨id, s₁, hrun₁, run_bind_ok.mpr ⟨b', s₂, hrun₂, rfl⟩⟩, hview,
      hgiven.with_nodes hnodes⟩

theorem Gives.openNode {f : NodeId → Reading NodeId}
    (hf : ∀ node, Closes F P p node kind (f node) Rx) :
    Gives F P p (Reading.openNode kind >>= f) Rx where
  sound {s id s'} hP hrun hknown := by
    obtain ⟨node, s₁, hopen, hrun₁⟩ := run_bind_ok.mp hrun
    rw [run_openNode] at hopen
    split at hopen
    · cases hopen
    · obtain ⟨rfl, rfl⟩ := Prod.mk.inj (Except.ok.inj hopen)
      obtain ⟨x, hx, rfl, hclosed⟩ := (hf _).sound
        (s := ⟨s.rest, s.lastEnd, (s.tree.push kind (.empty p)).2⟩) hP hrun₁ hknown
      exact ⟨x, hx, hclosed.given⟩
  complete {s r x} hP hready hsize hx := by
    have hcount : x.count = 1 + Construct.countAll x.parts := by
      cases x
      rfl
    simp only [Effect.give] at hsize
    have hlt : ¬ s.tree.size ≥ F.context.maxNodes := by omega
    obtain ⟨id, s', hrun, hview, rfl, hclosed⟩ := (hf (s.tree.push kind (.empty p)).1).complete
      (s := ⟨s.rest, s.lastEnd, (s.tree.push kind (.empty p)).2⟩) hP
      ⟨hready.bounded, hready.texts⟩
      (by simp only [Effect.close, Tree.size_push]; omega) hx
    refine ⟨_, s', run_bind_ok.mpr ⟨_, _, ?_, hrun⟩, hview, hclosed.given⟩
    rw [run_openNode, if_neg hlt]

theorem Gives.leaf (kind : NodeKind) : Gives F P p (Reading.leaf kind) fun s r x =>
    r = s ∧ x = .mk kind ⟨p, s.lastEnd⟩ [] :=
  .openNode fun _ => .closeNode

/-- What a program gives becomes the last part of a node. -/
theorem Gives.attach {m : Reading NodeId} (hm : Gives F P p m Rx) :
    Fills F P p (.under node) (m >>= fun id => Reading.attach node id) fun s r _ xs =>
      ∃ x, Rx s r x ∧ xs = [x] := by
  constructor
  · intro s _ s' hP hrun hknown
    obtain ⟨id, s₁, hrun₁, hrun₂⟩ := run_bind_ok.mp hrun
    obtain ⟨-, rfl⟩ := Prod.mk.inj (Except.ok.inj hrun₂)
    obtain ⟨x, hx, hgiven⟩ := hm.sound hP hrun₁ (hknown.of_grows (grows_run F.grows _ hrun₂))
    exact ⟨((), [x]), ⟨x, hx, rfl⟩, rfl, hgiven.attach⟩
  · rintro s r ⟨_, _⟩ hP hready hsize ⟨x, hx, rfl⟩
    obtain ⟨id, s₁, hrun₁, hview, hgiven⟩ := hm.complete hP hready
      (by simpa [Effect.fill, Effect.give, Construct.countAll] using hsize) hx
    exact ⟨(), ⟨s₁.rest, s₁.lastEnd, s₁.tree.attach node id⟩,
      run_bind_ok.mpr ⟨id, s₁, hrun₁, rfl⟩, hview, rfl, hgiven.attach⟩

/-- A construct of its own starts where it is read. -/
theorem Gives.framed {m : Reading NodeId}
    (hm : ∀ q, Gives F (fun s => P s ∧ s.start = q) q m Rx) :
    Gives F P p (Reading.framed m) Rx where
  sound {s id s'} hP hrun hknown := by
    refine (hm _).sound ⟨hP, start_view s⟩ (p := (s.current F.context).span.start) ?_ hknown
    simp only [Site.run, Reading.framed, run] at hrun ⊢
    split at hrun
    · cases hrun
    · next hbody => exact hbody.trans hrun
  complete {s r x} hP hready hsize hx := by
    obtain ⟨id, s', hrun, hview, hgiven⟩ := (hm _).complete ⟨hP, start_view s⟩ hready hsize hx
    refine ⟨id, s', ?_, hview, hgiven⟩
    simp only [Site.run, Reading.framed, run] at hrun ⊢
    rw [hrun]

end

/-! ## Nodes put under new ones -/

/-- The loose node `left`, which shows `y`, is left alone or put under a new node. -/
def Effect.extend (left : NodeId) (y : Construct) : Effect NodeId Construct where
  cost x := x.count - y.count
  holds id t t' x := t.Extended left y id t' x

/-- One round of a repetition that puts a node under new ones. -/
def Effect.round (left : NodeId) (y : Construct) :
    Effect (Round NodeId NodeId) (Round Construct Construct) where
  cost
    | .again x | .stop x => x.count - y.count
  holds
    | .again id, t, t', .again x | .stop id, t, t', .stop x => t.Extended left y id t' x
    | _, _, _, _ => False

section

variable {left : NodeId} {y : Construct} {kind : NodeKind}
  {Rx : Reader → Reader → Construct → Prop}

theorem Effect.round_of_nodes {a : Round NodeId NodeId} {t t₁ t₂ : Tree}
    {b : Round Construct Construct} (hnodes : t₁.nodes = t.nodes)
    (h : (Effect.round left y).holds a t₁ t₂ b) : (Effect.round left y).holds a t t₂ b := by
  cases a <;> cases b
  · exact Tree.Extended.of_nodes h hnodes
  · exact h
  · exact h
  · exact Tree.Extended.of_nodes h hnodes

/-- Tokens read in front of a round. -/
theorem Fills.round {m : Reading α} {f : α → Reading (Round NodeId NodeId)}
    {R : Reader → Reader → α → List Construct → Prop}
    {R₂ : α → Reader → Reader → Round Construct Construct → Prop} (hm : Fills F P p .still m R)
    (hf : ∀ a, Judged F (fun _ => True) p (f a) (.round left y) (R₂ a)) :
    Judged F P p (m >>= f) (.round left y) fun s r b => ∃ a s₁, R s s₁ a [] ∧ R₂ a s₁ r b :=
  hm.andThen hf Effect.round_of_nodes

theorem Judged.openExtended {f : NodeId → Reading NodeId}
    (hf : ∀ node, Closes F P p node kind (f node) Rx) :
    Judged F P p
      (Reading.openNode kind >>= fun node => Reading.attach node left >>= fun _ => f node)
      (.extend left y) fun s r x => ∃ z, Rx s r z ∧ x = .mk z.kind z.span (y :: z.parts) where
  sound {s id s'} hP hrun hknown := by
    obtain ⟨node, s₁, hopen, hrun₁⟩ := run_bind_ok.mp hrun
    rw [run_openNode] at hopen
    split at hopen
    · cases hopen
    · obtain ⟨rfl, rfl⟩ := Prod.mk.inj (Except.ok.inj hopen)
      rw [run_attach] at hrun₁
      obtain ⟨z, hz, rfl, hclosed⟩ := (hf _).sound (s := ⟨s.rest, s.lastEnd,
        (s.tree.push kind (.empty p)).2.attach (s.tree.push kind (.empty p)).1 left⟩)
        hP hrun₁ hknown
      exact ⟨_, ⟨z, hz, rfl⟩, hclosed.extended⟩
  complete {s r x} hP hready hsize := by
    rintro ⟨z, hz, rfl⟩
    simp only [Effect.extend, Construct.count, Construct.countAll] at hsize
    have hlt : ¬ s.tree.size ≥ F.context.maxNodes := by omega
    obtain ⟨id, s', hrun, hview, rfl, hclosed⟩ := (hf (s.tree.push kind (.empty p)).1).complete
      (s := ⟨s.rest, s.lastEnd,
        (s.tree.push kind (.empty p)).2.attach (s.tree.push kind (.empty p)).1 left⟩) hP
      ⟨hready.bounded, by simpa using hready.texts⟩
      (by simp only [Effect.close, Tree.size_attach, Tree.size_push]; omega) hz
    refine ⟨_, s', ?_, hview, hclosed.extended⟩
    rw [Site.run, run_bind, run_openNode, if_neg hlt]
    exact (run_attach _ _ _ _).trans hrun

theorem Judged.again {m : Reading NodeId} (hm : Judged F P p m (.extend left y) Rx) :
    Judged F P p (m >>= fun id => pure (.again id)) (.round left y) fun s r b =>
      ∃ x, Rx s r x ∧ b = .again x where
  sound {s a s'} hP hrun hknown := by
    obtain ⟨id, s₁, hrun₁, hdone⟩ := run_bind_ok.mp hrun
    obtain ⟨rfl, rfl⟩ := Prod.mk.inj (Except.ok.inj hdone)
    obtain ⟨x, hx, hext⟩ := hm.sound hP hrun₁ hknown
    exact ⟨.again x, ⟨x, hx, rfl⟩, hext⟩
  complete {s r b} hP hready hsize := by
    rintro ⟨x, hx, rfl⟩
    obtain ⟨id, s', hrun, hview, hext⟩ := hm.complete hP hready hsize hx
    exact ⟨.again id, s', run_bind_ok.mpr ⟨id, s', hrun, rfl⟩, hview, hext⟩

theorem Judged.stop : Judged F P p (pure (.stop left)) (.round left y) fun s r b =>
    r = s ∧ b = .stop y where
  sound {s a s'} _ hrun _ := by
    obtain ⟨rfl, rfl⟩ := Prod.mk.inj (Except.ok.inj hrun)
    exact ⟨.stop y, ⟨rfl, rfl⟩, .refl left y _⟩
  complete {s r b} _ _ _ := by
    rintro ⟨rfl, rfl⟩
    exact ⟨.stop left, s, rfl, rfl, .refl left y _⟩

theorem run_join (left right : NodeId) (kind : NodeKind) (s : State) :
    Reading.run F.context F.enter
      (Reading.openNode kind >>= fun node => Reading.attach node left >>= fun _ =>
        Reading.attach node right >>= fun _ => Reading.closeNode node >>= fun id =>
        pure (Round.again (β := NodeId) id)) p s =
      if s.tree.size ≥ F.context.maxNodes then
        s.fail F.context (.tooManyNodes s.tree.size F.context.maxNodes)
      else .ok (.again (s.tree.push kind (.empty p)).1, ⟨s.rest, s.lastEnd,
        (((s.tree.push kind (.empty p)).2.attach (s.tree.push kind (.empty p)).1 left).attach
          (s.tree.push kind (.empty p)).1 right).setSpan (s.tree.push kind (.empty p)).1
            ⟨p, s.lastEnd⟩⟩) := by
  rw [run_bind, run_openNode]
  by_cases h : s.tree.size ≥ F.context.maxNodes
  · simp only [if_pos h]
    rfl
  · simp only [if_neg h, run_attach, run_closeNode]
    rfl

/-- What stands on the left and what is given on the right become the parts of a node. -/
theorem Gives.join {m : Reading NodeId} (hm : Gives F P p m Rx) :
    Judged F P p
      (m >>= fun right => Reading.openNode kind >>= fun node => Reading.attach node left >>=
        fun _ => Reading.attach node right >>= fun _ => Reading.closeNode node >>=
        fun id => pure (.again id))
      (.round left y) fun s r b =>
        ∃ x, Rx s r x ∧ b = .again (.mk kind ⟨p, r.lastEnd⟩ [y, x]) where
  sound {s a s'} hP hrun hknown := by
    obtain ⟨right, s₁, hright, hrun₁⟩ := run_bind_ok.mp hrun
    obtain ⟨x, hx, hgiven⟩ := hm.sound hP hright (hknown.of_grows (grows_run F.grows _ hrun₁))
    rw [run_join] at hrun₁
    split at hrun₁
    · cases hrun₁
    · have hjoin := hgiven.joined left y kind (.empty p) ⟨p, s₁.lastEnd⟩
      rw [Except.ok.injEq, Prod.mk.injEq] at hrun₁
      obtain ⟨rfl, rfl⟩ := hrun₁
      rw [view_tree s₁]
      exact ⟨.again _, ⟨x, hx, rfl⟩, hjoin⟩
  complete {s r b} hP hready hsize := by
    rintro ⟨x, hx, rfl⟩
    simp only [Effect.round, Construct.count, Construct.countAll] at hsize
    obtain ⟨right, s₁, hrun₁, rfl, hgiven⟩ := hm.complete hP hready
      (by simp only [Effect.give]; omega) hx
    have hlt : ¬ s₁.tree.size ≥ F.context.maxNodes := by
      have := hgiven.size
      omega
    have hjoin := hgiven.joined left y kind (.empty p) ⟨p, s₁.lastEnd⟩
    have hrun := run_join (F := F) (p := p) left right kind s₁
    rw [if_neg hlt] at hrun
    exact ⟨_, _, run_bind_ok.mpr ⟨right, s₁, hrun₁, hrun⟩, view_tree s₁ _, hjoin⟩

/-! ### One node under the next

A round either stops, at a place where `done` holds, or makes a `step` from what stands on
the left. -/

section Repeating

variable {round : NodeId → Reading (Round NodeId NodeId)} {done : Reader → Prop}
  {step : Construct → Reader → Reader → Construct → Prop} {n : Nat} {s₀ s s' : State}
  {left : NodeId}
  (hround : ∀ left y, Judged F (fun _ => True) p (round left) (.round left y) fun s r b =>
    (done s ∧ r = s ∧ b = .stop y) ∨ ∃ x, step y s r x ∧ b = .again x)
  (hmore : ∀ y s r x, step y s r x → y.count ≤ x.count ∧ r.rest.length < s.rest.length)

include hmore in
theorem count_le_of_steps {a b : Construct × Reader}
    (h : Relation.ReflTransGen (fun a b => step a.1 a.2 b.2 b.1) a b) : a.1.count ≤ b.1.count := by
  induction h with
  | refl => exact Nat.le_refl _
  | tail _ hstep ih => exact Nat.le_trans ih (hmore _ _ _ _ hstep).1

include hround

theorem iterate_rounds_sound {id : NodeId} {y : Construct} (hgiven : s₀.tree.Given left s.tree y)
    (h : iterate F.context (fun x s => F.run (round x) p s) n left s = .ok (id, s'))
    (hknown : F.Known s') :
    ∃ x, Relation.ReflTransGen (fun a b => step a.1 a.2 b.2 b.1) (y, F.view s) (x, F.view s') ∧
      done (F.view s') ∧ s₀.tree.Given id s'.tree x := by
  induction n generalizing left y s with
  | zero => cases h
  | succ n ih =>
    rcases iterate_succ_ok_iff.mp h with hr | ⟨left', s₁, hr, h⟩
    · obtain ⟨_, ⟨hdone, hview, rfl⟩ | ⟨x, -, rfl⟩, hext⟩ :=
        (hround left y).sound trivial hr hknown
      · rw [hview]
        exact ⟨y, .refl, hdone, hgiven.extended hext⟩
      · exact hext.elim
    · have hgrow := grows_iterate (fun x _ _ _ hr => grows_run F.grows (round x) hr) h
      obtain ⟨_, ⟨-, -, rfl⟩ | ⟨x, hstep, rfl⟩, hext⟩ :=
        (hround left y).sound trivial hr (hknown.of_grows hgrow)
      · exact hext.elim
      · obtain ⟨z, hsteps, hdone, hgiven'⟩ := ih (hgiven.extended hext) h
        exact ⟨z, .head hstep hsteps, hdone, hgiven'⟩

theorem iterate_done {x : Construct} (hready : F.Ready s) (hgiven : s₀.tree.Given left s.tree x)
    (hsize : s₀.tree.size + x.count ≤ F.context.maxNodes) (hdone : done (F.view s)) :
    ∃ id s', iterate F.context (fun x s => F.run (round x) p s) (n + 1) left s = .ok (id, s') ∧
      F.view s' = F.view s ∧ s₀.tree.Given id s'.tree x := by
  have hcost : s.tree.size + (Effect.round left x).cost (.stop x) ≤ F.context.maxNodes := by
    have := hgiven.size
    simp only [Effect.round]
    omega
  obtain ⟨b, s', hrun, hview, hext⟩ := (hround left x).complete (b := .stop x) trivial hready hcost
    (.inl ⟨hdone, rfl, rfl⟩)
  cases b with
  | again id => exact hext.elim
  | stop id => exact ⟨id, s', iterate_succ_ok_iff.mpr (.inl hrun), hview, hgiven.extended hext⟩

include hmore

/-- More rounds than there are tokens are enough. -/
theorem iterate_rounds_complete {a b : Construct × Reader}
    (hsteps : Relation.ReflTransGen (fun a b => step a.1 a.2 b.2 b.1) a b) (hdone : done b.2)
    (hsize : s₀.tree.size + b.1.count ≤ F.context.maxNodes) (hview : F.view s = a.2)
    (hready : F.Ready s) (hgiven : s₀.tree.Given left s.tree a.1) (hn : s.rest.length < n) :
    ∃ id s', iterate F.context (fun x s => F.run (round x) p s) n left s = .ok (id, s') ∧
      F.view s' = b.2 ∧ s₀.tree.Given id s'.tree b.1 := by
  induction hsteps using Relation.ReflTransGen.head_induction_on generalizing n left s with
  | refl =>
    obtain ⟨n, rfl⟩ := Nat.exists_eq_succ_of_ne_zero (Nat.ne_zero_of_lt hn)
    rw [← hview] at hdone ⊢
    exact iterate_done hround hready hgiven hsize hdone
  | @head a c hstep hsteps ih =>
    obtain ⟨n, rfl⟩ := Nat.exists_eq_succ_of_ne_zero (Nat.ne_zero_of_lt hn)
    obtain ⟨hcount, hless⟩ := hmore _ _ _ _ hstep
    have hcost : s.tree.size + (Effect.round left a.1).cost (.again c.1) ≤ F.context.maxNodes := by
      have := count_le_of_steps hmore hsteps
      have := hgiven.size
      simp only [Effect.round]
      omega
    obtain ⟨b, s₁, hrun, hview₁, hext⟩ := (hround left a.1).complete (b := .again c.1) trivial
      hready hcost (.inr ⟨c.1, by rw [hview]; exact hstep, rfl⟩)
    cases b with
    | stop id => exact hext.elim
    | again left' =>
      have hready₁ := hready.grows (grows_run F.grows _ hrun)
      rw [← hview₁, ← hview, length_rest_view, length_rest_view] at hless
      obtain ⟨id, s', hloop, hview', hgiven'⟩ :=
        ih (n := n) hview₁ hready₁ (hgiven.extended hext) (by omega)
      exact ⟨id, s', iterate_succ_ok_iff.mpr (.inr ⟨left', s₁, hrun, hloop⟩), hview', hgiven'⟩

omit hround hmore in
/-- A repetition that puts what was given first under one new node after the other. -/
theorem Gives.repeating {m : Reading NodeId} (hm : Gives F P p m Rx)
    (hround : ∀ left y, Judged F (fun _ => True) p (round left) (.round left y) fun s r b =>
      (done s ∧ r = s ∧ b = .stop y) ∨ ∃ x, step y s r x ∧ b = .again x)
    (hmore : ∀ y s r x, step y s r x → y.count ≤ x.count ∧ r.rest.length < s.rest.length) :
    Gives F P p (m >>= fun first => Reading.repeating first round) fun s r x =>
      done r ∧ ∃ y s₁, Rx s s₁ y ∧
        Relation.ReflTransGen (fun a b => step a.1 a.2 b.2 b.1) (y, s₁) (x, r) := by
  constructor
  · intro s id s' hP hrun hknown
    obtain ⟨first, s₁, hfirst, hloop⟩ := run_bind_ok.mp hrun
    obtain ⟨y, hy, hgiven⟩ := hm.sound hP hfirst (hknown.of_grows (grows_run F.grows _ hloop))
    rw [run_repeating] at hloop
    obtain ⟨x, hsteps, hdone, hgiven'⟩ := iterate_rounds_sound hround hgiven hloop hknown
    exact ⟨x, ⟨hdone, y, _, hy, hsteps⟩, hgiven'⟩
  · rintro s r x hP hready hsize ⟨hdone, y, r₁, hy, hsteps⟩
    obtain ⟨left, s₁, hfirst, rfl, hgiven⟩ := hm.complete hP hready
      (Nat.le_trans (Nat.add_le_add_left (count_le_of_steps hmore hsteps) _) hsize) hy
    have hready₁ := hready.grows (grows_run F.grows m hfirst)
    obtain ⟨id, s', hloop, hview, hgiven'⟩ := iterate_rounds_complete hround hmore hsteps hdone
      hsize rfl hready₁ hgiven (Nat.lt_succ_of_le hready₁.bounded)
    refine ⟨id, s', run_bind_ok.mpr ⟨left, s₁, hfirst, ?_⟩, hview, hgiven'⟩
    rw [run_repeating]
    exact hloop

end Repeating

end

end GoloSyntax.Reading
