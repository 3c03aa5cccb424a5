import GoloSyntax.Proofs.Shape.Dumps
import GoloSyntax.Proofs.Shape.Preorder

/-! # Walks are recursive

`Tree.walk` keeps the calls that are still to be made on a stack of its own.  The recursion that it
stands for is `Tree.Visits`: enter a node, go through its children if the visitor says so, leave the
node.  Whatever the recursion does with the nodes on top of a stack, the walk does in as many calls
(`Visits.walkFrom_eq`); the recursion always comes to an end in a tree (`Shows.exists_visits`), and
within two calls for each node, which is what the walk allows itself.

Which nodes are entered can be told from the links alone.  A node is entered if it is one of those
to begin with, or a child of one whose children were asked for (`Visits.enters_iff`); because no
node hangs in a tree twice, each is entered at most once (`Visits.entered_sublist`), and so the nodes
that are left out are those below a node at which the visitor turned back.
-/
namespace GoloSyntax

/-- Calls in which each node that is entered is left after what was entered behind it. -/
inductive Bracketed : List PendingCall → Prop where
  | nil : Bracketed []
  | node (id : NodeId) {inner rest : List PendingCall} (hinner : Bracketed inner)
    (hrest : Bracketed rest) : Bracketed (.enter id :: (inner ++ .leave id :: rest))

/-- A node is left as often as it is entered. -/
theorem Bracketed.count_leave {calls : List PendingCall} (h : Bracketed calls) (id : NodeId) :
    calls.count (.leave id) = calls.count (.enter id) := by
  induction h with
  | nil => rfl
  | node i _ _ ihinner ihrest =>
    simp only [List.count_cons, List.count_append, ihinner, ihrest]
    by_cases hi : i = id <;> simp [hi]
    omega

variable {σ : Type}

/-- The same visitor, which also notes its calls, each with the state in which it found it. -/
def Visitor.tracing (v : Visitor σ) : Visitor (σ × List (PendingCall × σ)) where
  enter t id s := ((v.enter t id s.1).1, (v.enter t id s.1).2, s.2 ++ [(.enter id, s.1)])
  leave t id s := (v.leave t id s.1, s.2 ++ [(.leave id, s.1)])

theorem Visitor.enter_tracing (v : Visitor σ) (t : Tree) (id : NodeId) (s : σ)
    (log : List (PendingCall × σ)) : v.tracing.enter t id (s, log) =
      ((v.enter t id s).1, (v.enter t id s).2, log ++ [(.enter id, s)]) := rfl

theorem Visitor.leave_tracing (v : Visitor σ) (t : Tree) (id : NodeId) (s : σ)
    (log : List (PendingCall × σ)) :
    v.tracing.leave t id (s, log) = (v.leave t id s, log ++ [(.leave id, s)]) := rfl

theorem Visitor.tracing_extends (v : Visitor σ) : v.tracing.Extends v :=
  ⟨fun _ _ _ => rfl, fun _ _ _ => rfl⟩

namespace Tree

/-- The recursion over some nodes, one after the other: the calls of the visitor in their order,
each with the visitor's state in front of it, and the state in which it ends. -/
inductive Visits (t : Tree) (v : Visitor σ) :
    List NodeId → σ → List (PendingCall × σ) → σ → Prop where
  | nil (s : σ) : Visits t v [] s [] s
  | enterChildren {id : NodeId} {ids : List NodeId} {s s₁ s₂ s₃ : σ}
    {inner rest : List (PendingCall × σ)} (henter : v.enter t id s = (.enterChildren, s₁))
    (hinner : Visits t v (t.children id) s₁ inner s₂)
    (hrest : Visits t v ids (v.leave t id s₂) rest s₃) :
    Visits t v (id :: ids) s ((.enter id, s) :: (inner ++ (.leave id, s₂) :: rest)) s₃
  | skipChildren {id : NodeId} {ids : List NodeId} {s s₁ s₂ : σ} {rest : List (PendingCall × σ)}
    (henter : v.enter t id s = (.skipChildren, s₁))
    (hrest : Visits t v ids (v.leave t id s₁) rest s₂) :
    Visits t v (id :: ids) s ((.enter id, s) :: (.leave id, s₁) :: rest) s₂

variable {t : Tree} {v : Visitor σ} {id i : NodeId} {ids ids' : List NodeId} {s s' s'' : σ}
  {calls calls' : List (PendingCall × σ)} {x : Construct}

namespace Visits

/-- The recursion does what the visitor makes it do. -/
theorem unique (h : t.Visits v ids s calls s') (h' : t.Visits v ids s calls' s'') :
    calls' = calls ∧ s'' = s' := by
  induction h generalizing calls' s'' with
  | nil =>
    cases h'
    exact ⟨rfl, rfl⟩
  | enterChildren henter _ _ ihinner ihrest =>
    cases h' with
    | enterChildren henter' hinner' hrest' =>
      obtain ⟨-, rfl⟩ := Prod.mk.inj (henter.symm.trans henter')
      obtain ⟨rfl, rfl⟩ := ihinner hinner'
      obtain ⟨rfl, rfl⟩ := ihrest hrest'
      exact ⟨rfl, rfl⟩
    | skipChildren henter' _ => cases henter.symm.trans henter'
  | skipChildren henter _ ihrest =>
    cases h' with
    | enterChildren henter' _ _ => cases henter.symm.trans henter'
    | skipChildren henter' hrest' =>
      obtain ⟨-, rfl⟩ := Prod.mk.inj (henter.symm.trans henter')
      obtain ⟨rfl, rfl⟩ := ihrest hrest'
      exact ⟨rfl, rfl⟩

/-- The walk makes the calls of the recursion, and then turns to the rest of its stack. -/
theorem walkFrom_eq (h : t.Visits v ids s calls s') (n : Nat) (stack : List PendingCall)
    (log : List (PendingCall × σ)) :
    t.walkFrom v.tracing (calls.length + n) (ids.map .enter ++ stack) (s, log) =
      t.walkFrom v.tracing n stack (s', log ++ calls) := by
  induction h generalizing n stack log with
  | nil s => rw [List.length_nil, Nat.zero_add, List.append_nil]; rfl
  | @enterChildren id ids s s₁ s₂ s₃ inner rest henter _ _ ihinner ihrest =>
    -- The node is entered, its children are gone through, and it is left.
    rw [show ((PendingCall.enter id, s) :: (inner ++ (.leave id, s₂) :: rest)).length + n =
      inner.length + (rest.length + n + 1) + 1 by simp; omega, List.map_cons, List.cons_append,
      walkFrom, v.enter_tracing, henter]
    refine (ihinner _ _ _).trans ?_
    rw [walkFrom, v.leave_tracing]
    refine (ihrest _ _ _).trans ?_
    simp
  | @skipChildren id ids s s₁ s₂ rest henter _ ihrest =>
    rw [show ((PendingCall.enter id, s) :: (.leave id, s₁) :: rest).length + n =
      rest.length + n + 1 + 1 by simp; omega, List.map_cons, List.cons_append, walkFrom,
      v.enter_tracing, henter]
    show t.walkFrom _ _ (.leave id :: _) _ = _
    rw [walkFrom, v.leave_tracing]
    refine (ihrest _ _ _).trans ?_
    simp

/-- Two stretches of nodes are gone through one after the other. -/
theorem append (h : t.Visits v ids s calls s') (h' : t.Visits v ids' s' calls' s'') :
    t.Visits v (ids ++ ids') s (calls ++ calls') s'' := by
  induction h with
  | nil => exact h'
  | enterChildren henter hinner _ _ ihrest =>
    simpa using enterChildren henter hinner (ihrest h')
  | skipChildren henter _ ihrest => exact skipChildren henter (ihrest h')

theorem bracketed (h : t.Visits v ids s calls s') : Bracketed (calls.map Prod.fst) := by
  induction h with
  | nil => exact .nil
  | enterChildren _ _ _ ihinner ihrest => simpa using Bracketed.node _ ihinner ihrest
  | skipChildren _ _ ihrest => exact .node _ .nil ihrest

end Visits

/-! ## Which nodes are entered -/

/-- The visitor was called to enter the node, and this was its answer. -/
def Answers (t : Tree) (v : Visitor σ) (calls : List (PendingCall × σ)) (id : NodeId)
    (descent : Descent) : Prop :=
  ∃ s, (.enter id, s) ∈ calls ∧ (v.enter t id s).1 = descent

theorem Answers.mem {descent : Descent} (h : t.Answers v calls id descent) :
    .enter id ∈ calls.map Prod.fst := by
  obtain ⟨s, hs, -⟩ := h
  exact List.mem_map.mpr ⟨_, hs, rfl⟩

theorem exists_answers (h : .enter id ∈ calls.map Prod.fst) :
    ∃ descent, t.Answers v calls id descent := by
  obtain ⟨⟨call, s⟩, hs, rfl⟩ := List.mem_map.mp h
  exact ⟨_, s, hs, rfl⟩

theorem answers_iff {a : NodeId} {descent : Descent} {inner rest : List (PendingCall × σ)} :
    t.Answers v ((.enter id, s) :: (inner ++ (.leave id, s') :: rest)) a descent ↔
      (a = id ∧ (v.enter t id s).1 = descent) ∨ t.Answers v inner a descent ∨
        t.Answers v rest a descent := by
  simp only [Answers, List.mem_cons, List.mem_append, Prod.mk.injEq, PendingCall.enter.injEq,
    reduceCtorEq, false_and, false_or]
  constructor
  · rintro ⟨s₀, ⟨rfl, rfl⟩ | hs₀ | hs₀, h⟩
    · exact .inl ⟨rfl, h⟩
    · exact .inr (.inl ⟨s₀, hs₀, h⟩)
    · exact .inr (.inr ⟨s₀, hs₀, h⟩)
  · rintro (⟨rfl, h⟩ | ⟨s₀, hs₀, h⟩ | ⟨s₀, hs₀, h⟩)
    · exact ⟨s, .inl ⟨rfl, rfl⟩, h⟩
    · exact ⟨s₀, .inr (.inl hs₀), h⟩
    · exact ⟨s₀, .inr (.inr hs₀), h⟩

theorem answers_skip_iff {a : NodeId} {descent : Descent} {rest : List (PendingCall × σ)} :
    t.Answers v ((.enter id, s) :: (.leave id, s') :: rest) a descent ↔
      (a = id ∧ (v.enter t id s).1 = descent) ∨ t.Answers v rest a descent := by
  have hnone : ¬ t.Answers v [] a descent := by
    rintro ⟨s₀, hs₀, -⟩
    cases hs₀
  rw [← List.nil_append ((.leave id, s') :: rest), answers_iff, or_iff_right hnone]

/-- A node is entered if the recursion begins with it, or if it is a child of a node that was
entered and whose children were asked for. -/
theorem Visits.enters_iff (h : t.Visits v ids s calls s') :
    .enter i ∈ calls.map Prod.fst ↔
      i ∈ ids ∨ ∃ a, t.Answers v calls a .enterChildren ∧ i ∈ t.children a := by
  induction h with
  | nil => simp [Answers]
  | @enterChildren id ids s s₁ s₂ s₃ inner rest henter _ _ ihinner ihrest =>
    simp only [answers_iff, henter, and_true, or_and_right, exists_or, exists_eq_left]
    simp only [List.map_cons, List.map_append, List.mem_cons, List.mem_append, ihinner, ihrest,
      PendingCall.enter.injEq, reduceCtorEq, false_or]
    grind
  | @skipChildren id ids s s₁ s₂ rest henter _ ihrest =>
    simp only [answers_skip_iff, henter, reduceCtorEq, and_false, false_or]
    simp only [List.map_cons, List.mem_cons, ihrest, PendingCall.enter.injEq, reduceCtorEq,
      false_or, or_assoc]

/-- Each node shows something that fits into the tree. -/
def Fits (t : Tree) (id : NodeId) : Prop := ∃ x, t.Shows id x ∧ x.count ≤ t.size

theorem Fits.children (h : t.Fits id) {c : NodeId} (hc : c ∈ t.children id) : t.Fits c := by
  obtain ⟨x, hx, hsize⟩ := h
  obtain ⟨y, -, hy, hcount⟩ := hx.exists_child hsize hc
  exact ⟨y, hy, by omega⟩

theorem Fits.nodesFrom_eq (h : t.Fits id) : t.nodesFrom t.size id =
    id :: (t.children id).flatMap (t.nodesFrom t.size) := by
  obtain ⟨x, hx, hsize⟩ := h
  have hentries := congrArg (List.map Prod.fst) (hx.entries_eq hsize 0)
  simpa only [entries, map_fst_entriesFrom, List.map_cons, List.map_flatMap] using hentries

/-- No node is entered more often than it hangs below the nodes to begin with. -/
theorem Visits.count_enter_le (h : t.Visits v ids s calls s') (hids : ∀ id ∈ ids, t.Fits id) :
    (calls.map Prod.fst).count (.enter i) ≤ (ids.flatMap (t.nodesFrom t.size)).count i := by
  induction h with
  | nil => exact Nat.le_refl 0
  | @enterChildren id ids s s₁ s₂ s₃ inner rest _ _ _ ihinner ihrest =>
    obtain ⟨hid, hrest⟩ := List.forall_mem_cons.mp hids
    have hin := ihinner fun c hc => hid.children hc
    have hout := ihrest hrest
    simp only [List.flatMap_cons, hid.nodesFrom_eq, List.count_append, List.count_cons,
      List.map_cons, List.map_append, beq_iff_eq, PendingCall.enter.injEq, reduceCtorEq,
      if_false]
    omega
  | @skipChildren id ids s s₁ s₂ rest _ _ ihrest =>
    obtain ⟨hid, hrest⟩ := List.forall_mem_cons.mp hids
    have hout := ihrest hrest
    simp only [List.flatMap_cons, hid.nodesFrom_eq, List.count_append, List.count_cons,
      List.map_cons, beq_iff_eq, PendingCall.enter.injEq, reduceCtorEq, if_false]
    omega

/-- Some recursion, and so many calls, see to every node. -/
theorem exists_visits_of_forall₂ {xs : List Construct}
    (h : List.Forall₂ (fun i y => ∀ s, ∃ calls s', t.Visits v [i] s calls s' ∧
      calls.length ≤ 2 * Construct.count y) ids xs) (s : σ) :
    ∃ calls s', t.Visits v ids s calls s' ∧ calls.length ≤ 2 * Construct.countAll xs := by
  induction h generalizing s with
  | nil => exact ⟨[], s, .nil s, Nat.zero_le _⟩
  | cons hfirst _ ih =>
    obtain ⟨calls, s₁, hvisits, hlength⟩ := hfirst s
    obtain ⟨calls', s₂, hvisits', hlength'⟩ := ih s₁
    refine ⟨calls ++ calls', s₂, hvisits.append hvisits', ?_⟩
    rw [List.length_append, Construct.countAll]
    omega

/-- The recursion comes to an end, after two calls for each node at most. -/
theorem Shows.exists_visits (v : Visitor σ) (h : t.Shows id x) (hsize : x.count ≤ t.size) (s : σ) :
    ∃ calls s', t.Visits v [id] s calls s' ∧ calls.length ≤ 2 * x.count := by
  induction hn : x.count using Nat.strong_induction_on generalizing id x s with
  | _ n ih =>
    subst hn
    have hparts := forall₂_of_mem (h.children hsize) fun i _ y hy hshows s => by
      have hcount := Construct.count_lt_of_mem_parts hy
      exact ih y.count hcount hshows (by omega) s rfl
    have hcount : x.count = 1 + Construct.countAll x.parts := by
      obtain ⟨kind, span, parts⟩ := x
      rw [Construct.count, Construct.parts_mk, Nat.add_comm]
    rcases henter : v.enter t id s with ⟨_ | _, s₁⟩
    · obtain ⟨inner, s₂, hinner, hlength⟩ := exists_visits_of_forall₂ hparts s₁
      refine ⟨_, _, .enterChildren henter hinner (.nil _), ?_⟩
      simp only [List.length_cons, List.length_append, List.length_nil]
      omega
    · refine ⟨_, _, .skipChildren henter (.nil _), ?_⟩
      simp only [List.length_cons, List.length_nil]
      omega

/-! ## Walks of trees that hang from their roots -/

/-- The walk of a subtree goes as the recursion does.  The calls are given with the states in
which they find the visitor. -/
structure WalksRecursively (t : Tree) (v : Visitor σ) (id : NodeId) (s : σ)
    (calls : List (PendingCall × σ)) (s' : σ) : Prop where
  visits : t.Visits v [id] s calls s'
  unique : ∀ calls₁ s₁, t.Visits v [id] s calls₁ s₁ → calls₁ = calls ∧ s₁ = s'
  walk_eq : t.walk v id s = s'
  walk_tracing_eq : t.walk v.tracing id (s, []) = (s', calls)
  bracketed : Bracketed (calls.map Prod.fst)
  count_enter_le : ∀ i, (calls.map Prod.fst).count (.enter i) ≤ 1
  count_leave_eq : ∀ i,
    (calls.map Prod.fst).count (.leave i) = (calls.map Prod.fst).count (.enter i)
  /-- Of the nodes that climb to where the walk starts, those are left out that are below a node
  at which the visitor turned back. -/
  enters_iff : ∀ i, .enter i ∈ calls.map Prod.fst ↔ (∃ d, t.climb? d i = some id) ∧
    ¬ ∃ a, t.Answers v calls a .skipChildren ∧ ∃ d, t.climb? (d + 1) i = some a

/-- Nobody climbs back to where he came from. -/
theorem Rooted.climb?_self (ht : t.Rooted) (hid : id.index < t.size) {d : Nat}
    (h : t.climb? d id = some id) : d = 0 := by
  obtain ⟨k, hk⟩ := ht.climbs id hid
  have hlong : t.climb? (d + k) id = some root := by rw [climb?_add, h, Option.bind_some, hk]
  have := climb?_unique ht.root_parent hlong hk
  omega

/-- A node that was entered once gave one answer. -/
theorem Answers.unique {descent descent' : Descent} (hnodup : (calls.map Prod.fst).Nodup)
    (h : t.Answers v calls id descent) (h' : t.Answers v calls id descent') :
    descent = descent' := by
  obtain ⟨s₁, hs₁, rfl⟩ := h
  obtain ⟨s₂, hs₂, rfl⟩ := h'
  have heq := List.inj_on_of_nodup_map hnodup hs₁ hs₂ rfl
  rw [(Prod.mk.inj heq).2]

/-- A node is entered if the visitor turned back nowhere above it. -/
theorem Visits.enters_of_climb? (ht : t.Rooted) (hvisits : t.Visits v [id] s calls s') {d : Nat}
    (hd : t.climb? d i = some id)
    (hskip : ∀ a, t.Answers v calls a .skipChildren → ∀ d, t.climb? (d + 1) i ≠ some a) :
    .enter i ∈ calls.map Prod.fst := by
  induction d generalizing i with
  | zero =>
    obtain rfl := Option.some.inj hd
    exact hvisits.enters_iff.mpr (.inl List.mem_cons_self)
  | succ d ih =>
    obtain ⟨p, hp, hclimb⟩ := Option.bind_eq_some_iff.mp hd
    have hup (d : Nat) : t.climb? (d + 1) i = t.climb? d p := by
      rw [climb?, hp, Option.bind_some]
    have hentered := ih hclimb fun a ha d hd => hskip a ha (d + 1) ((hup (d + 1)).trans hd)
    obtain ⟨descent, hanswers⟩ := exists_answers (t := t) (v := v) hentered
    cases descent with
    | enterChildren =>
      exact hvisits.enters_iff.mpr (.inr ⟨p, hanswers, ht.mem_children_of_parent hp⟩)
    | skipChildren => exact absurd (hup 0) (hskip p hanswers 0)

section Below

variable (ht : t.Rooted) (hvisits : t.Visits v [id] s calls s') (h : t.Shows id x)
  (hsize : x.count ≤ t.size)

include hvisits h hsize

theorem Visits.count_enter_le_nodesFrom (i : NodeId) :
    (calls.map Prod.fst).count (.enter i) ≤ (t.nodesFrom t.size id).count i := by
  have hcount := hvisits.count_enter_le (i := i) (List.forall_mem_singleton.mpr ⟨x, h, hsize⟩)
  rwa [List.flatMap_singleton] at hcount

/-- Only what is below the first node is entered. -/
theorem Visits.mem_nodesFrom (hi : .enter i ∈ calls.map Prod.fst) :
    i ∈ t.nodesFrom t.size id := by
  apply List.count_pos_iff.mp
  exact (List.count_pos_iff.mpr hi).trans_le (hvisits.count_enter_le_nodesFrom h hsize i)

theorem Visits.parent_eq {a : NodeId} (ha : .enter a ∈ calls.map Prod.fst)
    (hi : i ∈ t.children a) : (t.node i).parent = some a := by
  obtain ⟨y, hy, hshows⟩ := h.exists_of_mem hsize (hvisits.mem_nodesFrom h hsize ha)
  exact (hshows.links (hy.count_le.trans hsize)).parent i hi

include ht

theorem Visits.count_enter_le_one (i : NodeId) : (calls.map Prod.fst).count (.enter i) ≤ 1 := by
  have hnodes := ht.nodup_entries h hsize 0
  rw [entries, map_fst_entriesFrom] at hnodes
  exact (hvisits.count_enter_le_nodesFrom h hsize i).trans (List.nodup_iff_count_le_one.mp hnodes i)

theorem Visits.nodup : (calls.map Prod.fst).Nodup := by
  refine List.nodup_iff_count_le_one.mpr fun call => ?_
  cases call with
  | enter i => exact hvisits.count_enter_le_one ht h hsize i
  | leave i =>
    exact (hvisits.bracketed.count_leave i).le.trans (hvisits.count_enter_le_one ht h hsize i)

/-- Nothing above the first node is entered. -/
theorem Visits.climb?_first_ne {a : NodeId} (ha : .enter a ∈ calls.map Prod.fst) (d : Nat) :
    t.climb? (d + 1) id ≠ some a := by
  intro hd
  obtain ⟨k, hk⟩ := h.climbs hsize (hvisits.mem_nodesFrom h hsize ha)
  have hself : t.climb? (d + 1 + k) id = some id := by rw [climb?_add, hd, Option.bind_some, hk]
  have := ht.climb?_self h.index_lt hself
  omega

/-- Nowhere above a node that was entered did the visitor turn back. -/
theorem Visits.not_skipped {a : NodeId} (ha : t.Answers v calls a .skipChildren)
    (hi : .enter i ∈ calls.map Prod.fst) (d : Nat) : t.climb? (d + 1) i ≠ some a := by
  intro hd
  -- The nodes on the way up were all gone into, and above the first node nothing was entered.
  induction d generalizing i with
  | zero =>
    rcases hvisits.enters_iff.mp hi with hi | ⟨p, hp, hi⟩
    · obtain rfl := List.mem_singleton.mp hi
      exact hvisits.climb?_first_ne ht h hsize ha.mem _ hd
    · rw [climb?_one, hvisits.parent_eq h hsize hp.mem hi] at hd
      obtain rfl := Option.some.inj hd
      cases ha.unique (hvisits.nodup ht h hsize) hp
  | succ d ih =>
    rcases hvisits.enters_iff.mp hi with hi | ⟨p, hp, hi⟩
    · obtain rfl := List.mem_singleton.mp hi
      exact hvisits.climb?_first_ne ht h hsize ha.mem _ hd
    · rw [climb?, hvisits.parent_eq h hsize hp.mem hi, Option.bind_some] at hd
      exact ih hp.mem hd

end Below

/-- In a tree that hangs from its root, a walk goes as the recursion does. -/
theorem Shows.walksRecursively (ht : t.Rooted) (v : Visitor σ) (h : t.Shows id x)
    (hsize : x.count ≤ t.size) (s : σ) : ∃ calls s', t.WalksRecursively v id s calls s' := by
  obtain ⟨calls, s', hvisits, hlength⟩ := h.exists_visits v hsize s
  have htracing : t.walk v.tracing id (s, []) = (s', calls) := by
    obtain ⟨n, hn⟩ := Nat.exists_eq_add_of_le (hlength.trans (Nat.mul_le_mul_left 2 hsize))
    have hwalk := hvisits.walkFrom_eq n [] []
    rw [List.append_nil, List.nil_append, ← hn] at hwalk
    refine hwalk.trans ?_
    cases n <;> rfl
  refine ⟨calls, s', hvisits, fun calls₁ s₁ h₁ => hvisits.unique h₁, ?_, htracing,
    hvisits.bracketed, hvisits.count_enter_le_one ht h hsize, hvisits.bracketed.count_leave,
    fun i => ⟨fun hi => ⟨h.climbs hsize (hvisits.mem_nodesFrom h hsize hi), ?_⟩, ?_⟩⟩
  · exact (walkFrom_fst v.tracing_extends t _ _ _).symm.trans (congrArg Prod.fst htracing)
  · rintro ⟨a, ha, d, hd⟩
    exact hvisits.not_skipped ht h hsize ha hi d hd
  · rintro ⟨⟨d, hd⟩, hskip⟩
    exact hvisits.enters_of_climb? ht hd fun a ha d hd => hskip ⟨a, ha, d, hd⟩

end Tree

/-- Every walk in a tree that parsing gives goes as the recursion does, whatever the visitor. -/
theorem walksRecursively_of_parse {stream : TokenStream} {limits : Limits} {t : Tree}
    (h : parse stream limits = .ok t) {id : NodeId} (hid : id.index < t.size) (v : Visitor σ)
    (s : σ) : ∃ calls s', t.WalksRecursively v id s calls s' := by
  obtain ⟨r, xs, -, hloose, hsize⟩ := parse_loose h
  obtain ⟨hshows, hcount⟩ := shows_of_parse h hid
  exact hshows.walksRecursively (hloose.rooted rfl hsize.symm) v hcount s

/-- A visitor that has had enough after four nodes turns back at the sum. -/
theorem walksRecursively_of_sumFunction : ∃ t, parse sumFunction {} = .ok t ∧
    ∃ calls, t.WalksRecursively
      { enter := fun _ _ n => (if n < 4 then .enterChildren else .skipChildren, n + 1) }
      ⟨0⟩ 0 calls 5 ∧
    calls.map Prod.fst = [.enter ⟨0⟩, .enter ⟨1⟩, .leave ⟨1⟩, .enter ⟨2⟩, .enter ⟨3⟩, .enter ⟨6⟩,
      .leave ⟨6⟩, .leave ⟨3⟩, .leave ⟨2⟩, .leave ⟨0⟩] := by
  let v : Visitor Nat :=
    { enter := fun _ _ n => (if n < 4 then .enterChildren else .skipChildren, n + 1) }
  have hparse : (parse sumFunction {}).toOption.any fun t => 0 < t.size ∧
      (t.walk v.tracing ⟨0⟩ (0, [])).1 = 5 ∧
      (t.walk v.tracing ⟨0⟩ (0, [])).2.map Prod.fst = [.enter ⟨0⟩, .enter ⟨1⟩, .leave ⟨1⟩,
        .enter ⟨2⟩, .enter ⟨3⟩, .enter ⟨6⟩, .leave ⟨6⟩, .leave ⟨3⟩, .leave ⟨2⟩, .leave ⟨0⟩] := by
    decide +kernel
  obtain ⟨t, h, hfacts⟩ := exists_ok_of_any hparse
  obtain ⟨hid, hstate, hcalls⟩ := of_decide_eq_true hfacts
  obtain ⟨calls, s', hwalk⟩ := @walksRecursively_of_parse _ _ _ _ h ⟨0⟩ hid v 0
  rw [hwalk.walk_tracing_eq] at hstate hcalls
  obtain rfl : s' = 5 := hstate
  exact ⟨t, h, calls, hwalk, hcalls⟩

end GoloSyntax
