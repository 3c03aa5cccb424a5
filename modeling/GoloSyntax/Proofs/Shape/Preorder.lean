import GoloSyntax.Proofs.Shape.Arena
import GoloSyntax.Proofs.Tree.Outline
import GoloSyntax.Tree.Visit

/-! # Pre-order

A node is listed with its depth, and behind it what is below its children, one after the other
(`Tree.entries`).  A dump and a walk of the tree keep stacks of their own; both go through the
nodes in this order (`Shows.yields_entries`, `Shows.walk_noting_eq`), provided that the walk is
never told to stay out of a subtree.

In a tree that hangs from its root the listing of a node has everything that climbs to it, once
(`Rooted.mem_entries_iff`, `Rooted.nodup_entries`), and the depth of an entry says how far it has
to climb (`Rooted.climb?_iff_of_mem_entries`).
-/
namespace GoloSyntax

namespace Tree

/-- A node at a depth and what is below it, in pre-order. -/
def entries (t : Tree) (depth : Nat) (id : NodeId) : List (NodeId × Nat) :=
  t.entriesFrom t.size depth id

variable {t : Tree} {id id' : NodeId} {x : Construct} {m n depth : Nat}

theorem mem_nodesFrom_self (t : Tree) (n : Nat) (id : NodeId) : id ∈ t.nodesFrom n id := by
  cases n <;> exact List.mem_cons_self

namespace Shows

/-- More levels than a node has nodes below it add nothing. -/
theorem entriesFrom_eq (h : t.Shows id x) (hsize : x.count ≤ t.size) (hm : x.count ≤ m)
    (hn : x.count ≤ n) (depth : Nat) : t.entriesFrom m depth id = t.entriesFrom n depth id := by
  induction m generalizing id x n depth with
  | zero => exact absurd x.count_pos (by omega)
  | succ m ih =>
    cases n with
    | zero => exact absurd x.count_pos (by omega)
    | succ n =>
      rw [entriesFrom, entriesFrom]
      congr 1
      apply List.flatMap_congr
      intro c hc
      obtain ⟨y, -, hshows, hcount⟩ := h.exists_child hsize hc
      exact ih hshows (by omega) (by omega) (by omega) (depth + 1)

/-- A node comes in front of what is below its children. -/
theorem entries_eq (h : t.Shows id x) (hsize : x.count ≤ t.size) (depth : Nat) :
    t.entries depth id = (id, depth) :: (t.children id).flatMap (t.entries (depth + 1)) := by
  rw [entries, h.entriesFrom_eq hsize hsize (Nat.le_succ_of_le hsize), entriesFrom]
  rfl

/-- The listing of a node is as long as what it shows. -/
theorem length_entries (h : t.Shows id x) (hsize : x.count ≤ t.size) (depth : Nat) :
    (t.entries depth id).length = x.count := by
  rw [← h.length_nodesFrom hsize hsize, ← t.map_fst_entriesFrom t.size depth id, List.length_map]
  rfl

/-- Each entry shows an entry of the outline. -/
theorem pending_entriesFrom (h : t.Shows id x) (hsize : x.count ≤ t.size) (hn : x.count ≤ n)
    (depth : Nat) :
    List.Forall₂ (DumpCursor.Pending t) (t.entriesFrom n depth id) (x.outline depth) := by
  induction n generalizing id x depth with
  | zero => exact absurd x.count_pos (by omega)
  | succ n ih =>
    rw [entriesFrom, Construct.outline_eq, Construct.outlineAll_eq_flatMap]
    have hparts : List.Forall₂ (fun i y => t.Shows i y ∧ y.count < x.count) (t.children id)
        x.parts :=
      forall₂_of_mem (h.children hsize) fun _ _ _ hy hshows =>
        ⟨hshows, Construct.count_lt_of_mem_parts hy⟩
    refine .cons ⟨rfl, h, hsize⟩ (List.rel_flatMap hparts fun i y hy => ?_)
    obtain ⟨hshows, hcount⟩ := hy
    exact ih hshows (by omega) (by omega) (depth + 1)

theorem map_line_entries (h : t.Shows id x) (hsize : x.count ≤ t.size) (options : DumpOptions) :
    (t.entries 0 id).map (fun e => (t.dump id options).line e.1 e.2) =
      (x.outline 0).map options.line := by
  rw [← List.forall₂_eq_eq_eq, List.forall₂_map_left_iff, List.forall₂_map_right_iff]
  exact (h.pending_entriesFrom hsize hsize 0).imp fun _ _ he => he.line_eq _

/-- A dump gives out one line for each entry. -/
theorem yields_entries (h : t.Shows id x) (hsize : x.count ≤ t.size) (options : DumpOptions) :
    (t.dump id options).Yields
      ((t.entries 0 id).map fun e => (t.dump id options).line e.1 e.2) := by
  rw [h.map_line_entries hsize]
  exact h.yields hsize options

theorem dumpLines_eq_map_line (h : t.Shows id x) (hsize : x.count ≤ t.size)
    (options : DumpOptions) : t.dumpLines id options =
      (t.entries 0 id).map fun e => (t.dump id options).line e.1 e.2 := by
  rw [h.dumpLines_eq hsize, h.map_line_entries hsize]

/-- There is a node for each level down to an entry. -/
theorem depth_lt_of_mem_entriesFrom (h : t.Shows id x) (hsize : x.count ≤ t.size)
    {e : NodeId × Nat} (he : e ∈ t.entriesFrom n depth id) : e.2 < depth + x.count := by
  have hcount := x.count_pos
  induction n generalizing id x depth with
  | zero =>
    obtain rfl := List.mem_singleton.mp he
    show depth < _
    omega
  | succ n ih =>
    rcases List.mem_cons.mp he with rfl | he
    · show depth < _
      omega
    · obtain ⟨c, hc, he⟩ := List.mem_flatMap.mp he
      obtain ⟨y, -, hshows, hlt⟩ := h.exists_child hsize hc
      have := ih hshows (by omega) he y.count_pos
      omega

/-- What hangs below an entry is listed too. -/
theorem mem_nodesFrom_of_mem_children (h : t.Shows id x) (hsize : x.count ≤ t.size)
    (hn : x.count ≤ n) {p c : NodeId} (hp : p ∈ t.nodesFrom n id) (hc : c ∈ t.children p) :
    c ∈ t.nodesFrom n id := by
  induction n generalizing id x with
  | zero => exact absurd x.count_pos (by omega)
  | succ n ih =>
    rcases List.mem_cons.mp hp with rfl | hp
    · exact List.mem_cons_of_mem _ (List.mem_flatMap.mpr ⟨c, hc, t.mem_nodesFrom_self n c⟩)
    · obtain ⟨b, hb, hp⟩ := List.mem_flatMap.mp hp
      obtain ⟨y, -, hshows, hcount⟩ := h.exists_child hsize hb
      have hmem := ih hshows (by omega) (by omega) hp
      exact List.mem_cons_of_mem _ (List.mem_flatMap.mpr ⟨b, hb, hmem⟩)

end Shows

/-! ## Trees that hang from their roots -/

namespace Rooted

/-- A node with a parent is one of its children. -/
theorem mem_children_of_parent (ht : t.Rooted) {p : NodeId} (h : (t.node id).parent = some p) :
    id ∈ t.children p := by
  have hid : id.index < t.size := by
    by_contra hid
    rw [node, node?, Array.getElem?_eq_none (Nat.le_of_not_lt hid)] at h
    cases h
  have hne : id ≠ root := by
    rintro rfl
    rw [ht.root_parent] at h
    cases h
  obtain ⟨q, -, hq, hcount, -⟩ := ht.parent id hid hne
  obtain rfl : q = p := Option.some.inj (hq.symm.trans h)
  exact List.one_le_count_iff.mp hcount.ge

/-- What climbs to a node is listed below it, and nothing else is. -/
theorem mem_entries_iff (ht : t.Rooted) (h : t.Shows id x) (hsize : x.count ≤ t.size) :
    id' ∈ (t.entries depth id).map Prod.fst ↔ ∃ k, t.climb? k id' = some id := by
  rw [entries, map_fst_entriesFrom]
  constructor
  · exact h.climbs hsize
  · rintro ⟨k, hk⟩
    induction k generalizing id' with
    | zero =>
      obtain rfl := Option.some.inj hk
      exact t.mem_nodesFrom_self t.size id'
    | succ k ih =>
      obtain ⟨p, hp, hk⟩ := Option.bind_eq_some_iff.mp hk
      exact h.mem_nodesFrom_of_mem_children hsize hsize (ih hk) (ht.mem_children_of_parent hp)

/-- The depth of an entry is the distance of its node from the first one. -/
theorem climb?_iff_of_mem_entries (ht : t.Rooted) (h : t.Shows id x) (hsize : x.count ≤ t.size)
    {e : NodeId × Nat} (he : e ∈ t.entries 0 id) (d : Nat) :
    t.climb? d e.1 = some id ↔ d = e.2 := by
  obtain ⟨d', hd', hclimb⟩ := h.climb?_of_mem_entriesFrom hsize he
  rw [Nat.zero_add] at hd'
  constructor
  · intro hd
    -- Both ways go on to the root, which is reached in one number of steps only.
    obtain ⟨k, hk⟩ := ht.climbs id h.index_lt
    have hlong : t.climb? (d + k) e.1 = some root := by rw [climb?_add, hd, Option.bind_some, hk]
    have hlong' : t.climb? (d' + k) e.1 = some root := by
      rw [climb?_add, hclimb, Option.bind_some, hk]
    have := climb?_unique ht.root_parent hlong hlong'
    omega
  · rintro rfl
    rw [hd']
    exact hclimb

theorem nodup_entries (ht : t.Rooted) (h : t.Shows id x) (hsize : x.count ≤ t.size) (depth : Nat) :
    ((t.entries depth id).map Prod.fst).Nodup := by
  rw [entries, map_fst_entriesFrom]
  obtain ⟨k, hk⟩ := ht.climbs id h.index_lt
  exact h.nodup_nodesFrom ht.root_parent hk hsize

end Rooted

end Tree

/-! ## Walks -/

namespace Visitor

variable {σ : Type}

/-- The visitor always has the walk go on into the children. -/
def Continues (v : Visitor σ) : Prop := ∀ t id s, (v.enter t id s).1 = .enterChildren

/-- The same visitor, which also notes the nodes in the order in which they are entered. -/
def noting (v : Visitor σ) : Visitor (σ × List NodeId) where
  enter t id s := ((v.enter t id s.1).1, (v.enter t id s.1).2, s.2 ++ [id])
  leave t id s := (v.leave t id s.1, s.2)

/-- A visitor that does as another one does, but keeps something besides. -/
structure Extends {α : Type} (w : Visitor (σ × α)) (v : Visitor σ) : Prop where
  enter : ∀ t id s, ((w.enter t id s).1, (w.enter t id s).2.1) = v.enter t id s.1
  leave : ∀ t id s, (w.leave t id s).1 = v.leave t id s.1

theorem noting_extends (v : Visitor σ) : v.noting.Extends v :=
  ⟨fun _ _ _ => rfl, fun _ _ _ => rfl⟩

end Visitor

namespace Tree

variable {σ : Type} {t : Tree} {v : Visitor σ} {id : NodeId} {x : Construct}

/-- What a visitor keeps besides changes nothing of a walk. -/
theorem walkFrom_fst {α : Type} {w : Visitor (σ × α)} (hw : w.Extends v) (t : Tree) (n : Nat)
    (stack : List PendingCall) (s : σ × α) :
    (t.walkFrom w n stack s).1 = t.walkFrom v n stack s.1 := by
  induction n generalizing stack s with
  | zero => rfl
  | succ n ih =>
    match stack with
    | [] => rfl
    | .leave id :: stack =>
      rw [walkFrom, walkFrom, ← hw.leave]
      exact ih stack _
    | .enter id :: stack =>
      rw [walkFrom, walkFrom, ← hw.enter]
      rcases w.enter t id s with ⟨_ | _, s'⟩
      · exact ih _ s'
      · exact ih _ s'

/-- So many calls see to what is on top of a stack, and note these nodes in doing so. -/
def Notes (t : Tree) (v : Visitor σ) (count : Nat) (calls : List PendingCall)
    (ids : List NodeId) : Prop :=
  ∀ (n : Nat) (stack : List PendingCall) (s : σ) (noted : List NodeId), ∃ s',
    t.walkFrom v.noting (count + n) (calls ++ stack) (s, noted) =
      t.walkFrom v.noting n stack (s', noted ++ ids)

namespace Notes

variable {count count' : Nat} {calls calls' : List PendingCall} {ids ids' : List NodeId}

theorem nil : t.Notes v 0 [] [] := by
  intro n stack s noted
  refine ⟨s, ?_⟩
  rw [Nat.zero_add, List.nil_append, List.append_nil]

theorem append (h : t.Notes v count calls ids) (h' : t.Notes v count' calls' ids') :
    t.Notes v (count + count') (calls ++ calls') (ids ++ ids') := by
  intro n stack s noted
  obtain ⟨s₁, h₁⟩ := h (count' + n) (calls' ++ stack) s noted
  obtain ⟨s₂, h₂⟩ := h' n stack s₁ (noted ++ ids)
  refine ⟨s₂, ?_⟩
  rw [Nat.add_assoc, List.append_assoc, h₁, h₂, List.append_assoc]

theorem leave (id : NodeId) : t.Notes v 1 [.leave id] [] := by
  intro n stack s noted
  refine ⟨v.leave t id s, ?_⟩
  rw [Nat.add_comm, List.singleton_append, walkFrom, List.append_nil]
  rfl

/-- A node that is entered is noted, and its children are entered before it is left. -/
theorem enter (hv : v.Continues) (h : t.Notes v count ((t.children id).map .enter) ids) :
    t.Notes v (count + 2) [.enter id] (id :: ids) := by
  intro n stack s noted
  -- One call enters the node, the others see to the children, and the last one leaves the node.
  obtain ⟨s', hs'⟩ := h.append (.leave id) n stack (v.enter t id s).2 (noted ++ [id])
  refine ⟨s', ?_⟩
  have hdescent := hv t id s
  rw [show count + 2 + n = count + 1 + n + 1 by omega, List.singleton_append, walkFrom]
  simp only [Visitor.noting] at hs' ⊢
  rw [hdescent]
  simpa using hs'

theorem all {xs : List Construct} {f : NodeId → List NodeId}
    (h : List.Forall₂ (fun i y => t.Notes v (2 * Construct.count y) [.enter i] (f i)) ids xs) :
    t.Notes v (2 * Construct.countAll xs) (ids.map .enter) (ids.flatMap f) := by
  induction h with
  | nil => exact .nil
  | cons hfirst _ ih =>
    rw [Construct.countAll, Nat.mul_add]
    exact hfirst.append ih

end Notes

/-- Two calls for each node note them all in pre-order. -/
theorem Shows.notes (hv : v.Continues) (h : t.Shows id x) (hsize : x.count ≤ t.size) {n : Nat}
    (hn : x.count ≤ n) : t.Notes v (2 * x.count) [.enter id] (t.nodesFrom n id) := by
  induction n generalizing id x with
  | zero => exact absurd x.count_pos (by omega)
  | succ n ih =>
    have hparts := forall₂_of_mem (h.children hsize) fun i _ y hy hshows => by
      have hcount := Construct.count_lt_of_mem_parts hy
      exact ih hshows (by omega) (by omega)
    have hnotes := Notes.enter hv (Notes.all hparts)
    obtain ⟨kind, span, parts⟩ := x
    rw [Construct.count, nodesFrom, Nat.mul_add, Nat.add_comm]
    exact hnotes

/-- A walk that goes everywhere enters the nodes that are listed, in the same order. -/
theorem Shows.walk_noting_eq (hv : v.Continues) (h : t.Shows id x) (hsize : x.count ≤ t.size)
    (s : σ) : t.walk v.noting id (s, []) = (t.walk v id s, (t.entries 0 id).map Prod.fst) := by
  refine Prod.ext (walkFrom_fst v.noting_extends t _ _ _) ?_
  obtain ⟨s', hs'⟩ := h.notes hv hsize hsize (2 * (t.size - x.count)) [] s []
  rw [← Nat.mul_add, Nat.add_sub_cancel' hsize, List.append_nil] at hs'
  rw [walk, entries, map_fst_entriesFrom, hs']
  cases 2 * (t.size - x.count) <;> rfl

end Tree

end GoloSyntax
