import GoloSyntax.Proofs.Reading.Parse
import Mathlib.Data.List.Nodup
import Mathlib.Data.List.Perm.Basic

/-! # Every node hangs in the tree once

The nodes of a tree are numbered in the order in which they were made, and a child may be
older or younger than its parent, so the numbers say nothing about the shape.  `Rooted`
says what the links make of them: going up by parents ends at the root, going down by
children visits every node exactly once, and the two agree.

Whatever a node shows, its descendants climb back to it (`Shows.climbs`), in as many steps as they
are deeper (`Shows.climb?_of_mem_entriesFrom`).  A node that is known to climb to the root in some
number of steps does so in no other number (`climb?_unique`), and so no node can stand in two places
below the root (`Shows.nodup_nodesFrom`).  All nodes are below the root because there are no more of
them than the root's construct has (`rooted_of_parse`).
-/
namespace GoloSyntax

namespace Tree

/-- The node that many steps up from a node. -/
def climb? (t : Tree) : Nat → NodeId → Option NodeId
  | 0, id => some id
  | n + 1, id => (t.node id).parent.bind (t.climb? n)

/-- A node and what is below it, parents first, with at most so many levels. -/
def nodesFrom (t : Tree) : Nat → NodeId → List NodeId
  | 0, id => [id]
  | n + 1, id => id :: (t.children id).flatMap (t.nodesFrom n)

/-- A node and what is below it with the depths, in pre-order, with at most so many levels. -/
def entriesFrom (t : Tree) : Nat → Nat → NodeId → List (NodeId × Nat)
  | 0, depth, id => [(id, depth)]
  | n + 1, depth, id => (id, depth) :: (t.children id).flatMap (t.entriesFrom n (depth + 1))

/-- The nodes met on a way through the whole tree, parents first and children in order. -/
def preorder (t : Tree) : List NodeId := t.nodesFrom t.size root

/-- The links of a tree make one tree of all its nodes. -/
structure Rooted (t : Tree) : Prop where
  root_kind : t.kind root = .compilationUnit
  root_parent : (t.node root).parent = none
  /-- The children of a node are linked from the first to the last one, behind which
  nothing comes. -/
  linked : ∀ id, id.index < t.size → t.Links id (t.node id) (t.children id) ∧
    ∀ last, (t.node id).lastChild = some last →
      (t.children id).getLast? = some last ∧ (t.node last).nextSibling = none
  /-- A node other than the root stands once among the children of its parent, and among
  those of no other node. -/
  parent : ∀ id, id.index < t.size → id ≠ root → ∃ p, p.index < t.size ∧
    (t.node id).parent = some p ∧ (t.children p).count id = 1 ∧ ∀ q, id ∈ t.children q → q = p
  climbs : ∀ id, id.index < t.size → ∃ n, t.climb? n id = some root
  reached : ∀ id, t.Reaches id ↔ id.index < t.size
  /-- Going through the tree meets each node once. -/
  once : t.preorder.Perm ((List.range t.size).map NodeId.mk)

variable {t : Tree} {id id' p : NodeId} {x : Construct} {m n depth : Nat}

/-! ## Climbing -/

theorem climb?_add (t : Tree) (m n : Nat) (id : NodeId) :
    t.climb? (m + n) id = (t.climb? m id).bind (t.climb? n) := by
  induction m generalizing id with
  | zero => simp [climb?]
  | succ m ih =>
    rw [Nat.succ_add, climb?, climb?]
    cases (t.node id).parent with
    | none => rfl
    | some p => exact ih p

theorem climb?_one (t : Tree) (id : NodeId) : t.climb? 1 id = (t.node id).parent := by
  show (t.node id).parent.bind some = _
  exact Option.bind_fun_some _

/-- Nobody climbs beyond a node without a parent. -/
theorem climb?_unique (hp : (t.node p).parent = none) (hm : t.climb? m id = some p)
    (hn : t.climb? n id = some p) : m = n := by
  wlog hle : m ≤ n generalizing m n
  · exact (this hn hm (by omega)).symm
  obtain ⟨k, rfl⟩ := Nat.exists_eq_add_of_le hle
  rw [climb?_add, hm, Option.bind_some] at hn
  cases k with
  | zero => rfl
  | succ k =>
    rw [climb?, hp] at hn
    cases hn

/-! ## What is below a node -/

theorem map_fst_entriesFrom (t : Tree) (n depth : Nat) (id : NodeId) :
    (t.entriesFrom n depth id).map Prod.fst = t.nodesFrom n id := by
  induction n generalizing depth id with
  | zero => rfl
  | succ n ih =>
    rw [entriesFrom, nodesFrom, List.map_cons, List.map_flatMap]
    simp only [ih]

/-- An entry is as much deeper than the first one as its node has to climb. -/
theorem Shows.climb?_of_mem_entriesFrom (h : t.Shows id x) (hsize : x.count ≤ t.size)
    {e : NodeId × Nat} (he : e ∈ t.entriesFrom n depth id) :
    ∃ d, e.2 = depth + d ∧ t.climb? d e.1 = some id := by
  induction n generalizing id x depth with
  | zero =>
    obtain rfl := List.mem_singleton.mp he
    exact ⟨0, rfl, rfl⟩
  | succ n ih =>
    rcases List.mem_cons.mp he with rfl | he
    · exact ⟨0, rfl, rfl⟩
    · obtain ⟨c, hc, he⟩ := List.mem_flatMap.mp he
      obtain ⟨y, -, hshows, hcount⟩ := h.exists_child hsize hc
      obtain ⟨d, hd, hclimb⟩ := ih hshows (by omega) he
      refine ⟨d + 1, by omega, ?_⟩
      rw [climb?_add, hclimb, Option.bind_some, climb?_one]
      exact (h.links hsize).parent c hc

/-- What is below a node climbs to it. -/
theorem Shows.climbs (h : t.Shows id x) (hsize : x.count ≤ t.size)
    (hid : id' ∈ t.nodesFrom n id) : ∃ k, t.climb? k id' = some id := by
  rw [← t.map_fst_entriesFrom n 0 id] at hid
  obtain ⟨e, he, rfl⟩ := List.mem_map.mp hid
  obtain ⟨d, -, hd⟩ := h.climb?_of_mem_entriesFrom hsize he
  exact ⟨d, hd⟩

theorem length_flatMap_of_forall₂ {ids : List NodeId} {xs : List Construct}
    {f : NodeId → List NodeId}
    (h : List.Forall₂ (fun i y => (f i).length = Construct.count y) ids xs) :
    (ids.flatMap f).length = Construct.countAll xs := by
  induction h with
  | nil => rfl
  | cons hlength _ ih => simp [Construct.countAll, hlength, ih]

/-- There are as many nodes from a node downwards as its construct has. -/
theorem Shows.length_nodesFrom (h : t.Shows id x) (hsize : x.count ≤ t.size) (hn : x.count ≤ n) :
    (t.nodesFrom n id).length = x.count := by
  induction n generalizing id x with
  | zero => exact absurd x.count_pos (by omega)
  | succ n ih =>
    have hparts := h.children hsize
    obtain ⟨kind, span, parts⟩ := x
    simp only [Construct.count, Construct.parts_mk] at hsize hn hparts ⊢
    have hall := length_flatMap_of_forall₂ (f := t.nodesFrom n) <|
      forall₂_of_mem hparts fun i _ y hy hshows => by
        have := Construct.count_le_countAll hy
        exact ih hshows (by omega) (by omega)
    simp only [nodesFrom, List.length_cons, hall]
    omega

/-- Below a node from which the root can be reached, nothing stands twice. -/
theorem Shows.nodup_nodesFrom (hroot : (t.node p).parent = none) (hp : t.climb? m id = some p)
    (h : t.Shows id x) (hsize : x.count ≤ t.size) : (t.nodesFrom n id).Nodup := by
  induction n generalizing id x m with
  | zero => exact List.nodup_singleton id
  | succ n ih =>
    have hlinks := h.links hsize
    have hchild : ∀ c ∈ t.children id, t.climb? (m + 1) c = some p ∧
        ∃ y, t.Shows c y ∧ y.count ≤ t.size := by
      intro c hc
      obtain ⟨y, -, hshows, hcount⟩ := h.exists_child hsize hc
      refine ⟨?_, y, hshows, by omega⟩
      rw [climb?, hlinks.parent c hc, Option.bind_some, hp]
    -- The number of steps up to the root tells a node from all that are below it, and a
    -- node below two children would climb to both in the same number of steps.
    refine List.nodup_cons.mpr ⟨fun hmem => ?_, List.nodup_flatMap.mpr ⟨fun c hc => ?_, ?_⟩⟩
    · obtain ⟨c, hc, hmem⟩ := List.mem_flatMap.mp hmem
      obtain ⟨hup, y, hshows, hy⟩ := hchild c hc
      obtain ⟨k, hk⟩ := hshows.climbs hy hmem
      have hlong : t.climb? (k + (m + 1)) id = some p := by rw [climb?_add, hk, Option.bind_some, hup]
      have := climb?_unique hroot hp hlong
      omega
    · obtain ⟨hup, y, hshows, hy⟩ := hchild c hc
      exact ih hup hshows hy
    · refine hlinks.nodup.pairwise_of_forall_ne fun a ha b hb hne => ?_
      obtain ⟨hupa, y, hshowsa, hy⟩ := hchild a ha
      obtain ⟨hupb, z, hshowsb, hz⟩ := hchild b hb
      intro i hia hib
      obtain ⟨k, hk⟩ := hshowsa.climbs hy hia
      obtain ⟨l, hl⟩ := hshowsb.climbs hz hib
      have hlonga : t.climb? (k + (m + 1)) i = some p := by
        rw [climb?_add, hk, Option.bind_some, hupa]
      have hlongb : t.climb? (l + (m + 1)) i = some p := by
        rw [climb?_add, hl, Option.bind_some, hupb]
      obtain rfl : k = l := by
        have := climb?_unique hroot hlonga hlongb
        omega
      exact hne (Option.some.inj (hk.symm.trans hl))

theorem Shows.exists_of_mem (h : t.Shows id x) (hsize : x.count ≤ t.size)
    (hid : id' ∈ t.nodesFrom n id) : ∃ y, y.Within x ∧ t.Shows id' y := by
  induction n generalizing id x with
  | zero => exact ⟨x, .refl x, List.mem_singleton.mp hid ▸ h⟩
  | succ n ih =>
    rcases List.mem_cons.mp hid with rfl | hid
    · exact ⟨x, .refl x, h⟩
    · obtain ⟨c, hc, hid⟩ := List.mem_flatMap.mp hid
      obtain ⟨y, hy, hshows, hcount⟩ := h.exists_child hsize hc
      obtain ⟨z, hz, hshown⟩ := ih hshows (by omega) hid
      exact ⟨z, .part hz hy, hshown⟩

theorem reaches_of_mem (h : t.Reaches id) (hid : id' ∈ t.nodesFrom n id) : t.Reaches id' := by
  induction n generalizing id with
  | zero => exact List.mem_singleton.mp hid ▸ h
  | succ n ih =>
    rcases List.mem_cons.mp hid with rfl | hid
    · exact h
    · obtain ⟨c, hc, hid⟩ := List.mem_flatMap.mp hid
      exact ih (h.child hc) hid

/-- What is below a node from which the root can be reached is a selection of all nodes. -/
theorem Shows.subperm_nodesFrom (hroot : (t.node p).parent = none)
    (hp : t.climb? m id = some p) (h : t.Shows id x) (hsize : x.count ≤ t.size) :
    (t.nodesFrom n id).Subperm ((List.range t.size).map NodeId.mk) := by
  refine List.subperm_of_subset (h.nodup_nodesFrom hroot hp hsize) fun i hi => ?_
  obtain ⟨y, -, hy⟩ := h.exists_of_mem hsize hi
  exact List.mem_map.mpr ⟨i.index, List.mem_range.mpr hy.index_lt, rfl⟩

/-- A tree whose root shows all there is hangs from its root. -/
theorem Loose.rooted (h : t.Loose root x) (hkind : x.kind = .compilationUnit)
    (hsize : x.count = t.size) : t.Rooted := by
  have hle : x.count ≤ t.size := hsize.le
  have hperm : t.preorder.Perm ((List.range t.size).map NodeId.mk) := by
    refine (h.shows.subperm_nodesFrom (m := 0) h.parent rfl hle).perm_of_length_le ?_
    rw [List.length_map, List.length_range]
    exact (hsize.symm.trans (h.shows.length_nodesFrom hle hle).symm).le
  have hmem : ∀ {id}, id.index < t.size → id ∈ t.preorder := fun {id} hid =>
    hperm.mem_iff.mpr (List.mem_map.mpr ⟨id.index, List.mem_range.mpr hid, rfl⟩)
  have hshows : ∀ {id}, id.index < t.size → ∃ y, y.Within x ∧ t.Shows id y := fun hid =>
    h.shows.exists_of_mem hle (hmem hid)
  have hlinks : ∀ {id}, id.index < t.size → t.Links id (t.node id) (t.children id) := fun hid => by
    obtain ⟨y, hy, hid⟩ := hshows hid
    exact hid.links (Nat.le_trans hy.count_le hle)
  have hreaches : ∀ id, t.Reaches id ↔ id.index < t.size := fun id => by
    refine ⟨fun hid => ?_, fun hid => reaches_of_mem .root (hmem hid)⟩
    obtain ⟨y, -, hy⟩ := h.shows.exists_within hle hid
    exact hy.index_lt
  -- A number that was not given out stands for a node without children.
  have hparent : ∀ {p id}, id ∈ t.children p → (t.node id).parent = some p ∧ p.index < t.size := by
    intro p id hid
    by_cases hp : p.index < t.size
    · exact ⟨(hlinks hp).parent id hid, hp⟩
    · have hnone : t.node? p = none := Array.getElem?_eq_none (Nat.le_of_not_lt hp)
      have hnode : t.node p = default := by rw [node, hnone]; rfl
      have hnil : t.children p = [] := by
        rw [children, hnode, show (default : Node).firstChild = none from rfl]
        cases t.size <;> rfl
      rw [hnil] at hid
      cases hid
  refine ⟨h.shows.kind_eq.trans hkind, h.parent, fun id hid => ⟨hlinks hid, fun last hlast => ?_⟩,
    fun id hid hne => ?_, fun id hid => h.shows.climbs hle (hmem hid), hreaches, hperm⟩
  · have hids := hlinks hid
    have hend : (t.children id).getLast? = some last := hids.last ▸ hlast
    refine ⟨hend, ?_⟩
    rw [List.getLast?_eq_getElem?] at hend
    rw [hids.next _ last hend, List.getElem?_eq_none_iff]
    omega
  · cases (hreaches id).mpr hid with
    | root => exact absurd rfl hne
    | @child p _ _ hchild =>
      obtain ⟨hpar, hp⟩ := hparent hchild
      refine ⟨p, hp, hpar, List.count_eq_one_of_mem (hlinks hp).nodup hchild, fun q hq => ?_⟩
      exact Option.some.inj ((hparent hq).1.symm.trans hpar)

end Tree

/-- Every tree that parsing gives is one tree of all its nodes, whatever the tokens. -/
theorem rooted_of_parse {stream : TokenStream} {limits : Limits} {t : Tree}
    (h : parse stream limits = .ok t) : t.Rooted := by
  obtain ⟨r, xs, -, hloose, hsize⟩ := parse_loose h
  exact hloose.rooted rfl hsize.symm

/-- The tokens of `module m` and, on the next line, `function m = -> m + m`, without places
and without an end of input. -/
def sumFunction : TokenStream :=
  let (name, symbols) := SymbolTable.empty.intern "m"
  let bare (kind : TokenKind) : Token := ⟨kind, .empty .start, none⟩
  let word : Token := ⟨.identifier, .empty .start, some name⟩
  ⟨#[bare (.keyword .module_), word, bare .newline, bare (.keyword .function), word,
    bare (.mark .assign), bare (.mark .arrow), word, bare (.mark .plus), word], symbols⟩

/-- The sum is made after its operands, and the function before all three. -/
theorem rooted_of_sumFunction : ∃ t, parse sumFunction {} = .ok t ∧
    t.children ⟨3⟩ = [⟨6⟩] ∧ t.children ⟨6⟩ = [⟨4⟩, ⟨5⟩] ∧ t.Rooted := by
  have hparse : ((parse sumFunction {}).toOption.map fun t =>
      decide (t.children ⟨3⟩ = [⟨6⟩] ∧ t.children ⟨6⟩ = [⟨4⟩, ⟨5⟩])) = some true := by
    decide +kernel
  cases ht : parse sumFunction {} with
  | error e =>
    rw [ht] at hparse
    cases hparse
  | ok t =>
    rw [ht] at hparse
    obtain ⟨hfunction, hsum⟩ := of_decide_eq_true (Option.some.inj hparse)
    exact ⟨t, rfl, hfunction, hsum, rooted_of_parse ht⟩

end GoloSyntax
