import GoloSyntax.Proofs.Tree.Construct
import Mathlib.Data.List.Nodup

/-! # Reading off a tree

`Tree.construct` follows the links of a tree from a node downwards.  Where a node shows a
construct, this is what comes out (`Tree.Shows.construct_eq`), and what holds everywhere in
the construct holds of every node that can be reached (`Tree.Reaches`).
-/
namespace GoloSyntax

namespace Construct

/-- `y` is `x` or stands below it. -/
inductive Within : Construct → Construct → Prop where
  | refl (x : Construct) : Within x x
  | part {x y z : Construct} (h : Within y z) (hz : z ∈ x.parts) : Within y x

theorem Within.trans {x y z : Construct} (h : Within x y) (h' : Within y z) : Within x z := by
  induction h' with
  | refl => exact h
  | part _ hz ih => exact .part (ih h) hz

theorem Within.of_part {x y z : Construct} (h : Within y z) (hx : x ∈ y.parts) : Within x z :=
  .trans (.part (.refl x) hx) h

theorem count_lt_of_mem_parts {x y : Construct} (h : y ∈ x.parts) : y.count < x.count := by
  obtain ⟨kind, span, parts⟩ := x
  have := count_le_countAll h
  simp only [count, parts_mk] at this ⊢
  omega

theorem Within.count_le {x y : Construct} (h : Within y x) : y.count ≤ x.count := by
  induction h with
  | refl => exact Nat.le_refl _
  | part _ hz ih => exact Nat.le_trans ih (Nat.le_of_lt (count_lt_of_mem_parts hz))

/-- What holds of a construct and of everything below it. -/
def Everywhere (P : Construct → Prop) (x : Construct) : Prop := ∀ y, Within y x → P y

theorem everywhere_iff {P : Construct → Prop} {x : Construct} :
    Everywhere P x ↔ P x ∧ ∀ y ∈ x.parts, Everywhere P y := by
  constructor
  · exact fun h => ⟨h x (.refl x), fun y hy z hz => h z (.part hz hy)⟩
  · rintro ⟨hx, hparts⟩ y hy
    cases hy with
    | refl => exact hx
    | part h hz => exact hparts _ hz _ h

end Construct

namespace Tree

variable {t : Tree} {id : NodeId} {x : Construct}

theorem Shows.kind_eq (h : t.Shows id x) : t.kind id = x.kind := by
  obtain ⟨kind, span, parts⟩ := x
  obtain ⟨n, ids, hn, hkind, -⟩ := shows_mk.mp h
  simp [Tree.kind, node_eq hn, hkind]

theorem Shows.span_eq (h : t.Shows id x) : t.span id = x.span := by
  obtain ⟨kind, span, parts⟩ := x
  obtain ⟨n, ids, hn, -, hspan, -⟩ := shows_mk.mp h
  simp [Tree.span, node_eq hn, hspan]

/-- No child is linked twice. -/
theorem Links.nodup {n : Node} {ids : List NodeId} (h : t.Links id n ids) : ids.Nodup := by
  suffices hsame : ∀ d i j, i + d + 1 = ids.length → i ≤ j → ids[i]? = ids[j]? → i = j by
    refine List.nodup_iff_getElem?_ne_getElem?.mpr fun i j hij hj heq => ?_
    exact absurd (hsame (ids.length - i - 1) i j (by omega) (Nat.le_of_lt hij) heq) (by omega)
  -- Two places with the same child have the same places behind them, up to the end.
  intro d
  induction d with
  | zero =>
    intro i j hi hij heq
    by_contra hne
    rw [List.getElem?_eq_none (i := j) (by omega), List.getElem?_eq_none_iff] at heq
    omega
  | succ d ih =>
    intro i j hi hij heq
    obtain ⟨c, hc⟩ : ∃ c, ids[i]? = some c := ⟨_, List.getElem?_eq_getElem (by omega)⟩
    have hnext := (h.next i c hc).symm.trans (h.next j c (heq ▸ hc))
    have := ih (i + 1) (j + 1) (by omega) (by omega) hnext
    omega

/-- Following siblings goes through the rest of the children. -/
theorem siblings_of_links {n : Node} {ids : List NodeId} (h : t.Links id n ids) (k m : Nat)
    (hk : ids.length ≤ k + m) (seen : Array NodeId) :
    (t.siblings m ids[k]? seen).toList = seen.toList ++ ids.drop k := by
  induction m generalizing k seen with
  | zero => simpa [siblings] using hk
  | succ m ih =>
    cases hi : ids[k]? with
    | none => simp [siblings, List.drop_eq_nil_of_le (List.getElem?_eq_none_iff.mp hi)]
    | some i =>
      obtain ⟨hlt, hget⟩ := List.getElem?_eq_some_iff.mp hi
      rw [siblings, h.next k i hi, ih (k + 1) (by omega)]
      rw [List.drop_eq_getElem_cons hlt, hget]
      simp

/-- The children of a node are linked, and show its parts. -/
theorem Shows.links_and_children (h : t.Shows id x) (hsize : x.count ≤ t.size) :
    t.Links id (t.node id) (t.children id) ∧ List.Forall₂ t.Shows (t.children id) x.parts := by
  obtain ⟨kind, span, parts⟩ := x
  obtain ⟨n, ids, hn, -, -, hlinks, hparts⟩ := shows_mk.mp h
  have hlength : ids.length ≤ t.size := by
    have h₁ := hparts.length_eq
    have h₂ := Construct.length_le_countAll parts
    simp only [Construct.count] at hsize
    omega
  have hchildren : t.children id = ids := by
    have := siblings_of_links hlinks 0 t.size (by omega) #[]
    rw [Tree.children, node_eq hn, hlinks.first, List.head?_eq_getElem?]
    simpa using this
  rw [hchildren, node_eq hn]
  exact ⟨hlinks, hparts⟩

theorem Shows.links (h : t.Shows id x) (hsize : x.count ≤ t.size) :
    t.Links id (t.node id) (t.children id) :=
  (h.links_and_children hsize).1

theorem Shows.children (h : t.Shows id x) (hsize : x.count ≤ t.size) :
    List.Forall₂ t.Shows (t.children id) x.parts :=
  (h.links_and_children hsize).2

theorem exists_of_mem_forall₂ {α β : Type} {R : α → β → Prop} {as : List α} {bs : List β} {a : α}
    (h : List.Forall₂ R as bs) (ha : a ∈ as) : ∃ b ∈ bs, R a b := by
  induction h with
  | nil => cases ha
  | cons hab _ ih =>
    rcases List.mem_cons.mp ha with rfl | ha
    · exact ⟨_, List.mem_cons_self, hab⟩
    · obtain ⟨b, hb, hR⟩ := ih ha
      exact ⟨b, List.mem_cons_of_mem _ hb, hR⟩

/-- A child shows a part, which is smaller. -/
theorem Shows.exists_child (h : t.Shows id x) (hsize : x.count ≤ t.size) {c : NodeId}
    (hc : c ∈ t.children id) : ∃ y ∈ x.parts, t.Shows c y ∧ y.count < x.count := by
  obtain ⟨y, hy, hshows⟩ := exists_of_mem_forall₂ (h.children hsize) hc
  exact ⟨y, hy, hshows, Construct.count_lt_of_mem_parts hy⟩

/-- The nodes that can be reached from the root by going to children. -/
inductive Reaches (t : Tree) : NodeId → Prop where
  | root : Reaches t Tree.root
  | child {id child : NodeId} (h : Reaches t id) (hchild : child ∈ t.children id) :
    Reaches t child

/-- Every node that can be reached shows something of what the root shows. -/
theorem Shows.exists_within (h : t.Shows Tree.root x) (hsize : x.count ≤ t.size)
    (hid : t.Reaches id) : ∃ y, y.Within x ∧ t.Shows id y := by
  induction hid with
  | root => exact ⟨x, .refl x, h⟩
  | child _ hchild ih =>
    obtain ⟨y, hy, hshows⟩ := ih
    have hparts := hshows.children (Nat.le_trans hy.count_le hsize)
    obtain ⟨z, hz, hshown⟩ := exists_of_mem_forall₂ hparts hchild
    exact ⟨z, hy.of_part hz, hshown⟩

/-- The construct that is read off downwards from a node, with at most so many levels. -/
def constructFrom (t : Tree) : Nat → NodeId → Construct
  | 0, id => .mk (t.kind id) (t.span id) []
  | n + 1, id => .mk (t.kind id) (t.span id) ((t.children id).map (t.constructFrom n))

/-- The construct that is read off downwards from a node. -/
def construct (t : Tree) (id : NodeId) : Construct := t.constructFrom t.size id

theorem Shows.constructFrom_eq (h : t.Shows id x) (hsize : x.count ≤ t.size) {n : Nat}
    (hn : x.count ≤ n) : t.constructFrom n id = x := by
  induction n generalizing id x with
  | zero => exact absurd x.count_pos (by omega)
  | succ n ih =>
    have hparts := h.children hsize
    rw [constructFrom, h.kind_eq, h.span_eq]
    obtain ⟨kind, span, parts⟩ := x
    simp only [Construct.kind_mk, Construct.span_mk, Construct.parts_mk] at hparts ⊢
    simp only [Construct.count] at hsize hn
    congr 1
    have hall : List.Forall₂ (fun i y => t.constructFrom n i = y) (t.children id) parts :=
      forall₂_of_mem hparts fun i _ y hy hshows => by
        have := Construct.count_le_countAll hy
        exact ih hshows (by omega) (by omega)
    rwa [← List.forall₂_map_left_iff, List.forall₂_eq_eq_eq] at hall

/-- What a node shows is what is read off. -/
theorem Shows.construct_eq (h : t.Shows id x) (hsize : x.count ≤ t.size) : t.construct id = x :=
  h.constructFrom_eq hsize hsize

end Tree

end GoloSyntax
