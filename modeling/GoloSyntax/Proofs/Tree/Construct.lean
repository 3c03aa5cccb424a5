import GoloSyntax.Tree.Basic
import Mathlib.Data.List.Forall2

/-! # Constructs

A `Construct` is a part of a syntax tree as a value: what it is, where it stands, and
its parts in source order.  A `Tree` keeps the same information as numbered nodes with
links, which suits building it; statements about whole subtrees are easier to make and
to prove of constructs.  `Tree.Shows` says that a node of a tree, with everything below
it, is a given construct.

A node is **loose** (`Tree.Loose`) while it has neither a parent nor a sibling behind
it.  A tree is built by making loose nodes and attaching them to loose nodes, and
`Loose.attach` is all there is to know about that: the node attached to gains the
construct of the other as its last part, and every other loose node keeps what it
shows.
-/
namespace GoloSyntax

/-- What a node of a syntax tree is, where it stands, and its parts. -/
inductive Construct where
  | mk (kind : NodeKind) (span : Span) (parts : List Construct)

namespace Construct

def kind : Construct → NodeKind
  | mk kind _ _ => kind

def span : Construct → Span
  | mk _ span _ => span

def parts : Construct → List Construct
  | mk _ _ parts => parts

@[simp] theorem kind_mk (kind : NodeKind) (span : Span) (parts : List Construct) :
    (mk kind span parts).kind = kind := rfl

@[simp] theorem span_mk (kind : NodeKind) (span : Span) (parts : List Construct) :
    (mk kind span parts).span = span := rfl

@[simp] theorem parts_mk (kind : NodeKind) (span : Span) (parts : List Construct) :
    (mk kind span parts).parts = parts := rfl

/-- Induction over constructs: what holds of a construct whenever it holds of its parts
holds of all. -/
theorem byParts {motive : Construct → Prop}
    (step : ∀ kind span parts, (∀ x ∈ parts, motive x) → motive (mk kind span parts)) :
    ∀ x, motive x
  | mk kind span parts => step kind span parts fun x _ => byParts step x

mutual

/-- The number of nodes. -/
def count : Construct → Nat
  | mk _ _ parts => 1 + countAll parts

def countAll : List Construct → Nat
  | [] => 0
  | x :: xs => count x + countAll xs

end

@[simp] theorem countAll_append (xs ys : List Construct) :
    countAll (xs ++ ys) = countAll xs + countAll ys := by
  induction xs with
  | nil => simp [countAll]
  | cons x xs ih => simp [countAll, ih, Nat.add_assoc]

theorem count_pos (x : Construct) : 0 < x.count := by
  cases x
  simp only [count]
  omega

theorem length_le_countAll (xs : List Construct) : xs.length ≤ countAll xs := by
  induction xs with
  | nil => simp
  | cons x xs ih =>
    have := x.count_pos
    simp only [List.length_cons, countAll]
    omega

theorem count_le_countAll {x : Construct} {xs : List Construct} (h : x ∈ xs) :
    x.count ≤ countAll xs := by
  induction h with
  | head => simp [countAll]
  | tail _ _ ih => simp only [countAll]; omega

mutual

/-- The construct without its places. -/
def bare : Construct → Construct
  | mk kind _ parts => mk kind default (bareAll parts)

def bareAll : List Construct → List Construct
  | [] => []
  | x :: xs => bare x :: bareAll xs

end

theorem bareAll_eq_map (xs : List Construct) : bareAll xs = xs.map bare := by
  induction xs with
  | nil => rfl
  | cons x xs ih => simp [bareAll, ih]

@[simp] theorem bareAll_append (xs ys : List Construct) :
    bareAll (xs ++ ys) = bareAll xs ++ bareAll ys := by
  simp [bareAll_eq_map]

@[simp] theorem count_bare (x : Construct) : x.bare.count = x.count := by
  induction x using byParts with
  | step kind span parts ih =>
    have hall : countAll (bareAll parts) = countAll parts := by
      induction parts with
      | nil => rfl
      | cons y ys ihys =>
        simp only [bareAll, countAll, ih y List.mem_cons_self,
          ihys fun z hz => ih z (List.mem_cons_of_mem _ hz)]
    simp only [bare, count, hall]

@[simp] theorem kind_bare (x : Construct) : x.bare.kind = x.kind := by
  cases x
  rfl

end Construct

/-- The node with `c` as one more child behind the others. -/
def Node.withLast (n : Node) (c : NodeId) : Node :=
  { n with firstChild := n.firstChild <|> some c, lastChild := some c }

/-! ## Nodes and links after each step of building -/

namespace Tree

variable {t t' : Tree} {p c id : NodeId} {x y : Construct}

theorem node?_modify (t : Tree) (id i : NodeId) (f : Node → Node) :
    (t.modify id f).node? i = if i = id then (t.node? i).map f else t.node? i := by
  obtain ⟨id⟩ := id
  obtain ⟨i⟩ := i
  by_cases h : i = id
  · simp [node?, modify, Array.getElem?_modify, h]
  · simp [node?, modify, Array.getElem?_modify, h, Ne.symm h]

theorem node?_push (t : Tree) (kind : NodeKind) (span : Span) (i : NodeId) :
    (t.push kind span).2.node? i =
      if i.index = t.size then some { kind, span } else t.node? i := by
  show (t.nodes.push { kind, span })[i.index]? = _
  rw [Array.getElem?_push]
  rfl

@[simp] theorem node?_intern (t : Tree) (text : String) (i : NodeId) :
    (t.intern text).node? i = t.node? i := rfl

theorem node_eq {n : Node} (h : t.node? id = some n) : t.node id = n := by
  simp [node, h]

theorem node?_of_parent (h : (t.node id).parent ≠ none) : t.node? id = some (t.node id) := by
  cases hn : t.node? id with
  | none => exact absurd (by simp [node, hn]; rfl) h
  | some n => simp [node, hn]

theorem index_lt {n : Node} (h : t.node? id = some n) : id.index < t.size := by
  obtain ⟨hlt, -⟩ := Array.getElem?_eq_some_iff.mp h
  exact hlt

/-! ## What a node shows -/

theorem forall₂_of_mem {α β : Type} {R S : α → β → Prop} {as : List α} {bs : List β}
    (h : List.Forall₂ R as bs) (hRS : ∀ a ∈ as, ∀ b ∈ bs, R a b → S a b) :
    List.Forall₂ S as bs := by
  refine List.forall₂_iff_zip.mpr ⟨h.length_eq, fun hz => ?_⟩
  obtain ⟨ha, hb⟩ := List.of_mem_zip hz
  exact hRS _ ha _ hb (List.forall₂_zip h hz)

/-- The node `n` with number `id` has exactly the children `ids`, linked in this order. -/
structure Links (t : Tree) (id : NodeId) (n : Node) (ids : List NodeId) : Prop where
  first : n.firstChild = ids.head?
  last : n.lastChild = ids.getLast?
  parent : ∀ i ∈ ids, (t.node i).parent = some id
  next : ∀ k i, ids[k]? = some i → (t.node i).nextSibling = ids[k + 1]?

/-- Links are good in another tree in which nodes have the same links. -/
theorem Links.congr {n n' : Node} {ids : List NodeId} (h : t.Links id n ids)
    (hfirst : n'.firstChild = n.firstChild) (hlast : n'.lastChild = n.lastChild)
    (hparent : ∀ i ∈ ids, (t'.node i).parent = (t.node i).parent)
    (hnext : ∀ i ∈ ids, (t'.node i).nextSibling = (t.node i).nextSibling) :
    t'.Links id n' ids where
  first := hfirst.trans h.first
  last := hlast.trans h.last
  parent i hi := (hparent i hi).trans (h.parent i hi)
  next k i hk := (hnext i (List.mem_of_getElem? hk)).trans (h.next k i hk)

/-- The last child stands only at the end of the list. -/
theorem Links.index_of_last {n : Node} {ids : List NodeId} (h : t.Links id n ids) {k : Nat}
    {i : NodeId} (hk : ids[k]? = some i) (hi : ids.getLast? = some i) : k + 1 = ids.length := by
  by_contra hne
  have hlt := (List.getElem?_eq_some_iff.mp hk).1
  rw [List.getLast?_eq_getElem?] at hi
  have hnone := h.next _ i hi
  rw [show ids.length - 1 + 1 = ids.length from by omega,
    List.getElem?_eq_none (Nat.le_refl _)] at hnone
  have hsome := h.next k i hk
  rw [hnone, eq_comm, List.getElem?_eq_none_iff] at hsome
  omega

/-- Links stay right when a child is put behind the last one. -/
theorem Links.concat {n n' : Node} {ids : List NodeId} (h : t.Links id n ids)
    (hfirst : n'.firstChild = (n.firstChild <|> some c)) (hlast : n'.lastChild = some c)
    (hparent : ∀ i ∈ ids, (t'.node i).parent = (t.node i).parent)
    (hnext : ∀ i ∈ ids, (t'.node i).nextSibling =
      if ids.getLast? = some i then some c else (t.node i).nextSibling)
    (hcparent : (t'.node c).parent = some id) (hcnext : (t'.node c).nextSibling = none) :
    t'.Links id n' (ids ++ [c]) where
  first := by
    rw [hfirst, h.first]
    cases ids <;> rfl
  last := by simp [hlast]
  parent := by
    intro i hi
    rcases List.mem_append.mp hi with hi | hi
    · rw [hparent i hi]
      exact h.parent i hi
    · rwa [List.mem_singleton.mp hi]
  next := by
    intro k i hk
    rcases Nat.lt_or_ge k ids.length with hlt | hge
    · rw [List.getElem?_append_left hlt] at hk
      rw [hnext i (List.mem_of_getElem? hk)]
      by_cases hil : ids.getLast? = some i
      · have := h.index_of_last hk hil
        simp [hil, this]
      · have hk' : k + 1 < ids.length := by
          by_contra hge
          refine hil ?_
          rw [List.getLast?_eq_getElem?, show ids.length - 1 = k from by omega, hk]
        simp only [if_neg hil]
        rw [List.getElem?_append_left hk']
        exact h.next k i hk
    · obtain rfl : k = ids.length := by
        have := (List.getElem?_eq_some_iff.mp hk).1
        simp at this
        omega
      simp only [List.getElem?_concat_length, Option.some.injEq] at hk
      subst hk
      rw [hcnext, List.getElem?_eq_none (by simp)]

mutual

/-- The node `id`, with everything below it, is the construct. -/
def Shows (t : Tree) : NodeId → Construct → Prop
  | id, .mk kind span parts =>
    ∃ n ids, t.node? id = some n ∧ n.kind = kind ∧ n.span = span ∧ t.Links id n ids ∧
      t.ShowAll ids parts

def ShowAll (t : Tree) : List NodeId → List Construct → Prop
  | [], [] => True
  | i :: ids, x :: xs => t.Shows i x ∧ t.ShowAll ids xs
  | _, _ => False

end

theorem showAll_iff {ids : List NodeId} {xs : List Construct} :
    t.ShowAll ids xs ↔ List.Forall₂ t.Shows ids xs := by
  induction ids generalizing xs with
  | nil => cases xs <;> simp [ShowAll]
  | cons i ids ih => cases xs <;> simp [ShowAll, ih]

theorem shows_mk {kind : NodeKind} {span : Span} {parts : List Construct} :
    t.Shows id (.mk kind span parts) ↔
      ∃ n ids, t.node? id = some n ∧ n.kind = kind ∧ n.span = span ∧ t.Links id n ids ∧
        List.Forall₂ t.Shows ids parts := by
  simp [Shows, showAll_iff]

/-- A node that has neither a parent nor a sibling behind it, and the construct it
shows. -/
structure Loose (t : Tree) (id : NodeId) (x : Construct) : Prop where
  shows : t.Shows id x
  parent : (t.node id).parent = none
  nextSibling : (t.node id).nextSibling = none

theorem Loose.exists_of_mk {kind : NodeKind} {span : Span} {parts : List Construct}
    (h : t.Loose id (.mk kind span parts)) :
    ∃ n ids, t.node? id = some n ∧ n.kind = kind ∧ n.span = span ∧ n.parent = none ∧
      n.nextSibling = none ∧ t.Links id n ids ∧ List.Forall₂ t.Shows ids parts := by
  obtain ⟨n, ids, hn, hkind, hspan, hlinks, hparts⟩ := shows_mk.mp h.shows
  have hnode := node_eq hn
  exact ⟨n, ids, hn, hkind, hspan, hnode ▸ h.parent, hnode ▸ h.nextSibling, hlinks, hparts⟩

theorem Shows.index_lt (h : t.Shows id x) : id.index < t.size := by
  obtain ⟨kind, span, parts⟩ := x
  obtain ⟨n, ids, hn, -⟩ := shows_mk.mp h
  exact Tree.index_lt hn

/-! ## What building changes

Every step of building a tree changes one loose node `p`, nodes that have no parent, and
children of `p`.  Nothing below another node is among those. -/

/-- `t'` differs from `t` only in nodes without a parent and in children of `p`. -/
def SameBelow (t t' : Tree) (p : NodeId) : Prop :=
  ∀ i, (t.node i).parent ≠ none → (t.node i).parent ≠ some p → t'.node? i = t.node? i

/-- What a node shows does not depend on its own parent and sibling. -/
theorem Shows.of_sameBelow (hp : (t.node p).parent = none) (h : t.SameBelow t' p)
    {n n' : Node} (hne : id ≠ p) (hx : t.Shows id x) (hn : t.node? id = some n)
    (hn' : t'.node? id = some n')
    (hsame : n' = { n with parent := n'.parent, nextSibling := n'.nextSibling }) :
    t'.Shows id x := by
  induction x using Construct.byParts generalizing id n n' with
  | step kind span parts ih =>
    obtain ⟨m, ids, hm, hkind, hspan, hlinks, hparts⟩ := shows_mk.mp hx
    obtain rfl : n = m := Option.some.inj (hn.symm.trans hm)
    have hchild : ∀ i ∈ ids, t'.node? i = t.node? i := by
      intro i hi
      have hpar := hlinks.parent i hi
      exact h i (by simp [hpar]) (by simpa [hpar] using hne)
    have hnode : ∀ i ∈ ids, t'.node i = t.node i := fun i hi => by
      simp only [node, hchild i hi]
    have hlinks' : t'.Links id n' ids := hlinks.congr (by rw [hsame]) (by rw [hsame])
      (fun i hi => by rw [hnode i hi]) fun i hi => by rw [hnode i hi]
    refine shows_mk.mpr ⟨n', ids, hn', by rw [hsame]; exact hkind, by rw [hsame]; exact hspan,
      hlinks', forall₂_of_mem hparts fun i hi y hy hshown => ?_⟩
    have hpar := hlinks.parent i hi
    have hi' : t.node? i = some (t.node i) := node?_of_parent (by simp [hpar])
    refine ih y hy (fun he => ?_) hshown hi' ((hchild i hi).trans hi') rfl
    rw [he, hp] at hpar
    cases hpar

/-- The parts of a node show what they did if no more than their own parents and siblings
has changed. -/
theorem Links.parts_of_sameBelow (hp : (t.node p).parent = none) (h : t.SameBelow t' p)
    {n : Node} {ids : List NodeId} {parts : List Construct} (hlinks : t.Links id n ids)
    (hparts : List.Forall₂ t.Shows ids parts)
    (hsame : ∀ i ∈ ids, ∃ n', t'.node? i = some n' ∧
      n' = { t.node i with parent := n'.parent, nextSibling := n'.nextSibling }) :
    List.Forall₂ t'.Shows ids parts := by
  refine forall₂_of_mem hparts fun i hi y _ hshown => ?_
  have hpar := hlinks.parent i hi
  obtain ⟨n', hn', he⟩ := hsame i hi
  refine hshown.of_sameBelow hp h (fun hip => ?_)
    (node?_of_parent (by simp [hpar])) hn' he
  rw [hip, hp] at hpar
  cases hpar

theorem Loose.of_sameBelow {q : NodeId} (hp : (t.node p).parent = none) (h : t.SameBelow t' p)
    (hq : t.Loose q x) (hne : q ≠ p) (hsame : t'.node? q = t.node? q) : t'.Loose q x := by
  have hn : t.node? q = some (t.node q) := by
    obtain ⟨kind, span, parts⟩ := x
    obtain ⟨n, ids, hn, -⟩ := shows_mk.mp hq.shows
    rw [hn, node_eq hn]
  have hnode : t'.node q = t.node q := by simp only [node, hsame]
  exact ⟨hq.shows.of_sameBelow hp h hne hn (hsame.trans hn) rfl,
    by rw [hnode]; exact hq.parent, by rw [hnode]; exact hq.nextSibling⟩

/-! ### Making a node -/

theorem sameBelow_push (kind : NodeKind) (span : Span) :
    t.SameBelow (t.push kind span).2 ⟨t.size⟩ := by
  intro i hi _
  have := index_lt (node?_of_parent hi)
  rw [node?_push, if_neg (by omega)]

theorem Loose.push {q : NodeId} (hq : t.Loose q x) (kind : NodeKind) (span : Span) :
    (t.push kind span).2.Loose q x := by
  have hlt := hq.shows.index_lt
  have hnew : (t.node ⟨t.size⟩).parent = none := by
    by_contra h
    exact absurd (index_lt (node?_of_parent h)) (by simp)
  refine hq.of_sameBelow hnew (sameBelow_push kind span) (fun he => ?_) ?_
  · simp [he] at hlt
  · rw [node?_push, if_neg (by omega)]

theorem loose_push (t : Tree) (kind : NodeKind) (span : Span) :
    (t.push kind span).2.Loose (t.push kind span).1 (.mk kind span []) := by
  have hid : (t.push kind span).1 = ⟨t.size⟩ := rfl
  have hn : (t.push kind span).2.node? ⟨t.size⟩ = some { kind, span } := by
    simp [node?_push]
  rw [hid]
  refine ⟨shows_mk.mpr ⟨_, [], hn, rfl, rfl, ⟨rfl, rfl, by simp, by simp⟩, .nil⟩, ?_, ?_⟩
  · rw [node_eq hn]
  · rw [node_eq hn]

/-! ### Changing a loose node itself -/

theorem sameBelow_modify (hp : (t.node p).parent = none) (f : Node → Node) :
    t.SameBelow (t.modify p f) p := by
  intro i hi _
  rw [node?_modify, if_neg]
  rintro rfl
  exact hi hp

theorem Loose.modify_other {q : NodeId} (hq : t.Loose q x) (hp : t.Loose p y) (hne : q ≠ p)
    (f : Node → Node) : (t.modify p f).Loose q x :=
  hq.of_sameBelow hp.parent (sameBelow_modify hp.parent f) hne (by rw [node?_modify, if_neg hne])

/-- A change of a loose node that leaves the links alone keeps its parts. -/
theorem Loose.modify_self {kind kind' : NodeKind} {span span' : Span} {parts : List Construct}
    (hp : t.Loose p (.mk kind span parts)) {f : Node → Node}
    (hf : ∀ n, n.kind = kind → n.span = span → f n = { n with kind := kind', span := span' }) :
    (t.modify p f).Loose p (.mk kind' span' parts) := by
  obtain ⟨n, ids, hn, hkind, hspan, hpar, hnext, hlinks, hparts⟩ := hp.exists_of_mk
  have hn' : (t.modify p f).node? p = some { n with kind := kind', span := span' } := by
    rw [node?_modify, if_pos rfl, hn, Option.map_some, hf n hkind hspan]
  have hchild : ∀ i ∈ ids, (t.modify p f).node? i = t.node? i := by
    intro i hi
    rw [node?_modify, if_neg]
    rintro rfl
    have := hlinks.parent i hi
    rw [hp.parent] at this
    cases this
  have hnode : ∀ i ∈ ids, (t.modify p f).node i = t.node i := fun i hi => by
    simp only [node, hchild i hi]
  have hlinks' : (t.modify p f).Links p { n with kind := kind', span := span' } ids :=
    hlinks.congr rfl rfl (fun i hi => by rw [hnode i hi]) fun i hi => by rw [hnode i hi]
  refine ⟨shows_mk.mpr ⟨_, ids, hn', rfl, rfl, hlinks', ?_⟩, ?_, ?_⟩
  · refine hlinks.parts_of_sameBelow hp.parent (sameBelow_modify hp.parent f) hparts fun i hi => ?_
    have hi' : t.node? i = some (t.node i) := node?_of_parent (by simp [hlinks.parent i hi])
    exact ⟨_, (hchild i hi).trans hi', rfl⟩
  · rw [node_eq hn']
    exact hpar
  · rw [node_eq hn']
    exact hnext

/-! ### Attaching -/

theorem node?_attach (hpc : p ≠ c) (hp : (t.node p).lastChild ≠ some p)
    (hc : (t.node p).lastChild ≠ some c)
    (hfirst : (t.node p).firstChild = none ↔ (t.node p).lastChild = none) (i : NodeId) :
    (t.attach p c).node? i =
      if i = p then (t.node? p).map (Node.withLast · c)
      else if i = c then (t.node? c).map fun n => { n with parent := some p }
      else if (t.node p).lastChild = some i then
        (t.node? i).map fun n => { n with nextSibling := some c }
      else t.node? i := by
  have hnode : ∀ n, t.node? p = some n → t.node p = n := fun n hn => node_eq hn
  cases hlast : (t.node p).lastChild with
  | none =>
    have hnone := hfirst.mpr hlast
    by_cases hip : i = p
    · subst hip
      simp only [attach, hlast, node?_modify, if_neg hpc, if_true]
      cases hn : t.node? i with
      | none => rfl
      | some n =>
        rw [hnode n hn] at hnone
        simp [Node.withLast, hnone]
    · by_cases hic : i = c
      · simp [attach, hlast, node?_modify, hic, hpc.symm]
      · simp [attach, hlast, node?_modify, hip, hic]
  | some last =>
    rw [hlast] at hp hc
    by_cases hip : i = p
    · subst hip
      have hne : i ≠ last := fun h => hp (by rw [h])
      have hsome : (t.node i).firstChild ≠ none := fun h => by
        rw [hfirst.mp h] at hlast
        cases hlast
      simp only [attach, hlast, node?_modify, if_neg hpc, if_neg hne, if_true]
      cases hn : t.node? i with
      | none => rfl
      | some n =>
        rw [hnode n hn] at hsome
        cases hf : n.firstChild with
        | none => exact absurd hf hsome
        | some f => simp [Node.withLast, hf]
    · by_cases hic : i = c
      · subst hic
        have hne : i ≠ last := fun h => hc (by rw [h])
        simp [attach, hlast, node?_modify, hip, hne]
      · by_cases hil : i = last
        · subst hil
          simp [attach, hlast, node?_modify, hip, hic]
        · simp [attach, hlast, node?_modify, hip, hic, hil, Ne.symm hil]

section Attach
variable {kind : NodeKind} {span : Span} {parts : List Construct}

/-- The nodes that attaching the loose node `c` to the loose node `p` changes. -/
theorem Loose.node?_attach (hp : t.Loose p (.mk kind span parts)) (hc : t.Loose c x)
    (hpc : p ≠ c) (i : NodeId) :
    (t.attach p c).node? i =
      if i = p then (t.node? p).map (Node.withLast · c)
      else if i = c then (t.node? c).map fun n => { n with parent := some p }
      else if (t.node p).lastChild = some i then
        (t.node? i).map fun n => { n with nextSibling := some c }
      else t.node? i := by
  obtain ⟨n, ids, hn, -, -, -, -, hlinks, -⟩ := hp.exists_of_mk
  have hmem : ∀ i, (t.node p).lastChild = some i → i ∈ ids := fun i hi => by
    rw [node_eq hn, hlinks.last] at hi
    exact List.mem_of_getLast? hi
  refine Tree.node?_attach hpc (fun h => ?_) (fun h => ?_) ?_ i
  · have := hlinks.parent p (hmem p h)
    rw [hp.parent] at this
    cases this
  · have := hlinks.parent c (hmem c h)
    rw [hc.parent] at this
    cases this
  · rw [node_eq hn, hlinks.first, hlinks.last]
    simp

theorem Loose.sameBelow_attach (hp : t.Loose p (.mk kind span parts)) (hc : t.Loose c x)
    (hpc : p ≠ c) : t.SameBelow (t.attach p c) p := by
  intro i hi hip
  obtain ⟨n, ids, hn, -, -, -, -, hlinks, -⟩ := hp.exists_of_mk
  rw [hp.node?_attach hc hpc, if_neg, if_neg, if_neg]
  · intro h
    rw [node_eq hn, hlinks.last] at h
    exact hip (hlinks.parent i (List.mem_of_getLast? h))
  · rintro rfl
    exact hi hc.parent
  · rintro rfl
    exact hi hp.parent

/-- Attaching leaves all other loose nodes as they were. -/
theorem Loose.attach_other {q : NodeId} (hq : t.Loose q y)
    (hp : t.Loose p (.mk kind span parts)) (hc : t.Loose c x) (hpc : p ≠ c) (hqp : q ≠ p)
    (hqc : q ≠ c) : (t.attach p c).Loose q y := by
  refine hq.of_sameBelow hp.parent (hp.sameBelow_attach hc hpc) hqp ?_
  obtain ⟨n, ids, hn, -, -, -, -, hlinks, -⟩ := hp.exists_of_mk
  rw [hp.node?_attach hc hpc, if_neg hqp, if_neg hqc, if_neg]
  intro h
  rw [node_eq hn, hlinks.last] at h
  have := hlinks.parent q (List.mem_of_getLast? h)
  rw [hq.parent] at this
  cases this

/-- The node attached to gains the construct of the other as its last part. -/
theorem Loose.attach (hp : t.Loose p (.mk kind span parts)) (hc : t.Loose c x) (hpc : p ≠ c) :
    (t.attach p c).Loose p (.mk kind span (parts ++ [x])) := by
  obtain ⟨n, ids, hn, hkind, hspan, hpar, hnext, hlinks, hparts⟩ := hp.exists_of_mk
  obtain ⟨m, hm⟩ : ∃ m, t.node? c = some m := by
    obtain ⟨kind, span, parts⟩ := x
    obtain ⟨m, -, hm, -⟩ := hc.exists_of_mk
    exact ⟨m, hm⟩
  have hnode? := hp.node?_attach hc hpc
  have hlast : (t.node p).lastChild = ids.getLast? := by rw [node_eq hn, hlinks.last]
  have hnp : (t.attach p c).node? p = some (n.withLast c) := by
    rw [hnode?, if_pos rfl, hn, Option.map_some]
  have hnc : (t.attach p c).node? c = some { m with parent := some p } := by
    rw [hnode?, if_neg hpc.symm, if_pos rfl, hm, Option.map_some]
  have hchild : ∀ i ∈ ids, (t.attach p c).node? i = some { t.node i with
      nextSibling := if ids.getLast? = some i then some c else (t.node i).nextSibling } := by
    intro i hi
    have hip := hlinks.parent i hi
    have hni : t.node? i = some (t.node i) := node?_of_parent (by simp [hip])
    rw [hnode?, if_neg, if_neg, hlast, hni]
    · split <;> rfl
    · rintro rfl
      rw [hc.parent] at hip
      cases hip
    · rintro rfl
      rw [hp.parent] at hip
      cases hip
  have hlinks' : (t.attach p c).Links p (n.withLast c) (ids ++ [c]) := by
    refine hlinks.concat rfl rfl (fun i hi => by rw [node_eq (hchild i hi)])
      (fun i hi => by rw [node_eq (hchild i hi)]) (by rw [node_eq hnc]) ?_
    have := hc.nextSibling
    rw [node_eq hm] at this
    rw [node_eq hnc]
    exact this
  refine ⟨shows_mk.mpr ⟨_, ids ++ [c], hnp, hkind, hspan, hlinks', ?_⟩, ?_, ?_⟩
  · refine List.rel_append ?_ (.cons ?_ .nil)
    · refine hlinks.parts_of_sameBelow hp.parent (hp.sameBelow_attach hc hpc) hparts fun i hi => ?_
      exact ⟨_, hchild i hi, rfl⟩
    · exact hc.shows.of_sameBelow hp.parent (hp.sameBelow_attach hc hpc) hpc.symm hm hnc rfl
  · rw [node_eq hnp]
    exact hpar
  · rw [node_eq hnp]
    exact hnext

end Attach

end Tree

end GoloSyntax
