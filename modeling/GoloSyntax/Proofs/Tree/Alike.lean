import GoloSyntax.Proofs.Tree.Construct
import GoloSyntax.Tree.Dump

/-! # Trees that differ in places only

Two trees are alike (`Tree.Alike`) if their nodes agree, number by number, in kinds and
links.  Building keeps trees alike whatever spans it is given, and everything that is read
off a tree without its spans comes out the same: children, kinds, and the lines of a dump
that does not show spans (`Alike.dumpLines`).
-/
namespace GoloSyntax

/-- The node without its place. -/
def Node.bare (n : Node) : Node := { n with span := .empty .start }

theorem Node.bare_eq_iff {n n' : Node} : n.bare = n'.bare ↔ n.kind = n'.kind ∧
    n.parent = n'.parent ∧ n.firstChild = n'.firstChild ∧ n.lastChild = n'.lastChild ∧
      n.nextSibling = n'.nextSibling := by
  simp [bare]

namespace Tree

/-- The nodes are the same, places left out. -/
def Alike (t t' : Tree) : Prop := t.nodes.map Node.bare = t'.nodes.map Node.bare

variable {t t' : Tree}

theorem Alike.refl (t : Tree) : t.Alike t := rfl

theorem Alike.size (h : t.Alike t') : t.size = t'.size := by
  simpa [Alike, Tree.size] using congrArg Array.size h

theorem Alike.node? (h : t.Alike t') (id : NodeId) :
    (t.node? id).map Node.bare = (t'.node? id).map Node.bare := by
  have := congrArg (·[id.index]?) h
  simpa [Tree.node?] using this

theorem Alike.of_node? (h : ∀ id, (t.node? id).map Node.bare = (t'.node? id).map Node.bare) :
    t.Alike t' := by
  refine Array.ext_getElem? fun i => ?_
  simpa [Tree.node?] using h ⟨i⟩

theorem Alike.node (h : t.Alike t') (id : NodeId) : (t.node id).bare = (t'.node id).bare := by
  have hid := h.node? id
  simp only [Tree.node]
  cases hn : t.node? id <;> cases hn' : t'.node? id <;> simp_all

theorem Alike.kind (h : t.Alike t') (id : NodeId) : t.kind id = t'.kind id :=
  (Node.bare_eq_iff.mp (h.node id)).1

theorem Alike.links (h : t.Alike t') (id : NodeId) :
    (t.node id).firstChild = (t'.node id).firstChild ∧
      (t.node id).lastChild = (t'.node id).lastChild ∧
        (t.node id).nextSibling = (t'.node id).nextSibling :=
  (Node.bare_eq_iff.mp (h.node id)).2.2

/-! ## Building -/

theorem Alike.push (h : t.Alike t') (kind : NodeKind) (span span' : Span) :
    (t.push kind span).1 = (t'.push kind span').1 ∧
      (t.push kind span).2.Alike (t'.push kind span').2 := by
  refine ⟨congrArg NodeId.mk h.size, ?_⟩
  show (t.nodes.push { kind, span }).map Node.bare = (t'.nodes.push { kind, span := span' }).map _
  rw [Array.map_push, Array.map_push, show t.nodes.map Node.bare = t'.nodes.map Node.bare from h]
  rfl

/-- A change that does not look at the place. -/
theorem Alike.modify (h : t.Alike t') (id : NodeId) {f f' : Node → Node}
    (hf : ∀ n n', n.bare = n'.bare → (f n).bare = (f' n').bare) :
    (t.modify id f).Alike (t'.modify id f') := by
  refine .of_node? fun i => ?_
  have hi := h.node? i
  rw [node?_modify, node?_modify]
  split
  · cases hn : t.node? i with
    | none =>
      rw [hn] at hi
      rw [Option.map_eq_none_iff.mp hi.symm]
      rfl
    | some n =>
      cases hn' : t'.node? i with
      | none => simp [hn, hn'] at hi
      | some n' =>
        rw [hn, hn'] at hi
        exact congrArg some (hf n n' (Option.some.inj hi))
  · exact hi

theorem Alike.setSpan (h : t.Alike t') (id : NodeId) (span span' : Span) :
    (t.setSpan id span).Alike (t'.setSpan id span') :=
  h.modify id fun _ _ hn => hn

theorem Alike.setKind (h : t.Alike t') (id : NodeId) (kind : NodeKind) :
    (t.setKind id kind).Alike (t'.setKind id kind) :=
  h.modify id fun _ _ hn => by simp_all [Node.bare_eq_iff]

theorem Alike.attach (h : t.Alike t') (parent child : NodeId) :
    (t.attach parent child).Alike (t'.attach parent child) := by
  have hchild : (t.modify child fun n => { n with parent := some parent }).Alike
      (t'.modify child fun n => { n with parent := some parent }) :=
    h.modify child fun _ _ hn => by simp_all [Node.bare_eq_iff]
  have hlast : ∀ {t t' : Tree}, t.Alike t' →
      (t.modify parent fun n => { n with lastChild := some child }).Alike
        (t'.modify parent fun n => { n with lastChild := some child }) := fun h =>
    h.modify parent fun _ _ hn => by simp_all [Node.bare_eq_iff]
  simp only [Tree.attach, (h.links parent).2.1]
  split
  · next last _ =>
    exact hlast <| hchild.modify last fun _ _ hn => by simp_all [Node.bare_eq_iff]
  · exact hlast <| hchild.modify parent fun _ _ hn => by simp_all [Node.bare_eq_iff]

/-! ## Reading -/

theorem Alike.children (h : t.Alike t') (id : NodeId) : t.children id = t'.children id := by
  have hsiblings : ∀ n next seen, t.siblings n next seen = t'.siblings n next seen := by
    intro n
    induction n with
    | zero => intro next seen; rfl
    | succ n ih =>
      intro next seen
      cases next with
      | none => rfl
      | some i =>
        rw [Tree.siblings, Tree.siblings, ih, (h.links i).2.2]
  rw [Tree.children, Tree.children, hsiblings, h.size, (h.links id).1]

/-- A dump that does not show spans does not depend on them. -/
theorem Alike.dumpLines (h : t.Alike t') (id : NodeId) {options : DumpOptions}
    (hoptions : options.showSpans = false) : t.dumpLines id options = t'.dumpLines id options := by
  suffices hfrom : ∀ n pending lines,
      (DumpCursor.takeFrom n ⟨t, options, pending⟩ lines).1 =
        (DumpCursor.takeFrom n ⟨t', options, pending⟩ lines).1 by
    have := hfrom t.size [(id, 0)] #[]
    rw [Tree.dumpLines, Tree.dumpLines, DumpCursor.rest, DumpCursor.rest]
    show (DumpCursor.takeFrom t.size _ _).1.toList = (DumpCursor.takeFrom t'.size _ _).1.toList
    rw [← h.size]
    exact congrArg Array.toList this
  intro n
  induction n with
  | zero => intro pending lines; rfl
  | succ n ih =>
    intro pending lines
    cases pending with
    | nil => rfl
    | cons next pending =>
      obtain ⟨i, depth⟩ := next
      have hline : (DumpCursor.mk t options ((i, depth) :: pending)).line i depth =
          (DumpCursor.mk t' options ((i, depth) :: pending)).line i depth := by
        simp [DumpCursor.line, hoptions, h.kind i]
      show (DumpCursor.takeFrom n ⟨t, options, _⟩ (lines.push _)).1 =
        (DumpCursor.takeFrom n ⟨t', options, _⟩ (lines.push _)).1
      rw [hline, h.children i]
      exact ih _ _

end Tree

end GoloSyntax
