import GoloSyntax.Proofs.Access.Links
import GoloSyntax.Tree.Dump
import GoloSyntax.Tree.Visit

/-! # Going through a tree by numbers

Walks and dumps keep a stack of nodes that are still to be gone through.  Here each of them is
looked up when its turn comes, and the links that are followed are looked up as well, and nothing
comes of it if a node is not there or has a text that is not listed.  In a tree whose links lead to
its own nodes the stack holds no others (`walk?_eq`, `dumpLines?_eq`).
-/
namespace GoloSyntax

/-- The node of a call. -/
def PendingCall.node : PendingCall → NodeId
  | .enter id | .leave id => id

namespace Indexed

variable {σ : Type} (t : Tree)

/-! ## By numbers -/

/-- `Tree.siblings`, of nodes that are there. -/
def siblings? : Nat → Option NodeId → Array NodeId → Option (Array NodeId)
  | n + 1, some id, seen =>
    (t.node? id).bind fun node => siblings? n node.nextSibling (seen.push id)
  | _, _, seen => some seen

/-- `Tree.children`, of a node that is there. -/
def children? (id : NodeId) : Option (List NodeId) :=
  (t.node? id).bind fun node => (siblings? t t.size node.firstChild #[]).map Array.toList

/-- `Tree.walkFrom`, calling on nodes that are there. -/
def walkFrom? (v : Visitor σ) : Nat → List PendingCall → σ → Option σ
  | 0, _, s => some s
  | _ + 1, [], s => some s
  | n + 1, .leave id :: stack, s => (t.node? id).bind fun _ => walkFrom? v n stack (v.leave t id s)
  | n + 1, .enter id :: stack, s =>
    (t.node? id).bind fun _ =>
      match v.enter t id s with
      | (.enterChildren, s) =>
        (children? t id).bind fun ids => walkFrom? v n (ids.map .enter ++ .leave id :: stack) s
      | (.skipChildren, s) => walkFrom? v n (.leave id :: stack) s

/-- `Tree.walk`, calling on nodes that are there. -/
def walk? (v : Visitor σ) (id : NodeId) (s : σ) : Option σ :=
  walkFrom? t v (2 * t.size) [.enter id] s

/-- `DumpCursor.line`, of a node that is there with all its texts. -/
def line? (c : DumpCursor) (id : NodeId) (depth : Nat) : Option String :=
  (c.tree.node? id).bind fun node =>
    if listed c.tree node.kind then some (c.line id depth) else none

/-- `DumpCursor.takeFrom`, of nodes that are there with all their texts. -/
def takeFrom? : Nat → DumpCursor → Array String → Option (Array String)
  | 0, _, lines => some lines
  | n + 1, c, lines =>
    match c.pending with
    | [] => some lines
    | (id, depth) :: pending =>
      (children? c.tree id).bind fun ids =>
        (line? c id depth).bind fun line =>
          let pending := (ids.map fun child => (child, depth + 1)) ++ pending
          takeFrom? n { c with pending } (lines.push line)

/-- `Tree.dumpLines`, of nodes that are there with all their texts. -/
def dumpLines? (id : NodeId) (options : DumpOptions) : Option (List String) :=
  (takeFrom? t.size (t.dump id options) #[]).map Array.toList

/-! ## They are always there -/

variable {t} {id : NodeId} {next : Option NodeId} {seen : Array NodeId}

theorem firstChild_lt (h : t.Linked) (hid : id.index < t.size) :
    ∀ i ∈ (t.node id).firstChild, i.index < t.size :=
  fun _ hi => h.links_lt hid (Node.mem_links.mpr (.inr (.inl hi)))

theorem nextSibling_lt (h : t.Linked) (hid : id.index < t.size) :
    ∀ i ∈ (t.node id).nextSibling, i.index < t.size :=
  fun _ hi => h.links_lt hid (Node.mem_links.mpr (.inr (.inr (.inr hi))))

theorem siblings?_eq (h : t.Linked) (n : Nat) (hnext : ∀ id ∈ next, id.index < t.size) :
    siblings? t n next seen = some (t.siblings n next seen) := by
  induction n generalizing next seen with
  | zero => rfl
  | succ n ih =>
    cases next with
    | none => rfl
    | some id =>
      have hid := hnext id rfl
      rw [siblings?, Tree.node?_of_lt hid, Option.bind_some, Tree.siblings]
      exact ih (nextSibling_lt h hid)

theorem siblings_lt (h : t.Linked) (n : Nat) (hnext : ∀ id ∈ next, id.index < t.size)
    (hseen : ∀ id ∈ seen, id.index < t.size) :
    ∀ id ∈ t.siblings n next seen, id.index < t.size := by
  induction n generalizing next seen with
  | zero => exact hseen
  | succ n ih =>
    cases next with
    | none => exact hseen
    | some id =>
      have hid := hnext id rfl
      rw [Tree.siblings]
      refine ih (nextSibling_lt h hid) fun i hi => ?_
      rcases Array.mem_push.mp hi with hi | rfl
      · exact hseen i hi
      · exact hid

theorem children?_eq (h : t.Linked) (hid : id.index < t.size) :
    children? t id = some (t.children id) := by
  rw [children?, Tree.node?_of_lt hid, Option.bind_some, siblings?_eq h _ (firstChild_lt h hid)]
  rfl

theorem children_lt (h : t.Linked) (hid : id.index < t.size) :
    ∀ i ∈ t.children id, i.index < t.size := by
  intro i hi
  exact siblings_lt h _ (firstChild_lt h hid) (by simp) i (Array.mem_toList_iff.mp hi)

/-- The stack of a walk holds nodes of the tree, whatever the visitor decides. -/
theorem walkFrom?_eq (h : t.Linked) (v : Visitor σ) (n : Nat) (stack : List PendingCall) (s : σ)
    (hstack : ∀ call ∈ stack, call.node.index < t.size) :
    walkFrom? t v n stack s = some (t.walkFrom v n stack s) := by
  induction n generalizing stack s with
  | zero => rfl
  | succ n ih =>
    rcases stack with _ | ⟨call, stack⟩
    · rfl
    · have hcall : call.node.index < t.size := hstack call List.mem_cons_self
      have hrest : ∀ call ∈ stack, call.node.index < t.size := fun call hmem =>
        hstack call (List.mem_cons_of_mem _ hmem)
      cases call with
      | leave id =>
        have hid : id.index < t.size := hcall
        rw [walkFrom?, Tree.node?_of_lt hid, Option.bind_some, Tree.walkFrom]
        exact ih _ _ hrest
      | enter id =>
        have hid : id.index < t.size := hcall
        have hleave : ∀ call ∈ PendingCall.leave id :: stack, call.node.index < t.size :=
          List.forall_mem_cons.mpr ⟨hid, hrest⟩
        rw [walkFrom?, Tree.node?_of_lt hid, Option.bind_some, Tree.walkFrom]
        rcases v.enter t id s with ⟨descent, s⟩
        cases descent with
        | skipChildren => exact ih _ _ hleave
        | enterChildren =>
          -- The stack gains the children, and the node itself once more.
          simp only [children?_eq h hid, Option.bind_some]
          apply ih
          intro call hmem
          rcases List.mem_append.mp hmem with hmem | hmem
          · obtain ⟨child, hchild, rfl⟩ := List.mem_map.mp hmem
            exact children_lt h hid child hchild
          · exact hleave call hmem

/-- A walk from a node of the tree calls on nodes of the tree. -/
theorem walk?_eq (h : t.Linked) (hid : id.index < t.size) (v : Visitor σ) (s : σ) :
    walk? t v id s = some (t.walk v id s) :=
  walkFrom?_eq h v _ _ s (by simpa [PendingCall.node] using hid)

theorem line?_eq {c : DumpCursor} (h : c.tree.Linked) (hid : id.index < c.tree.size) (depth : Nat) :
    line? c id depth = some (c.line id depth) := by
  have hlisted : listed c.tree (c.tree.node id).kind := by
    refine List.all_eq_true.mpr fun text htext => SymbolTable.lists_iff.mp ?_
    exact (h id _ (Tree.node?_of_lt hid)).texts text htext
  rw [line?, Tree.node?_of_lt hid, Option.bind_some, if_pos hlisted]

theorem takeFrom?_eq (n : Nat) (c : DumpCursor) (lines : Array String) (h : c.tree.Linked)
    (hpending : ∀ entry ∈ c.pending, entry.1.index < c.tree.size) :
    takeFrom? n c lines = some (DumpCursor.takeFrom n c lines).1 := by
  induction n generalizing c lines with
  | zero => rfl
  | succ n ih =>
    rw [takeFrom?, DumpCursor.takeFrom, DumpCursor.next?]
    obtain ⟨tree, options, _ | ⟨⟨id, depth⟩, pending⟩⟩ := c
    · rfl
    · have hid : id.index < tree.size := hpending (id, depth) List.mem_cons_self
      simp only [children?_eq h hid, Option.bind_some, line?_eq (c := ⟨tree, options, _⟩) h hid]
      refine ih _ _ h fun entry hentry => ?_
      rcases List.mem_append.mp hentry with hentry | hentry
      · obtain ⟨child, hchild, rfl⟩ := List.mem_map.mp hentry
        exact children_lt h hid child hchild
      · exact hpending entry (List.mem_cons_of_mem _ hentry)

/-- A dump from a node of the tree shows nodes of the tree. -/
theorem dumpLines?_eq (h : t.Linked) (hid : id.index < t.size) (options : DumpOptions) :
    dumpLines? t id options = some (t.dumpLines id options) := by
  have hpending : ∀ entry ∈ (t.dump id options).pending, entry.1.index < t.size := by
    simpa [Tree.dump] using hid
  rw [dumpLines?, takeFrom?_eq t.size (t.dump id options) #[] h hpending]
  rfl

end Indexed

end GoloSyntax
