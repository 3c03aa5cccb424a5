import GoloSyntax.Tree.Basic

/-! # Walking a tree

A `Visitor` is called when a walk enters a node and again when it leaves it; on
entering it decides whether the walk goes on into the children. It carries a state of
its own from call to call.

`Tree.walk` goes through a subtree in pre-order with a stack of its own, because
chains of operators and calls make trees far deeper than the nesting of the source.
Every node is entered and left at most once, which bounds the walk.
-/

namespace GoloSyntax

/-- Whether a walk goes on into the children of a node. -/
inductive Descent where
  | enterChildren
  | skipChildren
deriving DecidableEq, Repr, Inhabited

/-- The calls of a walk, over a state of the visitor's own. -/
structure Visitor (σ : Type) where
  enter : Tree → NodeId → σ → Descent × σ
  leave : Tree → NodeId → σ → σ := fun _ _ s => s

/-- A call that a walk still has to make. -/
inductive PendingCall where
  | enter (id : NodeId)
  | leave (id : NodeId)
deriving DecidableEq, Repr

namespace Tree

/-- Make at most `n` calls, those on the stack first. -/
def walkFrom {σ : Type} (t : Tree) (v : Visitor σ) : Nat → List PendingCall → σ → σ
  | 0, _, s => s
  | _ + 1, [], s => s
  | n + 1, .leave id :: stack, s => t.walkFrom v n stack (v.leave t id s)
  | n + 1, .enter id :: stack, s =>
    match v.enter t id s with
    | (.enterChildren, s) =>
      t.walkFrom v n ((t.children id).map .enter ++ .leave id :: stack) s
    | (.skipChildren, s) => t.walkFrom v n (.leave id :: stack) s

/-- Walk the subtree of a node in pre-order, starting with the visitor's state `s`. -/
def walk {σ : Type} (t : Tree) (v : Visitor σ) (id : NodeId) (s : σ) : σ :=
  t.walkFrom v (2 * t.size) [.enter id] s

end Tree

end GoloSyntax
