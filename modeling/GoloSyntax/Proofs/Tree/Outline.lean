import GoloSyntax.Proofs.Tree.Subtree
import GoloSyntax.Tree.Dump

/-! # Outlines

The outline of a construct is the list of what stands in it, in pre-order, each with its depth.
A dump of a node writes one line for each entry of the outline of what the node shows
(`Tree.Shows.dumpLines_eq`): the stack of the dump holds at every moment the nodes whose outlines
make up the rest.

An outline loses nothing but the links: where the parts of a construct end is told by the first
entry that is not deeper, so the kinds and depths of an outline determine the construct up to the
places (`Construct.bare_inj_of_outline`).
-/
namespace GoloSyntax

namespace Construct

mutual

/-- What stands in a construct in pre-order, itself first, with the depths. -/
def outline (depth : Nat) : Construct → List (Nat × Construct)
  | mk kind span parts => (depth, mk kind span parts) :: outlineAll (depth + 1) parts

def outlineAll (depth : Nat) : List Construct → List (Nat × Construct)
  | [] => []
  | x :: xs => outline depth x ++ outlineAll depth xs

end

theorem outline_eq (depth : Nat) (x : Construct) :
    x.outline depth = (depth, x) :: outlineAll (depth + 1) x.parts := by
  cases x
  simp only [outline, parts_mk]

theorem outlineAll_eq_flatMap (depth : Nat) (xs : List Construct) :
    outlineAll depth xs = xs.flatMap (outline depth) := by
  induction xs with
  | nil => rfl
  | cons x xs ih => rw [outlineAll, ih, List.flatMap_cons]

theorem length_outline (x : Construct) (depth : Nat) : (x.outline depth).length = x.count := by
  induction x using byParts generalizing depth with
  | step kind span parts ih =>
    have hall : (outlineAll (depth + 1) parts).length = countAll parts := by
      induction parts with
      | nil => rfl
      | cons y ys ihys =>
        rw [outlineAll, countAll, List.length_append, ih y List.mem_cons_self,
          ihys fun z hz => ih z (List.mem_cons_of_mem _ hz)]
    rw [outline_eq, List.length_cons, parts_mk, hall, count, Nat.add_comm]

theorem within_of_mem_outline {x : Construct} {depth : Nat} {e : Nat × Construct}
    (h : e ∈ x.outline depth) : e.2.Within x := by
  induction x using byParts generalizing depth with
  | step kind span parts ih =>
    rw [outline_eq, parts_mk, outlineAll_eq_flatMap] at h
    rcases List.mem_cons.mp h with rfl | h
    · exact .refl _
    · obtain ⟨y, hy, hmem⟩ := List.mem_flatMap.mp h
      exact .part (ih y hy hmem) hy

theorem exists_mem_outline {x y : Construct} (h : y.Within x) (depth : Nat) :
    ∃ e ∈ x.outline depth, e.2 = y := by
  induction h generalizing depth with
  | refl x => exact ⟨(depth, x), by rw [outline_eq]; exact List.mem_cons_self, rfl⟩
  | part _ hz ih =>
    obtain ⟨e, he, rfl⟩ := ih (depth + 1)
    refine ⟨e, ?_, rfl⟩
    rw [outline_eq, outlineAll_eq_flatMap]
    exact List.mem_cons_of_mem _ (List.mem_flatMap.mpr ⟨_, hz, he⟩)

/-- What holds everywhere in a construct holds along its outline. -/
theorem everywhere_iff_outline {P : Construct → Prop} {x : Construct} (depth : Nat) :
    x.Everywhere P ↔ ∀ e ∈ x.outline depth, P e.2 := by
  refine ⟨fun h e he => h e.2 (within_of_mem_outline he), fun h y hy => ?_⟩
  obtain ⟨e, he, rfl⟩ := exists_mem_outline hy depth
  exact h e he

/-! ## From the outline to the construct -/

/-- What is left of an entry without the parts and places. -/
def sketch (e : Nat × Construct) : Nat × NodeKind := (e.1, e.2.kind)

/-- A list of entries that does not go on below a depth. -/
def EndsAbove (depth : Nat) (r : List (Nat × NodeKind)) : Prop := ∀ e ∈ r.head?, e.1 ≤ depth

theorem endsAbove_nil (depth : Nat) : EndsAbove depth [] := fun _ h => nomatch h

theorem EndsAbove.outlineAll {depth : Nat} {r : List (Nat × NodeKind)} (h : EndsAbove depth r)
    (xs : List Construct) : EndsAbove depth ((outlineAll depth xs).map sketch ++ r) := by
  cases xs with
  | nil => exact h
  | cons x xs =>
    rw [Construct.outlineAll, outline_eq]
    intro e he
    obtain rfl := Option.some.inj he
    exact Nat.le_refl depth

/-- Entries at a depth are not behind the end of what is above it. -/
theorem not_endsAbove {depth : Nat} (x : Construct) (r : List (Nat × NodeKind)) :
    ¬EndsAbove depth (sketch (depth + 1, x) :: r) := by
  intro h
  have : depth + 1 ≤ depth := h _ rfl
  omega

/-- The construct can be read back, up to the places, from a list that begins with its outline, and
so can what is behind it. -/
def Told (x : Construct) : Prop :=
  ∀ (y : Construct) (depth : Nat) (r s : List (Nat × NodeKind)),
    EndsAbove depth r → EndsAbove depth s →
      (x.outline depth).map sketch ++ r = (y.outline depth).map sketch ++ s →
        x.bare = y.bare ∧ r = s

/-- Constructs that can be read back one at a time can be read back one after the other. -/
theorem told_all {xs ys : List Construct} (hxs : ∀ x ∈ xs, Told x) {depth : Nat}
    {r s : List (Nat × NodeKind)} (hr : EndsAbove depth r) (hs : EndsAbove depth s)
    (h : (outlineAll (depth + 1) xs).map sketch ++ r =
      (outlineAll (depth + 1) ys).map sketch ++ s) :
    xs.map bare = ys.map bare ∧ r = s := by
  induction xs generalizing ys with
  | nil =>
    cases ys with
    | nil => exact ⟨rfl, h⟩
    | cons y ys =>
      rw [outlineAll, outlineAll, outline_eq, List.map_nil, List.nil_append] at h
      rw [h] at hr
      exact absurd hr (not_endsAbove y _)
  | cons x xs ih =>
    cases ys with
    | nil =>
      rw [outlineAll, outlineAll, outline_eq, List.map_nil, List.nil_append] at h
      rw [← h] at hs
      exact absurd hs (not_endsAbove x _)
    | cons y ys =>
      simp only [outlineAll, List.map_append, List.append_assoc] at h
      have hr' : EndsAbove (depth + 1) r := fun e he => Nat.le_succ_of_le (hr e he)
      have hs' : EndsAbove (depth + 1) s := fun e he => Nat.le_succ_of_le (hs e he)
      obtain ⟨hx, hrest⟩ := hxs x List.mem_cons_self y _ _ _ (hr'.outlineAll xs)
        (hs'.outlineAll ys) h
      obtain ⟨hparts, rfl⟩ := ih (fun z hz => hxs z (List.mem_cons_of_mem _ hz)) hrest
      exact ⟨by rw [List.map_cons, List.map_cons, hx, hparts], rfl⟩

/-- An outline ends where the entries are no longer deeper than its first one. -/
theorem told (x : Construct) : Told x := by
  induction x using byParts with
  | step kind span parts ih =>
    rintro ⟨kind', span', parts'⟩ depth r s hr hs h
    simp only [outline_eq, List.map_cons, List.cons_append, List.cons.injEq, parts_mk, sketch,
      kind_mk, Prod.mk.injEq, true_and] at h
    obtain ⟨rfl, hrest⟩ := h
    obtain ⟨hparts, rfl⟩ := told_all ih hr hs hrest
    simp only [bare, bareAll_eq_map, hparts, and_self]

/-- The kinds and depths in pre-order determine the construct up to the places. -/
theorem bare_inj_of_outline {x y : Construct} {depth : Nat}
    (h : (x.outline depth).map sketch = (y.outline depth).map sketch) : x.bare = y.bare := by
  have happend : (x.outline depth).map sketch ++ [] = (y.outline depth).map sketch ++ [] := by
    rw [h]
  exact (told x y depth [] [] (endsAbove_nil _) (endsAbove_nil _) happend).1

end Construct

/-! ## Dumps write outlines -/

/-- The line of a dump for an entry of an outline. -/
def DumpOptions.line (options : DumpOptions) (e : Nat × Construct) : String :=
  options.linePrefix ++ "".pushn ' ' (e.1 * options.indent) ++ e.2.kind.render ++
    (if options.showSpans then " @" ++ e.2.span.display else "")

/-- A pending node of a dump, and what it shows at its depth. -/
def DumpCursor.Pending (t : Tree) (p : NodeId × Nat) (e : Nat × Construct) : Prop :=
  p.2 = e.1 ∧ t.Shows p.1 e.2 ∧ e.2.count ≤ t.size

namespace DumpCursor

open Construct (outline outlineAll outlineAll_eq_flatMap)

variable {t : Tree} {options : DumpOptions}

theorem Pending.line_eq {id : NodeId} {depth : Nat} {e : Nat × Construct}
    (h : Pending t (id, depth) e) (pending : List (NodeId × Nat)) :
    (DumpCursor.mk t options pending).line id depth = options.line e := by
  obtain ⟨rfl, hshows, -⟩ := h
  simp only [DumpCursor.line, DumpOptions.line, hshows.kind_eq, hshows.span_eq]

/-- A step writes the line of the first entry and puts its children in front of the others. -/
theorem Pending.next?_eq {id : NodeId} {depth : Nat} {e : Nat × Construct}
    (h : Pending t (id, depth) e) (pending : List (NodeId × Nat)) :
    (DumpCursor.mk t options ((id, depth) :: pending)).next? = some (options.line e,
      ⟨t, options, ((t.children id).map fun child => (child, depth + 1)) ++ pending⟩) := by
  rw [← h.line_eq ((id, depth) :: pending)]
  rfl

/-- The children of a pending node are to be shown one level deeper, as the parts. -/
theorem Pending.children {id : NodeId} {depth : Nat} {e : Nat × Construct}
    (h : Pending t (id, depth) e) :
    List.Forall₂ (Pending t) ((t.children id).map fun child => (child, depth + 1))
      (e.2.parts.map fun y => (e.1 + 1, y)) := by
  obtain ⟨rfl, hshows, hsize⟩ := h
  rw [List.forall₂_map_left_iff, List.forall₂_map_right_iff]
  refine Tree.forall₂_of_mem (hshows.children hsize) fun i _ y hy hshown => ⟨rfl, hshown, ?_⟩
  exact Nat.le_trans (Nat.le_of_lt (Construct.count_lt_of_mem_parts hy)) hsize

/-- The lines that a dump still gives out, one after the other, before it is at its end. -/
inductive Yields : DumpCursor → List String → Prop where
  | done {c : DumpCursor} (h : c.next? = none) : Yields c []
  | more {c c' : DumpCursor} {line : String} {lines : List String}
      (h : c.next? = some (line, c')) (hrest : Yields c' lines) : Yields c (line :: lines)

/-- Lines are given out in the order of the outlines of what is pending. -/
theorem yields_of_pending (options : DumpOptions) {pending : List (NodeId × Nat)}
    {entries : List (Nat × Construct)} (h : List.Forall₂ (Pending t) pending entries) :
    Yields ⟨t, options, pending⟩ ((entries.flatMap fun e => e.2.outline e.1).map options.line) := by
  -- A step takes one entry and puts its parts in front of the others, which leaves one entry less
  -- to be written in all.
  induction hn : (entries.flatMap fun e => e.2.outline e.1).length generalizing pending entries with
  | zero =>
    cases h with
    | nil => exact .done rfl
    | @cons _ e => simp [Construct.outline_eq] at hn
  | succ n ih =>
    cases h with
    | nil => cases hn
    | @cons p e pending entries hp hrest =>
      obtain ⟨id, depth⟩ := p
      have hstack := List.rel_append hp.children hrest
      have houtlines : ((e.2.parts.map fun y => (e.1 + 1, y)) ++ entries).flatMap
          (fun e => e.2.outline e.1) =
            outlineAll (e.1 + 1) e.2.parts ++ entries.flatMap fun e => e.2.outline e.1 := by
        rw [List.flatMap_append, List.flatMap_map, outlineAll_eq_flatMap]
      rw [List.flatMap_cons, Construct.outline_eq, List.cons_append, List.length_cons] at hn
      have hyields := ih hstack (by rw [houtlines]; omega)
      rw [houtlines] at hyields
      rw [List.flatMap_cons, Construct.outline_eq, List.cons_append, List.map_cons]
      exact .more (hp.next?_eq pending) hyields

/-- Taking as many lines as there are takes them all. -/
theorem Yields.takeFrom_eq {c : DumpCursor} {lines : List String} (h : c.Yields lines) {n : Nat}
    (hn : lines.length ≤ n) (seen : Array String) :
    (takeFrom n c seen).1.toList = seen.toList ++ lines := by
  induction h generalizing n seen with
  | done h => cases n <;> simp [takeFrom, h]
  | more h hrest ih =>
    cases n with
    | zero => cases hn
    | succ n =>
      rw [takeFrom, h]
      simp only
      rw [ih (Nat.le_of_succ_le_succ hn), Array.toList_push, List.append_assoc]
      rfl

end DumpCursor

namespace Tree.Shows

variable {t : Tree} {id : NodeId} {x : Construct}

/-- A dump gives out the lines of the outline of what the node shows. -/
theorem yields (h : t.Shows id x) (hsize : x.count ≤ t.size) (options : DumpOptions) :
    (t.dump id options).Yields ((x.outline 0).map options.line) := by
  have hpending : List.Forall₂ (DumpCursor.Pending t) [(id, 0)] [(0, x)] :=
    .cons ⟨rfl, h, hsize⟩ .nil
  rw [← List.flatMap_singleton (fun e => e.2.outline e.1) (0, x)]
  exact DumpCursor.yields_of_pending options hpending

theorem dumpLines_eq (h : t.Shows id x) (hsize : x.count ≤ t.size) (options : DumpOptions) :
    t.dumpLines id options = (x.outline 0).map options.line := by
  have hlines := (h.yields hsize options).takeFrom_eq (n := t.size)
    (by simpa [x.length_outline 0] using hsize) #[]
  simpa [Tree.dumpLines, DumpCursor.rest, DumpCursor.take, Tree.dump] using hlines

end Tree.Shows

end GoloSyntax
