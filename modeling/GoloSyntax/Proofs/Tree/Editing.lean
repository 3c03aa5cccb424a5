import GoloSyntax.Proofs.Tree.Subtree
import Mathlib.Data.List.Induction
import Mathlib.Data.List.Nodup
import Mathlib.Data.List.Perm.Subperm

/-! # Building a tree call by call

A tree grows by four kinds of calls, which may come in any order: nodes are attached before or after
they have children of their own, and children of several nodes in turns.  All that is asked for is
that the calls name nodes that are there and attach no node twice (`Edit.Permitted`).

The links are then what the calls say (`Tree.Reflects`): none at first, and each call keeps it so
(`Reflects.edit`), because `attach` changes no other link than those of one child more
(`node_attach`).  What is read off the links follows (`Reflects.keepsChildren`).
-/
namespace GoloSyntax

/-- A call that changes a tree while it is built. -/
inductive Edit where
  | push (kind : NodeKind) (span : Span)
  | attach (parent child : NodeId)
  | setSpan (id : NodeId) (span : Span)
  | setKind (id : NodeId) (kind : NodeKind)

namespace Edit

/-- What is attached by a call, behind what it is attached to. -/
def attachment? : Edit → Option (NodeId × NodeId)
  | attach parent child => some (parent, child)
  | _ => none

def isPush : Edit → Bool
  | push .. => true
  | _ => false

/-- All that is attached, in order. -/
def attachments (edits : List Edit) : List (NodeId × NodeId) := edits.filterMap attachment?

/-- The nodes attached to `p`, in order. -/
def attachedTo (edits : List Edit) (p : NodeId) : List NodeId :=
  ((attachments edits).filter (·.1 = p)).map Prod.snd

/-- The number of nodes behind some calls on a tree that was only a root. -/
def nodeCount (edits : List Edit) : Nat := 1 + edits.countP isPush

/-- A call may follow others: the nodes that it names are there, and what it attaches has not been
attached before. -/
def MayFollow (edits : List Edit) : Edit → Prop
  | push .. => True
  | attach parent child => parent.index < nodeCount edits ∧ child.index < nodeCount edits ∧
      child ∉ (attachments edits).map Prod.snd
  | setSpan id _ | setKind id _ => id.index < nodeCount edits

instance (edits : List Edit) : (e : Edit) → Decidable (e.MayFollow edits)
  | push .. => inferInstanceAs (Decidable True)
  | attach .. => inferInstanceAs (Decidable (_ ∧ _ ∧ _))
  | setSpan id _ | setKind id _ => inferInstanceAs (Decidable (id.index < nodeCount edits))

/-- Each of the calls may follow those before it. -/
def Permitted (edits : List Edit) : Prop :=
  ∀ i (h : i < edits.length), edits[i].MayFollow (edits.take i)

instance (edits : List Edit) : Decidable (Permitted edits) :=
  inferInstanceAs (Decidable (∀ i (h : i < edits.length), edits[i].MayFollow (edits.take i)))

variable {edits before : List Edit} {e : Edit} {p q c : NodeId}

theorem Permitted.of_isPrefix (h : Permitted edits) (hbefore : before <+: edits) :
    Permitted before := by
  obtain ⟨later, rfl⟩ := hbefore
  intro i hi
  have hcall := h i (by rw [List.length_append]; omega)
  rwa [List.getElem_append_left hi, List.take_append_of_le_length (Nat.le_of_lt hi)] at hcall

theorem Permitted.mayFollow (h : Permitted (before ++ [e])) : e.MayFollow before := by
  have hcall := h before.length (by simp)
  rwa [List.getElem_concat_length rfl, List.take_left] at hcall

theorem mem_attachments : (p, c) ∈ attachments edits ↔ attach p c ∈ edits := by
  rw [attachments, List.mem_filterMap]
  constructor
  · rintro ⟨e, he, hpc⟩
    cases e with
    | attach parent child =>
      obtain ⟨rfl, rfl⟩ := Prod.mk.inj (Option.some.inj hpc)
      exact he
    | push | setSpan | setKind => cases hpc
  · exact fun he => ⟨_, he, rfl⟩

theorem mem_attachedTo : c ∈ attachedTo edits p ↔ (p, c) ∈ attachments edits := by
  simp [attachedTo]

theorem attachments_concat (edits : List Edit) (e : Edit) :
    attachments (edits ++ [e]) = attachments edits ++ e.attachment?.toList := by
  rw [attachments, List.filterMap_append]
  cases h : e.attachment? <;> simp [attachments, h]

theorem attachedTo_concat_self (edits : List Edit) (p c : NodeId) :
    attachedTo (edits ++ [attach p c]) p = attachedTo edits p ++ [c] := by
  simp [attachedTo, attachments_concat, attachment?]

theorem attachedTo_concat_of_ne (edits : List Edit) (hne : q ≠ p) (c : NodeId) :
    attachedTo (edits ++ [attach p c]) q = attachedTo edits q := by
  simp [attachedTo, attachments_concat, attachment?, hne.symm]

end Edit

namespace Tree

variable {t t' : Tree} {p q c i id : NodeId} {ids : List NodeId}

/-! ## Single nodes -/

theorem node_modify (hid : id.index < t.size) (f : Node → Node) (i : NodeId) :
    (t.modify id f).node i = if i = id then f (t.node i) else t.node i := by
  rw [node, node?_modify]
  by_cases hi : i = id
  · subst hi
    rw [if_pos rfl, if_pos rfl, node, node?, Array.getElem?_eq_getElem hid]
    rfl
  · rw [if_neg hi, if_neg hi, node]

attribute [ext] Node

/-- What attaching does to the nodes, be they one or several that it is about. -/
theorem node_attach (hp : p.index < t.size) (hc : c.index < t.size)
    (hlast : ∀ last, (t.node p).lastChild = some last → last.index < t.size) (i : NodeId) :
    (t.attach p c).node i = { t.node i with
      parent := if i = c then some p else (t.node i).parent
      firstChild := if i = p ∧ (t.node p).lastChild = none then some c else (t.node i).firstChild
      lastChild := if i = p then some c else (t.node i).lastChild
      nextSibling := if (t.node p).lastChild = some i then some c
        else (t.node i).nextSibling } := by
  cases hl : (t.node p).lastChild with
  | none =>
    apply Node.ext <;>
      simp [attach, hl, node_modify, hp, hc, apply_ite Node.kind, apply_ite Node.span,
        apply_ite Node.parent, apply_ite Node.firstChild, apply_ite Node.lastChild,
        apply_ite Node.nextSibling]
  | some last =>
    apply Node.ext <;>
      simp [attach, hl, node_modify, hp, hc, hlast last hl, apply_ite Node.kind,
        apply_ite Node.span, apply_ite Node.parent, apply_ite Node.firstChild,
        apply_ite Node.lastChild, apply_ite Node.nextSibling, eq_comm]

theorem node_push (t : Tree) (kind : NodeKind) (span : Span) (i : NodeId) :
    (t.push kind span).2.node i = if i.index = t.size then { kind, span } else t.node i := by
  rw [node, node?_push]
  split
  · rfl
  · rw [node]

/-! ## Links -/

/-- Going from a node to its next sibling as long as there is one meets `ids`, one after the other,
and comes to an end. -/
inductive SiblingsFrom (t : Tree) : Option NodeId → List NodeId → Prop where
  | done : SiblingsFrom t none []
  | next {id : NodeId} {ids : List NodeId} (h : SiblingsFrom t (t.node id).nextSibling ids) :
    SiblingsFrom t (some id) (id :: ids)

theorem Links.siblingsFrom {n : Node} (h : t.Links id n ids) :
    t.SiblingsFrom n.firstChild ids := by
  have hfrom : ∀ d k, k + d = ids.length → t.SiblingsFrom ids[k]? (ids.drop k) := by
    intro d
    induction d with
    | zero =>
      intro k hk
      rw [List.getElem?_eq_none (by omega), List.drop_eq_nil_of_le (by omega)]
      exact .done
    | succ d ih =>
      intro k hk
      have hlt : k < ids.length := by omega
      have hget := List.getElem?_eq_getElem hlt
      rw [hget, List.drop_eq_getElem_cons hlt]
      refine .next ?_
      rw [h.next k _ hget]
      exact ih (k + 1) (by omega)
  rw [h.first, List.head?_eq_getElem?]
  exact hfrom ids.length 0 (by omega)

/-- A node has fewer children than there are nodes, so none is left out. -/
theorem Links.children_eq (h : t.Links id (t.node id) ids) : t.children id = ids := by
  have hlt : ∀ i ∈ ids, i.index < t.size := fun i hi =>
    index_lt (node?_of_parent (by simp [h.parent i hi]))
  have hlength : ids.length ≤ t.size := by
    have hsub : ids.Subperm ((List.range t.size).map NodeId.mk) :=
      List.subperm_of_subset h.nodup fun i hi =>
        List.mem_map.mpr ⟨i.index, List.mem_range.mpr (hlt i hi), rfl⟩
    simpa using hsub.length_le
  have hall := siblings_of_links h 0 t.size (by omega) #[]
  rw [children, h.first, List.head?_eq_getElem?]
  simpa using hall

/-! ## Calls -/

/-- The tree behind one call. -/
def edit (t : Tree) : Edit → Tree
  | .push kind span => (t.push kind span).2
  | .attach parent child => t.attach parent child
  | .setSpan id span => t.setSpan id span
  | .setKind id kind => t.setKind id kind

/-- The tree behind some calls on a tree that was only a root with a given span. -/
def build (symbols : SymbolTable) (rootSpan : Span) (edits : List Edit) : Tree :=
  edits.foldl edit ((ofSymbols symbols).setSpan root rootSpan)

variable {symbols : SymbolTable} {rootSpan : Span} {edits : List Edit} {e : Edit}

theorem build_concat (symbols : SymbolTable) (rootSpan : Span) (edits : List Edit) (e : Edit) :
    build symbols rootSpan (edits ++ [e]) = (build symbols rootSpan edits).edit e := by
  rw [build, List.foldl_append]
  rfl

open Edit (attachments attachedTo nodeCount mem_attachedTo)

/-- The links of a tree are what the calls that have built it say. -/
structure Reflects (t : Tree) (edits : List Edit) : Prop where
  size : t.size = nodeCount edits
  links : ∀ p, t.Links p (t.node p) (attachedTo edits p)
  parent : ∀ p c, (t.node c).parent = some p ↔ (p, c) ∈ attachments edits
  loose : ∀ c, c ∉ (attachments edits).map Prod.snd → (t.node c).nextSibling = none

/-- A call that attaches nothing and changes no links. -/
theorem Reflects.of_same (h : t.Reflects edits) (he : e.attachment? = none)
    (hsize : t'.size = nodeCount (edits ++ [e]))
    (hsame : ∀ i, (t'.node i).parent = (t.node i).parent ∧
      (t'.node i).firstChild = (t.node i).firstChild ∧
      (t'.node i).lastChild = (t.node i).lastChild ∧
      (t'.node i).nextSibling = (t.node i).nextSibling) :
    t'.Reflects (edits ++ [e]) := by
  have hattachments : attachments (edits ++ [e]) = attachments edits := by
    simp [Edit.attachments_concat, he]
  refine ⟨hsize, fun p => ?_, fun p c => ?_, fun c hc => ?_⟩
  · rw [attachedTo, hattachments]
    obtain ⟨-, hfirst, hlast, -⟩ := hsame p
    exact (h.links p).congr hfirst hlast (fun i _ => (hsame i).1) fun i _ => (hsame i).2.2.2
  · rw [hattachments, (hsame c).1]
    exact h.parent p c
  · rw [(hsame c).2.2.2]
    exact h.loose c (hattachments ▸ hc)

theorem Reflects.push (h : t.Reflects edits) (kind : NodeKind) (span : Span) :
    (t.push kind span).2.Reflects (edits ++ [.push kind span]) := by
  refine h.of_same rfl ?_ fun i => ?_
  · simp [h.size, nodeCount, Edit.isPush, Nat.add_assoc]
  · rw [node_push]
    split
    · next hi =>
      have hnone : t.node? i = none := Array.getElem?_eq_none (Nat.le_of_eq hi.symm)
      rw [node, hnone]
      exact ⟨rfl, rfl, rfl, rfl⟩
    · exact ⟨rfl, rfl, rfl, rfl⟩

/-- A call that gives a node another kind or span. -/
theorem Reflects.relabel (h : t.Reflects edits) (hid : id.index < t.size) {f : Node → Node}
    (hf : ∀ n, f n = { n with kind := (f n).kind, span := (f n).span })
    (he : e.attachment? = none) (hpush : e.isPush = false) :
    (t.modify id f).Reflects (edits ++ [e]) := by
  refine h.of_same he ?_ fun i => ?_
  · simp [h.size, nodeCount, hpush]
  · rw [node_modify hid]
    split
    · rw [hf]
      exact ⟨rfl, rfl, rfl, rfl⟩
    · exact ⟨rfl, rfl, rfl, rfl⟩

section Attach

variable (h : t.Reflects edits) (hp : p.index < t.size) (hc : c.index < t.size)
  (hloose : c ∉ (attachments edits).map Prod.snd)

include h in
theorem Reflects.mem_of_lastChild (hlast : (t.node p).lastChild = some i) :
    (p, i) ∈ attachments edits := by
  rw [(h.links p).last] at hlast
  exact mem_attachedTo.mp (List.mem_of_getLast? hlast)

include h in
/-- No node is attached to two others. -/
theorem Reflects.eq_of_mem (hpi : (p, i) ∈ attachments edits) (hqi : (q, i) ∈ attachments edits) :
    p = q :=
  Option.some.inj (((h.parent p i).mpr hpi).symm.trans ((h.parent q i).mpr hqi))

include h hp hc in
theorem Reflects.node_attach (i : NodeId) :
    (t.attach p c).node i = { t.node i with
      parent := if i = c then some p else (t.node i).parent
      firstChild := if i = p ∧ (t.node p).lastChild = none then some c else (t.node i).firstChild
      lastChild := if i = p then some c else (t.node i).lastChild
      nextSibling := if (t.node p).lastChild = some i then some c
        else (t.node i).nextSibling } :=
  Tree.node_attach hp hc (fun last hlast => index_lt (node?_of_parent (by
    simp [(h.parent p last).mpr (h.mem_of_lastChild hlast)]))) i

include h hp hc hloose

/-- What has been attached keeps its parent. -/
theorem Reflects.parent_attach (hi : i ∈ attachedTo edits q) :
    ((t.attach p c).node i).parent = (t.node i).parent := by
  rw [h.node_attach hp hc]
  refine if_neg ?_
  rintro rfl
  exact hloose (List.mem_map_of_mem (mem_attachedTo.mp hi))

theorem Reflects.links_attach_self :
    (t.attach p c).Links p ((t.attach p c).node p) (attachedTo edits p ++ [c]) := by
  have hlinks := h.links p
  refine hlinks.concat ?_ ?_ (fun i hi => h.parent_attach hp hc hloose hi) (fun i _ => ?_) ?_ ?_
  · rw [h.node_attach hp hc, hlinks.last, hlinks.first]
    cases attachedTo edits p <;> simp
  · rw [h.node_attach hp hc]
    exact if_pos rfl
  · rw [h.node_attach hp hc, hlinks.last]
  · rw [h.node_attach hp hc]
    exact if_pos rfl
  · -- What is attached for the first time is nobody's last child, so it has no sibling behind it.
    rw [h.node_attach hp hc]
    refine (if_neg fun hlast => hloose ?_).trans (h.loose c hloose)
    exact List.mem_map_of_mem (h.mem_of_lastChild hlast)

theorem Reflects.links_attach_of_ne (hq : q ≠ p) :
    (t.attach p c).Links q ((t.attach p c).node q) (attachedTo edits q) := by
  refine (h.links q).congr ?_ ?_ (fun i hi => h.parent_attach hp hc hloose hi) fun i hi => ?_
  · rw [h.node_attach hp hc]
    exact if_neg fun hqp => hq hqp.1
  · rw [h.node_attach hp hc]
    exact if_neg hq
  · -- A sibling behind it is only given to the last child of `p`, which is no child of `q`.
    rw [h.node_attach hp hc]
    refine if_neg fun hlast => hq ?_
    exact h.eq_of_mem (mem_attachedTo.mp hi) (h.mem_of_lastChild hlast)

theorem Reflects.attach : (t.attach p c).Reflects (edits ++ [.attach p c]) := by
  have hattachments : attachments (edits ++ [.attach p c]) = attachments edits ++ [(p, c)] :=
    Edit.attachments_concat edits _
  refine ⟨?_, fun q => ?_, fun q i => ?_, fun i hi => ?_⟩
  · simp [h.size, nodeCount, Edit.isPush]
  · by_cases hq : q = p
    · subst hq
      rw [Edit.attachedTo_concat_self]
      exact h.links_attach_self hp hc hloose
    · rw [Edit.attachedTo_concat_of_ne edits hq]
      exact h.links_attach_of_ne hp hc hloose hq
  · rw [hattachments, h.node_attach hp hc, List.mem_append, List.mem_singleton, Prod.mk.injEq]
    by_cases hi : i = c
    · subst hi
      have hnew : (q, i) ∉ attachments edits := fun hqi => hloose (List.mem_map_of_mem hqi)
      simp [hnew, eq_comm]
    · simp [hi, h.parent q i]
  · rw [hattachments, List.map_append, List.mem_append, not_or] at hi
    rw [h.node_attach hp hc]
    refine (if_neg fun hlast => hi.1 ?_).trans (h.loose i hi.1)
    exact List.mem_map_of_mem (h.mem_of_lastChild hlast)

end Attach

/-- A tree that is only a root has no links. -/
theorem reflects_nil : (build symbols rootSpan []).Reflects [] := by
  have hnone : ∀ i, ((build symbols rootSpan []).node i).parent = none ∧
      ((build symbols rootSpan []).node i).firstChild = none ∧
      ((build symbols rootSpan []).node i).lastChild = none ∧
      ((build symbols rootSpan []).node i).nextSibling = none := by
    rintro ⟨_ | index⟩ <;> exact ⟨rfl, rfl, rfl, rfl⟩
  refine ⟨rfl, fun p => ⟨(hnone p).2.1, (hnone p).2.2.1, nofun, nofun⟩, fun p c => ?_,
    fun c _ => (hnone c).2.2.2⟩
  rw [(hnone c).1]
  exact ⟨nofun, nofun⟩

theorem Reflects.edit (h : t.Reflects edits) (he : e.MayFollow edits) :
    (t.edit e).Reflects (edits ++ [e]) := by
  cases e with
  | push kind span => exact h.push kind span
  | attach parent child => exact h.attach (h.size ▸ he.1) (h.size ▸ he.2.1) he.2.2
  | setSpan id span => exact h.relabel (h.size ▸ he) (fun _ => rfl) rfl rfl
  | setKind id kind => exact h.relabel (h.size ▸ he) (fun _ => rfl) rfl rfl

/-- Permitted calls build a tree whose links are what the calls say. -/
theorem reflects_build (h : Edit.Permitted edits) :
    (build symbols rootSpan edits).Reflects edits := by
  induction edits using List.reverseRecOn with
  | nil => exact reflects_nil
  | append_singleton edits e ih =>
    rw [build_concat]
    exact (ih (h.of_isPrefix (List.prefix_append ..))).edit h.mayFollow

/-- What can be read off the links of a tree after some calls. -/
structure KeepsChildren (t : Tree) (edits : List Edit) : Prop where
  /-- The children of a node are what was attached to it, in this order. -/
  children : ∀ p, t.children p = attachedTo edits p
  /-- Following the siblings comes to an end behind them. -/
  ends : ∀ p, t.SiblingsFrom (t.node p).firstChild (t.children p)
  parent : ∀ p c, (t.node c).parent = some p ↔ Edit.attach p c ∈ edits
  last : ∀ p, (t.node p).lastChild = (t.children p).getLast?
  behind_last : ∀ p c, (t.node p).lastChild = some c → (t.node c).nextSibling = none

theorem Reflects.keepsChildren (h : t.Reflects edits) : t.KeepsChildren edits := by
  have hchildren : ∀ p, t.children p = attachedTo edits p := fun p => (h.links p).children_eq
  refine ⟨hchildren, fun p => ?_, fun p c => ?_, fun p => ?_, fun p c hc => ?_⟩
  · rw [hchildren]
    exact (h.links p).siblingsFrom
  · rw [h.parent, Edit.mem_attachments]
  · rw [hchildren]
    exact (h.links p).last
  · rw [(h.links p).last, List.getLast?_eq_getElem?] at hc
    rw [(h.links p).next _ c hc, List.getElem?_eq_none_iff]
    omega

/-- At every point of a run of permitted calls, the children of a node are exactly what was attached
to it so far, and attaching changes the children of one node and nothing of what the nodes are.
That nothing is attached to itself or below itself is not needed for this. -/
theorem keepsChildren_of_permitted (h : Edit.Permitted edits) {before : List Edit}
    (hbefore : before <+: edits) :
    (build symbols rootSpan before).KeepsChildren before ∧
      ∀ p c, before ++ [.attach p c] <+: edits →
        (∀ q, q ≠ p → ((build symbols rootSpan before).attach p c).children q =
          (build symbols rootSpan before).children q) ∧
        ∀ i, ((build symbols rootSpan before).attach p c).kind i =
            (build symbols rootSpan before).kind i ∧
          ((build symbols rootSpan before).attach p c).span i =
            (build symbols rootSpan before).span i := by
  have hreflects : (build symbols rootSpan before).Reflects before :=
    reflects_build (h.of_isPrefix hbefore)
  refine ⟨hreflects.keepsChildren, fun p c hnext => ?_⟩
  obtain ⟨hp, hc, hloose⟩ := (h.of_isPrefix hnext).mayFollow
  rw [← hreflects.size] at hp hc
  refine ⟨fun q hq => ?_, fun i => ?_⟩
  · rw [(hreflects.attach hp hc hloose).keepsChildren.children, hreflects.keepsChildren.children,
      Edit.attachedTo_concat_of_ne before hq]
  · rw [kind, span, hreflects.node_attach hp hc]
    exact ⟨rfl, rfl⟩

/-- Two blocks that grow in turns; the first one has a part before it is a part itself. -/
def blocksInTurns : List Edit :=
  [.push .block (.empty .start), .push .break_ (.empty .start), .attach ⟨1⟩ ⟨2⟩,
    .push .block (.empty .start), .attach root ⟨3⟩, .push .continue_ (.empty .start),
    .attach ⟨1⟩ ⟨4⟩, .attach root ⟨1⟩, .setKind ⟨4⟩ .return_, .setSpan ⟨1⟩ (.empty .start)]

theorem keepsChildren_of_blocksInTurns :
    Edit.Permitted blocksInTurns ∧ blocksInTurns.take 6 <+: blocksInTurns ∧
      blocksInTurns.take 6 ++ [.attach ⟨1⟩ ⟨4⟩] <+: blocksInTurns ∧
      (build .empty (.empty .start) (blocksInTurns.take 6)).KeepsChildren (blocksInTurns.take 6) ∧
      (build .empty (.empty .start) (blocksInTurns.take 6)).children root = [⟨3⟩] ∧
      ((build .empty (.empty .start) (blocksInTurns.take 6)).attach ⟨1⟩ ⟨4⟩).children root =
        [⟨3⟩] := by
  have hpermitted : Edit.Permitted blocksInTurns := by decide
  have hbefore : blocksInTurns.take 6 <+: blocksInTurns := List.take_prefix ..
  have hnext : blocksInTurns.take 6 ++ [.attach ⟨1⟩ ⟨4⟩] <+: blocksInTurns :=
    ⟨blocksInTurns.drop 7, rfl⟩
  obtain ⟨hkeeps, hattach⟩ := keepsChildren_of_permitted hpermitted hbefore
  have hroot := hkeeps.children root
  exact ⟨hpermitted, hbefore, hnext, hkeeps, hroot,
    ((hattach ⟨1⟩ ⟨4⟩ hnext).1 root (by decide)).trans hroot⟩

end Tree
end GoloSyntax
