import GoloSyntax.Proofs.Access.End
import GoloSyntax.Proofs.Access.Offsets
import GoloSyntax.Proofs.Tree.Construct

/-! # Links and texts of a tree

While a token stream is read, all links of the tree lead to nodes that it has, and all texts of its
nodes and of the tokens are in its table (`Tree.Linked`); so every step may be carried out that is
permitted only where this is what it needs (`Indexed.inBounds`).
-/
namespace GoloSyntax

namespace SymbolTable

variable {t : SymbolTable} {text : String} {symbol : Symbol}

theorem lists_iff : t.Lists text ↔ t.numbers[text]?.isSome := by
  rw [Option.isSome_iff_exists]
  constructor
  · rintro ⟨⟨number⟩, hsymbol⟩
    exact ⟨number, (t.numbers_iff text number).mpr hsymbol⟩
  · rintro ⟨number, hnumber⟩
    exact ⟨⟨number⟩, (t.numbers_iff text number).mp hnumber⟩

theorem Lists.within {t' : SymbolTable} (h : t.Lists text) (hwithin : t.Within t') :
    t'.Lists text := by
  obtain ⟨symbol, hsymbol⟩ := h
  exact ⟨symbol, hwithin symbol text hsymbol⟩

theorem index_lt (h : t.text? symbol = some text) : symbol.index < t.size :=
  (Array.getElem?_eq_some_iff.mp h).1

end SymbolTable

/-- Where a node leads. -/
def Node.links (n : Node) : List NodeId :=
  n.parent.toList ++ n.firstChild.toList ++ n.lastChild.toList ++ n.nextSibling.toList

theorem Node.mem_links {n : Node} {id : NodeId} : id ∈ n.links ↔
    n.parent = some id ∨ n.firstChild = some id ∨ n.lastChild = some id ∨
      n.nextSibling = some id := by
  simp [links]

/-- A node may stand in a tree of so many nodes with these texts. -/
structure Node.Fits (n : Node) (size : Nat) (symbols : SymbolTable) : Prop where
  links : ∀ id ∈ n.links, id.index < size
  texts : ∀ text ∈ n.kind.texts, symbols.Lists text

namespace Tree

variable {t : Tree} {id parent child : NodeId} {kind : NodeKind} {span : Span}

theorem node?_of_lt (h : id.index < t.size) : t.node? id = some (t.node id) := by
  rw [node, node?, Array.getElem?_eq_getElem h]
  rfl

/-- Every link leads to a node of the tree, and every text of a node is listed. -/
def Linked (t : Tree) : Prop := ∀ id n, t.node? id = some n → n.Fits t.size t.symbols

namespace Linked

theorem modify (h : t.Linked) {f : Node → Node}
    (hf : ∀ n, n.Fits t.size t.symbols → (f n).Fits t.size t.symbols) : (t.modify id f).Linked := by
  intro i n hn
  rw [size_modify, Reading.symbols_modify]
  rw [node?_modify] at hn
  split at hn
  · obtain ⟨m, hm, rfl⟩ := Option.map_eq_some_iff.mp hn
    exact hf m (h i m hm)
  · exact h i n hn

theorem setSpan (h : t.Linked) : (t.setSpan id span).Linked :=
  h.modify fun _ hn => ⟨hn.links, hn.texts⟩

theorem setKind (h : t.Linked) (hkind : ∀ text ∈ kind.texts, t.symbols.Lists text) :
    (t.setKind id kind).Linked :=
  h.modify fun _ hn => ⟨hn.links, hkind⟩

theorem push (h : t.Linked) (hkind : ∀ text ∈ kind.texts, t.symbols.Lists text) :
    (t.push kind span).2.Linked := by
  intro i n hn
  rw [node?_push] at hn
  rw [size_push, Reading.symbols_push]
  split at hn
  · obtain rfl := Option.some.inj hn
    exact ⟨by simp [Node.links], hkind⟩
  · have hfits := h i n hn
    exact ⟨fun id hid => Nat.lt_succ_of_lt (hfits.links id hid), hfits.texts⟩

theorem intern (h : t.Linked) (text : String) : (t.intern text).Linked := by
  intro i n hn
  have hfits := h i n hn
  exact ⟨hfits.links, fun text' htext =>
    (hfits.texts text' htext).within (SymbolTable.within_intern t.symbols text)⟩

theorem links_lt (h : t.Linked) (hid : id.index < t.size) {i : NodeId}
    (hi : i ∈ (t.node id).links) : i.index < t.size :=
  (h id _ (node?_of_lt hid)).links i hi

/-- A link may be set to a node of the tree. -/
theorem relink (h : t.Linked) (p : NodeId) (hid : id.index < t.size) {f : Node → Node}
    (hlinks : ∀ n, ∀ i ∈ (f n).links, i = id ∨ i ∈ n.links) (hkind : ∀ n, (f n).kind = n.kind) :
    (t.modify p f).Linked := by
  refine h.modify fun n hn => ⟨fun i hi => ?_, by rw [hkind]; exact hn.texts⟩
  rcases hlinks n i hi with rfl | hi
  · exact hid
  · exact hn.links i hi

theorem attach (h : t.Linked) (hparent : parent.index < t.size) (hchild : child.index < t.size) :
    (t.attach parent child).Linked := by
  have hup : (t.modify child fun n => { n with parent := some parent }).Linked :=
    h.relink child hparent (fun n i => by grind [Node.mem_links]) fun _ => rfl
  -- Every other link is set to the child, in a tree that is no smaller.
  have hdown {u : Tree} (p : NodeId) (hu : u.Linked) (hsize : u.size = t.size) {f : Node → Node}
      (hlinks : ∀ n, ∀ i ∈ (f n).links, i = child ∨ i ∈ n.links) (hkind : ∀ n, (f n).kind = n.kind) :
      (u.modify p f).Linked :=
    hu.relink p (hsize ▸ hchild) hlinks hkind
  rw [Tree.attach]
  refine hdown parent ?_ ?_ (fun n i => by grind [Node.mem_links]) fun _ => rfl
  · cases (t.node parent).lastChild with
    | none =>
      exact hdown parent hup (by simp) (fun n i => by grind [Node.mem_links]) fun _ => rfl
    | some last =>
      exact hdown last hup (by simp) (fun n i => by grind [Node.mem_links]) fun _ => rfl
  · cases (t.node parent).lastChild <;> simp

end Linked

theorem linked_ofSymbols (symbols : SymbolTable) : (Tree.ofSymbols symbols).Linked := by
  intro i n hn
  obtain ⟨-, rfl⟩ : i.index = 0 ∧ n = { kind := .compilationUnit, span := .empty .start } := by
    have hlt := index_lt hn
    have hzero : i.index = 0 := Nat.lt_one_iff.mp hlt
    rw [node?, hzero] at hn
    exact ⟨hzero, (Option.some.inj hn).symm⟩
  exact ⟨by simp [Node.links], by simp [NodeKind.texts, NodeKind.name?]⟩

end Tree

namespace Indexed

open Reading (Hold)

variable {stream : TokenStream} {limits : Limits}

/-- The texts of a node are listed. -/
def listed (t : Tree) (kind : NodeKind) : Bool :=
  kind.texts.all fun text => t.symbols.numbers[text]?.isSome

/-- What a step accesses is there: nodes and texts that it names are in the tree, texts of tokens
are listed, and there is a number left for a new node and a new text. -/
def inBounds (limits : Limits) (action : Step) (token : Token) (t : Tree) : Bool :=
  match action with
  | .look | .reject _ => token.symbol.all fun symbol => symbol.index < t.symbols.size
  | .openNode kind => (limits.maxTreeNodes ≤ t.size || t.size < numberLimit) && listed t kind
  | .closeNode id => id.index < t.size
  | .setKind id kind => id.index < t.size && listed t kind
  | .attach parent child =>
    parent.index < t.size && child.index < t.size &&
      (t.node parent).lastChild.all fun last => last.index < t.size
  | .intern text => (intern? t.symbols text).isSome
  | .lookBehind | .advance | .skipNewlines | .refuseLiteral _ => true

/-- All texts of tokens are in the table. -/
def Texts (c : Reading.Context) (s : Reading.State) : Prop :=
  (∀ token ∈ s.rest, token.HasText s.tree.symbols) ∧ c.endToken.HasText s.tree.symbols

variable {c : Reading.Context} {s s' : Reading.State}

theorem Texts.of_grows (h : Texts c s) (hgrows : s.Grows s') : Texts c s' :=
  ⟨fun token htoken => (h.1 token (hgrows.rest.subset htoken)).within hgrows.symbols,
    h.2.within hgrows.symbols⟩

theorem Texts.current (h : Texts c s) : (s.current c).HasText s.tree.symbols := by
  obtain ⟨_ | ⟨token, rest⟩, lastEnd, tree⟩ := s
  · exact h.2
  · exact h.1 token List.mem_cons_self

theorem inBounds_of_covers {action : Step} {h : Hold} (hlimit : limits.maxTreeNodes ≤ numberLimit)
    (hlinked : s.tree.Linked) (htexts : Texts c s) (hs : h.Covers c numberLimit s)
    (hasks : action.Asks h) : inBounds limits action (s.current c) s.tree := by
  have hlisted {kind : NodeKind} (hkind : ∀ text ∈ kind.texts, text ∈ h.texts) :
      listed s.tree kind :=
    List.all_eq_true.mpr fun text htext =>
      SymbolTable.lists_iff.mp (hs.texts text (hkind text htext))
  have hsymbol : (s.current c).symbol.all fun symbol => symbol.index < s.tree.symbols.size := by
    rw [Option.all_eq_true]
    intro symbol hsymbol
    obtain ⟨text, htext⟩ := htexts.current symbol hsymbol
    exact decide_eq_true (SymbolTable.index_lt htext)
  cases action with
  | look | reject _ => exact hsymbol
  | openNode kind =>
    have hroom : limits.maxTreeNodes ≤ s.tree.size ∨ s.tree.size < numberLimit := by omega
    simpa [inBounds, hlisted hasks] using hroom
  | closeNode id => exact decide_eq_true (hs.nodes id hasks)
  | setKind id kind => simp [inBounds, hs.nodes id hasks.1, hlisted hasks.2]
  | attach parent child =>
    have hparent := hs.nodes parent hasks.1
    have hlast : (s.tree.node parent).lastChild.all fun last => last.index < s.tree.size := by
      rw [Option.all_eq_true]
      intro last hlast
      exact decide_eq_true (hlinked.links_lt hparent (Node.mem_links.mpr (.inr (.inr (.inl hlast)))))
    simp [inBounds, hparent, hs.nodes child hasks.2, hlast]
  | intern text =>
    have hpositive : 0 < h.entries := hasks
    have hentries := hs.entries
    rw [inBounds, intern?_eq (by omega)]
    rfl
  | lookBehind | advance | skipNewlines | refuseLiteral _ => rfl

theorem linked_perform {action : Step} {h : Hold} {start : Position} {x : action.Answer}
    (hlinked : s.tree.Linked) (hs : h.Covers c numberLimit s) (hasks : action.Asks h)
    (hx : Reading.perform c start action s = .ok (x, s')) : s'.tree.Linked := by
  have hlisted {kind : NodeKind} (hkind : ∀ text ∈ kind.texts, text ∈ h.texts) :
      ∀ text ∈ kind.texts, s.tree.symbols.Lists text :=
    fun text htext => hs.texts text (hkind text htext)
  cases action with
  | look | lookBehind | skipNewlines =>
    obtain ⟨-, rfl⟩ := Prod.mk.inj (Except.ok.inj hx)
    exact hlinked
  | advance =>
    obtain ⟨-, rfl⟩ := Prod.mk.inj (Except.ok.inj hx)
    obtain ⟨_ | ⟨token, rest⟩, lastEnd, tree⟩ := s
    · exact hlinked
    · exact hlinked
  | openNode kind =>
    simp only [Reading.perform] at hx
    split at hx
    · cases hx
    · obtain ⟨-, rfl⟩ := Prod.mk.inj (Except.ok.inj hx)
      exact hlinked.push (hlisted hasks)
  | closeNode id =>
    obtain ⟨-, rfl⟩ := Prod.mk.inj (Except.ok.inj hx)
    exact hlinked.setSpan
  | setKind id kind =>
    obtain ⟨-, rfl⟩ := Prod.mk.inj (Except.ok.inj hx)
    exact hlinked.setKind (hlisted hasks.2)
  | attach parent child =>
    obtain ⟨-, rfl⟩ := Prod.mk.inj (Except.ok.inj hx)
    exact hlinked.attach (hs.nodes parent hasks.1) (hs.nodes child hasks.2)
  | intern text =>
    obtain ⟨-, rfl⟩ := Prod.mk.inj (Except.ok.inj hx)
    exact hlinked.intern text
  | reject _ | refuseLiteral _ => cases hx

/-- Every step is permitted that accesses what is there. -/
def Licence.checked (stream : TokenStream) (limits : Limits)
    (hlimit : limits.maxTreeNodes ≤ numberLimit) : Licence (stream.context limits) where
  permits := inBounds limits
  room := numberLimit
  inv s := s.tree.Linked ∧ Texts (stream.context limits) s
  grants hinv hs hasks := inBounds_of_covers hlimit hinv.1 hinv.2 hs hasks
  keeps hinv hs hasks hx :=
    ⟨linked_perform hinv.1 hs hasks hx, hinv.2.of_grows (Reading.grows_perform _ hx)⟩

end Indexed

end GoloSyntax
