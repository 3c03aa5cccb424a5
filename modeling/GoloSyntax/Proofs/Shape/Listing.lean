import GoloSyntax.Proofs.Grammar.OneLine
import GoloSyntax.Proofs.Reading.Lines
import GoloSyntax.Proofs.Reading.Sentences
import GoloSyntax.Proofs.Shape.Dumps
import GoloSyntax.Proofs.Shape.Preorder
import Mathlib.Data.Set.Card

/-! # Dumps list subtrees

A dump gives out a line for each node of a subtree, in the order of a walk that goes everywhere
(`dumps_of_parseSource`).  A source puts no line feed into a name, and a dump none into anything
else but the prefix, so lines and nodes can be counted by each other.
-/
namespace GoloSyntax

/-! ## Names of a source -/

theorem identifiersOnOneLine_of_lex {source : String} {limits : Limits} {stream : TokenStream}
    (hlex : lex source limits = .ok stream) : IdentifiersOnOneLine stream.words := by
  intro l hl name hname
  rcases cut_of_lex hlex hl with rfl | ⟨u, v, hcut⟩
  · cases hname
  · exact hcut.isOneLine_text (.inl (by rw [hname])) (by rw [hname])

/-- Every node of a source is named on one line. -/
theorem namedOnOneLine_of_parse {source : String} {limits limits' : Limits} {stream : TokenStream}
    {t : Tree} {id : NodeId} (hlex : lex source limits = .ok stream)
    (h : parse stream limits' = .ok t) (hid : id.index < t.size) :
    (t.kind id).NamedOnOneLine := by
  obtain ⟨pieces, hpieces⟩ := exists_pieces_of_lex hlex
  obtain ⟨r, xs, hreads, hloose, hsize⟩ := parse_loose h
  rw [hpieces.reader_eq (symbols_of_parse h)] at hreads
  have hwords : stream.words = pieces.map Piece.lexeme := by
    rw [TokenStream.words, hpieces.lexemes_eq, List.dropLast_concat]
  have hidentifiers := identifiersOnOneLine_of_lex hlex
  rw [hwords] at hidentifiers
  obtain ⟨-, hnamed⟩ := hreads.namedOnOneLine hidentifiers
  -- The unit itself has no name; everything below it is read.
  have hroot : (Construct.mk .compilationUnit stream.unitSpan xs).Everywhere
      fun y => y.kind.NamedOnOneLine := by
    refine Construct.everywhere_iff.mpr ⟨fun name hname => ?_, hnamed⟩
    cases hname
  have hcount : (Construct.mk .compilationUnit stream.unitSpan xs).count ≤ t.size := by
    rw [Construct.count, hsize]
  have hreached := ((hloose.rooted rfl hsize.symm).reached id).mpr hid
  obtain ⟨y, hy, hshows⟩ := hloose.shows.exists_within hcount hreached
  rw [hshows.kind_eq]
  exact hroot y hy

/-! ## Lines -/

/-- A line has the prefix, so many blanks, the name of the kind and, if anything, words behind. -/
structure DumpOptions.LaysOut (options : DumpOptions) (kind : NodeKind) (depth : Nat)
    (line : String) : Prop where
  text : ∃ behind, (behind = [] ∨ ∃ rest, behind = ' ' :: rest) ∧
    line.toList = options.linePrefix.toList ++
      (List.replicate (depth * options.indent) ' ' ++ (kind.label.toList ++ behind))
  /-- The blanks end where the name begins. -/
  label : kind.label.toList ≠ [] ∧ ' ' ∉ kind.label.toList

theorem DumpOptions.laysOut_line (options : DumpOptions) (e : Nat × Construct) :
    options.LaysOut e.2.kind e.1 (options.line e) := by
  refine ⟨?_, e.2.kind.label_ne_nil, e.2.kind.blank_not_mem_label⟩
  rw [line_toList, NodeKind.render_toList]
  refine ⟨_, ?_, by rw [List.append_assoc]⟩
  rcases e.2.kind.tail_eq with htail | ⟨rest, htail⟩
  · cases options.showSpans <;> simp [htail]
  · exact .inr ⟨_, by rw [htail]; rfl⟩

theorem count_newline_foldl {lines : List String} (h : ∀ line ∈ lines, '\n' ∉ line.toList)
    (out : String) : (lines.foldl (fun out line => out ++ line ++ "\n") out).toList.count '\n' =
      out.toList.count '\n' + lines.length := by
  induction lines generalizing out with
  | nil => rfl
  | cons line lines ih =>
    obtain ⟨hline, hlines⟩ := List.forall_mem_cons.mp h
    rw [List.foldl_cons, ih hlines, String.toList_append, String.toList_append, List.count_append,
      List.count_append, List.count_eq_zero_of_not_mem hline, List.length_cons]
    show _ + 0 + 1 + _ = _
    omega

namespace Tree

/-- What the dump of a subtree is. -/
structure DumpsInPreorder (t : Tree) (id : NodeId) : Prop where
  /-- The nodes are listed recursively, a node in front of what is below its children. -/
  entries_eq : ∀ depth,
    t.entries depth id = (id, depth) :: (t.children id).flatMap (t.entries (depth + 1))
  /-- The depth of a node is its distance from where the dump starts. -/
  climb?_iff : ∀ e ∈ t.entries 0 id, ∀ d, t.climb? d e.1 = some id ↔ d = e.2
  mem_iff : ∀ i, i ∈ (t.entries 0 id).map Prod.fst ↔ ∃ d, t.climb? d i = some id
  nodup : ((t.entries 0 id).map Prod.fst).Nodup
  /-- A walk that goes everywhere enters the nodes in this order. -/
  walk_eq : ∀ (σ : Type) (v : Visitor σ), v.Continues → ∀ s,
    t.walk v.noting id (s, []) = (t.walk v id s, (t.entries 0 id).map Prod.fst)
  /-- The dump gives out one line for each entry, and then nothing. -/
  yields : ∀ options,
    (t.dump id options).Yields ((t.entries 0 id).map fun e => (t.dump id options).line e.1 e.2)
  dumpLines_eq : ∀ options,
    t.dumpLines id options = (t.entries 0 id).map fun e => (t.dump id options).line e.1 e.2
  laysOut : ∀ options, ∀ e ∈ t.entries 0 id,
    DumpOptions.LaysOut options (t.kind e.1) e.2 ((t.dump id options).line e.1 e.2)
  newline_not_mem : ∀ options : DumpOptions, '\n' ∉ options.linePrefix.toList →
    ∀ line ∈ t.dumpLines id options, '\n' ∉ line.toList
  length_eq : ∀ options,
    (t.dumpLines id options).length = {i | ∃ d, t.climb? d i = some id}.ncard

variable {t : Tree} {id : NodeId} {x : Construct}

/-- Where the tree hangs from its root and no name has a line feed, a dump lists the subtree. -/
theorem Shows.dumpsInPreorder (ht : t.Rooted)
    (hnamed : ∀ i : NodeId, i.index < t.size → (t.kind i).NamedOnOneLine) (h : t.Shows id x)
    (hsize : x.count ≤ t.size) : t.DumpsInPreorder id := by
  have hlines (options : DumpOptions) : t.dumpLines id options =
      (t.entries 0 id).map fun e => (t.dump id options).line e.1 e.2 :=
    h.dumpLines_eq_map_line hsize options
  have hmem (i : NodeId) : i ∈ (t.entries 0 id).map Prod.fst ↔ ∃ d, t.climb? d i = some id :=
    ht.mem_entries_iff h hsize
  have hnodup := ht.nodup_entries h hsize 0
  have hlaid (options : DumpOptions) (e : NodeId × Nat) : (t.dump id options).line e.1 e.2 =
      options.line (e.2, .mk (t.kind e.1) (t.span e.1) []) := rfl
  refine ⟨h.entries_eq hsize, fun e he => ht.climb?_iff_of_mem_entries h hsize he, hmem, hnodup,
    fun σ v hv => h.walk_noting_eq hv hsize, h.yields_entries hsize, hlines,
    fun options e _ => ?_, fun options hfront line hline => ?_, fun options => ?_⟩
  · exact options.laysOut_line (e.2, .mk (t.kind e.1) (t.span e.1) [])
  · rw [hlines] at hline
    obtain ⟨e, he, rfl⟩ := List.mem_map.mp hline
    rw [hlaid, ← isOneLine_iff]
    apply DumpOptions.isOneLine_line (isOneLine_iff.mpr hfront)
    obtain ⟨y, -, hy⟩ := h.exists_of_mem hsize
      (t.map_fst_entriesFrom t.size 0 id ▸ List.mem_map_of_mem he)
    exact hnamed e.1 hy.index_lt
  · -- Each node of the subtree has one entry, so counting entries counts the subtree.
    have hset : {i | ∃ d, t.climb? d i = some id} =
        (((t.entries 0 id).map Prod.fst).toFinset : Set NodeId) := by
      ext i
      rw [Set.mem_ofPred_eq, ← hmem, List.coe_toFinset, Set.mem_ofPred_eq]
    rw [hset, Set.ncard_coe_finset, List.toFinset_card_of_nodup hnodup, hlines, List.length_map,
      List.length_map]

/-- The text of a tree has a line feed for each node. -/
theorem count_newline_render (h : t.Shows root x) (hsize : x.count = t.size)
    (hdumps : t.DumpsInPreorder root) : t.render.toList.count '\n' = t.size := by
  rw [render, count_newline_foldl (hdumps.newline_not_mem {} (by decide)), hdumps.dumpLines_eq,
    List.length_map, h.length_entries hsize.le, hsize]
  exact Nat.zero_add _

end Tree

/-- Every dump of a tree that a source gives lists a subtree, a node on each line. -/
theorem dumps_of_parseSource {source : String} {limits : Limits} {t : Tree}
    (h : parseSource source limits = .ok t) :
    (∀ id : NodeId, id.index < t.size → t.DumpsInPreorder id) ∧
      t.render.toList.count '\n' = t.size := by
  simp only [parseSource] at h
  split at h
  · cases h
  · next stream hlex =>
    obtain ⟨r, xs, -, hloose, hsize⟩ := parse_loose h
    have hrooted := hloose.rooted rfl hsize.symm
    have hnamed (i : NodeId) (hi : i.index < t.size) := namedOnOneLine_of_parse hlex h hi
    have hdumps (id : NodeId) (hid : id.index < t.size) : t.DumpsInPreorder id := by
      obtain ⟨hshows, hcount⟩ := shows_of_parse h hid
      exact hshows.dumpsInPreorder hrooted hnamed hcount
    refine ⟨hdumps, Tree.count_newline_render hloose.shows hsize.symm (hdumps _ ?_)⟩
    exact hloose.shows.index_lt

/-- A line feed among the literals is dumped as an escape. -/
theorem dumps_of_line_feed : ∃ t,
    parseSource "module m\nfunction f = |a| -> '\\n' + a" {} = .ok t ∧
    t.dumpLines ⟨3⟩ { linePrefix := "| ", indent := 3, showSpans := true } =
      ["| Function [compact] @2:14-2:29", "|    Parameter 'a' @2:15-2:16",
        "|    Binary + @2:21-2:29", "|       Literal '\\n' @2:21-2:25",
        "|       Reference 'a' @2:28-2:29"] ∧
    t.DumpsInPreorder ⟨3⟩ ∧ t.render.toList.count '\n' = t.size := by
  have hparse : (parseSource "module m\nfunction f = |a| -> '\\n' + a" {}).toOption.any fun t =>
      3 < t.size ∧ t.dumpLines ⟨3⟩ { linePrefix := "| ", indent := 3, showSpans := true } =
        ["| Function [compact] @2:14-2:29", "|    Parameter 'a' @2:15-2:16",
          "|    Binary + @2:21-2:29", "|       Literal '\\n' @2:21-2:25",
          "|       Reference 'a' @2:28-2:29"] := by
    decide +kernel
  obtain ⟨t, h, hfacts⟩ := exists_ok_of_any hparse
  obtain ⟨hid, hlines⟩ := of_decide_eq_true hfacts
  obtain ⟨hdumps, hcount⟩ := dumps_of_parseSource h
  exact ⟨t, h, hlines, hdumps ⟨3⟩ hid, hcount⟩

end GoloSyntax
