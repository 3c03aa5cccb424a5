import GoloSyntax.Proofs.Shape.Arena
import GoloSyntax.Proofs.Tree.OneLine

/-! # Dumps determine subtrees

Without spans, a line of a dump is a prefix, blanks, and the text of a node, which does not begin
with a blank; so with at least one blank for each level, the line tells the depth and what the
node carries (`DumpOptions.line_inj`).  The lines together are the outline of a subtree, and the
outline determines the subtree but for its places (`bare_of_dumpLines`).
-/
namespace GoloSyntax

namespace DumpOptions

variable {options : DumpOptions} {e e' : Nat × Construct}

/-- Blanks in front of a text that does not begin with one can be counted. -/
theorem replicate_append_inj {m n : Nat} {xs ys : List Char} (hxs : ∀ r, xs ≠ ' ' :: r)
    (hys : ∀ r, ys ≠ ' ' :: r)
    (h : List.replicate m ' ' ++ xs = List.replicate n ' ' ++ ys) : m = n ∧ xs = ys := by
  induction m generalizing n with
  | zero =>
    cases n with
    | zero => exact ⟨rfl, h⟩
    | succ n => exact absurd h (hxs _)
  | succ m ih =>
    cases n with
    | zero => exact absurd h.symm (hys _)
    | succ n =>
      obtain ⟨rfl, hrest⟩ := ih (List.cons.inj h).2
      exact ⟨rfl, hrest⟩

/-- A line tells the depth and the node. -/
theorem line_inj (hindent : 1 ≤ options.indent) (hspans : options.showSpans = false)
    (he : e.2.kind.IsExact) (he' : e'.2.kind.IsExact) (h : options.line e = options.line e') :
    Construct.sketch e = Construct.sketch e' := by
  have hlists := congrArg String.toList h
  simp only [line_toList, hspans, Bool.false_eq_true, if_false, List.append_nil] at hlists
  obtain ⟨hblanks, htext⟩ := replicate_append_inj (NodeKind.render_ne_blank _)
    (NodeKind.render_ne_blank _)
    (List.append_cancel_left hlists)
  have hdepth : e.1 = e'.1 := Nat.eq_of_mul_eq_mul_right hindent hblanks
  have hkind := NodeKind.render_inj he he' (String.toList_inj.mp htext)
  rw [Construct.sketch, Construct.sketch, hdepth, hkind]

end DumpOptions

/-- Every node of a tree that parsing gives shows what is read off from it. -/
theorem shows_of_parse {stream : TokenStream} {limits : Limits} {t : Tree} {id : NodeId}
    (h : parse stream limits = .ok t) (hid : id.index < t.size) :
    t.Shows id (t.construct id) ∧ (t.construct id).count ≤ t.size := by
  obtain ⟨r, xs, -, hloose, hsize⟩ := parse_loose h
  have hcount : (Construct.mk .compilationUnit stream.unitSpan xs).count ≤ t.size := by
    rw [Construct.count, hsize]
  have hreached := (hloose.rooted rfl hsize.symm).reached
  obtain ⟨x, hx, hshows⟩ := hloose.shows.exists_within hcount ((hreached id).mpr hid)
  have hle := hx.count_le.trans hcount
  rw [hshows.construct_eq hle]
  exact ⟨hshows, hle⟩

variable {source source' : String} {limits limits' : Limits} {t t' : Tree} {id id' : NodeId}
  {options : DumpOptions}

theorem shows_of_parseSource (h : parseSource source limits = .ok t) (hid : id.index < t.size) :
    t.Shows id (t.construct id) ∧ (t.construct id).count ≤ t.size := by
  simp only [parseSource] at h
  split at h
  · cases h
  · exact shows_of_parse h hid

/-- Entries with the same lines are the same up to places. -/
theorem map_sketch_eq (hindent : 1 ≤ options.indent) (hspans : options.showSpans = false)
    {es es' : List (Nat × Construct)} (hes : ∀ e ∈ es, e.2.kind.IsExact)
    (hes' : ∀ e ∈ es', e.2.kind.IsExact) (h : es.map options.line = es'.map options.line) :
    es.map Construct.sketch = es'.map Construct.sketch := by
  induction es generalizing es' with
  | nil =>
    rw [List.map_nil, eq_comm, List.map_eq_nil_iff] at h
    rw [h]
  | cons e es ih =>
    cases es' with
    | nil => cases h
    | cons e' es' =>
      obtain ⟨hline, hlines⟩ := List.cons.inj h
      have hsketch := DumpOptions.line_inj hindent hspans (hes e List.mem_cons_self)
        (hes' e' List.mem_cons_self) hline
      have hrest := ih (fun x hx => hes x (List.mem_cons_of_mem _ hx))
        (fun x hx => hes' x (List.mem_cons_of_mem _ hx)) hlines
      rw [List.map_cons, List.map_cons, hsketch, hrest]

/-- Two subtrees without floating-point literals that are dumped alike are the same up to places. -/
theorem bare_of_dumpLines (h : parseSource source limits = .ok t)
    (h' : parseSource source' limits' = .ok t') (hid : id.index < t.size)
    (hid' : id'.index < t'.size) (hindent : 1 ≤ options.indent)
    (hspans : options.showSpans = false)
    (hexact : (t.construct id).Everywhere fun x => x.kind.IsExact)
    (hexact' : (t'.construct id').Everywhere fun x => x.kind.IsExact)
    (hlines : t.dumpLines id options = t'.dumpLines id' options) :
    (t.construct id).bare = (t'.construct id').bare := by
  obtain ⟨hshows, hsize⟩ := shows_of_parseSource h hid
  obtain ⟨hshows', hsize'⟩ := shows_of_parseSource h' hid'
  rw [hshows.dumpLines_eq hsize, hshows'.dumpLines_eq hsize'] at hlines
  have hentries := (Construct.everywhere_iff_outline 0).mp hexact
  have hentries' := (Construct.everywhere_iff_outline 0).mp hexact'
  apply Construct.bare_inj_of_outline
  exact map_sketch_eq hindent hspans hentries hentries' hlines

/-- A function with a flag, a mark among the characters and a long integer, in two layouts and behind
different declarations. -/
theorem bare_of_layouts : ∃ t t',
    parseSource "module m\nlocal function f = |a...| -> [a, '\\'', 1_0_L]" {} = .ok t ∧
    parseSource "module m\nimport n\nlocal function f = |a...|->[(a),\n'\\'', 10_L]\n" {} = .ok t' ∧
    (t.construct ⟨2⟩).bare = (t'.construct ⟨3⟩).bare := by
  have hparse :
      ((parseSource "module m\nlocal function f = |a...| -> [a, '\\'', 1_0_L]" {}).toOption.bind fun t =>
        (parseSource "module m\nimport n\nlocal function f = |a...|->[(a),\n'\\'', 10_L]\n"
          {}).toOption.map fun t' => decide (2 < t.size ∧ 3 < t'.size ∧
            (∀ e ∈ (t.construct ⟨2⟩).outline 0, e.2.kind.IsExact) ∧
            (∀ e ∈ (t'.construct ⟨3⟩).outline 0, e.2.kind.IsExact) ∧
            t.dumpLines ⟨2⟩ {} = t'.dumpLines ⟨3⟩ {})) = some true := by
    decide +kernel
  cases h : parseSource "module m\nlocal function f = |a...| -> [a, '\\'', 1_0_L]" {} with
  | error e =>
    rw [h] at hparse
    cases hparse
  | ok t =>
    cases h' : parseSource
        "module m\nimport n\nlocal function f = |a...|->[(a),\n'\\'', 10_L]\n" {} with
    | error e =>
      rw [h, h'] at hparse
      cases hparse
    | ok t' =>
      rw [h, h'] at hparse
      obtain ⟨hid, hid', hexact, hexact', hlines⟩ := of_decide_eq_true (Option.some.inj hparse)
      exact ⟨t, t', rfl, rfl, bare_of_dumpLines h h' hid hid' (by decide) rfl
        ((Construct.everywhere_iff_outline 0).mpr hexact)
        ((Construct.everywhere_iff_outline 0).mpr hexact') hlines⟩

end GoloSyntax
