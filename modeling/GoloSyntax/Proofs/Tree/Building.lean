import GoloSyntax.Proofs.Tree.Construct

/-! # What building does to the loose nodes

Three ways in which one tree comes out of another, each of them about one node.  The
node is there before and gains parts at its end (`Tree.Filled`); it gains parts and is
ended, which settles its kind and span (`Tree.Closed`); or it is new, and shows a whole
construct (`Tree.Given`).  A fourth one turns a loose node into the first part of a new
one (`Tree.Extended`).  Other loose nodes stay what they are.
-/
namespace GoloSyntax

namespace Tree

variable {t t' t'' : Tree} {node c left id : NodeId} {kind kind' : NodeKind} {span : Span}
  {x y : Construct} {xs ys : List Construct}

/-- The loose node `node` gains the parts `xs`. -/
structure Filled (node : NodeId) (t t' : Tree) (xs : List Construct) : Prop where
  size : t'.size = t.size + Construct.countAll xs
  loose : ∀ {kind span parts}, t.Loose node (.mk kind span parts) →
    t'.Loose node (.mk kind span (parts ++ xs)) ∧ ∀ q z, q ≠ node → t.Loose q z → t'.Loose q z

/-- The loose node `node`, of a given kind, gains the parts of `x` and then the kind and
span of `x`. -/
structure Closed (node : NodeId) (kind : NodeKind) (t t' : Tree) (x : Construct) : Prop where
  size : t'.size = t.size + Construct.countAll x.parts
  loose : ∀ {span parts}, t.Loose node (.mk kind span parts) →
    t'.Loose node (.mk x.kind x.span (parts ++ x.parts)) ∧
      ∀ q z, q ≠ node → t.Loose q z → t'.Loose q z

/-- `id` is a new loose node that shows `x`. -/
structure Given (id : NodeId) (t t' : Tree) (x : Construct) : Prop where
  size : t'.size = t.size + x.count
  fresh : t.size ≤ id.index
  loose : t'.Loose id x
  others : ∀ q z, t.Loose q z → t'.Loose q z

/-- The loose node `left`, which shows `y`, is left alone or becomes a part of a new loose
node; the outcome is `id` and shows `x`. -/
structure Extended (left : NodeId) (y : Construct) (id : NodeId) (t t' : Tree) (x : Construct) :
    Prop where
  size : t'.size + y.count = t.size + x.count
  loose : t.Loose left y → t'.Loose id x ∧ (∀ q z, q ≠ left → t.Loose q z → t'.Loose q z) ∧
    (id = left ∨ t.size ≤ id.index)

/-- A loose node is none of those still to be made. -/
theorem Loose.ne_of_fresh (h : t.Loose node x) (hid : t.size ≤ id.index) : node ≠ id := by
  have := h.shows.index_lt
  rintro rfl
  omega

theorem Loose.of_nodes (h : t.Loose node x) (hnodes : t'.nodes = t.nodes) : t'.Loose node x := by
  have hsame : ∀ i, t'.node? i = t.node? i := fun i => by simp only [node?, hnodes]
  have hne : node ≠ ⟨t.size⟩ := h.ne_of_fresh (Nat.le_refl _)
  have hp : (t.node ⟨t.size⟩).parent = none := by
    by_contra hpar
    exact absurd (index_lt (node?_of_parent hpar)) (by simp)
  exact h.of_sameBelow hp (fun i _ _ => hsame i) hne (hsame node)

theorem Given.of_nodes (h : t'.Given id t'' x) (hnodes : t'.nodes = t.nodes) :
    t.Given id t'' x := by
  have hsize : t'.size = t.size := by simp [Tree.size, hnodes]
  exact ⟨hsize ▸ h.size, hsize ▸ h.fresh, h.loose, fun q z hz => h.others q z (hz.of_nodes hnodes)⟩

theorem Given.with_nodes (h : t.Given id t' x) (hnodes : t''.nodes = t'.nodes) :
    t.Given id t'' x := by
  have hsize : t''.size = t'.size := by simp [Tree.size, hnodes]
  exact ⟨hsize ▸ h.size, h.fresh, h.loose.of_nodes hnodes,
    fun q z hz => (h.others q z hz).of_nodes hnodes⟩

theorem Extended.of_nodes (h : t'.Extended left y id t'' x) (hnodes : t'.nodes = t.nodes) :
    t.Extended left y id t'' x := by
  have hsize : t'.size = t.size := by simp [Tree.size, hnodes]
  refine ⟨hsize ▸ h.size, fun hl => ?_⟩
  obtain ⟨hid, hother, hfresh⟩ := h.loose (hl.of_nodes hnodes)
  exact ⟨hid, fun q z hq hz => hother q z hq (hz.of_nodes hnodes), hsize ▸ hfresh⟩

/-! ## Parts -/

theorem Filled.of_nodes (node : NodeId) (hnodes : t'.nodes = t.nodes) : t.Filled node t' [] :=
  ⟨by simp [Tree.size, hnodes, Construct.countAll],
    fun h => ⟨by simpa using h.of_nodes hnodes, fun _ _ _ hq => hq.of_nodes hnodes⟩⟩

theorem Filled.trans (h : t.Filled node t' xs) (h' : t'.Filled node t'' ys) :
    t.Filled node t'' (xs ++ ys) := by
  refine ⟨by rw [h'.size, h.size, Construct.countAll_append]; omega, fun hn => ?_⟩
  obtain ⟨hn', hother⟩ := h.loose hn
  obtain ⟨hn'', hother'⟩ := h'.loose hn'
  exact ⟨by simpa using hn'', fun q z hq hz => hother' q z hq (hother q z hq hz)⟩

/-- A new node becomes the last part of an older one. -/
theorem Given.attach (h : t.Given c t' x) : t.Filled node (t'.attach node c) [x] := by
  refine ⟨by simp [h.size, Construct.countAll], fun hn => ?_⟩
  have hne : node ≠ c := hn.ne_of_fresh h.fresh
  have hn' := h.others _ _ hn
  exact ⟨hn'.attach h.loose hne, fun q z hq hz =>
    (h.others q z hz).attach_other hn' h.loose hne hq (hz.ne_of_fresh h.fresh)⟩

/-! ## Ending a node -/

theorem Filled.closed (h : t.Filled node t' xs) (h' : t'.Closed node kind t'' x) :
    t.Closed node kind t'' (.mk x.kind x.span (xs ++ x.parts)) := by
  refine ⟨by rw [h'.size, h.size, Construct.parts_mk, Construct.countAll_append]; omega,
    fun hn => ?_⟩
  obtain ⟨hn', hother⟩ := h.loose hn
  obtain ⟨hn'', hother'⟩ := h'.loose hn'
  exact ⟨by simpa using hn'',
    fun q z hq hz => hother' q z hq (hother q z hq hz)⟩

theorem closed_setSpan (node : NodeId) (kind : NodeKind) (t : Tree) (span : Span) :
    t.Closed node kind (t.setSpan node span) (.mk kind span []) := by
  refine ⟨by simp [setSpan, Construct.parts, Construct.countAll], fun hn => ⟨?_, ?_⟩⟩
  · simp only [Construct.kind_mk, Construct.span_mk, Construct.parts_mk, List.append_nil]
    exact hn.modify_self fun n hkind _ => by simp [hkind]
  · exact fun q z hq hz => hz.modify_other hn hq _

theorem Closed.of_setKind (h : (t.setKind node kind').Closed node kind' t' x) :
    t.Closed node kind t' x := by
  refine ⟨by simpa [setKind] using h.size, fun {span parts} hn => ?_⟩
  have hn' : (t.setKind node kind').Loose node (.mk kind' span parts) :=
    hn.modify_self fun n _ hspan => by simp [hspan]
  obtain ⟨hn'', hother⟩ := h.loose hn'
  exact ⟨hn'', fun q z hq hz => hother q z hq (hz.modify_other hn hq _)⟩

/-- A node made and then ended is new. -/
theorem Closed.given (h : (t.push kind span).2.Closed (t.push kind span).1 kind t' x) :
    t.Given (t.push kind span).1 t' x := by
  obtain ⟨xkind, xspan, xparts⟩ := x
  obtain ⟨hnew, hother⟩ := h.loose (loose_push t kind span)
  refine ⟨?_, Nat.le_refl _, by simpa using hnew, fun q z hz => ?_⟩
  · rw [h.size, size_push, Construct.parts_mk, Construct.count]
    omega
  · exact hother q z (hz.ne_of_fresh (Nat.le_refl _)) (hz.push kind span)

/-! ## Putting a node under a new one -/

theorem Extended.refl (left : NodeId) (y : Construct) (t : Tree) : t.Extended left y left t y :=
  ⟨rfl, fun h => ⟨h, fun _ _ _ hz => hz, .inl rfl⟩⟩

/-- What a new node is put under is new as well. -/
theorem Given.extended (h : t.Given left t' y) (h' : t'.Extended left y id t'' x) :
    t.Given id t'' x := by
  obtain ⟨hid, hother, hfresh⟩ := h'.loose h.loose
  have hgrow : t.size ≤ t'.size := by
    have := h.size
    omega
  refine ⟨?_, ?_, hid, fun q z hz => ?_⟩
  · have := h.size
    have := h'.size
    omega
  · have := h.fresh
    rcases hfresh with rfl | hf <;> omega
  · exact hother q z (hz.ne_of_fresh h.fresh) (h.others q z hz)

/-- The first part of a new node is one that was there. -/
theorem Closed.extended
    (h : ((t.push kind span).2.attach (t.push kind span).1 left).Closed (t.push kind span).1 kind
      t' x) :
    t.Extended left y (t.push kind span).1 t' (.mk x.kind x.span (y :: x.parts)) := by
  refine ⟨?_, fun hl => ?_⟩
  · have := h.size
    simp only [size_attach, size_push] at this
    simp only [Construct.count, Construct.countAll]
    omega
  · have hfresh : t.size ≤ (t.push kind span).1.index := Nat.le_refl _
    have hne := hl.ne_of_fresh hfresh
    have hnode := loose_push t kind span
    have hl' := hl.push kind span
    obtain ⟨hid, hother⟩ := h.loose (hnode.attach hl' hne.symm)
    refine ⟨by simpa using hid, fun q z hq hz => ?_, .inr hfresh⟩
    exact hother q z (hz.ne_of_fresh hfresh)
      ((hz.push kind span).attach_other hnode hl' hne.symm (hz.ne_of_fresh hfresh) hq)

/-- A node made of an older one and a new one. -/
theorem Given.joined (h : t.Given c t' x) (left : NodeId) (y : Construct) (kind : NodeKind) (span span' : Span) :
    t.Extended left y (t'.push kind span).1
      ((((t'.push kind span).2.attach (t'.push kind span).1 left).attach
        (t'.push kind span).1 c).setSpan (t'.push kind span).1 span')
      (.mk kind span' [y, x]) := by
  refine ⟨?_, fun hl => ?_⟩
  · have := h.size
    simp only [setSpan, size_modify, size_attach, size_push, Construct.count, Construct.countAll]
    omega
  · have hsize : t.size ≤ t'.size := by
      have := h.size
      omega
    have hfresh : t'.size ≤ (t'.push kind span).1.index := Nat.le_refl _
    have hl₁ := h.others _ _ hl
    have hlc : left ≠ c := hl.ne_of_fresh h.fresh
    have hln := hl₁.ne_of_fresh hfresh
    have hcn := h.loose.ne_of_fresh hfresh
    have hnode := loose_push t' kind span
    have hl₂ := hl₁.push kind span
    have hc₂ := h.loose.push kind span
    have hnode₃ := hnode.attach hl₂ hln.symm
    have hc₃ := hc₂.attach_other hnode hl₂ hln.symm hcn hlc.symm
    have hnode₄ := hnode₃.attach hc₃ hcn.symm
    refine ⟨?_, fun q z hq hz => ?_, .inr (Nat.le_trans hsize hfresh)⟩
    · exact hnode₄.modify_self fun n hkind _ => by simp [hkind]
    · have hz₁ := h.others q z hz
      have hqn := hz₁.ne_of_fresh hfresh
      have hqc : q ≠ c := hz.ne_of_fresh h.fresh
      have hz₃ := (hz₁.push kind span).attach_other hnode hl₂ hln.symm hqn hq
      exact (hz₃.attach_other hnode₃ hc₃ hcn.symm hqn hqc).modify_other hnode₄ hqn _

end Tree

end GoloSyntax
