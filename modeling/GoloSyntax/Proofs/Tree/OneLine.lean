import GoloSyntax.Proofs.Text.OneLine
import GoloSyntax.Proofs.Tree.Outline
import GoloSyntax.Proofs.Tree.Rendering

/-! # Lines of dumps

A node is written on one line if its name is one (`NodeKind.isOneLine_render`): the labels, the
operators and the words are short texts of their own, and a literal escapes what would end the line
(`Literal.isOneLine_render`).  The prefix and the name are therefore the only ways for a line feed
to come into a line of a dump (`DumpOptions.isOneLine_line`).
-/
namespace GoloSyntax

theorem Literal.isOneLine_render (value : Literal) : isOneLine value.render := by
  cases value with
  | null => rfl
  | boolean value => cases value <;> rfl
  | integer value => exact isOneLine_toString_int value
  | long value =>
    rw [render, isOneLine_append, isOneLine_toString_int]
    rfl
  | float value =>
    rw [render, isOneLine_append, FloatFormat.isOneLine_render]
    rfl
  | double value => exact FloatFormat.isOneLine_render .double value
  | character value => exact isOneLine_quoteCharacter value
  | string text => exact isOneLine_quoteText text

namespace NodeKind

/-- The name that a node carries, if it carries one, is one line. -/
def NamedOnOneLine (kind : NodeKind) : Prop := ∀ name, kind.name? = some name → isOneLine name

theorem isOneLine_label (kind : NodeKind) : isOneLine kind.label := by
  have hframes : ∀ frame ∈ frames, isOneLine frame.label = true := by decide +kernel
  rw [← label_frame]
  exact hframes kind.frame kind.frame_mem_frames

theorem isOneLine_modifiers (modifiers : List Modifier) :
    isOneLine ("[" ++ ", ".intercalate (modifiers.map Modifier.word) ++ "]") := by
  have hwords : isOneLine (", ".intercalate (modifiers.map Modifier.word)) := by
    refine isOneLine_intercalate rfl fun word hword => ?_
    obtain ⟨modifier, -, rfl⟩ := List.mem_map.mp hword
    cases modifier <;> rfl
  rw [isOneLine_append, isOneLine_append, hwords]
  rfl

theorem isOneLine_of_mem_details {kind : NodeKind} {word : String} (h : word ∈ kind.details) :
    isOneLine word := by
  unfold details at h
  split at h
  · next op =>
    obtain rfl := List.mem_singleton.mp h
    cases op <;> rfl
  · next op =>
    obtain rfl := List.mem_singleton.mp h
    cases op <;> rfl
  · next type =>
    obtain rfl := List.mem_singleton.mp h
    cases type <;> rfl
  · next value =>
    obtain rfl := List.mem_singleton.mp h
    exact value.isOneLine_render
  · split at h
    · obtain rfl := List.mem_singleton.mp h
      exact isOneLine_modifiers _
    · cases h

theorem isOneLine_render {kind : NodeKind} (h : kind.NamedOnOneLine) : isOneLine kind.render := by
  refine isOneLine_intercalate rfl fun word hword => ?_
  rcases List.mem_append.mp hword with hword | hword
  · rcases List.mem_cons.mp hword with rfl | hword
    · exact kind.isOneLine_label
    · split at hword
      · next name hname =>
        obtain rfl := List.mem_singleton.mp hword
        rw [isOneLine_append, isOneLine_append, h name hname]
        rfl
      · cases hword
  · exact isOneLine_of_mem_details hword

end NodeKind

namespace DumpOptions

theorem toList_blanks (n : Nat) : ("".pushn ' ' n).toList = List.replicate n ' ' := by
  rw [String.pushn_eq_repeat_push]
  induction n with
  | zero => simp [Nat.repeat]
  | succ n ih => simp [Nat.repeat, ih, List.replicate_succ']

/-- A line is the prefix, the blanks for the depth, the label and what is behind it. -/
theorem line_toList (options : DumpOptions) (e : Nat × Construct) :
    (options.line e).toList = options.linePrefix.toList ++
      (List.replicate (e.1 * options.indent) ' ' ++ (e.2.kind.render.toList ++
        if options.showSpans then (" @" ++ e.2.span.display).toList else [])) := by
  cases h : options.showSpans <;> simp [DumpOptions.line, h, toList_blanks]

theorem isOneLine_line {options : DumpOptions} {e : Nat × Construct}
    (hfront : isOneLine options.linePrefix) (hname : e.2.kind.NamedOnOneLine) :
    isOneLine (options.line e) := by
  have hblanks : isOneLine ("".pushn ' ' (e.1 * options.indent)) := by
    rw [isOneLine_iff, toList_blanks]
    simp
  have hspan : isOneLine (if options.showSpans then " @" ++ e.2.span.display else "") := by
    split
    · rw [isOneLine_append, Span.isOneLine_display]
      rfl
    · rfl
  simp only [DumpOptions.line, isOneLine_append, hfront, hblanks, hspan,
    NodeKind.isOneLine_render hname, Bool.and_self]

end DumpOptions

end GoloSyntax
