import GoloSyntax.Proofs.Text.Quoting
import GoloSyntax.Tree.Dump

/-! # What dumps write can be read back

The text of a node in a dump is a label and then words, with a blank in front of each; no label
has a blank in it, so the first blank ends the label (`NodeKind.render_split`).  The label tells
what the node is but for what it carries, its *frame* (`NodeKind.ofLabel?_label`), and within one
frame the words tell the rest: names and texts stand between marks, the flags of a function and
the operators are written in different ways, and the first and last character of a literal that
is not a floating-point number tell its type (`Literal.render_inj`).  So nothing that a node
carries is lost (`NodeKind.render_inj`), floating-point numbers apart.
-/
namespace GoloSyntax

/-! ## Literals -/

namespace Literal

/-- The literal is not a floating-point number. -/
def IsExact : Literal → Prop
  | float _ | double _ => False
  | _ => True

instance : DecidablePred IsExact := fun
  | float _ | double _ => .isFalse id
  | null | boolean _ | integer _ | long _ | character _ | string _ => .isTrue trivial

/-- The types of literals, as a reader of dumps can tell them. -/
inductive Look where
  | null | boolean | character | string | integer | long | floating
deriving DecidableEq

/-- How a literal looks from its first and last character, unless it is a floating-point number. -/
def lookOf (text : List Char) : Look :=
  match text.head? with
  | some 'n' => .null
  | some 't' | some 'f' => .boolean
  | some '\'' => .character
  | some '"' => .string
  | _ => if text.getLast? = some 'L' then .long else .integer

def look : Literal → Look
  | null => .null
  | boolean _ => .boolean
  | character _ => .character
  | string _ => .string
  | integer _ => .integer
  | long _ => .long
  | float _ | double _ => .floating

theorem toString_toList (n : Int) : (toString n).toList =
    if 0 ≤ n then Nat.toDigits 10 n.toNat else '-' :: Nat.toDigits 10 (-n).toNat := by
  rw [show toString n = n.repr from rfl, Int.repr_eq_if]
  split <;> simp [Nat.toList_repr]

theorem toString_ne_nil (n : Int) : (toString n).toList ≠ [] := by
  rw [toString_toList]
  split
  · exact Nat.toDigits_ne_nil
  · exact List.cons_ne_nil _ _

/-- A number in decimal is made of digits and perhaps a sign. -/
theorem mem_toString {n : Int} {c : Char} (h : c ∈ (toString n).toList) :
    c = '-' ∨ c.isDigit = true := by
  have hdigit {k : Nat} (hk : c ∈ Nat.toDigits 10 k) : c.isDigit = true :=
    Nat.isDigit_of_mem_toDigits (by decide) (by decide) hk
  rw [toString_toList] at h
  split at h
  · exact .inr (hdigit h)
  · rcases List.mem_cons.mp h with rfl | h
    · exact .inl rfl
    · exact .inr (hdigit h)

/-- A number is told by how it is written in decimal. -/
theorem toString_inj {m n : Int} (h : toString m = toString n) : m = n := by
  have hdigits {j k : Nat} (hjk : Nat.toDigits 10 j = Nat.toDigits 10 k) : j = k := by
    rw [← Nat.ofDigitChars_ten_toDigits (n := j), hjk, Nat.ofDigitChars_ten_toDigits]
  have hsign {j k : Nat} : Nat.toDigits 10 j ≠ '-' :: Nat.toDigits 10 k := fun hjk => by
    have hmem : '-' ∈ Nat.toDigits 10 j := hjk ▸ List.mem_cons_self
    exact absurd (Nat.isDigit_of_mem_toDigits (by decide) (by decide) hmem) (by decide)
  have hlists := congrArg String.toList h
  rw [toString_toList, toString_toList] at hlists
  split at hlists <;> split at hlists
  · have := hdigits hlists
    omega
  · exact absurd hlists hsign
  · exact absurd hlists.symm hsign
  · have := hdigits (List.cons.inj hlists).2
    omega

/-- A text that begins like a number in decimal looks like a number. -/
theorem lookOf_toString (n : Int) (suffix : List Char) :
    lookOf ((toString n).toList ++ suffix) =
      if ((toString n).toList ++ suffix).getLast? = some 'L' then .long else .integer := by
  obtain ⟨c, cs, hcs⟩ := List.exists_cons_of_ne_nil (toString_ne_nil n)
  have hc : c = '-' ∨ c.isDigit = true := mem_toString (hcs ▸ List.mem_cons_self)
  rw [hcs, lookOf]
  simp only [List.cons_append, List.head?_cons]
  split <;> first | rfl | (rename_i heq; simp_all)

theorem lookOf_render {x : Literal} (hx : x.IsExact) : lookOf x.render.toList = x.look := by
  cases x with
  | null => decide
  | boolean value => cases value <;> decide
  | integer value =>
    have hlast : (toString value).toList.getLast? ≠ some 'L' := fun h => by
      rcases mem_toString (List.mem_of_getLast? h) with h | h <;> exact absurd h (by decide)
    have hlook := lookOf_toString value []
    rw [List.append_nil, if_neg hlast] at hlook
    exact hlook
  | long value =>
    have hlook := lookOf_toString value "_L".toList
    rw [if_pos (by simp)] at hlook
    rw [render, String.toList_append]
    exact hlook
  | character value =>
    rw [render, quoteCharacter, String.toList_append, String.toList_append]
    rfl
  | string text =>
    rw [render, quoteText_toList]
    rfl
  | float _ | double _ => exact hx.elim

/-- A literal that is not a floating-point number is told by how it is written. -/
theorem render_inj {x y : Literal} (hx : x.IsExact) (hy : y.IsExact) (h : x.render = y.render) :
    x = y := by
  have hlook : x.look = y.look := by rw [← lookOf_render hx, ← lookOf_render hy, h]
  cases x with
  | null => cases y with
    | null => rfl
    | _ => cases hlook
  | boolean a => cases y with
    | boolean b => revert h; cases a <;> cases b <;> decide
    | _ => cases hlook
  | integer m => cases y with
    | integer n => rw [toString_inj h]
    | _ => cases hlook
  | long m => cases y with
    | long n =>
      have hlists := congrArg String.toList h
      simp only [render, String.toList_append] at hlists
      rw [toString_inj (String.toList_inj.mp (List.append_cancel_right hlists))]
    | _ => cases hlook
  | character c => cases y with
    | character d => rw [quoteCharacter_injective h]
    | _ => cases hlook
  | string s => cases y with
    | string t => rw [quoteText_injective h]
    | _ => cases hlook
  | float _ | double _ => exact hx.elim

end Literal

/-! ## Nodes -/

/-- What nodes of the various kinds carry. -/
structure NodeData where
  name : String := ""
  isLocal : Bool := false
  varargs : Bool := false
  compact : Bool := false
  binary : BinaryOperator := default
  unary : UnaryOperator := default
  type : CollectionKind := default
  value : Literal := .null

namespace NodeKind

/-- The node is not a floating-point literal. -/
def IsExact : NodeKind → Prop
  | literal value => value.IsExact
  | _ => True

instance : DecidablePred IsExact := fun kind =>
  match kind with
  | literal value => inferInstanceAs (Decidable value.IsExact)
  | _ => by unfold IsExact; split <;> infer_instance

/-- The same kind of node, carrying something else. -/
def withData (kind : NodeKind) (d : NodeData) : NodeKind :=
  match kind with
  | module_ _ => module_ d.name
  | import_ _ => import_ d.name
  | functionDeclaration .. => functionDeclaration d.name d.isLocal
  | function .. => function d.varargs d.compact
  | parameter _ => parameter d.name
  | augmentation _ => augmentation d.name
  | struct _ => struct d.name
  | member _ => member d.name
  | letOrVar _ isMutable => letOrVar d.name isMutable
  | assignment _ => assignment d.name
  | forEach _ => forEach d.name
  | catch_ _ => catch_ d.name
  | binary _ => binary d.binary
  | unary _ => unary d.unary
  | functionInvocation _ => functionInvocation d.name
  | methodInvocation _ => methodInvocation d.name
  | reference _ => reference d.name
  | functionRef _ => functionRef d.name
  | classLiteral _ => classLiteral d.name
  | collection _ => collection d.type
  | literal _ => literal d.value
  | kind => kind

/-- What the node carries. -/
def data : NodeKind → NodeData
  | functionDeclaration name isLocal => { name, isLocal }
  | function varargs compact => { varargs, compact }
  | binary op => { binary := op }
  | unary op => { unary := op }
  | collection type => { type }
  | literal value => { value }
  | kind => { name := kind.name?.getD "" }

/-- The kind of node without what it carries. -/
def frame (kind : NodeKind) : NodeKind := kind.withData {}

theorem frame_withData (kind : NodeKind) : kind.frame.withData kind.data = kind := by
  cases kind <;> rfl

def frames : List NodeKind :=
  [compilationUnit, module_ "", import_ "", functionDeclaration "" false, function false false,
    parameter "", augmentation "", struct "", member "", block, letOrVar "" false,
    letOrVar "" true, assignment "", return_, throw, if_, while_, for_, forEach "", try_,
    catch_ "", finally_, case_, when_, otherwise, break_, continue_, match_, binary default,
    unary default, functionInvocation "", methodInvocation "", anonymousCall, reference "",
    functionRef "", classLiteral "", collection default, literal .null]

theorem frame_mem_frames (kind : NodeKind) : kind.frame ∈ frames := by
  cases kind with
  | letOrVar name isMutable => cases isMutable <;> simp [frame, withData, frames]
  | _ => simp [frame, withData, frames]

theorem label_frame (kind : NodeKind) : kind.frame.label = kind.label := by
  cases kind with
  | letOrVar name isMutable => cases isMutable <;> rfl
  | _ => rfl

/-- The frame with a given label. -/
def ofLabel? (label : String) : Option NodeKind := frames.find? (·.label == label)

/-- The label of a node tells everything but what the node carries. -/
theorem ofLabel?_label (kind : NodeKind) : ofLabel? kind.label = some kind.frame := by
  have hframes : ∀ frame ∈ frames, ofLabel? frame.label = some frame := by decide +kernel
  rw [← label_frame]
  exact hframes kind.frame kind.frame_mem_frames

theorem label_ne_nil (kind : NodeKind) : kind.label.toList ≠ [] := by
  have hframes : ∀ frame ∈ frames, frame.label.toList ≠ [] := by decide +kernel
  rw [← label_frame]
  exact hframes kind.frame kind.frame_mem_frames

theorem blank_not_mem_label (kind : NodeKind) : ' ' ∉ kind.label.toList := by
  have hframes : ∀ frame ∈ frames, ' ' ∉ frame.label.toList := by decide +kernel
  rw [← label_frame]
  exact hframes kind.frame kind.frame_mem_frames

/-- The name in front of the details, in marks, if the node has one. -/
def quotedName (kind : NodeKind) : List String :=
  match kind.name? with
  | some name => ["'" ++ name ++ "'"]
  | none => []

/-- What stands behind the label, a blank in front of each word. -/
def tail (kind : NodeKind) : List Char :=
  (kind.quotedName ++ kind.details).flatMap fun word => ' ' :: word.toList

theorem toList_intercalate (word : String) (words : List String) :
    (" ".intercalate (word :: words)).toList =
      word.toList ++ words.flatMap fun w => ' ' :: w.toList := by
  induction words generalizing word with
  | nil => simp
  | cons w ws ih =>
    rw [String.intercalate_cons_cons, String.toList_append, ih, String.toList_append,
      List.flatMap_cons, List.append_assoc]
    rfl

theorem render_toList (kind : NodeKind) : kind.render.toList = kind.label.toList ++ kind.tail :=
  toList_intercalate kind.label (kind.quotedName ++ kind.details)

/-- Behind the label stands nothing or a blank. -/
theorem tail_eq (kind : NodeKind) : kind.tail = [] ∨ ∃ rest, kind.tail = ' ' :: rest := by
  rw [tail]
  cases kind.quotedName ++ kind.details with
  | nil => exact .inl rfl
  | cons word words => exact .inr ⟨_, List.cons_append⟩

/-- The first blank ends the label. -/
theorem render_split (kind : NodeKind) :
    kind.render.toList.takeWhile (· ≠ ' ') = kind.label.toList ∧
      kind.render.toList.dropWhile (· ≠ ' ') = kind.tail := by
  have hlabel : ∀ c ∈ kind.label.toList, decide (c ≠ ' ') = true := fun c hc =>
    decide_eq_true fun h => kind.blank_not_mem_label (h ▸ hc)
  rw [render_toList, List.takeWhile_append_of_pos hlabel, List.dropWhile_append_of_pos hlabel]
  rcases kind.tail_eq with h | ⟨rest, h⟩ <;> simp [h]

theorem BinaryOperator.spelling_inj {a b : BinaryOperator} (h : a.spelling = b.spelling) :
    a = b := by
  cases a <;> cases b <;> first | rfl | exact absurd h (by decide)

theorem UnaryOperator.spelling_inj {a b : UnaryOperator} (h : a.spelling = b.spelling) : a = b := by
  cases a <;> cases b <;> first | rfl | exact absurd h (by decide)

theorem CollectionKind.word_inj {a b : CollectionKind} (h : a.word = b.word) : a = b :=
  Option.some.inj (by rw [← CollectionKind.ofWord?_word a, h, CollectionKind.ofWord?_word])

/-- The text of a node does not begin with a blank. -/
theorem render_ne_blank (kind : NodeKind) (rest : List Char) : kind.render.toList ≠ ' ' :: rest := by
  intro h
  have hlabel := kind.render_split.1
  rw [h] at hlabel
  exact kind.label_ne_nil (by simpa using hlabel.symm)

/-- The name of a function declaration ends with an apostrophe, and its flag with a bracket. -/
theorem declaration_tail_inj {a b : String} {isLocal isLocal' : Bool}
    (h : (functionDeclaration a isLocal).tail = (functionDeclaration b isLocal').tail) :
    a = b ∧ isLocal = isLocal' := by
  have hshort (name : String) : (functionDeclaration name false).tail =
      ' ' :: '\'' :: name.toList ++ ['\''] := by
    simp [tail, quotedName, name?, details, modifiers?]
  have hlong (name : String) : (functionDeclaration name true).tail =
      ' ' :: '\'' :: name.toList ++ "' [local".toList ++ [']'] := by
    simp [tail, quotedName, name?, details, modifiers?, Modifier.word]
  cases isLocal with
  | false => cases isLocal' with
    | false => simpa [hshort, String.toList_inj] using h
    | true =>
      rw [hshort, hlong] at h
      exact absurd (List.append_inj' h rfl).2 (by decide)
  | true => cases isLocal' with
    | false =>
      rw [hshort, hlong] at h
      exact absurd (List.append_inj' h rfl).2 (by decide)
    | true => simpa [hlong, String.toList_inj] using h

/-- Within one frame, what stands behind the label tells what the node carries. -/
theorem withData_inj {frame : NodeKind} {d e : NodeData} (hd : (frame.withData d).IsExact)
    (he : (frame.withData e).IsExact) (h : (frame.withData d).tail = (frame.withData e).tail) :
    frame.withData d = frame.withData e := by
  cases frame with
  | module_ _ | import_ _ | parameter _ | augmentation _ | struct _ | member _ | letOrVar _ _
  | assignment _ | forEach _ | catch_ _ | functionInvocation _ | methodInvocation _
  | reference _ | functionRef _ | classLiteral _ =>
    simpa [withData, tail, quotedName, name?, details, modifiers?, String.toList_inj] using h
  | functionDeclaration _ _ =>
    obtain ⟨hname, hlocal⟩ := declaration_tail_inj h
    simp only [withData, hname, hlocal]
  | function _ _ =>
    revert h
    simp only [withData]
    generalize d.varargs = v, d.compact = c, e.varargs = v', e.compact = c'
    revert v c v' c'
    decide
  | binary _ =>
    have hop : d.binary.spelling = e.binary.spelling := by
      simpa [withData, tail, quotedName, name?, details, String.toList_inj] using h
    simp only [withData, BinaryOperator.spelling_inj hop]
  | unary _ =>
    have hop : d.unary.spelling = e.unary.spelling := by
      simpa [withData, tail, quotedName, name?, details, String.toList_inj] using h
    simp only [withData, UnaryOperator.spelling_inj hop]
  | collection _ =>
    have htype : d.type.word = e.type.word := by
      simpa [withData, tail, quotedName, name?, details, String.toList_inj] using h
    simp only [withData, CollectionKind.word_inj htype]
  | literal _ =>
    have hvalue : d.value.render = e.value.render := by
      simpa [withData, tail, quotedName, name?, details, String.toList_inj] using h
    simp only [withData, Literal.render_inj hd he hvalue]
  | _ => rfl

theorem render_inj {kind other : NodeKind} (hkind : kind.IsExact) (hother : other.IsExact)
    (h : kind.render = other.render) : kind = other := by
  obtain ⟨hlabel, htail⟩ := kind.render_split
  obtain ⟨hlabel', htail'⟩ := other.render_split
  rw [h] at hlabel htail
  have hframe : kind.frame = other.frame := by
    have heq : kind.label = other.label := String.toList_inj.mp (hlabel.symm.trans hlabel')
    have hsome := kind.ofLabel?_label
    rw [heq, ofLabel?_label] at hsome
    exact (Option.some.inj hsome).symm
  have hk : other.frame.withData kind.data = kind := hframe ▸ kind.frame_withData
  have ho := other.frame_withData
  have hboth := withData_inj (hk.symm ▸ hkind) (ho.symm ▸ hother)
    (by rw [hk, ho]; exact htail.symm.trans htail')
  rwa [hk, ho] at hboth

end NodeKind

end GoloSyntax
