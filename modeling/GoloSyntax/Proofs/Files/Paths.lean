import GoloSyntax.Files.Discovery
import GoloSyntax.Proofs.Text.Splitting
import Mathlib.Data.List.Lex

/-! # The components of paths

Paths are compared component by component, not as texts: a directory `a` comes in front of a file
`a.golo` with everything that is in it, although `.` comes in front of `/`.  The components of a path
are its names, without the empty ones and without `.`, except at the beginning of a relative path
(`components`).  A name that is joined to a path is one more component (`components_foldl_joinPath`),
and so paths below one root are in the order of the names that lead to them
(`pathPrecedes_foldl`).
-/
namespace GoloSyntax

/-! ## The order of paths -/

theorem pathLE_trans (p q r : List String) (hpq : pathLE p q) (hqr : pathLE q r) :
    pathLE p r := by
  have hle : ¬ r < p :=
    @List.le_trans String _ _ _ _ p q r (of_decide_eq_true hpq) (of_decide_eq_true hqr)
  exact decide_eq_true hle

theorem pathLE_total (p q : List String) : pathLE p q || pathLE q p := by
  rw [Bool.or_eq_true]
  have htotal : ¬ q < p ∨ ¬ p < q := @List.le_total String _ _ p q
  exact htotal.imp (fun hle => decide_eq_true hle) fun hle => decide_eq_true hle

theorem pathLE_antisymm {p q : List String} (hpq : pathLE p q) (hqp : pathLE q p) : p = q :=
  @List.le_antisymm String _ _ p q (of_decide_eq_true hpq) (of_decide_eq_true hqp)

theorem lt_of_pathLE_of_ne {p q : List String} (h : pathLE p q) (hne : p ≠ q) : p < q := by
  by_contra hlt
  exact hne (pathLE_antisymm h (decide_eq_true hlt))

/-- There is one order in which a list of ways is sorted. -/
theorem mergeSort_pathLE_eq {ways sorted : List (List String)} (hperm : ways.Perm sorted)
    (hsorted : sorted.Pairwise fun p q => pathLE p q) : ways.mergeSort pathLE = sorted :=
  List.Perm.eq_of_pairwise (fun _ _ _ _ => pathLE_antisymm)
    (List.pairwise_mergeSort pathLE_trans pathLE_total _) hsorted
    ((List.mergeSort_perm _ _).trans hperm)

/-! ## Names -/

/-- A name that a directory can give to an entry. -/
structure IsEntryName (name : String) : Prop where
  ne_empty : name ≠ ""
  ne_current : name ≠ "."
  ne_parent : name ≠ ".."
  no_slash : '/' ∉ name.toList

instance (name : String) : Decidable (IsEntryName name) :=
  decidable_of_iff (name ≠ "" ∧ name ≠ "." ∧ name ≠ ".." ∧ '/' ∉ name.toList)
    ⟨fun ⟨hempty, hcurrent, hparent, hslash⟩ => ⟨hempty, hcurrent, hparent, hslash⟩,
      fun ⟨hempty, hcurrent, hparent, hslash⟩ => ⟨hempty, hcurrent, hparent, hslash⟩⟩

/-- The name has the extension of source files, behind a stem that is not empty. -/
def HasSourceExtension (name : String) : Prop := ∃ stem, stem ≠ "" ∧ name = stem ++ ".golo"

theorem isSourceName_iff (name : String) : isSourceName name ↔ HasSourceExtension name := by
  rw [isSourceName, Bool.and_eq_true, List.isSuffixOf_iff_suffix, decide_eq_true_eq]
  constructor
  · rintro ⟨⟨stem, hstem⟩, hlength⟩
    refine ⟨String.ofList stem, ?_, ?_⟩
    · rintro hempty
      have hnil : stem = [] := by simpa using congrArg String.toList hempty
      rw [hnil, List.nil_append] at hstem
      rw [← String.length_toList, ← hstem] at hlength
      exact absurd hlength (Nat.lt_irrefl _)
    · apply String.toList_inj.mp
      rw [String.toList_append, String.toList_ofList]
      exact hstem.symm
  · rintro ⟨stem, hne, rfl⟩
    refine ⟨⟨stem.toList, by rw [String.toList_append]; rfl⟩, ?_⟩
    have hpos : 0 < stem.length := Nat.pos_of_ne_zero fun hzero => hne (by simpa using hzero)
    rw [String.length_append]
    show 5 < stem.length + 5
    omega

/-! ## Components -/

/-- What a path is made of. -/
inductive PathComponent where
  | rootDirectory
  | currentDirectory
  | parentDirectory
  | normal (name : String)
deriving DecidableEq, Repr

namespace PathComponent

/-- The component that a segment stands for, if any. -/
def ofSegment? (segment : String) : Option PathComponent :=
  if segment = "" ∨ segment = "." then none
  else if segment = ".." then some parentDirectory
  else some (normal segment)

/-- The kinds of components in their order. -/
def rank : PathComponent → Nat
  | rootDirectory => 0
  | currentDirectory => 1
  | parentDirectory => 2
  | normal _ => 3

/-- Whether a component comes before another one.  The order of names by characters is that by the
bytes of UTF-8. -/
def Before : PathComponent → PathComponent → Prop
  | normal a, normal b => a < b
  | a, b => a.rank < b.rank

end PathComponent

/-- The components of a path. -/
def components (path : String) : List PathComponent :=
  (if path.toList.head? = some '/' then [.rootDirectory]
    else if (path.splitOn "/").head? = some "." then [.currentDirectory] else []) ++
  (path.splitOn "/").filterMap PathComponent.ofSegment?

/-- Whether a path comes before another one, component by component. -/
def PathPrecedes (p q : String) : Prop :=
  List.Lex PathComponent.Before (components p) (components q)

theorem PathComponent.ofSegment?_eq_normal {segment : String} (hempty : segment ≠ "")
    (hcurrent : segment ≠ ".") (hparent : segment ≠ "..") :
    ofSegment? segment = some (normal segment) := by
  rw [ofSegment?, if_neg (not_or.mpr ⟨hempty, hcurrent⟩), if_neg hparent]

theorem IsEntryName.ofSegment?_eq {name : String} (h : IsEntryName name) :
    PathComponent.ofSegment? name = some (.normal name) :=
  PathComponent.ofSegment?_eq_normal h.ne_empty h.ne_current h.ne_parent

/-- A path that ends in a name has it as its last component. -/
theorem getLast?_components {path : String} (h : IsEntryName (lastName path)) :
    (components path).getLast? = some (.normal (lastName path)) := by
  obtain ⟨name, hlast⟩ :=
    Option.isSome_iff_exists.mp (List.getLast?_isSome.mpr (splitOn_slash_ne_nil path))
  obtain ⟨front, hsplit⟩ := List.getLast?_eq_some_iff.mp hlast
  have hname : lastName path = name := by
    rw [lastName, hlast, Option.getD_some]
  rw [hname] at h ⊢
  rw [components, hsplit, List.filterMap_append,
    List.filterMap_cons_some h.ofSegment?_eq, List.filterMap_nil, ← List.append_assoc,
    List.getLast?_concat]

/-- The components behind a slash come after those up to the slash. -/
theorem components_append_slash (path : String) {segment : String} (h : '/' ∉ segment.toList) :
    components (path ++ "/" ++ segment) =
      components (path ++ "/") ++ (PathComponent.ofSegment? segment).toList := by
  have hslash : path ++ "/" = path ++ "/" ++ "" := String.append_empty.symm
  have hsplit : (path ++ "/").splitOn "/" = path.splitOn "/" ++ [""] := by
    rw [hslash, splitOn_append_slash path (by decide)]
  have hhead : (path ++ "/" ++ segment).toList.head? = (path ++ "/").toList.head? := by
    rw [String.toList_append]
    exact List.head?_append_of_ne_nil _ (by simp)
  have hfirst (last : String) : (path.splitOn "/" ++ [last]).head? = (path.splitOn "/").head? :=
    List.head?_append_of_ne_nil _ (splitOn_slash_ne_nil path)
  have hnone : [""].filterMap PathComponent.ofSegment? = [] := rfl
  have hlast : [segment].filterMap PathComponent.ofSegment? =
      (PathComponent.ofSegment? segment).toList := by
    cases hsegment : PathComponent.ofSegment? segment with
    | none => rw [List.filterMap_cons_none hsegment]; rfl
    | some c => rw [List.filterMap_cons_some hsegment]; rfl
  rw [components, components, hhead, splitOn_append_slash path h, hsplit, hfirst, hfirst,
    List.filterMap_append, List.filterMap_append, hnone, hlast, List.append_nil,
    List.append_assoc]

/-- A slash at the end adds nothing to a path. -/
theorem components_slash {path : String} (hpath : path ≠ "") :
    components (path ++ "/") = components path := by
  have hsplit : (path ++ "/").splitOn "/" = path.splitOn "/" ++ [""] := by
    rw [← splitOn_append_slash path (by decide), String.append_empty]
  have hhead : (path ++ "/").toList.head? = path.toList.head? := by
    rw [String.toList_append]
    exact List.head?_append_of_ne_nil _ (mt String.toList_eq_nil_iff.mp hpath)
  rw [components, components, hhead, hsplit,
    List.head?_append_of_ne_nil _ (splitOn_slash_ne_nil path), List.filterMap_append,
    List.filterMap_cons_none (by rfl), List.filterMap_nil, List.append_nil]

/-- A name that is joined to a path is one more component. -/
theorem components_joinPath {path name : String} (hpath : path ≠ "") (h : IsEntryName name) :
    components (joinPath path name) = components path ++ [.normal name] := by
  rw [joinPath]
  split
  · next hlast =>
    obtain ⟨front, hfront⟩ := List.getLast?_eq_some_iff.mp hlast
    obtain rfl : path = String.ofList front ++ "/" := by
      apply String.toList_inj.mp
      simp [hfront]
    rw [components_append_slash _ h.no_slash, h.ofSegment?_eq]
    rfl
  · rw [components_append_slash _ h.no_slash, components_slash hpath, h.ofSegment?_eq]
    rfl

theorem joinPath_ne_empty (path : String) {name : String} (h : name ≠ "") :
    joinPath path name ≠ "" := by
  rw [joinPath]
  split <;> simp [h]

/-- Names that are joined to a path one after the other are so many more components. -/
theorem components_foldl_joinPath {path : String} (hpath : path ≠ "") {names : List String}
    (h : ∀ name ∈ names, IsEntryName name) :
    components (names.foldl joinPath path) = components path ++ names.map .normal := by
  induction names generalizing path with
  | nil => simp
  | cons name names ih =>
    obtain ⟨hname, hnames⟩ := List.forall_mem_cons.mp h
    rw [List.foldl_cons, ih (joinPath_ne_empty path hname.ne_empty) hnames,
      components_joinPath hpath hname]
    simp

/-- Paths below one root are in the order of the names that lead to them. -/
theorem pathPrecedes_foldl {root : String} (hroot : root ≠ "") {names names' : List String}
    (h : ∀ name ∈ names, IsEntryName name) (h' : ∀ name ∈ names', IsEntryName name)
    (hlt : names < names') :
    PathPrecedes (names.foldl joinPath root) (names'.foldl joinPath root) := by
  rw [PathPrecedes, components_foldl_joinPath hroot h, components_foldl_joinPath hroot h']
  apply List.Lex.append_left
  induction hlt with
  | nil => exact .nil
  | rel hlt => exact .rel hlt
  | cons hlt ih =>
    obtain ⟨-, hnames⟩ := List.forall_mem_cons.mp h
    obtain ⟨-, hnames'⟩ := List.forall_mem_cons.mp h'
    exact .cons (ih hnames hnames')

/-- No two ways down from a root are the same path. -/
theorem foldl_joinPath_inj {root : String} (hroot : root ≠ "") {names names' : List String}
    (h : ∀ name ∈ names, IsEntryName name) (h' : ∀ name ∈ names', IsEntryName name)
    (heq : names.foldl joinPath root = names'.foldl joinPath root) : names = names' := by
  have hcomponents := congrArg components heq
  rw [components_foldl_joinPath hroot h, components_foldl_joinPath hroot h'] at hcomponents
  refine List.map_injective_iff.mpr ?_ (List.append_cancel_left hcomponents)
  intro a b hab
  exact PathComponent.normal.inj hab

end GoloSyntax
