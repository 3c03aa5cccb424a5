import GoloSyntax.Proofs.Grammar.Parts
import GoloSyntax.Proofs.Reading.Parse

/-! # Reading with more room

More levels of nesting and more nodes change nothing but an outcome that blames a limit
(`outcome_of_room`).  What can be read within some limits is therefore read within all those
that reading does not run into (`parse_of_reads`).  Nodes are only ever added, so a tree is also
made within any number of nodes that it does not exceed (`parse_of_size`).

Both compare two runs of one program, and both go through it in the same way
(`Comparison.Composes.run`).
-/
namespace GoloSyntax

/-- Whether a limit of reading is to blame. -/
def ParseFault.isLimit : ParseFault → Bool
  | tooDeep _ | tooManyNodes .. => true
  | _ => false

namespace Reading

variable {c : Context} {depth nodes : Nat} {start : Position} {α β σ : Type} {s s' : State}

/-- The same token list with other limits. -/
def Context.within (c : Context) (depth nodes : Nat) : Context :=
  { c with maxDepth := depth, maxNodes := nodes }

/-! ## Two runs of one program -/

/-- A relation between what comes of two runs of one program from one state. -/
abbrev Comparison : Type 1 :=
  {α : Type} → State → Except ParseError (α × State) → Except ParseError (α × State) → Prop

/-- A comparison that holds of two runs if it holds of each of their steps. -/
structure Comparison.Composes (R : Comparison) : Prop where
  done {α : Type} (s : State) (a : α) : R s (.ok (a, s)) (.ok (a, s))
  fail {α : Type} (s : State) (e : ParseError) : R (α := α) s (.error e) (.error e)
  bind {α β : Type} {s : State} {x x' : Except ParseError (α × State)}
    {f f' : α × State → Except ParseError (β × State)} (hx : R s x x')
    (hf : ∀ a s, R s (f (a, s)) (f' (a, s))) : R s (x.bind f) (x'.bind f')

namespace Comparison.Composes

variable {R : Comparison} (hR : R.Composes)
include hR

theorem iterate {round round' : σ → State → Except ParseError (Round σ β × State)}
    (hround : ∀ x s, R s (round x s) (round' x s)) (n : Nat) (x : σ) (s : State) :
    R s (iterate c round n x s) (iterate (c.within depth nodes) round' n x s) := by
  induction n generalizing x s with
  | zero => exact hR.fail s _
  | succ n ih =>
    rw [iterate_succ, iterate_succ]
    refine hR.bind (hround x s) fun y s => ?_
    cases y with
    | again y => exact ih y s
    | stop a => exact hR.done s a

variable {enter enter' : Rule → Position → State → Except ParseError (NodeId × State)}

theorem run (hperform : ∀ start action s,
      R s (perform c start action s) (perform (c.within depth nodes) start action s))
    (henter : ∀ rule p s, R s (enter rule p s) (enter' rule p s)) (m : Reading α) (s : State) :
    R s (run c enter m start s) (run (c.within depth nodes) enter' m start s) := by
  induction m generalizing start s with
  | done answer => exact hR.done s answer
  | step action next ih =>
    rw [run_step, run_step]
    exact hR.bind (hperform start action s) fun x s => ih x s
  | call rule next ih =>
    rw [run_call, run_call]
    exact hR.bind (henter rule start s) fun id s => ih id s
  | frame body next ihbody ih =>
    rw [run_frame, run_frame]
    exact hR.bind (ihbody s) fun x s => ih x s
  | «repeat» round state next ihround ih =>
    rw [run_repeat, run_repeat]
    exact hR.bind (hR.iterate (fun x s => ihround x s) _ state s) fun x s => ih x s

end Comparison.Composes

/-! ## More room -/

/-- With more room the outcome is the same, unless a limit was to blame for the first one. -/
inductive Roomier {α : Type} : Except ParseError α → Except ParseError α → Prop where
  | same (x : Except ParseError α) : Roomier x x
  | limited {e : ParseError} (h : e.fault.isLimit) (x : Except ParseError α) : Roomier (.error e) x

theorem composes_roomier : Comparison.Composes fun _ x x' => Roomier x x' where
  done _ _ := .same _
  fail _ _ := .same _
  bind {_ _ _ x _ _ _} hx hf := by
    cases hx with
    | same =>
      cases x with
      | error e => exact .same _
      | ok r => exact hf r.1 r.2
    | limited h => exact .limited h _

section Roomier

variable (hnodes : c.maxNodes ≤ nodes)
include hnodes

theorem roomier_perform (start : Position) (action : Step) (s : State) :
    Roomier (perform c start action s) (perform (c.within depth nodes) start action s) := by
  cases action with
  | openNode kind =>
    simp only [perform]
    split
    · exact .limited rfl _
    · next hlt =>
      rw [if_neg (by simp only [Context.within]; omega)]
      exact .same _
  | _ => exact .same _

theorem roomier_enter {levels levels' : Nat} (hle : levels ≤ levels') (rule : Rule) (p : Position)
    (s : State) : Roomier (Rule.enter c levels rule p s)
      (Rule.enter (c.within depth nodes) levels' rule p s) := by
  induction levels generalizing levels' rule p s with
  | zero => exact .limited rfl _
  | succ levels ih =>
    obtain ⟨levels', rfl⟩ := Nat.exists_eq_add_of_lt hle
    exact composes_roomier.run (roomier_perform hnodes) (fun rule p s => ih (by omega) rule p s)
      rule.reading s

end Roomier

/-! ## Fewer nodes -/

/-- If what was built in the end is small enough, then it is also built within fewer nodes. -/
def Fitting (nodes : Nat) : Comparison := fun s x x' => ∀ a s', x = .ok (a, s') →
  s.tree.size ≤ s'.tree.size ∧ (s'.tree.size ≤ nodes → x' = .ok (a, s'))

theorem composes_fitting : Comparison.Composes (Fitting nodes) where
  done s a a' s' h := by
    obtain ⟨rfl, rfl⟩ := Prod.mk.inj (Except.ok.inj h)
    exact ⟨Nat.le_refl _, fun _ => rfl⟩
  fail s e a s' h := by cases h
  bind {_ _ _ x x' f f'} hx hf b s₂ h := by
    cases x with
    | error e => cases h
    | ok r =>
      obtain ⟨a, s₁⟩ := r
      obtain ⟨hle, hfirst⟩ := hx a s₁ rfl
      obtain ⟨hle', hsecond⟩ := hf a s₁ b s₂ h
      refine ⟨Nat.le_trans hle hle', fun hsize => ?_⟩
      rw [hfirst (Nat.le_trans hle' hsize)]
      exact hsecond hsize

theorem fitting_perform (start : Position) (action : Step) (s : State) :
    Fitting nodes s (perform c start action s) (perform (c.within depth nodes) start action s) := by
  intro x s' h
  have hsize := (grows_perform action h).size
  cases action with
  | openNode kind =>
    refine ⟨hsize, fun hle => ?_⟩
    simp only [perform] at h ⊢
    split at h
    · cases h
    · obtain ⟨rfl, rfl⟩ := Prod.mk.inj (Except.ok.inj h)
      simp only [Tree.size_push] at hle
      rw [if_neg (by simp only [Context.within]; omega)]
  | _ => exact ⟨hsize, fun _ => h⟩

theorem fitting_enter (levels : Nat) (rule : Rule) (p : Position) (s : State) :
    Fitting nodes s (Rule.enter c levels rule p s)
      (Rule.enter (c.within depth nodes) levels rule p s) := by
  induction levels generalizing rule p s with
  | zero =>
    intro a s' h
    cases h
  | succ levels ih => exact composes_fitting.run fitting_perform ih rule.reading s

end Reading

open Reading

variable {stream : TokenStream} {limits limits' : Limits} {t : Tree}

/-- A token stream is read the same way within wider limits, unless a limit was to blame. -/
theorem outcome_of_room (hdepth : limits.maxNestingDepth ≤ limits'.maxNestingDepth)
    (hnodes : limits.maxTreeNodes ≤ limits'.maxTreeNodes) :
    Roomier (parse stream limits) (parse stream limits') := by
  have h (s : State) : Roomier
      (Rule.enter (stream.context limits) limits.maxNestingDepth .compilationUnit .start s)
      (Rule.enter (stream.context limits') limits'.maxNestingDepth .compilationUnit .start s) :=
    roomier_enter (c := stream.context limits) hnodes hdepth .compilationUnit .start s
  rw [parse_eq, parse_eq]
  replace h := h ⟨(splitAtEnd stream.tokens).1, .start, .ofSymbols stream.symbols⟩
  revert h
  generalize Rule.enter (stream.context limits) _ _ _ _ = x,
    Rule.enter (stream.context limits') _ _ _ _ = x'
  rintro (_ | ⟨h, _⟩)
  · exact .same _
  · exact .limited h _

/-- A tree is also made within fewer nodes, as long as there are enough for it. -/
theorem parse_of_size (hdepth : limits'.maxNestingDepth = limits.maxNestingDepth)
    (h : parse stream limits = .ok t) (hsize : t.size ≤ limits'.maxTreeNodes) :
    parse stream limits' = .ok t := by
  have hfitting (s : State) : Fitting limits'.maxTreeNodes s
      (Rule.enter (stream.context limits) limits.maxNestingDepth .compilationUnit .start s)
      (Rule.enter (stream.context limits') limits'.maxNestingDepth .compilationUnit .start s) := by
    rw [hdepth]
    exact fitting_enter (c := stream.context limits) _ _ _ s
  rw [parse_eq] at h ⊢
  replace hfitting := hfitting ⟨(splitAtEnd stream.tokens).1, .start, .ofSymbols stream.symbols⟩
  split at h
  · cases h
  · next root s hrun =>
    obtain rfl := Except.ok.inj h
    rw [(hfitting root s hrun).2 (by simpa [Tree.setSpan] using hsize)]

/-- There is always the root, and the node of the module declaration. -/
theorem two_le_size_of_parse (h : parse stream limits = .ok t) : 2 ≤ t.size := by
  obtain ⟨r, xs, hxs, -, hsize⟩ := parse_sound h
  obtain ⟨m, body, kind, xs, alt, -, -, hbody, rfl⟩ := reads_phrase_iff.mp hxs
  cases alt
  obtain ⟨s, ys, zs, hmodule, -, rfl⟩ := reads_part_iff.mp (reads_newlines_iff.mp hbody)
  obtain ⟨x, rfl⟩ := hmodule.exists_single rfl
  have hpos := x.count_pos
  simp only [wrap, Construct.countAll_append, Construct.countAll] at hsize
  omega

/-- What can be read at all becomes a tree that shows it, unless a limit is to blame. -/
theorem shows_of_reads {n : Nat} {r : Reader} {xs : List Construct} (htexts : stream.HasTexts)
    (h : Reads .byText n [.part .compilationUnit] (stream.reader stream.symbols.text?) r xs)
    (hlimits : ∀ e, parse stream limits = .error e → ¬ e.fault.isLimit) :
    ∃ t, parse stream limits = .ok t ∧
      t.Shows Tree.root (.mk .compilationUnit stream.unitSpan xs) ∧
      t.size = 1 + Construct.countAll xs := by
  let wide : Limits := { limits with
    maxNestingDepth := max limits.maxNestingDepth n
    maxTreeNodes := max limits.maxTreeNodes (1 + Construct.countAll xs) }
  have hdepth : Reads .byText wide.maxNestingDepth [.part .compilationUnit]
      (stream.reader stream.symbols.text?) r xs := h.mono (Nat.le_max_right _ _)
  obtain ⟨t, ht, hshows⟩ := parse_complete htexts (Nat.le_max_right _ _) hdepth
  have hroom : Roomier (parse stream limits) (parse stream wide) :=
    outcome_of_room (Nat.le_max_left _ _) (Nat.le_max_left _ _)
  rw [ht] at hroom
  cases hparse : parse stream limits with
  | ok t' =>
    rw [hparse] at hroom
    cases hroom with
    | same => exact ⟨t, rfl, hshows⟩
  | error e =>
    rw [hparse] at hroom
    cases hroom with
    | limited he => exact absurd he (hlimits e hparse)

/-- What can be read at all becomes a tree, unless a limit is to blame. -/
theorem parse_of_reads {n : Nat} {r : Reader} {xs : List Construct} (htexts : stream.HasTexts)
    (h : Reads .byText n [.part .compilationUnit] (stream.reader stream.symbols.text?) r xs)
    (hlimits : ∀ e, parse stream limits = .error e → ¬ e.fault.isLimit) :
    ∃ t, parse stream limits = .ok t := by
  obtain ⟨t, ht, -⟩ := shows_of_reads htexts h hlimits
  exact ⟨t, ht⟩

end GoloSyntax
