import GoloSyntax.Files.Batch

/-! # Workers that take turns

Files are shared out to workers, each of which reads its files one by one.  A worker is a program
that asks a file system (`Work`), and a schedule says whose turn it is to ask (`Work.interleave`);
when the schedule is over, the workers still under way are finished one after the other.  So
`Work.access` has one file access for each way in which workers may overtake one another, and the
library runs on all of them.

As long as the files stay what they are, none of it shows: a turn changes the answer of no worker
(`Work.run_turn`), and the answers are collected in the order in which the workers were started
(`Work.run_interleave`).  Sharing out neither loses nor repeats a path, whatever the number of jobs,
so files parsed by workers are what each of them is when parsed alone (`parseFiles_of_schedule`).

Workers always start here.  What is asked of the limits is that the stack for a worker has a size
that fits into a word, since nothing can be started with another one; valid limits do
(`Limits.stackSize_lt_of_validate`).
-/
namespace GoloSyntax

variable {α β : Type}

/-! ## Programs that ask a file system -/

/-- A program that asks a file system and goes on with the answers. -/
inductive Work (α : Type) : Type where
  | done (answer : α)
  | readText (path : String) (next : Except FileError String → Work α)
  | list (path : String) (next : Except WalkError (FileTree Unit) → Work α)
  | workers (next : Nat → Work α)

namespace Work

/-- Go on with what a program answers. -/
def bind : Work α → (α → Work β) → Work β
  | done answer, f => f answer
  | readText path next, f => readText path fun text => (next text).bind f
  | list path next, f => list path fun listing => (next listing).bind f
  | workers next, f => workers fun n => (next n).bind f

instance : Monad Work where
  pure := done
  bind := bind

theorem bind_done (w : Work α) : w.bind done = w := by
  induction w with
  | done answer => rfl
  | readText path next ih => exact congrArg (readText path) (funext ih)
  | list path next ih => exact congrArg (list path) (funext ih)
  | workers next ih => exact congrArg workers (funext ih)

theorem bind_assoc {γ : Type} (w : Work α) (f : α → Work β) (g : β → Work γ) :
    (w.bind f).bind g = w.bind fun a => (f a).bind g := by
  induction w with
  | done answer => rfl
  | readText path next ih => exact congrArg (readText path) (funext ih)
  | list path next ih => exact congrArg (list path) (funext ih)
  | workers next ih => exact congrArg workers (funext ih)

instance : LawfulMonad Work := LawfulMonad.mk' Work bind_done (fun _ _ => rfl) bind_assoc

/-- What a program answers while the files stay what they are. -/
def run (files : FileAccess Id) : Work α → α
  | done answer => answer
  | readText path next => (next (files.readText path)).run files
  | list path next => (next (files.list path)).run files
  | workers next => (next files.workers).run files

variable (files : FileAccess Id)

@[simp] theorem run_pure (answer : α) : (pure answer : Work α).run files = answer := rfl

@[simp] theorem run_bind (w : Work α) (f : α → Work β) :
    (w >>= f).run files = (f (w.run files)).run files := by
  show (w.bind f).run files = _
  induction w with
  | done answer => rfl
  | readText path next ih => exact ih _
  | list path next ih => exact ih _
  | workers next ih => exact ih _

@[simp] theorem run_map (f : α → β) (w : Work α) : (f <$> w).run files = f (w.run files) := by
  rw [← bind_pure_comp, run_bind, run_pure]

@[simp] theorem run_mapM (f : α → Work β) (xs : List α) :
    (xs.mapM f).run files = xs.map fun x => (f x).run files := by
  induction xs with
  | nil => rfl
  | cons x xs ih => simp [ih]

/-! ## Taking turns -/

/-- Let the `i`-th worker ask its next question.  Nothing happens if it has none. -/
def turn (i : Nat) (work : List (Work α)) : Work (List (Work α)) :=
  match work[i]? with
  | some (readText path next) => readText path fun text => done (work.set i (next text))
  | some (list path next) => list path fun listing => done (work.set i (next listing))
  | some (workers next) => workers fun n => done (work.set i (next n))
  | some (done _) | none => done work

/-- Workers that take turns by a schedule.  When it is over the others are finished, and the answers
are collected in the order of the workers. -/
def interleave : List Nat → List (Work α) → Work (List α)
  | [], work => work.mapM id
  | i :: schedule, work => do interleave schedule (← turn i work)

/-- A file system whose workers all start, and take turns. -/
def access (schedule : List Nat) : FileAccess Work where
  readText path := readText path done
  list path := list path done
  inParallel _ work := Except.ok <$> interleave schedule work
  workers := workers done

/-- A turn changes nobody's answer. -/
theorem run_turn (i : Nat) (work : List (Work α)) :
    ((turn i work).run files).map (run files) = work.map (run files) := by
  -- A worker whose question is answered still comes to the same answer.
  have hset (w w' : Work α) (hi : work[i]? = some w) (hw : w'.run files = w.run files) :
      (work.set i w').map (run files) = work.map (run files) := by
    obtain ⟨hlt, rfl⟩ := List.getElem?_eq_some_iff.mp hi
    have hlt' : i < (work.map (run files)).length := by rwa [List.length_map]
    rw [List.map_set, hw, ← List.getElem_map (run files) (h := hlt'), List.set_getElem_self]
  unfold turn
  split
  · next hi => exact hset _ _ hi rfl
  · next hi => exact hset _ _ hi rfl
  · next hi => exact hset _ _ hi rfl
  · rfl
  · rfl

/-- Whoever has which turn, every worker answers what it does when it is left alone. -/
theorem run_interleave (schedule : List Nat) (work : List (Work α)) :
    (interleave schedule work).run files = work.map (run files) := by
  induction schedule generalizing work with
  | nil => exact run_mapM files id work
  | cons i schedule ih =>
    rw [interleave, run_bind, ih]
    exact run_turn files i work

end Work

/-! ## Sharing out -/

section Chunks

variable {length n : Nat} {xs : List α}

theorem chunks_ne_nil {chunk : List α} (hlength : 0 < length) (h : chunk ∈ chunks length n xs) :
    chunk ≠ [] := by
  induction n generalizing xs with
  | zero => cases h
  | succ n ih =>
    cases xs with
    | nil => cases h
    | cons x xs =>
      rcases List.mem_cons.mp h with rfl | h
      · simpa using Nat.ne_of_gt hlength
      · exact ih h

/-- Pieces that are not empty take the whole list. -/
theorem flatten_chunks (hlength : 0 < length) (hn : xs.length ≤ n) :
    (chunks length n xs).flatten = xs := by
  induction n generalizing xs with
  | zero => exact (List.length_eq_zero_iff.mp (Nat.le_zero.mp hn)).symm
  | succ n ih =>
    cases xs with
    | nil => rfl
    | cons x xs =>
      have hrest : ((x :: xs).drop length).length ≤ n := by
        simp only [List.length_drop, List.length_cons] at hn ⊢
        omega
      rw [chunks, List.flatten_cons, ih hrest, List.take_append_drop]
      exact nofun

/-- As many pieces are enough as hold the list together. -/
theorem length_chunks_le {k : Nat} (hk : xs.length ≤ k * length) :
    (chunks length n xs).length ≤ k := by
  induction n generalizing xs k with
  | zero => exact Nat.zero_le k
  | succ n ih =>
    cases xs with
    | nil => exact Nat.zero_le k
    | cons x xs =>
      cases k with
      | zero =>
        -- No pieces at all hold only the empty list.
        rw [Nat.zero_mul] at hk
        exact absurd hk (Nat.not_succ_le_zero _)
      | succ k =>
        have hrest : ((x :: xs).drop length).length ≤ k * length := by
          rw [Nat.succ_mul] at hk
          rw [List.length_drop]
          omega
        have hle := ih hrest
        simp only [chunks, List.length_cons]
        omega

end Chunks

/-- The paths for each worker: some for everyone, all of them in order, and no more workers than
jobs, but at least one. -/
structure Shares (paths : List String) (jobs : Nat) (shares : List (List String)) : Prop where
  ne_nil : ∀ share ∈ shares, share ≠ []
  flatten : shares.flatten = paths
  length_le : shares.length ≤ max 1 jobs

theorem shares_shareOut (paths : List String) (jobs : Nat) :
    Shares paths jobs (shareOut paths jobs) := by
  by_cases hpaths : paths = []
  · subst hpaths
    exact ⟨nofun, rfl, Nat.zero_le _⟩
  · have hpos : 0 < paths.length := List.length_pos_iff.mpr hpaths
    unfold shareOut
    generalize hworkers : max 1 (min jobs paths.length) = workers
    have hone : 1 ≤ workers := by omega
    have hlength : 0 < (paths.length + workers - 1) / workers :=
      Nat.div_pos (by omega) hone
    -- Rounding up leaves no path over.
    have hall : paths.length ≤ workers * ((paths.length + workers - 1) / workers) := by
      have hdiv := Nat.div_add_mod (paths.length + workers - 1) workers
      have hmod := Nat.mod_lt (paths.length + workers - 1) hone
      omega
    refine ⟨fun share => chunks_ne_nil hlength, flatten_chunks hlength (Nat.le_refl _), ?_⟩
    exact Nat.le_trans (length_chunks_le hall) (by omega)

/-! ## Parsing files -/

section Parsing

variable (files : FileAccess Id) (schedule : List Nat) (limits : Limits)

/-- A file and what comes of it when it is parsed alone. -/
def resultOf (path : String) : FileResult := ⟨path, parseFile files limits path⟩

@[simp] theorem run_parseFile (path : String) :
    (parseFile (Work.access schedule) limits path).run files = parseFile files limits path := by
  have hread : ((Work.access schedule).readText path).run files = files.readText path := rfl
  rw [parseFile, Work.run_bind, hread, parseFile]
  cases files.readText path with
  | error cause => rfl
  | ok source =>
    dsimp only [bind]
    cases parseSource source limits with
    | error e => rfl
    | ok tree => rfl

@[simp] theorem run_parseChunk (paths : List String) :
    (parseChunk (Work.access schedule) limits paths).run files =
      paths.map (resultOf files limits) := by
  simp [parseChunk, resultOf]

/-- Workers that take turns at the shares of the paths come to what each file is alone. -/
theorem run_inParallel (stackSize : Nat) (shares : List (List String)) :
    ((Work.access schedule).inParallel stackSize
        (shares.map (parseChunk (Work.access schedule) limits))).run files =
      .ok (shares.map (List.map (resultOf files limits))) := by
  show (Except.ok <$> Work.interleave schedule _).run files = _
  simp [Work.run_interleave, Function.comp_def]

/-- Files parsed by workers are what each of them is when it is parsed alone, in the order in which
they are given. -/
theorem run_parseFiles (paths : List String) (hstack : paths ≠ [] → limits.stackSize < UInt64.size)
    (jobs : Nat) :
    (parseFiles (Work.access schedule) limits paths jobs).run files =
      .ok (paths.map (resultOf files limits)) := by
  rw [parseFiles]
  split
  · next hempty =>
    obtain rfl := List.isEmpty_iff.mp hempty
    rfl
  · next hpaths =>
    have hfits := hstack (mt List.isEmpty_iff.mpr hpaths)
    rw [if_neg (Nat.not_le.mpr hfits), Work.run_bind, run_inParallel]
    show Except.ok (List.flatten _) = _
    rw [← List.map_flatten, (shares_shareOut paths jobs).flatten]

end Parsing

/-- Valid limits leave room for the stack in a word. -/
theorem Limits.stackSize_lt_of_validate {limits : Limits} (h : limits.validate? = none) :
    limits.stackSize < UInt64.size := by
  have hdepth : limits.maxNestingDepth ≤ 4096 :=
    Limits.get_le_ceiling (Limits.accepts_of_validate h .nestingDepth)
  have hword : UInt64.size = 18446744073709551616 := rfl
  unfold stackSize
  omega

end GoloSyntax
