import GoloSyntax.Command.Run
import GoloSyntax.Proofs.Files.Discovery
import GoloSyntax.Proofs.Files.Settings
import GoloSyntax.Proofs.Files.Workers

/-! # What the commands say about files

Both commands come to the same verdict on a file, which is that of `parseFile` within the limits of
the settings (`Outcome.Tells`).  A file that fails stops nobody: a message with its path and its error
(`Complains`) is written, in the order of the files, and the run does not succeed.  Neither the number
of jobs nor what is dumped has a say in it (`outcome_of_run`).

How command lines and documents are read is a parameter, `readers`.  A directory may be listed in any
order, as a tree in which every entry has a name.
-/
namespace GoloSyntax

/-! ## Files that fail -/

section Files

variable (files : FileAccess Id) (limits : Limits)

/-- Whether a file cannot be read, or not be parsed. -/
def fails (path : String) : Bool :=
  match parseFile files limits path with
  | .ok _ => false
  | .error _ => true

/-- A message names the path of a file and shows the error with which it fails. -/
inductive Complains (path : String) : String → Prop
  | unreadable {cause : FileError}
    (h : parseFile files limits path = Except.error (.unreadable path cause)) :
    Complains path ("Failed to read '" ++ path ++ "': " ++ cause.message)
  | unparsable {e : ParseError}
    (h : parseFile files limits path = Except.error (.unparsable path e)) :
    Complains path (path ++ ": " ++ e.display)

/-- The dump of a file behind its path, if it does not fail. -/
def traced (options : DumpOptions) (path : String) : List String :=
  match parseFile files limits path with
  | .ok tree => (path ++ ":") :: tree.dumpLines Tree.root options
  | .error _ => []

/-- The error of a file is about the file, and so is its message. -/
theorem complains_of_parseFile {path : String} {problem : FileProblem}
    (h : parseFile files limits path = Except.error problem) :
    Complains files limits path problem.message := by
  have hproblem := h
  rw [parseFile] at h
  cases hread : files.readText path with
  | error cause =>
    rw [hread] at h
    obtain rfl := Except.error.inj h
    exact .unreadable hproblem
  | ok source =>
    rw [hread] at h
    dsimp only [bind] at h
    cases hparse : parseSource source limits with
    | error e =>
      rw [hparse] at h
      obtain rfl := Except.error.inj h
      exact .unparsable hproblem
    | ok tree =>
      rw [hparse] at h
      cases h

end Files

namespace Command

variable (files : FileAccess Id) (limits : Limits)

/-- There is a message for each file that fails, and for no other. -/
theorem forall₂_complains (paths : List String) :
    List.Forall₂ (Complains files limits) (paths.filter (fails files limits))
      (failures (paths.map (resultOf files limits))) := by
  rw [failures, List.filterMap_map]
  induction paths with
  | nil => exact .nil
  | cons path paths ih =>
    cases hparse : parseFile files limits path with
    | ok tree =>
      rw [List.filter_cons_of_neg (by simp [fails, hparse]),
        List.filterMap_cons_none (by simp [resultOf, hparse])]
      exact ih
    | error problem =>
      rw [List.filter_cons_of_pos (by simp [fails, hparse]), List.filterMap_cons]
      simp only [Function.comp_apply, resultOf, hparse]
      exact .cons (complains_of_parseFile files limits hparse) ih

theorem traces_resultOf (options : DumpOptions) (paths : List String) :
    traces options (paths.map (resultOf files limits)) =
      paths.flatMap (traced files limits options) := by
  rw [traces, List.flatMap_map]
  rfl

theorem isOk_resultOf (path : String) :
    (resultOf files limits path).isOk = !fails files limits path := by
  simp only [resultOf, FileResult.isOk, fails]
  cases parseFile files limits path <;> rfl

/-- What a run leaves behind about some files: a message for each that fails, in order, and success
if there are none. -/
structure Outcome.Tells (paths : List String) (o : Outcome) : Prop where
  stderr : ∃ lines, o.stderr = unlines lines ∧
    List.Forall₂ (Complains files limits) (paths.filter (fails files limits)) lines
  succeeds : o.exitStatus = 0 ↔ ∀ path ∈ paths, fails files limits path = false
  exitStatus_le : o.exitStatus ≤ 1

theorem statusOf_resultOf (paths : List String) :
    statusOf (paths.map (resultOf files limits)) = 0 ↔
      ∀ path ∈ paths, fails files limits path = false := by
  simp [statusOf, isOk_resultOf, List.all_map, Function.comp_def]

theorem statusOf_le (results : List FileResult) : statusOf results ≤ 1 := by
  unfold statusOf
  split <;> omega

theorem tells_parseOutcome (options : DumpOptions) (trace : Bool) (paths : List String) :
    (parseOutcome options trace (paths.map (resultOf files limits))).Tells files limits paths where
  stderr := ⟨_, rfl, forall₂_complains files limits paths⟩
  succeeds := statusOf_resultOf files limits paths
  exitStatus_le := statusOf_le _

theorem tells_checkOutcome (paths : List String) :
    (checkOutcome (paths.map (resultOf files limits))).Tells files limits paths where
  stderr := ⟨_, rfl, forall₂_complains files limits paths⟩
  succeeds := statusOf_resultOf files limits paths
  exitStatus_le := statusOf_le _

/-- The line with which `check` ends, for so many files that were parsed and that failed. -/
def tally (parsed failed : Nat) : String :=
  toString (parsed + failed) ++ " files, " ++ toString parsed ++ " parsed, " ++ toString failed ++
    " failed"

/-- Every file is counted, and as failed if it fails. -/
theorem exists_summary_eq (paths : List String) : ∃ parsed failed,
    summary (paths.map (resultOf files limits)) = tally parsed failed ∧
    parsed + failed = paths.length ∧ failed = (paths.filter (fails files limits)).length := by
  have hfailed : ((paths.map (resultOf files limits)).filter fun r => !r.isOk).length =
      (paths.filter (fails files limits)).length := by
    rw [List.filter_map, List.length_map]
    simp [Function.comp_def, isOk_resultOf]
  have hle := List.length_filter_le (fails files limits) paths
  refine ⟨paths.length - (paths.filter (fails files limits)).length, _, ?_,
    Nat.sub_add_cancel hle, rfl⟩
  rw [summary, hfailed, List.length_map, tally, Nat.sub_add_cancel hle]

/-! ## Runs -/

section Runs

variable (readers : Readers) (schedule : List Nat)

theorem run_load (read? : String → Option Toml.Table) (path : String) :
    (Settings.load read? (Work.access schedule) path).run files =
      Settings.load read? files path := by
  have hread : ((Work.access schedule).readText path).run files = files.readText path := rfl
  rw [Settings.load, Work.run_bind, hread, Settings.load]
  cases files.readText path with
  | error cause => cases cause <;> rfl
  | ok text => rfl

theorem run_discover (root : String) :
    (discover (Work.access schedule) root).run files = discover files root := by
  have hlist : ((Work.access schedule).list root).run files = files.list root := rfl
  rw [discover, Work.run_bind, hlist, discover]
  cases files.list root <;> rfl

/-- What a command line leaves behind while the files stay what they are and workers take turns by a
schedule. -/
def outcomeOf (args : List String) : Outcome :=
  (run (Work.access schedule) readers args).run files

/-- A command line that is in order, with settings that can be had, is carried out. -/
theorem outcomeOf_of_invocation {args : List String} {invocation : Invocation} {settings : Settings}
    (hread : readers.invocation args = .ok invocation)
    (hload : Settings.load readers.document files invocation.settingsFile = Except.ok settings) :
    outcomeOf files readers schedule args =
      (runAction (Work.access schedule) settings invocation.action).run files := by
  rw [outcomeOf, run, hread]
  show Work.run files (Settings.load readers.document (Work.access schedule)
    invocation.settingsFile >>= _) = _
  rw [Work.run_bind, run_load, hload]

section Actions

variable {settings : Settings} (hvalid : settings.limits.validate? = none)
include hvalid

/-- The workers start, and the outcome is that of each file alone. -/
theorem run_report (paths : List String) (jobs : Nat) (outcome : List FileResult → Outcome) :
    (report (Work.access schedule) settings.limits paths jobs outcome).run files =
      outcome (paths.map (resultOf files settings.limits)) := by
  have hstack := Limits.stackSize_lt_of_validate hvalid
  rw [report, Work.run_bind, run_parseFiles files schedule settings.limits paths fun _ => hstack]
  rfl

theorem run_parse (paths : List String) (trace : Bool) (linePrefix : Option String)
    (spans : Bool) :
    (runAction (Work.access schedule) settings (.parse paths trace linePrefix spans)).run files =
      parseOutcome (tracing settings.dump linePrefix spans) trace
        (paths.map (resultOf files settings.limits)) :=
  run_report files schedule hvalid paths 1 _

theorem run_check {directory : String} {paths : List String}
    (hdiscover : discover files directory = Except.ok paths) (jobs : Option Nat) :
    (runAction (Work.access schedule) settings (.check directory jobs)).run files =
      checkOutcome (paths.map (resultOf files settings.limits)) := by
  rw [runAction, Work.run_bind, run_discover, hdiscover]
  cases jobs with
  | some jobs => exact run_report files schedule hvalid paths jobs checkOutcome
  | none => exact run_report files schedule hvalid paths files.workers checkOutcome

end Actions

/-- Both commands tell the same of a file, which is what comes of it when it is parsed alone within
the limits of the settings.  `check` goes through the source files of a directory in the order of
their paths and counts them, whatever the number of jobs; `parse` goes through its arguments, and
what it dumps has no say in what it tells. -/
theorem outcome_of_run {args : List String} {invocation : Invocation} {settings : Settings}
    (hread : readers.invocation args = .ok invocation)
    (hload : Settings.load readers.document files invocation.settingsFile = Except.ok settings) :
    (∀ directory jobs found, invocation.action = .check directory jobs →
      files.list directory = Except.ok found → found.WellNamed → found.StandsAt directory →
        ∃ paths, discover files directory = Except.ok paths ∧ Discovers directory found paths ∧
          (outcomeOf files readers schedule args).Tells files settings.limits paths ∧
          ∃ parsed failed,
            (outcomeOf files readers schedule args).stdout = unlines [tally parsed failed] ∧
            parsed + failed = paths.length ∧
            failed = (paths.filter (fails files settings.limits)).length ∧
            ((outcomeOf files readers schedule args).exitStatus = 0 ↔ failed = 0)) ∧
    ∀ paths trace linePrefix spans, invocation.action = .parse paths trace linePrefix spans →
      (outcomeOf files readers schedule args).Tells files settings.limits paths ∧
      (outcomeOf files readers schedule args).stdout = if trace then unlines (paths.flatMap
        (traced files settings.limits (tracing settings.dump linePrefix spans))) else "" := by
  have hvalid := Settings.validate?_of_load hload
  rw [outcomeOf_of_invocation files readers schedule hread hload]
  constructor
  · intro directory jobs found haction hlist hfound hroot
    obtain ⟨paths, hdiscover, hpaths⟩ := discovers_of_list hlist hfound hroot
    rw [haction, run_check files schedule hvalid hdiscover]
    have htells := tells_checkOutcome files settings.limits paths
    obtain ⟨parsed, failed, hsummary, hsum, hfailed⟩ :=
      exists_summary_eq files settings.limits paths
    refine ⟨paths, hdiscover, hpaths, htells, parsed, failed, congrArg (unlines [·]) hsummary, hsum,
      hfailed, ?_⟩
    rw [htells.succeeds, hfailed, List.length_eq_zero_iff, List.filter_eq_nil_iff]
    simp
  · intro paths trace linePrefix spans haction
    rw [haction, run_parse files schedule hvalid]
    refine ⟨tells_parseOutcome files settings.limits _ trace paths, ?_⟩
    rw [parseOutcome, traces_resultOf]

/-- A directory with two source files, listed out of order. -/
def shelfListing : FileTree Unit :=
  .directory [("b.golo", .file ()), ("a.golo", .file ()), ("c.txt", .file ())]

theorem wellNamed_shelfListing : shelfListing.WellNamed := by
  refine .directory (by decide) (by decide) ?_
  simp only [List.forall_mem_cons, List.not_mem_nil, IsEmpty.forall_iff, implies_true, and_true]
  exact ⟨.file _, .file _, .file _⟩

/-- The directory, in which the first of the source files is malformed. -/
def shelf : FileAccess Id where
  readText path :=
    if path = "d/a.golo" then .ok "module"
    else if path = "d/b.golo" then .ok "module m"
    else .error .notFound
  list path := if path = "d" then .ok shelfListing else .error ⟨path, .notFound⟩
  inParallel _ work := Except.ok work
  workers := 8

theorem discover_shelf : discover shelf "d" = Except.ok ["d/a.golo", "d/b.golo"] := by
  have hfound : (shelfListing.files.map Prod.fst).filter
      (fun path => isSourceName (path.getLast?.getD (lastName "d"))) =
        [["b.golo"], ["a.golo"]] := by
    decide +kernel
  have hsorted : [["b.golo"], ["a.golo"]].mergeSort pathLE = [["a.golo"], ["b.golo"]] :=
    mergeSort_pathLE_eq (.swap _ _ _) (by decide +kernel)
  show Except.ok (sourceFiles "d" shelfListing) = _
  rw [sourceFiles, hfound, hsorted]
  rfl

/-- Two workers check the directory; a file of it is parsed with one that is not there. -/
theorem outcome_of_run_shelf :
    Discovers "d" shelfListing ["d/a.golo", "d/b.golo"] ∧
    (outcomeOf shelf .standard [1, 0] ["check", "-j", "2", "d"]).Tells shelf {}
      ["d/a.golo", "d/b.golo"] ∧
    (outcomeOf shelf .standard [1, 0] ["check", "-j", "2", "d"]).stdout =
      "2 files, 1 parsed, 1 failed\n" ∧
    (outcomeOf shelf .standard [1, 0] ["check", "-j", "2", "d"]).exitStatus ≠ 0 ∧
    (outcomeOf shelf .standard [] ["parse", "--trace", "c.golo", "d/b.golo"]).Tells shelf {}
      ["c.golo", "d/b.golo"] ∧
    (outcomeOf shelf .standard [] ["parse", "--trace", "c.golo", "d/b.golo"]).stdout =
      "d/b.golo:\nCompilationUnit\n  Module 'm'\n" := by
  have hload : Settings.load Readers.standard.document shelf "golo.toml" = Except.ok {} := rfl
  have hreadCheck : Readers.standard.invocation ["check", "-j", "2", "d"] =
      .ok ⟨"golo.toml", 0, .check "d" (some 2)⟩ := rfl
  have hreadParse : Readers.standard.invocation ["parse", "--trace", "c.golo", "d/b.golo"] =
      .ok ⟨"golo.toml", 0, .parse ["c.golo", "d/b.golo"] true none false⟩ := rfl
  have hcount : (["d/a.golo", "d/b.golo"].filter (fails shelf {})).length = 1 := by
    decide +kernel
  obtain ⟨paths, hdiscover, hpaths, hcheck, parsed, failed, hstdout, hsum, hfailed, hstatus⟩ :=
    (outcome_of_run shelf .standard [1, 0] hreadCheck hload).1 "d" (some 2) shelfListing rfl rfl
      wellNamed_shelfListing ⟨by decide, nofun⟩
  obtain rfl : ["d/a.golo", "d/b.golo"] = paths :=
    Except.ok.inj (discover_shelf.symm.trans hdiscover)
  obtain ⟨hparse, hdump⟩ :=
    (outcome_of_run shelf .standard [] hreadParse hload).2 _ true none false rfl
  obtain rfl : failed = 1 := hfailed.trans hcount
  obtain rfl : parsed = 1 := Nat.succ.inj hsum
  refine ⟨hpaths, hcheck, hstdout.trans (by decide +kernel), by simp [hstatus], hparse,
    hdump.trans ?_⟩
  decide +kernel

end Runs

end Command

end GoloSyntax
