import GoloSyntax.Files.Batch
import GoloSyntax.Proofs.Files.Paths
import Mathlib.Data.List.Nodup

/-! # Discovery is exact

The files of a directory tree are at the ends of the ways down (`FileTree.HasFile`).  Discovery gives
the path of every source file among them, once, and no other path, in the order of paths
(`Discovers`); the order in which directories list their entries has no say in it
(`discovers_of_standsAt`).

The root may be any path, absolute or relative, at which the tree can be (`FileTree.StandsAt`).  That
is a condition only where the root is a file itself.  A path that leads to a file does not end in a
slash, in `.` or in `..`, all of which ask for a directory, and so the file has a name
(`FileSystem.standsAt_of_lookup`).
-/
namespace GoloSyntax

namespace FileTree

variable {α : Type}

/-- A way down a tree leads to a file. -/
inductive HasFile : FileTree α → List String → Prop where
  | file (content : α) : HasFile (.file content) []
  | entry {entries : List (String × FileTree α)} {name : String} {t : FileTree α}
    {names : List String} (hentry : (name, t) ∈ entries) (h : HasFile t names) :
    HasFile (.directory entries) (name :: names)

/-- In every directory each entry has a name of its own that can be one. -/
inductive WellNamed : FileTree α → Prop where
  | file (content : α) : WellNamed (.file content)
  | directory {entries : List (String × FileTree α)} (hnodup : (entries.map Prod.fst).Nodup)
    (hnames : ∀ e ∈ entries, IsEntryName e.1) (h : ∀ e ∈ entries, WellNamed e.2) :
    WellNamed (.directory entries)

/-- The tree can be at the end of a path: the path is not empty, and it ends in a name if the tree is
a file. -/
structure StandsAt (t : FileTree α) (path : String) : Prop where
  ne_empty : path ≠ ""
  isEntryName : ∀ content, t = file content → IsEntryName (lastName path)

variable {t here found : FileTree α} {above : List (FileTree α)} {path names : List String}

/-! ## The files of a tree -/

theorem map_fst_files_directory (entries : List (String × FileTree α)) :
    (directory entries).files.map Prod.fst =
      entries.flatMap fun e => (e.2.files.map Prod.fst).map (e.1 :: ·) := by
  rw [files]
  induction entries with
  | nil => rfl
  | cons e entries ih =>
    rw [filesOfEntries, List.map_append, ih, List.flatMap_cons, List.map_map, List.map_map]
    rfl

/-- The files of a tree are at the ends of the ways down. -/
theorem WellNamed.mem_files_iff (ht : t.WellNamed) :
    names ∈ t.files.map Prod.fst ↔ t.HasFile names := by
  induction ht generalizing names with
  | file content =>
    constructor
    · intro h
      obtain rfl := List.mem_singleton.mp h
      exact .file content
    · intro h
      cases h
      exact List.mem_singleton_self _
  | directory _ _ _ ih =>
    simp only [map_fst_files_directory, List.mem_flatMap, List.mem_map]
    constructor
    · rintro ⟨e, he, rest, ⟨f, hf, rfl⟩, rfl⟩
      exact .entry he ((ih e he).mp (List.mem_map_of_mem hf))
    · intro h
      cases h with
      | entry he h =>
        obtain ⟨f, hf, rfl⟩ := List.mem_map.mp ((ih _ he).mpr h)
        exact ⟨_, he, f.1, ⟨f, hf, rfl⟩, rfl⟩

/-- No two files are at the end of one way. -/
theorem WellNamed.nodup_files (ht : t.WellNamed) : (t.files.map Prod.fst).Nodup := by
  induction ht with
  | file content => exact List.nodup_singleton _
  | @directory entries hnodup _ _ ih =>
    rw [map_fst_files_directory, List.nodup_flatMap]
    constructor
    · exact fun e he => (ih e he).map fun _ _ h => (List.cons.inj h).2
    · -- Ways through different entries begin with different names.
      refine (List.pairwise_map.mp hnodup).imp fun hne => ?_
      intro way hway hway'
      obtain ⟨_, -, rfl⟩ := List.mem_map.mp hway
      obtain ⟨_, -, heq⟩ := List.mem_map.mp hway'
      exact hne (List.cons.inj heq).1.symm

theorem skeletonOfEntries_eq (entries : List (String × FileTree α)) :
    skeletonOfEntries entries = entries.map fun e => (e.1, e.2.skeleton) := by
  induction entries with
  | nil => rfl
  | cons e entries ih => rw [skeletonOfEntries, ih, List.map_cons]

theorem map_fst_files_skeleton (ht : t.WellNamed) :
    t.skeleton.files.map Prod.fst = t.files.map Prod.fst := by
  induction ht with
  | file content => rfl
  | @directory entries _ _ _ ih =>
    rw [skeleton, map_fst_files_directory, map_fst_files_directory, skeletonOfEntries_eq,
      List.flatMap_map]
    exact List.flatMap_congr fun e he => congrArg _ (ih e he)

theorem HasFile.isEntryName (h : t.HasFile names) (ht : t.WellNamed) :
    ∀ name ∈ names, IsEntryName name := by
  induction h with
  | file content => simp
  | entry hentry _ ih =>
    cases ht with
    | directory _ hnames ht =>
      exact List.forall_mem_cons.mpr ⟨hnames _ hentry, ih (ht _ hentry)⟩

/-! ## Following a path -/

/-- What following a path by one segment does. -/
theorem follow_cons {segment : String} (h : follow above here (segment :: path) = .ok found) :
    ∃ entries, here = .directory entries ∧
      ((segment = "" ∨ segment = ".") ∧ follow above here path = .ok found ∨
        segment = ".." ∧ follow above.tail (above.headD here) path = .ok found ∨
        (segment ≠ "" ∧ segment ≠ "." ∧ segment ≠ "..") ∧
          ∃ entry, (segment, entry) ∈ entries ∧ follow (here :: above) entry path = .ok found) := by
  cases here with
  | file content => cases h
  | directory entries =>
    refine ⟨entries, rfl, ?_⟩
    rw [follow.eq_def] at h
    dsimp only at h
    split at h
    · next hstay => exact .inl ⟨hstay, h⟩
    · next hstay =>
      split at h
      · next hback =>
        refine .inr (.inl ⟨hback, ?_⟩)
        cases above <;> exact h
      · next hback =>
        split at h
        · cases h
        · split at h
          · cases h
          · next entry hentry =>
            obtain ⟨hempty, hcurrent⟩ := not_or.mp hstay
            refine .inr (.inr ⟨⟨hempty, hcurrent, hback⟩, entry, ?_, h⟩)
            obtain ⟨front, behind, rfl, -⟩ := List.lookup_eq_some_iff.mp hentry
            simp

/-- A path in a tree leads to a tree. -/
theorem WellNamed.of_follow (h : follow above here path = .ok found) (hhere : here.WellNamed)
    (habove : ∀ t ∈ above, WellNamed t) : found.WellNamed := by
  induction path generalizing above here with
  | nil =>
    obtain rfl := Except.ok.inj h
    exact hhere
  | cons segment path ih =>
    obtain ⟨entries, rfl, ⟨-, h⟩ | ⟨-, h⟩ | ⟨-, entry, hentry, h⟩⟩ := follow_cons h
    · exact ih h hhere habove
    · cases above with
      | nil => exact ih h hhere habove
      | cons parent above =>
        obtain ⟨hparent, habove⟩ := List.forall_mem_cons.mp habove
        exact ih h hparent habove
    · cases hhere with
      | directory hnodup hnames hentries =>
        refine ih h (hentries _ hentry) (List.forall_mem_cons.mpr ⟨?_, habove⟩)
        exact .directory hnodup hnames hentries

/-- A path that leads from a directory to a file ends in the name of the file. -/
theorem exists_last_of_follow {content : α} (h : follow above here path = .ok (.file content))
    (habove : ∀ t ∈ above, ∃ entries, t = directory entries) (hpath : path ≠ []) :
    ∃ name, path.getLast? = some name ∧ name ≠ "" ∧ name ≠ "." ∧ name ≠ ".." := by
  induction path generalizing above here with
  | nil => exact absurd rfl hpath
  | cons segment path ih =>
    obtain ⟨entries, rfl, hstep⟩ := follow_cons h
    by_cases hrest : path = []
    · -- Where the last segment is no name, it leads to a directory.
      subst hrest
      rcases hstep with ⟨-, h⟩ | ⟨-, h⟩ | ⟨hname, -⟩
      · cases h
      · cases above with
        | nil => cases h
        | cons parent above =>
          obtain ⟨entries', rfl⟩ := habove parent List.mem_cons_self
          cases h
      · exact ⟨segment, rfl, hname⟩
    · rw [List.getLast?_cons_of_ne_nil hrest]
      rcases hstep with ⟨-, h⟩ | ⟨-, h⟩ | ⟨-, entry, -, h⟩
      · exact ih h habove hrest
      · exact ih h (fun t ht => habove t (List.mem_of_mem_tail ht)) hrest
      · exact ih h (List.forall_mem_cons.mpr ⟨⟨entries, rfl⟩, habove⟩) hrest

end FileTree

namespace FileSystem

variable {α : Type} {s : FileSystem α} {found : FileTree α} {path : String}

/-- A path that leads somewhere is not empty, and is followed from the top, perhaps behind the way to
the working directory. -/
theorem follow_of_lookup (h : s.lookup? path = .ok found) :
    path ≠ "" ∧ ∃ way, FileTree.follow [] s.top (way ++ path.splitOn "/") = .ok found := by
  rw [lookup?] at h
  split at h
  · cases h
  · split at h
    · cases h
    · split at h
      · cases h
      · next hempty => exact ⟨hempty, _, h⟩

/-- Where a path leads is well named, if everything is. -/
theorem wellNamed_of_lookup (hs : s.top.WellNamed) (h : s.lookup? path = .ok found) :
    found.WellNamed := by
  obtain ⟨-, way, hfollow⟩ := follow_of_lookup h
  exact .of_follow hfollow hs (by simp)

/-- A path that leads to a tree is one at which it can be. -/
theorem standsAt_of_lookup (h : s.lookup? path = .ok found) : found.StandsAt path := by
  obtain ⟨hne, way, hfollow⟩ := follow_of_lookup h
  refine ⟨hne, ?_⟩
  rintro content rfl
  have hsplit := splitOn_slash_ne_nil path
  obtain ⟨name, hlast, hempty, hcurrent, hparent⟩ := FileTree.exists_last_of_follow hfollow
    (by simp) (List.append_ne_nil_of_right_ne_nil way hsplit)
  rw [List.getLast?_append_of_ne_nil _ hsplit] at hlast
  have hname : lastName path = name := by
    rw [lastName, hlast, Option.getD_some]
  rw [hname]
  exact ⟨hempty, hcurrent, hparent,
    slash_not_mem_of_mem_splitOn (List.mem_of_getLast? hlast)⟩

/-- The listing of a root that can be reached is the tree below it. -/
theorem list_access {s : FileSystem ByteArray} {found : FileTree ByteArray}
    (h : s.lookup? path = .ok found) (hreach : found.outOfReach? path = none) :
    s.access.list path = Except.ok found.skeleton := by
  show s.list path = _
  simp only [list, h, hreach]

end FileSystem

/-! ## Discovery -/

/-- The last component of a path is a name with the extension of source files. -/
def IsSourcePath (path : String) : Prop :=
  ∃ name, (components path).getLast? = some (.normal name) ∧ HasSourceExtension name

/-- The paths are those of the source files below a root, in the order of paths. -/
structure Discovers {α : Type} (root : String) (found : FileTree α) (paths : List String) : Prop where
  /-- The paths are those of source files, and all of them. -/
  mem_iff : ∀ path, path ∈ paths ↔
    IsSourcePath path ∧ ∃ names, found.HasFile names ∧ path = names.foldl joinPath root
  /-- Each comes strictly before the next one, so that none is there twice. -/
  increasing : paths.Pairwise PathPrecedes
  nodup : paths.Nodup
  /-- No two files have the same path. -/
  separate : ∀ names names', found.HasFile names → found.HasFile names' →
    names.foldl joinPath root = names'.foldl joinPath root → names = names'

variable {α : Type} {found : FileTree α} {root : String}

/-- The name by which a file is judged is the last component of its path. -/
theorem isSourcePath_iff (hfound : found.WellNamed) (hroot : found.StandsAt root)
    {names : List String} (h : found.HasFile names) :
    IsSourcePath (names.foldl joinPath root) ↔
      isSourceName (names.getLast?.getD (lastName root)) := by
  have hlast : (components (names.foldl joinPath root)).getLast? =
      some (.normal (names.getLast?.getD (lastName root))) := by
    rw [components_foldl_joinPath hroot.ne_empty (h.isEntryName hfound)]
    rcases List.eq_nil_or_concat names with rfl | ⟨front, name, rfl⟩
    · -- The root itself is the file.
      cases h with
      | file content =>
        rw [List.map_nil, List.append_nil, getLast?_components (hroot.isEntryName content rfl)]
        rfl
    · simp
  rw [isSourceName_iff, IsSourcePath, hlast]
  constructor
  · rintro ⟨name, hname, h⟩
    obtain rfl := PathComponent.normal.inj (Option.some.inj hname)
    exact h
  · exact fun h => ⟨_, rfl, h⟩

/-- The order in which files are listed does not matter. -/
theorem sourceFiles_eq_of_perm {listing listing' : FileTree Unit}
    (h : (listing.files.map Prod.fst).Perm (listing'.files.map Prod.fst)) :
    sourceFiles root listing = sourceFiles root listing' := by
  rw [sourceFiles, sourceFiles]
  congr 1
  exact mergeSort_pathLE_eq ((h.filter _).trans (List.mergeSort_perm _ _).symm)
    (List.pairwise_mergeSort pathLE_trans pathLE_total _)

/-- The source files of a well-named tree are discovered. -/
theorem discovers_sourceFiles (hfound : found.WellNamed) (hroot : found.StandsAt root) :
    Discovers root found (sourceFiles root found.skeleton) := by
  have hne := hroot.ne_empty
  rw [sourceFiles, FileTree.map_fst_files_skeleton hfound]
  -- The ways to the source files, sorted.
  generalize hways : ((found.files.map Prod.fst).filter fun path =>
    isSourceName (path.getLast?.getD (lastName root))).mergeSort pathLE = ways
  have hmem (names : List String) : names ∈ ways ↔ found.HasFile names ∧
      isSourceName (names.getLast?.getD (lastName root)) := by
    rw [← hways, List.mem_mergeSort, List.mem_filter, hfound.mem_files_iff]
  have hnames {names : List String} (h : names ∈ ways) : ∀ name ∈ names, IsEntryName name :=
    ((hmem names).mp h).1.isEntryName hfound
  have hnodup : ways.Nodup := by
    rw [← hways]
    exact (List.mergeSort_perm _ _).nodup_iff.mpr (hfound.nodup_files.filter _)
  have hsorted : ways.Pairwise fun p q => pathLE p q := by
    rw [← hways]
    exact List.pairwise_mergeSort pathLE_trans pathLE_total _
  have hlt : ways.Pairwise (· < ·) := by
    refine (List.pairwise_and_iff.mpr ⟨hsorted, hnodup⟩).imp fun h => ?_
    exact lt_of_pathLE_of_ne h.1 h.2
  have hseparate (names names' : List String) (h : found.HasFile names)
      (h' : found.HasFile names') :=
    foldl_joinPath_inj hne (h.isEntryName hfound) (h'.isEntryName hfound)
  refine ⟨fun path => ?_, ?_, ?_, hseparate⟩
  · rw [List.mem_map]
    constructor
    · rintro ⟨names, h, rfl⟩
      obtain ⟨hfile, hsource⟩ := (hmem names).mp h
      exact ⟨(isSourcePath_iff hfound hroot hfile).mpr hsource, names, hfile, rfl⟩
    · rintro ⟨hsource, names, hfile, rfl⟩
      exact ⟨names, (hmem names).mpr ⟨hfile, (isSourcePath_iff hfound hroot hfile).mp hsource⟩, rfl⟩
  · refine List.pairwise_map.mpr (hlt.imp_of_mem fun hp hq h => ?_)
    exact pathPrecedes_foldl hne (hnames hp) (hnames hq) h
  · refine List.Nodup.map_on (fun p hp q hq heq => ?_) hnodup
    exact hseparate p q ((hmem p).mp hp).1 ((hmem q).mp hq).1 heq

/-- From a root at which a tree is, discovery gives the source files of the tree, however they are
listed, provided that each file is listed once. -/
theorem discovers_of_standsAt (hfound : found.WellNamed) (hroot : found.StandsAt root) :
    ∃ paths, Discovers root found paths ∧
      ∀ {m : Type → Type} [Monad m] [LawfulMonad m] (access : FileAccess m)
        (listing : FileTree Unit), access.list root = pure (.ok listing) →
        (listing.files.map Prod.fst).Nodup →
        (∀ names, names ∈ listing.files.map Prod.fst ↔ found.HasFile names) →
        discover access root = pure (.ok paths) := by
  refine ⟨_, discovers_sourceFiles hfound hroot, ?_⟩
  intro m _ _ access listing hlist hnodup hmem
  have hperm : (listing.files.map Prod.fst).Perm (found.skeleton.files.map Prod.fst) := by
    rw [FileTree.map_fst_files_skeleton hfound]
    refine (List.perm_ext_iff_of_nodup hnodup hfound.nodup_files).mpr fun names => ?_
    rw [hmem, hfound.mem_files_iff]
  rw [discover, hlist, pure_bind, ← sourceFiles_eq_of_perm hperm]

/-- A root that is listed as a tree of named entries has the source files of that tree. -/
theorem discovers_of_list {files : FileAccess Id} {listing : FileTree Unit}
    (hlist : files.list root = Except.ok listing) (hlisting : listing.WellNamed)
    (hroot : listing.StandsAt root) :
    ∃ paths, discover files root = Except.ok paths ∧ Discovers root listing paths := by
  have hskeleton := FileTree.map_fst_files_skeleton hlisting
  refine ⟨_, ?_, discovers_sourceFiles hlisting hroot⟩
  rw [discover, hlist, sourceFiles_eq_of_perm (.of_eq hskeleton)]
  rfl

/-- In a file system that is a tree of files, discovery succeeds from every root that leads somewhere
and is not too deep. -/
theorem discovers_of_lookup {s : FileSystem ByteArray} {found : FileTree ByteArray}
    (hs : s.top.WellNamed) (h : s.lookup? root = .ok found)
    (hreach : found.outOfReach? root = none) :
    ∃ paths, Discovers root found paths ∧ discover s.access root = Except.ok paths := by
  refine ⟨_, discovers_sourceFiles (FileSystem.wellNamed_of_lookup hs h)
    (FileSystem.standsAt_of_lookup h), ?_⟩
  rw [discover, FileSystem.list_access h hreach]
  rfl

/-- A directory with source files, one of them in a directory that is named like one. -/
def shelves : FileTree ByteArray :=
  .directory [("b.golo", .file .empty), ("a.golo", .file .empty),
    ("a", .directory [("z.golo", .file .empty),
      ("x.golo", .directory [("y.golo", .file .empty)])]),
    (".golo", .file .empty), ("a-b.golo", .file .empty), ("a.golo.txt", .file .empty)]

theorem wellNamed_shelves : shelves.WellNamed := by
  refine .directory (by decide) (by decide) ?_
  simp only [List.forall_mem_cons, List.not_mem_nil, IsEmpty.forall_iff, implies_true, and_true]
  refine ⟨.file _, .file _, .directory (by decide) (by decide) ?_, .file _, .file _, .file _⟩
  simp only [List.forall_mem_cons, List.not_mem_nil, IsEmpty.forall_iff, implies_true, and_true]
  refine ⟨.file _, .directory (by decide) (by decide) ?_⟩
  exact List.forall_mem_singleton.mpr (.file _)

/-- The directory and another one, which is the working directory. -/
def library : FileSystem ByteArray :=
  ⟨.directory [("desk", .empty), ("shelves", shelves)], ["desk"]⟩

/-- What is in the directory `a` comes first, although `a-b.golo` comes first as a text. -/
theorem discovers_of_shelves : ∃ paths, Discovers "/shelves" shelves paths ∧
    discover library.access "/shelves" = Except.ok paths ∧
    paths = ["/shelves/a/x.golo/y.golo", "/shelves/a/z.golo", "/shelves/a-b.golo",
      "/shelves/a.golo", "/shelves/b.golo"] := by
  have hlookup : library.lookup? "/shelves" = .ok shelves := by
    have hsplit : "/shelves".splitOn "/" = ["", "shelves"] := by rw [splitOn_slash]; decide
    rw [FileSystem.lookup?, hsplit]
    rfl
  have hlist := FileSystem.list_access hlookup (by decide +kernel)
  obtain ⟨paths, hpaths, hdiscover⟩ :=
    discovers_of_standsAt wellNamed_shelves (FileSystem.standsAt_of_lookup hlookup)
  have hfound := hdiscover _ _ hlist
    (FileTree.map_fst_files_skeleton wellNamed_shelves ▸ wellNamed_shelves.nodup_files)
    fun names => FileTree.map_fst_files_skeleton wellNamed_shelves ▸ wellNamed_shelves.mem_files_iff
  refine ⟨paths, hpaths, hfound, ?_⟩
  have hsorted : sourceFiles "/shelves" shelves.skeleton =
      ["/shelves/a/x.golo/y.golo", "/shelves/a/z.golo", "/shelves/a-b.golo", "/shelves/a.golo",
        "/shelves/b.golo"] := by
    have hways := @mergeSort_pathLE_eq ((shelves.skeleton.files.map Prod.fst).filter
        fun path => isSourceName (path.getLast?.getD (lastName "/shelves")))
      [["a", "x.golo", "y.golo"], ["a", "z.golo"], ["a-b.golo"], ["a.golo"], ["b.golo"]]
      (by decide +kernel) (by decide +kernel)
    rw [sourceFiles, hways]
    rfl
  rw [discover, hlist] at hfound
  exact (Except.ok.inj hfound).symm.trans hsorted

end GoloSyntax
