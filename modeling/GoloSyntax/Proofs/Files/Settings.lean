import GoloSyntax.Proofs.Text.Splitting
import GoloSyntax.Settings
import Mathlib.Data.List.Nodup

/-! # Settings files

A settings file gives some limits and some options for dumps (`Given`), each by the entry for its
key in one of two sections; the sections and their entries come in any order, and a section without
entries may be left out (`Given.WrittenIn`).  The file is accepted if every limit that it gives is
in its range.  What it gives then replaces the defaults, each value that of its own key; otherwise
the error is about the first limit that is given out of its range (`Given.Judges`).  A file that can
be read is judged as its text is, and one that is missing as an empty text (`agree_with_given`).  How
a document is read from its text is a parameter, `read?`.

The limits, the options for dumps and the sections of a document are read alike: from a table that
has an entry for some of the keys of a record (`Fields`).
-/
namespace GoloSyntax

open Toml (Value Table)

/-! ## Records read from tables -/

/-- How the entries of a table are read into a record that has a field for each key. -/
structure Fields (σ : Type) where
  Key : Type
  Content : Key → Type
  key : Key → String
  find? : String → Option Key
  read : (k : Key) → Value → Option (Content k)
  get : σ → (k : Key) → Content k
  put : σ → (k : Key) → Content k → σ
  find?_key : ∀ k, find? (key k) = some k
  get_put : ∀ s k x, get (put s k x) k = x
  get_put_of_ne : ∀ s k x other, other ≠ k → get (put s k x) other = get s other

/-- The entries of a table, in any order: those of some keys, each once and with its value. -/
structure Lists {κ : Type} (key : κ → String) (values : κ → Option Value) (entries : Table) :
    Prop where
  nodup : (entries.map Prod.fst).Nodup
  known : ∀ e ∈ entries, ∃ k, e.1 = key k
  lookup : ∀ k, entries.lookup (key k) = values k

/-- A section of a document, which may be left out if it has no entries. -/
inductive IsSection {κ : Type} (key : κ → String) (values : κ → Option Value) :
    Option Value → Prop
  | absent (h : ∀ k, values k = none) : IsSection key values none
  | present (origin : Toml.Origin) {entries : Table} (h : Lists key values entries) :
      IsSection key values (some (.table origin entries))

theorem lookup_of_not_mem {entries : Table} {name : String} (h : name ∉ entries.map Prod.fst) :
    entries.lookup name = none := by
  rw [List.lookup_eq_none_iff]
  rintro ⟨other, value⟩ he
  rw [bne_iff_ne]
  rintro rfl
  exact h (List.mem_map_of_mem he)

namespace Fields

variable {σ : Type} (f : Fields σ)

/-- Put what an entry says into a record, if it can be read. -/
def set? (s : σ) (e : String × Value) : Option σ :=
  (f.find? e.1).bind fun k => (f.read k e.2).map (f.put s k)

/-- Put what the entries say into a record, one after the other. -/
def merge (s : σ) (entries : Table) : Option σ := entries.foldlM f.set? s

variable {f}

theorem key_ne {k k' : f.Key} (h : k ≠ k') : f.key k ≠ f.key k' := by
  intro hkey
  have hfind := f.find?_key k
  rw [hkey, f.find?_key k'] at hfind
  exact h (Option.some.inj hfind).symm

/-- If each entry can be read, merging gives every field what its entry says, or leaves it if it has
none. -/
theorem exists_merge {entries : Table} (hnodup : (entries.map Prod.fst).Nodup)
    (hknown : ∀ e ∈ entries, ∃ k, e.1 = f.key k) {s : σ} {content : (k : f.Key) → f.Content k}
    (hread : ∀ k,
      (entries.lookup (f.key k)).elim (some (f.get s k)) (f.read k) = some (content k)) :
    ∃ s', f.merge s entries = some s' ∧ ∀ k, f.get s' k = content k := by
  -- The entry that has been put is gone from the rest, where its field is one to be left.
  induction entries generalizing s with
  | nil => exact ⟨s, rfl, fun k => Option.some.inj (hread k)⟩
  | cons e entries ih =>
    obtain ⟨name, value⟩ := e
    obtain ⟨k, rfl⟩ : ∃ k, name = f.key k := hknown _ List.mem_cons_self
    obtain ⟨hfresh, hnodup⟩ := List.nodup_cons.mp hnodup
    have hvalue : f.read k value = some (content k) := by
      have hk := hread k
      rwa [List.lookup_cons_self, Option.elim_some] at hk
    have hset : f.set? s (f.key k, value) = some (f.put s k (content k)) := by
      rw [set?, f.find?_key, Option.bind_some, hvalue, Option.map_some]
    rw [merge, List.foldlM_cons, hset]
    refine ih hnodup (fun e he => hknown e (List.mem_cons_of_mem _ he)) fun other => ?_
    by_cases hother : other = k
    · subst hother
      rw [lookup_of_not_mem hfresh, Option.elim_none, f.get_put]
    · have hrest := hread other
      rw [List.lookup_cons, beq_false_of_ne (key_ne hother)] at hrest
      rw [f.get_put_of_ne _ _ _ _ hother]
      exact hrest

/-- A section that lists what is given is read, and what is not given is as before. -/
theorem exists_of_isSection {read? : Value → Option σ} {s : σ}
    (hread? : ∀ origin entries, read? (.table origin entries) = f.merge s entries)
    {write : (k : f.Key) → f.Content k → Value} (hwrite : ∀ k x, f.read k (write k x) = some x)
    {given : (k : f.Key) → Option (f.Content k)} {v : Option Value}
    (h : IsSection f.key (fun k => (given k).map (write k)) v) :
    ∃ s', v.elim (some s) read? = some s' ∧ ∀ k, f.get s' k = (given k).getD (f.get s k) := by
  cases h with
  | absent h =>
    refine ⟨s, rfl, fun k => ?_⟩
    rw [Option.map_eq_none_iff.mp (h k), Option.getD_none]
  | present origin h =>
    rw [Option.elim_some, hread?]
    refine exists_merge h.nodup h.known fun k => ?_
    rw [h.lookup k]
    cases given k with
    | none => rfl
    | some x => exact hwrite k x

end Fields

/-! ## The sections of a document -/

/-- What an option for dumps is set to. -/
def Settings.DumpKey.Content : Settings.DumpKey → Type
  | .linePrefix => String
  | .indent => Nat
  | .showSpans => Bool

/-- The option for dumps with a given key. -/
def DumpOptions.get (o : DumpOptions) : (key : Settings.DumpKey) → key.Content
  | .linePrefix => o.linePrefix
  | .indent => o.indent
  | .showSpans => o.showSpans

namespace Settings

/-- What a document says to set an option for dumps. -/
def DumpKey.value : (key : DumpKey) → key.Content → Value
  | .linePrefix, (text : String) => .string text
  | .indent, (n : Nat) => .integer n
  | .showSpans, (shown : Bool) => .boolean shown

/-- The sections of a document. -/
inductive Section where
  | limits
  | dump
deriving DecidableEq

/-- How the header of the section is written. -/
def Section.key : Section → String
  | limits => "limits"
  | dump => "dump"

/-- The limits as fields. -/
def limitFields : Fields Limits where
  Key := LimitName
  Content _ := Nat
  key := LimitName.key
  find? := LimitName.ofKey?
  read _ := natural?
  get := Limits.get
  put := Limits.set
  find?_key name := by cases name <;> decide
  get_put l name n := l.get_set_self name n
  get_put_of_ne l _ n _ h := l.get_set_of_ne n h

/-- The options for dumps as fields. -/
def dumpFields : Fields DumpOptions where
  Key := DumpKey
  Content := DumpKey.Content
  key := DumpKey.key
  find? key := DumpKey.all.find? (·.key == key)
  read
    | .linePrefix => text?
    | .indent => natural?
    | .showSpans => truth?
  get := DumpOptions.get
  put o
    | .linePrefix, linePrefix => { o with linePrefix }
    | .indent, indent => { o with indent }
    | .showSpans, showSpans => { o with showSpans }
  find?_key key := by cases key <;> decide
  get_put o key x := by cases key <;> rfl
  get_put_of_ne o key x other h := by
    cases key <;> cases other <;> first | rfl | exact absurd rfl h

/-- The sections as fields. -/
def sectionFields : Fields Settings where
  Key := Section
  Content
    | .limits => Limits
    | .dump => DumpOptions
  key := Section.key
  find? key :=
    if key = "limits" then some .limits else if key = "dump" then some .dump else none
  read
    | .limits => limits?
    | .dump => dumpOptions?
  get s
    | .limits => s.limits
    | .dump => s.dump
  put s
    | .limits, limits => { s with limits }
    | .dump, dump => { s with dump }
  find?_key key := by cases key <;> decide
  get_put s key x := by cases key <;> rfl
  get_put_of_ne s key x other h := by
    cases key <;> cases other <;> first | rfl | exact absurd rfl h

theorem limits?_table (origin : Toml.Origin) (entries : Table) :
    limits? (.table origin entries) = limitFields.merge {} entries := rfl

theorem setDumpOption?_eq (o : DumpOptions) (key : DumpKey) (value : Value) :
    setDumpOption? o key value = (dumpFields.read key value).map (dumpFields.put o key) := by
  cases key <;> rfl

theorem dumpOptions?_table (origin : Toml.Origin) (entries : Table) :
    dumpOptions? (.table origin entries) = dumpFields.merge {} entries := by
  simp only [dumpOptions?, setDumpOption?_eq]
  rfl

theorem ofTable?_eq (t : Table) : ofTable? t = sectionFields.merge {} t := by
  rw [ofTable?, Fields.merge]
  congr 1
  funext s ⟨name, value⟩
  simp only [Fields.set?, sectionFields]
  split
  · rfl
  · split <;> rfl

theorem natural?_integer (n : Nat) : natural? (.integer n) = some n := by
  rw [natural?, if_pos (Int.natCast_nonneg n), Int.toNat_natCast]

theorem read_limit (name : LimitName) (n : Nat) :
    limitFields.read name (.integer n) = some n :=
  natural?_integer n

theorem read_value (key : DumpKey) (x : key.Content) :
    dumpFields.read key (key.value x) = some x := by
  cases key with
  | linePrefix => rfl
  | indent => exact natural?_integer x
  | showSpans => rfl

/-! ## Which settings a file gives -/

/-- What a settings file gives. -/
structure Given where
  limits : LimitName → Option Nat
  dump : (key : DumpKey) → Option key.Content

namespace Given

/-- A document that says just what is given. -/
structure WrittenIn (g : Given) (document : Table) : Prop where
  nodup : (document.map Prod.fst).Nodup
  known : ∀ e ∈ document, ∃ s : Section, e.1 = s.key
  limits : IsSection LimitName.key (fun name => (g.limits name).map fun (n : Nat) => .integer n)
    (document.lookup Section.limits.key)
  dump : IsSection DumpKey.key (fun key => (g.dump key).map key.value)
    (document.lookup Section.dump.key)

/-- A limit that has a value between one and its ceiling, if it is given at all. -/
def InRange (g : Given) (name : LimitName) : Prop :=
  ∀ n, g.limits name = some n → 1 ≤ n ∧ n ≤ name.ceiling

/-- Settings with everything that is given, and the defaults for the rest. -/
structure MergedIn (g : Given) (settings : Settings) : Prop where
  limits : ∀ name,
    settings.limits.get name = (g.limits name).getD (({} : Limits).get name)
  dump : ∀ key, settings.dump.get key = (g.dump key).getD (({} : DumpOptions).get key)

/-- An error about the first limit, in the order in which they are checked, that is given out of its
range. -/
structure Offends (g : Given) (e : LimitError) : Prop where
  given : g.limits e.name = some e.value
  out_of_range : ¬ g.InRange e.name
  max_eq : e.max = e.name.ceiling
  first : ∃ before after, LimitName.all = before ++ e.name :: after ∧
    ∀ name ∈ before, g.InRange name

/-- What comes of a file. -/
structure Judges (g : Given) (outcome : Except SettingsError Settings) : Prop where
  ok_iff : (∃ settings, outcome = .ok settings) ↔ ∀ name, g.InRange name
  merged : ∀ settings, outcome = .ok settings →
    g.MergedIn settings ∧ settings.limits.validate? = none
  refused : ∀ e, outcome = .error e → ∃ error, e = .limit error ∧ g.Offends error

variable {g : Given} {settings : Settings} {document : Table} {path text : String}

theorem exists_mergedIn (h : g.WrittenIn document) :
    ∃ settings, ofTable? document = some settings ∧ g.MergedIn settings := by
  obtain ⟨limits, hlimits, hlimit⟩ :=
    Fields.exists_of_isSection (f := limitFields) limits?_table read_limit h.limits
  obtain ⟨dump, hdump, hoption⟩ :=
    Fields.exists_of_isSection (f := dumpFields) dumpOptions?_table read_value h.dump
  -- A section that is left out reads as one without entries, so each section has been read.
  have hread : ∀ s : Section,
      (document.lookup s.key).elim (some (sectionFields.get {} s)) (sectionFields.read s) =
        some (sectionFields.get ⟨limits, dump⟩ s)
    | .limits => hlimits
    | .dump => hdump
  obtain ⟨settings, hmerge, hsections⟩ :=
    Fields.exists_merge (f := sectionFields) h.nodup h.known hread
  obtain rfl : settings.limits = limits := hsections .limits
  obtain rfl : settings.dump = dump := hsections .dump
  exact ⟨settings, (ofTable?_eq document).trans hmerge, ⟨hlimit, hoption⟩⟩

theorem accepts_default (name : LimitName) : ({} : Limits).accepts name := by
  cases name <;> decide

/-- The defaults need no check. -/
theorem MergedIn.accepts_iff (h : g.MergedIn settings) (name : LimitName) :
    settings.limits.accepts name ↔ g.InRange name := by
  rw [Limits.accepts, h.limits name, InRange]
  cases g.limits name with
  | none =>
    refine iff_of_true (accepts_default name) fun n hn => ?_
    cases hn
  | some n => simp [Nat.succ_le_iff]

theorem MergedIn.offends (h : g.MergedIn settings) {e : LimitError}
    (hrefused : settings.limits.validate? = some e) : g.Offends e := by
  obtain ⟨name, hfind, rfl⟩ := Option.map_eq_some_iff.mp hrefused
  obtain ⟨hname, before, after, hall, hbefore⟩ := List.find?_eq_some_iff_append.mp hfind
  have hout : ¬ g.InRange name := by
    rw [← h.accepts_iff]
    simpa using hname
  have hgiven : g.limits name = some (settings.limits.get name) := by
    rw [h.limits name]
    cases hlimit : g.limits name with
    | none =>
      refine absurd (fun n hn => ?_) hout
      rw [hlimit] at hn
      cases hn
    | some n => rfl
  refine ⟨hgiven, hout, rfl, before, after, hall, fun other hother => ?_⟩
  rw [← h.accepts_iff]
  simpa using hbefore other hother

/-- A text is judged by what its document gives. -/
theorem judges_decode {read? : String → Option Table} (hread : read? text = some document)
    (hwritten : g.WrittenIn document) : g.Judges (decode read? path text) := by
  obtain ⟨settings, hsettings, hmerged⟩ := exists_mergedIn hwritten
  simp only [decode, hread, Option.bind_some, hsettings]
  cases hvalid : settings.limits.validate? with
  | none =>
    have hrange : ∀ name, g.InRange name := fun name =>
      (hmerged.accepts_iff name).mp (Limits.accepts_of_validate hvalid name)
    refine ⟨iff_of_true ⟨settings, rfl⟩ hrange, ?_, nofun⟩
    rintro _ ⟨rfl⟩
    exact ⟨hmerged, hvalid⟩
  | some e =>
    have hoffends := hmerged.offends hvalid
    refine ⟨iff_of_false nofun fun hrange => hoffends.out_of_range (hrange e.name), nofun, ?_⟩
    rintro _ ⟨rfl⟩
    exact ⟨e, rfl, hoffends⟩

end Given

/-! ## Settings from a text and from a file -/

end Settings

/-- The same error about the document at another path. -/
def SettingsError.inFile (path : String) : SettingsError → SettingsError
  | .malformed _ => .malformed path
  | e => e

namespace Settings

variable {read? : String → Option Table} {path text : String} {settings : Settings}

/-- Settings from a text have limits that are valid, whatever it says. -/
theorem validate?_of_decode (h : decode read? path text = .ok settings) :
    settings.limits.validate? = none := by
  simp only [decode] at h
  split at h
  · cases h
  · split at h
    · cases h
    · next hvalid =>
      obtain rfl := Except.ok.inj h
      exact hvalid

theorem validate?_of_ofText (h : ofText path text = .ok settings) :
    settings.limits.validate? = none :=
  validate?_of_decode h

/-- Only a malformed text brings up where it is from. -/
theorem decode_eq_mapError (read? : String → Option Table) (path text : String) :
    decode read? path text = (decode read? defaultFile text).mapError (·.inFile path) := by
  simp only [decode]
  cases (read? text).bind ofTable? with
  | none => rfl
  | some settings => cases h : settings.limits.validate? <;> simp only [h] <;> rfl

/-- An empty document gives the defaults. -/
theorem decode_of_nil (h : read? text = some []) : decode read? path text = .ok {} := by
  rw [decode, h]
  rfl

theorem load_of_readText (access : FileAccess Id) (h : access.readText path = .ok text) :
    load read? access path = decode read? path text := by
  simp only [load, h, bind, pure]

theorem load_of_notFound (access : FileAccess Id)
    (h : access.readText path = .error .notFound) :
    load read? access path = Except.ok {} := by
  simp only [load, h, bind, pure]

/-- Settings from a file have limits that are valid. -/
theorem validate?_of_load {access : FileAccess Id}
    (h : load read? access path = Except.ok settings) : settings.limits.validate? = none := by
  cases hread : access.readText path with
  | ok text =>
    rw [load_of_readText access hread] at h
    exact validate?_of_decode h
  | error cause =>
    simp only [load, hread, bind, pure] at h
    split at h
    · next htext => cases htext
    · cases h
      rfl
    · cases h

/-- A text is judged by what its document gives.  A file is judged as its text is, with its own path
if the text is malformed, and one that is missing as an empty text, whose document is empty.  All
settings, from a text or from a file, have valid limits. -/
theorem agree_with_given {g : Given} {document : Table} (hread : read? text = some document)
    (hwritten : g.WrittenIn document) (hempty : read? "" = some []) (files : FileAccess Id)
    (path : String) :
    g.Judges (decode read? defaultFile text) ∧
    (∀ found, files.readText path = Except.ok found →
      load read? files path = (decode read? defaultFile found).mapError (·.inFile path)) ∧
    (files.readText path = Except.error .notFound →
      load read? files path = decode read? defaultFile "") ∧
    ∀ found settings,
      decode read? path found = .ok settings ∨ load read? files path = Except.ok settings →
        settings.limits.validate? = none := by
  refine ⟨Given.judges_decode hread hwritten, ?_, ?_, ?_⟩
  · intro found hfound
    rw [load_of_readText files hfound]
    exact decode_eq_mapError read? path found
  · intro hmissing
    exact (load_of_notFound files hmissing).trans (decode_of_nil hempty).symm
  · rintro found settings (h | h)
    · exact validate?_of_decode h
    · exact validate?_of_load h

/-- Two limits out of range. -/
def unreasonable : Given where
  limits
    | .nestingDepth => some 5000
    | .treeNodes => some 0
    | _ => none
  dump
    | .linePrefix => some "% "
    | _ => none

/-- They stand in another order than that in which they are checked. -/
def unreasonableText : String :=
  "[dump]\nprefix = \"% \"\n[limits]\nmax_ast_nodes = 0\nmax_nesting_depth = 5000\n"

/-- The document in the text. -/
def unreasonableDocument : Table :=
  [("dump", .table .header [("prefix", .string "% ")]),
    ("limits", .table .header
      [("max_ast_nodes", .integer 0), ("max_nesting_depth", .integer 5000)])]

theorem writtenIn_unreasonableDocument : unreasonable.WrittenIn unreasonableDocument := by
  refine ⟨by decide, ?_, .present .header ⟨by decide, ?_, ?_⟩,
    .present .header ⟨by decide, ?_, ?_⟩⟩
  · simpa [unreasonableDocument] using ⟨⟨Section.dump, rfl⟩, ⟨Section.limits, rfl⟩⟩
  · simpa using ⟨⟨LimitName.treeNodes, rfl⟩, ⟨LimitName.nestingDepth, rfl⟩⟩
  · intro name
    cases name <;> rfl
  · simpa using ⟨DumpKey.linePrefix, rfl⟩
  · intro key
    cases key <;> rfl

/-- Settings at an absolute path, and nothing else. -/
def settingsFile : FileSystem ByteArray :=
  ⟨.directory [("etc", .directory [("golo.toml", .file unreasonableText.toUTF8)]),
    ("work", .empty)], ["work"]⟩

theorem readText_settingsFile :
    settingsFile.readText "/etc/golo.toml" = .ok unreasonableText ∧
      settingsFile.readText "golo.toml" = .error .notFound := by
  have hsplit : "/etc/golo.toml".splitOn "/" = ["", "etc", "golo.toml"] := by
    rw [splitOn_slash]; decide
  have hsplit' : "golo.toml".splitOn "/" = ["golo.toml"] := by rw [splitOn_slash]; decide
  have hcontent : String.fromUTF8? unreasonableText.toUTF8 = some unreasonableText :=
    dif_pos unreasonableText.isValidUTF8
  have hfile : settingsFile.lookup? "/etc/golo.toml" = .ok (.file unreasonableText.toUTF8) := by
    rw [FileSystem.lookup?, hsplit]
    rfl
  have hmissing : settingsFile.lookup? "golo.toml" = .error .notFound := by
    rw [FileSystem.lookup?, hsplit']
    rfl
  constructor
  · simp only [FileSystem.readText, hfile, hcontent]
  · simp only [FileSystem.readText, hmissing]

/-- The error is about the depth of nesting, which is checked first. -/
theorem agree_with_given_unreasonable :
    Toml.Document.read? unreasonableText = some unreasonableDocument ∧
      unreasonable.WrittenIn unreasonableDocument ∧
      unreasonable.Judges (decode Toml.Document.read? defaultFile unreasonableText) ∧
      load Toml.Document.read? settingsFile.access "/etc/golo.toml" =
        Except.error (.limit ⟨.nestingDepth, 5000⟩) ∧
      load Toml.Document.read? settingsFile.access "golo.toml" = Except.ok {} := by
  have hread : Toml.Document.read? unreasonableText = some unreasonableDocument := by rfl
  have hempty : Toml.Document.read? "" = some [] := by rfl
  obtain ⟨htext, hmissing⟩ := readText_settingsFile
  obtain ⟨hjudges, hfile, -⟩ := agree_with_given hread writtenIn_unreasonableDocument hempty
    settingsFile.access "/etc/golo.toml"
  obtain ⟨-, -, hnone, -⟩ := agree_with_given hread writtenIn_unreasonableDocument hempty
    settingsFile.access "golo.toml"
  refine ⟨hread, writtenIn_unreasonableDocument, hjudges, ?_, ?_⟩
  · have hrefused : decode Toml.Document.read? defaultFile unreasonableText =
        .error (.limit ⟨.nestingDepth, 5000⟩) := by
      simp only [decode, hread]
      rfl
    rw [hfile _ htext, hrefused]
    rfl
  · exact (hnone hmissing).trans (decode_of_nil hempty)

end Settings
end GoloSyntax
