import GoloSyntax.Proofs.Files.Settings
import GoloSyntax.Proofs.Reading.Limits
import GoloSyntax.Proofs.Shape.Listing

/-! # How far dumps are indented

The limits of a settings file are held against their ranges, the blanks for each level of a dump are
not.  So the blanks of a line can be more than a word of 64 bits counts
(`indentation_of_largest_indent`), although no node is deeper than there are nodes.  They are not
more if the blanks for each level, once for each node below the first one, fit into such a word
(`indentation_lt_of_ofText`).
-/
namespace GoloSyntax

variable {source : String} {limits : Limits} {t : Tree} {id : NodeId}

/-- The nodes of a source are within the limit. -/
theorem size_le_of_parseSource (h : parseSource source limits = .ok t) :
    t.size ≤ limits.maxTreeNodes := by
  simp only [parseSource] at h
  split at h
  · cases h
  · exact size_le_of_parse h

/-- With settings that are accepted, a dump has a line for each entry, none deeper than the limit
on nodes says, and the blanks in front of it can be counted if they can for the deepest one. -/
theorem indentation_lt_of_ofText {path text : String} {settings : Settings}
    (hsettings : Settings.ofText path text = .ok settings)
    (hindent : (settings.limits.maxTreeNodes - 1) * settings.dump.indent < 2 ^ 64)
    (h : parseSource source settings.limits = .ok t) (hid : id.index < t.size) :
    t.dumpLines id settings.dump =
        (t.entries 0 id).map (fun e => (t.dump id settings.dump).line e.1 e.2) ∧
      ∀ e ∈ t.entries 0 id, e.2 < settings.limits.maxTreeNodes ∧ e.2 < 10000000 ∧
        e.2 * settings.dump.indent < 2 ^ 64 := by
  obtain ⟨hshows, hcount⟩ := shows_of_parseSource h hid
  refine ⟨hshows.dumpLines_eq_map_line hcount _, fun e he => ?_⟩
  have hdepth := hshows.depth_lt_of_mem_entriesFrom hcount he
  have hsize := size_le_of_parseSource h
  have hceiling : settings.limits.maxTreeNodes ≤ 10000000 :=
    Limits.get_le_ceiling (Limits.accepts_of_validate (Settings.validate?_of_ofText hsettings)
      .treeNodes)
  refine ⟨by omega, by omega, ?_⟩
  calc e.2 * settings.dump.indent
      ≤ (settings.limits.maxTreeNodes - 1) * settings.dump.indent :=
        Nat.mul_le_mul_right _ (by omega)
    _ < 2 ^ 64 := hindent

/-- Four quintillion blanks for each level can be counted if there are only five nodes. -/
theorem indentation_lt_of_five_nodes : ∃ settings t,
    Settings.ofText "golo.toml"
        "[limits]\nmax_ast_nodes = 5\n[dump]\nindent = 4000000000000000000\n" = .ok settings ∧
      (settings.limits.maxTreeNodes - 1) * settings.dump.indent < 2 ^ 64 ∧
      parseSource "module m\nfunction f = -> 1" settings.limits = .ok t ∧
      t.dumpLines ⟨0⟩ settings.dump =
        (t.entries 0 ⟨0⟩).map (fun e => (t.dump ⟨0⟩ settings.dump).line e.1 e.2) ∧
      ∀ e ∈ t.entries 0 ⟨0⟩, e.2 < settings.limits.maxTreeNodes ∧ e.2 < 10000000 ∧
        e.2 * settings.dump.indent < 2 ^ 64 := by
  have htext : (Settings.ofText "golo.toml"
      "[limits]\nmax_ast_nodes = 5\n[dump]\nindent = 4000000000000000000\n").toOption.any
      fun settings => settings =
        { limits := { maxTreeNodes := 5 }, dump := { indent := 4000000000000000000 } } := by
    decide +kernel
  obtain ⟨settings, hsettings, hfacts⟩ := exists_ok_of_any htext
  obtain rfl := of_decide_eq_true hfacts
  have hparse : (parseSource "module m\nfunction f = -> 1" { maxTreeNodes := 5 }).toOption.any
      fun t => 0 < t.size := by
    decide +kernel
  obtain ⟨t, h, hfacts⟩ := exists_ok_of_any hparse
  have hid : (⟨0⟩ : NodeId).index < t.size := of_decide_eq_true hfacts
  exact ⟨_, t, hsettings, by decide, h, indentation_lt_of_ofText hsettings (by decide) h hid⟩

/-- The largest integer that a settings file can hold is accepted, and three times as many blanks
are too many. -/
theorem indentation_of_largest_indent : ∃ settings t,
    Settings.ofText "golo.toml" "[dump]\nindent = 9223372036854775807\n" = .ok settings ∧
      parseSource "module m\nfunction f = -> 1" settings.limits = .ok t ∧
      ∃ e ∈ t.entries 0 ⟨0⟩,
        (t.dump ⟨0⟩ settings.dump).line e.1 e.2 ∈ t.dumpLines ⟨0⟩ settings.dump ∧
        2 ^ 64 ≤ e.2 * settings.dump.indent := by
  have htext : (Settings.ofText "golo.toml"
      "[dump]\nindent = 9223372036854775807\n").toOption.any
      fun settings => settings = { dump := { indent := 2 ^ 63 - 1 } } := by
    decide +kernel
  obtain ⟨settings, hsettings, hfacts⟩ := exists_ok_of_any htext
  obtain rfl := of_decide_eq_true hfacts
  have hparse : (parseSource "module m\nfunction f = -> 1" {}).toOption.any
      fun t => 0 < t.size ∧ (⟨4⟩, 3) ∈ t.entries 0 ⟨0⟩ := by
    decide +kernel
  obtain ⟨t, h, hfacts⟩ := exists_ok_of_any hparse
  have hid : (⟨0⟩ : NodeId).index < t.size := (of_decide_eq_true hfacts).1
  have hentry : (⟨4⟩, 3) ∈ t.entries 0 ⟨0⟩ := (of_decide_eq_true hfacts).2
  obtain ⟨hshows, hcount⟩ := shows_of_parseSource h hid
  refine ⟨_, t, hsettings, h, (⟨4⟩, 3), hentry, ?_, by decide⟩
  rw [hshows.dumpLines_eq_map_line hcount]
  exact List.mem_map_of_mem hentry

end GoloSyntax
