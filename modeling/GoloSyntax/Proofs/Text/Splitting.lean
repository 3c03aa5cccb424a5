import Mathlib.Data.String.Basic

/-! # Splitting texts at slashes

`String.splitOn` goes through the bytes of a text.  At slashes, which are one byte long, it cuts the
list of its characters (`splitOn_slash`), and so no slash is left (`slash_not_mem_of_mem_splitOn`)
and what is appended behind a slash is split off whole (`splitOn_append_slash`).
-/
namespace GoloSyntax

open String

/-- Between the last cut and the end of what is looked at lie the characters `m`. -/
theorem splitOnAux_slash (l m r : List Char) (acc : List String) :
    splitOnAux (ofList (l ++ m ++ r)) "/" ⟨utf8Len l⟩ ⟨utf8Len l + utf8Len m⟩ 0 acc =
      acc.reverse ++ (List.splitOnPPrepend (· == '/') r m.reverse).map ofList := by
  have hend := atEnd_of_valid (l ++ m) r
  have hget := get_of_valid (l ++ m) r
  rw [utf8Len_append] at hend hget
  have hslash : Pos.Raw.get "/" 0 = '/' := by decide
  have hbehind : Pos.Raw.next "/" 0 = ⟨1⟩ := by decide
  have hdone : Pos.Raw.atEnd "/" ⟨1⟩ = true := by decide
  rw [splitOnAux]
  simp only [hend, hget, hslash, hbehind, hdone, if_true]
  cases r with
  | nil =>
    rw [if_pos rfl]
    simpa using extract_of_valid l m []
  | cons c r =>
    have hnext := next_of_valid (l ++ m) c r
    rw [utf8Len_append] at hnext
    rw [if_neg (List.cons_ne_nil c r), hnext, List.headD_cons, List.splitOnPPrepend_cons_eq_if]
    by_cases hc : c = '/'
    · subst hc
      -- The text goes up to the byte in front of the one behind the slash.
      have hcut : (⟨utf8Len l + utf8Len m + '/'.utf8Size⟩ : Pos.Raw).unoffsetBy ⟨1⟩ =
          ⟨utf8Len l + utf8Len m⟩ := rfl
      rw [if_pos (by rfl), if_pos (by rfl), hcut, extract_of_valid l m ('/' :: r)]
      simpa [-ofList_append, Nat.add_assoc] using
        splitOnAux_slash (l ++ m ++ ['/']) [] r (ofList m :: acc)
    · rw [if_neg (by simpa using hc), if_neg (by simpa using hc)]
      have hstay : Pos.Raw.next (ofList (l ++ m ++ c :: r))
          ((⟨utf8Len l + utf8Len m⟩ : Pos.Raw).unoffsetBy 0) =
            ⟨utf8Len l + utf8Len m + c.utf8Size⟩ := hnext
      rw [hstay]
      simpa [-ofList_append, Nat.add_assoc] using splitOnAux_slash l (m ++ [c]) r acc
termination_by r.length

/-- The segments of a path are those of its characters. -/
theorem splitOn_slash (path : String) :
    path.splitOn "/" = (path.toList.splitOnP (· == '/')).map ofList := by
  have hfirst := splitOnAux_slash [] [] path.toList []
  rw [List.append_nil, List.nil_append, ofList_toList] at hfirst
  exact hfirst

theorem splitOn_slash_ne_nil (path : String) : path.splitOn "/" ≠ [] := by
  rw [splitOn_slash]
  exact mt List.map_eq_nil_iff.mp (List.splitOnP_ne_nil _ _)

theorem slash_not_mem_of_mem_splitOn {path segment : String} (h : segment ∈ path.splitOn "/") :
    '/' ∉ segment.toList := by
  rw [splitOn_slash] at h
  obtain ⟨piece, hpiece, rfl⟩ := List.mem_map.mp h
  rw [toList_ofList]
  clear h
  generalize path.toList = cs at hpiece
  induction cs generalizing piece with
  | nil =>
    obtain rfl : piece = [] := by simpa using hpiece
    exact List.not_mem_nil
  | cons c cs ih =>
    rw [List.splitOnP_cons_eq_if_modifyHead] at hpiece
    obtain ⟨first, rest, hrest⟩ :=
      List.exists_cons_of_ne_nil (List.splitOnP_ne_nil (· == '/') cs)
    rw [hrest] at hpiece ih
    split at hpiece
    · rcases List.mem_cons.mp hpiece with rfl | hpiece
      · exact List.not_mem_nil
      · exact ih piece hpiece
    · next hc =>
      rcases List.mem_cons.mp hpiece with rfl | hpiece
      · have hne : '/' ≠ c := fun hslash => hc (beq_iff_eq.mpr hslash.symm)
        exact List.not_mem_cons_of_ne_of_not_mem hne (ih first List.mem_cons_self)
      · exact ih piece (List.mem_cons_of_mem _ hpiece)

/-- What is appended behind a slash is split off. -/
theorem splitOn_append_slash (path : String) {name : String} (h : '/' ∉ name.toList) :
    (path ++ "/" ++ name).splitOn "/" = path.splitOn "/" ++ [name] := by
  have hname : name.toList.splitOnP (· == '/') = [name.toList] := by
    refine List.splitOnP_eq_singleton fun c hc => ?_
    rw [beq_eq_false_iff_ne]
    rintro rfl
    exact h hc
  have hlist : (path ++ "/" ++ name).toList = path.toList ++ '/' :: name.toList := by simp
  rw [splitOn_slash, splitOn_slash, hlist, List.splitOnP_append_cons _ _ (by rfl), hname]
  simp

end GoloSyntax
