import GoloSyntax.Proofs.Access.Run
import GoloSyntax.Proofs.Reading.Source
import GoloSyntax.Proofs.Reading.Truncation

/-! # The first end of input

A token array is read as its list of tokens in front of the first end of input is
(`Indexed.exists_parse_eq`): the index comes no further than to that end, and stands there when
everything was read.  What stands behind it is never looked at, and an array without an end of input
is read as if there was one behind its last token (`parse_of_firstEnd`).
-/
namespace GoloSyntax

/-! ## Where an array is cut -/

theorem kind_of_mem_splitAtEnd {tokens : Array Token} {t : Token} (ht : t ∈ (splitAtEnd tokens).1) :
    t.kind ≠ .endOfInput := by
  simpa using List.mem_takeWhile_imp ht

/-- An array is cut at its first end of input, whatever stands behind. -/
theorem splitAtEnd_of_append {tokens : Array Token} {front others : List Token} {stop : Token}
    (htokens : tokens.toList = front ++ stop :: others)
    (hfront : ∀ t ∈ front, t.kind ≠ .endOfInput) (hstop : stop.kind = .endOfInput) :
    splitAtEnd tokens = (front, stop) := by
  have hall : ∀ t ∈ front, (t.kind != .endOfInput) = true := by simpa using hfront
  rw [splitAtEnd_eq, htokens, List.takeWhile_append_of_pos hall, List.dropWhile_append_of_pos hall]
  simp [hstop]

namespace TokenStream

variable {stream : TokenStream} {limits : Limits} {e : Nat}

/-- The index of the first end of input. -/
def firstEnd? (stream : TokenStream) : Option Nat :=
  stream.tokens.toList.findIdx? (·.kind == .endOfInput)

/-- What stands in front of the first end of input. -/
theorem exists_of_firstEnd (h : stream.firstEnd? = some e) : ∃ stop,
    stream.tokens.toList.take (e + 1) = stream.tokens.toList.take e ++ [stop] ∧
      (stream.tokens.toList.take e).length = e ∧
      (∀ t ∈ stream.tokens.toList.take e, t.kind ≠ .endOfInput) ∧ stop.kind = .endOfInput := by
  obtain ⟨hlt, hstop, hfront⟩ := List.findIdx?_eq_some_iff_getElem.mp h
  refine ⟨stream.tokens.toList[e], ?_, ?_, ?_, ?_⟩
  · exact (List.take_append_getElem hlt).symm
  · exact List.length_take_of_le (Nat.le_of_lt hlt)
  · intro t ht
    obtain ⟨k, hk, rfl⟩ := List.mem_iff_getElem.mp ht
    rw [List.length_take] at hk
    simpa using hfront k (by omega)
  · simpa using hstop

/-- The tokens with an end of input behind them begin with those that are read. -/
theorem exists_toList_ended (stream : TokenStream) : ∃ others, stream.ended.toList =
    (splitAtEnd stream.tokens).1 ++ (splitAtEnd stream.tokens).2 :: others := by
  -- Something is added also to an array whose end of input is not its last token.
  obtain ⟨more, hended, hmore⟩ : ∃ more, stream.ended.toList = stream.tokens.toList ++ more ∧
      ((∀ t ∈ stream.tokens, t.kind ≠ .endOfInput) → more = [.endAt stream.stop]) := by
    rw [ended]
    split
    · next hback =>
      obtain ⟨t, ht, hkind⟩ := (Option.any_eq_true _ _).mp hback
      refine ⟨[], (List.append_nil _).symm, fun hall => ?_⟩
      exact absurd (by simpa using hkind) (hall t (Array.mem_of_back? ht))
    · exact ⟨_, Array.toList_push, fun _ => rfl⟩
  have hsplit := List.takeWhile_append_dropWhile (p := (·.kind != .endOfInput))
    (l := stream.tokens.toList)
  rw [splitAtEnd_eq, hended]
  cases hrest : stream.tokens.toList.dropWhile (·.kind != .endOfInput) with
  | nil =>
    have hall := List.dropWhile_eq_nil_iff.mp hrest
    refine ⟨[], ?_⟩
    rw [hmore fun t ht => by simpa using hall t (Array.mem_toList_iff.mpr ht),
      List.takeWhile_eq_self_iff.mpr hall]
    rfl
  | cons stop others =>
    refine ⟨others ++ more, ?_⟩
    rw [hrest] at hsplit
    rw [← List.cons_append, ← List.append_assoc]
    exact congrArg (· ++ more) hsplit.symm

end TokenStream

/-- Nothing is left of what was read as a compilation unit. -/
theorem Reading.rest_eq_nil_of_enter {c : Context} (hend : c.endToken.kind = .endOfInput)
    {levels : Nat} {p : Position} {s s' : State} {root : NodeId}
    (hfront : ∀ t ∈ s.rest, t.kind ≠ .endOfInput)
    (h : Rule.enter c levels .compilationUnit p s = .ok (root, s')) : s'.rest = [] := by
  cases levels with
  | zero => cases h
  | succ n =>
    obtain ⟨⟨_, xs⟩, ⟨-, hreads⟩, -⟩ := (fills_compilationUnit (P := fun _ => True)
      (site_calls s'.tree.symbols.text? hend n)).sound trivial h fun _ _ htext => htext
    refine List.map_eq_nil_iff.mp (hreads.rest_eq_nil fun l hl => ?_)
    obtain ⟨piece, hpiece, rfl⟩ := List.mem_map.mp hl
    obtain ⟨t, ht, rfl⟩ := List.mem_map.mp hpiece
    exact hfront t ht

namespace Indexed

open Reading (Hold)

variable {stream : TokenStream} {limits : Limits}

/-- Where reading a token stream begins. -/
def beginning (stream : TokenStream) : Reading.State :=
  ⟨(splitAtEnd stream.tokens).1, .start, .ofSymbols stream.symbols⟩

/-- A token stream on both machines. -/
def Setting.ofStream (stream : TokenStream) (limits : Limits)
    (licence : Licence (stream.context limits)) : Setting where
  machine := .ofStream licence.permits stream limits
  context := stream.context limits
  stop := (splitAtEnd stream.tokens).1.length
  licence := licence
  permits := rfl
  maxDepth := rfl
  maxNodes := rfl
  rounds := rfl
  endKind := stream.kind_endToken limits
  endToken := by
    obtain ⟨others, hended⟩ := stream.exists_toList_ended
    show stream.ended[_]? = _
    rw [← Array.getElem?_toList, hended, List.getElem?_append_right (Nat.le_refl _), Nat.sub_self]
    rfl

theorem stands_beginning {licence : Licence (stream.context limits)}
    (hroom : stream.symbols.size + 2 * (splitAtEnd stream.tokens).1.length ≤ licence.room)
    (hinv : licence.inv (beginning stream)) :
    Stands (.ofStream stream limits licence) licence.room ⟨[Tree.root], [], none, 0⟩
      ⟨0, 0, .start, .ofSymbols stream.symbols⟩ (beginning stream) := by
  have hroot : 0 < (Tree.ofSymbols stream.symbols).size := Nat.zero_lt_one
  refine ⟨⟨Nat.zero_add _, rfl, fun k hk => ?_, fun _ ht => kind_of_mem_splitAtEnd ht, rfl, rfl⟩,
    ⟨hroot, fun id hid => ?_, nofun, nofun, hroom⟩, hinv⟩
  · obtain ⟨others, hended⟩ := stream.exists_toList_ended
    show stream.ended[0 + k]? = (splitAtEnd stream.tokens).1[k]?
    rw [Nat.zero_add, ← Array.getElem?_toList, hended]
    exact List.getElem?_append_left hk
  · rw [List.mem_singleton.mp hid]
    exact hroot

/-- Reading by index comes to what reading the list in front of the first end of input comes to,
if everything is permitted that safe programs do. -/
theorem exists_parse_eq (licence : Licence (stream.context limits))
    (hroom : stream.symbols.size + 2 * (splitAtEnd stream.tokens).1.length ≤ licence.room)
    (hinv : licence.inv (beginning stream)) : ∃ si, parse licence.permits stream limits =
      some (GoloSyntax.parse stream limits, si) ∧
        si.furthest ≤ (splitAtEnd stream.tokens).1.length ∧
        ∀ t, GoloSyntax.parse stream limits = .ok t →
          si.current = (splitAtEnd stream.tokens).1.length ∧
            ∃ s root, licence.inv s ∧ t = s.tree.setSpan root stream.unitSpan := by
  let S := Setting.ofStream stream limits licence
  have hstands := stands_beginning hroom hinv
  have hagree : Agree S (fun root si s => (∃ h, Stands S licence.room h si s ∧ root ∈ h.nodes) ∧
      s.rest = [])
      (enter (.ofStream licence.permits stream limits) limits.maxNestingDepth .compilationUnit
        .start ⟨0, 0, .start, .ofSymbols stream.symbols⟩)
      (Rule.enter (stream.context limits) limits.maxNestingDepth .compilationUnit .start
        ⟨(splitAtEnd stream.tokens).1, .start, .ofSymbols stream.symbols⟩) :=
    (agree_enter limits.maxNestingDepth .compilationUnit .start _ _ _ (Nat.le_refl _) hstands).and
      fun root s hrun => Reading.rest_eq_nil_of_enter S.endKind hstands.along.front hrun
  rw [parse_eq, parse]
  revert hagree
  generalize enter (.ofStream licence.permits stream limits) limits.maxNestingDepth .compilationUnit
    .start ⟨0, 0, .start, .ofSymbols stream.symbols⟩ = x, Rule.enter (stream.context limits)
      limits.maxNestingDepth .compilationUnit .start
        ⟨(splitAtEnd stream.tokens).1, .start, .ofSymbols stream.symbols⟩ = y
  rintro (@⟨root, si, s, ⟨⟨h, hs, hroot⟩, hrest⟩⟩ | @⟨e, si, hfurthest⟩)
  · -- The last step is to end the root, at the end of input.
    have hcurrent : s.current S.context = S.context.endToken := by
      rw [Reading.State.current, hrest]
      rfl
    have hpermits : licence.permits (.closeNode root) (s.current S.context) s.tree :=
      licence.grants hs.inv hs.covers hroot
    have hplace := hs.along.place
    rw [hrest] at hplace
    refine ⟨si, ?_, hs.along.furthest_le, fun t ht => ⟨hplace, s, root, hs.inv, ?_⟩⟩
    · rw [Outcome.andThen]
      show State.look S.machine si _ = _
      rw [hs.along.look, hs.along.tree, if_pos hpermits, hcurrent]
      rfl
    · exact (Except.ok.inj ht).symm
  · exact ⟨si, rfl, hfurthest, fun t ht => by cases ht⟩

/-- Where every step is permitted. -/
def Licence.free (stream : TokenStream) (limits : Limits) : Licence (stream.context limits) where
  permits _ _ _ := true
  room := stream.symbols.size + 2 * (splitAtEnd stream.tokens).1.length
  inv _ := True
  grants _ _ _ := rfl
  keeps _ _ _ _ := trivial

end Indexed

/-- Nothing behind the first end of input matters: reading the tokens by index comes to the same
with any others behind it, and the index never goes beyond that end, and stands there when reading
succeeds.  Tokens without an end of input are read as with one of no extent where the last of them
ends. -/
theorem parse_of_firstEnd (stream : TokenStream) (limits : Limits) :
    (∀ e, stream.firstEnd? = some e →
      (∀ others : Array Token,
        parse ⟨(stream.take (e + 1)).tokens ++ others, stream.symbols⟩ limits =
          parse stream limits) ∧
      ∃ si, Indexed.parse (fun _ _ _ => true) stream limits = some (parse stream limits, si) ∧
        si.furthest ≤ e ∧ ∀ t, parse stream limits = .ok t → si.current = e) ∧
    (stream.firstEnd? = none →
      parse ⟨stream.tokens.push (.endAt stream.stop), stream.symbols⟩ limits =
        parse stream limits) := by
  refine ⟨fun e he => ?_, fun hnone => ?_⟩
  · obtain ⟨stop, htake, hlength, hfront, hstop⟩ := TokenStream.exists_of_firstEnd he
    have hsplit (tokens : Array Token) (others : List Token)
        (htokens : tokens.toList = stream.tokens.toList.take (e + 1) ++ others) :
        splitAtEnd tokens = (stream.tokens.toList.take e, stop) := by
      rw [htake, List.append_assoc] at htokens
      exact splitAtEnd_of_append htokens hfront hstop
    have hwhole := hsplit stream.tokens _ (List.take_append_drop _ _).symm
    refine ⟨fun others => parse_congr limits ?_ rfl, ?_⟩
    · rw [hwhole]
      apply hsplit _ others.toList
      rw [Array.toList_append, toList_take]
    · obtain ⟨si, hparse, hfurthest, hcurrent⟩ :=
        Indexed.exists_parse_eq (.free stream limits) (Nat.le_refl _) trivial
      rw [hwhole, hlength] at hfurthest hcurrent
      exact ⟨si, hparse, hfurthest, fun t ht => (hcurrent t ht).1⟩
  · have hfront : ∀ t ∈ stream.tokens.toList, t.kind ≠ .endOfInput := by
      intro t ht
      simpa using List.findIdx?_eq_none_iff.mp hnone t ht
    refine parse_congr limits ?_ rfl
    rw [splitAtEnd_of_append Array.toList_push hfront rfl, splitAtEnd_of_forall hfront]
    rfl

/-- A plus sign and another end of input behind the end of input. -/
theorem parse_of_firstEnd_stray : ∃ stream : TokenStream,
    stream.kinds = [.keyword .module_, .identifier, .endOfInput, .mark .plus, .endOfInput] ∧
    stream.firstEnd? = some 2 ∧ (stream.take 2).firstEnd? = none ∧
    (∃ t, parse stream {} = .ok t) ∧
    (∀ others : Array Token,
      parse ⟨(stream.take 3).tokens ++ others, stream.symbols⟩ {} = parse stream {}) ∧
    (∃ si, Indexed.parse (fun _ _ _ => true) stream {} = some (parse stream {}, si) ∧
      si.furthest ≤ 2 ∧ ∀ t, parse stream {} = .ok t → si.current = 2) ∧
    parse ⟨(stream.take 2).tokens.push (.endAt (stream.take 2).stop), stream.symbols⟩ {} =
      parse (stream.take 2) {} := by
  let stream : TokenStream := ⟨#[⟨.keyword .module_, .empty .start, none⟩,
    ⟨.identifier, .empty .start, some ⟨0⟩⟩, .endAt .start, ⟨.mark .plus, .empty .start, none⟩,
    .endAt .start], (SymbolTable.empty.intern "m").2⟩
  have hend : stream.firstEnd? = some 2 := by decide
  have hnone : (stream.take 2).firstEnd? = none := by decide
  have hread : (parse stream {}).toOption.isSome := by decide +kernel
  obtain ⟨hothers, hindexed⟩ := (parse_of_firstEnd stream {}).1 2 hend
  refine ⟨stream, rfl, hend, hnone, ?_, hothers, hindexed,
    (parse_of_firstEnd (stream.take 2) {}).2 hnone⟩
  cases hparse : parse stream {} with
  | error e =>
    rw [hparse] at hread
    cases hread
  | ok t => exact ⟨t, rfl⟩

end GoloSyntax
