import GoloSyntax.Proofs.Token.Texts
import Mathlib.Algebra.Group.Nat.Defs
import Mathlib.Data.Finset.Card
import Mathlib.Data.List.Forall2
import Mathlib.Data.List.Nodup

/-! # Numbering texts

A table that is given one text after the other lists each of them once, in the order in which it
first appears (`enumerates_internAll`), and answers with its place in that list
(`internAll_eq_map`).  Nothing is ever moved, so an answer goes on standing for the text that it was
given for (`forall₂_internAll`, `within_internAll`).  `Numbers` puts together what this comes to.
-/
namespace GoloSyntax

section FirstAppearances

variable {α β : Type} [DecidableEq α] [DecidableEq β]

theorem eraseDups_concat (xs : List α) (x : α) :
    (xs ++ [x]).eraseDups = if x ∈ xs then xs.eraseDups else xs.eraseDups ++ [x] := by
  rw [List.eraseDups_append]
  by_cases hx : x ∈ xs
  · simp [hx, List.removeAll]
  · simp [hx, List.removeAll, List.eraseDups_cons]

theorem nodup_eraseDups (xs : List α) : xs.eraseDups.Nodup := by
  induction xs using List.reverseRecOn with
  | nil => exact List.nodup_nil
  | append_singleton xs x ih =>
    rw [eraseDups_concat]
    split
    · exact ih
    · next hx =>
      refine List.nodup_append.mpr ⟨ih, List.nodup_singleton x, ?_⟩
      rintro a ha b hb rfl
      exact hx (List.mem_singleton.mp hb ▸ List.mem_eraseDups.mp ha)

/-- What is told apart by a function appears first where its values do. -/
theorem eraseDups_map {f : α → β} {xs : List α}
    (hf : ∀ a ∈ xs, ∀ b ∈ xs, f a = f b → a = b) :
    (xs.map f).eraseDups = xs.eraseDups.map f := by
  induction xs using List.reverseRecOn with
  | nil => rfl
  | append_singleton xs x ih =>
    have hprior := ih fun a ha b hb =>
      hf a (List.mem_append_left _ ha) b (List.mem_append_left _ hb)
    have hmem : f x ∈ xs.map f ↔ x ∈ xs := by
      refine ⟨fun h => ?_, List.mem_map_of_mem⟩
      obtain ⟨a, ha, heq⟩ := List.mem_map.mp h
      have hx : x ∈ xs ++ [x] := List.mem_append_right _ (List.mem_singleton_self x)
      exact hf a (List.mem_append_left _ ha) x hx heq ▸ ha
    rw [List.map_append, List.map_singleton, eraseDups_concat, eraseDups_concat, hprior]
    by_cases hx : x ∈ xs
    · rw [if_pos (hmem.mpr hx), if_pos hx]
    · rw [if_neg (mt hmem.mp hx), if_neg hx, List.map_append, List.map_singleton]

end FirstAppearances

namespace SymbolTable

variable {t : SymbolTable} {s : Symbol} {text : String} {given : List String}

/-! ## One text -/

theorem text?_iff : t.text? s = some text ↔ t.numbers[text]? = some s.index :=
  (t.numbers_iff text s.index).symm

theorem mem_texts_iff : text ∈ t.texts.toList ↔ ∃ s, t.text? s = some text := by
  rw [Array.mem_toList_iff, Array.mem_iff_getElem?]
  exact ⟨fun ⟨i, hi⟩ => ⟨⟨i⟩, hi⟩, fun ⟨s, hs⟩ => ⟨s.index, hs⟩⟩

/-- A text that is listed is answered by its symbol, and the table stays as it is. -/
theorem intern_of_text? (h : t.text? s = some text) : t.intern text = (s, t) := by
  obtain ⟨texts, numbers, agree⟩ := t
  have hnumber : numbers[text]? = some s.index := text?_iff.mp h
  unfold intern
  dsimp only
  split
  · next number hfound =>
    obtain rfl : number = s.index := Option.some.inj (hfound.symm.trans hnumber)
    rfl
  · next hfresh =>
    rw [hnumber] at hfresh
    cases hfresh

/-- A text that is not listed is listed behind the others. -/
theorem toList_texts_intern (h : text ∉ t.texts.toList) :
    (t.intern text).2.texts.toList = t.texts.toList ++ [text] := by
  have hfresh : t.numbers[text]? = none := by
    cases hnumber : t.numbers[text]? with
    | none => rfl
    | some number => exact absurd (mem_texts_iff.mpr ⟨⟨number⟩, text?_iff.mpr hnumber⟩) h
  obtain ⟨texts, numbers, agree⟩ := t
  unfold intern
  dsimp only at hfresh ⊢
  split
  · next number hfound =>
    rw [hfresh] at hfound
    cases hfound
  · exact Array.toList_push

/-- What has been given is listed, each text once, in order of first appearance. -/
def Enumerates (t : SymbolTable) (given : List String) : Prop :=
  t.texts.toList = given.eraseDups

theorem Enumerates.intern (h : t.Enumerates given) (text : String) :
    (t.intern text).2.Enumerates (given ++ [text]) := by
  have hmem : text ∈ t.texts.toList ↔ text ∈ given := by
    rw [h]
    exact List.mem_eraseDups
  rw [Enumerates, eraseDups_concat, ← h]
  by_cases htext : text ∈ given
  · obtain ⟨s, hs⟩ := mem_texts_iff.mp (hmem.mpr htext)
    rw [intern_of_text? hs, if_pos htext]
  · rw [if_neg htext]
    exact toList_texts_intern (mt hmem.mp htext)

/-! ## One text after the other -/

/-- The answers to some texts, entered one after the other, and the table behind the last one. -/
def internAll (t : SymbolTable) : List String → List Symbol × SymbolTable
  | [] => ([], t)
  | text :: texts =>
    let (symbol, t) := t.intern text
    let (symbols, t) := t.internAll texts
    (symbol :: symbols, t)

theorem internAll_append (t : SymbolTable) (xs ys : List String) :
    t.internAll (xs ++ ys) = ((t.internAll xs).1 ++ ((t.internAll xs).2.internAll ys).1,
      ((t.internAll xs).2.internAll ys).2) := by
  induction xs generalizing t with
  | nil => rfl
  | cons x xs ih => simp only [List.cons_append, internAll, ih]

theorem within_internAll (t : SymbolTable) (texts : List String) :
    t.Within (t.internAll texts).2 := by
  induction texts generalizing t with
  | nil => exact .refl t
  | cons text texts ih => exact (t.within_intern text).trans (ih (t.intern text).2)

theorem Enumerates.internAll (h : t.Enumerates given) (texts : List String) :
    (t.internAll texts).2.Enumerates (given ++ texts) := by
  induction texts generalizing t given with
  | nil => rwa [List.append_nil]
  | cons text texts ih =>
    rw [List.append_cons]
    exact ih (h.intern text)

theorem enumerates_internAll (given : List String) :
    (empty.internAll given).2.Enumerates given :=
  have hempty : empty.Enumerates [] := rfl
  hempty.internAll given

/-- Every answer stands for its text in the end. -/
theorem forall₂_internAll (t : SymbolTable) (texts : List String) :
    List.Forall₂ (fun s text => (t.internAll texts).2.text? s = some text)
      (t.internAll texts).1 texts := by
  induction texts generalizing t with
  | nil => exact .nil
  | cons text texts ih =>
    refine .cons ?_ (ih _)
    exact within_internAll (t.intern text).2 texts _ _ (t.text?_intern text)

theorem Enumerates.text?_iff (h : t.Enumerates given) :
    t.text? s = some text ↔ text ∈ given ∧ s = ⟨given.eraseDups.idxOf text⟩ := by
  have hplace : t.text? s = some text ↔ given.eraseDups[s.index]? = some text := by
    rw [← h, Array.getElem?_toList]
    rfl
  rw [hplace]
  constructor
  · intro hs
    obtain ⟨hlt, hget⟩ := List.getElem?_eq_some_iff.mp hs
    have hindex : given.eraseDups.idxOf text = s.index := by
      rw [← hget]
      exact (nodup_eraseDups given).idxOf_getElem _ hlt
    exact ⟨List.mem_eraseDups.mp (List.mem_of_getElem? hs), congrArg Symbol.mk hindex.symm⟩
  · rintro ⟨htext, rfl⟩
    exact List.getElem?_idxOf (List.mem_eraseDups.mpr htext)

/-- The answer to a text is its place among the first appearances. -/
theorem internAll_eq_map (given : List String) :
    (empty.internAll given).1 = given.map fun text => ⟨given.eraseDups.idxOf text⟩ := by
  have hall := (forall₂_internAll empty given).imp fun s text hs =>
    ((enumerates_internAll given).text?_iff.mp hs).2
  rwa [← List.forall₂_map_right_iff (R := Eq), List.forall₂_eq_eq_eq] at hall

theorem Enumerates.size_eq (h : t.Enumerates given) : t.size = given.toFinset.card := by
  have hset : given.eraseDups.toFinset = given.toFinset := by
    ext text
    simp
  calc t.size = t.texts.toList.length := Array.length_toList.symm
    _ = given.eraseDups.toFinset.card := by
      rw [h, List.toFinset_card_of_nodup (nodup_eraseDups given)]
    _ = given.toFinset.card := by rw [hset]

/-- The numbers by text are the texts by number, turned around. -/
theorem toList_numbers_perm (t : SymbolTable) :
    t.numbers.toList.Perm t.texts.toList.zipIdx := by
  have hnumbers : t.numbers.toList.Nodup :=
    Std.TreeMap.distinct_keys_toList.imp fun hne heq => hne (by simp [heq])
  have htexts : t.texts.toList.zipIdx.Nodup := by
    refine List.Nodup.of_map Prod.snd ?_
    rw [List.zipIdx_map_snd]
    exact List.nodup_range' ..
  rw [List.perm_ext_iff_of_nodup hnumbers htexts]
  rintro ⟨text, number⟩
  rw [Std.TreeMap.mem_toList_iff_getElem?_eq_some, List.mem_zipIdx_iff_getElem?, t.numbers_iff,
    Array.getElem?_toList]

/-! ## Every point of a run -/

/-- What a table that was empty has come to, with what it was given and what it answered. -/
structure Numbers (t : SymbolTable) (given : List String) (answers : List Symbol) : Prop where
  length_eq : answers.length = given.length
  /-- The answers are 0, 1, 2 and so on in the order in which they first appear. -/
  order : answers.eraseDups = (List.range t.size).map Symbol.mk
  /-- The texts are listed in the order in which they first appear. -/
  texts : t.texts.toList = given.eraseDups
  same_iff : ∀ i j, i < given.length → j < given.length →
    (answers[i]? = answers[j]? ↔ given[i]? = given[j]?)
  size_eq : t.size = given.toFinset.card
  /-- The other way round, each text has its number, and nothing else has one. -/
  numbers : t.numbers.toList.Perm t.texts.toList.zipIdx

theorem numbers_internAll (given : List String) :
    (empty.internAll given).2.Numbers given (empty.internAll given).1 := by
  have hlists := enumerates_internAll given
  have hanswers := internAll_eq_map given
  have hplace : ∀ a ∈ given, ∀ b ∈ given,
      (⟨given.eraseDups.idxOf a⟩ : Symbol) = ⟨given.eraseDups.idxOf b⟩ → a = b :=
    fun a ha b _ heq => (List.idxOf_inj (List.mem_eraseDups.mpr ha)).mp (congrArg Symbol.index heq)
  refine ⟨by simp [hanswers], ?_, hlists, fun i j hi hj => ?_, hlists.size_eq,
    toList_numbers_perm _⟩
  · have hsize : (empty.internAll given).2.size = given.eraseDups.length := by
      rw [← hlists]
      exact Array.length_toList.symm
    rw [hanswers, eraseDups_map hplace, hsize]
    refine List.ext_getElem (by simp) fun i hi _ => ?_
    have hlt : i < given.eraseDups.length := by simpa using hi
    simp [(nodup_eraseDups given).idxOf_getElem i hlt]
  · simp only [hanswers, List.getElem?_map, List.getElem?_eq_getElem hi,
      List.getElem?_eq_getElem hj, Option.map_some, Option.some.injEq]
    exact ⟨hplace _ (List.getElem_mem hi) _ (List.getElem_mem hj), fun heq => by rw [heq]⟩

/-- At every point of a run, the answers so far number the texts so far, and each of them stands for
the text that it was given for, then and in the end.  If there are fewer than `2 ^ 32` texts in the
end, a word of 32 bits holds every number. -/
theorem numbers_throughout (hdistinct : given.toFinset.card < 2 ^ 32) {before : List String}
    (hbefore : before <+: given) :
    (empty.internAll before).2.Numbers before (empty.internAll before).1 ∧
      (empty.internAll before).1 <+: (empty.internAll given).1 ∧
      ∀ (i : Nat) (s : Symbol), (empty.internAll before).1[i]? = some s →
        s.index < 2 ^ 32 ∧ (empty.internAll before).2.text? s = before[i]? ∧
          (empty.internAll given).2.text? s = before[i]? := by
  obtain ⟨later, rfl⟩ := hbefore
  have hrun := internAll_append empty before later
  refine ⟨numbers_internAll before, ?_, fun i s hs => ?_⟩
  · rw [hrun]
    exact List.prefix_append ..
  · have hlt : i < before.length := by
      rw [← (numbers_internAll before).length_eq]
      exact (List.getElem?_eq_some_iff.mp hs).1
    obtain ⟨hi, hget⟩ := List.getElem?_eq_some_iff.mp hs
    have hnow : (empty.internAll before).2.text? s = some before[i] := by
      rw [← hget]
      exact List.Forall₂.get (forall₂_internAll empty before) hi hlt
    -- The rest of the run only adds texts to the table at this point.
    have hend : (empty.internAll (before ++ later)).2.text? s = some before[i] := by
      rw [hrun]
      exact within_internAll _ later _ _ hnow
    refine ⟨?_, ?_, ?_⟩
    · calc s.index
          < (empty.internAll (before ++ later)).2.size := (Array.getElem?_eq_some_iff.mp hend).1
        _ = (before ++ later).toFinset.card := (enumerates_internAll _).size_eq
        _ < 2 ^ 32 := hdistinct
    · rw [hnow, List.getElem?_eq_getElem hlt]
    · rw [hend, List.getElem?_eq_getElem hlt]

/-- A name that was given before is answered as before, and `args` goes on being symbol 1. -/
theorem numbers_throughout_repeated_name :
    let before := ["println", "args", "println"]
    let given := before ++ ["java.util.List", "", "args"]
    given.toFinset.card < 2 ^ 32 ∧ before <+: given ∧
      (empty.internAll before).1 = [⟨0⟩, ⟨1⟩, ⟨0⟩] ∧
      (empty.internAll before).2.Numbers before (empty.internAll before).1 ∧
      (empty.internAll before).1 <+: (empty.internAll given).1 ∧
      (empty.internAll given).2.text? ⟨1⟩ = some "args" := by
  intro before given
  have hdistinct : given.toFinset.card < 2 ^ 32 := by decide
  have hbefore : before <+: given := List.prefix_append ..
  have hanswers : (empty.internAll before).1 = [⟨0⟩, ⟨1⟩, ⟨0⟩] := by decide +kernel
  obtain ⟨hnumbers, hanswered, hstands⟩ := numbers_throughout hdistinct hbefore
  obtain ⟨-, -, hargs⟩ := hstands 1 ⟨1⟩ (by rw [hanswers]; rfl)
  exact ⟨hdistinct, hbefore, hanswers, hnumbers, hanswered, hargs⟩

end SymbolTable
end GoloSyntax
