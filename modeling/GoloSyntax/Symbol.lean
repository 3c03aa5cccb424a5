import Std.Data.TreeMap

/-! # Interned texts

A `SymbolTable` numbers the distinct texts it has been given, in order of first
appearance: `intern` answers the number of a text and enters the text if it is new,
`text?` turns a number back into its text. Numbers are never reused or moved, so a
number stays good while the table grows.

The table is a list of texts together with its inverse, and the two agree by
construction (`SymbolTable.numbers_iff`).
-/

namespace GoloSyntax

/-- The number of an interned text. -/
structure Symbol where
  index : Nat
deriving DecidableEq, Repr, Inhabited

/-- Distinct texts, numbered from zero in order of first appearance. -/
structure SymbolTable where
  /-- The texts by number. -/
  texts : Array String
  /-- The numbers by text. -/
  numbers : Std.TreeMap String Nat compare
  /-- A text has exactly the number under which it is listed. -/
  numbers_iff : ∀ (text : String) (number : Nat),
    numbers[text]? = some number ↔ texts[number]? = some text

namespace SymbolTable

/-- The table without any text. -/
def empty : SymbolTable where
  texts := #[]
  numbers := ∅
  numbers_iff := by simp

instance : Inhabited SymbolTable := ⟨empty⟩

/-- How many texts have been entered. -/
def size (t : SymbolTable) : Nat := t.texts.size

def isEmpty (t : SymbolTable) : Bool := t.texts.isEmpty

/-- A text that is not listed can be listed under the next free number. -/
private theorem numbers_iff_push {texts : Array String} {numbers : Std.TreeMap String Nat compare}
    (agree : ∀ (text : String) (number : Nat),
      numbers[text]? = some number ↔ texts[number]? = some text)
    {text : String} (fresh : numbers[text]? = none) (other : String) (number : Nat) :
    (numbers.insert text texts.size)[other]? = some number ↔
      (texts.push text)[number]? = some other := by
  rw [Std.TreeMap.getElem?_insert, Array.getElem?_push]
  by_cases hsize : number = texts.size
  · subst hsize
    by_cases hsame : text = other
    · simp [hsame]
    · have hnone : ¬ numbers[other]? = some texts.size := by
        rw [agree]; simp
      simp [hsame, hnone]
  · by_cases hsame : text = other
    · subst hsame
      have hnone : ¬ texts[number]? = some text := by
        rw [← agree, fresh]; simp
      simp [hsize, Ne.symm hsize, hnone]
    · simp [hsize, hsame, agree]

/-- The symbol of `text`, entered at the end of the table if it is not there yet. -/
def intern : SymbolTable → String → Symbol × SymbolTable
  | ⟨texts, numbers, agree⟩, text =>
    match fresh : numbers[text]? with
    | some number => (⟨number⟩, ⟨texts, numbers, agree⟩)
    | none =>
      let number := texts.size
      (⟨number⟩, ⟨texts.push text, numbers.insert text number, numbers_iff_push agree fresh⟩)

/-- The text that a symbol stands for, if the table has given it out. -/
def text? (t : SymbolTable) (s : Symbol) : Option String := t.texts[s.index]?

/-- The text just entered is what its symbol stands for. -/
theorem text?_intern (t : SymbolTable) (text : String) :
    (t.intern text).2.text? (t.intern text).1 = some text := by
  obtain ⟨texts, numbers, agree⟩ := t
  unfold intern
  dsimp only
  split
  · next number h => exact (agree text number).mp h
  · simp [text?]

end SymbolTable

end GoloSyntax
