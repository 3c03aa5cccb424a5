import GoloSyntax.Token.Basic

/-! # The texts of tokens

A table of texts only grows, and a text keeps its number (`SymbolTable.Within`), so a token
whose text is in a table means the same in every later one (`Token.lexeme_of_within`).

A stream is as it should be if the texts of its tokens are there (`TokenStream.Resolves`).  Then a
token is read as one without a text only if it refers to none (`Resolves.text?_eq_none_iff`).
-/
namespace GoloSyntax

/-- Every text of `t` has the same number in `t'`. -/
def SymbolTable.Within (t t' : SymbolTable) : Prop :=
  ∀ s text, t.text? s = some text → t'.text? s = some text

namespace SymbolTable

variable {t t' t'' : SymbolTable}

theorem Within.refl (t : SymbolTable) : t.Within t := fun _ _ h => h

theorem Within.trans (h : t.Within t') (h' : t'.Within t'') : t.Within t'' :=
  fun s text hs => h' s text (h s text hs)

theorem within_intern (t : SymbolTable) (text : String) : t.Within (t.intern text).2 := by
  obtain ⟨texts, numbers, agree⟩ := t
  intro s text' hs
  unfold intern
  dsimp only
  split
  · exact hs
  · have hlt := (Array.getElem?_eq_some_iff.mp hs).1
    simp only [text?] at hs ⊢
    rw [Array.getElem?_push_lt hlt]
    rwa [Array.getElem?_eq_getElem hlt] at hs

end SymbolTable

/-- The text that a token refers to, if it does, is in the table. -/
def Token.HasText (t : Token) (symbols : SymbolTable) : Prop :=
  ∀ symbol, t.symbol = some symbol → ∃ text, symbols.text? symbol = some text

/-- A text that is there stays the same while the table grows. -/
theorem Token.lexeme_of_within {t : Token} {symbols symbols' : SymbolTable}
    (ht : t.HasText symbols) (h : symbols.Within symbols') :
    t.lexeme symbols' = t.lexeme symbols := by
  cases hs : t.symbol with
  | none => simp [lexeme, text?, hs]
  | some symbol =>
    obtain ⟨text, htext⟩ := ht symbol hs
    simp [lexeme, text?, hs, htext, h symbol text htext]

theorem Token.HasText.within {t : Token} {symbols symbols' : SymbolTable}
    (ht : t.HasText symbols) (h : symbols.Within symbols') : t.HasText symbols' := fun symbol hs => by
  obtain ⟨text, htext⟩ := ht symbol hs
  exact ⟨text, h symbol text htext⟩

namespace TokenStream

/-- The tokens without their places. -/
def lexemes (s : TokenStream) : List Lexeme := s.tokens.toList.map (·.lexeme s.symbols)

/-- Every text that a token refers to is there. -/
def Resolves (s : TokenStream) : Prop := ∀ token ∈ s.tokens, token.HasText s.symbols

theorem Resolves.text?_eq_none_iff {s : TokenStream} (hs : s.Resolves) {token : Token}
    (h : token ∈ s.tokens) : token.text? s.symbols = none ↔ token.symbol = none := by
  cases hsymbol : token.symbol with
  | none => simp [Token.text?, hsymbol]
  | some symbol =>
    obtain ⟨text, htext⟩ := hs token h symbol hsymbol
    simp [Token.text?, hsymbol, htext]

end TokenStream

end GoloSyntax
