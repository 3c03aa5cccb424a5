import GoloSyntax.Proofs.Access.Run
import GoloSyntax.Proofs.Token.Recovery

/-! # Cutting a source by offsets

A lexer has the characters that are left in front of it.  Here it has the whole source, which it
cuts by offsets: texts are what stands between two offsets, and lengths are differences of offsets.
Neither exists if the second offset is in front of the first one, nor a text if an offset lies
within a character (`slice?`); and a text is entered only if it gets a number of 32 bits
(`intern?`).  A lexer to which none of this happens does what the other one does (`lex?_eq`).
-/
namespace GoloSyntax

/-- How many numbers there are for nodes and for texts. -/
def numberLimit : Nat := 2 ^ 32

/-- Within limits that are accepted, no number of tokens or nodes comes near that. -/
theorem Limits.counts_of_validate {limits : Limits} (h : limits.validate? = none) :
    4 * limits.maxTokenCount ≤ numberLimit ∧ limits.maxTreeNodes ≤ numberLimit := by
  have htokens : limits.maxTokenCount ≤ 100000000 :=
    Limits.get_le_ceiling (accepts_of_validate h .tokenCount)
  have hnodes : limits.maxTreeNodes ≤ 10000000 :=
    Limits.get_le_ceiling (accepts_of_validate h .treeNodes)
  rw [numberLimit]
  omega

namespace Indexed

/-! ## By offsets -/

/-- How far one offset is behind another one, if it is. -/
def length? (start stop : Nat) : Option Nat := if start ≤ stop then some (stop - start) else none

/-- What stands between two offsets, if both lie between characters, the first one in front. -/
def slice? (source : String) (start stop : Nat) : Option String :=
  if start ≤ stop ∧ String.Pos.Raw.isValid source ⟨start⟩ ∧
      String.Pos.Raw.isValid source ⟨stop⟩ then
    some (String.Pos.Raw.extract source ⟨start⟩ ⟨stop⟩)
  else none

/-- Enter a text, if it is listed or there is a number left for it. -/
def intern? (symbols : SymbolTable) (text : String) : Option (Symbol × SymbolTable) :=
  if symbols.numbers[text]?.isSome ∨ symbols.size < numberLimit then some (symbols.intern text)
  else none

/-- Go on with what was read. -/
def andThen {ε α β : Type} (x : Option (Except ε α)) (f : α → Option (Except ε β)) :
    Option (Except ε β) :=
  match x with
  | none => none
  | some (.error e) => some (.error e)
  | some (.ok a) => f a

/-- `checkComment` by offsets. -/
def checkComment? (max start : Nat) (c : Cursor) : Option (Except Refusal Cursor) :=
  (length? start c.position.offset).map fun length =>
    if length > max then .error ⟨.commentTooLong length max, c⟩ else .ok c

/-- `skipTriviaFrom` by offsets. -/
def skipTriviaFrom? (max : Nat) (comment : Option Nat) (p : Position) :
    List Char → Option (Except Refusal Cursor)
  | [] =>
    match comment with
    | none => some (.ok ⟨[], p⟩)
    | some start => checkComment? max start ⟨[], p⟩
  | c :: cs =>
    match comment with
    | none =>
      if isBlank c then skipTriviaFrom? max none (p.after c) cs
      else if c = '#' then skipTriviaFrom? max (some p.offset) (p.after c) cs
      else some (.ok ⟨c :: cs, p⟩)
    | some start =>
      if c = '\n' then checkComment? max start ⟨c :: cs, p⟩
      else skipTriviaFrom? max (some start) (p.after c) cs

section

variable (source : String)

/-- `scanWord` by offsets. -/
def scanWord? (max : Nat) (c : Cursor) : Option (Scan Lexeme) :=
  let stop := (c.takeWhile isWordPart).2
  (slice? source c.position.offset stop.position.offset).map fun text =>
    if text.utf8ByteSize > max then refuse (.identifierTooLong text.utf8ByteSize max) stop
    else .ok (.ofWord text, stop)

/-- `scanNumber` by offsets. -/
def scanNumber? (c : Cursor) : Option (Scan Lexeme) :=
  andThen (some (scanNumber c)) fun (lexeme, stop) =>
    (slice? source c.position.offset stop.position.offset).map fun text =>
      .ok (⟨lexeme.kind, some text⟩, stop)

/-- A string literal between two cursors, whose text can be had if it is short enough. -/
def stringLexeme? (max : Nat) (kind : StringKind) (start stop : Cursor)
    (content : Option String) : Option (Scan Lexeme) :=
  (length? start.position.offset stop.position.offset).bind fun length =>
    if length > max then some (refuse (.stringTooLong length max) stop)
    else content.map fun text => .ok (⟨.string kind, some text⟩, stop)

/-- `scanString` by offsets. -/
def scanString? (max : Nat) (c : Cursor) : Option (Scan Lexeme) :=
  if c.startsWith tripleQuote then
    let opened := c.drop 3
    let closing := (opened.takeWhileTail fun cs => !tripleQuote.isPrefixOf cs).2
    if closing.rest.isEmpty then some (refuse .unterminatedMultiLineString closing)
    else stringLexeme? max .multiLine c (closing.drop 3)
      (slice? source opened.position.offset closing.position.offset)
  else
    let opened := c.drop 1
    andThen (some (scanStandardFrom [] opened.position opened.rest)) fun (content, stop) =>
      stringLexeme? max .standard c stop (some (String.ofList content))

/-- `scanLexeme` by offsets. -/
def scanLexeme? (limits : Limits) (c : Cursor) : Option (Scan Lexeme) :=
  match c.rest with
  | [] => some (.ok (⟨.endOfInput, none⟩, c))
  | ch :: _ =>
    if ch.isDigit then scanNumber? source c
    else if isWordStart ch then scanWord? source limits.maxIdentifierLength c
    else if ch = '"' then scanString? source limits.maxStringLength c
    else if ch = '\'' then some (scanCharacter c)
    else some (scanMark c)

/-- `scan` by offsets. -/
def scan? (limits : Limits) (c : Cursor) : Option (Except Refusal ((Position × Lexeme) × Cursor)) :=
  andThen (skipTriviaFrom? limits.maxCommentLength none c.position c.rest) fun start =>
    andThen (scanLexeme? source limits start) fun (lexeme, stop) =>
      some (.ok ((start.position, lexeme), stop))

/-- `Lexer.internText`, if there are numbers left. -/
def internText? (symbols : SymbolTable) : Option String → Option (Option Symbol × SymbolTable)
  | none => some (none, symbols)
  | some text => (intern? symbols text).map fun (symbol, symbols) => (some symbol, symbols)

/-- `Lexer.next` by offsets. -/
def next? : Lexer → Option (Except LexicalError Token × Lexer)
  | ⟨limits, cursor, count, symbols⟩ =>
    if count ≥ limits.maxTokenCount then
      some (.error ⟨.tooManyTokens count limits.maxTokenCount, cursor.position⟩,
        ⟨limits, cursor, count, symbols⟩)
    else
      (scan? source limits cursor).bind fun
        | .error refusal => some (.error refusal.error, ⟨limits, refusal.cursor, count, symbols⟩)
        | .ok ((start, lexeme), cursor) =>
          (internText? symbols lexeme.text).map fun (symbol, symbols) =>
            (.ok ⟨lexeme.kind, ⟨start, cursor.position⟩, symbol⟩,
              ⟨limits, cursor, count + 1, symbols⟩)

/-- `Lexer.collect` by offsets. -/
def collect? : Nat → Lexer → Array Token → Option (Except LexicalError TokenStream)
  | 0, l, tokens => some (.ok ⟨tokens, l.symbols⟩)
  | n + 1, l, tokens =>
    (next? source l).bind fun
      | (.error e, _) => some (.error e)
      | (.ok token, l) =>
        if token.kind = .endOfInput then some (.ok ⟨tokens.push token, l.symbols⟩)
        else collect? n l (tokens.push token)

end

/-- `lex` by offsets. -/
def lex? (source : String) (limits : Limits) : Option (Except LexicalError TokenStream) :=
  andThen (some (Lexer.ofSource source limits)) fun lexer =>
    collect? source (lexer.cursor.rest.length + 1) lexer #[]

/-! ## They are always there -/

variable {source : String} {limits : Limits} {max start : Nat} {c c' : Cursor} {u : List Char}

theorem andThen_eq {ε α β : Type} {x? : Option (Except ε α)} {x : Except ε α}
    {f? : α → Option (Except ε β)} {f : α → Except ε β} (hx : x? = some x)
    (hf : ∀ a, x = .ok a → f? a = some (f a)) : andThen x? f? = some (x.bind f) := by
  subst hx
  cases x with
  | error e => rfl
  | ok a => exact hf a rfl

theorem length?_eq {start stop : Nat} (h : start ≤ stop) :
    length? start stop = some (stop - start) := if_pos h

/-- What stands in front of a cursor in a source. -/
theorem exists_before (h : (Cursor.ofSource source).Reaches c) : ∃ before,
    source.toList = before ++ c.rest ∧ c.position = Position.start.advance before := by
  obtain ⟨before, hbefore⟩ := h
  exact ⟨before, hbefore.rest, hbefore.position⟩

/-- The place of a cursor in a source lies between two characters. -/
theorem isValid_of_reaches (h : (Cursor.ofSource source).Reaches c) :
    String.Pos.Raw.isValid source ⟨c.position.offset⟩ := by
  obtain ⟨before, hsource, hposition⟩ := exists_before h
  rw [String.Pos.Raw.isValid_eq_true_iff, String.Pos.Raw.isValid_iff_exists_append]
  refine ⟨String.ofList before, String.ofList c.rest, ?_, ?_⟩
  · rw [← String.ofList_append, ← hsource, String.ofList_toList]
  · rw [hposition, Position.offset_advance, ← utf8ByteSize_ofList]
    exact congrArg String.Pos.Raw.mk (Nat.zero_add _)

/-- What is read between two cursors in a source can be cut out. -/
theorem slice?_eq (hc : (Cursor.ofSource source).Reaches c) (hu : c.Passes u c') :
    slice? source c.position.offset c'.position.offset = some (String.ofList u) := by
  have hle : c.position.offset ≤ c'.position.offset := Cursor.Reaches.offset_le ⟨u, hu⟩
  obtain ⟨before, hsource, hposition⟩ := exists_before hc
  have hstands : GoloSyntax.Stands source.toList ⟨c.position, c'.position⟩ before u c'.rest := by
    refine ⟨by rw [hsource, hu.rest, List.append_assoc], hposition, ?_⟩
    rw [hu.position, hposition, Position.advance_append]
  rw [slice?, if_pos ⟨hle, isValid_of_reaches hc, isValid_of_reaches (hc.trans ⟨u, hu⟩)⟩]
  exact congrArg some hstands.slice_eq

theorem checkComment?_eq (max : Nat) (h : start ≤ c.position.offset) :
    checkComment? max start c = some (checkComment max start c) := by
  rw [checkComment?, length?_eq h]
  rfl

/-- An open comment begins in front of where it is read. -/
theorem skipTriviaFrom?_eq (max : Nat) {comment : Option Nat} {p : Position} {cs : List Char}
    (h : ∀ start ∈ comment, start ≤ p.offset) :
    skipTriviaFrom? max comment p cs = some (skipTriviaFrom max comment p cs) := by
  induction cs generalizing comment p with
  | nil =>
    cases comment with
    | none => rfl
    | some start => exact checkComment?_eq max (h start rfl)
  | cons d cs ih =>
    have hle : p.offset ≤ (p.after d).offset := by
      rw [Position.offset_after]
      omega
    cases comment with
    | none =>
      simp only [skipTriviaFrom?, skipTriviaFrom]
      split
      · exact ih (by simp)
      · split
        · exact ih fun start hstart => Option.some.inj hstart ▸ hle
        · rfl
    | some start =>
      have hstart : start ≤ p.offset := h start rfl
      simp only [skipTriviaFrom?, skipTriviaFrom]
      split
      · exact checkComment?_eq max hstart
      · exact ih fun other hother => Option.some.inj hother ▸ Nat.le_trans hstart hle

theorem scanWord?_eq (max : Nat) (hc : (Cursor.ofSource source).Reaches c) :
    scanWord? source max c = some (scanWord max c) := by
  have hpasses : c.Passes (c.takeWhile isWordPart).1 (c.takeWhile isWordPart).2 :=
    ⟨List.takeWhile_append_dropWhile.symm, rfl⟩
  have hlength : (String.ofList (c.takeWhile isWordPart).1).utf8ByteSize =
      (c.takeWhile isWordPart).2.position.offset - c.position.offset := by
    rw [hpasses.offset, utf8ByteSize_ofList]
  simp only [scanWord?, slice?_eq hc hpasses, Option.map_some, hlength, scanWord]

theorem scanNumber?_eq (hc : (Cursor.ofSource source).Reaches c) (hdigit : beginsWithDigit c.rest) :
    scanNumber? source c = some (scanNumber c) := by
  cases h : scanNumber c with
  | error r => rw [scanNumber?, h, andThen]
  | ok answer =>
    obtain ⟨l, c'⟩ := answer
    obtain ⟨u, kind, hpasses, -, rfl, -⟩ := takes_scanNumber hdigit h
    simp only [scanNumber?, h, andThen, slice?_eq hc hpasses, Option.map_some]

theorem stringLexeme?_eq {kind : StringKind} {content : List Char} {content? : Option String}
    (h : c.Reaches c') (hcontent : content? = some (String.ofList content)) :
    stringLexeme? max kind c c' content? = some (stringLexeme max kind c content c') := by
  rw [stringLexeme?, length?_eq h.offset_le, hcontent, stringLexeme, Option.bind_some]
  split <;> rfl

theorem scanString?_eq (hc : (Cursor.ofSource source).Reaches c) :
    scanString? source max c = some (scanString max c) := by
  unfold scanString? scanString
  split
  · have hopened := c.reaches_drop 3
    rcases htail : (c.drop 3).takeWhileTail (fun cs => !tripleQuote.isPrefixOf cs)
      with ⟨content, closing⟩
    have hpasses := (Cursor.splits_of_takeWhileTail htail).1
    simp only [scanMultiLine, htail]
    split
    · rfl
    -- The length is that of the token with its quotes, the text what stands between them.
    · exact stringLexeme?_eq ((hopened.trans ⟨content, hpasses⟩).trans (closing.reaches_drop 3))
        (slice?_eq (hc.trans hopened) hpasses)
  · refine andThen_eq rfl fun answer hanswer => ?_
    obtain ⟨content, stop⟩ := answer
    obtain ⟨u, -, hpasses, -⟩ := takes_scanStandardFrom hanswer
    exact stringLexeme?_eq ((c.reaches_drop 1).trans ⟨_, hpasses⟩) rfl

/-- A character of two bytes cannot be cut in half. -/
example : slice? "aé" 0 3 = some "aé" ∧ slice? "aé" 0 2 = none ∧ slice? "aé" 3 1 = none := by
  decide

/-- What is read of a source is read by offsets. -/
theorem scanLexeme?_eq (hc : (Cursor.ofSource source).Reaches c) :
    scanLexeme? source limits c = some (scanLexeme limits c) := by
  cases hrest : c.rest with
  | nil => simp only [scanLexeme?, scanLexeme, hrest]
  | cons d cs =>
    simp only [scanLexeme?, scanLexeme, hrest]
    split
    · next hdigit => exact scanNumber?_eq hc (by rw [hrest]; exact hdigit)
    · split
      · exact scanWord?_eq _ hc
      · split
        · exact scanString?_eq hc
        · split <;> rfl

theorem scan?_eq (hc : (Cursor.ofSource source).Reaches c) :
    scan? source limits c = some (scan limits c) := by
  refine andThen_eq (skipTriviaFrom?_eq _ (by simp)) fun start hstart => ?_
  obtain ⟨gap, hgap, -⟩ := skipTrivia_ok_iff.mp hstart
  exact andThen_eq (scanLexeme?_eq (hc.trans ⟨gap, hgap⟩)) fun answer _ => rfl

theorem intern?_eq {symbols : SymbolTable} (h : symbols.size < numberLimit) (text : String) :
    intern? symbols text = some (symbols.intern text) := if_pos (.inr h)

theorem internText?_eq {symbols : SymbolTable} (h : symbols.size < numberLimit)
    (text : Option String) : internText? symbols text = some (Lexer.internText symbols text) := by
  cases text with
  | none => rfl
  | some text =>
    rw [internText?, intern?_eq h]
    rfl

theorem size_internText_le (symbols : SymbolTable) (text : Option String) :
    (Lexer.internText symbols text).2.size ≤ symbols.size + 1 := by
  cases text with
  | none => exact Nat.le_succ _
  | some text => exact symbols.size_intern_le text

/-- A lexer in a source, with no more texts than tokens. -/
structure Keeps (source : String) (limits : Limits) (l : Lexer) : Prop where
  limits : l.limits = limits
  place : (Cursor.ofSource source).Reaches l.cursor
  texts : l.symbols.size ≤ l.count

variable {l : Lexer}

theorem Keeps.next (h : Keeps source limits l) : Keeps source limits l.next.2 := by
  have hplace := h.place.trans l.reaches_next
  obtain ⟨rfl, -, htexts⟩ := h
  obtain ⟨limits, cursor, count, symbols⟩ := l
  have hsize (text : Option String) : (Lexer.internText symbols text).2.size ≤ count + 1 :=
    Nat.le_trans (size_internText_le symbols text) (Nat.succ_le_succ htexts)
  revert hplace
  simp only [Lexer.next]
  split
  · exact fun hplace => ⟨rfl, hplace, htexts⟩
  · split
    · exact fun hplace => ⟨rfl, hplace, htexts⟩
    · exact fun hplace => ⟨rfl, hplace, hsize _⟩

/-- As long as a token may be given out, there is a number left for its text. -/
theorem next?_eq (h : Keeps source limits l) (hlimit : limits.maxTokenCount ≤ numberLimit) :
    next? source l = some l.next := by
  obtain ⟨rfl, hplace, htexts⟩ := h
  obtain ⟨limits, cursor, count, symbols⟩ := l
  simp only [next?, Lexer.next]
  split
  · rfl
  · next hcount =>
    -- All texts so far came with tokens, and there are fewer of these than there may be.
    have hsize : symbols.size < numberLimit := by
      simp only at htexts hlimit
      omega
    rw [scan?_eq hplace, Option.bind_some]
    cases scan limits cursor with
    | error refusal => rfl
    | ok answer => exact congrArg (Option.map _) (internText?_eq hsize answer.1.2.text)

theorem collect?_eq (hlimit : limits.maxTokenCount ≤ numberLimit) (n : Nat) (tokens : Array Token)
    (h : Keeps source limits l) : collect? source n l tokens = some (l.collect n tokens) := by
  induction n generalizing l tokens with
  | zero => rfl
  | succ n ih =>
    have hnext := h.next
    rw [collect?, Lexer.collect, next?_eq h hlimit, Option.bind_some]
    revert hnext
    obtain ⟨e | token, l'⟩ := l.next
    · exact fun _ => rfl
    · intro hnext
      dsimp only
      split
      · rfl
      · exact ih _ hnext

/-- A source is cut by offsets into the tokens that it is cut into. -/
theorem lex?_eq (source : String) (h : limits.maxTokenCount ≤ numberLimit) :
    lex? source limits = some (lex source limits) := by
  refine andThen_eq rfl fun lexer hlexer => ?_
  simp only [Lexer.ofSource] at hlexer
  split at hlexer
  · cases hlexer
  · obtain rfl := Except.ok.inj hlexer
    exact collect?_eq h _ _ ⟨rfl, .refl _, Nat.le_refl _⟩

/-- No token has more than one text of its own. -/
theorem size_symbols_le_of_collect {n : Nat} {tokens : Array Token} {stream : TokenStream}
    (h : l.symbols.size ≤ tokens.size) (hcollect : l.collect n tokens = .ok stream) :
    stream.symbols.size ≤ stream.size := by
  induction n generalizing l tokens with
  | zero =>
    obtain rfl := Except.ok.inj hcollect
    exact h
  | succ n ih =>
    have hnext : l.next.2.symbols.size ≤ l.symbols.size + 1 := by
      obtain ⟨limits, cursor, count, symbols⟩ := l
      simp only [Lexer.next]
      split
      · exact Nat.le_succ _
      · split
        · exact Nat.le_succ _
        · exact size_internText_le symbols _
    rw [Lexer.collect] at hcollect
    revert hcollect hnext
    obtain ⟨e | token, l'⟩ := l.next
    · intro hcollect
      cases hcollect
    · intro hcollect hnext
      have hpush : l'.symbols.size ≤ (tokens.push token).size := by
        rw [Array.size_push]
        exact Nat.le_trans hnext (Nat.succ_le_succ h)
      dsimp only at hcollect
      split at hcollect
      · obtain rfl := Except.ok.inj hcollect
        exact hpush
      · exact ih hpush hcollect

theorem size_symbols_le_of_lex {stream : TokenStream} (h : lex source limits = .ok stream) :
    stream.symbols.size ≤ stream.size := by
  simp only [lex, Lexer.ofSource] at h
  split at h
  · cases h
  · exact size_symbols_le_of_collect (Nat.le_refl _) h

end Indexed

end GoloSyntax
