import GoloSyntax.Proofs.Grammar.Spine

/-! # What is read is derived

A reader takes one of the derivations of the lexemes it reads (`Reads.derives`), and what it has
read is fair (`Reads.fair`): every literal had a value, and what stood behind a `return` was a
value or could end it.
-/
namespace GoloSyntax

variable {n : Nat} {items body : List Item} {phrase : Phrase} {kind : Option NodeKind}
  {s r : Reader} {xs : List Construct} {w : List Lexeme}

/-! ## Derivations -/

theorem Qualified.dotted {segments : List String} (h : Qualified s r segments) :
    ∃ u, s.lexemes = u ++ r.lexemes ∧ Dotted segments u := by
  induction h with
  | @last s name hnext hstop =>
    exact ⟨_, Reader.lexemes_of_next hnext (by simp), .last name⟩
  | @more s r name segments hnext hdot h ih =>
    obtain ⟨u, hu, hdotted⟩ := ih
    have hbehind := Reader.lexemes_of_next (s := s.advance) rfl (fun hend => by
      rw [show s.advance.next.kind = .mark .dot from hdot] at hend
      cases hend)
    refine ⟨⟨.identifier, some name⟩ :: s.advance.next :: u, ?_, .more hdot hdotted⟩
    rw [Reader.lexemes_of_next hnext (by simp), hbehind, hu]
    rfl

theorem Dotted.kinds {segments : List String} {u : List Lexeme} (h : Dotted segments u) :
    ∀ l ∈ u, l.kind = .identifier ∨ l.kind = .mark .dot := by
  induction h with
  | last name => simp
  | more hdot h ih =>
    exact List.forall_mem_cons.mpr ⟨.inl rfl, List.forall_mem_cons.mpr ⟨.inr hdot, ih⟩⟩

theorem Dotted.plain {segments : List String} {u : List Lexeme} (h : Dotted segments u) :
    ∀ l ∈ u, l.kind.isLiteral = false ∧ l.kind ≠ .keyword .return_ := by
  intro l hl
  rcases h.kinds l hl with hk | hk <;>
  · rw [hk]
    exact ⟨rfl, nofun⟩

theorem Reader.exists_newlines (s : Reader) : ∃ ns, s.lexemes = ns ++ s.skipNewlines.lexemes ∧
    ∀ l ∈ ns, l.kind = .newline := by
  refine ⟨s.lexemes.takeWhile (·.kind = .newline), ?_, fun l hl => ?_⟩
  · rw [lexemes_skipNewlines, List.takeWhile_append_dropWhile]
  · simpa using List.mem_takeWhile_imp hl

/-- What a name stands for by its text, it stands for by its segments. -/
theorem Alternative.plain_of_reads (alt : Alternative .byText phrase body kind)
    (h : Reads .byText n body s r xs) (hs : Segmented s.lexemes) :
    Alternative .plain phrase body kind := by
  cases alt with
  | bareName hkind =>
    obtain ⟨s', hname, -⟩ := reads_qualified_iff.mp h
    obtain ⟨u, hu, hdotted⟩ := hname.dotted
    obtain ⟨hne, hmem⟩ := hdotted.of_segments
    refine .bareName ((byText_iff_plain hne fun name hmem' => ?_).mp hkind)
    exact hs _ (hu ▸ List.mem_append_left _ (hmem name hmem')) name rfl
  | _ => constructor <;> assumption

/-- Reading takes one of the derivations. -/
theorem Reads.derives (h : Reads .byText n items s r xs) (hs : Segmented s.lexemes) :
    ∃ w, s.lexemes = w ++ r.lexemes ∧ Derives (Alternative .plain) items w := by
  induction h with
  | nil => exact ⟨[], rfl, .nil⟩
  | @token n kind items s r xs hne hkind h ih =>
    subst hkind
    have hlexemes := Reader.lexemes_of_next (s := s) rfl hne
    obtain ⟨w, hw, hderives⟩ := ih (hs.suffix ((Reader.rest_advance_suffix s).map _))
    exact ⟨s.next :: w, by rw [hlexemes, hw]; rfl, .token hderives⟩
  | @newlines n items s r xs h ih =>
    obtain ⟨ns, hns, hall⟩ := s.exists_newlines
    obtain ⟨w, hw, hderives⟩ := ih (hs.suffix ((Reader.rest_skipNewlines_suffix s).map _))
    exact ⟨ns ++ w, by rw [hns, hw, List.append_assoc], .newlines hall hderives⟩
  | @identifier n name items s r xs hnext h ih =>
    have hlexemes := Reader.lexemes_of_next hnext (by simp)
    obtain ⟨w, hw, hderives⟩ := ih (hs.suffix ((Reader.rest_advance_suffix s).map _))
    exact ⟨⟨.identifier, some name⟩ :: w, by rw [hlexemes, hw]; rfl, .identifier hderives⟩
  | @qualified n segments items s s' r xs hname h ih =>
    obtain ⟨u, hu, hdotted⟩ := hname.dotted
    obtain ⟨w, hw, hderives⟩ := ih (hs.suffix (hname.rest_suffix.map _))
    exact ⟨u ++ w, by rw [hu, hw, List.append_assoc], .qualified hdotted hderives⟩
  | @literal n value items s r xs hvalue h ih =>
    have hlexemes := Reader.lexemes_of_next (s := s) rfl (Lexeme.literal?_ne hvalue).1
    obtain ⟨w, hw, hderives⟩ := ih (hs.suffix ((Reader.rest_advance_suffix s).map _))
    exact ⟨s.next :: w, by rw [hlexemes, hw]; rfl,
      .literal (Lexeme.isLiteral_of_literal? hvalue) hderives⟩
  | part alt hn hsettles hbody h ihbody ih =>
    obtain ⟨u, hu, hderives⟩ := ihbody hs
    obtain ⟨w, hw, hderives'⟩ := ih (hs.suffix hbody.lexemes_suffix)
    exact ⟨u ++ w, by rw [hu, hw, List.append_assoc],
      .part (alt.plain_of_reads hbody hs) hderives hderives'⟩

/-! ## Fairness -/

namespace Fair

variable {l : Lexeme} {u : List Lexeme}

theorem nil : Fair [] := ⟨nofun, nofun, fun l l' h => by simp at h⟩

theorem cons (h : Fair w) (hliteral : l.kind.isLiteral → ∃ value, l.literal? = some value)
    (hsegments : Segmented (l :: w))
    (hreturn : l.kind = .keyword .return_ → firstKind w ≠ .mark .rightParen) : Fair (l :: w) where
  literals := List.forall_mem_cons.mpr ⟨hliteral, h.literals⟩
  segments := hsegments
  returns a b hab ha hb := by
    rcases List.infix_cons_iff.mp hab with hprefix | hinfix
    · obtain ⟨v, hv⟩ := hprefix
      obtain ⟨rfl, rfl⟩ := List.cons.inj hv
      exact hreturn ha hb
    · exact h.returns a b hinfix ha hb

/-- Only literals and `return` can be unfair. -/
theorem append (h : Fair w) (hsegments : Segmented (u ++ w))
    (hu : ∀ l ∈ u, l.kind.isLiteral = false ∧ l.kind ≠ .keyword .return_) : Fair (u ++ w) := by
  induction u with
  | nil => exact h
  | cons l u ih =>
    obtain ⟨hl, hu⟩ := List.forall_mem_cons.mp hu
    have hrest := ih (hsegments.suffix (List.suffix_cons _ _)) hu
    exact hrest.cons (fun hliteral => absurd hliteral (by simp [hl.1])) hsegments
      fun hreturn => absurd hreturn hl.2

end Fair

namespace Item

/-- The item of the word that may have a value behind it. -/
def isReturn : Item → Bool
  | .token kind => kind = .keyword .return_
  | _ => false

/-- Whether no token among the items is a literal, and only the first may be `return`. -/
def modest (items : List Item) : Bool :=
  (items.all fun | .token kind => !kind.isLiteral | _ => true) && items.tail.all (!·.isReturn)

theorem modest_cons {item : Item} (h : modest (item :: items)) :
    modest items ∧ ¬ items.head?.any isReturn := by
  simp only [modest, List.all_cons, List.tail_cons, Bool.and_eq_true] at h ⊢
  obtain ⟨⟨-, hitems⟩, hreturns⟩ := h
  cases items with
  | nil => exact ⟨⟨hitems, rfl⟩, by simp⟩
  | cons item' items =>
    simp only [List.all_cons, Bool.and_eq_true] at hreturns
    exact ⟨⟨hitems, hreturns.2⟩, by simpa using hreturns.1⟩

end Item

theorem BinaryOperator.plain_of_ofToken? {kind : TokenKind} {op : BinaryOperator}
    (h : ofToken? kind = some op) : kind.isLiteral = false ∧ kind ≠ .keyword .return_ := by
  unfold ofToken? at h
  split at h <;> first | exact ⟨rfl, by simp⟩ | cases h

theorem UnaryOperator.plain_of_ofToken? {kind : TokenKind} {op : UnaryOperator}
    (h : ofToken? kind = some op) : kind.isLiteral = false ∧ kind ≠ .keyword .return_ := by
  unfold ofToken? at h
  split at h <;> first | exact ⟨rfl, by simp⟩ | cases h

theorem Alternative.modest {naming : Naming} (alt : Alternative naming phrase body kind) :
    Item.modest body := by
  cases alt with
  | statement hform => rfl
  | linesMore form | linesTailMore form => rfl
  | unary hop => simp [Item.modest, (UnaryOperator.plain_of_ofToken? hop).1, Item.isReturn]
  | operandsMore hop hmin =>
    simp [Item.modest, BinaryOperator.plain_of_ofToken? hop, Item.isReturn]
  | _ => rfl

/-- Behind `return` stands a value, or what ends a statement. -/
theorem Alternative.fair_return {naming : Naming} (alt : Alternative naming phrase body kind)
    (h : Reads naming n body s r xs) (hsettles : phrase.Settles body s r)
    (hreturn : body.head?.any Item.isReturn) : s.advance.kind ≠ .mark .rightParen := by
  intro hparen
  cases alt with
  | returnVoid =>
    obtain ⟨-, -, h⟩ := reads_token_iff.mp h
    obtain ⟨rfl, -⟩ := reads_nil_iff.mp h
    rcases hsettles with hk | hk | hk <;> exact absurd (hparen.symm.trans hk) (by simp)
  | returnValue =>
    obtain ⟨-, -, h⟩ := reads_token_iff.mp h
    have hbegins := h.begins
    rw [hparen] at hbegins
    cases hbegins
  | unary hop =>
    exact (UnaryOperator.plain_of_ofToken? hop).2 (by simpa [Item.isReturn] using hreturn)
  | _ => cases hreturn

/-- What has been read is fair, if what is left is. -/
theorem Reads.fair {naming : Naming} (h : Reads naming n items s r xs) (hs : Segmented s.lexemes)
    (hitems : Item.modest items)
    (hreturn : items.head?.any Item.isReturn → s.advance.kind ≠ .mark .rightParen)
    (hr : Fair r.lexemes) : Fair s.lexemes := by
  induction h with
  | nil => exact hr
  | @token n kind items s r xs hne hkind h ih =>
    subst hkind
    obtain ⟨hmodest, hnone⟩ := Item.modest_cons hitems
    have hfair := ih (hs.suffix ((Reader.rest_advance_suffix s).map _)) hmodest
      (fun h => absurd h hnone) hr
    rw [Reader.lexemes_of_next (s := s) rfl hne] at hs ⊢
    refine hfair.cons (fun hliteral => ?_) hs fun hword => ?_
    · have hplain : s.kind.isLiteral = false := by simp_all [Item.modest]
      exact absurd (hplain.symm.trans hliteral) (by simp)
    · rw [← Reader.kind_eq]
      exact hreturn (decide_eq_true hword)
  | @newlines n items s r xs h ih =>
    obtain ⟨hmodest, hnone⟩ := Item.modest_cons hitems
    have hfair := ih (hs.suffix ((Reader.rest_skipNewlines_suffix s).map _)) hmodest
      (fun h => absurd h hnone) hr
    obtain ⟨ns, hns, hall⟩ := s.exists_newlines
    rw [hns] at hs ⊢
    refine hfair.append hs fun l hl => ?_
    rw [hall l hl]
    exact ⟨rfl, by simp⟩
  | @identifier n name items s r xs hnext h ih =>
    obtain ⟨hmodest, hnone⟩ := Item.modest_cons hitems
    have hfair := ih (hs.suffix ((Reader.rest_advance_suffix s).map _)) hmodest
      (fun h => absurd h hnone) hr
    rw [Reader.lexemes_of_next hnext (by simp)] at hs ⊢
    exact hfair.cons nofun hs nofun
  | @qualified n segments items s s' r xs hname h ih =>
    obtain ⟨hmodest, hnone⟩ := Item.modest_cons hitems
    have hfair := ih (hs.suffix (hname.rest_suffix.map _)) hmodest (fun h => absurd h hnone) hr
    obtain ⟨u, hu, hdotted⟩ := hname.dotted
    rw [hu] at hs ⊢
    exact hfair.append hs hdotted.plain
  | @literal n value items s r xs hvalue h ih =>
    obtain ⟨hmodest, hnone⟩ := Item.modest_cons hitems
    have hfair := ih (hs.suffix ((Reader.rest_advance_suffix s).map _)) hmodest
      (fun h => absurd h hnone) hr
    rw [Reader.lexemes_of_next (s := s) rfl (Lexeme.literal?_ne hvalue).1] at hs ⊢
    refine hfair.cons (fun _ => ⟨value, hvalue⟩) hs fun hword => ?_
    have hliteral := Lexeme.isLiteral_of_literal? hvalue
    rw [hword] at hliteral
    cases hliteral
  | part alt hn hsettles hbody h ihbody ih =>
    obtain ⟨hmodest, hnone⟩ := Item.modest_cons hitems
    have hfair := ih (hs.suffix hbody.lexemes_suffix) hmodest (fun h => absurd h hnone) hr
    exact ihbody hs alt.modest (alt.fair_return hbody hsettles) hfair

end GoloSyntax
