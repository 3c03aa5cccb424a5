import GoloSyntax.Proofs.Grammar.Progress

/-! # Reading a part of a text

What is read depends on the lexemes only, and what stands behind it matters only as a reason to
stop.  All such reasons hold at the end of input, so what is read up to some place is also read
if the input ends there (`Reads.cut`), and wherever else the same lexemes stand.
-/
namespace GoloSyntax

variable {naming : Naming} {n m : Nat} {items : List Item} {s r s' : Reader}
  {xs : List Construct} {behind : List Lexeme}

/-- More levels do no harm. -/
theorem Reads.mono (h : Reads naming n items s r xs) (hm : n ≤ m) : Reads naming m items s r xs := by
  induction h generalizing m with
  | nil => exact .nil
  | token hne hkind _ ih => exact .token hne hkind (ih hm)
  | newlines _ ih => exact .newlines (ih hm)
  | identifier hnext _ ih => exact .identifier hnext (ih hm)
  | qualified hname _ ih => exact .qualified hname (ih hm)
  | literal hvalue _ ih => exact .literal hvalue (ih hm)
  | @part n k phrase _ _ _ _ _ _ _ _ alt hn hsettles _ _ ihbody ih =>
    have hlevel : m - phrase.level + phrase.level = m := by omega
    exact .part alt hlevel hsettles (ihbody (by omega)) (ih hm)

/-! ## Ends of input -/

/-- `s'` stands in front of the same lexemes as `s`, only that `behind` is not there. -/
def Reader.Without (behind : List Lexeme) (s s' : Reader) : Prop :=
  s.lexemes = s'.lexemes ++ behind

namespace Reader

theorem next_eq (s : Reader) : s.next = s.lexemes.head?.getD ⟨.endOfInput, none⟩ := by
  simp [next, lexemes]

theorem kindBehind_eq (s : Reader) :
    s.kindBehind = ((s.lexemes.drop 1).head?.map Lexeme.kind).getD .endOfInput := by
  simp [kindBehind, lexemes, ← List.map_drop, Function.comp_def]

theorem lexemes_advance (s : Reader) : s.advance.lexemes = s.lexemes.drop 1 := by
  obtain ⟨_ | ⟨p, rest⟩, _, _⟩ := s <;> rfl

theorem next_of_lexemes {l : Lexeme} {ls : List Lexeme} (h : s.lexemes = l :: ls) : s.next = l := by
  rw [next_eq, h]
  rfl

theorem kind_of_lexemes {l : Lexeme} {ls : List Lexeme} (h : s.lexemes = l :: ls) :
    s.kind = l.kind :=
  congrArg Lexeme.kind (next_of_lexemes h)

theorem advance_of_lexemes {l : Lexeme} {ls : List Lexeme} (h : s.lexemes = l :: ls) :
    s.advance.lexemes = ls := by
  rw [lexemes_advance, h]
  rfl

theorem lexemes_skipNewlines (s : Reader) :
    s.skipNewlines.lexemes = s.lexemes.dropWhile (·.kind = .newline) := by
  simp [skipNewlines, lexemes, List.dropWhile_map, Function.comp_def]

namespace Without

/-- Where something is left to be read in both, the same comes next. -/
theorem next (h : Without behind s s') (hs : s'.lexemes ≠ []) : s'.next = s.next := by
  obtain ⟨l, ls, hl⟩ := List.exists_cons_of_ne_nil hs
  rw [next_eq, next_eq, h, hl]
  rfl

/-- Only the end of input comes sooner. -/
theorem next_of_kind (h : Without behind s s') (hs : s'.kind ≠ .endOfInput) : s'.next = s.next := by
  refine h.next fun hnil => hs ?_
  rw [kind, next_eq, hnil]
  rfl

theorem kind (h : Without behind s s') (hs : s'.kind ≠ .endOfInput) : s.kind = s'.kind :=
  congrArg Lexeme.kind (h.next_of_kind hs).symm

theorem kindBehind (h : Without behind s s') (hs : s'.kindBehind ≠ .endOfInput) :
    s.kindBehind = s'.kindBehind := by
  rw [kindBehind_eq] at hs ⊢
  rw [kindBehind_eq, h]
  rcases hl : s'.lexemes with _ | ⟨l, _ | ⟨l', ls⟩⟩
  · simp [hl] at hs
  · simp [hl] at hs
  · rfl

/-- What is read in front of `behind` is there in both. -/
theorem read (h : Without behind s s') (hs : s.kind ≠ .endOfInput)
    (hbehind : behind <:+ s.advance.lexemes) :
    s'.next = s.next ∧ Without behind s.advance s'.advance := by
  have hlt : behind.length < s.lexemes.length := by
    rw [lexemes_of_next rfl hs]
    exact Nat.lt_succ_of_le hbehind.length_le
  have hne : s'.lexemes ≠ [] := fun hnil => by
    rw [h, hnil] at hlt
    simp at hlt
  refine ⟨h.next hne, ?_⟩
  obtain ⟨l, ls, hl⟩ := List.exists_cons_of_ne_nil hne
  rw [Without, lexemes_advance, lexemes_advance, h, hl]
  rfl

theorem skipNewlines (h : Without behind s s') (hbehind : behind <:+ s.skipNewlines.lexemes) :
    Without behind s.skipNewlines s'.skipNewlines := by
  rw [lexemes_skipNewlines, h, List.dropWhile_append] at hbehind
  rw [Without, lexemes_skipNewlines, lexemes_skipNewlines, h, List.dropWhile_append]
  split at hbehind
  · next hempty =>
    rw [if_pos hempty, List.isEmpty_iff.mp hempty]
    exact (hbehind.eq_of_length_le (List.dropWhile_suffix _).length_le).symm
  · next hempty => rw [if_neg hempty]

end Without

end Reader

open Reader

variable {r' : Reader}

/-- All reasons to stop hold at the end of input. -/
theorem Phrase.Settles.without {phrase : Phrase} {body : List Item} (h : phrase.Settles body s r)
    (hs : Without behind s s') (hr : Without behind r r') : phrase.Settles body s' r' := by
  have hkind : r'.kind = .endOfInput ∨ r'.kind = r.kind := by
    by_cases hend : r'.kind = .endOfInput
    · exact .inl hend
    · exact .inr (hr.kind hend).symm
  have hne : ∀ kind ≠ .endOfInput, r.kind ≠ kind → r'.kind ≠ kind := by
    rintro kind hend h rfl
    exact h (hr.kind hend)
  unfold Settles at h
  split at h
  case h_1 | h_2 => exact hkind.elim id (·.trans h)
  case h_3 =>
    rintro ⟨hk, hbehind⟩
    exact h ⟨(hs.kind (by simp [hk])).trans hk, (hs.kindBehind (by simp [hbehind])).trans hbehind⟩
  case h_4 =>
    rcases hkind with hk | hk
    · exact .inr (.inr hk)
    · show _ ∨ _
      rwa [hk]
  case h_5 | h_6 | h_10 => exact hne _ (by simp) h
  case h_7 =>
    rintro ⟨op, hop, hle⟩
    have hend : r'.kind ≠ .endOfInput := fun hend => by
      rw [hend] at hop
      cases hop
    exact h ⟨op, hr.kind hend ▸ hop, hle⟩
  case h_8 => exact ⟨hne _ (by simp) h.1, hne _ (by simp) h.2⟩
  case h_9 =>
    rintro ⟨hk, hword, hbehind⟩
    have hend : s'.kind ≠ .endOfInput := by simp [hk]
    exact h ⟨(hs.kind hend).trans hk, hs.next_of_kind hend ▸ hword,
      (hs.kindBehind (by simp [hbehind])).trans hbehind⟩
  case h_11 =>
    unfold Settles
    split <;> simp_all

theorem Qualified.without {segments : List String} (h : Qualified s r segments)
    (hs : Without behind s s') (hbehind : behind <:+ r.lexemes) :
    ∃ r', Qualified s' r' segments ∧ Without behind r r' := by
  induction h generalizing s' with
  | last hnext hstop =>
    obtain ⟨hsame, hadvance⟩ := hs.read (by simp [Reader.kind, hnext]) hbehind
    refine ⟨_, .last (hsame.trans hnext) ?_, hadvance⟩
    rintro ⟨hk, hidentifier⟩
    exact hstop ⟨(hadvance.kind (by simp [hk])).trans hk,
      (hadvance.kindBehind (by simp [hidentifier])).trans hidentifier⟩
  | more hnext hdot h ih =>
    have hbehind' := hbehind.trans (h.rest_suffix.map Piece.lexeme)
    obtain ⟨hsame, hadvance⟩ := hs.read (by simp [Reader.kind, hnext])
      (hbehind'.trans ((Reader.rest_advance_suffix _).map _))
    obtain ⟨hsame', hadvance'⟩ := hadvance.read (by simp [hdot]) hbehind'
    obtain ⟨r', hqualified, hr⟩ := ih hadvance' hbehind
    have hdot' := (congrArg Lexeme.kind hsame').trans hdot
    exact ⟨r', .more (hsame.trans hnext) hdot' hqualified, hr⟩

theorem bareAll_wrap {kind : Option NodeKind} {start stop start' stop' : Position}
    {xs' : List Construct} (h : Construct.bareAll xs' = Construct.bareAll xs) :
    Construct.bareAll (wrap kind start' stop' xs') = Construct.bareAll (wrap kind start stop xs) := by
  cases kind with
  | none => exact h
  | some kind => simp [wrap, Construct.bareAll, Construct.bare, h]

/-- What is read up to some place can be read if nothing stands behind it, and wherever else the
same lexemes stand.  Only the places differ. -/
theorem Reads.cut (h : Reads naming n items s r xs) (hs : Without behind s s')
    (hbehind : behind <:+ r.lexemes) : ∃ r' xs', Reads naming n items s' r' xs' ∧
      Without behind r r' ∧ Construct.bareAll xs' = Construct.bareAll xs := by
  induction h generalizing s' with
  | nil => exact ⟨s', [], .nil, hs, rfl⟩
  | token hne hkind h ih =>
    obtain ⟨hsame, hadvance⟩ := hs.read (by rwa [hkind]) (hbehind.trans h.lexemes_suffix)
    obtain ⟨r', xs', hreads, hr, hbare⟩ := ih hadvance hbehind
    exact ⟨r', xs', .token hne ((congrArg Lexeme.kind hsame).trans hkind) hreads, hr, hbare⟩
  | newlines h ih =>
    obtain ⟨r', xs', hreads, hr, hbare⟩ := ih (hs.skipNewlines (hbehind.trans h.lexemes_suffix)) hbehind
    exact ⟨r', xs', .newlines hreads, hr, hbare⟩
  | identifier hnext h ih =>
    obtain ⟨hsame, hadvance⟩ := hs.read (by simp [Reader.kind, hnext])
      (hbehind.trans h.lexemes_suffix)
    obtain ⟨r', xs', hreads, hr, hbare⟩ := ih hadvance hbehind
    exact ⟨r', xs', .identifier (hsame.trans hnext) hreads, hr, hbare⟩
  | qualified hname h ih =>
    obtain ⟨s₁, hname', hs₁⟩ := hname.without hs (hbehind.trans h.lexemes_suffix)
    obtain ⟨r', xs', hreads, hr, hbare⟩ := ih hs₁ hbehind
    exact ⟨r', xs', .qualified hname' hreads, hr, hbare⟩
  | @literal _ _ _ s _ _ hvalue h ih =>
    have hend : s.kind ≠ .endOfInput := fun hend => by
      have := Lexeme.isLiteral_of_literal? hvalue
      rw [show s.next.kind = _ from hend] at this
      cases this
    obtain ⟨hsame, hadvance⟩ := hs.read hend (hbehind.trans h.lexemes_suffix)
    obtain ⟨r', xs', hreads, hr, hbare⟩ := ih hadvance hbehind
    exact ⟨r', xs', .literal (by rwa [hsame]) hreads, hr, hbare⟩
  | part alt hn hsettles hbody h ihbody ih =>
    obtain ⟨s₁, xs', hbody', hs₁, hbare⟩ := ihbody hs (hbehind.trans h.lexemes_suffix)
    obtain ⟨r', ys', hreads, hr, hbare'⟩ := ih hs₁ hbehind
    refine ⟨r', _, .part alt hn (hsettles.without hs hs₁) hbody' hreads, hr, ?_⟩
    rw [Construct.bareAll_append, Construct.bareAll_append, bareAll_wrap hbare, hbare']

/-! ## The last piece -/

/-- Whether a phrase ends with its last piece; declarations may end with line feeds. -/
def Phrase.closes : Phrase → Bool
  | .compilationUnit | .declarations _ => false
  | _ => true

/-- Whether items end with the last piece read. -/
def Item.closes : List Item → Bool
  | [] | [.newlines] => false
  | [.token kind] => kind ≠ .newline
  | [.part phrase] => phrase.closes
  | [_] => true
  | _ :: items => closes items

theorem Item.closes_cons {item : Item} (h : closes (item :: items)) :
    items = [] ∧ closes [item] ∨ closes items := by
  cases items with
  | nil => exact .inl ⟨rfl, h⟩
  | cons item' items => exact .inr (by simpa [closes] using h)

theorem Alternative.closes {phrase : Phrase} {body : List Item} {kind : Option NodeKind}
    (h : Alternative naming phrase body kind) (hphrase : phrase.closes) : Item.closes body := by
  cases h with
  | statement hform =>
    simp only [Phrase.statementForms, List.mem_cons, List.not_mem_nil, or_false] at hform
    rcases hform with rfl | rfl | rfl | rfl | rfl | rfl | rfl | rfl | rfl | rfl | rfl <;> rfl
  | _ => first | rfl | cases hphrase

/-- The piece read last is `p`, and reading has come to its end. -/
def Reader.EndsWith (s r : Reader) : Prop :=
  ∃ read p, s.rest = read ++ p :: r.rest ∧ r.lastEnd = p.span.stop

theorem Reader.EndsWith.of_suffix (h : s'.EndsWith r) (hs : s'.rest <:+ s.rest) : s.EndsWith r := by
  obtain ⟨front, hfront⟩ := hs
  obtain ⟨read, p, hread, hend⟩ := h
  exact ⟨front ++ read, p, by rw [← hfront, hread, List.append_assoc], hend⟩

theorem Reader.endsWith_advance (hend : s.kind ≠ .endOfInput) (hnewline : s.kind ≠ .newline) :
    s.EndsWith s.advance := by
  obtain ⟨_ | ⟨p, rest⟩, lastEnd, inputEnd⟩ := s
  · exact absurd rfl hend
  · exact ⟨[], p, rfl, if_neg hnewline⟩

theorem Qualified.endsWith {segments : List String} (h : Qualified s r segments) : s.EndsWith r := by
  induction h with
  | last hnext =>
    exact Reader.endsWith_advance (by simp [Reader.kind, hnext]) (by simp [Reader.kind, hnext])
  | more _ _ _ ih =>
    exact ih.of_suffix ((Reader.rest_advance_suffix _).trans (Reader.rest_advance_suffix _))

theorem Lexeme.literal?_ne {l : Lexeme} {value : Literal} (h : l.literal? = some value) :
    l.kind ≠ .endOfInput ∧ l.kind ≠ .newline := by
  constructor <;>
  · intro hkind
    have := Lexeme.isLiteral_of_literal? h
    rw [hkind] at this
    cases this

/-- What is read ends with its last piece. -/
theorem Reads.endsWith (h : Reads naming n items s r xs) (hitems : Item.closes items) :
    s.EndsWith r := by
  induction h with
  | nil => cases hitems
  | token hne hkind h ih =>
    rcases Item.closes_cons hitems with ⟨rfl, hclose⟩ | hclose
    · obtain ⟨rfl, -⟩ := reads_nil_iff.mp h
      refine Reader.endsWith_advance (by rwa [hkind]) ?_
      rw [hkind]
      simpa [Item.closes] using hclose
    · exact (ih hclose).of_suffix (Reader.rest_advance_suffix _)
  | newlines h ih =>
    rcases Item.closes_cons hitems with ⟨rfl, hclose⟩ | hclose
    · cases hclose
    · exact (ih hclose).of_suffix (Reader.rest_skipNewlines_suffix _)
  | identifier hnext h ih =>
    rcases Item.closes_cons hitems with ⟨rfl, -⟩ | hclose
    · obtain ⟨rfl, -⟩ := reads_nil_iff.mp h
      exact Reader.endsWith_advance (by simp [Reader.kind, hnext]) (by simp [Reader.kind, hnext])
    · exact (ih hclose).of_suffix (Reader.rest_advance_suffix _)
  | qualified hname h ih =>
    rcases Item.closes_cons hitems with ⟨rfl, -⟩ | hclose
    · obtain ⟨rfl, -⟩ := reads_nil_iff.mp h
      exact hname.endsWith
    · exact (ih hclose).of_suffix hname.rest_suffix
  | literal hvalue h ih =>
    rcases Item.closes_cons hitems with ⟨rfl, -⟩ | hclose
    · obtain ⟨rfl, -⟩ := reads_nil_iff.mp h
      obtain ⟨hend, hnewline⟩ := Lexeme.literal?_ne hvalue
      exact Reader.endsWith_advance hend hnewline
    · exact (ih hclose).of_suffix (Reader.rest_advance_suffix _)
  | part alt _ _ hbody h ihbody ih =>
    rcases Item.closes_cons hitems with ⟨rfl, hclose⟩ | hclose
    · obtain ⟨rfl, -⟩ := reads_nil_iff.mp h
      exact ihbody (alt.closes hclose)
    · exact (ih hclose).of_suffix hbody.rest_suffix

end GoloSyntax
