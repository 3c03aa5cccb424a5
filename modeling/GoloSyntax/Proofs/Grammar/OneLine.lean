import GoloSyntax.Proofs.Grammar.Derivations
import GoloSyntax.Proofs.Tree.OneLine

/-! # Names on one line

The name of a node is an identifier, or identifiers joined by points, that the items of its phrase
read (`Alternative.namedOnOneLine`).  If no identifier has a line feed, then neither has a name in
what is read (`Reads.namedOnOneLine`).
-/
namespace GoloSyntax

/-- No identifier has a line feed. -/
def IdentifiersOnOneLine (w : List Lexeme) : Prop :=
  ∀ l ∈ w, ∀ name, l = ⟨.identifier, some name⟩ → isOneLine name

theorem IdentifiersOnOneLine.suffix {v w : List Lexeme} (h : IdentifiersOnOneLine w)
    (hv : v <:+ w) : IdentifiersOnOneLine v :=
  fun l hl => h l (hv.subset hl)

theorem isOneLine_dotted {segments : List String} (h : ∀ segment ∈ segments, isOneLine segment) :
    isOneLine (dotted segments) := by
  have hfold : ∀ (rest : List String) (first : String), isOneLine first →
      (∀ segment ∈ rest, isOneLine segment) →
        isOneLine (rest.foldl (fun name segment => name ++ "." ++ segment) first) := by
    intro rest
    induction rest with
    | nil => exact fun first hfirst _ => hfirst
    | cons second rest ih =>
      intro first hfirst hrest
      obtain ⟨hsecond, hrest⟩ := List.forall_mem_cons.mp hrest
      apply ih _ _ hrest
      rw [isOneLine_append, isOneLine_append, hfirst, hsecond]
      rfl
  cases segments with
  | nil => rfl
  | cons first rest =>
    obtain ⟨hfirst, hrest⟩ := List.forall_mem_cons.mp h
    exact hfold rest first hfirst hrest

/-- The texts of an item are on one line. -/
def Item.OnOneLine : Item → Prop
  | .identifier name => isOneLine name
  | .qualified segments => ∀ segment ∈ segments, isOneLine segment
  | _ => True

/-- What a name denotes is named by that name or by the front of it. -/
theorem NameDenotes.namedOnOneLine {name : String} {kind : NodeKind} (h : NameDenotes name kind)
    (hname : isOneLine name) : kind.NamedOnOneLine := by
  unfold NameDenotes at h
  intro text htext
  split at h
  · next class_ hclass =>
    subst h
    obtain rfl := Option.some.inj htext
    simp only [Grammar.classOf?] at hclass
    split at hclass
    · obtain rfl := Option.some.inj hclass
      rw [isOneLine_ofList]
      exact fun hmem => isOneLine_iff.mp hname (List.mem_of_mem_take hmem)
    · cases hclass
  · obtain ⟨-, rfl⟩ := h
    obtain rfl := Option.some.inj htext
    exact hname

/-- A node is named by the items that it is made from. -/
theorem Alternative.namedOnOneLine {phrase : Phrase} {body : List Item} {kind : NodeKind}
    (alt : Alternative .byText phrase body (some kind)) (h : ∀ item ∈ body, item.OnOneLine) :
    kind.NamedOnOneLine := by
  intro name hname
  cases alt with
  | bareName hdenotes =>
    have hsegments := h _ (List.mem_singleton_self _)
    exact NameDenotes.namedOnOneLine hdenotes (isOneLine_dotted hsegments) name hname
  | moduleDeclaration segments | importDeclaration segments | augmentation segments
  | functionRef segments | invocation segments =>
    obtain rfl := Option.some.inj hname
    exact isOneLine_dotted (h (.qualified segments) (by simp))
  | functionDeclaration name | localFunctionDeclaration name | parameter name | struct name
  | member name | let_ name | var name | assignment name | forEach name
  | forEachParenthesized name | catch_ name | callsMethod name =>
    obtain rfl := Option.some.inj hname
    exact h (.identifier name) (by simp)
  | _ => cases hname

/-- Names are read from identifiers. -/
theorem Reads.namedOnOneLine {n : Nat} {items : List Item} {s r : Reader} {xs : List Construct}
    (h : Reads .byText n items s r xs) (hs : IdentifiersOnOneLine s.lexemes) :
    (∀ item ∈ items, item.OnOneLine) ∧
      ∀ x ∈ xs, x.Everywhere fun y => y.kind.NamedOnOneLine := by
  induction h with
  | nil => exact ⟨nofun, nofun⟩
  | @token n kind items s r xs hne hkind h ih =>
    obtain ⟨hitems, hxs⟩ := ih (hs.suffix ((Reader.rest_advance_suffix s).map _))
    exact ⟨List.forall_mem_cons.mpr ⟨trivial, hitems⟩, hxs⟩
  | @newlines n items s r xs h ih =>
    obtain ⟨hitems, hxs⟩ := ih (hs.suffix ((Reader.rest_skipNewlines_suffix s).map _))
    exact ⟨List.forall_mem_cons.mpr ⟨trivial, hitems⟩, hxs⟩
  | @identifier n name items s r xs hnext h ih =>
    obtain ⟨hitems, hxs⟩ := ih (hs.suffix ((Reader.rest_advance_suffix s).map _))
    have hlexemes := Reader.lexemes_of_next hnext (by simp)
    have hname : isOneLine name := hs _ (hlexemes ▸ List.mem_cons_self) name rfl
    exact ⟨List.forall_mem_cons.mpr ⟨hname, hitems⟩, hxs⟩
  | @qualified n segments items s s' r xs hname h ih =>
    obtain ⟨hitems, hxs⟩ := ih (hs.suffix (hname.rest_suffix.map _))
    obtain ⟨u, hu, hdotted⟩ := hname.dotted
    have hsegments : ∀ segment ∈ segments, isOneLine segment := fun segment hsegment =>
      hs _ (hu ▸ List.mem_append_left _ (hdotted.of_segments.2 segment hsegment)) segment rfl
    exact ⟨List.forall_mem_cons.mpr ⟨hsegments, hitems⟩, hxs⟩
  | @literal n value items s r xs hvalue h ih =>
    obtain ⟨hitems, hxs⟩ := ih (hs.suffix ((Reader.rest_advance_suffix s).map _))
    exact ⟨List.forall_mem_cons.mpr ⟨trivial, hitems⟩, hxs⟩
  | @part n m phrase body items kind s s' r xs ys alt hn hsettles hbody h ihbody ih =>
    obtain ⟨hbodyItems, hxs⟩ := ihbody hs
    obtain ⟨hitems, hys⟩ := ih (hs.suffix hbody.lexemes_suffix)
    refine ⟨List.forall_mem_cons.mpr ⟨trivial, hitems⟩, List.forall_mem_append.mpr ⟨?_, hys⟩⟩
    -- The node that is made, if any, is named by the items of its own body.
    cases kind with
    | none => exact hxs
    | some kind =>
      intro x hx
      obtain rfl := List.mem_singleton.mp hx
      exact Construct.everywhere_iff.mpr ⟨alt.namedOnOneLine hbodyItems, hxs⟩

end GoloSyntax
