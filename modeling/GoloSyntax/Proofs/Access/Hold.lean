import GoloSyntax.Proofs.Reading.Run

/-! # What a program has hold of

A program is *safe* (`Reading.Safe`) if it reads a token, or looks behind one, only where it knows
that the next token is not the end of input; uses no numbers of nodes but those that it was given;
puts no texts into nodes but those that tokens have or that it has entered; and enters no more than
two texts for each token that it has read itself.  What it may rely on at each point is its
`Hold`; every step asks for something in its hold and leaves another one behind.

A repetition is safe if some nodes that its rounds hand on to each other are enough for each of
them.
-/
namespace GoloSyntax

/-- The texts that a node keeps: its name, or the text of a string. -/
@[simp] def NodeKind.texts : NodeKind → List String
  | .literal (.string text) => [text]
  | kind => kind.name?.toList

/-- The nodes that a rule is given. -/
@[simp] def Rule.nodes : Rule → List NodeId
  | .arms _ node | .arguments node => [node]
  | _ => []

namespace Reading

/-- What a program may rely on. -/
structure Hold where
  /-- Nodes that are in the tree. -/
  nodes : List NodeId
  /-- Texts that are listed. -/
  texts : List String
  /-- The kind of the next token, if it has been looked at. -/
  next : Option TokenKind
  /-- How many texts may be entered for tokens that have been read. -/
  entries : Nat

namespace Hold

/-- The next token is known not to be the end of input. -/
def isSolid (h : Hold) : Bool := h.next.any (· ≠ .endOfInput)

/-- Nothing is known of the next token any more. -/
def blind (h : Hold) : Hold := ⟨h.nodes, h.texts, none, h.entries⟩

/-- The next token has been looked at. -/
def see (h : Hold) (x : Lexeme) : Hold :=
  ⟨h.nodes, x.text.toList ++ h.texts, some x.kind, h.entries⟩

/-- The next token has been read. -/
def advance (h : Hold) : Hold := ⟨h.nodes, h.texts, none, h.entries + 2⟩

/-- A node has been made. -/
def gain (h : Hold) (id : NodeId) : Hold := ⟨id :: h.nodes, h.texts, h.next, h.entries⟩

/-- A text has been entered. -/
def enter (h : Hold) (text : String) : Hold := ⟨h.nodes, text :: h.texts, h.next, h.entries - 1⟩

/-- More nodes are known, nothing of the next token, and other programs see to their own entries. -/
def among (h : Hold) (nodes : List NodeId) (entries : Nat) : Hold :=
  ⟨nodes ++ h.nodes, h.texts, none, entries⟩

/-- What is known of the next token allows it to be of some kind. -/
def Allows (h : Hold) (kind : TokenKind) : Prop := ∀ known ∈ h.next, kind = known

end Hold

end Reading

open Reading (Hold)

namespace Step

/-- What a step asks for. -/
def Asks : Step → Hold → Prop
  | .look, _ | .skipNewlines, _ | .reject _, _ | .refuseLiteral _, _ => True
  | .lookBehind, h | .advance, h => h.isSolid
  | .openNode kind, h => ∀ text ∈ kind.texts, text ∈ h.texts
  | .closeNode id, h => id ∈ h.nodes
  | .setKind id kind, h => id ∈ h.nodes ∧ ∀ text ∈ kind.texts, text ∈ h.texts
  | .attach parent child, h => parent ∈ h.nodes ∧ child ∈ h.nodes
  | .intern _, h => 0 < h.entries

/-- What a step may answer. -/
def Admits : (action : Step) → Hold → action.Answer → Prop
  | .look, h, x => h.Allows x.kind
  | _, _, _ => True

/-- What is known behind a step. -/
def after : (action : Step) → Hold → action.Answer → Hold
  | .look, h, x => h.see x
  | .advance, h, _ => h.advance
  | .skipNewlines, h, _ => h.blind
  | .openNode _, h, id => h.gain id
  | .intern text, h, _ => h.enter text
  | .lookBehind, h, _ | .closeNode _, h, _ | .setKind .., h, _ | .attach .., h, _
  | .reject _, h, _ | .refuseLiteral _, h, _ => h

end Step

namespace Reading

variable {α β σ : Type}

/-- What a round leaves for the next one, or for what comes behind the repetition. -/
def Round.Leaves (carried : σ → List NodeId) (answered : β → List NodeId) :
    Round σ β → Hold → Prop
  | .again y, h => carried y ⊆ h.nodes
  | .stop a, h => answered a ⊆ h.nodes

/-- A program that asks for no more than it has hold of; `post` is to hold at its end. -/
def Safe : {α : Type} → Reading α → (α → Hold → Prop) → Hold → Prop
  | _, .done a, post, h => post a h
  | _, .step action next, post, h =>
    action.Asks h ∧ ∀ x, action.Admits h x → Safe (next x) post (action.after h x)
  | _, .call rule next, post, h =>
    rule.nodes ⊆ h.nodes ∧ ∀ id, Safe (next id) post (h.among [id] h.entries)
  | _, .frame body next, post, h => Safe body (fun x => Safe (next x) post) h
  | _, @Reading.repeat _ β σ round state next, post, h =>
    ∃ (carried : σ → List NodeId) (answered : β → List NodeId), carried state ⊆ h.nodes ∧
      (∀ x, Safe (round x) (Round.Leaves carried answered) (h.among (carried x) 0)) ∧
        ∀ a, Safe (next a) post (h.among (answered a) h.entries)

/-- The end of a program may be described more loosely. -/
theorem Safe.imp {post post' : α → Hold → Prop} {h : Hold} {m : Reading α} (hm : m.Safe post h)
    (hpost : ∀ a h, post a h → post' a h) : m.Safe post' h := by
  induction m generalizing h with
  | done a => exact hpost a h hm
  | step action next ih => exact ⟨hm.1, fun x hx => ih x (hm.2 x hx) hpost⟩
  | call rule next ih => exact ⟨hm.1, fun id => ih id (hm.2 id) hpost⟩
  | frame body next ihbody ih => exact ihbody hm fun x h hx => ih x hx hpost
  | «repeat» round state next _ ih =>
    obtain ⟨carried, answered, hstate, hround, hnext⟩ := hm
    exact ⟨carried, answered, hstate, hround, fun a => ih a (hnext a) hpost⟩

/-- What is asked of one program after the other. -/
@[simp] theorem safe_bind {post : β → Hold → Prop} {h : Hold} (m : Reading α) (f : α → Reading β) :
    (m >>= f).Safe post h ↔ m.Safe (fun a => (f a).Safe post) h := by
  show (m.bind f).Safe post h ↔ _
  refine iff_of_eq ?_
  induction m generalizing h with
  | done a => rfl
  | step action next ih =>
    exact congrArg (_ ∧ ·) (forall_congr fun x => forall_congr fun _ => ih x f)
  | call rule next ih => exact congrArg (_ ∧ ·) (forall_congr fun id => ih id f)
  | frame body next _ ih => exact congrArg (Safe body · h) (funext fun x => funext fun h => ih x f)
  | «repeat» round state next _ ih =>
    refine congrArg Exists (funext fun carried => congrArg Exists (funext fun answered => ?_))
    exact congrArg (_ ∧ _ ∧ ·) (forall_congr fun a => ih a f)

section Steps

variable {h : Hold}

@[simp] theorem safe_pure (a : α) {post : α → Hold → Prop} :
    (pure a : Reading α).Safe post h ↔ post a h := .rfl

@[simp] theorem safe_look {post : Lexeme → Hold → Prop} :
    look.Safe post h ↔ ∀ x : Lexeme, h.Allows x.kind → post x (h.see x) :=
  ⟨fun hsafe => hsafe.2, fun hpost => ⟨trivial, hpost⟩⟩

@[simp] theorem safe_peekBehind {post : TokenKind → Hold → Prop} :
    peekBehind.Safe post h ↔ h.isSolid ∧ ∀ kind, post kind h :=
  ⟨fun hsafe => ⟨hsafe.1, fun kind => hsafe.2 kind trivial⟩,
    fun hpost => ⟨hpost.1, fun kind _ => hpost.2 kind⟩⟩

@[simp] theorem safe_advance {post : Unit → Hold → Prop} :
    advance.Safe post h ↔ h.isSolid ∧ post () h.advance :=
  ⟨fun hsafe => ⟨hsafe.1, hsafe.2 () trivial⟩, fun hpost => ⟨hpost.1, fun _ _ => hpost.2⟩⟩

@[simp] theorem safe_skipNewlines {post : Unit → Hold → Prop} :
    skipNewlines.Safe post h ↔ post () h.blind :=
  ⟨fun hsafe => hsafe.2 () trivial, fun hpost => ⟨trivial, fun _ _ => hpost⟩⟩

@[simp] theorem safe_openNode {kind : NodeKind} {post : NodeId → Hold → Prop} :
    (openNode kind).Safe post h ↔
      (∀ text ∈ kind.texts, text ∈ h.texts) ∧ ∀ id, post id (h.gain id) :=
  ⟨fun hsafe => ⟨hsafe.1, fun id => hsafe.2 id trivial⟩,
    fun hpost => ⟨hpost.1, fun id _ => hpost.2 id⟩⟩

@[simp] theorem safe_closeNode {id : NodeId} {post : NodeId → Hold → Prop} :
    (closeNode id).Safe post h ↔ id ∈ h.nodes ∧ post id h :=
  ⟨fun hsafe => ⟨hsafe.1, hsafe.2 () trivial⟩, fun hpost => ⟨hpost.1, fun _ _ => hpost.2⟩⟩

@[simp] theorem safe_setKind {id : NodeId} {kind : NodeKind} {post : Unit → Hold → Prop} :
    (setKind id kind).Safe post h ↔
      (id ∈ h.nodes ∧ ∀ text ∈ kind.texts, text ∈ h.texts) ∧ post () h :=
  ⟨fun hsafe => ⟨hsafe.1, hsafe.2 () trivial⟩, fun hpost => ⟨hpost.1, fun _ _ => hpost.2⟩⟩

@[simp] theorem safe_attach {parent child : NodeId} {post : Unit → Hold → Prop} :
    (attach parent child).Safe post h ↔ (parent ∈ h.nodes ∧ child ∈ h.nodes) ∧ post () h :=
  ⟨fun hsafe => ⟨hsafe.1, hsafe.2 () trivial⟩, fun hpost => ⟨hpost.1, fun _ _ => hpost.2⟩⟩

@[simp] theorem safe_intern {text : String} {post : Unit → Hold → Prop} :
    (intern text).Safe post h ↔ 0 < h.entries ∧ post () (h.enter text) :=
  ⟨fun hsafe => ⟨hsafe.1, hsafe.2 () trivial⟩, fun hpost => ⟨hpost.1, fun _ _ => hpost.2⟩⟩

@[simp] theorem safe_reject {expected : List Expected} {post : α → Hold → Prop} :
    (reject expected : Reading α).Safe post h := ⟨trivial, nofun⟩

@[simp] theorem safe_refuseLiteral {fault : ParseFault} {post : α → Hold → Prop} :
    (refuseLiteral fault : Reading α).Safe post h := ⟨trivial, nofun⟩

@[simp] theorem safe_enter {rule : Rule} {post : NodeId → Hold → Prop} :
    (enter rule).Safe post h ↔ rule.nodes ⊆ h.nodes ∧ ∀ id, post id (h.among [id] h.entries) := .rfl

@[simp] theorem safe_framed {body : Reading α} {post : α → Hold → Prop} :
    (framed body).Safe post h ↔ body.Safe post h := .rfl

/-- Rounds that hand on nodes. -/
theorem safe_repeating_nodes {state : NodeId} {round : NodeId → Reading (Round NodeId NodeId)}
    {post : NodeId → Hold → Prop} (hstate : state ∈ h.nodes)
    (hround : ∀ id, (round id).Safe (fun r h => match r with
      | .again id | .stop id => id ∈ h.nodes) (h.among [id] 0))
    (hpost : ∀ id, post id (h.among [id] h.entries)) : (repeating state round).Safe post h := by
  refine ⟨fun id => [id], fun id => [id], by simpa using hstate, fun id => ?_, hpost⟩
  refine (hround id).imp fun r h hr => ?_
  cases r <;> simpa [Round.Leaves] using hr

/-- Rounds that hand on no nodes. -/
theorem safe_repeating {state : σ} {round : σ → Reading (Round σ β)} {post : β → Hold → Prop}
    (hround : ∀ x, (round x).Safe (fun _ _ => True) (h.among [] 0))
    (hpost : ∀ a, post a h.blind) : (repeating state round).Safe post h := by
  refine ⟨fun _ => [], fun _ => [], by simp, fun x => ?_, hpost⟩
  refine (hround x).imp fun r h _ => ?_
  cases r <;> simp [Round.Leaves]

theorem safe_repeatUntil {round : Reading (Round Unit β)} {post : β → Hold → Prop}
    (hround : round.Safe (fun _ _ => True) (h.among [] 0)) (hpost : ∀ a, post a h.blind) :
    (repeatUntil round).Safe post h :=
  safe_repeating (fun _ => hround) hpost

@[simp] theorem safe_child {parent : NodeId} {rule : Rule} {post : Unit → Hold → Prop} :
    (child parent rule).Safe post h ↔
      rule.nodes ⊆ h.nodes ∧
        ∀ id, (parent = id ∨ parent ∈ h.nodes) ∧ post () (h.among [id] h.entries) := by
  simp [child, Hold.among]

@[simp] theorem safe_leaf {kind : NodeKind} {post : NodeId → Hold → Prop} :
    (leaf kind).Safe post h ↔
      (∀ text ∈ kind.texts, text ∈ h.texts) ∧ ∀ id, post id (h.gain id) := by
  simp [leaf, Hold.gain]

end Steps

section Lookahead

variable {nodes more : List NodeId} {texts : List String} {next : Option TokenKind}
  {entries n : Nat} {kind known : TokenKind} {x : Lexeme} {id : NodeId} {text : String} {h : Hold}

@[simp] theorem allows_unknown : (Hold.mk nodes texts none entries).Allows kind :=
  fun _ hkind => by cases hkind

@[simp] theorem allows_known :
    (Hold.mk nodes texts (some known) entries).Allows kind ↔ kind = known :=
  ⟨fun h => h known rfl, fun h _ hkind => h.trans (Option.some.inj hkind)⟩

@[simp] theorem isSolid_unknown : (Hold.mk nodes texts none entries).isSolid = false := rfl

@[simp] theorem isSolid_known :
    (Hold.mk nodes texts (some known) entries).isSolid = decide (known ≠ .endOfInput) := rfl

@[simp] theorem blind_hold :
    (Hold.mk nodes texts next entries).blind = ⟨nodes, texts, none, entries⟩ := rfl

@[simp] theorem see_hold : (Hold.mk nodes texts next entries).see x =
    ⟨nodes, x.text.toList ++ texts, some x.kind, entries⟩ := rfl

@[simp] theorem advance_hold :
    (Hold.mk nodes texts next entries).advance = ⟨nodes, texts, none, entries + 2⟩ := rfl

@[simp] theorem gain_hold :
    (Hold.mk nodes texts next entries).gain id = ⟨id :: nodes, texts, next, entries⟩ := rfl

@[simp] theorem enter_hold : (Hold.mk nodes texts next entries).enter text =
    ⟨nodes, text :: texts, next, entries - 1⟩ := rfl

@[simp] theorem among_hold : (Hold.mk nodes texts next entries).among more n =
    ⟨more ++ nodes, texts, none, n⟩ := rfl

@[simp] theorem safe_peek {post : TokenKind → Hold → Prop} :
    peek.Safe post h ↔ ∀ kind, h.Allows kind → ∀ text : Option String,
      post kind ⟨h.nodes, text.toList ++ h.texts, some kind, h.entries⟩ := by
  simp only [peek, safe_bind, safe_look, safe_pure]
  exact ⟨fun hsafe kind hkind text => hsafe ⟨kind, text⟩ hkind,
    fun hpost x hx => hpost x.kind hx x.text⟩

theorem safe_expect_of {post : Unit → Hold → Prop} (hend : kind ≠ .endOfInput) :
    (expect kind).Safe post h ↔ (h.Allows kind → ∀ text : Option String,
      post () ⟨h.nodes, text.toList ++ h.texts, none, h.entries + 2⟩) := by
  simp only [expect, safe_bind, safe_peek]
  constructor
  · intro hsafe hkind text
    simpa [hend] using hsafe kind hkind text
  · intro hpost other hother text
    split
    · next heq =>
      subst heq
      simpa [hend] using hpost hother text
    · exact safe_reject

@[simp] theorem safe_expect_mark {sign : Mark} {post : Unit → Hold → Prop} :
    (expect (.mark sign)).Safe post h ↔ (h.Allows (.mark sign) → ∀ text : Option String,
      post () ⟨h.nodes, text.toList ++ h.texts, none, h.entries + 2⟩) :=
  safe_expect_of (by simp)

@[simp] theorem safe_expect_keyword {word : Keyword} {post : Unit → Hold → Prop} :
    (expect (.keyword word)).Safe post h ↔ (h.Allows (.keyword word) → ∀ text : Option String,
      post () ⟨h.nodes, text.toList ++ h.texts, none, h.entries + 2⟩) :=
  safe_expect_of (by simp)

theorem safe_accept_of {post : Bool → Hold → Prop} (hend : kind ≠ .endOfInput) :
    (accept kind).Safe post h ↔
      (h.Allows kind → ∀ text : Option String,
        post true ⟨h.nodes, text.toList ++ h.texts, none, h.entries + 2⟩) ∧
      ∀ other, h.Allows other → other ≠ kind → ∀ text : Option String,
        post false ⟨h.nodes, text.toList ++ h.texts, some other, h.entries⟩ := by
  simp only [accept, safe_bind, safe_peek]
  constructor
  · intro hsafe
    refine ⟨fun hkind text => ?_, fun other hother hne text => ?_⟩
    · simpa [hend] using hsafe kind hkind text
    · simpa [hne] using hsafe other hother text
  · rintro ⟨htrue, hfalse⟩ other hother text
    split
    · next heq =>
      subst heq
      simpa [hend] using htrue hother text
    · next hne => exact hfalse other hother hne text

@[simp] theorem safe_accept_mark {sign : Mark} {post : Bool → Hold → Prop} :
    (accept (.mark sign)).Safe post h ↔
      (h.Allows (.mark sign) → ∀ text : Option String,
        post true ⟨h.nodes, text.toList ++ h.texts, none, h.entries + 2⟩) ∧
      ∀ other, h.Allows other → other ≠ .mark sign → ∀ text : Option String,
        post false ⟨h.nodes, text.toList ++ h.texts, some other, h.entries⟩ :=
  safe_accept_of (by simp)

@[simp] theorem safe_accept_keyword {word : Keyword} {post : Bool → Hold → Prop} :
    (accept (.keyword word)).Safe post h ↔
      (h.Allows (.keyword word) → ∀ text : Option String,
        post true ⟨h.nodes, text.toList ++ h.texts, none, h.entries + 2⟩) ∧
      ∀ other, h.Allows other → other ≠ .keyword word → ∀ text : Option String,
        post false ⟨h.nodes, text.toList ++ h.texts, some other, h.entries⟩ :=
  safe_accept_of (by simp)

@[simp] theorem safe_identifier {role : NameRole} {post : String → Hold → Prop} :
    (identifier role).Safe post h ↔ (h.Allows .identifier → ∀ text,
      post text ⟨h.nodes, text :: h.texts, none, h.entries + 2⟩) := by
  simp only [identifier, safe_bind, safe_look]
  constructor
  · intro hsafe hkind text
    simpa [Hold.see, Hold.advance] using hsafe ⟨.identifier, some text⟩ hkind
  · intro hpost x hx
    split
    · next text => simpa [Hold.see, Hold.advance] using hpost hx text
    · exact safe_reject

/-- A name is listed once it has been read, and one more text may be entered for it. -/
theorem safe_qualifiedName {role : NameRole} {post : String → Hold → Prop}
    (hpost : ∀ name texts next entries, name ∈ texts → h.texts ⊆ texts → 0 < entries →
      post name ⟨h.nodes, texts, next, entries⟩) : (qualifiedName role).Safe post h := by
  simp only [qualifiedName, safe_bind, safe_identifier, safe_peek]
  intro _ first kind _ text
  split
  · rw [safe_bind]
    refine safe_repeating (fun name => ?_) fun name => ?_
    · simp only [safe_bind, safe_peek, among_hold]
      intro kind _ text
      split
      · next hdot =>
        subst hdot
        simp only [safe_bind, safe_peekBehind]
        refine ⟨by simp, fun behind => ?_⟩
        split <;> simp
      · simp
    · simp only [safe_bind, safe_intern, safe_pure, blind_hold, enter_hold]
      exact ⟨by omega, hpost _ _ _ _ (by simp) (fun t ht => by simp [ht]) (by omega)⟩
  · exact hpost _ _ _ _ (by simp) (by simp) (by simp)

theorem safe_terminator {withinBraces : Bool} {post : Unit → Hold → Prop}
    (hpost : ∀ texts next, h.texts ⊆ texts → post () ⟨h.nodes, texts, next, h.entries⟩) :
    (terminator withinBraces).Safe post h := by
  simp only [terminator, safe_bind, safe_peek]
  intro kind _ text
  split
  · simpa using hpost _ none (by simp)
  · exact hpost _ _ (by simp)
  · split
    · exact hpost _ _ (by simp)
    · exact safe_reject
  · split <;> exact safe_reject

end Lookahead

end Reading

end GoloSyntax
