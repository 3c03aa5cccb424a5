import GoloSyntax.Proofs.Access.Machine
import GoloSyntax.Proofs.Access.Rules

/-! # Reading by index and reading a list

Safe programs do the same on the array of tokens as on the list of the tokens in front of the first
end of input (`agree_run`, `agree_enter`): as long as no program reads the end of input or looks
behind it, the index stays in front of it (`Along`), nothing outside of the array is accessed, and
nothing is done that is not permitted.  What is permitted is left open; a `Licence` says in which
states it is, in terms of what safe programs ask for.
-/
namespace GoloSyntax

/-- The text is listed. -/
def SymbolTable.Lists (t : SymbolTable) (text : String) : Prop :=
  ∃ symbol, t.text? symbol = some text

theorem SymbolTable.size_intern_le (t : SymbolTable) (text : String) :
    (t.intern text).2.size ≤ t.size + 1 := by
  obtain ⟨texts, numbers, agree⟩ := t
  unfold intern size
  dsimp only
  split <;> simp

namespace Reading

/-- A state is as a program may rely on; `room` bounds the number of texts. -/
structure Hold.Covers (h : Hold) (c : Context) (room : Nat) (s : State) : Prop where
  root : 0 < s.tree.size
  nodes : ∀ id ∈ h.nodes, id.index < s.tree.size
  texts : ∀ text ∈ h.texts, s.tree.symbols.Lists text
  next : h.Allows (s.current c).kind
  /-- Two texts may be entered for each token that is left. -/
  entries : s.tree.symbols.size + 2 * s.rest.length + h.entries ≤ room

namespace Hold.Covers

variable {h : Hold} {c : Context} {room room' : Nat} {s s' : State}

theorem mono (hs : h.Covers c room s) (hle : room ≤ room') : h.Covers c room' s :=
  ⟨hs.root, hs.nodes, hs.texts, hs.next, Nat.le_trans hs.entries hle⟩

/-- What is known of nodes and texts stays true. -/
theorem of_grows (hs : h.Covers c room s) (hgrows : s.Grows s') (nodes : List NodeId)
    {next : Option TokenKind} (entries : Nat) (hnodes : ∀ id ∈ nodes, id.index < s'.tree.size)
    (hnext : ∀ known ∈ next, (s'.current c).kind = known)
    (hentries : s'.tree.symbols.size + 2 * s'.rest.length + entries ≤ room) :
    (Hold.mk (nodes ++ h.nodes) h.texts next entries).Covers c room s' where
  root := Nat.lt_of_lt_of_le hs.root hgrows.size
  nodes id hid := by
    rcases List.mem_append.mp hid with hid | hid
    · exact hnodes id hid
    · exact Nat.lt_of_lt_of_le (hs.nodes id hid) hgrows.size
  texts text htext := by
    obtain ⟨symbol, hsymbol⟩ := hs.texts text htext
    exact ⟨symbol, hgrows.symbols symbol text hsymbol⟩
  next := hnext
  entries := hentries

/-- A token that is known not to be the end of input is there. -/
theorem exists_cons (hs : h.Covers c room s) (hend : c.endToken.kind = .endOfInput)
    (hsolid : h.isSolid) : ∃ token rest, s.rest = token :: rest := by
  obtain ⟨kind, hnext, hkind⟩ := (Option.any_eq_true _ _).mp hsolid
  cases hrest : s.rest with
  | nil =>
    have hcurrent : c.endToken.kind = kind := by
      simpa [State.current, hrest] using hs.next kind hnext
    rw [hend] at hcurrent
    simp [← hcurrent] at hkind
  | cons token rest => exact ⟨token, rest, rfl⟩

end Hold.Covers

/-- A step that has what it asks for leaves behind what it should. -/
theorem covers_perform {h : Hold} {c : Context} {room : Nat} {s s' : State} {start : Position}
    (hend : c.endToken.kind = .endOfInput) (action : Step) {x : action.Answer}
    (hasks : action.Asks h) (hs : h.Covers c room s)
    (hx : perform c start action s = .ok (x, s')) :
    action.Admits h x ∧ (action.after h x).Covers c room s' := by
  have hgrows := grows_perform action hx
  have hlength := hgrows.rest.length_le
  have hentries := hs.entries
  cases action with
  | look =>
    obtain ⟨rfl, rfl⟩ := Prod.mk.inj (Except.ok.inj hx)
    refine ⟨hs.next, hs.root, hs.nodes, fun text htext => ?_, fun _ hkind => Option.some.inj hkind,
      hentries⟩
    rcases List.mem_append.mp htext with htext | htext
    · obtain ⟨symbol, -, hsymbol⟩ := Option.bind_eq_some_iff.mp (Option.mem_toList.mp htext)
      exact ⟨symbol, hsymbol⟩
    · exact hs.texts text htext
  | lookBehind =>
    obtain ⟨rfl, rfl⟩ := Prod.mk.inj (Except.ok.inj hx)
    exact ⟨trivial, hs⟩
  | advance =>
    obtain ⟨-, rfl⟩ := Prod.mk.inj (Except.ok.inj hx)
    obtain ⟨token, rest, hrest⟩ := hs.exists_cons hend hasks
    obtain ⟨_, lastEnd, tree⟩ := s
    subst hrest
    -- One token less is left, which pays for two more texts.
    refine ⟨trivial, hs.of_grows hgrows [] _ nofun nofun ?_⟩
    simp only [State.advance, List.length_cons] at hentries ⊢
    omega
  | skipNewlines =>
    obtain ⟨-, rfl⟩ := Prod.mk.inj (Except.ok.inj hx)
    refine ⟨trivial, hs.of_grows hgrows [] _ nofun nofun ?_⟩
    simp only at hlength ⊢
    omega
  | openNode kind =>
    simp only [perform] at hx
    split at hx
    · cases hx
    · obtain ⟨rfl, rfl⟩ := Prod.mk.inj (Except.ok.inj hx)
      refine ⟨trivial, hs.of_grows hgrows [_] _ (fun id hid => ?_) hs.next hentries⟩
      rw [List.mem_singleton.mp hid]
      simp [Tree.push, Tree.size]
  | closeNode id | setKind id kind =>
    obtain ⟨-, rfl⟩ := Prod.mk.inj (Except.ok.inj hx)
    exact ⟨trivial, hs.of_grows hgrows [] _ nofun hs.next hentries⟩
  | attach parent child =>
    obtain ⟨-, rfl⟩ := Prod.mk.inj (Except.ok.inj hx)
    refine ⟨trivial, hs.of_grows hgrows [] _ nofun hs.next ?_⟩
    simpa using hentries
  | intern text =>
    obtain ⟨-, rfl⟩ := Prod.mk.inj (Except.ok.inj hx)
    have hsize : (s.tree.symbols.intern text).2.size ≤ s.tree.symbols.size + 1 :=
      SymbolTable.size_intern_le _ _
    have hpositive : 0 < h.entries := hasks
    have hroom :
        (s.tree.symbols.intern text).2.size + 2 * s.rest.length + (h.entries - 1) ≤ room := by
      omega
    have hcovers := hs.of_grows hgrows [] (h.entries - 1) nofun hs.next hroom
    refine ⟨trivial, hcovers.root, hcovers.nodes, fun other hother => ?_, hcovers.next,
      hcovers.entries⟩
    rcases List.mem_cons.mp hother with rfl | hother
    · exact ⟨_, SymbolTable.text?_intern s.tree.symbols other⟩
    · exact hcovers.texts other hother
  | reject _ | refuseLiteral _ => cases hx

end Reading

namespace Indexed

open Reading (Hold)

/-- What is permitted, and in which states. -/
structure Licence (c : Reading.Context) where
  permits : Step → Token → Tree → Bool
  /-- How many texts there may be. -/
  room : Nat
  /-- What is true of every state that is reached. -/
  inv : Reading.State → Prop
  grants : ∀ {action h s}, inv s → h.Covers c room s → action.Asks h →
    permits action (s.current c) s.tree
  keeps : ∀ {action h s start x s'}, inv s → h.Covers c room s → action.Asks h →
    Reading.perform c start action s = .ok (x, s') → inv s'

/-- The index machine and the list machine on the same tokens. -/
structure Setting where
  machine : Context
  context : Reading.Context
  /-- The index of the first end of input. -/
  stop : Nat
  licence : Licence context
  permits : machine.permits = licence.permits
  maxDepth : machine.maxDepth = context.maxDepth
  maxNodes : machine.maxNodes = context.maxNodes
  rounds : machine.rounds = context.tokenCount
  endKind : context.endToken.kind = .endOfInput
  endToken : machine.tokens[stop]? = some context.endToken

/-- A state of the index machine stands where a state of the list machine does. -/
structure Along (S : Setting) (si : State) (s : Reading.State) : Prop where
  place : si.current + s.rest.length = S.stop
  furthest : si.furthest = si.current
  ahead : ∀ k < s.rest.length, S.machine.tokens[si.current + k]? = s.rest[k]?
  front : ∀ token ∈ s.rest, token.kind ≠ .endOfInput
  lastEnd : si.lastEnd = s.lastEnd
  tree : si.tree = s.tree

variable {S : Setting} {si : State} {s : Reading.State} {α β σ : Type} {h : Hold} {room : Nat}
  {start : Position}

namespace Along

/-- The tokens up to the end of input are where they should be. -/
theorem peek?_eq (hs : Along S si s) {k : Nat} (hk : k ≤ s.rest.length) :
    si.peek? S.machine k = some ((s.rest.drop k).head?.getD S.context.endToken) := by
  have htoken : S.machine.tokens[si.current + k]? =
      some ((s.rest.drop k).head?.getD S.context.endToken) := by
    rw [List.head?_drop]
    rcases Nat.lt_or_eq_of_le hk with hlt | rfl
    · rw [hs.ahead k hlt, List.getElem?_eq_getElem hlt]
      rfl
    · rw [hs.place, S.endToken, List.getElem?_eq_none (Nat.le_refl _)]
      rfl
  have hlt := (Array.getElem?_eq_some_iff.mp htoken).1
  rw [State.peek?, Nat.min_eq_left (by omega), htoken]

theorem current_eq (hs : Along S si s) : si.peek? S.machine 0 = some (s.current S.context) :=
  hs.peek?_eq (Nat.zero_le _)

theorem look (hs : Along S si s) (f : Token → Outcome α) :
    si.look S.machine f = f (s.current S.context) := by
  rw [State.look, hs.current_eq]
  rfl

theorem fail (hs : Along S si s) (fault : ParseFault) :
    (si.fail S.machine fault : Outcome α) =
      some (.error ⟨fault, (s.current S.context).span.start⟩, si) :=
  hs.look _

theorem furthest_le (hs : Along S si s) : si.furthest ≤ S.stop := by
  have := hs.place
  have := hs.furthest
  omega

/-- A token in front of the end of input is read as from the list. -/
theorem advance {token : Token} {rest : List Token} {lastEnd : Position} {tree : Tree}
    (hs : Along S si ⟨token :: rest, lastEnd, tree⟩) : ∃ si',
      si.advance S.machine = some si' ∧
        Along S si' (Reading.State.advance ⟨token :: rest, lastEnd, tree⟩) := by
  have hplace := hs.place
  have hfront := List.forall_mem_cons.mp hs.front
  have htoken := hs.ahead 0 (Nat.zero_lt_succ _)
  have hlt : si.current < S.machine.tokens.size := (Array.getElem?_eq_some_iff.mp htoken).1
  have hcurrent := hs.current_eq
  simp only [List.length_cons] at hplace
  refine ⟨_, by rw [State.advance, hcurrent]; rfl, ?_⟩
  simp only [Reading.State.current, List.head?_cons, Option.getD_some, hlt, if_true, hs.furthest,
    Reading.State.advance, hfront.1, or_false, hs.lastEnd, hs.tree]
  refine ⟨?_, ?_, fun k hk => ?_, hfront.2, rfl, rfl⟩
  · simp only
    omega
  · simp only
    omega
  · have := hs.ahead (k + 1) (Nat.succ_lt_succ hk)
    rw [List.getElem?_cons_succ] at this
    rw [← this, Nat.add_comm k 1, ← Nat.add_assoc]

/-- Line feeds are read as from the list. -/
theorem skipNewlines {n : Nat} {rest : List Token} {lastEnd : Position} {tree : Tree}
    (hs : Along S si ⟨rest, lastEnd, tree⟩) (hn : rest.length < n) : ∃ si',
      State.skipNewlines S.machine n si = some si' ∧
        Along S si' ⟨rest.dropWhile (·.kind = .newline), lastEnd, tree⟩ := by
  induction n generalizing si rest with
  | zero => exact absurd hn (Nat.not_lt_zero _)
  | succ n ih =>
    have hcurrent := hs.current_eq
    cases rest with
    | nil =>
      refine ⟨si, ?_, hs⟩
      rw [State.skipNewlines, hcurrent]
      simp [Reading.State.current, S.endKind]
    | cons token rest =>
      by_cases hkind : token.kind = .newline
      · obtain ⟨si', hadvance, hs'⟩ := hs.advance
        rw [Reading.State.advance, if_pos hkind] at hs'
        obtain ⟨si'', hskip, hs''⟩ := ih hs' (Nat.lt_of_succ_lt_succ hn)
        refine ⟨si'', ?_, ?_⟩
        · rw [State.skipNewlines, hcurrent]
          simp [Reading.State.current, hkind, hadvance, hskip]
        · simpa [hkind] using hs''
      · refine ⟨si, ?_, by simpa [hkind] using hs⟩
        rw [State.skipNewlines, hcurrent]
        simp [Reading.State.current, hkind]

end Along

/-- All that is known of two states that stand at the same place. -/
structure Stands (S : Setting) (room : Nat) (h : Hold) (si : State) (s : Reading.State) : Prop where
  along : Along S si s
  covers : h.Covers S.context room s
  inv : S.licence.inv s

/-- The two machines come to the same, and the index has not gone beyond the end of input. -/
inductive Agree (S : Setting) (ok : α → State → Reading.State → Prop) :
    Outcome α → Except ParseError (α × Reading.State) → Prop where
  | ok {a : α} {si : State} {s : Reading.State} (h : ok a si s) :
    Agree S ok (some (.ok a, si)) (.ok (a, s))
  | error {e : ParseError} {si : State} (h : si.furthest ≤ S.stop) :
    Agree S ok (some (.error e, si)) (.error e)

namespace Agree

variable {ok : α → State → Reading.State → Prop} {ok' : β → State → Reading.State → Prop}
  {x : Outcome α} {y : Except ParseError (α × Reading.State)}

theorem bind {f : α → State → Outcome β}
    {g : α × Reading.State → Except ParseError (β × Reading.State)} (h : Agree S ok x y)
    (hfg : ∀ a si s, ok a si s → Agree S ok' (f a si) (g (a, s))) :
    Agree S ok' (x.andThen f) (y.bind g) := by
  cases h with
  | ok h => exact hfg _ _ _ h
  | error h => exact .error h

theorem imp {ok' : α → State → Reading.State → Prop} (h : Agree S ok x y)
    (hok : ∀ a si s, ok a si s → ok' a si s) : Agree S ok' x y := by
  cases h with
  | ok h => exact .ok (hok _ _ _ h)
  | error h => exact .error h

theorem fail (hs : Along S si s) (fault : ParseFault) :
    Agree S ok (si.fail S.machine fault) (s.fail S.context fault) := by
  rw [hs.fail]
  exact .error hs.furthest_le

end Agree

/-- A step on both machines. -/
theorem agree_act (action : Step) (hs : Along S si s) (hasks : action.Asks h)
    (hcovers : h.Covers S.context room s) :
    Agree S (fun x si' s' => Along S si' s' ∧
        Reading.perform S.context start action s = .ok (x, s'))
      (act S.machine start (s.current S.context) si action)
      (Reading.perform S.context start action s) := by
  have hsize : S.stop < S.machine.tokens.size := (Array.getElem?_eq_some_iff.mp S.endToken).1
  have hplace := hs.place
  have hbuild (tree : Tree) : Along S { si with tree } ⟨s.rest, s.lastEnd, tree⟩ :=
    ⟨hs.place, hs.furthest, hs.ahead, hs.front, hs.lastEnd, rfl⟩
  obtain ⟨rest, lastEnd, tree⟩ := s
  obtain ⟨current, furthest, lastEnd', tree'⟩ := si
  obtain rfl : tree' = tree := hs.tree
  obtain rfl : lastEnd' = lastEnd := hs.lastEnd
  -- Where a token is read or looked behind, the step has asked for one to be there.
  cases action with
  | look => exact .ok ⟨hs, rfl⟩
  | lookBehind =>
    obtain ⟨token, rest', hrest⟩ := hcovers.exists_cons S.endKind hasks
    obtain rfl : rest = token :: rest' := hrest
    simp only [act]
    rw [hs.peek?_eq (Nat.succ_le_of_lt (Nat.zero_lt_succ _))]
    exact .ok ⟨hs, rfl⟩
  | advance =>
    obtain ⟨token, rest', hrest⟩ := hcovers.exists_cons S.endKind hasks
    obtain rfl : rest = token :: rest' := hrest
    obtain ⟨si', hadvance, hs'⟩ := hs.advance
    simp only [act]
    rw [hadvance]
    exact .ok ⟨hs', rfl⟩
  | skipNewlines =>
    obtain ⟨si', hskip, hs'⟩ := hs.skipNewlines (n := S.machine.tokens.size) (by
      simp only at hplace
      omega)
    simp only [act]
    rw [hskip]
    exact .ok ⟨hs', rfl⟩
  | openNode kind =>
    simp only [act, Reading.perform, S.maxNodes]
    split
    · exact .fail hs _
    · next hlt => exact .ok ⟨hbuild _, rfl⟩
  | closeNode id => exact .ok ⟨hbuild _, rfl⟩
  | setKind id kind => exact .ok ⟨hbuild _, rfl⟩
  | attach parent child => exact .ok ⟨hbuild _, rfl⟩
  | intern text => exact .ok ⟨hbuild _, rfl⟩
  | reject expected => exact .fail hs _
  | refuseLiteral fault => exact .fail hs _

theorem agree_perform (action : Step) (hasks : action.Asks h) (hroom : room ≤ S.licence.room)
    (hs : Stands S room h si s) :
    Agree S (fun x si' s' => action.Admits h x ∧ Stands S room (action.after h x) si' s')
      (perform S.machine start action si) (Reading.perform S.context start action s) := by
  have hpermits := S.licence.grants hs.inv (hs.covers.mono hroom) hasks
  rw [perform, hs.along.look, hs.along.tree, S.permits, if_pos hpermits]
  refine (agree_act action hs.along hasks hs.covers).imp fun x si' s' ⟨halong, hperform⟩ => ?_
  obtain ⟨hadmits, hcovers⟩ := Reading.covers_perform S.endKind action hasks hs.covers hperform
  exact ⟨hadmits, halong, hcovers, S.licence.keeps hs.inv (hs.covers.mono hroom) hasks hperform⟩

/-- What is known of an outcome of the list machine is known of what both come to. -/
theorem Agree.and {ok : α → State → Reading.State → Prop} {P : α → Reading.State → Prop}
    {x : Outcome α} {y : Except ParseError (α × Reading.State)} (h : Agree S ok x y)
    (hP : ∀ a s, y = .ok (a, s) → P a s) : Agree S (fun a si s => ok a si s ∧ P a s) x y := by
  cases h with
  | ok h => exact .ok ⟨h, hP _ _ rfl⟩
  | error h => exact .error h

/-- Another program may be carried out with what it is handed, and no entries of ours. -/
theorem Stands.lend (hs : Stands S room h si s) {nodes : List NodeId} {texts : List String}
    (hnodes : ∀ id ∈ nodes, id.index < s.tree.size) (htexts : texts ⊆ h.texts) :
    Stands S (room - h.entries) ⟨nodes, texts, none, 0⟩ si s := by
  have hentries := hs.covers.entries
  refine ⟨hs.along, ⟨hs.covers.root, hnodes, fun t ht => hs.covers.texts t (htexts ht), nofun, ?_⟩,
    hs.inv⟩
  show s.tree.symbols.size + 2 * s.rest.length + 0 ≤ room - h.entries
  omega

/-- When it is over, we have what it gives back besides what we had. -/
theorem Stands.regain (hs : Stands S room h si s) {h' : Hold} {si' : State} {s' : Reading.State}
    (hs' : Stands S (room - h.entries) h' si' s') (hgrows : s.Grows s') {nodes : List NodeId}
    (hnodes : nodes ⊆ h'.nodes) : Stands S room (h.among nodes h.entries) si' s' := by
  have hentries := hs.covers.entries
  have hentries' := hs'.covers.entries
  refine ⟨hs'.along, hs.covers.of_grows hgrows nodes h.entries
    (fun id hid => hs'.covers.nodes id (hnodes hid)) nofun ?_, hs'.inv⟩
  omega

/-- Rules, when they are called, do the same on both machines. -/
def Callable (S : Setting) (enter : Rule → Position → State → Outcome NodeId)
    (enter' : Rule → Position → Reading.State → Except ParseError (NodeId × Reading.State)) : Prop :=
  ∀ rule p si s room, room ≤ S.licence.room →
    Stands S room ⟨Tree.root :: rule.nodes, [], none, 0⟩ si s →
    Agree S (fun id si' s' => ∃ h, Stands S room h si' s' ∧ id ∈ h.nodes) (enter rule p si)
      (enter' rule p s)

/-- Rounds that leave enough for each other may be repeated. -/
theorem agree_iterate {round : σ → State → Outcome (Round σ β)}
    {round' : σ → Reading.State → Except ParseError (Round σ β × Reading.State)}
    {carried : σ → List NodeId} {answered : β → List NodeId}
    (hgrows : ∀ x s y s', round' x s = .ok (y, s') → s.Grows s')
    (hround : ∀ x si s, Stands S room (h.among (carried x) 0) si s →
      Agree S
        (fun r si' s' => ∃ h', Stands S room h' si' s' ∧ Reading.Round.Leaves carried answered r h')
        (round x si) (round' x s))
    (n : Nat) (x : σ) (hs : Stands S room (h.among (carried x) 0) si s) :
    Agree S (fun a si' s' => ∃ h', Stands S room h' si' s' ∧ answered a ⊆ h'.nodes)
      (iterate S.machine round n x si) (Reading.iterate S.context round' n x s) := by
  induction n generalizing x si s with
  | zero =>
    rw [iterate, Reading.iterate, hs.along.look]
    exact .fail hs.along _
  | succ n ih =>
    rw [iterate, Reading.iterate_succ]
    refine ((hround x si s hs).and (hgrows x s)).bind fun r si' s' hr => ?_
    obtain ⟨⟨h', hs', hleaves⟩, hgrows⟩ := hr
    cases r with
    | stop a => exact .ok ⟨h', hs', hleaves⟩
    | again y =>
      have hentries := hs'.covers.entries
      have hentries' : s'.tree.symbols.size + 2 * s'.rest.length + 0 ≤ room := by omega
      -- What was there before the round is still there.
      have hcovers : Hold.Covers ⟨carried y ++ (carried x ++ h.nodes), h.texts, none, 0⟩ S.context
          room s' :=
        hs.covers.of_grows hgrows (carried y) 0 (fun id hid => hs'.covers.nodes id (hleaves hid))
          (fun _ hknown => by cases hknown) hentries'
      refine ih y ⟨hs'.along, ⟨hcovers.root, fun id hid => hcovers.nodes id ?_, hcovers.texts,
        hcovers.next, hentries'⟩, hs'.inv⟩
      rcases List.mem_append.mp hid with hid | hid
      · exact List.mem_append_left _ hid
      · exact List.mem_append_right _ (List.mem_append_right _ hid)

theorem agree_run {enter : Rule → Position → State → Outcome NodeId}
    {enter' : Rule → Position → Reading.State → Except ParseError (NodeId × Reading.State)}
    (henter : Callable S enter enter')
    (hgrows : ∀ {rule p s id s'}, enter' rule p s = .ok (id, s') → s.Grows s')
    {post : α → Hold → Prop} (m : Reading α) (hm : m.Safe post h) (hroom : room ≤ S.licence.room)
    (hs : Stands S room h si s) :
    Agree S (fun a si' s' => ∃ h', Stands S room h' si' s' ∧ post a h')
      (run S.machine enter m start si) (Reading.run S.context enter' m start s) := by
  induction m generalizing start si s h room with
  | done a => exact .ok ⟨h, hs, hm⟩
  | step action next ih =>
    rw [run, Reading.run_step]
    refine (agree_perform action hm.1 hroom hs).bind fun x si' s' ⟨hadmits, hs'⟩ => ?_
    exact ih x (hm.2 x hadmits) hroom hs'
  | call rule next ih =>
    obtain ⟨hnodes, hnext⟩ := hm
    rw [run, Reading.run_call]
    have hcall := henter rule start si s (room - h.entries) (by omega)
      (hs.lend (fun id hid => ?_) (List.nil_subset _))
    · refine (hcall.and fun id s' hx => hgrows hx).bind fun id si' s' ⟨⟨h', hs', hid⟩, hgrows⟩ => ?_
      exact ih id (hnext id) hroom (hs.regain hs' hgrows (by simpa using hid))
    · rcases List.mem_cons.mp hid with rfl | hid
      · exact hs.covers.root
      · exact hs.covers.nodes id (hnodes hid)
  | frame body next ihbody ih =>
    rw [run, Reading.run_frame, hs.along.look]
    exact (ihbody hm hroom hs).bind fun x si' s' ⟨h', hs', hx⟩ => ih x hx hroom hs'
  | «repeat» round state next ihround ih =>
    obtain ⟨carried, answered, hstate, hround, hnext⟩ := hm
    rw [run, Reading.run_repeat, S.rounds]
    -- The rounds get no texts of ours, so that all of them are still there behind the last one.
    have hlent : Stands S (room - h.entries) (h.among (carried state) 0) si s := by
      refine hs.lend (fun id hid => hs.covers.nodes id ?_) (List.Subset.refl _)
      rcases List.mem_append.mp hid with hid | hid
      · exact hstate hid
      · exact hid
    have hloop : Agree S
        (fun a si' s' => ∃ h', Stands S (room - h.entries) h' si' s' ∧ answered a ⊆ h'.nodes)
        (iterate S.machine (fun x s => run S.machine enter (round x) start s)
          (S.context.tokenCount + 1) state si)
        (Reading.iterate S.context (fun x s => Reading.run S.context enter' (round x) start s)
          (S.context.tokenCount + 1) state s) :=
      agree_iterate (fun x _ _ _ hr => Reading.grows_run hgrows (round x) hr)
        (fun x si s hs => ihround x (hround x) (by omega) hs) _ state hlent
    have hgrowing : ∀ a s', Reading.iterate S.context
        (fun x s => Reading.run S.context enter' (round x) start s) (S.context.tokenCount + 1) state s =
          .ok (a, s') → s.Grows s' := fun a s' =>
      Reading.grows_iterate fun x _ _ _ hr => Reading.grows_run hgrows (round x) hr
    refine (hloop.and hgrowing).bind fun a si' s' ⟨⟨h', hs', ha⟩, hgrows⟩ => ?_
    exact ih a (hnext a) hroom (hs.regain hs' hgrows ha)

/-- Every rule does the same on both machines, whatever the number of levels left. -/
theorem agree_enter (levels : Nat) :
    Callable S (enter S.machine levels) (Rule.enter S.context levels) := by
  induction levels with
  | zero =>
    intro rule p si s room _ hs
    rw [enter, Rule.enter, S.maxDepth]
    exact .fail hs.along _
  | succ levels ih =>
    intro rule p si s room hroom hs
    rw [enter, hs.along.look]
    have hcovers : Hold.Covers ⟨Tree.root :: rule.nodes, [], some (s.current S.context).kind, 0⟩
        S.context room s :=
      ⟨hs.covers.root, hs.covers.nodes, hs.covers.texts, fun _ hkind => Option.some.inj hkind,
        hs.covers.entries⟩
    exact agree_run ih Reading.grows_enter rule.reading (Reading.isSafe_reading rule _) hroom
      ⟨hs.along, hcovers, hs.inv⟩

end Indexed

end GoloSyntax
