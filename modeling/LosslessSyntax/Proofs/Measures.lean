import LosslessSyntax.Proofs.Summing
import LosslessSyntax.Proofs.Walking
import LosslessSyntax.Tree.Measure

/-!
# Measures of outlines

Positions, widths and texts of a node are computed by five traversals of what is below it, each stopping at a depth of
its own. For a node with an outline in which nothing fails and no node is a token as well (`Outline.Clean`), all of
them are functions of the outline: of its elements (`Outlines.foldElements`), of its first token (`Outlines.edge`,
`Outlines.firstToken`), of the sum of the lengths of its tokens, if this can be had exactly (`Unfolds.sumItems_exact`,
`Unfolds.widthAt_exact`), and, if its tokens tile a stretch of the source, of the ends of that stretch
(`Outlines.fullWidthAt`, `Unfolds.width`, `Outlines.fullText`).

`Stretch.agrees`: if the tokens below a node tile a stretch of its source and a first token is reached by first
children, then its texts are cut from the source at its positions and its widths are the lengths of its texts.
-/

namespace LosslessSyntax

namespace Outline

/-- Nothing fails to be read, and no node is a token as well. -/
def Clean : Outline → Prop
  | .empty => True
  | .failure .. => False
  | .token _ _ rest => rest.Clean
  | .node _ t below rest => t = none ∧ below.Clean ∧ rest.Clean

/-- Nothing fails to be read. -/
def Legible : Outline → Prop
  | .empty => True
  | .failure .. => False
  | .token _ _ rest => rest.Legible
  | .node _ _ below rest => below.Legible ∧ rest.Legible

theorem Clean.legible {o : Outline} (h : o.Clean) : o.Legible := by
  induction o with
  | empty => trivial
  | failure f rest ih => exact h.elim
  | token id t rest ih => exact ih h
  | node id t below rest ihb ih => exact ⟨ihb h.2.1, ih h.2.2⟩

/-- What can be read, each node before what is below it. -/
def elements : Outline → List Element
  | .empty => []
  | .failure _ rest => rest.elements
  | .token id t rest => .token id t :: rest.elements
  | .node id t below rest => .node id t :: (below.elements ++ rest.elements)

/-- The tokens in document order. -/
def tokens : Outline → List (ObjectId × Token)
  | .empty => []
  | .failure _ rest => rest.tokens
  | .token id t rest => (id, t) :: rest.tokens
  | .node _ _ below rest => below.tokens ++ rest.tokens

/-- The token that first children lead to. -/
def first? : Outline → Option (ObjectId × Token)
  | .empty => none
  | .failure .. => none
  | .token id t _ => some (id, t)
  | .node _ _ below _ => below.first?

/-- The trivia of the token that first children lead to. -/
def lead (o : Outline) : Int := o.first?.elim 0 (·.2.trivia)

theorem filterMap_elements {o : Outline} (h : o.Clean) : o.elements.filterMap Element.token? = o.tokens := by
  induction o with
  | empty => rfl
  | failure f rest ih => exact h.elim
  | token id t rest ih =>
    simp only [elements, tokens, List.filterMap_cons, Element.token?, ih h]
  | node id t below rest ihb ih =>
    obtain ⟨rfl, hbelow, hrest⟩ := h
    simp only [elements, tokens, List.filterMap_cons, Element.token?, Option.map_none, List.filterMap_append, ihb hbelow,
      ih hrest]

/-- Where nothing fails and no node is a token, a walk over the tokens hands out nothing but the tokens. -/
theorem events_tokens {o : Outline} (h : o.Clean) :
    o.events .tokens none = o.tokens.map fun t => .yielded (.token t.1 t.2) := by
  induction o with
  | empty => rfl
  | failure f rest ih => exact h.elim
  | token id t rest ih =>
    rw [events, tokens, ih h]
    rfl
  | node id t below rest ihb ih =>
    obtain ⟨rfl, hbelow, hrest⟩ := h
    rw [events, tokens, List.map_append, ← ihb hbelow, ← ih hrest]
    rfl

/-- Where nothing fails, a walk hands out all elements that it takes. -/
theorem events_of_legible (accept : Accept) {o : Outline} (h : o.Legible) :
    o.events accept none = (o.elements.filter accept.takes).map .yielded := by
  have hhanding : ∀ e : Element, Event.handing accept e = ([e].filter accept.takes).map .yielded := by
    intro e
    rw [Event.handing, List.filter_singleton]
    cases accept.takes e <;> rfl
  induction o with
  | empty => rfl
  | failure f rest ih => exact h.elim
  | token id t rest ih =>
    rw [events, elements, hhanding, ih h, ← List.map_append, ← List.filter_append, List.singleton_append]
  | node id t below rest ihb ih =>
    rw [events, elements, hhanding, ih h.2, Event.entering, ihb h.1, ← List.map_append, ← List.map_append,
      ← List.filter_append, ← List.filter_append, List.append_assoc, List.singleton_append]

/-- Where nothing fails, a walk over everything hands out every element. -/
theorem events_all {o : Outline} (h : o.Clean) : o.events .all none = o.elements.map .yielded := by
  have hall : o.elements.filter Accept.all.takes = o.elements := List.filter_eq_self.mpr fun _ _ => rfl
  rw [events_of_legible .all h.legible, hall]

/-- Where a walk does nothing but hand out elements, nothing fails. -/
theorem legible_of_events {accept : Accept} {o : Outline} {es : List Element}
    (h : o.events accept none = es.map .yielded) : o.Legible := by
  induction o generalizing es with
  | empty => trivial
  | failure f rest ih => cases es <;> cases h
  | token id t rest ih =>
    obtain ⟨_, es₂, _, _, h₂⟩ := List.map_eq_append_iff.mp h.symm
    exact ih h₂.symm
  | node id t below rest ihb ih =>
    obtain ⟨es₁, es₂, _, h₁, h₂⟩ := List.map_eq_append_iff.mp h.symm
    obtain ⟨_, es₃, _, _, h₃⟩ := List.map_eq_append_iff.mp h₁
    exact ⟨ihb h₃.symm, ih h₂.symm⟩

/-- No node is a token as well. -/
def Plain : Outline → Prop
  | .empty => True
  | .failure _ rest => rest.Plain
  | .token _ _ rest => rest.Plain
  | .node _ t below rest => t = none ∧ below.Plain ∧ rest.Plain

theorem Legible.clean {o : Outline} (h : o.Legible) (hplain : o.Plain) : o.Clean := by
  induction o with
  | empty => trivial
  | failure f rest ih => exact h.elim
  | token id t rest ih => exact ih h hplain
  | node id t below rest ihb ih => exact ⟨hplain.1, ihb h.1 hplain.2.1, ih h.2 hplain.2.2⟩

theorem head?_tokens {o : Outline} {e : ObjectId × Token} (h : o.first? = some e) : o.tokens.head? = some e := by
  induction o with
  | empty => cases h
  | failure f rest ih => cases h
  | token id t rest ih => exact h
  | node id t below rest ihb ih =>
    rw [tokens, List.head?_append, ihb h]
    rfl

/-- What remains of exact sums when the trivia of the first token are left out. -/
theorem lead_le {below rest : Outline}
    (hexact : Token.Exact ((below.tokens ++ rest.tokens).map Prod.snd)) :
    (Token.total (below.tokens.map Prod.snd) - below.lead).natAbs + Token.bulk (rest.tokens.map Prod.snd) ≤
      Number.exactBound := by
  rw [List.map_append] at hexact
  cases hfirst : below.first? with
  | none =>
    have hbulk := hexact.bulk
    have htotal := Token.natAbs_total_le (below.tokens.map Prod.snd)
    rw [Token.bulk_append] at hbulk
    rw [lead, hfirst, Option.elim_none]
    omega
  | some e =>
    obtain ⟨more, htokens⟩ := List.head?_eq_some_iff.mp (head?_tokens hfirst)
    rw [htokens, List.map_cons, List.cons_append] at hexact
    obtain ⟨_, hhead⟩ := hexact.head e.2 rfl
    have htotal := Token.natAbs_total_le (more.map Prod.snd)
    rw [List.tail_cons, Token.bulk_append] at hhead
    rw [lead, hfirst, Option.elim_some, htokens, List.map_cons, Token.total_cons]
    omega

end Outline

namespace Store

variable {s : Store} {owner id : ObjectId} {items : List Item} {o : Outline}

/-! ## Traversals -/

/-- A walk over the tokens below a node lists those of its outline. -/
theorem Outlines.lists_tokens (h : s.Outlines id o) (hclean : o.Clean) :
    Walk.Lists s .tokens (.object id) (o.tokens.map fun e => .token e.1 e.2) := by
  rw [Walk.lists_iff h, Outline.events_tokens hclean, List.map_map]
  rfl

theorem Unfolds.foldlM {β : Type} {step : β → Element → Attempt β} (h : s.Unfolds owner items o) (hclean : o.Clean)
    {depth : Nat} (hdepth : o.depth ≤ depth) (state : β) :
    items.foldlM (fun state item => do
      let e ← s.read (.object owner) item
      let state ← step state e
      match e with
      | .node child _ => s.foldBelow step depth (.object child) state
      | .token .. => return state) state = o.elements.foldlM step state := by
  induction h generalizing depth state with
  | empty => rfl
  | failure read tail ih => exact hclean.elim
  | token read tail ih =>
    rw [List.foldlM_cons, read, Outline.elements, List.foldlM_cons]
    show (step state _ >>= _) >>= _ = _
    cases hstep : step state (.token _ _) with
    | error f => rfl
    | ok state' => exact ih hclean hdepth state'
  | @node owner id slot value t items inner below rest read opened inside tail ihb ih =>
    obtain ⟨rfl, hbelow, hrest⟩ := hclean
    simp only [Outline.depth] at hdepth
    obtain ⟨d, rfl⟩ : ∃ d, depth = d + 1 := ⟨depth - 1, by omega⟩
    rw [List.foldlM_cons, read, Outline.elements, List.foldlM_cons]
    show (step state (.node id none) >>= fun state => s.foldBelow step (d + 1) (.object id) state) >>= _ = _
    cases hstep : step state (.node id none) with
    | error f => rfl
    | ok state' =>
      have hinside : s.foldBelow step (d + 1) (.object id) state' = below.elements.foldlM step state' := by
        rw [foldBelow, opened]
        exact ihb hbelow (by omega) state'
      show s.foldBelow step (d + 1) (.object id) state' >>= _ = (below.elements ++ rest.elements).foldlM step state'
      rw [hinside, List.foldlM_append]
      exact bind_congr fun state => ih hrest (by omega) state

/-- Going through the elements below a node is going through those of its outline. -/
theorem Outlines.foldElements {β : Type} {step : β → Element → Attempt β} (h : s.Outlines id o) (hclean : o.Clean)
    (state : β) : s.foldElements step (.object id) state = o.elements.foldlM step state := by
  obtain ⟨items, hopen, hu⟩ := h
  rw [Store.foldElements, foldBelow, hopen]
  exact hu.foldlM hclean hu.depth_le state

/-- Following first children ends at the first token of the outline, if there is one. -/
theorem Unfolds.edge (offset : Token → Number) (h : s.Unfolds owner items o)
    (hopen : s.items (.object owner) = .ok items) (hlegible : o.Legible) {depth : Nat} (hdepth : o.depth ≤ depth)
    {a : Number} : s.edgeAt offset (depth + 1) (.object owner) = .ok a ↔ ∃ e, o.first? = some e ∧ offset e.2 = a := by
  induction h generalizing depth with
  | empty =>
    rw [edgeAt, hopen]
    exact iff_of_false (malformed_ne_ok _ _ _) fun ⟨_, he, _⟩ => nomatch he
  | failure read tail ih => exact hlegible.elim
  | @token owner id slot value t items rest read tail ih =>
    rw [edgeAt, hopen, Attempt.ok_bind]
    simp only [read, Attempt.ok_bind, Outline.first?]
    simp [pure, Except.pure]
  | @node owner id slot value t items inner below rest read opened inside tail ihb ih =>
    simp only [Outline.depth] at hdepth
    obtain ⟨d, rfl⟩ : ∃ d, depth = d + 1 := ⟨depth - 1, by omega⟩
    rw [edgeAt, hopen, Attempt.ok_bind]
    simp only [read, Attempt.ok_bind]
    exact ihb opened hlegible.1 (by omega)

theorem Outlines.edge (offset : Token → Number) (h : s.Outlines id o) (hlegible : o.Legible) {a : Number} :
    s.edgeAt offset (s.size + 1) (.object id) = .ok a ↔ ∃ e, o.first? = some e ∧ offset e.2 = a := by
  obtain ⟨items, hopen, hu⟩ := h
  exact hu.edge offset hopen hlegible hu.depth_le

/-- A node is the first child of another one. -/
def FirstChild (s : Store) (parent child : ObjectId) : Prop :=
  ∃ slot value items t, s.items (.object parent) = .ok (.value slot value :: items) ∧
    s.elementOf? value = some (.node child t)

theorem FirstChild.childNode {child : ObjectId} (h : s.FirstChild owner child) : s.ChildNode owner child := by
  obtain ⟨slot, value, items, t, hopen, he⟩ := h
  exact ⟨_, slot, value, t, hopen, List.mem_cons_self, he⟩

/-- First children lead from a node to another one. -/
def FirstReaches (s : Store) : ObjectId → ObjectId → Prop := Relation.ReflTransGen s.FirstChild

theorem FirstReaches.reaches {m : ObjectId} (h : s.FirstReaches owner m) : s.Reaches owner m :=
  Relation.ReflTransGen.mono (fun _ _ => FirstChild.childNode) _ _ h

/-- Where first children do not lead to a token, they lead to a node without children. -/
theorem Unfolds.edge_of_first?_eq_none (offset : Token → Number) (h : s.Unfolds owner items o)
    (hopen : s.items (.object owner) = .ok items) (hlegible : o.Legible) {depth : Nat} (hdepth : o.depth ≤ depth)
    (hnone : o.first? = none) : ∃ m, s.FirstReaches owner m ∧ s.items (.object m) = .ok [] ∧
      s.edgeAt offset (depth + 1) (.object owner) = s.malformed .noChildren (.object m) := by
  induction h generalizing depth with
  | @empty owner =>
    refine ⟨owner, .refl, hopen, ?_⟩
    rw [edgeAt, hopen]
    rfl
  | failure read tail ih => exact hlegible.elim
  | token read tail ih => cases hnone
  | @node owner id slot value t items inner below rest read opened inside tail ihb ih =>
    simp only [Outline.depth] at hdepth
    obtain ⟨d, rfl⟩ : ∃ d, depth = d + 1 := ⟨depth - 1, by omega⟩
    obtain ⟨m, hreach, hempty, hedge⟩ := ihb opened hlegible.1 (by omega : below.depth ≤ d) hnone
    have hchild : s.FirstChild owner id := ⟨slot, value, items, t, hopen, read_value_eq_ok.mp read⟩
    refine ⟨m, .head hchild hreach, hempty, ?_⟩
    rw [edgeAt, hopen, Attempt.ok_bind]
    simp only [read, Attempt.ok_bind]
    exact hedge

/-- A search through the items of a node is one through the tokens among the elements of its outline. -/
theorem Unfolds.findSomeM? {α : Type} {answer : ObjectId → Token → Attempt (Option α)} (h : s.Unfolds owner items o)
    (hlegible : o.Legible) {depth : Nat} (hdepth : o.depth ≤ depth) :
    items.findSomeM? (fun item => do
      match ← s.read (.object owner) item with
      | .node child none => s.searchBelow answer depth (.object child)
      | .node child (some t) =>
        match ← answer child t with
        | some a => return some a
        | none => s.searchBelow answer depth (.object child)
      | .token id t => answer id t) = (o.elements.filterMap Element.token?).findSomeM? fun e => answer e.1 e.2 := by
  induction h generalizing depth with
  | empty => rfl
  | failure read tail ih => exact hlegible.elim
  | token read tail ih =>
    rw [List.findSomeM?_cons, read, Outline.elements, List.filterMap_cons, Element.token?, List.findSomeM?_cons,
      ih hlegible hdepth]
    rfl
  | @node owner id slot value t items inner below rest read opened inside tail ihb ih =>
    obtain ⟨hbelow, hrest⟩ := hlegible
    simp only [Outline.depth] at hdepth
    obtain ⟨d, rfl⟩ : ∃ d, depth = d + 1 := ⟨depth - 1, by omega⟩
    have hinside : s.searchBelow answer (d + 1) (.object id) =
        (below.elements.filterMap Element.token?).findSomeM? fun e => answer e.1 e.2 := by
      rw [searchBelow, opened]
      exact ihb hbelow (by omega)
    rw [List.findSomeM?_cons, read, ih hrest (by omega), Outline.elements, List.filterMap_cons, List.filterMap_append]
    cases t with
    | none =>
      show (s.searchBelow answer (d + 1) (.object id) >>= _) = _
      rw [hinside, Element.token?, Option.map_none, Attempt.findSomeM?_append]
      rfl
    | some t =>
      rw [Element.token?, Option.map_some, List.findSomeM?_cons, Attempt.findSomeM?_append, ← hinside]
      show (answer id t >>= _) >>= _ = answer id t >>= _
      rw [bind_assoc]
      refine bind_congr fun found => ?_
      cases found with
      | none => rfl
      | some a => rfl

theorem Outlines.findToken_of_legible {α : Type} {answer : ObjectId → Token → Attempt (Option α)} (h : s.Outlines id o)
    (hlegible : o.Legible) : s.findToken answer (.object id) =
      (o.elements.filterMap Element.token?).findSomeM? fun e => answer e.1 e.2 := by
  obtain ⟨items, hopen, hu⟩ := h
  rw [Store.findToken, searchBelow, hopen]
  exact hu.findSomeM? hlegible hu.depth_le

theorem Outlines.findToken {α : Type} {answer : ObjectId → Token → Attempt (Option α)} (h : s.Outlines id o)
    (hclean : o.Clean) : s.findToken answer (.object id) = o.tokens.findSomeM? fun e => answer e.1 e.2 := by
  rw [h.findToken_of_legible hclean.legible, Outline.filterMap_elements hclean]

theorem Outlines.firstToken (h : s.Outlines id o) (hclean : o.Clean) :
    s.firstToken (.object id) = .ok o.tokens.head? := by
  rw [Store.firstToken, h.findToken hclean]
  cases o.tokens <;> rfl

/-! ## Widths -/

/-- What items add up to is the total of the tokens of their outline. -/
theorem Unfolds.sumItems_exact (h : s.Unfolds owner items o) (hlegible : o.Legible) {depth : Nat} (hdepth : o.depth ≤ depth)
    (hwhole : ∀ t ∈ o.tokens.map Prod.snd, t.length.IsWhole) (sum : Int)
    (hsum : sum.natAbs + Token.bulk (o.tokens.map Prod.snd) ≤ Number.exactBound) :
    s.sumItems (.object owner) (s.fullWidthAt depth) (.ofInt sum) items =
      .ok (.ofInt (sum + Token.total (o.tokens.map Prod.snd))) := by
  induction h generalizing depth sum with
  | empty =>
    rw [Outline.tokens, List.map_nil, Token.total_nil, Int.add_zero]
    rfl
  | failure read tail ih => exact hlegible.elim
  | @token owner id slot value t items rest read tail ih =>
    have htokens : (Outline.token id t rest).tokens.map Prod.snd = t :: rest.tokens.map Prod.snd := rfl
    rw [htokens] at hwhole hsum ⊢
    obtain ⟨hlength, hwhole⟩ := List.forall_mem_cons.mp hwhole
    rw [Token.bulk_cons] at hsum
    have hadd : Number.ofInt sum + t.fullWidth = .ofInt (sum + t.length.toInt) := by
      rw [Token.fullWidth, hlength.eq, Number.add_ofInt (by omega) hlength.le, ← hlength.eq]
    rw [Store.sumItems, List.foldlM_cons, read, Token.total_cons, ← Int.add_assoc]
    show s.sumItems (.object owner) (s.fullWidthAt depth) (.ofInt sum + t.fullWidth) items = _
    rw [hadd, ih hlegible hdepth hwhole _ (by omega)]
  | @node owner id slot value t items inner below rest read opened inside tail ihb ih =>
    obtain ⟨hbelow, hrest⟩ := hlegible
    simp only [Outline.depth] at hdepth
    obtain ⟨d, rfl⟩ : ∃ d, depth = d + 1 := ⟨depth - 1, by omega⟩
    rw [Outline.tokens, List.map_append] at hwhole hsum ⊢
    obtain ⟨hwholeBelow, hwholeRest⟩ := List.forall_mem_append.mp hwhole
    rw [Token.bulk_append] at hsum
    have htotal := Token.natAbs_total_le (below.tokens.map Prod.snd)
    have hwidth : s.fullWidthAt (d + 1) (.object id) = .ok (.ofInt (Token.total (below.tokens.map Prod.snd))) := by
      have hrun := ihb hbelow (by omega : below.depth ≤ d) hwholeBelow 0 (by omega)
      rw [Int.zero_add] at hrun
      rw [fullWidthAt, opened]
      exact hrun
    rw [Store.sumItems, List.foldlM_cons, read, Token.total_append, ← Int.add_assoc]
    show (s.fullWidthAt (d + 1) (.object id) >>= fun size => pure (.ofInt sum + size)) >>= _ = _
    rw [hwidth]
    show s.sumItems (.object owner) (s.fullWidthAt (d + 1)) (.ofInt sum + .ofInt _) items = _
    rw [Number.add_ofInt (by omega) (by omega), ih hrest (by omega : rest.depth ≤ d + 1) hwholeRest _ (by omega)]

theorem Outlines.fullWidthAt_exact (h : s.Outlines id o) (hlegible : o.Legible) {depth : Nat} (hdepth : o.depth ≤ depth)
    (hexact : Token.Exact (o.tokens.map Prod.snd)) :
    s.fullWidthAt (depth + 1) (.object id) = .ok (.ofInt (Token.total (o.tokens.map Prod.snd))) := by
  obtain ⟨items, hopen, hu⟩ := h
  have hbulk := hexact.bulk
  have hrun := hu.sumItems_exact hlegible hdepth (fun t ht => (hexact.whole t ht).2.2) 0 (by omega)
  rw [Int.zero_add] at hrun
  rw [Store.fullWidthAt, hopen]
  exact hrun

/-- The width of a node is the total of its tokens without the trivia of the token that first children lead to. -/
theorem Unfolds.widthAt_exact (h : s.Unfolds owner items o) (hopen : s.items (.object owner) = .ok items)
    (hlegible : o.Legible) {depth : Nat} (hdepth : o.depth ≤ depth) (hexact : Token.Exact (o.tokens.map Prod.snd)) :
    s.widthAt (depth + 1) (.object owner) = .ok (.ofInt (Token.total (o.tokens.map Prod.snd) - o.lead)) := by
  induction h generalizing depth with
  | empty =>
    rw [widthAt, hopen]
    rfl
  | failure read tail ih => exact hlegible.elim
  | @token owner id slot value t items rest read tail ih =>
    have htokens : (Outline.token id t rest).tokens.map Prod.snd = t :: rest.tokens.map Prod.snd := rfl
    rw [htokens] at hexact ⊢
    obtain ⟨_, hhead⟩ := hexact.head t rfl
    rw [List.tail_cons] at hhead
    rw [widthAt, hopen, Attempt.ok_bind]
    simp only [read, Attempt.ok_bind]
    show s.sumItems (.object owner) (s.fullWidthAt depth) (0 + t.width) items = _
    rw [hexact.width, Number.zero_add_ofInt (by omega), tail.sumItems_exact hlegible hdepth
      (fun u hu => (hexact.whole u (List.mem_cons_of_mem _ hu)).2.2) _ hhead, Token.total_cons]
    congr 2
    show _ = _ - t.trivia
    omega
  | @node owner id slot value t items inner below rest read opened inside tail ihb ih =>
    obtain ⟨hbelow, hrest⟩ := hlegible
    simp only [Outline.depth] at hdepth
    obtain ⟨d, rfl⟩ : ∃ d, depth = d + 1 := ⟨depth - 1, by omega⟩
    have hlead := Outline.lead_le hexact
    rw [Outline.tokens, List.map_append] at hexact ⊢
    rw [widthAt, hopen, Attempt.ok_bind]
    simp only [read, Attempt.ok_bind, ihb opened hbelow (by omega : below.depth ≤ d) hexact.of_append]
    rw [Number.zero_add_ofInt (by omega), tail.sumItems_exact hrest (by omega)
      (fun u hu => (hexact.whole u (List.mem_append_right _ hu)).2.2) _ hlead, Token.total_append]
    congr 2
    show _ = _ - below.lead
    omega

theorem Outlines.fullWidthAt (h : s.Outlines id o) (hclean : o.Clean) {depth : Nat} (hdepth : o.depth ≤ depth)
    {first last : Nat} (htiles : Token.Tiles first (o.tokens.map Prod.snd) last)
    (hlast : last ≤ Number.exactBound) : s.fullWidthAt (depth + 1) (.object id) = .ok (.ofNat (last - first)) := by
  rw [h.fullWidthAt_exact hclean.legible hdepth (htiles.exact hlast), (htiles.total_eq hlast).1]
  rfl

theorem Outlines.fullWidth (h : s.Outlines id o) (hclean : o.Clean) (hn : s.isNode id = true) {first last : Nat}
    (htiles : Token.Tiles first (o.tokens.map Prod.snd) last) (hlast : last ≤ Number.exactBound) :
    s.fullWidth (.object id) = .ok (.ofNat (last - first)) := by
  rw [Store.fullWidth, namesNode, hn, if_pos rfl, h.fullWidthAt hclean h.depth_le htiles hlast]
  rfl

/-- A node with a position ends where the stretch ends. -/
theorem Outlines.stop (h : s.Outlines id o) (hclean : o.Clean) (hn : s.isNode id = true) {first last : Nat}
    (htiles : Token.Tiles first (o.tokens.map Prod.snd) last) (hlast : last ≤ Number.exactBound)
    (hfirst : s.fullStart (.object id) = .ok (.ofNat first)) : s.stop (.object id) = .ok (.number (.ofNat last)) := by
  have hle := htiles.le
  rw [Store.stop, hfirst, Attempt.ok_bind, h.fullWidth hclean hn htiles hlast]
  show Except.ok (Value.number (.ofNat first + .ofNat (last - first))) = _
  rw [Number.add_ofNat (by omega) (by omega), Nat.add_sub_cancel' hle]

/-- The width of a node reaches from the significant text of its first token to the end of the stretch. -/
theorem Unfolds.width (h : s.Unfolds owner items o) (hopen : s.items (.object owner) = .ok items) (hclean : o.Clean)
    {depth : Nat} (hdepth : o.depth ≤ depth) {first last : Nat}
    (htiles : Token.Tiles first (o.tokens.map Prod.snd) last) (hlast : last ≤ Number.exactBound)
    {e : ObjectId × Token} (he : o.first? = some e) : ∃ start stop rest, o.tokens = e :: rest ∧
      e.2.Spans first start stop ∧ Token.Tiles stop (rest.map Prod.snd) last ∧
      s.widthAt (depth + 1) (.object owner) = .ok (.ofNat (last - start)) := by
  have hwidth := h.widthAt_exact hopen hclean.legible hdepth (htiles.exact hlast)
  rw [(htiles.total_eq hlast).1, Outline.lead, he, Option.elim_some] at hwidth
  obtain ⟨rest, htokens⟩ := List.head?_eq_some_iff.mp (Outline.head?_tokens he)
  rw [htokens, List.map_cons] at htiles
  obtain ⟨start, stop, hspans, hrest⟩ := htiles
  have hle := hrest.le
  have hfirst := hspans.first_le
  have hstart := hspans.start_le
  refine ⟨start, stop, rest, htokens, hspans, hrest, ?_⟩
  rw [hwidth, (hspans.exact (Nat.le_trans hle hlast)).2.2, Number.ofNat]
  congr 2
  omega

/-- Where first children do not lead to a token, nothing is left out of the width. -/
theorem Unfolds.width_of_first?_eq_none (h : s.Unfolds owner items o) (hopen : s.items (.object owner) = .ok items)
    (hclean : o.Clean) {depth : Nat} (hdepth : o.depth ≤ depth) {first last : Nat}
    (htiles : Token.Tiles first (o.tokens.map Prod.snd) last) (hlast : last ≤ Number.exactBound) (hnone : o.first? = none) :
    s.widthAt (depth + 1) (.object owner) = .ok (.ofNat (last - first)) := by
  rw [h.widthAt_exact hopen hclean.legible hdepth (htiles.exact hlast), (htiles.total_eq hlast).1, Outline.lead, hnone,
    Option.elim_none, Int.sub_zero]
  rfl

/-! ## Texts -/

theorem foldlM_addText (s : Store) (firstText : Token → Attempt Data) (source : Text) (ts : List (ObjectId × Token))
    {texts : List Text} (htexts : texts ≠ []) :
    ts.foldlM (fun texts t => s.addText firstText (.text source) texts t.2) texts =
      .ok ((ts.map (·.2.fullText source)).reverse ++ texts) := by
  induction ts generalizing texts with
  | nil => rfl
  | cons t ts ih =>
    have hadd : s.addText firstText (.text source) texts t.2 = .ok (t.2.fullText source :: texts) := by
      rw [addText, List.isEmpty_eq_false_iff.mpr htexts]
      rfl
    rw [List.foldlM_cons, hadd, Attempt.ok_bind, ih (List.cons_ne_nil _ _)]
    simp

/-- The texts of the tokens below a node are those of the tokens of its outline. -/
theorem Outlines.tokenTexts (h : s.Outlines id o) (hclean : o.Clean) (source : Text) {firstText : Token → Attempt Data}
    {t : ObjectId × Token} {rest : List (ObjectId × Token)} (htokens : o.tokens = t :: rest) {text : Text}
    (htext : firstText t.2 = .ok (.ofText text)) : s.tokenTexts firstText (.text source) (.object id) =
      .ok (text ++ (rest.map (·.2.fullText source)).flatten) := by
  have hfirst : s.addText firstText (.text source) [] t.2 = .ok [text] := by
    simp only [addText, List.isEmpty_nil, if_true, htext]
    rfl
  rw [Store.tokenTexts, h.foldElements hclean, Attempt.foldlM_elim, Outline.filterMap_elements hclean, htokens,
    List.foldlM_cons, hfirst, Attempt.ok_bind, foldlM_addText s _ source rest (List.cons_ne_nil _ _), Attempt.ok_bind]
  simp [pure, Except.pure]

/-- The full text of a node is the stretch of the source that its tokens tile. -/
theorem Outlines.fullText (h : s.Outlines id o) (hclean : o.Clean) {source : Text}
    (hsource : s.source (.object id) = .ok (.text source)) (hexact : source.length ≤ Number.exactBound)
    {first last : Nat} (htiles : Token.Tiles first (o.tokens.map Prod.snd) last) (hlast : last ≤ source.length)
    (htokens : o.tokens ≠ []) : s.fullText (.object id) = .ok ((source.drop first).take (last - first)) := by
  obtain ⟨e, rest, heq⟩ := List.exists_cons_of_ne_nil htokens
  have hall := htiles.fullTexts hlast hexact
  rw [List.map_map, heq, List.map_cons, List.flatten_cons] at hall
  rw [Store.fullText, hsource, Attempt.ok_bind, h.tokenTexts hclean source heq rfl, ← hall]
  rfl

/-! ## Positions and texts -/

/-- The texts of a node are cut from a source at its positions, and its widths are the lengths of its texts. -/
def Agrees (s : Store) (source : Text) (v : Value) : Prop :=
  ∃ (fullStart start stop : Number) (fullText text trivia : Text),
    s.fullStart v = .ok fullStart ∧ s.start v = .ok start ∧ s.stop v = .ok (.number stop) ∧
    s.fullText v = .ok fullText ∧ s.nodeText v = .ok text ∧ s.leadingTrivia v = .ok (.ofText trivia) ∧
    fullText = source.slice fullStart stop ∧ text = source.slice start stop ∧ trivia = source.slice fullStart start ∧
    s.fullWidth v = .ok (.ofNat fullText.length) ∧ s.width v = .ok (.ofNat text.length)

theorem Agrees.fullText {source : Text} {v : Value} (h : s.Agrees source v) {first stop : Number}
    (hfirst : s.fullStart v = .ok first) (hstop : s.stop v = .ok (.number stop)) :
    s.fullText v = .ok (source.slice first stop) := by
  obtain ⟨first', _, stop', text, _, _, hfirst', _, hstop', htext, _, _, rfl, _⟩ := h
  rw [hfirst] at hfirst'
  rw [hstop] at hstop'
  cases hfirst'
  cases hstop'
  exact htext

/-- A node with a source whose tokens tile a stretch of it. -/
structure Stretch (s : Store) (id : ObjectId) (o : Outline) (source : Text) (first last : Nat) : Prop where
  outlines : s.Outlines id o
  clean : o.Clean
  isNode : s.isNode id = true
  source_eq : s.source (.object id) = .ok (.text source)
  exact : source.length ≤ Number.exactBound
  tiles : Token.Tiles first (o.tokens.map Prod.snd) last
  last_le : last ≤ source.length

namespace Stretch

variable {source : Text} {first last : Nat}

theorem fullWidth (h : s.Stretch id o source first last) : s.fullWidth (.object id) = .ok (.ofNat (last - first)) :=
  h.outlines.fullWidth h.clean h.isNode h.tiles (Nat.le_trans h.last_le h.exact)

theorem width_of_widthAt (h : s.Stretch id o source first last) {width : Number}
    (hwidth : s.widthAt (s.size + 1) (.object id) = .ok width) : s.width (.object id) = .ok (.number width) := by
  rw [Store.width, namesNode, h.isNode, if_pos rfl, hwidth]
  rfl

/-- The width reaches from the significant text of the token that first children lead to. -/
theorem exists_width (h : s.Stretch id o source first last) {e : ObjectId × Token} (he : o.first? = some e) :
    ∃ start stop rest, o.tokens = e :: rest ∧ e.2.Spans first start stop ∧
      Token.Tiles stop (rest.map Prod.snd) last ∧ s.width (.object id) = .ok (.ofNat (last - start)) := by
  obtain ⟨items, hopen, hu⟩ := h.outlines
  obtain ⟨start, stop, rest, htokens, hspans, hrest, hwidth⟩ :=
    hu.width hopen h.clean hu.depth_le h.tiles (Nat.le_trans h.last_le h.exact) he
  exact ⟨start, stop, rest, htokens, hspans, hrest, h.width_of_widthAt hwidth⟩

/-- The significant text begins with that of the first token, and the leading trivia are what is before it. -/
theorem text_trivia (h : s.Stretch id o source first last) {t : ObjectId × Token} {rest : List (ObjectId × Token)}
    (htokens : o.tokens = t :: rest) {start stop : Nat} (hspans : t.2.Spans first start stop)
    (hrest : Token.Tiles stop (rest.map Prod.snd) last) :
    s.nodeText (.object id) = .ok ((source.drop start).take (last - start)) ∧
      s.leadingTrivia (.object id) = .ok (.ofText ((source.drop first).take (start - first))) := by
  have hle := h.last_le
  have hstart := hspans.start_le
  have hstop := hrest.le
  have hrests : (rest.map (·.2.fullText source)).flatten = (source.drop stop).take (last - stop) := by
    have := hrest.fullTexts hle h.exact
    rwa [List.map_map] at this
  constructor
  · rw [Store.nodeText, h.source_eq, Attempt.ok_bind, h.outlines.tokenTexts h.clean source htokens rfl,
      hspans.text (by omega) h.exact, hrests, Text.take_drop_append hstart hstop]
  · rw [Store.leadingTrivia, h.outlines.firstToken h.clean, htokens, List.head?_cons, Attempt.ok_bind]
    simp only [h.source_eq, Attempt.ok_bind]
    rw [← hspans.leadingTrivia (by omega) h.exact]
    rfl

/-- The positions of a node whose tokens tile a stretch of its source, from its first token on. -/
theorem positions (h : s.Stretch id o source first last) {e : ObjectId × Token} (he : o.first? = some e)
    {start stop : Nat} (hspans : e.2.Spans first start stop) : s.fullStart (.object id) = .ok (.ofNat first) ∧
      s.start (.object id) = .ok (.ofNat start) ∧ s.stop (.object id) = .ok (.number (.ofNat last)) := by
  have hfullStart : s.fullStart (.object id) = .ok (.ofNat first) :=
    (h.outlines.edge Token.fullStart h.clean.legible).mpr ⟨e, he, hspans.fullStart⟩
  exact ⟨hfullStart, (h.outlines.edge Token.start h.clean.legible).mpr ⟨e, he, hspans.start⟩,
    h.outlines.stop h.clean h.isNode h.tiles (Nat.le_trans h.last_le h.exact) hfullStart⟩

/-- The texts of a node whose tokens tile a stretch of its source are cut at its positions. -/
theorem agrees (h : s.Stretch id o source first last) {e : ObjectId × Token} (he : o.first? = some e) :
    s.Agrees source (.object id) := by
  obtain ⟨start, stop, rest, htokens, hspans, hrest, hwidth⟩ := h.exists_width he
  obtain ⟨htext, htrivia⟩ := h.text_trivia htokens hspans hrest
  obtain ⟨hfullStart, hstartAt, hstopAt⟩ := h.positions he hspans
  have hfirst := hspans.first_le
  have hstart := hspans.start_le
  have hstop := hrest.le
  have hlast := h.last_le
  have hexact := h.exact
  have hfullText := h.outlines.fullText h.clean h.source_eq hexact h.tiles hlast
    (by rw [htokens]; exact List.cons_ne_nil _ _)
  refine ⟨.ofNat first, .ofNat start, .ofNat last, _, _, _, hfullStart, hstartAt, hstopAt, hfullText, htext, htrivia,
    ?_, ?_, ?_, ?_, ?_⟩
  · rw [Text.slice_ofNat h.tiles.le hlast hexact]
  · rw [Text.slice_ofNat (by omega) hlast hexact]
  · rw [Text.slice_ofNat hfirst (by omega) hexact]
  · rw [h.fullWidth, Text.length_take_drop hlast]
  · rw [hwidth, Text.length_take_drop hlast]

end Stretch

end Store

end LosslessSyntax
