import LosslessSyntax.Proofs.Accepting
import LosslessSyntax.Proofs.Descent
import LosslessSyntax.Proofs.Exhausting
import LosslessSyntax.Proofs.Trimming

/-!
# Recursive and flat measures

Positions and widths of a node are computed by recursion: through first children, or through all children with the first
one treated apart. If the tokens below the node have whole numbers as fields, small enough for sums of their lengths to
be exact, then all of these measures are functions of the row of tokens that a walk hands out (`measures_flat`). Tokens
may overlap, be out of order and have negative lengths.

First children need not lead to the first token, as nodes without children may come before it. They lead either to such
a node, and then the node that is measured has no position, or to the first token (`Unfolds.first?_eq_none_iff`).

A walk over the tokens also hands out nodes that have the members of a token. Measures do not count these as tokens.
-/

namespace LosslessSyntax

/-- The token that an element is, if it is no node. -/
def Element.leaf? : Element → Option (ObjectId × Token)
  | .node .. => none
  | .token id t => some (id, t)

theorem Outline.filterMap_leaf? (o : Outline) : o.elements.filterMap Element.leaf? = o.tokens := by
  induction o with
  | empty => rfl
  | failure f rest ih => exact ih
  | token id t rest ih => rw [elements, tokens, List.filterMap_cons, ih]; rfl
  | node id t below rest ihb ih => rw [elements, tokens, List.filterMap_cons, List.filterMap_append, ihb, ih]; rfl

namespace Store

variable {s : Store} {made : List ObjectId} {owner n m : ObjectId} {items : List Item} {o : Outline} {es : List Element}

/-! ## Nodes without a position -/

/-- First children lead to a node without children. -/
def RunsEmpty (s : Store) (n : ObjectId) : Prop := ∃ m, s.FirstReaches n m ∧ s.items (.object m) = .ok []

/-- Where everything can be read, first children lead to a token or to a node without children. -/
theorem Unfolds.first?_eq_none_iff (h : s.Unfolds owner items o) (hopen : s.items (.object owner) = .ok items)
    (hlegible : o.Legible) : o.first? = none ↔ s.RunsEmpty owner := by
  induction h with
  | @empty owner => exact iff_of_true rfl ⟨owner, .refl, hopen⟩
  | failure read tail ih => exact hlegible.elim
  | token read tail ih =>
    refine iff_of_false (fun h => by cases h) ?_
    rintro ⟨m, hreach, hempty⟩
    rcases Relation.ReflTransGen.cases_head hreach with rfl | ⟨c, ⟨_, _, _, _, hopen', he⟩, _⟩
    · cases hopen.symm.trans hempty
    · cases hopen.symm.trans hopen'
      rw [read_value_eq_ok.mpr he] at read
      cases read
  | @node owner id slot value t items inner below rest read opened inside tail ihb ih =>
    refine (ihb opened hlegible.1).trans ⟨?_, ?_⟩
    · rintro ⟨m, hreach, hempty⟩
      exact ⟨m, .head ⟨slot, value, items, t, hopen, read_value_eq_ok.mp read⟩ hreach, hempty⟩
    · rintro ⟨m, hreach, hempty⟩
      rcases Relation.ReflTransGen.cases_head hreach with rfl | ⟨c, ⟨_, _, _, _, hopen', he⟩, hreach⟩
      · cases hopen.symm.trans hempty
      · cases hopen.symm.trans hopen'
        rw [read_value_eq_ok.mpr he] at read
        cases read
        exact ⟨m, hreach, hempty⟩

/-- The kind of an object whose slots are known can be named. -/
theorem malformed_of_items {α : Type} (cause : Malformation) (h : s.items (.object m) = .ok items) :
    ∃ f, (s.malformed cause (.object m) : Attempt α) = .error f ∧ f.IsMalformed := by
  have hkind : ∃ kind, s.kindName (.object m) = .ok kind := by
    rw [kindName]
    cases hmade : s.madeVariant? (.object m) with
    | some w => exact ⟨_, rfl⟩
    | none =>
      have hnames : s.slotNames (.object m) = s.slotNamesOf (s.lookup m "variant") := by
        rw [slotNames, hmade]
        rfl
      rw [Store.items, hnames] at h
      show ∃ kind, s.member "name" (s.lookup m "variant") = .ok kind
      cases hvariant : s.lookup m "variant" with
      | object v => exact ⟨_, rfl⟩
      | _ => rw [hvariant] at h; cases h
  obtain ⟨kind, hkind⟩ := hkind
  refine ⟨.ofTree (.malformed cause kind), ?_, cause, kind, rfl⟩
  rw [malformed, hkind]
  rfl

/-! ## Measures of a row of tokens -/

/-- The measures of a node are those of a row of tokens. -/
structure MeasuresFlat (s : Store) (n : ObjectId) (ts : List (ObjectId × Token)) : Prop where
  fullWidth : s.fullWidth (.object n) = .ok (.number (.ofInt (Token.total (ts.map Prod.snd))))
  fullStart_fails : (∃ f, s.fullStart (.object n) = .error f ∧ f.IsMalformed) ↔ s.RunsEmpty n
  start_fails : (∃ f, s.start (.object n) = .error f ∧ f.IsMalformed) ↔ s.RunsEmpty n
  begins : ¬ s.RunsEmpty n → ∃ head rest full, ts = head :: rest ∧ s.fullStart (.object n) = .ok head.2.fullStart ∧
    s.start (.object n) = .ok head.2.start ∧ s.fullWidth (.object n) = .ok (.number full) ∧
    s.width (.object n) = .ok (.number (full - (head.2.start - head.2.fullStart)))

/-- Following first children fails if and only if they lead to a node without children. -/
theorem Outlines.edge_fails (offset : Token → Number) (h : s.Outlines n o) (hlegible : o.Legible) :
    (∃ f, s.edgeAt offset (s.size + 1) (.object n) = .error f ∧ f.IsMalformed) ↔ s.RunsEmpty n := by
  obtain ⟨items, hopen, hu⟩ := h
  rw [← hu.first?_eq_none_iff hopen hlegible]
  constructor
  · rintro ⟨f, hfails, _⟩
    cases hfirst : o.first? with
    | none => rfl
    | some e =>
      rw [(hu.edge offset hopen hlegible hu.depth_le).mpr ⟨e, hfirst, rfl⟩] at hfails
      cases hfails
  · intro hnone
    obtain ⟨m, _, hempty, hedge⟩ := hu.edge_of_first?_eq_none offset hopen hlegible hu.depth_le hnone
    rw [hedge]
    exact malformed_of_items .noChildren hempty

/-- Where everything below a node can be read, its measures are those of the tokens of its outline. -/
theorem Outlines.measuresFlat (h : s.Outlines n o) (hn : s.isNode n = true) (hlegible : o.Legible)
    (hexact : Token.Exact (o.tokens.map Prod.snd)) : s.MeasuresFlat n o.tokens := by
  obtain ⟨items, hopen, hu⟩ := id h
  have hfull : s.fullWidth (.object n) = .ok (.number (.ofInt (Token.total (o.tokens.map Prod.snd)))) := by
    rw [Store.fullWidth, namesNode, hn, if_pos rfl, h.fullWidthAt_exact hlegible h.depth_le hexact]
    rfl
  refine ⟨hfull, h.edge_fails Token.fullStart hlegible, h.edge_fails Token.start hlegible, fun hruns => ?_⟩
  rw [← hu.first?_eq_none_iff hopen hlegible] at hruns
  obtain ⟨e, hfirst⟩ := Option.ne_none_iff_exists'.mp hruns
  obtain ⟨rest, htokens⟩ := List.head?_eq_some_iff.mp (Outline.head?_tokens hfirst)
  refine ⟨e, rest, _, htokens, (h.edge Token.fullStart hlegible).mpr ⟨e, hfirst, rfl⟩,
    (h.edge Token.start hlegible).mpr ⟨e, hfirst, rfl⟩, hfull, ?_⟩
  have hwidth := hu.widthAt_exact hopen hlegible hu.depth_le hexact
  have htotal := Nat.le_trans (Token.natAbs_total_le (o.tokens.map Prod.snd)) hexact.bulk
  rw [htokens, List.map_cons] at hexact
  rw [Store.width, namesNode, hn, if_pos rfl, hwidth, Outline.lead, hfirst, Option.elim_some, hexact.trivia_eq,
    Number.sub_ofInt htotal (hexact.head e.2 rfl).1]
  rfl

/-- Everything below a node that regular calls have returned can be read, and no node there is a token as well. -/
theorem exists_clean (h : Reached (fun s made c => c.Regular s made) s made) (hn : n ∈ made) :
    ∃ o, s.Outlines n o ∧ o.Clean := by
  have hs := h.sound Call.Regular.harmless
  have hr := h.rooted fun h => ⟨h.harmless, h.genuine⟩
  obtain ⟨items, entries, hopen, hholds, _⟩ := hs.holds hn
  obtain ⟨o, items', hopen', hu⟩ := (hs.walkable fun m hm => (of_reaches hs hr hn hm).1).exists_outline
  cases hopen.symm.trans hopen'
  exact ⟨o, ⟨items, hopen, hu⟩, h.whole.clean hs hr hu hholds⟩

/-- Below a node that regular calls have returned, a walk hands out tokens that are no nodes. -/
theorem exists_lists_tokens (h : Reached (fun s made c => c.Regular s made) s made) (hn : n ∈ made) :
    s.isNode n = true ∧
      ∃ ts : List (ObjectId × Token), Walk.Lists s .tokens (.object n) (ts.map fun e => .token e.1 e.2) := by
  have hs := h.sound Call.Regular.harmless
  obtain ⟨node, rows, hshows, _⟩ := hs.shows n hn
  obtain ⟨o, ho, hclean⟩ := exists_clean h hn
  exact ⟨hshows.isNode hs.grounded, o.tokens, ho.lists_tokens hclean⟩

theorem measuresFlat_of_lists (hn : s.isNode n = true) (h : Walk.Lists s .tokens (.object n) es)
    (hexact : Token.Exact ((es.filterMap Element.leaf?).map Prod.snd)) :
    s.MeasuresFlat n (es.filterMap Element.leaf?) ∧
      s.firstToken (.object n) = .ok (es.filterMap Element.token?).head? := by
  obtain ⟨o, ho, hlegible, rfl⟩ := Walk.lists_iff_exists.mp h
  have hleaves : (o.elements.filter Accept.tokens.takes).filterMap Element.leaf? = o.tokens := by
    refine (Walk.filterMap_takes (fun e b he => ?_) o.elements).trans o.filterMap_leaf?
    cases e with
    | node id t => cases he
    | token id t => rfl
  rw [hleaves] at hexact ⊢
  refine ⟨ho.measuresFlat hn hlegible hexact, ?_⟩
  rw [Store.firstToken, ho.findToken_of_legible hlegible, Walk.filterMap_takes fun _ _ htoken => by rw [htoken]; rfl]
  cases o.elements.filterMap Element.token? <;> rfl

theorem filterMap_map_token (ts : List (ObjectId × Token)) :
    (ts.map fun e => Element.token e.1 e.2).filterMap Element.leaf? = ts ∧
      (ts.map fun e => Element.token e.1 e.2).filterMap Element.token? = ts := by
  rw [List.filterMap_map, List.filterMap_map]
  exact ⟨List.filterMap_some, List.filterMap_some⟩

/-- After every run of regular calls, the measures of a returned node are those of the tokens that a walk hands out, if
sums of their lengths are exact. In any store they are those of the tokens among them that are no nodes. -/
theorem measures_flat (s : Store) (n : ObjectId) :
    (∀ made, Reached (fun s made c => c.Regular s made) s made → n ∈ made → ∃ ts : List (ObjectId × Token),
      Walk.Lists s .tokens (.object n) (ts.map fun e => .token e.1 e.2) ∧
      (Token.Exact (ts.map Prod.snd) → s.MeasuresFlat n ts ∧ s.firstToken (.object n) = .ok ts.head?)) ∧
    ∀ es, s.isNode n = true → Walk.Lists s .tokens (.object n) es →
      Token.Exact ((es.filterMap Element.leaf?).map Prod.snd) →
      s.MeasuresFlat n (es.filterMap Element.leaf?) ∧
        s.firstToken (.object n) = .ok (es.filterMap Element.token?).head? := by
  refine ⟨fun made h hn => ?_, fun es => measuresFlat_of_lists⟩
  obtain ⟨hnode, ts, hlists⟩ := exists_lists_tokens h hn
  obtain ⟨hleaves, htokens⟩ := filterMap_map_token ts
  refine ⟨ts, hlists, fun hexact => ?_⟩
  have hflat := measuresFlat_of_lists hnode hlists (hleaves.symm ▸ hexact)
  rwa [hleaves, htokens] at hflat

end Store

/-! ## Runs -/

namespace Sample

open Store

/-- A leaf of a token that begins behind its text and has a negative length, a leaf of nothing, and their document. -/
def skewed : Store :=
  ((documentCall letters [19, 21] 15).run
    (bareCall.run ((leafCall 17).run (stock.addAll [.token ⟨.ofNat 1, 7, 4, .ofInt (-3)⟩])).2).2).2

/-- The outline of that document. -/
def skewedOutline : Outline :=
  .node 19 none (.token 17 ⟨.ofNat 1, 7, 4, .ofInt (-3)⟩ .empty)
    (.node 21 none .empty (.token 15 ⟨.ofNat 0, 2, 2, 0⟩ .empty))

theorem regular_skewed : Reached (fun s made c => c.Regular s made) skewed [24, 21, 19] := by
  have hstock := (reached_stock fun s _ c => c.Harmless s).sound id
  have hadded : Reached (fun s made c => c.Regular s made) (stock.addAll [.token ⟨.ofNat 1, 7, 4, .ofInt (-3)⟩]) [] := by
    refine .between (reached_stock _) (untouched_addAll hstock.grounded hstock.closed fun o ho => ?_)
    rw [List.mem_singleton.mp ho]
    exact Object.refers_of_members (fun _ _ _ heq => by cases heq) (by decide)
  exact hadded.runAll [leafCall 17, bareCall, documentCall letters [19, 21] 15]
    (.cons rfl (.cons rfl (.cons rfl .nil))) (by decide +kernel)

/-- The document begins with its first token, although that lies behind its text; the leaf of nothing has no position. -/
theorem measures_flat_skewed :
    (Reached (fun s made c => c.Regular s made) skewed [24, 21, 19] ∧ ∃ ts : List (ObjectId × Token),
      Walk.Lists skewed .tokens (.object 24) (ts.map fun e => .token e.1 e.2) ∧
      (Token.Exact (ts.map Prod.snd) → skewed.MeasuresFlat 24 ts ∧ skewed.firstToken (.object 24) = .ok ts.head?)) ∧
    (Token.Exact ((skewedOutline.elements.filterMap Element.leaf?).map Prod.snd) ∧
      skewed.MeasuresFlat 24 (skewedOutline.elements.filterMap Element.leaf?) ∧
      (skewed.fullStart (.object 24)).toOption = some 7 ∧ (skewed.start (.object 24)).toOption = some 4 ∧
      (skewed.fullWidth (.object 24)).toOption = some (.number (.ofInt (-3))) ∧
      (skewed.width (.object 24)).toOption = some (.number 0)) ∧
    skewed.RunsEmpty 21 := by
  obtain ⟨houtline, hnode⟩ : skewed.outline? 3 24 = some skewedOutline ∧ skewed.isNode 24 = true := by decide +kernel
  have hlists : Walk.Lists skewed .tokens (.object 24) (skewedOutline.elements.filter Accept.tokens.takes) :=
    Walk.lists_iff_exists.mpr ⟨_, outlines_of_outline? houtline, ⟨trivial, trivial, trivial⟩, rfl⟩
  have hexact : Token.Exact ((skewedOutline.elements.filterMap Element.leaf?).map Prod.snd) :=
    ⟨by decide +kernel, by decide +kernel, by decide +kernel⟩
  exact ⟨⟨regular_skewed, (measures_flat skewed 24).1 _ regular_skewed List.mem_cons_self⟩,
    ⟨hexact, ((measures_flat skewed 24).2 _ hnode hlists hexact).1, by decide +kernel⟩,
    21, .refl, Attempt.eq_ok (by decide +kernel)⟩

/-- The members of a token. -/
def tokenMembers : Members Value :=
  [("tag", .text "token"), ("kind", .ofNat 1), ("fullStart", .number 5), ("start", .number 6), ("length", .number 7)]

/-- A leaf, an object that extends it and has the members of a token, and a leaf of that object, all made in a store. -/
def forgedIn (s : Store) : Store :=
  ((leafCall (s.size + 2)).run (extendWith ((leafCall 12).run s).2 tokenMembers (s.size + 1))).2

/-- The outline of the second leaf, which holds the object with the members of a token. -/
def forgedOutline (mimic : ObjectId) : Outline :=
  .node mimic (some ⟨.ofNat 1, 5, 6, 7⟩) (.token 12 ⟨.ofNat 1, 0, 0, 1⟩ .empty) .empty

/-- An object that extends a returned node and has the members of a token can be made between calls. -/
theorem reached_extendWith {allowed : Store → List ObjectId → Call → Prop} {s : Store} {made : List ObjectId}
    (h : Reached allowed s made) (hallowed : ∀ {s made c}, allowed s made c → c.Harmless s) {id : ObjectId}
    (hid : id ∈ made) : Reached allowed (extendWith s tokenMembers id) made := by
  have hsound := h.sound hallowed
  refine .between h (untouched_extendWith hsound.grounded hsound.closed ?_ id (hsound.lt_size hid))
  refine Object.refers_of_members (fun _ _ _ heq => by cases heq) fun entry hentry => ?_
  simp only [Object.ofMembers, Object.hidden, Object.listed, tokenMembers, List.nil_append, List.mem_cons,
    List.not_mem_nil, or_false] at hentry
  rcases hentry with rfl | rfl | rfl | rfl | rfl <;> exact trivial

/-- The store with the leaves. -/
def forged : Store := forgedIn stock

theorem reached_forged :
    Reached (fun s _ c => c.Harmless s ∧ c.input.Unshadowed s c.variant.layout) forged [21, 18] := by
  have hleaf : Reached (fun s _ c => c.Harmless s ∧ c.input.Unshadowed s c.variant.layout) ((leafCall 12).run stock).2
      [18] := (reached_stock _).runAll [leafCall 12] (.cons rfl .nil) (by decide +kernel)
  exact (reached_extendWith hleaf And.left List.mem_cons_self).runAll [leafCall 19] (.cons rfl .nil) (by decide +kernel)

/-- A walk hands out the node with the members of a token, but the width of the leaf does not count its length. -/
theorem not_measuresFlat_forged :
    Reached (fun s _ c => c.Harmless s ∧ c.input.Unshadowed s c.variant.layout) forged [21, 18] ∧
    Walk.Lists forged .tokens (.object 21) (forgedOutline 19).elements ∧
    Token.Exact (((forgedOutline 19).elements.filterMap Element.token?).map Prod.snd) ∧
    ¬ forged.MeasuresFlat 21 ((forgedOutline 19).elements.filterMap Element.token?) := by
  have houtline : forged.outline? 4 21 = some (forgedOutline 19) := by decide +kernel
  refine ⟨reached_forged, Walk.lists_iff_exists.mpr ⟨_, outlines_of_outline? houtline, ⟨trivial, trivial⟩, rfl⟩,
    ⟨by decide +kernel, by decide +kernel, by decide +kernel⟩, fun hflat => ?_⟩
  exact absurd (congrArg Except.toOption hflat.fullWidth) (by decide +kernel)

end Sample

end LosslessSyntax
