import LosslessSyntax.Proofs.Composing
import LosslessSyntax.Proofs.Constructing
import LosslessSyntax.Proofs.Documents
import LosslessSyntax.Proofs.Lines
import LosslessSyntax.Proofs.Locating

/-!
# Ranges and positions of nodes

No token of a source begins, has its text begin or ends between the two units of one line break
(`Calc.Lexes.boundaries`): words hold no blanks, and trivia are as long as they can be. So nothing is lost on the way from
offsets to positions and back:

* `Session.nodeAtPosition_positionAt`: the node at the position of an offset is the node at the offset, also where the
  position is that of the offset before it.
* `Session.offsetAt_range`: the ends of the ranges of a node lead back to the offsets that they come from, and they are in
  order.

Both hold in every session that holds the tree, whichever positions have been asked for before.
-/

namespace LosslessSyntax

/-! ## Boundaries -/

/-- An offset of a text that is not inside a line break. -/
def Text.Boundary (t : Text) (i : Nat) : Prop := i ≤ t.length ∧ ¬ t.Splits i

namespace Text.Boundary

variable {t : Text} {i : Nat}

theorem settle_eq (h : t.Boundary i) : t.settle i = i := by
  rw [settle, if_neg h.2]

theorem length (t : Text) : t.Boundary t.length := by
  refine ⟨Nat.le_refl _, fun hsplits => ?_⟩
  have hnone : t[t.length]? = none := List.getElem?_eq_none (Nat.le_refl _)
  rw [hsplits.2.2] at hnone
  cases hnone

/-- Between two texts there is a boundary unless a line break is cut in two. -/
theorem append {before after : Text} (h : carriageReturn ∉ before.getLast? ∨ lineFeed ∉ after.head?) :
    (before ++ after).Boundary before.length := by
  refine ⟨by rw [List.length_append]; exact Nat.le_add_right _ _, fun ⟨hpos, hlast, hhead⟩ => ?_⟩
  rw [List.getElem?_append_left (Nat.sub_lt hpos Nat.one_pos), ← List.getLast?_eq_getElem?] at hlast
  rw [List.getElem?_append_right (Nat.le_refl _), Nat.sub_self, ← List.head?_eq_getElem?] at hhead
  exact h.elim (fun hnot => hnot hlast) fun hnot => hnot hhead

/-- Moving an offset to the front of a line break does not take it out of a span that ends at boundaries, or into one. -/
theorem contains_settle {a b : Nat} (ha : t.Boundary a) (hb : t.Boundary b) (hlength : t.length ≤ Number.exactBound)
    (hi : i ≤ t.length) :
    ((Number.ofNat a).le (.ofNat (t.settle i)) && (Number.ofNat (t.settle i)).lt (.ofNat b)) =
      ((Number.ofNat a).le (.ofNat i) && (Number.ofNat i).lt (.ofNat b)) := by
  have haBound := Nat.le_trans ha.1 hlength
  have hbBound := Nat.le_trans hb.1 hlength
  have hiBound := Nat.le_trans hi hlength
  have hsettle := Nat.le_trans (t.settle_le i) hiBound
  rw [Number.le_ofNat haBound hsettle, Number.lt_ofNat hsettle hbBound, Number.le_ofNat haBound hiBound,
    Number.lt_ofNat hiBound hbBound]
  by_cases hsplits : t.Splits i
  · have hne : a ≠ i := fun heq => ha.2 (heq ▸ hsplits)
    have hne' : b ≠ i := fun heq => hb.2 (heq ▸ hsplits)
    have hpos := hsplits.1
    rw [settle, if_pos hsplits]
    congr 1
    · exact decide_eq_decide.mpr ⟨fun h => by omega, fun h => by omega⟩
    · exact decide_eq_decide.mpr ⟨fun h => by omega, fun h => by omega⟩
  · rw [settle, if_neg hsplits]

end Text.Boundary

/-- A token whose offsets are boundaries of a text. -/
def Token.Settled (source : Text) (t : Token) : Prop := ∃ first start stop, t.Spans first start stop ∧
  source.Boundary first ∧ source.Boundary start ∧ source.Boundary stop

theorem Token.Settled.of_spans {source : Text} {t : Token} (h : t.Settled source)
    (hsource : source.length ≤ Number.exactBound) {first start stop : Nat} (hspans : t.Spans first start stop)
    (hstop : stop ≤ Number.exactBound) : source.Boundary first ∧ source.Boundary start ∧ source.Boundary stop := by
  obtain ⟨first', start', stop', hspans', hfirst', hstart', hstop'⟩ := h
  have hbound := Nat.le_trans hspans.start_le hstop
  have heq := Number.ofNat_inj (Nat.le_trans hspans.first_le hbound) (Nat.le_trans hfirst'.1 hsource)
    (hspans.fullStart.symm.trans hspans'.fullStart)
  have heq' := Number.ofNat_inj hbound (Nat.le_trans hstart'.1 hsource) (hspans.start.symm.trans hspans'.start)
  have hstopBound := Nat.le_trans hstop'.1 hsource
  have heq'' := Number.ofNat_inj hstop hstopBound ((hspans.stop_eq hstop).symm.trans (hspans'.stop_eq hstopBound))
  subst heq heq' heq''
  exact ⟨hfirst', hstart', hstop'⟩

/-- Tokens that tile a stretch end with it. -/
theorem Token.Tiles.exists_last {ts : List Token} {first last : Nat} (h : Tiles first ts last) (hne : ts ≠ []) :
    ∃ t ∈ ts, ∃ first start, t.Spans first start last := by
  induction ts generalizing first with
  | nil => exact absurd rfl hne
  | cons t ts ih =>
    obtain ⟨start, stop, hspans, hrest⟩ := h
    cases ts with
    | nil =>
      cases hrest
      exact ⟨t, List.mem_cons_self, first, start, hspans⟩
    | cons t' ts =>
      obtain ⟨u, hu, hlast⟩ := ih hrest (List.cons_ne_nil _ _)
      exact ⟨u, List.mem_cons_of_mem _ hu, hlast⟩

/-- Settled tokens that tile a stretch do so between boundaries. -/
theorem Token.Tiles.boundaries {source : Text} {t : Token} {ts : List Token} {first last : Nat}
    (h : Tiles first (t :: ts) last) (hsettled : ∀ u ∈ t :: ts, u.Settled source)
    (hsource : source.length ≤ Number.exactBound) (hlast : last ≤ source.length) : ∃ start stop,
      t.Spans first start stop ∧ start ≤ last ∧ source.Boundary first ∧ source.Boundary start ∧ source.Boundary last := by
  have hbound := Nat.le_trans hlast hsource
  obtain ⟨u, hu, _, _, hspans'⟩ := h.exists_last (List.cons_ne_nil _ _)
  obtain ⟨start, stop, hspans, hrest⟩ := h
  obtain ⟨_, _, hlast⟩ := (hsettled u hu).of_spans hsource hspans' hbound
  obtain ⟨hfirst, hstart, _⟩ :=
    (hsettled t List.mem_cons_self).of_spans hsource hspans (Nat.le_trans hrest.le hbound)
  exact ⟨start, stop, hspans, Nat.le_trans hspans.start_le hrest.le, hfirst, hstart, hlast⟩

namespace Calc

theorem not_blank_of_mem {u : UInt16} (h : u ∈ letters ∨ u ∈ digits) : u ∉ blanks := by
  rw [mem_blanks, of_all (p := fun u => isBlankUnit u = false) (by decide) u (List.mem_append.mpr h)]
  exact Bool.false_ne_true

/-- A word that no trivia begin with holds no blanks. -/
theorem Word.not_blank {kind : Kind} {text rest : Text} (h : Word kind text rest)
    (hstops : ¬ BeginsTrivia (text ++ rest)) : ∀ u ∈ text, u ∉ blanks := by
  have hfirst : ∀ u tail, text = u :: tail → u ∉ blanks := by
    rintro u tail rfl hblank
    exact hstops (.inl ⟨u, rfl, hblank⟩)
  cases h with
  | identifier first others longest =>
    exact List.forall_mem_cons.mpr ⟨not_blank_of_mem (.inl first), fun u hu => not_blank_of_mem (others u hu)⟩
  | number first others longest =>
    exact List.forall_mem_cons.mpr
      ⟨not_blank_of_mem (.inr first), fun u hu => not_blank_of_mem (.inr (others u hu))⟩
  | mark mark => exact List.forall_mem_singleton.mpr (hfirst _ _ rfl)
  | unknown letter digit mark => exact List.forall_mem_singleton.mpr (hfirst _ _ rfl)

/-- The offsets of a lexeme are boundaries of the source. The induction is on the lexemes, with what is before them. -/
theorem Lexes.boundaries {offset : Nat} {t : Text} {l : Lexing} (h : Lexes offset t l) (before : Text)
    (hbefore : before.length = offset) (hboundary : (before ++ t).Boundary offset) :
    ∀ x ∈ l.toList, x.token.Settled (before ++ t) := by
  induction h generalizing before with
  | @endOfFile offset gap trivia =>
    subst hbefore
    refine List.forall_mem_singleton.mpr ⟨before.length, before.length + gap.length, before.length + gap.length, ?_, ?_⟩
    · have hspans := spans_lexeme .endOfFile before gap []
      rwa [List.length_nil, Nat.add_zero, Nat.add_zero] at hspans
    · rw [← List.length_append]
      exact ⟨hboundary, .length _, .length _⟩
  | @lexeme offset kind gap text rest later trivia stops word more ih =>
    subst hbefore
    obtain ⟨hparts, hlength⟩ := append_parts before gap text rest
    have hblank := word.not_blank stops
    have hstart : (before ++ (gap ++ (text ++ rest))).Boundary (before.length + gap.length) := by
      rw [← List.append_assoc, ← List.length_append]
      refine .append (.inr fun hhead => ?_)
      obtain ⟨u, tail, rfl, _⟩ := word.significant_eq
      cases hhead
      exact hblank _ List.mem_cons_self (by decide)
    have hstop : (before ++ (gap ++ (text ++ rest))).Boundary (before.length + (gap.length + text.length)) := by
      rw [hparts, ← hlength]
      refine .append (.inl fun hlast => ?_)
      rw [← List.append_assoc, List.getLast?_append_of_ne_nil _ word.ne_nil] at hlast
      exact hblank _ (List.mem_of_getLast? hlast) (by decide)
    refine List.forall_mem_cons.mpr ⟨?_, ?_⟩
    · exact ⟨_, _, _, spans_lexeme kind before gap text, hboundary, hstart, Nat.add_assoc .. ▸ hstop⟩
    · rw [hparts] at hstop ⊢
      exact ih _ hlength hstop

/-- The tokens of a source are settled in it. -/
theorem settled_lex (source : Text) : ∀ x ∈ (lex source).toList, x.token.Settled source := by
  have hlexes : Lexes 0 source (lex source) := lexes_iff.mpr rfl
  exact hlexes.boundaries [] rfl ⟨Nat.zero_le _, fun hsplits => Nat.lt_irrefl 0 hsplits.1⟩

end Calc

/-! ## Spans between boundaries -/

namespace Outline

variable {o : Outline} {P : Number → Prop} {eof : Number}

theorem exists_start? (h : ∃ e, o.first? = some e) (htokens : ∀ e ∈ o.tokens, P e.2.fullStart) :
    ∃ a, o.start? = some a ∧ P a := by
  obtain ⟨e, he⟩ := h
  refine ⟨e.2.fullStart, by rw [start?, he, Option.map_some], htokens e ?_⟩
  exact List.mem_of_head? (head?_tokens he)

theorem exists_bound (hfull : o.Full) (heof : P eof) (htokens : ∀ e ∈ o.tokens, P e.2.fullStart) :
    ∃ b, o.bound eof = some b ∧ P b := by
  induction o with
  | empty => exact ⟨eof, rfl, heof⟩
  | failure f rest ih => exact ih hfull htokens
  | token id t rest ih => exact ih hfull (List.forall_mem_cons.mp htokens).2
  | node id t below rest ihb ih => exact exists_start? hfull.1 fun e he => htokens e (List.mem_append_left _ he)

/-- Spans begin and end where tokens begin, the end of the file among them. -/
theorem ends_extents (hfull : o.Full) (heof : P eof) (htokens : ∀ e ∈ o.tokens, P e.2.fullStart) :
    ∀ e ∈ o.extents eof, (∃ a, e.first = some a ∧ P a) ∧ ∃ b, e.stop = some b ∧ P b := by
  induction o with
  | empty => exact fun e he => absurd he List.not_mem_nil
  | failure f rest ih => exact ih hfull htokens
  | token id t rest ih => exact ih hfull (List.forall_mem_cons.mp htokens).2
  | node id t below rest ihb ih =>
    obtain ⟨hfirst, hfullBelow, hfullRest⟩ := hfull
    have hbelow : ∀ e ∈ below.tokens, P e.2.fullStart := fun e he => htokens e (List.mem_append_left _ he)
    have hrest : ∀ e ∈ rest.tokens, P e.2.fullStart := fun e he => htokens e (List.mem_append_right _ he)
    refine List.forall_mem_cons.mpr ⟨⟨exists_start? hfirst hbelow, exists_bound hfullRest heof hrest⟩, fun e he => ?_⟩
    rcases List.mem_append.mp he with he | he
    · exact ihb hfullBelow hbelow e he
    · exact ih hfullRest hrest e he

end Outline

/-! ## Trees that are not touched -/

namespace Store

variable {s t : Store} {root n m : ObjectId} {eof : ObjectId × Token} {o : Outline}

/-- The tokens below objects with an outline are no younger than all of these. -/
theorem Grows.exists_le {cs : List ObjectId} (h : s.Grows cs o) : ∀ e ∈ o.tokens, ∃ c ∈ cs, e.1 ≤ c := by
  induction h with
  | nil => exact fun e he => absurd he List.not_mem_nil
  | token read tail ih =>
    refine List.forall_mem_cons.mpr ⟨⟨_, List.mem_cons_self, Nat.le_refl _⟩, fun e he => ?_⟩
    obtain ⟨c, hc, hle⟩ := ih e he
    exact ⟨c, List.mem_cons_of_mem _ hc, hle⟩
  | node shows some older inside tail ihb ih =>
    intro e he
    rcases List.mem_append.mp he with he | he
    · obtain ⟨c, hc, hle⟩ := ihb e he
      exact ⟨_, List.mem_cons_self, Nat.le_trans hle (Nat.le_of_lt (older c hc))⟩
    · obtain ⟨c, hc, hle⟩ := ih e he
      exact ⟨c, List.mem_cons_of_mem _ hc, hle⟩

theorem Bears.lt_of_token (h : s.Bears n o) {e : ObjectId × Token} (he : e ∈ o.tokens) : e.1 < n := by
  obtain ⟨_, _, _, _, holder, hgrows⟩ := h
  obtain ⟨c, hc, hle⟩ := hgrows.exists_le e he
  exact Nat.lt_of_le_of_lt hle (holder c hc)

/-- A source file that is not touched stays what it is. -/
theorem Branch.untouched (h : s.Branch root eof root o) (hbears : s.Bears root o) (hu : s.Untouched t) :
    t.Branch root eof root o := by
  have hbears' := hbears.keeps h.grounded hu.keeps
  have hreaches : ∀ m, t.Reaches root m → s.Reaches root m := fun m hm =>
    hbears.reaches_keeps h.grounded hu.keeps hu.grounded hm
  obtain ⟨node, rows, hshows, hsome, holder, hgrows⟩ := hbears
  refine
    { grounded := hu.grounded
      outlines := hbears'.outlines hu.grounded
      clean := h.clean
      linked := hgrows.linked_congr (fun c _ => hu.parent c) h.linked
      shows := fun m hm => ?_
      recorded := fun m hm => (hu.recorded m).trans (h.recorded m (hreaches m hm))
      lookup := ?_
      token := ?_ }
  · obtain ⟨node, rows, hshows⟩ := h.shows m (hreaches m hm)
    exact ⟨node, rows, hshows.keeps h.grounded hu.keeps⟩
  · rw [h.grounded.lookup_keeps hu.keeps hshows.lt_size (by decide), h.lookup]
  · rw [h.grounded.token?_keeps hu.keeps (lt_size_of_token? h.token), h.token]

theorem findM?_congr {α : Type} {f g : α → Attempt Bool} {as : List α} (h : ∀ a ∈ as, f a = g a) :
    as.findM? f = as.findM? g := by
  induction as with
  | nil => rfl
  | cons a as ih =>
    obtain ⟨ha, has⟩ := List.forall_mem_cons.mp h
    rw [List.findM?, List.findM?, ha, ih has]

/-- The node at an offset hangs on the outline alone, and it is the same at offsets that are in the same spans. -/
theorem Branch.nodeAt_congr (h : s.Branch root eof n o) (h' : t.Branch root eof n o) {x y : Number}
    (hends : ∀ e ∈ o.extents eof.2.fullStart, ∃ a b, e.first = some a ∧ e.stop = some b ∧
      (a.le x && x.lt b) = (a.le y && y.lt b)) :
    s.nodeAt (.object n) (.number x) = t.nodeAt (.object n) (.number y) := by
  rw [Store.nodeAt, Store.nodeAt, h.outlines.descendantNodes h.clean, h'.outlines.descendantNodes h'.clean]
  refine findM?_congr fun m hm => ?_
  rw [List.mem_reverse, ← Outline.map_node_extents eof.2.fullStart] at hm
  obtain ⟨e, he, rfl⟩ := List.mem_map.mp hm
  obtain ⟨a, b, ha, hb, hsame⟩ := hends e he
  have hx : s.Measures x e.node (a.le x && x.lt b) :=
    ⟨a, b, (h.spanned e he).first a ha, (h.spanned e he).stop b hb, rfl⟩
  have hy : t.Measures y e.node (a.le y && y.lt b) :=
    ⟨a, b, (h'.spanned e he).first a ha, (h'.spanned e he).stop b hb, rfl⟩
  rw [hx.spanContains, hy.spanContains, hsame]

/-- The tokens below a node are among those of the file. -/
theorem Outlines.tokens_reaches (h : s.Outlines root o) (hclean : o.Clean) (hm : s.Reaches root m) :
    ∃ below, s.Outlines m below ∧ below.Clean ∧ below.tokens ⊆ o.tokens := by
  induction hm with
  | refl => exact ⟨o, h, hclean, List.Subset.refl _⟩
  | tail _ hchild ih =>
    obtain ⟨above, habove, hcleanAbove, hsub⟩ := ih
    obtain ⟨below, hpart⟩ := (habove.childNode_iff hcleanAbove).mp hchild
    obtain ⟨hbelow, hcleanBelow⟩ := habove.of_part hcleanAbove hpart
    exact ⟨below, hbelow, hcleanBelow, List.Subset.trans (Outline.tokens_of_part hpart) hsub⟩

/-- A node has the same positions in every store in which it is not touched. They are boundaries of a text, in order. -/
structure Located (s : Store) (source : Text) (m : ObjectId) (fullStart start stop : Nat) : Prop where
  positions : ∀ t, s.Untouched t → t.fullStart (.object m) = .ok (.ofNat fullStart) ∧
    t.start (.object m) = .ok (.ofNat start) ∧ t.stop (.object m) = .ok (.number (.ofNat stop))
  fullStart_le : fullStart ≤ start
  start_le : start ≤ stop
  fullStart_boundary : source.Boundary fullStart
  start_boundary : source.Boundary start
  stop_boundary : source.Boundary stop

end Store

/-! ## Trees of sources -/

namespace Calc.Parsed

open Store

variable {s t u : Store} {source : Source} {root m : ObjectId} {o : Outline}

theorem settled (h : Parsed s source root t o) : ∀ e ∈ o.tokens, e.2.Settled source.text := by
  intro e he
  have hmem : e.2 ∈ (lex source.text).toList.map Lexeme.token := by
    rw [Lexing.toList, List.map_append]
    exact h.map_snd_tokens ▸ List.mem_map.mpr ⟨e, he, rfl⟩
  obtain ⟨x, hx, heq⟩ := List.mem_map.mp hmem
  exact heq ▸ settled_lex source.text x hx

theorem lastToken_mem (h : Parsed s source root t o) : lastToken s source.text ∈ o.tokens := by
  rw [h.fenced.tokens_eq]
  exact List.mem_append_right _ (List.mem_singleton_self _)

/-- The file is new, so that it has no document. -/
theorem document?_eq_none (h : Parsed s source root t o) : t.document? root = none := by
  have hnew : s.size ≤ root :=
    Nat.le_trans (Nat.le_add_right _ _) (Nat.le_of_lt (h.bears.lt_of_token h.lastToken_mem))
  have hrun : parse source s = (.ok root, t) := by
    rw [← h.run, parseValue_text]
  have hframes := frames_parse source s
  rw [hrun] at hframes
  rw [Store.document?, hframes]
  exact Store.document?_eq_none hnew

theorem sourced (h : Parsed s source root t o) : t.Sourced root source.text := by
  refine ⟨h.hosts.grounded, h.branch.shows root .refl, ?_⟩
  have hsource := h.source_eq
  rw [Store.source, h.branch.root_eq .refl] at hsource
  exact Except.ok.inj hsource

/-- The node at an offset stays the same, and it is also the one at the offset before a line break that is split. -/
theorem nodeAt_untouched (h : Parsed s source root t o) (hu : t.Untouched u) {i : Nat} (hi : i ≤ source.text.length) :
    u.nodeAt (.object root) (.number (.ofNat i)) = t.nodeAt (.object root) (.number (.ofNat i)) ∧
      u.nodeAt (.object root) (.number (.ofNat (source.text.settle i))) =
        t.nodeAt (.object root) (.number (.ofNat i)) := by
  let P : Number → Prop := fun a => ∃ i, a = .ofNat i ∧ source.text.Boundary i
  have htokens : ∀ e ∈ o.tokens, P e.2.fullStart := by
    intro e he
    obtain ⟨first, _, _, hspans, hfirst, _⟩ := h.settled e he
    exact ⟨first, hspans.fullStart, hfirst⟩
  have hends := Outline.ends_extents h.full (htokens _ h.lastToken_mem) htokens
  have hbranch := h.branch.untouched h.bears hu
  constructor
  · refine hbranch.nodeAt_congr h.branch fun e he => ?_
    obtain ⟨⟨a, ha, _⟩, b, hb, _⟩ := hends e he
    exact ⟨a, b, ha, hb, rfl⟩
  · refine hbranch.nodeAt_congr h.branch fun e he => ?_
    obtain ⟨⟨_, ha, a, rfl, haBoundary⟩, _, hb, b, rfl, hbBoundary⟩ := hends e he
    exact ⟨_, _, ha, hb, haBoundary.contains_settle hbBoundary source.length_le hi⟩

theorem exists_nodeAt (h : Parsed s source root t o) (offset : Number) :
    ∃ found, t.nodeAt (.object root) (.number offset) = .ok found := by
  obtain ⟨last, hlast, heof, hordered⟩ := h.fenced.ordered h.full h.tiles (lastToken s source.text).2.fullStart
  rcases h.branch.nodeAt_cases hordered heof (Nat.le_trans hlast source.length_le) offset with
    ⟨hnone, _⟩ | ⟨_, e, _, hsome, _⟩
  · exact ⟨none, hnone⟩
  · exact ⟨some e.node, hsome⟩

/-- The tokens below a node tile a stretch of the source in every store in which the tree is not touched. -/
theorem exists_stretch (h : Parsed s source root t o) (hm : t.Reaches root m) : ∃ below low high,
    (∃ e, below.first? = some e) ∧ below.tokens ⊆ o.tokens ∧
      ∀ u, t.Untouched u → u.Stretch m below source.text low high := by
  have hground := h.hosts.grounded
  obtain ⟨below, low, high, houtline, hclean, htiles, hhigh⟩ := h.branch.outlines.tiles_reaches h.branch.clean h.tiles hm
  obtain ⟨below', houtline', _, hsub⟩ := h.branch.outlines.tokens_reaches h.branch.clean hm
  obtain ⟨below'', hbears⟩ := h.bears.reaches hground hm
  obtain rfl := houtline'.unique houtline
  obtain rfl := (hbears.outlines hground).unique houtline
  obtain ⟨node, rows, hshows⟩ := h.branch.shows m hm
  refine ⟨below'', low, high, hbears.exists_first, hsub, fun u hu => ?_⟩
  exact
    { outlines := (hbears.keeps hground hu.keeps).outlines hu.grounded
      clean := hclean
      isNode := (hshows.keeps hground hu.keeps).isNode hu.grounded
      source_eq := source_of_recorded ((hu.recorded m).trans (h.branch.recorded m hm)) (h.sourced.untouched hu).lookup
      exact := source.length_le
      tiles := htiles
      last_le := hhigh }

theorem exists_located (h : Parsed s source root t o) (hm : t.Reaches root m) :
    ∃ fullStart start stop, t.Located source.text m fullStart start stop := by
  obtain ⟨below, low, high, ⟨e, he⟩, hsub, hstretch⟩ := h.exists_stretch hm
  obtain ⟨rest, htokens⟩ := List.head?_eq_some_iff.mp (Outline.head?_tokens he)
  have hhere := hstretch t (.refl h.hosts.grounded h.hosts.closed)
  have htiles := hhere.tiles
  rw [htokens, List.map_cons] at htiles
  have hsettled : ∀ u ∈ e.2 :: rest.map Prod.snd, u.Settled source.text := by
    intro u hu
    rw [← List.map_cons, ← htokens] at hu
    obtain ⟨e', he', rfl⟩ := List.mem_map.mp hu
    exact h.settled e' (hsub he')
  obtain ⟨start, stop, hspans, hle, hfirst, hstart, hlast⟩ :=
    htiles.boundaries hsettled source.length_le hhere.last_le
  exact ⟨low, start, high, fun u hu => (hstretch u hu).positions he hspans, hspans.first_le, hle, hfirst, hstart, hlast⟩

end Calc.Parsed

namespace Session

open Calc

variable {s t : Store} {σ : Session} {root n : ObjectId} {source : Text}

theorem build_ok {α : Type} {work : BuildingT (StateM Session) α} {tried : Building α} {a : α}
    (hwork : work = tried.relay) (h : tried σ.store = (.ok a, t)) :
    build work σ = (.ok a, { σ with store := t }) := by
  rw [build, bind_ok (get_run σ), buildWithin_succ hwork, h]
  rfl

theorem parseCalc_ok {source : Source} {o : Outline} (h : Parsed σ.store source root t o) :
    parseCalc (.text source.text) σ = (.ok root, { σ with store := t }) ∧
      Holds t root source.text { σ with store := t } := by
  refine ⟨build_ok (Calc.parseValueM_eq_relay _) h.run, .refl h.hosts.grounded h.hosts.closed, fun d hd => ?_⟩
  rw [Option.mem_def, h.document?_eq_none] at hd
  cases hd

/-- What is read of a tree is read in every session that holds it. -/
theorem gives_of_untouched {α : Type} {read : Store → SessionM α} {tried : Store → Attempt α} {a : α}
    (hread : ∀ s, read s = relay (tried s)) (h : ∀ u, s.Untouched u → tried u = .ok a) :
    Gives (Holds s root source) (observe read) (· = a) :=
  gives_observe hread fun σ hσ => ⟨a, h σ.store hσ.untouched, rfl⟩

theorem gives_rangeFrom (h : s.Sourced root source) {first : Store → Value → SessionM Number}
    {tried : Store → Value → Attempt Number} {v : Value} {a b : Number} (hread : ∀ s, first s v = relay (tried s v))
    (hroot : ∀ u, s.Untouched u → u.root v = .ok root) (hfirst : ∀ u, s.Untouched u → tried u v = .ok a)
    (hstop : ∀ u, s.Untouched u → u.stop v = .ok (.number b)) :
    Gives (Holds s root source) (rangeFrom first v) (· = ⟨source.positionAt a, source.positionAt b⟩) := by
  refine (gives_of_untouched (Store.root_eq_relay · v) hroot).bind ?_
  rintro _ rfl
  refine (gives_document h).bind fun _ _ => (gives_of_untouched hread hfirst).bind ?_
  rintro _ rfl
  refine (gives_positionAt h _).bind ?_
  rintro _ rfl
  refine (gives_of_untouched (Store.stop_eq_relay · v) hstop).bind ?_
  rintro _ rfl
  refine (gives_positionAt h _).bind ?_
  rintro _ rfl
  exact gives_pure rfl

/-- The position of a boundary leads back to it. -/
theorem gives_offsetAt_positionAt (h : s.Sourced root source) (hsource : source.length ≤ Number.exactBound) {i : Nat}
    (hi : source.Boundary i) :
    Gives (Holds s root source) (offsetAt (.object root) (.number (source.positionAt (.ofNat i)).line)
      (.number (source.positionAt (.ofNat i)).character)) (· = .number (.ofNat i)) := by
  have hoffset := gives_offsetAt h (source.positionAt (.ofNat i))
  rw [Text.offsetAt_positionAt hsource hi.1, hi.settle_eq] at hoffset
  exact hoffset

/-- In every session that holds the tree of a source, the node at the position of an offset is the node at the offset. -/
theorem nodeAtPosition_positionAt (h : Hosts σ.store) (source : Source) : ∃ root τ,
    parseCalc (.text source.text) σ = (.ok root, τ) ∧ Holds τ.store root source.text τ ∧
    ∀ i ≤ source.text.length, ∃ found,
      Gives (Holds τ.store root source.text) (observe (·.nodeAt (.object root) (.number (.ofNat i)))) (· = found) ∧
      Gives (Holds τ.store root source.text) (do
        let p ← positionAt (.object root) (.number (.ofNat i))
        nodeAtPosition (.object root) (.number p.line) (.number p.character)) (· = found) := by
  obtain ⟨root, t, o, hparsed⟩ := exists_parsed h source
  obtain ⟨hrun, hholds⟩ := parseCalc_ok hparsed
  refine ⟨root, _, hrun, hholds, fun i hi => ?_⟩
  obtain ⟨found, hfound⟩ := hparsed.exists_nodeAt (.ofNat i)
  refine ⟨found, gives_of_untouched (Store.nodeAt_eq_relay · _ _)
    fun u hu => ((hparsed.nodeAt_untouched hu hi).1.trans hfound), ?_⟩
  refine (gives_positionAt hparsed.sourced (.ofNat i)).bind ?_
  rintro _ rfl
  have hoffset := gives_offsetAt hparsed.sourced (source.text.positionAt (.ofNat i))
  rw [Text.offsetAt_positionAt source.length_le hi] at hoffset
  refine hoffset.bind ?_
  rintro _ rfl
  exact gives_of_untouched (Store.nodeAt_eq_relay · _ _) fun u hu => (hparsed.nodeAt_untouched hu hi).2.trans hfound

/-- A source with a lone return and two line breaks of two units, one behind a comment and one at the end. -/
def wrapped : Source := ⟨"a // b\r\n= \r1;\r\n", by decide⟩

theorem nodeAtPosition_positionAt_wrapped : (Hosts (start 0).store ∧ wrapped.text.Splits 7) ∧ ∃ root τ,
    parseCalc (.text wrapped.text) (start 0) = (.ok root, τ) ∧ Holds τ.store root wrapped.text τ ∧
    ∀ i ≤ wrapped.text.length, ∃ found,
      Gives (Holds τ.store root wrapped.text) (observe (·.nodeAt (.object root) (.number (.ofNat i)))) (· = found) ∧
      Gives (Holds τ.store root wrapped.text) (do
        let p ← positionAt (.object root) (.number (.ofNat i))
        nodeAtPosition (.object root) (.number p.line) (.number p.character)) (· = found) :=
  ⟨⟨hosts_start 0, by decide⟩, nodeAtPosition_positionAt (hosts_start 0) wrapped⟩

/-- The ranges of a node and its positions, as they are given in every session of a sort: the ends of the ranges lead back
to the positions, and they are in order. -/
structure Restores (K : Session → Prop) (root n : ObjectId) (full significant : Range) (fullStart start stop : Number) :
    Prop where
  gives_fullStart : Gives K (observe (·.fullStart (.object n))) (· = fullStart)
  gives_start : Gives K (observe (·.start (.object n))) (· = start)
  gives_stop : Gives K (observe (·.stop (.object n))) (· = .number stop)
  gives_fullRange : Gives K (fullRange (.object n)) (· = full)
  gives_range : Gives K (range (.object n)) (· = significant)
  fullRange_start : Gives K (offsetAt (.object root) (.number full.start.line) (.number full.start.character))
    (· = .number fullStart)
  fullRange_stop : Gives K (offsetAt (.object root) (.number full.stop.line) (.number full.stop.character))
    (· = .number stop)
  range_start : Gives K (offsetAt (.object root) (.number significant.start.line)
    (.number significant.start.character)) (· = .number start)
  range_stop : Gives K (offsetAt (.object root) (.number significant.stop.line)
    (.number significant.stop.character)) (· = .number stop)
  full_first : full.start.AtMost significant.start
  ordered : significant.start.AtMost significant.stop

/-- In every session that holds the tree of a source, the ranges of all nodes lose nothing. -/
theorem offsetAt_range (h : Hosts σ.store) (source : Source) : ∃ root τ,
    parseCalc (.text source.text) σ = (.ok root, τ) ∧ Holds τ.store root source.text τ ∧
    ∀ n, τ.store.Reaches root n → ∃ full significant fullStart start stop,
      Restores (Holds τ.store root source.text) root n full significant fullStart start stop := by
  obtain ⟨root, t, o, hparsed⟩ := exists_parsed h source
  obtain ⟨hrun, hholds⟩ := parseCalc_ok hparsed
  refine ⟨root, _, hrun, hholds, fun n hn => ?_⟩
  have hsourced := hparsed.sourced
  have hexact := source.length_le
  obtain ⟨fullStart, start, stop, hlocated⟩ := hparsed.exists_located hn
  have hroot : ∀ u, t.Untouched u → u.root (.object n) = .ok root := fun u hu =>
    Store.root_of_recorded ((hu.recorded n).trans (hparsed.branch.recorded n hn))
  have hfullStart := fun u hu => (hlocated.positions u hu).1
  have hstart := fun u hu => (hlocated.positions u hu).2.1
  have hstop := fun u hu => (hlocated.positions u hu).2.2
  exact ⟨_, _, _, _, _,
    { gives_fullStart := gives_of_untouched (Store.fullStart_eq_relay · _) hfullStart
      gives_start := gives_of_untouched (Store.start_eq_relay · _) hstart
      gives_stop := gives_of_untouched (Store.stop_eq_relay · _) hstop
      gives_fullRange := gives_rangeFrom hsourced (Store.fullStart_eq_relay · _) hroot hfullStart hstop
      gives_range := gives_rangeFrom hsourced (Store.start_eq_relay · _) hroot hstart hstop
      fullRange_start := gives_offsetAt_positionAt hsourced hexact hlocated.fullStart_boundary
      fullRange_stop := gives_offsetAt_positionAt hsourced hexact hlocated.stop_boundary
      range_start := gives_offsetAt_positionAt hsourced hexact hlocated.start_boundary
      range_stop := gives_offsetAt_positionAt hsourced hexact hlocated.stop_boundary
      full_first := Text.positionAt_mono hexact hlocated.fullStart_le hlocated.start_boundary.1
      ordered := Text.positionAt_mono hexact hlocated.start_le hlocated.stop_boundary.1 }⟩

theorem offsetAt_range_wrapped : Hosts (start 0).store ∧ ∃ root τ,
    parseCalc (.text wrapped.text) (start 0) = (.ok root, τ) ∧ Holds τ.store root wrapped.text τ ∧
    ∀ n, τ.store.Reaches root n → ∃ full significant fullStart start stop,
      Restores (Holds τ.store root wrapped.text) root n full significant fullStart start stop :=
  ⟨hosts_start 0, offsetAt_range (hosts_start 0) wrapped⟩

end Session

end LosslessSyntax
