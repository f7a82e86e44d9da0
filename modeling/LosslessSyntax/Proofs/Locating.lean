import LosslessSyntax.Proofs.Precedence
import LosslessSyntax.Proofs.Spans

/-!
# Looking up offsets

In a source file whose tokens tile its source, spans begin in document order (`Extent.Ordered`), though they may end far
behind each other. Before the end of the file, the node at an offset is the last one that begins at the offset or before
it, and there is none from the end of the file on (`Branch.nodeAt_cases`). The token at an offset is the one whose stretch
of the source contains it (`Outlines.tokenAt`).

The tree of a source of the calculator language is a row of statements with the end-of-file token behind them
(`Outline.Fenced`). The node and the token at an offset are in the same statement (`nodeAt_tokenAt`).
-/

namespace LosslessSyntax

/-- Where a list of two parts is split, the split is in the first part or in the second. -/
theorem split_append {α : Type} {xs ys before after : List α} {a : α} (h : xs ++ ys = before ++ a :: after) :
    (∃ more, xs = before ++ a :: more ∧ after = more ++ ys) ∨ ∃ before', ys = before' ++ a :: after := by
  rcases List.append_eq_append_iff.mp h with ⟨more, _, hys⟩ | ⟨more, hxs, hafter⟩
  · exact .inr ⟨more, hys⟩
  · cases more with
    | nil => exact .inr ⟨[], hafter.symm⟩
    | cons b more =>
      obtain ⟨rfl, rfl⟩ := List.cons.inj hafter
      exact .inl ⟨more, hxs, rfl⟩

/-! ## Spans in order -/

/-- Spans that begin one after the other, from one offset to another. -/
def Extent.Ordered : Nat → List Extent → Nat → Prop
  | first, [], last => first ≤ last
  | first, e :: es, last => ∃ start, first ≤ start ∧ e.first = some (.ofNat start) ∧ Ordered start es last

namespace Extent.Ordered

variable {es es' : List Extent} {first between last : Nat}

theorem mono (h : Ordered between es last) (hle : first ≤ between) : Ordered first es last := by
  cases es with
  | nil => exact Nat.le_trans hle h
  | cons e es =>
    obtain ⟨start, hstart, hfirst, hrest⟩ := h
    exact ⟨start, Nat.le_trans hle hstart, hfirst, hrest⟩

theorem append (h : Ordered first es between) (h' : Ordered between es' last) : Ordered first (es ++ es') last := by
  induction es generalizing first with
  | nil => exact h'.mono h
  | cons e es ih =>
    obtain ⟨start, hstart, hfirst, hrest⟩ := h
    exact ⟨start, hstart, hfirst, ih hrest⟩

theorem of_append (h : Ordered first (es ++ es') last) : ∃ between, Ordered between es' last := by
  induction es generalizing first with
  | nil => exact ⟨first, h⟩
  | cons e es ih =>
    obtain ⟨start, _, _, hrest⟩ := h
    exact ih hrest

theorem le (h : Ordered first es last) : first ≤ last := by
  induction es generalizing first with
  | nil => exact h
  | cons e es ih =>
    obtain ⟨start, hstart, _, hrest⟩ := h
    exact Nat.le_trans hstart (ih hrest)

theorem start (h : Ordered first es last) {e : Extent} (he : e ∈ es) :
    ∃ start, first ≤ start ∧ start ≤ last ∧ e.first = some (.ofNat start) := by
  induction es generalizing first with
  | nil => exact absurd he List.not_mem_nil
  | cons e' es ih =>
    obtain ⟨start, hstart, hfirst, hrest⟩ := h
    rcases List.mem_cons.mp he with rfl | he
    · exact ⟨start, hstart, hrest.le, hfirst⟩
    · obtain ⟨start', hstart', hlast, hfirst'⟩ := ih hrest he
      exact ⟨start', Nat.le_trans hstart hstart', hlast, hfirst'⟩

theorem le_floor (h : Ordered first es last) (hlast : last ≤ Number.exactBound) {offset : Number} {floor : Nat}
    (hfloors : offset.Floors floor) {e : Extent} (he : e ∈ es) (hbegins : ∃ a, e.first = some a ∧ a.le offset = true) :
    first ≤ floor := by
  obtain ⟨start, hstart, hstartLe, hstartEq⟩ := h.start he
  obtain ⟨a, ha, hle⟩ := hbegins
  cases hstartEq.symm.trans ha
  rw [(hfloors start (Nat.le_trans hstartLe hlast)).1] at hle
  exact Nat.le_trans hstart (of_decide_eq_true hle)

end Extent.Ordered

theorem Extent.Chained.of_append {eof : Number} {es es' : List Extent} (h : Chained eof (es ++ es')) :
    Chained eof es' := by
  induction es with
  | nil => exact h
  | cons e es ih => exact ih h.2

/-- Spans in order end at the end of the file at the latest. -/
theorem Extent.Chained.stop {es : List Extent} {first last : Nat} (h : Chained (.ofNat last) es)
    (hordered : Ordered first es last) {e : Extent} (he : e ∈ es) : ∃ stop ≤ last, e.stop = some (.ofNat stop) := by
  induction es generalizing first with
  | nil => exact absurd he List.not_mem_nil
  | cons e' es ih =>
    obtain ⟨hstop, hchained⟩ := h
    obtain ⟨_, _, _, hrest⟩ := hordered
    rcases List.mem_cons.mp he with rfl | he
    · rcases hstop with heof | ⟨later, hlater, hfirst⟩
      · exact ⟨last, Nat.le_refl last, heof⟩
      · obtain ⟨start, _, hle, hstart⟩ := hrest.start hlater
        exact ⟨start, hle, hfirst ▸ hstart⟩
    · exact ih hchained hrest he

/-- Spans in order contain no offset before zero, and none from the end of the file on. -/
theorem Extent.Chained.within {es : List Extent} {first last : Nat} (h : Chained (.ofNat last) es)
    (hordered : Ordered first es last) (hlast : last ≤ Number.exactBound) {e : Extent} (he : e ∈ es) {a b offset : Number}
    (ha : e.first = some a) (hb : e.stop = some b) (hinside : (a.le offset && offset.lt b) = true) :
    Number.le 0 offset = true ∧ offset.lt (.ofNat last) = true := by
  obtain ⟨start, _, hstartLe, hstart⟩ := hordered.start he
  obtain ⟨stop, hstopLe, hstop⟩ := h.stop hordered he
  cases hstart.symm.trans ha
  cases hstop.symm.trans hb
  obtain ⟨hle, hlt⟩ := Bool.and_eq_true_iff.mp hinside
  cases hzero : Number.le 0 offset with
  | false =>
    rw [Number.ofNat_le_eq_false hzero (Nat.le_trans hstartLe hlast)] at hle
    cases hle
  | true =>
    obtain ⟨floor, hfloors⟩ := Number.exists_floors hzero
    rw [(hfloors stop (Nat.le_trans hstopLe hlast)).2, decide_eq_true_eq] at hlt
    rw [(hfloors last hlast).2, decide_eq_true_eq]
    exact ⟨rfl, Nat.lt_of_lt_of_le hlt hstopLe⟩

namespace Outline

/-- First children lead to a token from every node. -/
def Full : Outline → Prop
  | .empty => True
  | .failure _ rest => rest.Full
  | .token _ _ rest => rest.Full
  | .node _ _ below rest => (∃ e, below.first? = some e) ∧ below.Full ∧ rest.Full

/-- Where tokens tile a stretch, the first of them begins where the stretch does. -/
theorem start?_eq {o : Outline} {first last : Nat} (htiles : Token.Tiles first (o.tokens.map Prod.snd) last)
    (h : ∃ e, o.first? = some e) : o.start? = some (.ofNat first) := by
  obtain ⟨e, he⟩ := h
  obtain ⟨rest, htokens⟩ := List.head?_eq_some_iff.mp (head?_tokens he)
  rw [htokens, List.map_cons] at htiles
  obtain ⟨start, stop, hspans, _⟩ := htiles
  rw [start?, he, Option.map_some, hspans.fullStart]

/-- Where tokens tile a stretch, the spans of nodes begin in document order. -/
theorem ordered_extents {o : Outline} (hfull : o.Full) {first last : Nat}
    (htiles : Token.Tiles first (o.tokens.map Prod.snd) last) (eof : Number) :
    Extent.Ordered first (o.extents eof) last := by
  induction o generalizing first last with
  | empty => exact Nat.le_of_eq htiles
  | failure f rest ih => exact ih hfull htiles
  | token id t rest ih =>
    obtain ⟨start, stop, hspans, hrest⟩ := htiles
    exact (ih hfull hrest).mono (Nat.le_trans hspans.first_le hspans.start_le)
  | node id t below rest ihb ih =>
    obtain ⟨hfirst, hbelow, hrest⟩ := hfull
    rw [tokens, List.map_append, Token.Tiles.append] at htiles
    obtain ⟨between, htilesBelow, htilesRest⟩ := htiles
    exact ⟨first, Nat.le_refl first, start?_eq htilesBelow hfirst,
      (ihb hbelow htilesBelow).append (ih hrest htilesRest)⟩

/-- The children that are nodes, each with the outline of what is below it. -/
def parts : Outline → List (ObjectId × Outline)
  | .empty => []
  | .failure _ rest => rest.parts
  | .token _ _ rest => rest.parts
  | .node id _ below rest => (id, below) :: rest.parts

theorem tokens_of_part {o : Outline} {p : ObjectId × Outline} (h : p ∈ o.parts) : p.2.tokens ⊆ o.tokens := by
  induction o with
  | empty => exact absurd h List.not_mem_nil
  | failure f rest ih => exact ih h
  | token id t rest ih => exact List.subset_cons_of_subset _ (ih h)
  | node id t below rest ihb ih =>
    rcases List.mem_cons.mp h with rfl | h
    · exact List.subset_append_left _ _
    · exact List.subset_append_of_subset_right _ (ih h)

/-- Where no token stands twice, none is below two children. -/
theorem eq_of_part {o : Outline} (hnodup : (o.tokens.map Prod.fst).Nodup) {p q : ObjectId × Outline} (hp : p ∈ o.parts)
    (hq : q ∈ o.parts) {id : ObjectId} (hidp : id ∈ p.2.tokens.map Prod.fst) (hidq : id ∈ q.2.tokens.map Prod.fst) :
    p = q := by
  induction o with
  | empty => exact absurd hp List.not_mem_nil
  | failure f rest ih => exact ih hnodup hp hq
  | token id t rest ih => exact ih (List.nodup_cons.mp hnodup).2 hp hq
  | node c t below rest ihb ih =>
    rw [tokens, List.map_append] at hnodup
    obtain ⟨_, hrest, hdisjoint⟩ := List.nodup_append.mp hnodup
    have hbehind : ∀ {r : ObjectId × Outline}, r ∈ rest.parts → r.2.tokens.map Prod.fst ⊆ rest.tokens.map Prod.fst :=
      fun hr => List.map_subset _ (tokens_of_part hr)
    rcases List.mem_cons.mp hp with rfl | hp
    · rcases List.mem_cons.mp hq with rfl | hq
      · rfl
      · exact absurd rfl (hdisjoint id hidp id (hbehind hq hidq))
    · rcases List.mem_cons.mp hq with rfl | hq
      · exact absurd rfl (hdisjoint id hidq id (hbehind hp hidp))
      · exact ih hrest hp hq

end Outline

/-! ## Tokens -/

/-- The stretch of a token, trivia included, contains an offset. -/
def Token.covers (t : Token) (offset : Number) : Bool := t.fullStart.le offset && offset.lt t.stop

theorem Token.Spans.covers {t : Token} {first start stop floor : Nat} (h : t.Spans first start stop)
    (hstop : stop ≤ Number.exactBound) {offset : Number} (hfloors : offset.Floors floor) :
    t.covers offset = (decide (first ≤ floor) && decide (floor < stop)) := by
  have hfirst : first ≤ Number.exactBound := Nat.le_trans (Nat.le_trans h.first_le h.start_le) hstop
  rw [Token.covers, h.stop_eq hstop, h.fullStart, (hfloors first hfirst).1, (hfloors stop hstop).2]

namespace Token.Tiles

variable {es : List (ObjectId × Token)} {first last floor : Nat} {offset : Number}

/-- Tokens that tile a stretch do not contain what is behind it. -/
theorem find?_eq_none (h : Tiles first (es.map Prod.snd) last) (hlast : last ≤ Number.exactBound)
    (hfloors : offset.Floors floor) (hle : last ≤ floor) : (es.find? fun e => e.2.covers offset) = none := by
  induction es generalizing first with
  | nil => rfl
  | cons e es ih =>
    obtain ⟨start, stop, hspans, hrest⟩ := h
    have hstop := hrest.le
    have hcovers := hspans.covers (Nat.le_trans hstop hlast) hfloors
    rw [decide_eq_false (by omega : ¬ floor < stop), Bool.and_false] at hcovers
    rw [List.find?_cons_of_neg (by simp [hcovers]), ih hrest]

/-- One of the tokens that tile a stretch contains an offset in it. -/
theorem exists_find? (h : Tiles first (es.map Prod.snd) last) (hlast : last ≤ Number.exactBound)
    (hfloors : offset.Floors floor) (hfirst : first ≤ floor) (hlt : floor < last) :
    ∃ e ∈ es, (es.find? fun e => e.2.covers offset) = some e := by
  induction es generalizing first with
  | nil =>
    cases h
    omega
  | cons e es ih =>
    obtain ⟨start, stop, hspans, hrest⟩ := h
    have hcovers := hspans.covers (Nat.le_trans hrest.le hlast) hfloors
    rw [decide_eq_true hfirst, Bool.true_and] at hcovers
    rcases Nat.lt_or_ge floor stop with hstop | hstop
    · rw [decide_eq_true hstop] at hcovers
      exact ⟨e, List.mem_cons_self, List.find?_cons_of_pos hcovers⟩
    · rw [decide_eq_false (by omega)] at hcovers
      obtain ⟨e', he', hfind⟩ := ih hrest hstop
      exact ⟨e', List.mem_cons_of_mem _ he', by rw [List.find?_cons_of_neg (by simp [hcovers]), hfind]⟩

end Token.Tiles

namespace Store

variable {s : Store} {root owner n m : ObjectId} {eof : ObjectId × Token} {items : List Item} {o : Outline}

/-- A search for the token at an offset finds the first one that contains it. -/
theorem findSomeM?_tokenContains (s : Store) (offset : Number) (es : List (ObjectId × Token)) :
    es.findSomeM? (fun e => do
      return if ← Attempt.ofMisuse (s.tokenContains (.number offset) e.2) then some (e.1, e.2) else none) =
      .ok (es.find? fun e => e.2.covers offset) := by
  have hcontains : ∀ t : Token, s.tokenContains (.number offset) t = .ok (t.covers offset) := by
    intro t
    show (if t.fullStart.le offset = true then _ else _) = _
    rw [Token.covers]
    cases t.fullStart.le offset with
    | false => rfl
    | true =>
      rw [if_pos rfl]
      rfl
  induction es with
  | nil => rfl
  | cons e es ih =>
    rw [List.findSomeM?_cons, hcontains, List.find?_cons]
    cases e.2.covers offset with
    | true => rfl
    | false => exact ih

theorem Outlines.tokenAt (h : s.Outlines n o) (hclean : o.Clean) (offset : Number) :
    s.tokenAt (.object n) (.number offset) = .ok (o.tokens.find? fun e => e.2.covers offset) := by
  rw [Store.tokenAt, h.findToken hclean, findSomeM?_tokenContains]

/-! ## The last node that begins before an offset -/

theorem Spanned.eq_of_measures {e : Extent} (h : s.Spanned e) {a b : Number} (ha : e.first = some a) (hb : e.stop = some b)
    {offset : Number} {inside : Bool} (hmeasures : s.Measures offset e.node inside) :
    (a.le offset && offset.lt b) = inside := by
  obtain ⟨first, stop, hfirst, hstop, hinside⟩ := hmeasures
  cases hfirst.symm.trans (h.first a ha)
  cases hstop.symm.trans (h.stop b hb)
  exact hinside

/-- If no span contains an offset before the end of the file, none begins at the offset or before it. The induction is on
the list: a span ends at the end of the file, or where a later one begins, which is behind the offset. -/
theorem not_le_of_outside {es : List Extent} {first last : Nat} (hspanned : ∀ e ∈ es, s.Spanned e)
    (hchained : Extent.Chained (.ofNat last) es) (hordered : Extent.Ordered first es last)
    (hlast : last ≤ Number.exactBound) {offset : Number} (hlt : offset.lt (.ofNat last) = true)
    (houtside : ∀ e ∈ es, s.Measures offset e.node false) :
    ∀ e ∈ es, ∀ a, e.first = some a → a.le offset = false := by
  induction es generalizing first with
  | nil => exact fun e he => absurd he List.not_mem_nil
  | cons e es ih =>
    obtain ⟨hspan, hspanned⟩ := List.forall_mem_cons.mp hspanned
    obtain ⟨hout, houtside⟩ := List.forall_mem_cons.mp houtside
    obtain ⟨hstop, hchained⟩ := hchained
    obtain ⟨start, hstart, hfirst, hrest⟩ := hordered
    have hbehind := ih hspanned hchained hrest houtside
    have hbound : start ≤ Number.exactBound := Nat.le_trans hrest.le hlast
    refine List.forall_mem_cons.mpr ⟨fun a ha => ?_, hbehind⟩
    cases hle : a.le offset with
    | false => rfl
    | true =>
      cases hfirst.symm.trans ha
      cases hzero : Number.le 0 offset with
      | false => rw [Number.ofNat_le_eq_false hzero hbound] at hle; cases hle
      | true =>
        obtain ⟨floor, hfloors⟩ := Number.exists_floors hzero
        obtain ⟨stop, hstopLt, hstopEq⟩ : ∃ b, offset.lt b = true ∧ e.stop = some b := by
          rcases hstop with heof | ⟨later, hlater, hlaterFirst⟩
          · exact ⟨_, hlt, heof⟩
          · obtain ⟨start', _, hle', hstart'⟩ := hrest.start hlater
            have hnot := hbehind later hlater _ hstart'
            rw [(hfloors start' (Nat.le_trans hle' hlast)).1, decide_eq_false_iff_not] at hnot
            refine ⟨_, ?_, hlaterFirst ▸ hstart'⟩
            rw [(hfloors start' (Nat.le_trans hle' hlast)).2, decide_eq_true (Nat.not_le.mp hnot)]
        have hinside := hspan.eq_of_measures ha hstopEq hout
        rw [hle, hstopLt] at hinside
        cases hinside

/-- In a tree whose spans begin in document order, the node at an offset before the end of the file is the last one that
begins at the offset or before it; at other offsets there is none. -/
theorem Branch.nodeAt_cases (h : s.Branch root eof n o) {first last : Nat}
    (hordered : Extent.Ordered first (o.extents eof.2.fullStart) last) (heof : eof.2.fullStart = .ofNat last)
    (hlast : last ≤ Number.exactBound) (offset : Number) :
    (s.nodeAt (.object n) (.number offset) = .ok none ∧ (offset.lt eof.2.fullStart = true →
      ∀ e ∈ o.extents eof.2.fullStart, ∀ a, e.first = some a → a.le offset = false)) ∨
    ∃ before e after, s.nodeAt (.object n) (.number offset) = .ok (some e.node) ∧
      o.extents eof.2.fullStart = before ++ e :: after ∧ (∃ a, e.first = some a ∧ a.le offset = true) ∧
      (Number.le 0 offset = true ∧ offset.lt eof.2.fullStart = true) ∧
      ∀ e' ∈ after, s.Measures offset e'.node false ∧ ∀ a, e'.first = some a → a.le offset = false := by
  have hspanned := h.spanned
  have hchained := Outline.chained_extents eof.2.fullStart o
  have hpinpoints := h.pinpoints offset
  rw [← Outline.map_node_extents eof.2.fullStart] at hpinpoints
  rw [heof] at hordered hspanned hchained hpinpoints ⊢
  generalize o.extents (.ofNat last) = es at hordered hspanned hchained hpinpoints
  generalize s.nodeAt (.object n) (.number offset) = result at hpinpoints
  cases hpinpoints with
  | nothing outside =>
    exact .inl ⟨rfl, fun hlt => not_le_of_outside hspanned hchained hordered hlast hlt fun e he =>
      outside e.node (List.mem_map.mpr ⟨e, he, rfl⟩)⟩
  | found before after split inside outside =>
    obtain ⟨before, rest, rfl, rfl, hrest⟩ := List.map_eq_append_iff.mp split
    obtain ⟨e, after, rfl, rfl, rfl⟩ := List.map_eq_cons_iff.mp hrest
    have he : e ∈ before ++ e :: after := List.mem_append_right _ List.mem_cons_self
    obtain ⟨start, _, _, hstart⟩ := hordered.start he
    obtain ⟨stop, _, hstop⟩ := hchained.stop hordered he
    have hinside := (hspanned e he).eq_of_measures hstart hstop inside
    obtain ⟨hzero, hlt⟩ := hchained.within hordered hlast he hstart hstop hinside
    obtain ⟨between, hbehind⟩ := hordered.of_append
    obtain ⟨_, _, _, hbehind⟩ := hbehind
    have hout : ∀ e' ∈ after, s.Measures offset e'.node false := fun e' he' =>
      outside e'.node (List.mem_map.mpr ⟨e', he', rfl⟩)
    have hlater := not_le_of_outside (fun e' he' => hspanned e' (List.mem_append_right _ (List.mem_cons_of_mem _ he')))
      hchained.of_append.2 hbehind hlast hlt hout
    exact .inr ⟨before, e, after, rfl, rfl, ⟨_, hstart, Bool.and_elim_left hinside⟩, ⟨hzero, hlt⟩,
      fun e' he' => ⟨hout e' he', hlater e' he'⟩⟩
  | unplaced before after split start outside =>
    obtain ⟨before, rest, rfl, rfl, hrest⟩ := List.map_eq_append_iff.mp split
    obtain ⟨e, after, rfl, rfl, rfl⟩ := List.map_eq_cons_iff.mp hrest
    have he : e ∈ before ++ e :: after := List.mem_append_right _ List.mem_cons_self
    obtain ⟨_, _, _, hstart⟩ := hordered.start he
    rw [(hspanned e he).first _ hstart] at start
    cases start

/-! ## Children that are nodes -/

theorem Grows.full {cs : List ObjectId} (h : s.Grows cs o) : o.Full := by
  induction h with
  | nil => trivial
  | token read tail ih => exact ih
  | node shows some older inside tail ihb ih => exact ⟨inside.exists_first some, ihb, ih⟩

theorem Bears.full (h : s.Bears n o) : o.Full := by
  obtain ⟨_, _, _, _, _, hgrows⟩ := h
  exact hgrows.full

/-- What is known of a child that is a node. -/
theorem Unfolds.of_part {all : List Item} (h : s.Unfolds owner items o) (hopen : s.items (.object owner) = .ok all)
    (hsub : items ⊆ all) (hclean : o.Clean) {p : ObjectId × Outline} (hp : p ∈ o.parts) :
    s.ChildNode owner p.1 ∧ s.Outlines p.1 p.2 ∧ p.2.Clean := by
  induction h with
  | empty => exact absurd hp List.not_mem_nil
  | failure read tail ih => exact hclean.elim
  | token read tail ih => exact ih hopen (List.subset_of_cons_subset hsub) hclean hp
  | @node owner id slot value t items inner below rest read opened inside tail ihb ih =>
    obtain ⟨_, hbelow, hrest⟩ := hclean
    rcases List.mem_cons.mp hp with rfl | hp
    · exact ⟨⟨all, slot, value, t, hopen, hsub List.mem_cons_self, read_value_eq_ok.mp read⟩, ⟨inner, opened, inside⟩,
        hbelow⟩
    · exact ih hopen (List.subset_of_cons_subset hsub) hrest hp

theorem Unfolds.exists_part (h : s.Unfolds owner items o) {slot : Text} {value : Value} {c : ObjectId} {t : Option Token}
    (hitem : .value slot value ∈ items) (he : s.elementOf? value = some (.node c t)) :
    ∃ below, (c, below) ∈ o.parts := by
  induction h with
  | empty => exact absurd hitem List.not_mem_nil
  | failure read tail ih =>
    rcases List.mem_cons.mp hitem with heq | hmem
    · cases heq
      rw [read_value_eq_ok.mpr he] at read
      cases read
    · exact ih hmem
  | token read tail ih =>
    rcases List.mem_cons.mp hitem with heq | hmem
    · cases heq
      rw [read_value_eq_ok.mpr he] at read
      cases read
    · exact ih hmem
  | @node owner id slot value t items inner below rest read opened inside tail ihb ih =>
    rcases List.mem_cons.mp hitem with heq | hmem
    · cases heq
      rw [read_value_eq_ok.mpr he] at read
      cases read
      exact ⟨below, List.mem_cons_self⟩
    · obtain ⟨below', hmem⟩ := ih hmem
      exact ⟨below', List.mem_cons_of_mem _ hmem⟩

/-- The children that are nodes are the parts of the outline. -/
theorem Outlines.childNode_iff (h : s.Outlines n o) (hclean : o.Clean) {c : ObjectId} :
    s.ChildNode n c ↔ ∃ below, (c, below) ∈ o.parts := by
  obtain ⟨items, hopen, hu⟩ := h
  constructor
  · rintro ⟨items', slot, value, t, hitems, hmem, he⟩
    cases hopen.symm.trans hitems
    exact hu.exists_part hmem he
  · rintro ⟨below, hpart⟩
    exact (hu.of_part hopen (List.Subset.refl items) hclean hpart).1

theorem Outlines.of_part (h : s.Outlines n o) (hclean : o.Clean) {p : ObjectId × Outline} (hp : p ∈ o.parts) :
    s.Outlines p.1 p.2 ∧ p.2.Clean := by
  obtain ⟨items, hopen, hu⟩ := h
  exact (hu.of_part hopen (List.Subset.refl items) hclean hp).2

/-- In document order, what is below a node comes right behind it. -/
theorem Unfolds.nodes_behind (h : s.Unfolds owner items o) {before after : List ObjectId}
    (hsplit : o.nodes = before ++ m :: after) : ∃ below, s.Outlines m below ∧ below.nodes ⊆ after := by
  induction h generalizing before after with
  | empty => cases before <;> cases hsplit
  | failure read tail ih => exact ih hsplit
  | token read tail ih => exact ih hsplit
  | @node owner id slot value t items inner below rest read opened inside tail ihb ih =>
    have hnodes : (Outline.node id t below rest).nodes = id :: (below.nodes ++ rest.nodes) := by
      rw [Outline.nodes, Outline.elements, List.filterMap_cons, List.filterMap_append]
      rfl
    rw [hnodes] at hsplit
    cases before with
    | nil =>
      cases hsplit
      exact ⟨below, ⟨inner, opened, inside⟩, List.subset_append_left _ _⟩
    | cons b before =>
      obtain ⟨_, hsplit⟩ := List.cons.inj hsplit
      rcases split_append hsplit with ⟨more, hbelow, rfl⟩ | ⟨before', hrest⟩
      · obtain ⟨below', houtline, hsub⟩ := ihb hbelow
        exact ⟨below', houtline, List.subset_append_of_subset_left _ hsub⟩
      · exact ih hrest

/-- A walk over the tokens below a node hands out an object. -/
def Yields (s : Store) (n id : ObjectId) : Prop := ∃ ts : List (ObjectId × Token),
  Walk.Lists s .tokens (.object n) (ts.map fun e => .token e.1 e.2) ∧ id ∈ ts.map Prod.fst

theorem Outlines.yields_iff (h : s.Outlines n o) (hclean : o.Clean) {id : ObjectId} :
    s.Yields n id ↔ id ∈ o.tokens.map Prod.fst := by
  refine ⟨?_, fun hid => ⟨o.tokens, h.lists_tokens hclean, hid⟩⟩
  rintro ⟨ts, hlists, hid⟩
  have hevents := (Walk.lists_iff h).mp hlists
  rw [Outline.events_tokens hclean, List.map_map] at hevents
  have hinj : Function.Injective fun e : ObjectId × Token => Event.yielded (.token e.1 e.2) := by
    rintro ⟨a, b⟩ ⟨c, d⟩ heq
    cases heq
    rfl
  rwa [List.map_injective_iff.mpr hinj hevents]

end Store

/-! ## Statements and the end of the file -/

namespace Outline

/-- A node is one of the parts, or below one, and that part has the token at an offset. -/
def Shares (o : Outline) (offset : Number) (m : ObjectId) : Prop :=
  ∃ p ∈ o.parts, (m = p.1 ∨ m ∈ p.2.nodes) ∧
    ∃ found ∈ p.2.tokens, (o.tokens.find? fun e => e.2.covers offset) = some found

theorem shares_here {id m : ObjectId} {t : Option Token} {below rest : Outline} {offset : Number}
    (hm : m = id ∨ m ∈ below.nodes) {found : ObjectId × Token} (hfound : found ∈ below.tokens)
    (hfind : (below.tokens.find? fun e => e.2.covers offset) = some found) : (node id t below rest).Shares offset m :=
  ⟨(id, below), List.mem_cons_self, hm, found, hfound, by rw [tokens, List.find?_append, hfind]; rfl⟩

theorem Shares.later {id m : ObjectId} {t : Option Token} {below rest : Outline} {offset : Number}
    (h : rest.Shares offset m) (hnone : (below.tokens.find? fun e => e.2.covers offset) = none) :
    (node id t below rest).Shares offset m := by
  obtain ⟨p, hp, hm, found, hfound, hfind⟩ := h
  exact ⟨p, List.mem_cons_of_mem _ hp, hm, found, hfound, by rw [tokens, List.find?_append, hnone, hfind]; rfl⟩

/-- Nodes, and one token behind them. -/
def Fenced (eof : ObjectId × Token) : Outline → Prop
  | .empty => False
  | .failure .. => False
  | .token id t rest => (id, t) = eof ∧ rest = .empty
  | .node _ _ _ rest => rest.Fenced eof

namespace Fenced

variable {o : Outline} {eof : ObjectId × Token} {first length floor : Nat} {x offset : Number}

theorem tokens_eq (h : o.Fenced eof) : o.tokens = o.parts.flatMap (·.2.tokens) ++ [eof] := by
  induction o with
  | empty => exact h.elim
  | failure f rest ih => exact h.elim
  | token id t rest ih =>
    obtain ⟨rfl, rfl⟩ := h
    rfl
  | node id t below rest ihb ih => rw [tokens, parts, List.flatMap_cons, ih h, List.append_assoc]

/-- The spans of nodes begin before the end of the file. -/
theorem ordered (h : o.Fenced eof) (hfull : o.Full) (htiles : Token.Tiles first (o.tokens.map Prod.snd) length)
    (x : Number) : ∃ last ≤ length, eof.2.fullStart = .ofNat last ∧ Extent.Ordered first (o.extents x) last := by
  induction o generalizing first with
  | empty => exact h.elim
  | failure f rest ih => exact h.elim
  | token id t rest ih =>
    obtain ⟨rfl, rfl⟩ := h
    have hle := htiles.le
    obtain ⟨start, stop, hspans, _⟩ := htiles
    exact ⟨first, hle, hspans.fullStart, Nat.le_refl first⟩
  | node id t below rest ihb ih =>
    obtain ⟨hfirst, hbelow, hrest⟩ := hfull
    rw [tokens, List.map_append, Token.Tiles.append] at htiles
    obtain ⟨between, htilesBelow, htilesRest⟩ := htiles
    obtain ⟨last, hlast, heof, hordered⟩ := ih h hrest htilesRest
    exact ⟨last, hlast, heof, first, Nat.le_refl first, start?_eq htilesBelow hfirst,
      (ordered_extents hbelow htilesBelow x).append hordered⟩

/-- If no span begins at an offset or before it, all is behind the offset. -/
theorem floor_lt (h : o.Fenced eof) (hfull : o.Full) (htiles : Token.Tiles first (o.tokens.map Prod.snd) length)
    (hlength : length ≤ Number.exactBound) (hfloors : offset.Floors floor) (hlt : offset.lt eof.2.fullStart = true)
    (hbehind : ∀ e ∈ o.extents x, ∀ a, e.first = some a → a.le offset = false) : floor < first := by
  have hfirst : first ≤ Number.exactBound := Nat.le_trans htiles.le hlength
  cases o with
  | empty => exact h.elim
  | failure f rest => exact h.elim
  | token id t rest =>
    obtain ⟨rfl, _⟩ := h
    obtain ⟨start, stop, hspans, _⟩ := htiles
    rw [hspans.fullStart, (hfloors first hfirst).2] at hlt
    exact of_decide_eq_true hlt
  | node id t below rest =>
    rw [tokens, List.map_append, Token.Tiles.append] at htiles
    obtain ⟨between, htilesBelow, _⟩ := htiles
    have hnot := hbehind _ List.mem_cons_self _ (start?_eq htilesBelow hfull.1)
    rw [(hfloors first hfirst).1] at hnot
    exact Nat.not_le.mp (of_decide_eq_false hnot)

/-- The last span that begins at an offset or before it is in the same part as the token at the offset. The induction is
on the row of statements: a statement has that token if the next one, or the end of the file, is behind the offset. -/
theorem shares (h : o.Fenced eof) (hfull : o.Full) (htiles : Token.Tiles first (o.tokens.map Prod.snd) length)
    (hlength : length ≤ Number.exactBound) (hfloors : offset.Floors floor) (hlt : offset.lt eof.2.fullStart = true)
    {before after : List Extent} {e : Extent} (hsplit : o.extents x = before ++ e :: after)
    (hbegins : ∃ a, e.first = some a ∧ a.le offset = true)
    (hbehind : ∀ e' ∈ after, ∀ a, e'.first = some a → a.le offset = false) : o.Shares offset e.node := by
  induction o generalizing first before with
  | empty => exact h.elim
  | failure f rest ih => exact h.elim
  | token id t rest ih =>
    obtain ⟨_, rfl⟩ := h
    cases before <;> cases hsplit
  | node id t below rest ihb ih =>
    obtain ⟨hfirst, hbelow, hrest⟩ := hfull
    rw [tokens, List.map_append, Token.Tiles.append] at htiles
    obtain ⟨between, htilesBelow, htilesRest⟩ := htiles
    have hbetween : between ≤ Number.exactBound := Nat.le_trans htilesRest.le hlength
    have hordered : Extent.Ordered first (⟨id, below.start?, rest.bound x⟩ :: below.extents x) between :=
      ⟨first, Nat.le_refl first, start?_eq htilesBelow hfirst, ordered_extents hbelow htilesBelow x⟩
    rw [extents, ← List.cons_append] at hsplit
    rcases split_append hsplit with ⟨more, hhere, rfl⟩ | ⟨before', hlater⟩
    · have he : e ∈ ⟨id, below.start?, rest.bound x⟩ :: below.extents x :=
        hhere ▸ List.mem_append_right _ List.mem_cons_self
      have hfloor := floor_lt (o := rest) h hrest htilesRest hlength hfloors hlt fun e' he' =>
        hbehind e' (List.mem_append_right _ he')
      obtain ⟨found, hfound, hfind⟩ :=
        htilesBelow.exists_find? hbetween hfloors (hordered.le_floor hbetween hfloors he hbegins) hfloor
      refine shares_here ?_ hfound hfind
      rcases List.mem_cons.mp he with rfl | he
      · exact .inl rfl
      · exact .inr (map_node_extents x below ▸ List.mem_map.mpr ⟨e, he, rfl⟩)
    · have he : e ∈ rest.extents x := hlater ▸ List.mem_append_right _ List.mem_cons_self
      have hfloor := (ordered_extents hrest htilesRest x).le_floor hlength hfloors he hbegins
      exact (ih h hrest htilesRest hlater).later (htilesBelow.find?_eq_none hbetween hfloors hfloor)

end Fenced

end Outline

namespace Calc

open Store

variable {s t : Store}

theorem NodeAt.elementOf? {k : NodeKind} {slots : Members Value} {v : Value} (h : NodeAt t k slots v) :
    ∃ id tok, t.elementOf? v = some (.node id tok) := by
  obtain ⟨id, rfl, hnode⟩ := h.node
  exact ⟨id, t.token? id, by rw [Store.elementOf?, if_pos hnode]⟩

/-- Items that are nodes, and behind them one that is a token. -/
theorem fenced_of_unfolds {root id : ObjectId} {items : List Item} {o : Outline} (h : t.Unfolds root items o)
    (slot slot' : Text) (ws : List Value) {w : Value} {tok : Token}
    (hitems : items = ws.map (.value slot) ++ [.value slot' w])
    (hws : ∀ v ∈ ws, ∃ id tok, t.elementOf? v = some (.node id tok)) (hw : t.elementOf? w = some (.token id tok)) :
    o.Fenced (id, tok) := by
  induction ws generalizing items o with
  | nil =>
    subst hitems
    cases h with
    | failure read tail => rw [read_value_eq_ok.mpr hw] at read; cases read
    | node read opened inside tail => rw [read_value_eq_ok.mpr hw] at read; cases read
    | token read tail =>
      rw [read_value_eq_ok.mpr hw] at read
      cases read
      cases tail
      exact ⟨rfl, rfl⟩
  | cons v ws ih =>
    subst hitems
    obtain ⟨⟨id', tok', hv⟩, hws⟩ := List.forall_mem_cons.mp hws
    cases h with
    | failure read tail => rw [read_value_eq_ok.mpr hv] at read; cases read
    | token read tail => rw [read_value_eq_ok.mpr hv] at read; cases read
    | node read opened inside tail =>
      have hrest := ih tail rfl hws
      exact hrest

/-- The tree of a program is a row of statements, and the end-of-file token behind them. -/
theorem Program.IsAt.fenced {p : Program Token} {root : ObjectId} (h : p.IsAt t (.object root)) {o : Outline}
    (ho : t.Outlines root o) : ∃ id, o.Fenced (id, p.endOfFile) := by
  obtain ⟨row, ws, w, hrow, hws, hw, hnode⟩ := h
  obtain ⟨items, hopen, hu⟩ := ho
  obtain ⟨id, rfl, hread⟩ := hw.element
  have hnodes : ∀ v ∈ ws, ∃ id tok, t.elementOf? v = some (.node id tok) := by
    intro v hv
    obtain ⟨st, _, hst⟩ := exists_of_forall₂ hws hv
    obtain ⟨k, slots, hnode⟩ := hst.node
    exact hnode.elementOf?
  have hentries : (t.slotEntries row).map (·.2) = ws := by
    rw [slotEntries, hrow, Option.map_some, Option.getD_some, List.filter_eq_self.mpr]
    · exact Sequence.values_ofList ws
    · intro entry hentry
      have hmem : entry.2 ∈ (Sequence.ofList ws).values := List.mem_map.mpr ⟨entry, hentry, rfl⟩
      rw [Sequence.values_ofList] at hmem
      obtain ⟨c, tok, hc⟩ := hnodes _ hmem
      obtain ⟨heq, _⟩ := isNode_of_elementOf? hc
      rw [heq]
      rfl
  have hlast : (t.slotEntries (.object id)).map (·.2) = [.object id] := by
    rw [slotEntries_of_not_isList hw.single]
    rfl
  rw [items_of_contents hnode.contents] at hopen
  cases hopen
  refine ⟨id, fenced_of_unfolds hu "statements" "endOfFileToken" ws ?_ hnodes hread⟩
  rw [List.flatMap_cons, List.flatMap_cons, List.flatMap_nil, List.append_nil]
  refine congrArg₂ (· ++ ·) ?_ ?_
  · rw [← hentries, List.map_map]
    rfl
  · rw [← List.map_singleton, ← hlast, List.map_map]
    rfl

/-- The end-of-file token of a source, with its number if the source is parsed in a store. -/
def lastToken (s : Store) (source : Text) : ObjectId × Token :=
  (s.size + (lex source).lexemes.length, (lex source).endOfFile.token)

/-- The tree of a source that is parsed in a store. -/
structure Parsed (s : Store) (source : Source) (root : ObjectId) (t : Store) (o : Outline) : Prop where
  run : parseValue (.text source.text) s = (.ok root, t)
  hosts : Hosts t
  isFile : t.isSourceFile root = true
  source_eq : t.source (.object root) = .ok (.text source.text)
  isAt : ((Program.ofLexing (lex source.text)).map Lexeme.token).IsAt t (.object root)
  bears : t.Bears root o
  branch : t.Branch root (lastToken s source.text) root o
  tokens : o.tokens = (((lex source.text).toList.map Lexeme.token).zipIdx s.size).map fun e => (e.2, e.1)
  full : o.Full
  fenced : o.Fenced (lastToken s source.text)

theorem map_fst_zipIdx (ts : List Token) (base : Nat) :
    ((ts.zipIdx base).map fun e => (e.2, e.1)).map Prod.fst = List.range' base ts.length := by
  rw [List.map_map]
  exact List.zipIdx_map_snd base ts

theorem exists_parsed (h : Hosts s) (source : Source) : ∃ root t o, Parsed s source root t o := by
  obtain ⟨root, o, t, hrun, ht, hbears, htokens, hfile, hsource, hbranch⟩ := parse_branch h source
  obtain ⟨root', t', hrun', _, _, hisAt⟩ := parse_isAt h source
  have hparse : parseValue (.text source.text) s = (.ok root, t) := by
    rw [parseValue_text]
    exact hrun
  cases hparse.symm.trans hrun'
  obtain ⟨id, hfenced⟩ := hisAt.fenced hbranch.outlines
  have hnumbers : o.tokens.map Prod.fst = List.range' s.size ((lex source.text).lexemes.length + 1) := by
    rw [htokens, map_fst_zipIdx, Lexing.toList, List.length_map, List.length_append, List.length_singleton]
  rw [hfenced.tokens_eq, List.map_append, List.range'_concat, Nat.one_mul] at hnumbers
  obtain rfl : id = s.size + (lex source.text).lexemes.length := List.singleton_inj.mp (List.append_inj' hnumbers rfl).2
  exact ⟨root, t, o, hparse, ht, hfile, hsource, hisAt, hbears, hbranch, htokens, hbears.full, hfenced⟩

namespace Parsed

variable {source : Source} {root : ObjectId} {o : Outline}

theorem tiles (h : Parsed s source root t o) : Token.Tiles 0 (o.tokens.map Prod.snd) source.text.length := by
  rw [h.tokens]
  exact tiles_tokens source.text s.size

theorem map_snd_tokens (h : Parsed s source root t o) :
    o.tokens.map Prod.snd = (lex source.text).lexemes.map Lexeme.token ++ [(lastToken s source.text).2] := by
  rw [h.tokens, List.map_map]
  refine (List.zipIdx_map_fst s.size _).trans ?_
  rw [Lexing.toList, List.map_append]
  rfl

theorem nodup (h : Parsed s source root t o) : (o.tokens.map Prod.fst).Nodup := by
  rw [h.tokens, map_fst_zipIdx]
  exact List.nodup_range'

/-- The tokens below the statements are those in front of the end of the file. -/
theorem of_part (h : Parsed s source root t o) {p : ObjectId × Outline} (hp : p ∈ o.parts) {e : ObjectId × Token}
    (he : e ∈ p.2.tokens) : e.1 ≠ (lastToken s source.text).1 ∧ ∃ l ∈ (lex source.text).lexemes, e.2 = l.token := by
  have hmem : e ∈ o.parts.flatMap (·.2.tokens) := List.mem_flatMap.mpr ⟨p, hp, he⟩
  have hnodup := h.nodup
  have htokens := h.map_snd_tokens
  rw [h.fenced.tokens_eq, List.map_append] at hnodup htokens
  refine ⟨fun heq => ?_, ?_⟩
  · exact (List.nodup_append.mp hnodup).2.2 e.1 (List.mem_map.mpr ⟨e, hmem, rfl⟩) _ (List.mem_singleton_self _) heq
  · have hlexemes := (List.append_inj' htokens rfl).1
    obtain ⟨l, hl, heq⟩ := List.mem_map.mp (hlexemes ▸ List.mem_map.mpr ⟨e, hmem, rfl⟩ :
      e.2 ∈ (lex source.text).lexemes.map Lexeme.token)
    exact ⟨l, hl, heq.symm⟩

end Parsed

/-- A node at an offset is in the statement that has the token at the offset, and nothing below the node contains the
offset. -/
structure InStatement (t : Store) (root : ObjectId) (eof : ObjectId × Token) (offset : Number) (m : ObjectId) : Prop where
  statement : ∃ found st, t.tokenAt (.object root) (.number offset) = .ok (some found) ∧
    (found.1 ≠ eof.1 ∧ found.2.kind ≠ eof.2.kind) ∧
    (t.ChildNode root st ∧ ∃ statement : Statement Token, statement.IsAt t (.object st)) ∧
    (t.Yields st found.1 ∧ ∀ st', t.ChildNode root st' → t.Yields st' found.1 → st' = st) ∧ t.Reaches st m
  innermost : ∀ d, Relation.TransGen t.ChildNode m d → t.Measures offset d false

/-- A span that is the last one to begin at an offset or before it is that of a node in a statement. -/
theorem Parsed.inStatement {source : Source} {root : ObjectId} {o : Outline} (h : Parsed s source root t o)
    {offset : Number} (hzero : Number.le 0 offset = true) (hlt : offset.lt (lastToken s source.text).2.fullStart = true)
    {before after : List Extent} {e : Extent} (hsplit : o.extents (lastToken s source.text).2.fullStart = before ++ e :: after)
    (hbegins : ∃ a, e.first = some a ∧ a.le offset = true)
    (hbehind : ∀ e' ∈ after, t.Measures offset e'.node false ∧ ∀ a, e'.first = some a → a.le offset = false) :
    InStatement t root (lastToken s source.text) offset e.node := by
  obtain ⟨floor, hfloors⟩ := Number.exists_floors hzero
  have houtline := h.branch.outlines
  have hclean := h.branch.clean
  obtain ⟨p, hp, hnode, found, hfound, hfind⟩ := h.fenced.shares h.full h.tiles source.length_le hfloors hlt hsplit hbegins
    fun e' he' => (hbehind e' he').2
  obtain ⟨hpart, hpartClean⟩ := houtline.of_part hclean hp
  have hchild : t.ChildNode root p.1 := (houtline.childNode_iff hclean).mpr ⟨p.2, hp⟩
  obtain ⟨hne, l, hl, htoken⟩ := h.of_part hp hfound
  have hid : found.1 ∈ p.2.tokens.map Prod.fst := List.mem_map.mpr ⟨found, hfound, rfl⟩
  refine ⟨⟨found, p.1, ?_, ⟨hne, ?_⟩, ⟨hchild, ?_⟩, ⟨(hpart.yields_iff hpartClean).mpr hid, ?_⟩, ?_⟩, ?_⟩
  · rw [houtline.tokenAt hclean, hfind]
  · intro hkind
    rw [htoken] at hkind
    have hend : (lex source.text).endOfFile.kind = .endOfFile := kind_endOfFile_lexFrom ..
    exact (lexes_iff.mpr (rfl : lex source.text = lex source.text)).kind_ne l hl ((Kind.eq_of_id hkind).trans hend)
  · obtain ⟨st, _, hst⟩ := h.isAt.child hchild
    exact ⟨st, hst⟩
  · intro st' hchild' hyields
    obtain ⟨below', hp'⟩ := (houtline.childNode_iff hclean).mp hchild'
    obtain ⟨hpart', hpartClean'⟩ := houtline.of_part hclean hp'
    have heq := Outline.eq_of_part h.nodup hp' hp ((hpart'.yields_iff hpartClean').mp hyields) hid
    exact congrArg Prod.fst heq
  · rcases hnode with heq | hmem
    · rw [heq]
      exact .refl
    · obtain ⟨items, hopen, hu⟩ := hpart
      obtain ⟨tok, hmem⟩ := Outline.mem_nodes.mp hmem
      exact hu.reaches hopen (List.Subset.refl items) hmem
  · intro d hd
    obtain ⟨items, hopen, hu⟩ := houtline
    have hnodes : o.nodes = before.map Extent.node ++ e.node :: after.map Extent.node := by
      rw [← Outline.map_node_extents (lastToken s source.text).2.fullStart, hsplit, List.map_append, List.map_cons]
    obtain ⟨below, hbelow, hsub⟩ := hu.nodes_behind hnodes
    obtain ⟨tok, hmem⟩ := hbelow.mem_elements hd
    obtain ⟨e', he', rfl⟩ := List.mem_map.mp (hsub (Outline.mem_nodes.mpr ⟨tok, hmem⟩))
    exact (hbehind e' he').1

/-- In the tree of every source, there is a node at an offset if and only if the offset is before the end of the file, and
it is in the same statement as the token there. -/
theorem nodeAt_tokenAt (h : Hosts s) (source : Source) : ∃ root t eof,
    parseValue (.text source.text) s = (.ok root, t) ∧ t.EndsWith root eof ∧
    ∀ offset : Number, ∃ found, t.nodeAt (.object root) (.number offset) = .ok found ∧
      (found.isSome = true ↔ Number.le 0 offset = true ∧ offset.lt eof.2.fullStart = true) ∧
      ∀ m ∈ found, InStatement t root eof offset m := by
  obtain ⟨root, t, o, hparsed⟩ := exists_parsed h source
  refine ⟨root, t, lastToken s source.text, hparsed.run, ⟨hparsed.branch.lookup, hparsed.branch.token⟩, fun offset => ?_⟩
  obtain ⟨last, hlast, heof, hordered⟩ := hparsed.fenced.ordered hparsed.full hparsed.tiles
    (lastToken s source.text).2.fullStart
  rcases hparsed.branch.nodeAt_cases hordered heof (Nat.le_trans hlast source.length_le) offset with
    ⟨hnone, hbehind⟩ | ⟨before, e, after, hsome, hsplit, hbegins, ⟨hzero, hlt⟩, hbehind⟩
  · refine ⟨none, hnone, ⟨fun heq => absurd heq Bool.false_ne_true, fun ⟨hzero, hlt⟩ => ?_⟩, fun m hm => by cases hm⟩
    obtain ⟨floor, hfloors⟩ := Number.exists_floors hzero
    have hfloor := hparsed.fenced.floor_lt hparsed.full hparsed.tiles source.length_le hfloors hlt (hbehind hlt)
    exact absurd hfloor (Nat.not_lt_zero floor)
  · refine ⟨some e.node, hsome, ⟨fun _ => ⟨hzero, hlt⟩, fun _ => rfl⟩, fun m hm => ?_⟩
    cases hm
    exact hparsed.inStatement hzero hlt hsplit hbegins hbehind

theorem nodeAt_tokenAt_broken : Hosts start ∧ ∃ root t eof,
    parseValue (.text broken.text) start = (.ok root, t) ∧ t.EndsWith root eof ∧
    ∀ offset : Number, ∃ found, t.nodeAt (.object root) (.number offset) = .ok found ∧
      (found.isSome = true ↔ Number.le 0 offset = true ∧ offset.lt eof.2.fullStart = true) ∧
      ∀ m ∈ found, InStatement t root eof offset m :=
  ⟨hosts_start, nodeAt_tokenAt hosts_start broken⟩

end Calc

end LosslessSyntax
