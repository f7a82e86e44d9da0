import LosslessSyntax.Proofs.Beginnings
import LosslessSyntax.Proofs.Exhausting

/-!
# The token at an offset

If the tokens of a source file tile its source, then the token at an offset is the only one that contains it, there is
one exactly for the offsets in the source, and below any node of the file it is the same one or, if it does not stand
below that node, none (`tokenAt_inverts`).

Nothing else is asked of the store. That the walk over the tokens ends without a failure is enough to know everything
below the file; tokens may be empty, stand in any place, and be nodes as well.
-/

namespace LosslessSyntax

/-! ## Look-ups with one answer at most -/

/-- Where no more than one entry of a list passes a test, a look-up in a part of the list finds it if it is there. -/
theorem find?_of_subset {α : Type} [BEq α] [LawfulBEq α] {p : α → Bool} {as bs : List α} (hsub : as ⊆ bs)
    (honly : ∀ a, bs.find? p = some a ↔ a ∈ bs ∧ p a = true) : as.find? p = (bs.find? p).filter (· ∈ as) := by
  cases hfound : as.find? p with
  | some a =>
    have hmem := List.mem_of_find?_eq_some hfound
    rw [(honly a).mpr ⟨hsub hmem, List.find?_some hfound⟩, Option.filter_some, if_pos (decide_eq_true hmem)]
  | none =>
    rw [List.find?_eq_none] at hfound
    cases hall : bs.find? p with
    | none => rfl
    | some b =>
      have hpasses := ((honly b).mp hall).2
      rw [Option.filter_some, if_neg fun hmem => hfound b (of_decide_eq_true hmem) hpasses]

namespace Token.Tiles

variable {es : List (ObjectId × Token)} {first last : Nat} {offset : Number}

/-- Where tokens tile a stretch, each of them spans a part of it. -/
theorem exists_spans {ts : List Token} (h : Tiles first ts last) {t : Token} (ht : t ∈ ts) :
    ∃ low start high, t.Spans low start high ∧ first ≤ low ∧ high ≤ last := by
  induction ts generalizing first with
  | nil => exact absurd ht List.not_mem_nil
  | cons t' ts ih =>
    obtain ⟨start, stop, hspans, hrest⟩ := h
    rcases List.mem_cons.mp ht with rfl | ht
    · exact ⟨first, start, stop, hspans, Nat.le_refl first, hrest.le⟩
    · obtain ⟨low, start', high, hspans', hlow, hhigh⟩ := ih hrest ht
      have hstop : first ≤ stop := Nat.le_trans hspans.first_le hspans.start_le
      exact ⟨low, start', high, hspans', Nat.le_trans hstop hlow, hhigh⟩

/-- A token that contains an offset has it between the ends of the stretch. -/
theorem floor_of_covers {ts : List Token} (h : Tiles first ts last) (hlast : last ≤ Number.exactBound) {t : Token}
    (ht : t ∈ ts) (hcovers : t.covers offset = true) :
    Number.le 0 offset = true ∧ ∃ floor, offset.Floors floor ∧ first ≤ floor ∧ floor < last := by
  obtain ⟨low, start, high, hspans, hlow, hhigh⟩ := h.exists_spans ht
  have hbound : low ≤ Number.exactBound := by
    have hle := Nat.le_trans hspans.first_le hspans.start_le
    omega
  have hzero : Number.le 0 offset = true := by
    cases hzero : Number.le 0 offset with
    | true => rfl
    | false =>
      rw [Token.covers, hspans.fullStart, Number.ofNat_le_eq_false hzero hbound] at hcovers
      cases hcovers
  obtain ⟨floor, hfloors⟩ := Number.exists_floors hzero
  rw [hspans.covers (Nat.le_trans hhigh hlast) hfloors, Bool.and_eq_true, decide_eq_true_eq, decide_eq_true_eq]
    at hcovers
  exact ⟨hzero, floor, hfloors, by omega, by omega⟩

/-- Among tokens that tile a stretch, the first one that contains an offset is the only one. The induction is on the
tokens: what is behind a token begins where it stops. -/
theorem find?_eq_some_iff (h : Tiles first (es.map Prod.snd) last) (hlast : last ≤ Number.exactBound)
    {e : ObjectId × Token} : (es.find? fun e => e.2.covers offset) = some e ↔ e ∈ es ∧ e.2.covers offset = true := by
  refine ⟨fun hfound => ⟨List.mem_of_find?_eq_some hfound, by simpa using List.find?_some hfound⟩, ?_⟩
  rintro ⟨hmem, hcovers⟩
  induction es generalizing first with
  | nil => exact absurd hmem List.not_mem_nil
  | cons e' es ih =>
    obtain ⟨start, stop, hspans, hrest⟩ := h
    rcases List.mem_cons.mp hmem with rfl | hmem
    · exact List.find?_cons_of_pos hcovers
    · obtain ⟨_, floor, hfloors, hfloor, _⟩ := hrest.floor_of_covers hlast (List.mem_map_of_mem hmem) hcovers
      have hbefore : e'.2.covers offset = false := by
        rw [hspans.covers (Nat.le_trans hrest.le hlast) hfloors, decide_eq_false (by omega : ¬ floor < stop),
          Bool.and_false]
      rw [List.find?_cons_of_neg (by simp [hbefore]), ih hrest hmem]

/-- Among tokens that tile a text from its beginning, one contains an offset if and only if the offset is in the text. -/
theorem isSome_find? (h : Tiles 0 (es.map Prod.snd) last) (hlast : last ≤ Number.exactBound) :
    (es.find? fun e => e.2.covers offset).isSome = true ↔
      Number.le 0 offset = true ∧ offset.lt (.ofNat last) = true := by
  constructor
  · intro hsome
    obtain ⟨e, he⟩ := Option.isSome_iff_exists.mp hsome
    obtain ⟨hmem, hcovers⟩ := (h.find?_eq_some_iff hlast).mp he
    obtain ⟨hzero, floor, hfloors, _, hlt⟩ := h.floor_of_covers hlast (List.mem_map_of_mem hmem) hcovers
    exact ⟨hzero, by rw [(hfloors last hlast).2, decide_eq_true hlt]⟩
  · rintro ⟨hzero, hlt⟩
    obtain ⟨floor, hfloors⟩ := Number.exists_floors hzero
    rw [(hfloors last hlast).2, decide_eq_true_eq] at hlt
    obtain ⟨e, _, he⟩ := h.exists_find? hlast hfloors (Nat.zero_le floor) hlt
    rw [he]
    rfl

end Token.Tiles

namespace Store

variable {s : Store} {root owner n c : ObjectId} {items : List Item} {o : Outline} {es : List Element}

/-! ## Elements below a node -/

/-- What is below a child is below its parent. -/
theorem Unfolds.exists_inside (h : s.Unfolds owner items o) (hlegible : o.Legible) {slot : Text} {value : Value}
    {t : Option Token} (hitem : .value slot value ∈ items) (he : s.elementOf? value = some (.node c t)) :
    ∃ below, s.Outlines c below ∧ below.Legible ∧ below.elements ⊆ o.elements := by
  induction h with
  | empty => exact absurd hitem List.not_mem_nil
  | failure read tail ih => exact hlegible.elim
  | token read tail ih =>
    rcases List.mem_cons.mp hitem with heq | hmem
    · cases heq
      rw [read_value_eq_ok.mpr he] at read
      cases read
    · obtain ⟨below, hbelow, hlegible', hsub⟩ := ih hlegible hmem
      exact ⟨below, hbelow, hlegible', List.subset_cons_of_subset _ hsub⟩
  | @node owner id slot value t items inner below rest read opened inside tail ihb ih =>
    rcases List.mem_cons.mp hitem with heq | hmem
    · cases heq
      rw [read_value_eq_ok.mpr he] at read
      cases read
      exact ⟨below, ⟨inner, opened, inside⟩, hlegible.1,
        List.subset_cons_of_subset _ (List.subset_append_left _ _)⟩
    · obtain ⟨below', hbelow, hlegible', hsub⟩ := ih hlegible.2 hmem
      exact ⟨below', hbelow, hlegible', List.subset_cons_of_subset _ (List.subset_append_of_subset_right _ hsub)⟩

/-- Where everything below a node can be read, so can everything below the nodes there. -/
theorem Outlines.exists_below (h : s.Outlines root o) (hlegible : o.Legible) (hn : s.Reaches root n) :
    ∃ below, s.Outlines n below ∧ below.Legible ∧ below.elements ⊆ o.elements := by
  induction hn with
  | refl => exact ⟨o, h, hlegible, List.Subset.refl _⟩
  | tail _ hc ih =>
    obtain ⟨above, ⟨items, hopen, hu⟩, habove, hsub⟩ := ih
    obtain ⟨items', slot, value, t, hitems, hmem, he⟩ := hc
    cases hopen.symm.trans hitems
    obtain ⟨below, hbelow, hlegible', hsub'⟩ := hu.exists_inside habove hmem he
    exact ⟨below, hbelow, hlegible', List.Subset.trans hsub' hsub⟩

/-- A walk over the tokens below a node hands out what look-ups look at. -/
theorem tokenAt_of_lists (h : Walk.Lists s .tokens (.object n) es) (offset : Number) :
    s.tokenAt (.object n) (.number offset) =
      .ok ((es.filterMap Element.token?).find? fun e => e.2.covers offset) := by
  obtain ⟨o, ho, hlegible, rfl⟩ := Walk.lists_iff_exists.mp h
  rw [Store.tokenAt, ho.findToken_of_legible hlegible, findSomeM?_tokenContains,
    Walk.filterMap_takes fun _ _ htoken => by rw [htoken]; rfl]

/-- A walk over the tokens of a node ends, and then so do those of the nodes below, which hand out nothing else. -/
theorem exists_lists_below (h : Walk.Lists s .tokens (.object root) es) (hn : s.Reaches root n) :
    ∃ ns, Walk.Lists s .tokens (.object n) ns ∧ ns ⊆ es := by
  obtain ⟨o, ho, hlegible, rfl⟩ := Walk.lists_iff_exists.mp h
  obtain ⟨below, hbelow, hlegible', hsub⟩ := ho.exists_below hlegible hn
  refine ⟨_, Walk.lists_iff_exists.mpr ⟨below, hbelow, hlegible', rfl⟩, fun e he => ?_⟩
  obtain ⟨hmem, htakes⟩ := List.mem_filter.mp he
  exact List.mem_filter.mpr ⟨hsub hmem, htakes⟩

/-! ## Files whose tokens tile their source -/

/-- A file with a source, and a walk over its tokens that hands out elements which tile the source. -/
structure TilesSource (s : Store) (root : ObjectId) (source : Source) (es : List Element) : Prop where
  text : s.lookup root "source" = .text source.text
  lists : Walk.Lists s .tokens (.object root) es
  tiles : Token.Tiles 0 ((es.filterMap Element.token?).map Prod.snd) source.text.length

/-- In a file whose tokens tile its source there is a token at an offset if and only if the offset is in the source, and
it is the only one that contains it. Below a node of the file there is the same one, or none if it does not stand there. -/
theorem tokenAt_inverts {source : Source} (h : s.TilesSource root source es) (hn : s.Reaches root n) (offset : Number) :
    ∃ found ns, s.tokenAt (.object root) (.number offset) = .ok found ∧ Walk.Lists s .tokens (.object n) ns ∧
      (found.isSome = true ↔ Number.le 0 offset = true ∧ offset.lt (.ofNat source.text.length) = true) ∧
      (∀ e, found = some e ↔ e ∈ es.filterMap Element.token? ∧ e.2.covers offset = true) ∧
      s.tokenAt (.object n) (.number offset) = .ok (found.filter (· ∈ ns.filterMap Element.token?)) := by
  obtain ⟨ns, hns, hsub⟩ := exists_lists_below h.lists hn
  refine ⟨_, ns, tokenAt_of_lists h.lists offset, hns, h.tiles.isSome_find? source.length_le,
    fun e => h.tiles.find?_eq_some_iff source.length_le, ?_⟩
  rw [tokenAt_of_lists hns, find?_of_subset (List.filterMap_subset _ hsub) fun e =>
    h.tiles.find?_eq_some_iff source.length_le]

end Store

namespace Sample

open Store

/-- The second letter is in the second leaf, and in no token below the first one. -/
theorem tokenAt_inverts_nested :
    nested.TilesSource 25 letters (nestedOutline.tokens.map fun e => .token e.1 e.2) ∧ nested.Reaches 25 22 ∧
    (∃ found ns, nested.tokenAt (.object 25) (.number 1) = .ok found ∧ Walk.Lists nested .tokens (.object 22) ns ∧
      (found.isSome = true ↔ Number.le 0 1 = true ∧ Number.lt 1 (.ofNat letters.text.length) = true) ∧
      (∀ e, found = some e ↔ e ∈ (nestedOutline.tokens.map fun e => Element.token e.1 e.2).filterMap Element.token? ∧
        e.2.covers 1 = true) ∧
      nested.tokenAt (.object 22) (.number 1) = .ok (found.filter (· ∈ ns.filterMap Element.token?))) ∧
    (nested.tokenAt (.object 25) (.number 1)).toOption = some (some (13, ⟨.ofNat 1, 1, 1, 1⟩)) ∧
    (nested.tokenAt (.object 22) (.number 1)).toOption = some none := by
  have htiles : nested.TilesSource 25 letters (nestedOutline.tokens.map fun e => .token e.1 e.2) :=
    ⟨by decide +kernel, outlines_nested.lists_tokens clean_nestedOutline, tiles_nestedOutline⟩
  obtain ⟨items, hopen, hu⟩ := outlines_nested
  have hreaches : nested.Reaches 25 22 := hu.reaches hopen (List.Subset.refl items) List.mem_cons_self
  exact ⟨htiles, hreaches, tokenAt_inverts htiles hreaches 1, by decide +kernel, by decide +kernel⟩

end Sample

end LosslessSyntax
