import LosslessSyntax.Proofs.Texts

/-!
# Widths and leading trivia

The width of a node leaves out the leading trivia of its first child, its text those of its first token. If the tokens of
a source file tile its source, the two agree for a node of the file exactly if first children lead to a token, so that
the node has a position, or there are no leading trivia (`width_trims`). A first child without tokens takes the place of
the one whose trivia would be left out, and the width is then the whole length.
-/

namespace LosslessSyntax

namespace Store

variable {s : Store} {made : List ObjectId} {root m id : ObjectId} {o : Outline}

/-- The widths, the significant text and the leading trivia of a node. -/
structure Measured (s : Store) (v : Value) (full width : Nat) (text trivia : Text) : Prop where
  fullWidth_eq : s.fullWidth v = .ok (.ofNat full)
  width_eq : s.width v = .ok (.ofNat width)
  text_eq : s.nodeText v = .ok text
  trivia_eq : s.leadingTrivia v = .ok (.ofText trivia)

/-- The two widths of a node differ by the length of its leading trivia, and its width is the length of its text, exactly
if it has a position or no leading trivia; otherwise the widths are the same. -/
structure Trims (s : Store) (v : Value) (full width : Nat) (text trivia : Text) : Prop extends
    s.Measured v full width text trivia where
  whole : full = text.length + trivia.length
  difference : full = width + trivia.length ↔ (∃ a, s.fullStart v = .ok a) ∨ trivia = []
  trimmed : width = text.length ↔ (∃ a, s.fullStart v = .ok a) ∨ trivia = []
  untrimmed : (∀ a, s.fullStart v ≠ .ok a) → width = full

/-- A node has a position exactly if first children lead to a token. -/
theorem Outlines.exists_fullStart (h : s.Outlines id o) (hclean : o.Clean) :
    (∃ a, s.fullStart (.object id) = .ok a) ↔ ∃ e, o.first? = some e := by
  constructor
  · rintro ⟨a, ha⟩
    obtain ⟨e, he, _⟩ := (h.edge Token.fullStart hclean.legible).mp ha
    exact ⟨e, he⟩
  · rintro ⟨e, he⟩
    exact ⟨_, (h.edge Token.fullStart hclean.legible).mpr ⟨e, he, rfl⟩⟩

namespace Stretch

variable {source : Text} {first last : Nat} (h : s.Stretch id o source first last)
include h

/-- Where first children lead to a token, the trivia of that token are left out of the width. -/
theorem measured_of_first? {e : ObjectId × Token} (he : o.first? = some e) : ∃ start, first ≤ start ∧ start ≤ last ∧
    s.Measured (.object id) (last - first) (last - start) ((source.drop start).take (last - start))
      ((source.drop first).take (start - first)) := by
  obtain ⟨start, stop, rest, htokens, hspans, hrest, hwidth⟩ := h.exists_width he
  obtain ⟨htext, htrivia⟩ := h.text_trivia htokens hspans hrest
  exact ⟨start, hspans.first_le, Nat.le_trans hspans.start_le hrest.le, h.fullWidth, hwidth, htext, htrivia⟩

/-- Where they do not, nothing is left out. -/
theorem width_of_first?_eq_none (hnone : o.first? = none) : s.width (.object id) = .ok (.ofNat (last - first)) := by
  obtain ⟨items, hopen, hu⟩ := h.outlines
  exact h.width_of_widthAt (hu.width_of_first?_eq_none hopen h.clean hu.depth_le h.tiles
    (Nat.le_trans h.last_le h.exact) hnone)

/-- If there is a token all the same, its trivia are left out of the text only. -/
theorem measured_of_cons (hnone : o.first? = none) {t : ObjectId × Token} {rest : List (ObjectId × Token)}
    (htokens : o.tokens = t :: rest) : ∃ start, first ≤ start ∧ start ≤ last ∧
      s.Measured (.object id) (last - first) (last - first) ((source.drop start).take (last - start))
        ((source.drop first).take (start - first)) := by
  have htiles := h.tiles
  rw [htokens] at htiles
  obtain ⟨start, stop, hspans, hrest⟩ := htiles
  obtain ⟨htext, htrivia⟩ := h.text_trivia htokens hspans hrest
  exact ⟨start, hspans.first_le, Nat.le_trans hspans.start_le hrest.le, h.fullWidth, h.width_of_first?_eq_none hnone,
    htext, htrivia⟩

/-- A node without tokens has neither text nor width. -/
theorem measured_of_nil (hnone : o.first? = none) (htokens : o.tokens = []) : s.Measured (.object id) 0 0 [] [] := by
  have hfull := h.fullWidth
  have hwidth := h.width_of_first?_eq_none hnone
  have htiles := h.tiles
  rw [htokens] at htiles
  cases htiles
  rw [Nat.sub_self] at hfull hwidth
  refine ⟨hfull, hwidth, ?_, ?_⟩
  · rw [Store.nodeText, h.source_eq, Attempt.ok_bind, Store.tokenTexts, h.outlines.foldElements h.clean,
      Attempt.foldlM_elim, Outline.filterMap_elements h.clean, htokens]
    rfl
  · rw [Store.leadingTrivia, h.outlines.firstToken h.clean, htokens]
    rfl

/-- The cases are whether first children lead to a token, and if not, whether there is one at all. -/
theorem exists_trims : ∃ full width text trivia, s.Trims (.object id) full width text trivia := by
  have hlast := h.last_le
  have hposition := h.outlines.exists_fullStart h.clean
  cases hfirst : o.first? with
  | some e =>
    obtain ⟨start, hle, hle', hmeasured⟩ := h.measured_of_first? hfirst
    have hstarts := hposition.mpr ⟨e, hfirst⟩
    have htext := Text.length_take_drop (t := source) (i := start) hlast
    have htrivia := Text.length_take_drop (t := source) (i := first) (Nat.le_trans hle' hlast)
    refine ⟨_, _, _, _, hmeasured, ?_, iff_of_true ?_ (.inl hstarts), iff_of_true htext.symm (.inl hstarts), fun hnone => ?_⟩
    · omega
    · omega
    · obtain ⟨a, ha⟩ := hstarts
      exact absurd ha (hnone a)
  | none =>
    have hnone : ¬ ∃ a, s.fullStart (.object id) = .ok a := fun hstarts => by
      obtain ⟨e, he⟩ := hposition.mp hstarts
      rw [hfirst] at he
      cases he
    cases htokens : o.tokens with
    | nil =>
      exact ⟨_, _, _, _, h.measured_of_nil hfirst htokens, rfl, iff_of_true rfl (.inr rfl), iff_of_true rfl (.inr rfl),
        fun _ => rfl⟩
    | cons t rest =>
      obtain ⟨start, hle, hle', hmeasured⟩ := h.measured_of_cons hfirst htokens
      have htext := Text.length_take_drop (t := source) (i := start) hlast
      have htrivia := Text.length_take_drop (t := source) (i := first) (Nat.le_trans hle' hlast)
      refine ⟨_, _, _, _, hmeasured, ?_, ?_, ?_, fun _ => rfl⟩
      · omega
      · rw [or_iff_right hnone, ← List.length_eq_zero_iff]
        omega
      · rw [or_iff_right hnone, ← List.length_eq_zero_iff]
        omega

end Stretch

/-- After every run of harmless and genuine calls, the widths of all nodes of a source file whose tokens tile its source
differ by the leading trivia, apart from those without a position. -/
theorem width_trims (h : Reached (fun s made c => c.Harmless s ∧ c.Genuine s made) s made) {source : Text}
    (hm : s.Covered made root source m) : ∃ full width text trivia, s.Trims (.object m) full width text trivia := by
  obtain ⟨o, first, last, hstretch⟩ := hm.exists_stretch (h.sound And.left) (h.rooted id)
  exact hstretch.exists_trims

end Store

namespace Sample

open Store

/-! ### A leaf without tokens -/

/-- Makes a leaf of nothing. -/
def bareCall : Call := .node leaf (.ofMembers [])

/-- A letter after a blank. -/
def padding : Source := ⟨" a", by decide⟩

/-- A leaf of a letter after a blank, behind a leaf of nothing, and their document. -/
def padded : Store :=
  ((documentCall padding [21, 19] 15).run
    (bareCall.run ((leafCall 17).run (stock.addAll [.token ⟨.ofNat 1, 0, 1, 2⟩])).2).2).2

/-- The outline of that document. -/
def paddedOutline : Outline :=
  .node 21 none .empty
    (.node 19 none (.token 17 ⟨.ofNat 1, 0, 1, 2⟩ .empty) (.token 15 ⟨.ofNat 0, 2, 2, 0⟩ .empty))

theorem reached_padded : Reached (fun s made c => c.Regular s made) padded [24, 21, 19] := by
  have hstock := (reached_stock fun s _ c => c.Harmless s).sound id
  have hadded : Reached (fun s made c => c.Regular s made) (stock.addAll [.token ⟨.ofNat 1, 0, 1, 2⟩]) [] := by
    refine .between (reached_stock _) (untouched_addAll hstock.grounded hstock.closed fun o ho => ?_)
    rw [List.mem_singleton.mp ho]
    exact Object.refers_of_members nofun (by decide)
  exact hadded.runAll [leafCall 17, bareCall, documentCall padding [21, 19] 15]
    (.cons rfl (.cons rfl (.cons rfl .nil))) (by decide +kernel)

theorem clean_paddedOutline : paddedOutline.Clean := ⟨rfl, trivial, rfl, trivial, trivial⟩

theorem spans_letter : Token.Spans ⟨.ofNat 1, 0, 1, 2⟩ 0 1 2 := ⟨by decide, by decide, rfl, rfl, rfl⟩

theorem tiles_end : Token.Tiles 2 [⟨.ofNat 0, 2, 2, 0⟩] 2 := ⟨2, 2, ⟨by decide, by decide, rfl, rfl, rfl⟩, rfl⟩

theorem covered_padded {m : ObjectId} (hm : 24 = m ∨ .node m none ∈ paddedOutline.elements) :
    padded.Covered [24, 21, 19] 24 " a" m :=
  covered_of_outline? (o := paddedOutline) 3 clean_paddedOutline ⟨1, 2, spans_letter, tiles_end⟩ (by decide +kernel) hm

/-- The leaf with the blank. -/
theorem width_trims_padded : Reached (fun s made c => c.Harmless s ∧ c.Genuine s made) padded [24, 21, 19] ∧
    padded.Covered [24, 21, 19] 24 " a" 19 ∧ (padded.fullStart (.object 19)).toOption = some 0 ∧
    ∃ full width text trivia, padded.Trims (.object 19) full width text trivia := by
  have hreached : Reached (fun s made c => c.Harmless s ∧ c.Genuine s made) padded [24, 21, 19] :=
    reached_padded.mono fun _ _ _ h => ⟨h.harmless, h.genuine⟩
  have hcovered : padded.Covered [24, 21, 19] 24 " a" 19 := covered_padded (by decide)
  exact ⟨hreached, hcovered, by decide +kernel, width_trims hreached hcovered⟩

/-- The width of a document with a leaf of nothing in front counts the blank. -/
theorem measured_of_outline? {s : Store} {root : ObjectId} (depth : Nat)
    (h : s.outline? depth root = some paddedOutline ∧ s.isNode root = true ∧
      (s.source (.object root)).toOption = some (.text " a")) : s.Measured (.object root) 2 2 "a" " " := by
  obtain ⟨houtline, hnode, hsource⟩ := h
  have hstretch : s.Stretch root paddedOutline " a" 0 2 :=
    { outlines := outlines_of_outline? houtline
      clean := clean_paddedOutline
      isNode := hnode
      source_eq := Attempt.eq_ok hsource
      exact := by decide
      tiles := ⟨1, 2, spans_letter, tiles_end⟩
      last_le := by decide }
  obtain ⟨htext, htrivia⟩ := hstretch.text_trivia rfl spans_letter tiles_end
  exact ⟨hstretch.fullWidth, hstretch.width_of_first?_eq_none rfl, htext, htrivia⟩

/-! ### Calls that are not harmless or not genuine -/

/-- The nested leaves, an object that extends the outer one, and a document of that object with an empty source. -/
def blanked : Store :=
  ((documentCall ⟨"", by decide⟩ [26] 27).run ((extend nested 22).addAll [.token ⟨.ofNat 0, 0, 0, 0⟩])).2

/-- Once trivia are trimmed, a node with a position and an empty text has the width 0. -/
theorem not_trims_of_width {s : Store} {v : Value} {a : Number} {b : Value}
    (h : (s.fullStart v).toOption = some a ∧ (s.nodeText v).toOption = some [] ∧
      (s.width v).toOption = some b ∧ Value.ofNat 0 ≠ b) :
    ¬ ∃ full width text trivia, s.Trims v full width text trivia := by
  obtain ⟨hstart, htext, hwidth, hne⟩ := h
  rintro ⟨full, width, text, trivia, htrims⟩
  rw [htrims.text_eq] at htext
  cases htext
  rw [htrims.width_eq, htrims.trimmed.mpr (.inl ⟨a, Attempt.eq_ok hstart⟩)] at hwidth
  exact hne (Option.some.inj hwidth)

theorem not_trims_of_nodeText {s : Store} {v : Value} (h : (s.nodeText v).toOption = none) :
    ¬ ∃ full width text trivia, s.Trims v full width text trivia := by
  rintro ⟨full, width, text, trivia, htrims⟩
  rw [htrims.text_eq] at h
  cases h

/-- The width of a node without a position counts its leading trivia. Nor can one of the two conditions be left out: with a
second document of an object that extends a node, the text of the inner leaf is cut from the source of that document; with
a slot that is set through an error, the leaf has no text. -/
theorem width_untrimmed_padded :
    (Reached (fun s made c => c.Regular s made) padded [24, 21, 19] ∧ padded.Covered [24, 21, 19] 24 " a" 24 ∧
      ∃ full width text trivia, padded.Measured (.object 24) full width text trivia ∧
        full ≠ width + trivia.length ∧ width ≠ text.length) ∧
    (Reached (fun s _ c => c.Harmless s) blanked [30, 25, 22, 20, 18] ∧
      blanked.Covered [30, 25, 22, 20, 18] 25 "ab" 18 ∧
      ¬ ∃ full width text trivia, blanked.Trims (.object 18) full width text trivia) ∧
    Reached (fun s made c => c.Genuine s made) misplaced [23, 20, 18] ∧ misplaced.Covered [23, 20, 18] 23 "ab" 18 ∧
      ¬ ∃ full width text trivia, misplaced.Trims (.object 18) full width text trivia := by
  have hblanked : Reached (fun s _ c => c.Harmless s) blanked [30, 25, 22, 20, 18] :=
    (unshadowed_extend_nested.mono fun _ _ _ => And.left).runAll [documentCall ⟨"", by decide⟩ [26] 27]
      (.cons rfl .nil) (by decide +kernel)
  have hmeasured : padded.Measured (.object 24) 2 2 "a" " " := measured_of_outline? 3 (by decide +kernel)
  refine ⟨⟨reached_padded, covered_padded (.inl rfl), _, _, _, _, hmeasured, by decide, by decide⟩,
    ⟨hblanked, ?_, ?_⟩, reached_misplaced, ?_, not_trims_of_nodeText (by decide +kernel)⟩
  · exact covered_of_outline? 3 clean_nestedOutline tiles_nestedOutline (by decide +kernel) (.inr (by decide))
  · -- The inner leaf has a position, but its text is cut from the empty source.
    exact not_trims_of_width (a := 0) (b := .ofNat 1) (by decide +kernel)
  · exact covered_of_outline? 3 clean_misplacedOutline tiles_misplacedOutline (by decide +kernel) (.inr (by decide))

end Sample

end LosslessSyntax
