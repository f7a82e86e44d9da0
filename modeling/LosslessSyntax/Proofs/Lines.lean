import LosslessSyntax.Proofs.Tiling
import LosslessSyntax.Text.Lines

/-!
# Offsets and positions

An offset of a text is on the line that starts last at it or before it (`Text.LineAt`). Behind that start there is no break
unit before the offset, unless the offset is between the two units of one break (`Text.Splits`): then the position is that
of the offset in front of the break. Going to the position of an offset and back therefore gives the offset itself, or the
one in front of the break (`Text.offsetAt_positionAt`), and later offsets have later positions (`Text.positionAt_mono`).
-/

namespace LosslessSyntax

/-- A position is at another one or before it: on an earlier line, or on the same one and not behind. -/
def Position.AtMost (p q : Position) : Prop :=
  p.line.lt q.line = true ∨ p.line = q.line ∧ p.character.le q.character = true

namespace Text

variable {t : Text} {i : Nat}

/-! ## Line starts -/

/-- A line break ends at an offset. -/
def Breaks (t : Text) (i : Nat) : Prop :=
  0 < i ∧ (t[i - 1]? = some lineFeed ∨ t[i - 1]? = some carriageReturn ∧ t[i]? ≠ some lineFeed)

theorem breaks_cons {u : UInt16} {rest : Text} :
    Breaks (u :: rest) (i + 1) ↔ i = 0 ∧ (u = lineFeed ∨ u = carriageReturn ∧ rest.head? ≠ some lineFeed) ∨
      Breaks rest i := by
  cases i with
  | zero => simp [Breaks, List.head?_eq_getElem?]
  | succ i => simp [Breaks]

theorem breakEnds_bounds (offset : Nat) (t : Text) : ∀ e ∈ breakEnds offset t, offset < e ∧ e ≤ offset + t.length := by
  induction t generalizing offset with
  | nil => exact fun e he => absurd he List.not_mem_nil
  | cons u rest ih =>
    have hrest : ∀ e ∈ breakEnds (offset + 1) rest, offset < e ∧ e ≤ offset + (u :: rest).length := by
      intro e he
      obtain ⟨hlt, hle⟩ := ih (offset + 1) e he
      rw [List.length_cons]
      omega
    rw [breakEnds]
    split
    · refine List.forall_mem_cons.mpr ⟨?_, hrest⟩
      rw [List.length_cons]
      omega
    · exact hrest

theorem mem_breakEnds (offset : Nat) (t : Text) : offset + i ∈ breakEnds offset t ↔ t.Breaks i := by
  induction t generalizing offset i with
  | nil => simp [breakEnds, Breaks]
  | cons u rest ih =>
    cases i with
    | zero => exact iff_of_false (fun h => Nat.lt_irrefl _ (breakEnds_bounds _ _ _ h).1) fun h => Nat.lt_irrefl 0 h.1
    | succ i =>
      have hsum : offset + (i + 1) = offset + 1 + i := by omega
      rw [breaks_cons, breakEnds, hsum]
      split
      · rename_i hbreak
        rw [List.mem_cons, ih, Nat.add_eq_left]
        exact or_congr_left ⟨fun hi => ⟨hi, hbreak⟩, And.left⟩
      · rename_i hno
        rw [ih]
        exact ⟨.inr, fun h => h.resolve_left fun ⟨_, hbreak⟩ => hno hbreak⟩

theorem pairwise_breakEnds (offset : Nat) (t : Text) : (breakEnds offset t).Pairwise (· < ·) := by
  induction t generalizing offset with
  | nil => exact .nil
  | cons u rest ih =>
    rw [breakEnds]
    split
    · exact List.pairwise_cons.mpr ⟨fun e he => (breakEnds_bounds _ _ e he).1, ih _⟩
    · exact ih _

theorem length_breakEnds_le (offset : Nat) (t : Text) : (breakEnds offset t).length ≤ t.length := by
  induction t generalizing offset with
  | nil => exact Nat.le_refl 0
  | cons u rest ih =>
    rw [breakEnds]
    split
    · exact Nat.succ_le_succ (ih _)
    · exact Nat.le_succ_of_le (ih _)

theorem mem_lineStarts : i ∈ t.lineStarts ↔ i = 0 ∨ t.Breaks i := by
  rw [lineStarts, List.mem_cons]
  refine or_congr_right ?_
  have hmem := mem_breakEnds (i := i) 0 t
  rwa [Nat.zero_add] at hmem

theorem pairwise_lineStarts (t : Text) : t.lineStarts.Pairwise (· < ·) :=
  List.pairwise_cons.mpr ⟨fun e he => (breakEnds_bounds _ _ e he).1, pairwise_breakEnds 0 t⟩

theorem le_length_of_mem_lineStarts (h : i ∈ t.lineStarts) : i ≤ t.length := by
  rcases List.mem_cons.mp h with rfl | h
  · exact Nat.zero_le _
  · have hle := (breakEnds_bounds 0 t i h).2
    rwa [Nat.zero_add] at hle

/-! ## Lines of offsets -/

/-- An offset is on a line: the line starts at the offset or before it, and the next one does not. -/
structure LineAt (t : Text) (i line start : Nat) : Prop where
  start_eq : t.lineStarts[line]? = some start
  start_le : start ≤ i
  lt_next : ∀ next, t.lineStarts[line + 1]? = some next → i < next

/-- Up to where a condition holds, a list ends with the last element for which it does. -/
theorem getElem?_takeWhile {p : Nat → Bool} {a : Nat} (ha : p a = true) (l : List Nat) :
    ∃ last, (a :: l)[(l.takeWhile p).length]? = some last ∧ (a :: l.takeWhile p).getLastD 0 = last ∧ p last = true ∧
      ∀ next, (a :: l)[(l.takeWhile p).length + 1]? = some next → p next = false := by
  induction l generalizing a with
  | nil => exact ⟨a, rfl, rfl, ha, fun next hnext => by cases hnext⟩
  | cons b l ih =>
    cases hb : p b with
    | true =>
      rw [List.takeWhile_cons_of_pos hb]
      exact ih hb
    | false =>
      rw [List.takeWhile_cons_of_neg (ne_true_of_eq_false hb)]
      refine ⟨a, rfl, rfl, ha, fun next hnext => ?_⟩
      cases hnext
      exact hb

namespace LineAt

variable {j line line' start start' : Nat}

theorem line_le (h : t.LineAt i line start) : line ≤ t.length := by
  obtain ⟨hlt, _⟩ := List.getElem?_eq_some_iff.mp h.start_eq
  have hlength := length_breakEnds_le 0 t
  rw [lineStarts, List.length_cons] at hlt
  omega

theorem mem (h : t.LineAt i line start) : start ∈ t.lineStarts := List.mem_of_getElem? h.start_eq

/-- No later line starts at the offset or before it. -/
theorem le_of_mem (h : t.LineAt i line start) (hj : j ∈ t.lineStarts) (hle : j ≤ i) : j ≤ start := by
  obtain ⟨n, hn, rfl⟩ := List.mem_iff_getElem.mp hj
  obtain ⟨hline, rfl⟩ := List.getElem?_eq_some_iff.mp h.start_eq
  have hsorted := List.pairwise_iff_getElem.mp (pairwise_lineStarts t)
  rcases Nat.lt_trichotomy n line with hlt | rfl | hgt
  · exact Nat.le_of_lt (hsorted n line hn hline hlt)
  · exact Nat.le_refl _
  · have hnext : line + 1 < t.lineStarts.length := by omega
    have hbehind := h.lt_next _ (List.getElem?_eq_getElem hnext)
    rcases Nat.eq_or_lt_of_le hgt with rfl | hgt
    · exact absurd hle (Nat.not_le.mpr hbehind)
    · exact absurd (hsorted _ n hnext hn hgt) (by omega)

/-- The only break unit behind the start of the line and before the offset is the first one of a break that the offset
splits. -/
theorem eq_of_breakUnit (h : t.LineAt i line start) (hstart : start ≤ j) (hj : j < i) {u : UInt16} (hu : t[j]? = some u)
    (hbreak : isBreakUnit u = true) : j + 1 = i ∧ u = carriageReturn ∧ t[i]? = some lineFeed := by
  have hno : ∀ k, start < k → k ≤ i → ¬ t.Breaks k := fun k hk hki hbreaks =>
    absurd (h.le_of_mem (mem_lineStarts.mpr (.inr hbreaks)) hki) (Nat.not_le.mpr hk)
  have hfeed : ∀ k, start ≤ k → k < i → t[k]? ≠ some lineFeed := fun k hk hki hget =>
    hno (k + 1) (by omega) (by omega) ⟨Nat.succ_pos k, .inl hget⟩
  rw [isBreakUnit, Bool.or_eq_true, beq_iff_eq, beq_iff_eq] at hbreak
  rcases hbreak with rfl | rfl
  · exact absurd hu (hfeed j hstart hj)
  · have hnext : t[j + 1]? = some lineFeed := by
      refine Decidable.byContradiction fun hne => ?_
      exact hno (j + 1) (by omega) (by omega) ⟨Nat.succ_pos j, .inr ⟨hu, hne⟩⟩
    have hi : j + 1 = i := by
      refine Decidable.byContradiction fun hne => ?_
      exact hfeed (j + 1) (by omega) (by omega) hnext
    exact ⟨hi, rfl, hi ▸ hnext⟩

end LineAt

/-! ## Offsets in line breaks -/

/-- An offset is between the two units of a line break. -/
def Splits (t : Text) (i : Nat) : Prop := 0 < i ∧ t[i - 1]? = some carriageReturn ∧ t[i]? = some lineFeed

instance (t : Text) (i : Nat) : Decidable (t.Splits i) := inferInstanceAs (Decidable (_ ∧ _ ∧ _))

/-- An offset, moved to the front of a line break that it splits. -/
def settle (t : Text) (i : Nat) : Nat := if t.Splits i then i - 1 else i

theorem settle_le (t : Text) (i : Nat) : t.settle i ≤ i := by
  rw [settle]
  split <;> omega

theorem settle_mono (t : Text) {i j : Nat} (h : i ≤ j) : t.settle i ≤ t.settle j := by
  rcases Nat.eq_or_lt_of_le h with rfl | hlt
  · exact Nat.le_refl _
  · have hi := t.settle_le i
    have hj : j - 1 ≤ t.settle j := by
      rw [settle]
      split <;> omega
    omega

/-- An offset that splits a break is not the start of a line. -/
theorem LineAt.start_lt {line start : Nat} (h : t.LineAt i line start) (hsplits : t.Splits i) : start < i := by
  obtain ⟨hpos, hreturn, hfeed⟩ := hsplits
  refine Nat.lt_of_le_of_ne h.start_le ?_
  rintro rfl
  rcases mem_lineStarts.mp h.mem with rfl | ⟨_, hbreak | ⟨_, hno⟩⟩
  · exact Nat.lt_irrefl 0 hpos
  · rw [hreturn] at hbreak
    exact absurd (Option.some.inj hbreak) (by decide)
  · exact hno hfeed

theorem LineAt.start_le_settle {line start : Nat} (h : t.LineAt i line start) : start ≤ t.settle i := by
  rw [settle]
  split
  · rename_i hsplits
    exact Nat.le_sub_one_of_lt (h.start_lt hsplits)
  · exact h.start_le

/-! ## Moving back over breaks -/

theorem unitAt?_ofNat (t : Text) (h : i ≤ Number.exactBound) : t.unitAt? (.ofNat i) = t[i]? := by
  rw [Number.ofNat_eq h, unitAt?]
  simp only [Number.truncate_natCast]
  rw [if_neg (by omega), Int.toNat_natCast]

/-- Behind the start of a line and a unit that is no break unit, an offset stays. -/
theorem beforeBreak_eq_self {start : Nat} (hi : i ≤ Number.exactBound) (hstart : start ≤ i)
    (hclear : start < i → ∀ u, t[i - 1]? = some u → isBreakUnit u = false) (steps : Nat) :
    t.beforeBreak (.ofNat start) steps (.ofNat i) = .ofNat i := by
  cases steps with
  | zero => rfl
  | succ steps =>
    rw [beforeBreak, Number.lt_ofNat (Nat.le_trans hstart hi) hi]
    refine if_neg fun hand => ?_
    obtain ⟨hlt, hany⟩ := Bool.and_eq_true_iff.mp hand
    have hlt := of_decide_eq_true hlt
    have hone : Number.ofNat i - 1 = .ofNat (i - 1) := Number.sub_ofNat hi (Nat.one_le_of_lt hlt)
    rw [hone, unitAt?_ofNat t (Nat.le_trans (Nat.sub_le i 1) hi)] at hany
    obtain ⟨u, hu, hbreak⟩ := (Option.any_eq_true _ _).mp hany
    rw [hclear hlt u hu] at hbreak
    cases hbreak

namespace LineAt

variable {line start : Nat}

/-- The offset in front of a break that is split has no break unit before it on its line. -/
theorem clear_settle (h : t.LineAt i line start) (hlt : start < t.settle i) (u : UInt16)
    (hu : t[t.settle i - 1]? = some u) : isBreakUnit u = false := by
  refine Bool.eq_false_iff.mpr fun hbreak => ?_
  have hle := t.settle_le i
  obtain ⟨hi, rfl, hfeed⟩ := h.eq_of_breakUnit (Nat.le_sub_one_of_lt hlt) (by omega) hu hbreak
  have hsettle : t.settle i = i := by omega
  have hsplits : t.Splits i := ⟨by omega, hsettle ▸ hu, hfeed⟩
  rw [settle, if_pos hsplits] at hsettle
  have := hsplits.1
  omega

theorem beforeBreak_settle (h : t.LineAt i line start) (hi : i ≤ Number.exactBound) (steps : Nat) :
    t.beforeBreak (.ofNat start) steps (.ofNat (t.settle i)) = .ofNat (t.settle i) :=
  beforeBreak_eq_self (Nat.le_trans (t.settle_le i) hi) h.start_le_settle h.clear_settle steps

theorem beforeBreak (h : t.LineAt i line start) (hi : i ≤ Number.exactBound) (steps : Nat) :
    t.beforeBreak (.ofNat start) (steps + 1) (.ofNat i) = .ofNat (t.settle i) := by
  rcases Decidable.em (t.Splits i) with hsplits | hsplits
  · have hlt := h.start_lt hsplits
    have hone : Number.ofNat i - 1 = .ofNat (i - 1) := Number.sub_ofNat hi hsplits.1
    have hany : (t.unitAt? (.ofNat (i - 1))).any isBreakUnit = true := by
      rw [unitAt?_ofNat t (Nat.le_trans (Nat.sub_le i 1) hi), hsplits.2.1]
      rfl
    have hsettle : t.settle i = i - 1 := if_pos hsplits
    rw [Text.beforeBreak, Number.lt_ofNat (Nat.le_trans h.start_le hi) hi, decide_eq_true hlt, hone, hany,
      Bool.and_self, if_pos rfl, ← hsettle, h.beforeBreak_settle hi]
  · have hsettle : t.settle i = i := if_neg hsplits
    have hstays := h.beforeBreak_settle hi (steps + 1)
    rw [hsettle] at hstays ⊢
    exact hstays

end LineAt

/-! ## Positions -/

/-- The position of an offset is on its line. -/
theorem exists_positionAt (hlength : t.length ≤ Number.exactBound) (hi : i ≤ t.length) : ∃ line start,
    t.LineAt i line start ∧ t.positionAt (.ofNat i) = ⟨.ofNat line, .ofNat (t.settle i - start)⟩ := by
  have hiBound := Nat.le_trans hi hlength
  have hclamped : ((Number.ofNat i).least (.ofNat t.length)).greatest 0 = .ofNat i := by
    rw [Number.least_ofNat hiBound hlength, Nat.min_eq_left hi, Number.greatest_ofNat_zero hiBound]
  have hbefore : (t.lineStarts.takeWhile fun start => !(Number.ofNat i).lt (.ofNat start)) =
      0 :: (breakEnds 0 t).takeWhile fun start => decide (start ≤ i) := by
    have hcongr : ∀ l : List Nat, (∀ e ∈ l, e ≤ t.length) →
        (l.takeWhile fun start => !(Number.ofNat i).lt (.ofNat start)) = l.takeWhile fun start => decide (start ≤ i) := by
      intro l hl
      induction l with
      | nil => rfl
      | cons e l ih =>
        obtain ⟨he, hl⟩ := List.forall_mem_cons.mp hl
        rw [List.takeWhile_cons, List.takeWhile_cons, Number.lt_ofNat hiBound (Nat.le_trans he hlength), ih hl]
        simp
    rw [hcongr _ fun e => le_length_of_mem_lineStarts, lineStarts, List.takeWhile_cons, decide_eq_true (Nat.zero_le i),
      if_pos rfl]
  obtain ⟨start, hstart, hlast, hle, hnext⟩ := getElem?_takeWhile (p := fun start => decide (start ≤ i))
    (decide_eq_true (Nat.zero_le i)) (breakEnds 0 t)
  have hline : t.LineAt i _ start := ⟨hstart, of_decide_eq_true hle, fun next h =>
    Nat.not_le.mp (of_decide_eq_false (hnext next h))⟩
  refine ⟨_, start, hline, ?_⟩
  simp only [positionAt, hclamped, hbefore, hlast, List.length_cons, Nat.add_sub_cancel]
  rw [hline.beforeBreak hiBound, Number.sub_ofNat (Nat.le_trans (t.settle_le i) hiBound) hline.start_le_settle]

/-- There are as many lines before a line as units before its start, at most. -/
theorem LineAt.line_le_start {line start : Nat} (h : t.LineAt i line start) : line ≤ start := by
  have hall : ∀ n e : Nat, t.lineStarts[n]? = some e → n ≤ e := by
    intro n
    induction n with
    | zero => exact fun e _ => Nat.zero_le e
    | succ n ih =>
      intro e he
      obtain ⟨hlt, rfl⟩ := List.getElem?_eq_some_iff.mp he
      have hprevious := ih _ (List.getElem?_eq_getElem (Nat.lt_of_succ_lt hlt))
      have hsorted := List.pairwise_iff_getElem.mp (pairwise_lineStarts t) n (n + 1) (Nat.lt_of_succ_lt hlt) hlt
        (Nat.lt_succ_self n)
      omega
  exact hall line start h.start_eq

/-- The number of lines can be beyond what is exact. It is then rounded to that of the last line, which is empty. -/
theorem LineAt.settle_of_count_le {line start : Nat} (h : t.LineAt i line start)
    (hlength : t.length ≤ Number.exactBound) (hi : i ≤ t.length)
    (hcount : (Number.ofNat t.lineStarts.length).le (.ofNat line) = true) : t.settle i = t.length := by
  obtain ⟨hlt, _⟩ := List.getElem?_eq_some_iff.mp h.start_eq
  have hline := Nat.le_trans h.line_le hlength
  have hstarts : t.lineStarts.length ≤ t.length + 1 := Nat.succ_le_succ (length_breakEnds_le 0 t)
  rcases Nat.lt_or_ge Number.exactBound t.lineStarts.length with hgt | hle
  · have hexact : t.lineStarts.length = Number.exactBound + 1 := by omega
    have hround : Number.ofNat (Number.exactBound + 1) = .ofNat Number.exactBound := by decide +kernel
    rw [hexact, hround, Number.le_ofNat (Nat.le_refl _) hline] at hcount
    have hlast := of_decide_eq_true hcount
    have hstart := h.line_le_start
    have hsettle := h.start_le_settle
    have hle := t.settle_le i
    omega
  · rw [Number.le_ofNat hle hline] at hcount
    exact absurd (of_decide_eq_true hcount) (Nat.not_le.mpr hlt)

/-- The next line starts behind the offset, or there is none and the text ends there. -/
theorem LineAt.le_next (h : t.LineAt i line start) (hi : i ≤ t.length) :
    i ≤ (t.lineStarts[line + 1]?).getD t.length ∧ (t.lineStarts[line + 1]?).getD t.length ≤ t.length := by
  cases hget : t.lineStarts[line + 1]? with
  | none => exact ⟨hi, Nat.le_refl _⟩
  | some next =>
    exact ⟨Nat.le_of_lt (h.lt_next next hget), le_length_of_mem_lineStarts (List.mem_of_getElem? hget)⟩

/-- Going to the position of an offset and back moves the offset out of a break that it splits, and nothing else. -/
theorem offsetAt_positionAt (hlength : t.length ≤ Number.exactBound) (hi : i ≤ t.length) :
    t.offsetAt (t.positionAt (.ofNat i)) = some (.ofNat (t.settle i)) := by
  obtain ⟨line, start, hline, hposition⟩ := exists_positionAt hlength hi
  have hlineBound := Nat.le_trans hline.line_le hlength
  have hsettleBound := Nat.le_trans (Nat.le_trans (t.settle_le i) hi) hlength
  have hstart := hline.start_le_settle
  have hnonneg : (Number.ofNat line).lt 0 = false := by
    show (Number.ofNat line).lt (.ofNat 0) = false
    rw [Number.lt_ofNat hlineBound (Nat.zero_le _), decide_eq_false (Nat.not_lt_zero line)]
  rw [hposition]
  unfold offsetAt
  dsimp only
  split
  · rename_i hcount
    rw [hline.settle_of_count_le hlength hi hcount]
  · have hcharacter : (Number.ofNat (t.settle i - start)).le 0 = decide (t.settle i - start ≤ 0) :=
      Number.le_ofNat (Nat.le_trans (Nat.sub_le _ _) hsettleBound) (Nat.zero_le _)
    rw [if_neg (ne_true_of_eq_false hnonneg), Number.toNat?_ofNat hlineBound, Option.bind_some, hline.start_eq,
      hcharacter]
    rcases Nat.eq_zero_or_pos (t.settle i - start) with hzero | hpos
    · rw [hzero, if_pos (by decide), Option.map_some]
      congr 2
      omega
    · obtain ⟨hnext, hnextBound⟩ := hline.le_next hi
      have hsum : start + (t.settle i - start) = t.settle i := by omega
      rw [if_neg (by simpa using Nat.pos_iff_ne_zero.mp hpos)]
      dsimp only
      rw [Number.add_ofNat (Nat.le_trans hstart hsettleBound) (Nat.le_trans (Nat.sub_le _ _) hsettleBound), hsum,
        Number.least_ofNat hsettleBound (Nat.le_trans hnextBound hlength),
        Nat.min_eq_left (Nat.le_trans (t.settle_le i) hnext),
        hline.beforeBreak_settle (Nat.le_trans hi hlength)]

/-- Later offsets have later positions. -/
theorem positionAt_mono (hlength : t.length ≤ Number.exactBound) {j : Nat} (hij : i ≤ j) (hj : j ≤ t.length) :
    (t.positionAt (.ofNat i)).AtMost (t.positionAt (.ofNat j)) := by
  obtain ⟨line, start, hline, hposition⟩ := exists_positionAt hlength (Nat.le_trans hij hj)
  obtain ⟨line', start', hline', hposition'⟩ := exists_positionAt hlength hj
  have hbound := Nat.le_trans hline.line_le hlength
  have hbound' := Nat.le_trans hline'.line_le hlength
  have hsettle := Nat.le_trans (Nat.le_trans (t.settle_le j) hj) hlength
  have hmono := t.settle_mono hij
  rw [hposition, hposition']
  rcases Nat.lt_trichotomy line line' with hlt | rfl | hgt
  · exact .inl (by rw [Number.lt_ofNat hbound hbound', decide_eq_true hlt])
  · cases hline.start_eq.symm.trans hline'.start_eq
    refine .inr ⟨rfl, ?_⟩
    rw [Number.le_ofNat (by omega) (by omega)]
    exact decide_eq_true (by omega)
  · -- The later offset is before the line behind its own, which starts before the earlier offset.
    obtain ⟨hlt, hget⟩ := List.getElem?_eq_some_iff.mp hline.start_eq
    have hstart : start ≤ start' := hline'.le_of_mem hline.mem (Nat.le_trans hline.start_le hij)
    obtain ⟨hlt', hget'⟩ := List.getElem?_eq_some_iff.mp hline'.start_eq
    have hsorted := List.pairwise_iff_getElem.mp (pairwise_lineStarts t) line' line hlt' hlt hgt
    omega

end Text

end LosslessSyntax
