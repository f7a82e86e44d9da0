import LosslessSyntax.Token
import LosslessSyntax.Text.Basic

/-!
# Tokens that tile a text

Tokens tile a stretch of a text if each begins where the one before it ends, trivia included. `Token.Tiles` says so in
natural numbers; up to the largest length of a source these are exact as offsets, so that sums and differences of
offsets are what they are for natural numbers (`Number.add_ofNat`, `Number.sub_ofNat`) and cuts are what they are for
lists (`Text.slice_ofNat`). Any number from zero on compares with these as a natural number does (`Number.Floors`).

`Tiles.fullTexts`: the full texts of tokens that tile a stretch are the text of that stretch.
-/

namespace LosslessSyntax

namespace Number

theorem add_ofNat {i j : Nat} (hi : i ≤ exactBound) (hj : j ≤ exactBound) : ofNat i + ofNat j = ofNat (i + j) := by
  rw [ofNat, ofNat, add_ofInt (by simpa using hi) (by simpa using hj), ofNat, Int.natCast_add]

theorem sub_ofNat {i j : Nat} (hi : i ≤ exactBound) (hji : j ≤ i) : ofNat i - ofNat j = ofNat (i - j) := by
  rw [ofNat, ofNat, sub_ofInt (by simpa using hi) (by simpa using Nat.le_trans hji hi), ofNat, Int.ofNat_sub hji]

theorem ofNat_inj {i j : Nat} (hi : i ≤ exactBound) (hj : j ≤ exactBound) (h : ofNat i = ofNat j) : i = j := by
  have h := congrArg toInt? h
  rw [ofNat, ofNat, toInt?_ofInt (by simpa using hi), toInt?_ofInt (by simpa using hj)] at h
  exact Int.ofNat_inj.mp (Option.some.inj h)

theorem truncate_natCast (i : Nat) : truncate ((i : Int) : Rat) = i := by
  rw [truncate, if_neg, Rat.floor_intCast]
  exact Rat.not_lt.mpr (by exact_mod_cast Int.natCast_nonneg i)

theorem ofNat_eq {i : Nat} (h : i ≤ exactBound) : ofNat i = .finite (i : Int) := ofInt_eq (by simpa using h)

theorem le_finite (a b : Rat) : (finite a).le (finite b) = decide (a ≤ b) := by
  have hne : (finite a != .nan) = true := bne_iff_ne.mpr fun heq => by cases heq
  rw [le, hne, Bool.and_true, Bool.eq_iff_iff, Bool.or_eq_true, beq_iff_eq, finite.injEq, decide_eq_true_eq,
    Rat.le_iff_lt_or_eq]
  exact or_congr_left decide_eq_true_iff

/-- A number compares with natural numbers as one of them does. -/
def Floors (x : Number) (floor : Nat) : Prop :=
  ∀ i ≤ exactBound, (ofNat i).le x = decide (i ≤ floor) ∧ x.lt (ofNat i) = decide (floor < i)

theorem floors_finite {q : Rat} (h : 0 ≤ q) : (finite q).Floors q.floor.toNat := by
  intro i hi
  have hfloor : 0 ≤ q.floor := Rat.le_floor_iff.mpr h
  rw [ofNat_eq hi, le_finite]
  refine ⟨decide_eq_decide.mpr ?_, decide_eq_decide.mpr ?_⟩
  · rw [← Rat.le_floor_iff]
    omega
  · rw [← Rat.floor_lt_iff]
    omega

theorem floors_ofNat {i : Nat} (h : i ≤ exactBound) : (ofNat i).Floors i := by
  have hfloors := floors_finite (q := ((i : Int) : Rat)) (by exact_mod_cast Int.natCast_nonneg i)
  rwa [Rat.floor_intCast, Int.toNat_natCast, ← ofNat_eq h] at hfloors

theorem le_ofNat {i j : Nat} (hi : i ≤ exactBound) (hj : j ≤ exactBound) : (ofNat i).le (ofNat j) = decide (i ≤ j) :=
  (floors_ofNat hj i hi).1

theorem lt_ofNat {i j : Nat} (hi : i ≤ exactBound) (hj : j ≤ exactBound) : (ofNat i).lt (ofNat j) = decide (i < j) :=
  (floors_ofNat hi j hj).2

theorem ofNat_ne_nan {i : Nat} (h : i ≤ exactBound) : ofNat i ≠ .nan := by
  rw [ofNat_eq h]
  intro heq
  cases heq

theorem least_ofNat {i j : Nat} (hi : i ≤ exactBound) (hj : j ≤ exactBound) :
    (ofNat i).least (ofNat j) = ofNat (min i j) := by
  rw [least, beq_false_of_ne (ofNat_ne_nan hi), beq_false_of_ne (ofNat_ne_nan hj), Bool.or_false, if_neg (by decide),
    lt_ofNat hj hi]
  rcases Nat.lt_or_ge j i with hlt | hge
  · rw [if_pos (decide_eq_true hlt), Nat.min_eq_right (Nat.le_of_lt hlt)]
  · rw [if_neg (by simpa using hge), Nat.min_eq_left hge]

theorem greatest_ofNat_zero {i : Nat} (h : i ≤ exactBound) : (ofNat i).greatest 0 = ofNat i := by
  show (ofNat i).greatest (ofNat 0) = _
  rw [greatest, beq_false_of_ne (ofNat_ne_nan h), beq_false_of_ne (ofNat_ne_nan (Nat.zero_le _)), Bool.or_false,
    if_neg (by decide), lt_ofNat h (Nat.zero_le _), if_neg (by simp)]

theorem toNat?_ofNat {i : Nat} (h : i ≤ exactBound) : (ofNat i).toNat? = some i := by
  rw [toNat?, ofNat, toInt?_ofInt (by simpa using h)]
  rfl

/-- Every number from zero on is somewhere among the natural numbers. -/
theorem exists_floors {x : Number} (h : le 0 x = true) : ∃ floor, x.Floors floor := by
  cases x with
  | nan => cases h
  | infinity negative =>
    cases negative with
    | true => cases h
    | false =>
      refine ⟨exactBound, fun i hi => ?_⟩
      rw [ofNat_eq hi, decide_eq_true hi, decide_eq_false (Nat.not_lt.mpr hi)]
      exact ⟨rfl, rfl⟩
  | finite q =>
    have hzero : (0 : Number) = .finite 0 := rfl
    rw [hzero, le_finite, decide_eq_true_eq] at h
    exact ⟨_, floors_finite h⟩

/-- No natural number is below a number that is not from zero on. -/
theorem ofNat_le_eq_false {x : Number} (h : le 0 x = false) {i : Nat} (hi : i ≤ exactBound) :
    (ofNat i).le x = false := by
  rw [ofNat_eq hi]
  cases x with
  | nan => rfl
  | infinity negative =>
    cases negative with
    | true => rfl
    | false => cases h
  | finite q =>
    have hzero : (0 : Number) = .finite 0 := rfl
    rw [hzero, le_finite, decide_eq_false_iff_not, Rat.not_le] at h
    rw [le_finite, decide_eq_false_iff_not, Rat.not_le]
    have hnonneg : (0 : Rat) ≤ ((i : Int) : Rat) := by exact_mod_cast Int.natCast_nonneg i
    exact Rat.not_le.mp fun hle => Rat.not_le.mpr h (Rat.le_trans hnonneg hle)

end Number

namespace Text

theorem length_take_drop {t : Text} {i j : Nat} (hj : j ≤ t.length) :
    ((t.drop i).take (j - i)).length = j - i := by
  rw [List.length_take, List.length_drop, Nat.min_eq_left (Nat.sub_le_sub_right hj i)]

theorem index_ofNat {length i : Nat} (hi : i ≤ length) (hlength : length ≤ Number.exactBound) :
    index length (.ofNat i) = i := by
  rw [Number.ofNat_eq (Nat.le_trans hi hlength), index]
  simp only [Number.truncate_natCast]
  rw [if_neg (by omega), Int.toNat_natCast, Nat.min_eq_left hi]

theorem slice_ofNat {t : Text} {i j : Nat} (hij : i ≤ j) (hj : j ≤ t.length) (hlength : t.length ≤ Number.exactBound) :
    t.slice (.ofNat i) (.ofNat j) = (t.drop i).take (j - i) := by
  rw [slice, index_ofNat (Nat.le_trans hij hj) hlength, index_ofNat hj hlength]

/-- Two cuts that meet make one. -/
theorem take_drop_append {t : Text} {i j k : Nat} (hij : i ≤ j) (hjk : j ≤ k) :
    (t.drop i).take (j - i) ++ (t.drop j).take (k - j) = (t.drop i).take (k - i) := by
  have hsum : k - i = (j - i) + (k - j) := by omega
  rw [hsum, List.take_add, List.drop_drop, Nat.add_sub_cancel' hij]

end Text

namespace Token

/-- A token from `first` to `stop`, with trivia up to `start`. -/
structure Spans (t : Token) (first start stop : Nat) : Prop where
  first_le : first ≤ start
  start_le : start ≤ stop
  fullStart : t.fullStart = .ofNat first
  start : t.start = .ofNat start
  length : t.length = .ofNat (stop - first)

namespace Spans

variable {t : Token} {first start stop : Nat} {source : Text}

theorem stop_eq (h : t.Spans first start stop) (hstop : stop ≤ Number.exactBound) : t.stop = .ofNat stop := by
  have := h.first_le; have := h.start_le
  rw [Token.stop, h.fullStart, h.length, Number.add_ofNat (by omega) (by omega)]
  congr 1
  omega

theorem width (h : t.Spans first start stop) (hstop : stop ≤ Number.exactBound) : t.width = .ofNat (stop - start) := by
  have := h.first_le; have := h.start_le
  rw [Token.width, h.length, h.start, h.fullStart, Number.sub_ofNat (by omega) (by omega),
    Number.sub_ofNat (by omega) (by omega)]
  congr 1
  omega

section

variable (h : t.Spans first start stop) (hstop : stop ≤ source.length) (hsource : source.length ≤ Number.exactBound)
include h hstop hsource

theorem fullText : t.fullText source = (source.drop first).take (stop - first) := by
  have := h.first_le; have := h.start_le
  rw [Token.fullText, h.stop_eq (by omega), h.fullStart, Text.slice_ofNat (by omega) hstop hsource]

theorem text : t.text source = (source.drop start).take (stop - start) := by
  rw [Token.text, h.stop_eq (by omega), h.start, Text.slice_ofNat h.start_le hstop hsource]

theorem leadingTrivia : t.leadingTrivia source = (source.drop first).take (start - first) := by
  have := h.start_le
  rw [Token.leadingTrivia, h.fullStart, h.start, Text.slice_ofNat h.first_le (by omega) hsource]

end

end Spans

/-- Tokens that follow each other from one offset to another, each with its trivia in front. -/
def Tiles : Nat → List Token → Nat → Prop
  | first, [], last => first = last
  | first, t :: rest, last => ∃ start stop, t.Spans first start stop ∧ Tiles stop rest last

namespace Tiles

variable {ts us : List Token} {first last : Nat} {source : Text}

theorem le (h : Tiles first ts last) : first ≤ last := by
  induction ts generalizing first with
  | nil => exact Nat.le_of_eq h
  | cons t ts ih =>
    obtain ⟨start, stop, hspans, hrest⟩ := h
    exact Nat.le_trans (Nat.le_trans hspans.first_le hspans.start_le) (ih hrest)

theorem append : Tiles first (ts ++ us) last ↔ ∃ between, Tiles first ts between ∧ Tiles between us last := by
  induction ts generalizing first with
  | nil => exact ⟨fun h => ⟨first, rfl, h⟩, fun ⟨_, heq, h⟩ => heq ▸ h⟩
  | cons t ts ih =>
    constructor
    · rintro ⟨start, stop, hspans, hrest⟩
      obtain ⟨between, hts, hus⟩ := ih.mp hrest
      exact ⟨between, ⟨start, stop, hspans, hts⟩, hus⟩
    · rintro ⟨between, ⟨start, stop, hspans, hts⟩, hus⟩
      exact ⟨start, stop, hspans, ih.mpr ⟨between, hts, hus⟩⟩

/-- The full texts of tokens that tile a stretch of a text make up that stretch. -/
theorem fullTexts (h : Tiles first ts last) (hlast : last ≤ source.length)
    (hsource : source.length ≤ Number.exactBound) :
    (ts.map (·.fullText source)).flatten = (source.drop first).take (last - first) := by
  induction ts generalizing first with
  | nil =>
    cases h
    simp
  | cons t ts ih =>
    obtain ⟨start, stop, hspans, hrest⟩ := h
    have hle := hrest.le
    rw [List.map_cons, List.flatten_cons, hspans.fullText (by omega) hsource, ih hrest]
    exact Text.take_drop_append (Nat.le_trans hspans.first_le hspans.start_le) hle

end Tiles

end Token

end LosslessSyntax
