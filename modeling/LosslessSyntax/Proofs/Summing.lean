import LosslessSyntax.Proofs.Tiling

/-!
# Sums of lengths

The fields of a token are numbers of any kind. Where they are whole numbers whose magnitudes add up to no more than the
exact bound, sums of lengths are those of the whole numbers, in whatever order parts of them are added up first
(`Token.Exact`). Lengths may be negative, and tokens may overlap.

Tokens that tile a stretch up to the exact bound are of that kind, and their total is the length of the stretch
(`Tiles.exact`, `Tiles.total_eq`).
-/

namespace LosslessSyntax

namespace Number

variable {i : Int} {x : Number}

/-- The whole number that a number is. -/
def toInt (x : Number) : Int := x.toInt?.getD 0

/-- A whole number within the exact bound. -/
structure IsWhole (x : Number) : Prop where
  eq : x = ofInt x.toInt
  le : x.toInt.natAbs ≤ exactBound

instance (x : Number) : Decidable x.IsWhole :=
  decidable_of_iff (x = ofInt x.toInt ∧ x.toInt.natAbs ≤ exactBound)
    ⟨fun h => ⟨h.1, h.2⟩, fun h => ⟨h.eq, h.le⟩⟩

theorem toInt_ofInt (h : i.natAbs ≤ exactBound) : (ofInt i).toInt = i := by
  rw [toInt, toInt?_ofInt h]
  rfl

theorem isWhole_ofInt (h : i.natAbs ≤ exactBound) : (ofInt i).IsWhole := by
  have hi := toInt_ofInt h
  exact ⟨by rw [hi], by rw [hi]; exact h⟩

theorem zero_add_ofInt (h : i.natAbs ≤ exactBound) : 0 + ofInt i = ofInt i := by
  show ofInt 0 + ofInt i = _
  rw [add_ofInt (Nat.zero_le _) h, Int.zero_add]

end Number

namespace Token

variable {t : Token} {ts us : List Token} {first start stop last : Nat}

/-- How far the significant text of a token is from its beginning. -/
def trivia (t : Token) : Int := t.start.toInt - t.fullStart.toInt

/-- What the lengths of tokens add up to. -/
def total : List Token → Int
  | [] => 0
  | t :: ts => t.length.toInt + total ts

/-- What the magnitudes of their lengths add up to. -/
def bulk : List Token → Nat
  | [] => 0
  | t :: ts => t.length.toInt.natAbs + bulk ts

@[simp] theorem total_nil : total [] = 0 := rfl

@[simp] theorem bulk_nil : bulk [] = 0 := rfl

@[simp] theorem total_cons (t : Token) (ts : List Token) : total (t :: ts) = t.length.toInt + total ts := rfl

@[simp] theorem bulk_cons (t : Token) (ts : List Token) : bulk (t :: ts) = t.length.toInt.natAbs + bulk ts := rfl

@[simp] theorem total_append (ts us : List Token) : total (ts ++ us) = total ts + total us := by
  induction ts with
  | nil => rw [List.nil_append, total_nil, Int.zero_add]
  | cons t ts ih => rw [List.cons_append, total_cons, total_cons, ih, Int.add_assoc]

@[simp] theorem bulk_append (ts us : List Token) : bulk (ts ++ us) = bulk ts + bulk us := by
  induction ts with
  | nil => rw [List.nil_append, bulk_nil, Nat.zero_add]
  | cons t ts ih => rw [List.cons_append, bulk_cons, bulk_cons, ih, Nat.add_assoc]

theorem natAbs_total_le (ts : List Token) : (total ts).natAbs ≤ bulk ts := by
  induction ts with
  | nil => exact Nat.le_refl 0
  | cons t ts ih =>
    rw [total_cons, bulk_cons]
    omega

/-- Whole numbers as fields, small enough for all sums of lengths, the first one with or without its trivia, to be
exact. -/
structure Exact (ts : List Token) : Prop where
  whole : ∀ t ∈ ts, t.fullStart.IsWhole ∧ t.start.IsWhole ∧ t.length.IsWhole
  bulk : bulk ts ≤ Number.exactBound
  head : ∀ t ∈ ts.head?, t.trivia.natAbs ≤ Number.exactBound ∧
    (t.length.toInt - t.trivia).natAbs + Token.bulk ts.tail ≤ Number.exactBound

theorem Exact.of_append (h : Exact (ts ++ us)) : Exact ts where
  whole t ht := h.whole t (List.mem_append_left us ht)
  bulk := by
    have hbulk := h.bulk
    rw [bulk_append] at hbulk
    omega
  head t ht := by
    obtain ⟨rest, rfl⟩ := List.head?_eq_some_iff.mp ht
    obtain ⟨htrivia, hrest⟩ := h.head t rfl
    rw [List.cons_append, List.tail_cons, bulk_append] at hrest
    exact ⟨htrivia, by rw [List.tail_cons]; omega⟩

theorem Exact.trivia_eq (h : Exact (t :: ts)) : t.start - t.fullStart = .ofInt t.trivia := by
  obtain ⟨hfullStart, hstart, _⟩ := h.whole t List.mem_cons_self
  rw [hstart.eq, hfullStart.eq, Number.sub_ofInt hstart.le hfullStart.le]
  rfl

/-- The significant width of a token with exact fields. -/
theorem Exact.width (h : Exact (t :: ts)) : t.width = .ofInt (t.length.toInt - t.trivia) := by
  obtain ⟨_, _, hlength⟩ := h.whole t List.mem_cons_self
  rw [Token.width, h.trivia_eq, hlength.eq, Number.sub_ofInt hlength.le (h.head t rfl).1, ← hlength.eq]

/-! ## Tokens that tile a stretch -/

theorem Spans.exact (h : t.Spans first start stop) (hstop : stop ≤ Number.exactBound) :
    (t.fullStart.IsWhole ∧ t.start.IsWhole ∧ t.length.IsWhole) ∧ t.length.toInt = (stop - first : Nat) ∧
      t.trivia = (start - first : Nat) := by
  have hfirst := h.first_le
  have hstart := h.start_le
  have hbound : ∀ {k : Nat}, k ≤ stop → ((k : Nat) : Int).natAbs ≤ Number.exactBound := fun hk => by
    rw [Int.natAbs_natCast]
    exact Nat.le_trans hk hstop
  have hwhole : ∀ {k : Nat}, k ≤ stop → (Number.ofNat k).IsWhole ∧ (Number.ofNat k).toInt = k := fun hk =>
    ⟨Number.isWhole_ofInt (hbound hk), Number.toInt_ofInt (hbound hk)⟩
  obtain ⟨hwholeFirst, hintFirst⟩ := hwhole (Nat.le_trans hfirst hstart)
  obtain ⟨hwholeStart, hintStart⟩ := hwhole hstart
  obtain ⟨hwholeLength, hintLength⟩ := hwhole (Nat.sub_le stop first)
  rw [trivia, h.fullStart, h.start, h.length, hintFirst, hintStart, hintLength]
  exact ⟨⟨hwholeFirst, hwholeStart, hwholeLength⟩, rfl, (Int.ofNat_sub hfirst).symm⟩

namespace Tiles

/-- Where tokens tile a stretch, their lengths add up to the length of the stretch. -/
theorem total_eq (h : Tiles first ts last) (hlast : last ≤ Number.exactBound) :
    total ts = (last - first : Nat) ∧ bulk ts = last - first := by
  induction ts generalizing first with
  | nil =>
    cases h
    rw [Nat.sub_self]
    exact ⟨rfl, rfl⟩
  | cons t ts ih =>
    obtain ⟨start, stop, hspans, hrest⟩ := h
    have hle := hrest.le
    have hfirst := Nat.le_trans hspans.first_le hspans.start_le
    obtain ⟨htotal, hbulk⟩ := ih hrest
    obtain ⟨_, hlength, _⟩ := hspans.exact (Nat.le_trans hle hlast)
    rw [total_cons, bulk_cons, htotal, hbulk, hlength, Int.natAbs_natCast]
    omega

theorem exact (h : Tiles first ts last) (hlast : last ≤ Number.exactBound) : Exact ts where
  whole t ht := by
    induction ts generalizing first with
    | nil => exact absurd ht List.not_mem_nil
    | cons t' ts ih =>
      obtain ⟨start, stop, hspans, hrest⟩ := h
      rcases List.mem_cons.mp ht with rfl | ht
      · exact (hspans.exact (Nat.le_trans hrest.le hlast)).1
      · exact ih hrest ht
  bulk := by
    have hbulk := (h.total_eq hlast).2
    omega
  head t ht := by
    obtain ⟨rest, rfl⟩ := List.head?_eq_some_iff.mp ht
    obtain ⟨start, stop, hspans, hrest⟩ := h
    have hle := hrest.le
    have hfirst := hspans.first_le
    have hstart := hspans.start_le
    obtain ⟨_, hlength, htrivia⟩ := hspans.exact (Nat.le_trans hle hlast)
    rw [hlength, htrivia, List.tail_cons, (hrest.total_eq hlast).2]
    omega

end Tiles

end Token

end LosslessSyntax
