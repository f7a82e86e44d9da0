import LosslessSyntax.Value.Basic
import LosslessSyntax.Value.Members

/-!
# Sequences

A sequence has a length and a value at some of the places below it; at all other places there is a gap. It is kept as
the values with their places, in ascending order, so that a long sequence with few values is small. The order and the
bound are part of the type, so that what follows an entry is what stands at later places.
`Sequence.get?` is what stands at a place and `Sequence.toList` lists all places, gaps included; values in a row are
listed as they are (`toList_ofList`).
-/

namespace LosslessSyntax

structure Sequence where
  length : Nat
  entries : List (Nat × Value)
  ascending : entries.Pairwise (·.1 < ·.1)
  below : ∀ entry ∈ entries, entry.1 < length
  deriving DecidableEq

namespace Sequence

/-- Nothing but gaps. -/
def gaps (length : Nat) : Sequence := ⟨length, [], .nil, nofun⟩

def empty : Sequence := gaps 0

/-- Values in a row with their places. -/
def placed (place : Nat) (values : List Value) : List (Nat × Value) :=
  (values.zipIdx place).map fun (value, i) => (i, value)

@[simp] theorem placed_nil (place : Nat) : placed place [] = [] := rfl

@[simp] theorem placed_cons (place : Nat) (value : Value) (rest : List Value) :
    placed place (value :: rest) = (place, value) :: placed (place + 1) rest := rfl

theorem placed_bounds {place : Nat} {list : List Value} {entry : Nat × Value} (h : entry ∈ placed place list) :
    place ≤ entry.1 ∧ entry.1 < place + list.length := by
  induction list generalizing place with
  | nil => cases h
  | cons value rest ih =>
    rcases List.mem_cons.mp h with rfl | h
    · simp
    · have := ih h
      simp only [List.length_cons]
      omega

theorem placed_ascending (place : Nat) (list : List Value) : (placed place list).Pairwise (·.1 < ·.1) := by
  induction list generalizing place with
  | nil => exact .nil
  | cons value rest ih => exact .cons (fun entry h => (placed_bounds h).1) (ih (place + 1))

/-- Values in a row, without gaps. -/
def ofList (values : List Value) : Sequence :=
  ⟨values.length, placed 0 values, placed_ascending 0 values, fun _ h => by simpa using (placed_bounds h).2⟩

/-- The least number that is no length of a list. -/
def lengthBound : Nat := 4294967296

/-- What stands at a place, if there is no gap. -/
def get? (q : Sequence) (place : Nat) : Option Value := q.entries.lookup place

theorem lookup_placed (list : List Value) (place i : Nat) : (placed place list).lookup (place + i) = list[i]? := by
  induction list generalizing place i with
  | nil => rfl
  | cons value rest ih =>
    rw [placed_cons, List.lookup_cons]
    cases i with
    | zero => simp
    | succ i =>
      have hne : (place + (i + 1) == place) = false := beq_false_of_ne (by omega)
      rw [hne, List.getElem?_cons_succ, ← ih (place + 1) i, Nat.add_assoc, Nat.add_comm 1 i]

theorem get?_ofList (list : List Value) (place : Nat) : (ofList list).get? place = list[place]? := by
  have := lookup_placed list 0 place
  rwa [Nat.zero_add] at this

/-- The values from left to right, without the gaps. -/
def values (q : Sequence) : List Value := q.entries.map (·.2)

theorem mem_values_of_get? {q : Sequence} {place : Nat} {value : Value} (h : q.get? place = some value) :
    value ∈ q.values := by
  obtain ⟨before, after, heq, _⟩ := List.lookup_eq_some_iff.mp h
  rw [values, heq]
  simp

/-- Since the places ascend, every value stands at the place of its entry. -/
theorem get?_of_mem {q : Sequence} {entry : Nat × Value} (h : entry ∈ q.entries) : q.get? entry.1 = some entry.2 := by
  obtain ⟨before, after, heq⟩ := List.append_of_mem h
  refine List.lookup_eq_some_iff.mpr ⟨before, after, heq, fun earlier hmem => ?_⟩
  have hasc := q.ascending
  rw [heq] at hasc
  have hlt := (List.pairwise_append.mp hasc).2.2 earlier hmem entry List.mem_cons_self
  exact bne_iff_ne.mpr (Nat.ne_of_gt hlt)

/-- Whether there is no gap. -/
def isFull (q : Sequence) : Bool := q.entries.length == q.length

/-- Puts a value at its place among entries. -/
def setEntry (place : Nat) (value : Value) : List (Nat × Value) → List (Nat × Value)
  | [] => [(place, value)]
  | entry :: rest =>
    if place < entry.1 then (place, value) :: entry :: rest
    else if place = entry.1 then (place, value) :: rest
    else entry :: setEntry place value rest

theorem mem_setEntry {place : Nat} {value : Value} {entries : List (Nat × Value)} {entry : Nat × Value}
    (h : entry ∈ setEntry place value entries) : entry = (place, value) ∨ entry ∈ entries := by
  induction entries with
  | nil => simpa [setEntry] using h
  | cons first rest ih =>
    unfold setEntry at h
    split at h
    · simpa using h
    · split at h
      · rcases List.mem_cons.mp h with rfl | h
        · exact .inl rfl
        · exact .inr (List.mem_cons_of_mem _ h)
      · rcases List.mem_cons.mp h with rfl | h
        · exact .inr List.mem_cons_self
        · exact (ih h).imp_right (List.mem_cons_of_mem _)

theorem setEntry_ascending (place : Nat) (value : Value) {entries : List (Nat × Value)}
    (h : entries.Pairwise (·.1 < ·.1)) : (setEntry place value entries).Pairwise (·.1 < ·.1) := by
  induction h with
  | nil => exact List.pairwise_singleton ..
  | @cons first rest hfirst hrest ih =>
    unfold setEntry
    split
    · rename_i hlt
      refine .cons (fun entry h => ?_) (.cons hfirst hrest)
      rcases List.mem_cons.mp h with rfl | h
      · exact hlt
      · exact Nat.lt_trans hlt (hfirst entry h)
    · split
      · rename_i heq
        exact .cons (fun entry h => by simpa [heq] using hfirst entry h) hrest
      · refine .cons (fun entry h => ?_) ih
        rcases mem_setEntry h with rfl | h
        · simp only; omega
        · exact hfirst entry h

/-- Sets the value at a place; a place beyond the end makes the sequence longer. -/
def set (q : Sequence) (place : Nat) (value : Value) : Sequence where
  length := max q.length (place + 1)
  entries := setEntry place value q.entries
  ascending := setEntry_ascending place value q.ascending
  below entry h := by
    rcases mem_setEntry h with rfl | h
    · simp only; omega
    · have := q.below entry h
      omega

theorem mem_values_set {q : Sequence} {place : Nat} {value w : Value} (h : w ∈ (q.set place value).values) :
    w = value ∨ w ∈ q.values := by
  obtain ⟨entry, hmem, rfl⟩ := List.mem_map.mp h
  rcases mem_setEntry hmem with rfl | hold
  · exact .inl rfl
  · exact .inr (List.mem_map.mpr ⟨entry, hold, rfl⟩)

/-- Cuts a sequence, or extends it by gaps, to a length. -/
def resize (q : Sequence) (length : Nat) : Sequence where
  length := length
  entries := q.entries.filter (·.1 < length)
  ascending := q.ascending.filter _
  below _ h := by simpa using (List.mem_filter.mp h).2

/-- The entries with their places as names. -/
def members (q : Sequence) : Members Value := q.entries.map fun (place, value) => (Text.ofNat place, value)

/-- The places from `place` on, so many of them, given the entries there. -/
def places (place : Nat) : Nat → List (Nat × Value) → List (Option Value)
  | 0, _ => []
  | count + 1, [] => none :: places (place + 1) count []
  | count + 1, entry :: rest =>
    if entry.1 = place then some entry.2 :: places (place + 1) count rest
    else none :: places (place + 1) count (entry :: rest)

/-- All places of a sequence, gaps included. -/
def toList (q : Sequence) : List (Option Value) := places 0 q.length q.entries

/-- The values from left to right with `undefined` at each gap, at least up to so many gaps: they all lie among as many
places as there are entries and such gaps. -/
def visited (q : Sequence) (gaps : Nat) : List Value :=
  (q.resize (min q.length (q.entries.length + gaps))).toList.map (·.getD .undefined)

theorem mem_of_places {place count : Nat} {entries : List (Nat × Value)} {value : Value}
    (h : some value ∈ places place count entries) : ∃ i, (i, value) ∈ entries := by
  induction count generalizing place entries with
  | zero => cases h
  | succ count ih =>
    cases entries with
    | nil =>
      rw [places] at h
      rcases List.mem_cons.mp h with heq | h
      · cases heq
      · exact ih h
    | cons entry rest =>
      rw [places] at h
      split at h
      · rcases List.mem_cons.mp h with heq | h
        · cases heq
          exact ⟨entry.1, List.mem_cons_self⟩
        · obtain ⟨i, hi⟩ := ih h
          exact ⟨i, List.mem_cons_of_mem _ hi⟩
      · rcases List.mem_cons.mp h with heq | h
        · cases heq
        · exact ih h

/-- What is visited and is no gap is a value of the sequence. -/
theorem mem_values_of_visited {q : Sequence} {gaps : Nat} {value : Value} (h : value ∈ q.visited gaps)
    (hvalue : value ≠ .undefined) : value ∈ q.values := by
  obtain ⟨found, hfound, rfl⟩ := List.mem_map.mp h
  cases found with
  | none => exact absurd rfl hvalue
  | some w =>
    obtain ⟨i, hi⟩ := mem_of_places hfound
    exact List.mem_map.mpr ⟨(i, w), (List.mem_filter.mp hi).1, rfl⟩

/-! ## Values in a row -/

@[simp] theorem length_placed (place : Nat) (list : List Value) : (placed place list).length = list.length := by
  induction list generalizing place with
  | nil => rfl
  | cons value rest ih => simp [ih]

@[simp] theorem map_snd_placed (place : Nat) (list : List Value) : (placed place list).map (·.2) = list := by
  induction list generalizing place with
  | nil => rfl
  | cons value rest ih => simp [ih]

@[simp] theorem length_ofList (values : List Value) : (ofList values).length = values.length := rfl

@[simp] theorem values_ofList (list : List Value) : (ofList list).values = list := map_snd_placed 0 list

@[simp] theorem isFull_ofList (values : List Value) : (ofList values).isFull = true := by
  simp [ofList, isFull]

theorem places_placed (list : List Value) (place : Nat) :
    places place list.length (placed place list) = list.map some := by
  induction list generalizing place with
  | nil => rfl
  | cons value rest ih => simp [places, ih]

@[simp] theorem toList_ofList (list : List Value) : (ofList list).toList = list.map some :=
  places_placed list 0

/-! ## Sequences without gaps -/

/-- Entries that fill a stretch of places are values in a row. -/
theorem eq_placed {entries : List (Nat × Value)} {place : Nat} (hasc : entries.Pairwise (·.1 < ·.1))
    (hlow : ∀ entry ∈ entries, place ≤ entry.1) (hhigh : ∀ entry ∈ entries, entry.1 < place + entries.length) :
    entries = placed place (entries.map (·.2)) := by
  induction hasc generalizing place with
  | nil => rfl
  | @cons first rest hfirst hrest ih =>
    have hrow : rest = placed (place + 1) (rest.map (·.2)) := by
      refine ih (fun entry he => ?_) fun entry he => ?_
      · have := hfirst entry he
        have := hlow first List.mem_cons_self
        omega
      · have := hhigh entry (List.mem_cons_of_mem _ he)
        rw [List.length_cons] at this
        omega
    have hplace : first.1 = place := by
      have := hlow first List.mem_cons_self
      cases rest with
      | nil =>
        have := hhigh first List.mem_cons_self
        simp only [List.length_singleton] at this
        omega
      | cons second others =>
        simp only [List.map_cons, placed_cons, List.cons.injEq] at hrow
        have hsecond := hfirst second List.mem_cons_self
        rw [hrow.1] at hsecond
        simp only at hsecond
        omega
    rw [List.map_cons, placed_cons, ← hrow, ← hplace]

theorem eq_ofList_values {q : Sequence} (h : q.length ≤ q.entries.length) : q = ofList q.values := by
  have hrow : q.entries = placed 0 q.values :=
    eq_placed q.ascending (fun _ _ => Nat.zero_le _) fun entry he => by have := q.below entry he; omega
  have hlength : q.length = q.values.length := by
    refine Nat.le_antisymm (by simpa [values] using h) (Nat.le_of_not_lt fun hlt => ?_)
    obtain ⟨entry, hmem, hplace⟩ : ∃ entry ∈ placed 0 q.values, entry.1 = q.length := by
      refine ⟨(q.length, q.values[q.length]), ?_, rfl⟩
      rw [placed, List.mem_map]
      exact ⟨(q.values[q.length], q.length), by simp [List.mk_mem_zipIdx_iff_getElem?], rfl⟩
    have := q.below entry (hrow ▸ hmem)
    omega
  obtain ⟨length, entries, ascending, below⟩ := q
  simp only [ofList, mk.injEq]
  exact ⟨hlength, hrow⟩

theorem length_le_of_places {place count : Nat} {entries : List (Nat × Value)}
    (h : none ∉ places place count entries) : count ≤ entries.length := by
  induction count generalizing place entries with
  | zero => exact Nat.zero_le _
  | succ count ih =>
    cases entries with
    | nil => simp [places] at h
    | cons entry rest =>
      rw [places] at h
      split at h
      · exact Nat.succ_le_succ (ih fun hmem => h (List.mem_cons_of_mem _ hmem))
      · exact absurd List.mem_cons_self h

theorem visited_ofList (list : List Value) (gaps : Nat) : (ofList list).visited gaps = list := by
  have hresize : (ofList list).resize (ofList list).length = ofList list := by
    simp only [resize, ofList, mk.injEq, true_and]
    exact List.filter_eq_self.mpr fun entry he => decide_eq_true (by simpa using (placed_bounds he).2)
  have hmin : min (ofList list).length ((ofList list).entries.length + gaps) = (ofList list).length := by
    simp [ofList]
  rw [visited, hmin, hresize, toList_ofList]
  simp [Function.comp_def]

/-- A sequence in which no gap is met has none. -/
theorem eq_ofList_visited {q : Sequence} (h : .undefined ∉ q.visited 2) : q = ofList (q.visited 2) := by
  have hnone : none ∉ (q.resize (min q.length (q.entries.length + 2))).toList := fun hmem =>
    h (List.mem_map.mpr ⟨none, hmem, rfl⟩)
  have hcount := length_le_of_places hnone
  have hfilter : (q.resize (min q.length (q.entries.length + 2))).entries.length ≤ q.entries.length :=
    List.length_filter_le ..
  simp only [resize] at hcount hfilter
  have hfull := eq_ofList_values (q := q) (by omega)
  rw [hfull, visited_ofList]

end Sequence

end LosslessSyntax
