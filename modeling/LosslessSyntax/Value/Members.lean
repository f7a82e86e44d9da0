import LosslessSyntax.Text.Basic

/-!
# Members

A record lists its members in a fixed order: members whose names are array indices come first, by index, and all others
follow in the order in which they were first set. `Members.set` keeps that order; setting a member that is there
already leaves it in its place. What was set last is what is found (`Members.get?_set`).
-/

namespace LosslessSyntax

/-- Named members, in order. -/
abbrev Members (α : Type) := List (Text × α)

namespace Members

variable {α : Type}

def isDigit (u : UInt16) : Bool := 0x30 ≤ u && u ≤ 0x39

/-- The number that digits spell. -/
def digitsValue (digits : Text) : Nat := digits.foldl (fun total u => total * 10 + (u.toNat - 0x30)) 0

/-- The number a name spells if it is the canonical decimal text of an array index. -/
def index? (name : Text) : Option Nat :=
  if name.isEmpty || 10 < name.length || !name.all isDigit || (name.head? == some 0x30 && name.length != 1) then none
  else
    let value := digitsValue name
    if value ≤ 4294967294 then some value else none

/-- Whether a new member `name` stands before a member `other`. -/
def precedes (name other : Text) : Bool :=
  match index? name, index? other with
  | some i, some j => i < j
  | some _, none => true
  | none, _ => false

def get? (m : Members α) (name : Text) : Option α := m.lookup name

def has (m : Members α) (name : Text) : Bool := m.any (·.1 == name)

def names (m : Members α) : List Text := m.map (·.1)

/-- Puts a new member in its place. -/
def insert (name : Text) (value : α) : Members α → Members α
  | [] => [(name, value)]
  | entry :: rest =>
    if precedes name entry.1 then (name, value) :: entry :: rest else entry :: insert name value rest

/-- Sets a member, in its place if it is there and as a new one if not. -/
def set (m : Members α) (name : Text) (value : α) : Members α :=
  if m.has name then m.map fun entry => if entry.1 == name then (name, value) else entry
  else insert name value m

/-- Sets every member of `other` in turn. -/
def merge (m other : Members α) : Members α :=
  other.foldl (fun all entry => all.set entry.1 entry.2) m

def ofList (entries : List (Text × α)) : Members α := merge [] entries

/-- Items as members named by their indices. -/
def ofItems (items : List α) : Members α := items.zipIdx.map fun (item, i) => (Text.ofNat i, item)

/-! ## Getting and setting -/

theorem get?_cons (entry : Text × α) (m : Members α) (name : Text) :
    get? (entry :: m) name = if name = entry.1 then some entry.2 else m.get? name := by
  obtain ⟨key, value⟩ := entry
  by_cases h : name = key
  · simp [get?, h]
  · simp [get?, List.lookup_cons, h, beq_eq_false_iff_ne.mpr h]

theorem mem_of_get? {m : Members α} {name : Text} {value : α} (h : m.get? name = some value) : (name, value) ∈ m := by
  obtain ⟨before, after, heq, _⟩ := List.lookup_eq_some_iff.mp h
  simp [heq]

theorem isSome_get? (m : Members α) (name : Text) : (m.get? name).isSome = m.has name := by
  induction m with
  | nil => rfl
  | cons entry rest ih =>
    rw [get?_cons, has, List.any_cons]
    by_cases h : name = entry.1
    · simp [h]
    · rw [if_neg h, ih, beq_eq_false_iff_ne.mpr (Ne.symm h), Bool.false_or, has]

theorem get?_insert (name : Text) (value : α) {m : Members α} (h : m.has name = false) (other : Text) :
    (insert name value m).get? other = if other = name then some value else m.get? other := by
  induction m with
  | nil => rw [insert, get?_cons]
  | cons entry rest ih =>
    simp only [has, List.any_cons, Bool.or_eq_false_iff, beq_eq_false_iff_ne] at h
    rw [insert]
    split
    · rw [get?_cons]
    · rw [get?_cons, get?_cons, ih h.2]
      by_cases ho : other = entry.1
      · rw [if_pos ho, if_pos ho, if_neg (by rw [ho]; exact h.1)]
      · rw [if_neg ho, if_neg ho]

theorem get?_replace (name : Text) (value : α) (m : Members α) (other : Text) :
    get? (m.map fun entry => if entry.1 == name then (name, value) else entry) other =
      if other = name then (m.get? name).map fun _ => value else m.get? other := by
  induction m with
  | nil => simp [get?]
  | cons entry rest ih =>
    rw [List.map_cons, get?_cons, get?_cons, get?_cons, ih]
    by_cases he : entry.1 = name
    · by_cases ho : other = name <;> simp [he, ho]
    · by_cases ho : other = name
      · simp [he, ho, Ne.symm he]
      · simp [he, ho]

theorem get?_set (m : Members α) (name : Text) (value : α) (other : Text) :
    (m.set name value).get? other = if other = name then some value else m.get? other := by
  rw [set]
  split
  · rename_i h
    rw [← isSome_get?, Option.isSome_iff_exists] at h
    obtain ⟨old, hold⟩ := h
    rw [get?_replace, hold, Option.map_some]
  · rename_i h
    exact get?_insert name value (by simpa using h) other

end Members

end LosslessSyntax
