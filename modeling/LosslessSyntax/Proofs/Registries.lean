import LosslessSyntax.Grammar.Define
import LosslessSyntax.Proofs.Attempts
import Mathlib.Data.List.Nodup

/-!
# Registries

A registry that was built holds the pairs that it was given, in order, and neither a name nor an id twice
(`Registry.ofPairs_ok`). What either look-up finds is a pair of it, so names and ids lead to each other
(`Registry.OneToOne.idOf?_iff_nameOf?`).
-/

namespace LosslessSyntax

/-- A number that is natural is known from the natural number. -/
theorem Number.eq_of_toNat?_eq_some {n : Number} {i : Nat} (h : n.toNat? = some i) : n = .finite i := by
  obtain ⟨z, hint, hnat⟩ := Option.bind_eq_some_iff.mp h
  cases n with
  | finite q =>
    rw [toInt?] at hint
    split at hint
    · rename_i hden
      cases hint
      have hnum : q.num = i := Int.mem_toNat?.mp hnat
      exact congrArg Number.finite (Rat.ext hnum hden)
    · cases hint
  | _ => cases hint

namespace Registry

variable {r r' : Registry} {s : Store} {name : Value} {id : Nat}

/-- No name stands twice in a registry, and no id. -/
structure OneToOne (r : Registry) : Prop where
  names : (r.entries.map (·.1)).Nodup
  ids : (r.entries.map (·.2)).Nodup

/-! ## Look-ups -/

theorem mem_of_idOf? (h : r.idOf? name = some id) : (name, id) ∈ r.entries := by
  obtain ⟨before, after, heq, _⟩ := List.lookup_eq_some_iff.mp h
  rw [heq]
  exact List.mem_append_right _ List.mem_cons_self

theorem mem_of_nameOf? (h : r.nameOf? id = some name) : (name, id) ∈ r.entries := by
  obtain ⟨⟨name', id'⟩, hfind, rfl⟩ := Option.map_eq_some_iff.mp h
  have hid : id' = id := eq_of_beq (List.find?_some (p := fun entry : Value × Nat => entry.2 == id) hfind)
  rw [← hid]
  exact List.mem_of_find?_eq_some hfind

theorem idOf?_eq_none (h : r.idOf? name = none) : name ∉ r.entries.map (·.1) := by
  rw [idOf?, List.lookup_eq_none_iff] at h
  intro hmem
  obtain ⟨entry, he, rfl⟩ := List.mem_map.mp hmem
  simpa using h entry he

theorem nameOf?_eq_none (h : r.nameOf? id = none) : id ∉ r.entries.map (·.2) := by
  rw [nameOf?, Option.map_eq_none_iff, List.find?_eq_none] at h
  intro hmem
  obtain ⟨entry, he, rfl⟩ := List.mem_map.mp hmem
  simpa using h entry he

namespace OneToOne

/-- A name has one id. -/
theorem id_unique (h : r.OneToOne) {id' : Nat} (hmem : (name, id) ∈ r.entries) (hmem' : (name, id') ∈ r.entries) :
    id = id' :=
  congrArg Prod.snd (List.inj_on_of_nodup_map h.names hmem hmem' rfl)

/-- An id has one name. -/
theorem name_unique (h : r.OneToOne) {name' : Value} (hmem : (name, id) ∈ r.entries)
    (hmem' : (name', id) ∈ r.entries) : name = name' :=
  congrArg Prod.fst (List.inj_on_of_nodup_map h.ids hmem hmem' rfl)

theorem idOf?_iff_mem (h : r.OneToOne) : r.idOf? name = some id ↔ (name, id) ∈ r.entries := by
  refine ⟨mem_of_idOf?, fun hmem => ?_⟩
  cases hfound : r.idOf? name with
  | none => exact absurd (List.mem_map.mpr ⟨_, hmem, rfl⟩) (idOf?_eq_none hfound)
  | some id' => rw [h.id_unique hmem (mem_of_idOf? hfound)]

theorem nameOf?_iff_mem (h : r.OneToOne) : r.nameOf? id = some name ↔ (name, id) ∈ r.entries := by
  refine ⟨mem_of_nameOf?, fun hmem => ?_⟩
  cases hfound : r.nameOf? id with
  | none => exact absurd (List.mem_map.mpr ⟨_, hmem, rfl⟩) (nameOf?_eq_none hfound)
  | some name' => rw [h.name_unique hmem (mem_of_nameOf? hfound)]

/-- Names and ids lead to each other. -/
theorem idOf?_iff_nameOf? (h : r.OneToOne) : r.idOf? name = some id ↔ r.nameOf? id = some name :=
  h.idOf?_iff_mem.trans h.nameOf?_iff_mem.symm

end OneToOne

/-! ## Building -/

/-- A pair is added at the end, and only if its name and its id are new. -/
theorem add_ok {pair : Value × Nat} (h : r.add s pair = .ok r') :
    r'.entries = r.entries ++ [pair] ∧ r.idOf? pair.1 = none ∧ r.nameOf? pair.2 = none := by
  rw [add] at h
  split at h
  · cases htext : s.text pair.1 <;> rw [htext] at h <;> cases h
  · rename_i hid
    cases hname : r.nameOf? pair.2 with
    | none =>
      rw [hname] at h
      cases h
      exact ⟨rfl, by simpa using hid, rfl⟩
    | some holder =>
      simp only [hname] at h
      cases hfirst : s.text holder <;> rw [hfirst] at h
      · cases h
      · cases hsecond : s.text pair.1 <;> rw [hsecond] at h <;> cases h

theorem OneToOne.add {pair : Value × Nat} (hr : r.OneToOne) (h : r.add s pair = .ok r') : r'.OneToOne := by
  obtain ⟨hentries, hid, hname⟩ := add_ok h
  refine ⟨?_, ?_⟩ <;> rw [hentries, List.map_append, List.map_singleton, ← List.concat_eq_append]
  · exact hr.names.concat (idOf?_eq_none hid)
  · exact hr.ids.concat (nameOf?_eq_none hname)

theorem foldlM_add_ok {pairs : List (Value × Nat)} (hr : r.OneToOne)
    (h : pairs.foldlM (fun r pair => r.add s pair) r = .ok r') : r'.entries = r.entries ++ pairs ∧ r'.OneToOne := by
  induction pairs generalizing r with
  | nil =>
    cases h
    exact ⟨(List.append_nil _).symm, hr⟩
  | cons pair rest ih =>
    rw [List.foldlM_cons] at h
    obtain ⟨next, hadd, h⟩ := Attempt.bind_eq_ok h
    obtain ⟨hentries, hrest⟩ := ih (hr.add hadd) h
    refine ⟨?_, hrest⟩
    rw [hentries, (add_ok hadd).1, List.append_assoc, List.singleton_append]

/-- A registry holds the pairs that it was built from, and each name and each id once. -/
theorem ofPairs_ok {pairs : List (Value × Nat)} (h : ofPairs s pairs = .ok r) : r.entries = pairs ∧ r.OneToOne := by
  have hempty : empty.OneToOne := ⟨List.nodup_nil, List.nodup_nil⟩
  exact foldlM_add_ok hempty h

/-- The registry of a list of names holds each of them once. -/
theorem ofNames_ok {names : List Value} (h : ofNames s names = .ok r) :
    r.entries = names.zipIdx ∧ r.OneToOne ∧ names.Nodup := by
  obtain ⟨hentries, hr⟩ := ofPairs_ok h
  have hnames := hr.names
  rw [hentries, List.zipIdx_map_fst] at hnames
  exact ⟨hentries, hr, hnames⟩

end Registry

end LosslessSyntax
