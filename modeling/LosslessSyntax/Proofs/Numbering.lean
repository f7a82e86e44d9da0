import LosslessSyntax.Proofs.Configuring
import LosslessSyntax.Proofs.Registries

/-!
# Numbering kinds

A registry of kinds is built from a list of names, whose ids are their places, or from a table of names and ids. It is
refused if and only if a name or an id is repeated, and the message then tells of the first pair that repeats one
(`Registry.Refusal`). In a registry that is built, names and ids lead to each other (`Registry.Registers`).

* `Registry.registers_ofPairs`: what becomes of pairs, by induction over the pairs that were added before.
* `Decoder.decides_table`: what reading a table comes to, from what reading its keys and values comes to.
* `Registry.Itemized.readExactly`: which values are read as tables exactly if they are tables of names and ids.
* `Members.listsAs_ofList`: the order in which a record lists its members.
* `Registry.numbered`: the registries of lists and tables, and what is refused besides.
-/

namespace LosslessSyntax

/-! ## The order of a record -/

namespace Members

variable {α : Type} {given m : Members α} {name : Text} {value : α}

/-- Members as a record lists them that were given in some order: those named by indices come first, by index, and the
others follow as they were given. -/
structure ListsAs (given m : Members α) : Prop where
  perm : m.Perm given
  indices : m.Pairwise fun a b => ∀ j, index? b.1 = some j → ∃ i ≤ j, index? a.1 = some i
  others : m.filter (fun entry => (index? entry.1).isNone) = given.filter fun entry => (index? entry.1).isNone

theorem precedes_of_index {other : Text} {i : Nat} (hname : index? name = some i) :
    precedes name other = true ↔ ∀ j, index? other = some j → i < j := by
  rw [precedes, hname]
  cases index? other <;> simp

theorem precedes_of_no_index (hname : index? name = none) (other : Text) : precedes name other = false := by
  rw [precedes, hname]

theorem insert_perm (name : Text) (value : α) (m : Members α) : (insert name value m).Perm ((name, value) :: m) := by
  induction m with
  | nil => exact .refl _
  | cons entry rest ih =>
    rw [insert]
    split
    · exact .refl _
    · exact (ih.cons entry).trans (.swap ..)

/-- A member that is not named by an index is put behind all others. -/
theorem insert_of_no_index (hname : index? name = none) (value : α) (m : Members α) :
    insert name value m = m ++ [(name, value)] := by
  induction m with
  | nil => rfl
  | cons entry rest ih => rw [insert, precedes_of_no_index hname, if_neg Bool.false_ne_true, ih, List.cons_append]

theorem filter_insert_of_index {i : Nat} (hname : index? name = some i) (value : α) (m : Members α) :
    (insert name value m).filter (fun entry => (index? entry.1).isNone) =
      m.filter fun entry => (index? entry.1).isNone := by
  induction m with
  | nil => simp [insert, hname]
  | cons entry rest ih =>
    rw [insert]
    split
    · rw [List.filter_cons_of_neg (by simp [hname])]
    · rw [List.filter_cons, List.filter_cons, ih]

theorem insert_indices (name : Text) (value : α)
    (h : m.Pairwise fun a b => ∀ j, index? b.1 = some j → ∃ i ≤ j, index? a.1 = some i) :
    (insert name value m).Pairwise fun a b => ∀ j, index? b.1 = some j → ∃ i ≤ j, index? a.1 = some i := by
  induction h with
  | nil => exact List.pairwise_singleton ..
  | @cons entry rest hentry hrest ih =>
    rw [insert]
    cases hname : index? name with
    | none =>
      rw [precedes_of_no_index hname, if_neg Bool.false_ne_true]
      refine .cons (fun b hb j hj => ?_) ih
      rcases List.mem_cons.mp ((insert_perm name value rest).mem_iff.mp hb) with rfl | hb
      · rw [hname] at hj
        cases hj
      · exact hentry b hb j hj
    | some i =>
      split
      · -- The new member precedes the first one, and so all that are named by indices.
        rename_i hprecedes
        have hfirst := (precedes_of_index hname).mp hprecedes
        refine .cons (fun b hb j hj => ⟨i, ?_, hname⟩) (.cons hentry hrest)
        rcases List.mem_cons.mp hb with rfl | hb
        · exact Nat.le_of_lt (hfirst j hj)
        · obtain ⟨k, hk, hindex⟩ := hentry b hb j hj
          exact Nat.le_of_lt (Nat.lt_of_lt_of_le (hfirst k hindex) hk)
      · rename_i hprecedes
        refine .cons (fun b hb j hj => ?_) ih
        rcases List.mem_cons.mp ((insert_perm name value rest).mem_iff.mp hb) with rfl | hb
        · rw [precedes_of_index hname] at hprecedes
          push Not at hprecedes
          obtain ⟨k, hk, hle⟩ := hprecedes
          rw [hname] at hj
          cases hj
          exact ⟨k, hle, hk⟩
        · exact hentry b hb j hj

theorem ListsAs.insert (h : ListsAs given m) (name : Text) (value : α) :
    ListsAs (given ++ [(name, value)]) (Members.insert name value m) where
  perm := (insert_perm name value m).trans ((h.perm.cons _).trans (List.perm_append_singleton _ _).symm)
  indices := insert_indices name value h.indices
  others := by
    rw [List.filter_append, ← h.others]
    cases hname : index? name with
    | none => rw [insert_of_no_index hname, List.filter_append]
    | some i =>
      rw [filter_insert_of_index hname, List.filter_cons_of_neg (by simp [hname]), List.filter_nil, List.append_nil]

theorem ListsAs.merge {other : Members α} (h : ListsAs given m) (hnames : (names (given ++ other)).Nodup) :
    ListsAs (given ++ other) (m.merge other) := by
  induction other generalizing given m with
  | nil => rwa [List.append_nil]
  | cons entry rest ih =>
    have hnew : m.has entry.1 = false := by
      rw [← Bool.not_eq_true, has, List.any_eq_true]
      rintro ⟨e, he, heq⟩
      rw [names, List.map_append, List.map_cons, List.nodup_append] at hnames
      exact hnames.2.2 _ (List.mem_map_of_mem (h.perm.mem_iff.mp he)) _ List.mem_cons_self (eq_of_beq heq)
    have hset : m.set entry.1 entry.2 = Members.insert entry.1 entry.2 m := by
      rw [set, hnew, if_neg Bool.false_ne_true]
    rw [List.append_cons] at hnames ⊢
    show ListsAs _ ((m.set entry.1 entry.2).merge rest)
    rw [hset]
    exact ih (h.insert entry.1 entry.2) hnames

/-- Members that are set one after the other are listed in the order of a record. -/
theorem listsAs_ofList (h : (names given).Nodup) : ListsAs given (ofList given) :=
  (⟨.refl _, .nil, rfl⟩ : ListsAs [] []).merge h

theorem insert_map {β : Type} (f : α → β) (name : Text) (value : α) (m : Members α) :
    insert name (f value) (m.map (Prod.map id f)) = (insert name value m).map (Prod.map id f) := by
  induction m with
  | nil => rfl
  | cons entry rest ih =>
    rw [List.map_cons, insert, insert]
    show (if precedes name entry.1 = true then _ else _) = _
    split
    · rfl
    · rw [List.map_cons, ih]

theorem set_map {β : Type} (f : α → β) (m : Members α) (name : Text) (value : α) :
    set (m.map (Prod.map id f)) name (f value) = (m.set name value).map (Prod.map id f) := by
  have hhas : has (m.map (Prod.map id f)) name = m.has name := List.any_map
  rw [set, set, hhas, insert_map, apply_ite (List.map (Prod.map id f)), List.map_map, List.map_map]
  congr 1
  refine List.map_congr_left fun entry _ => ?_
  exact (apply_ite (Prod.map id f) ((entry.1 == name) = true) (name, value) entry).symm

/-- The order in which members are listed does not depend on their values. -/
theorem merge_map {β : Type} (f : α → β) (m other : Members α) :
    merge (m.map (Prod.map id f)) (other.map (Prod.map id f)) = (m.merge other).map (Prod.map id f) := by
  induction other generalizing m with
  | nil => rfl
  | cons entry rest ih =>
    show merge (set (m.map (Prod.map id f)) entry.1 (f entry.2)) (rest.map (Prod.map id f)) = _
    rw [set_map]
    exact ih (m.set entry.1 entry.2)

theorem ofList_map {β : Type} (f : α → β) (given : Members α) :
    ofList (given.map (Prod.map id f)) = (ofList given).map (Prod.map id f) :=
  merge_map f [] given

end Members

/-! ## Pairs -/

namespace Registry

variable {s : Store} {r : Registry} {pairs before : List (Text × Nat)} {name : Text} {id : Nat}

/-- Names and ids as a registry holds them. -/
def named (pairs : List (Text × Nat)) : List (Value × Nat) := pairs.map fun pair => (.text pair.1, pair.2)

/-- No name and no id is repeated. -/
structure Distinct (pairs : List (Text × Nat)) : Prop where
  names : (pairs.map (·.1)).Nodup
  ids : (pairs.map (·.2)).Nodup

/-- What is said of pairs that are refused. It tells of the first pair that repeats a name or an id of those before it:
of the name if that is repeated, and else of the id, its name and the name that had it before. -/
inductive Refusal : List (Text × Nat) → Text → Prop
  | name {before after : List (Text × Nat)} {name : Text} {id : Nat} (distinct : Distinct before)
      (repeated : name ∈ before.map (·.1)) :
      Refusal (before ++ (name, id) :: after) ("Duplicate kind name '" ++ name ++ "'")
  | id {before after : List (Text × Nat)} {holder name : Text} {id : Nat} (distinct : Distinct before)
      (new : name ∉ before.map (·.1)) (held : (holder, id) ∈ before) :
      Refusal (before ++ (name, id) :: after)
        ("Kinds '" ++ holder ++ "' and '" ++ name ++ "' share id " ++ Text.ofNat id)

/-- What becomes of pairs: a registry that holds them in order, in which names and ids lead to each other, if nothing is
repeated, and else a refusal. -/
structure Registers (outcome : Attempt Registry) (pairs : List (Text × Nat)) : Prop where
  accepted : (∃ r, outcome = .ok r) ↔ Distinct pairs
  refused : ¬ Distinct pairs → ∃ f, outcome = .error (.fault (.invalidRegistry f)) ∧ Refusal pairs f.message
  entries : ∀ r, outcome = .ok r → r.entries = named pairs ∧ r.size = pairs.length
  inverse : ∀ r, outcome = .ok r → ∀ (i : Number) (name : Value),
    r.nameOfValue? (.number i) = some name ↔ ∃ id : Nat, i = .finite id ∧ r.idOf? name = some id

theorem map_fst_named (pairs : List (Text × Nat)) : (named pairs).map (·.1) = (pairs.map (·.1)).map .text := by
  rw [named, List.map_map, List.map_map]
  rfl

theorem map_snd_named (pairs : List (Text × Nat)) : (named pairs).map (·.2) = pairs.map (·.2) := by
  rw [named, List.map_map]
  rfl

theorem mem_named {name : Text} {id : Nat} : (Value.text name, id) ∈ named pairs ↔ (name, id) ∈ pairs := by
  simp [named]

theorem Distinct.oneToOne (h : Distinct pairs) : (⟨named pairs⟩ : Registry).OneToOne where
  names := by
    rw [map_fst_named]
    exact h.names.map fun _ _ heq => Value.text.inj heq
  ids := by
    rw [map_snd_named]
    exact h.ids

/-- One more pair is added, or refused for its name, or refused for its id. -/
theorem add_named (s : Store) (h : Distinct before) (name : Text) (id : Nat) :
    (name ∈ before.map (·.1) ∧
        add ⟨named before⟩ s (.text name, id) = .error (.fault (.invalidRegistry (.duplicateName name)))) ∨
      (name ∉ before.map (·.1) ∧ ∃ holder, (holder, id) ∈ before ∧
        add ⟨named before⟩ s (.text name, id) = .error (.fault (.invalidRegistry (.sharedId holder name id)))) ∨
      Distinct (before ++ [(name, id)]) ∧
        add ⟨named before⟩ s (.text name, id) = .ok ⟨named (before ++ [(name, id)])⟩ := by
  have hr := h.oneToOne
  cases hid : idOf? ⟨named before⟩ (.text name) with
  | some id' =>
    refine .inl ⟨List.mem_map.mpr ⟨(name, id'), mem_named.mp (mem_of_idOf? hid), rfl⟩, ?_⟩
    rw [add, hid]
    rfl
  | none =>
    have hnew : name ∉ before.map (·.1) := fun hmem =>
      idOf?_eq_none hid (by rw [map_fst_named]; exact List.mem_map_of_mem hmem)
    cases hname : nameOf? ⟨named before⟩ id with
    | some holder =>
      obtain ⟨⟨holder, id'⟩, hmem, heq⟩ := List.mem_map.mp (mem_of_nameOf? hname)
      cases heq
      refine .inr (.inl ⟨hnew, holder, hmem, ?_⟩)
      simp only [add, hid, hname]
      rfl
    | none =>
      have hfree : id ∉ before.map (·.2) := fun hmem => nameOf?_eq_none hname (by rw [map_snd_named]; exact hmem)
      refine .inr (.inr ⟨⟨?_, ?_⟩, ?_⟩)
      · rw [List.map_append, List.map_singleton, ← List.concat_eq_append]
        exact h.names.concat hnew
      · rw [List.map_append, List.map_singleton, ← List.concat_eq_append]
        exact h.ids.concat hfree
      · simp only [add, hid, hname]
        rw [named, named, List.map_append]
        rfl

/-- A refusal is never of distinct pairs. -/
theorem Refusal.not_distinct {message : Text} (h : Refusal pairs message) : ¬ Distinct pairs := by
  intro hdistinct
  cases h with
  | name _ repeated =>
    have hnames := hdistinct.names
    rw [List.map_append, List.nodup_append] at hnames
    exact hnames.2.2 _ repeated _ List.mem_cons_self rfl
  | id _ _ held =>
    have hids := hdistinct.ids
    rw [List.map_append, List.nodup_append] at hids
    exact hids.2.2 _ (List.mem_map.mpr ⟨_, held, rfl⟩) _ List.mem_cons_self rfl

/-- Pairs are added to distinct ones up to the first that repeats something. -/
theorem foldlM_add (s : Store) (h : Distinct before) (pairs : List (Text × Nat)) :
    let outcome : Attempt Registry := (named pairs).foldlM (fun r pair => r.add s pair) (Registry.mk (named before))
    (Distinct (before ++ pairs) ∧ outcome = .ok ⟨named (before ++ pairs)⟩) ∨
      ∃ f, outcome = .error (.fault (.invalidRegistry f)) ∧ Refusal (before ++ pairs) f.message := by
  dsimp only
  induction pairs generalizing before with
  | nil => exact .inl ⟨by rwa [List.append_nil], by rw [List.append_nil]; rfl⟩
  | cons pair rest ih =>
    obtain ⟨name, id⟩ := pair
    have hcons : named ((name, id) :: rest) = (.text name, id) :: named rest := rfl
    rw [hcons, List.foldlM_cons]
    rcases add_named s h name id with ⟨hrepeated, hadd⟩ | ⟨hnew, holder, hheld, hadd⟩ | ⟨hdistinct, hadd⟩
    · exact .inr ⟨_, by rw [hadd]; rfl, .name h hrepeated⟩
    · exact .inr ⟨_, by rw [hadd]; rfl, .id h hnew hheld⟩
    · rw [hadd, List.append_cons]
      exact ih hdistinct

/-- In a registry of distinct pairs, a number has a name if and only if that name has it for its id. -/
theorem nameOfValue?_number (hr : r.OneToOne) (i : Number) (name : Value) :
    r.nameOfValue? (.number i) = some name ↔ ∃ id : Nat, i = .finite id ∧ r.idOf? name = some id := by
  rw [nameOfValue?, Option.bind_eq_some_iff]
  refine exists_congr fun id => ?_
  rw [hr.idOf?_iff_nameOf?]
  refine and_congr_left fun _ => ⟨Number.eq_of_toNat?_eq_some, ?_⟩
  rintro rfl
  rfl

theorem registers_ofPairs (s : Store) (pairs : List (Text × Nat)) : Registers (ofPairs s (named pairs)) pairs := by
  have hfold : (Distinct pairs ∧ ofPairs s (named pairs) = .ok ⟨named pairs⟩) ∨
      ∃ f, ofPairs s (named pairs) = .error (.fault (.invalidRegistry f)) ∧ Refusal pairs f.message :=
    foldlM_add s (⟨List.nodup_nil, List.nodup_nil⟩ : Distinct []) pairs
  rcases hfold with ⟨hdistinct, hok⟩ | ⟨f, herror, hrefusal⟩
  · refine ⟨iff_of_true ⟨_, hok⟩ hdistinct, fun hno => absurd hdistinct hno, fun r hr => ?_, fun r hr => ?_⟩
    · cases hok.symm.trans hr
      exact ⟨rfl, List.length_map _⟩
    · cases hok.symm.trans hr
      exact nameOfValue?_number hdistinct.oneToOne
  · have hnot : ∀ r, ofPairs s (named pairs) ≠ .ok r := fun r hr => by cases herror.symm.trans hr
    exact ⟨iff_of_false (fun ⟨r, hr⟩ => hnot r hr) hrefusal.not_distinct, fun _ => ⟨f, herror, hrefusal⟩,
      fun r hr => absurd hr (hnot r), fun r hr => absurd hr (hnot r)⟩

end Registry

/-! ## Reading tables -/

/-- A list of checks comes to all values if every condition holds. -/
theorem Checked.Decides.all {α β : Type} {check : α → Checked β} {p : α → Prop} {value : α → β} {as : List α}
    (h : ∀ a ∈ as, (check a).Decides (p a) (value a)) :
    (Checked.all (as.map check)).Decides (∀ a ∈ as, p a) (as.map value) := by
  induction as with
  | nil => exact (pass []).congr (iff_of_true trivial (List.forall_mem_nil _))
  | cons a rest ih =>
    have hboth := (h a List.mem_cons_self).both (ih fun b hb => h b (List.mem_cons_of_mem _ hb))
    exact (hboth.bind fun _ => pass (value a :: rest.map value)).congr
      ((and_iff_left trivial).trans List.forall_mem_cons.symm)

namespace Decoder

open Checked

variable {α : Type} {s : Store} {v : Value}

/-- A value of the wrong type is reported, if there is a word for its type. -/
theorem decides_wrongType (expected : Text) (h : ∃ word, s.typeName v = .ok word) (a : α) :
    (wrongType expected s v : Checked α).Decides False a := by
  obtain ⟨word, hword⟩ := h
  refine ⟨fun h => h.elim, fun _ => ⟨[⟨[], .wrongType expected word⟩], List.cons_ne_nil _ _, ?_⟩⟩
  rw [wrongType, hword]
  rfl

/-- The natural number that a value is, up to the greatest safe integer. -/
def naturalOf? : Value → Option Nat
  | .number n => n.toNat?.filter (· ≤ Number.greatestSafe)
  | _ => none

theorem naturalOf?_eq_some {v : Value} {n : Nat} :
    naturalOf? v = some n ↔ v = .number (.finite n) ∧ n ≤ Number.greatestSafe := by
  cases v with
  | number x =>
    rw [naturalOf?, Option.filter_eq_some_iff, decide_eq_true_eq]
    refine and_congr_left fun _ => ⟨fun h => by rw [Number.eq_of_toNat?_eq_some h], fun h => ?_⟩
    cases h
    rfl
  | _ => exact iff_of_false (fun h => by cases h) fun h => by cases h.1

/-- A finite number is natural if it has no fraction and lies in the range. -/
theorem decides_finite (s : Store) (q : Rat) : (natural s (.number (.finite q))).Decides
    ((naturalOf? (.number (.finite q))).isSome = true) ((naturalOf? (.number (.finite q))).getD 0) := by
  have hno : ∀ {n : Nat}, naturalOf? (.number (.finite q)) = some n →
      q.den = 1 ∧ q.num = n ∧ n ≤ Number.greatestSafe := by
    intro n hn
    obtain ⟨heq, hle⟩ := naturalOf?_eq_some.mp hn
    cases heq
    exact ⟨rfl, rfl, hle⟩
  have hreject : ∀ {x : Checked Nat}, x.Decides False 0 → naturalOf? (.number (.finite q)) = none →
      x.Decides ((naturalOf? (.number (.finite q))).isSome = true) ((naturalOf? (.number (.finite q))).getD 0) := by
    intro x hx hnone
    rw [hnone]
    exact hx.congr (iff_of_false id Bool.false_ne_true)
  rw [natural]
  by_cases hden : q.den = 1
  · rw [if_neg (not_not_intro hden)]
    split
    · rename_i hbig
      refine hreject (.reject _ _) (Option.eq_none_iff_forall_ne_some.mpr fun n hn => ?_)
      obtain ⟨_, hnum, hle⟩ := hno hn
      omega
    · rename_i hbig
      split
      · rename_i hsmall
        refine hreject ⟨fun h => h.elim, fun _ => ⟨_, List.cons_ne_nil _ _, rfl⟩⟩
          (Option.eq_none_iff_forall_ne_some.mpr fun n hn => ?_)
        obtain ⟨_, hnum, _⟩ := hno hn
        omega
      · split
        · rename_i hnegative
          refine hreject (.reject _ _) (Option.eq_none_iff_forall_ne_some.mpr fun n hn => ?_)
          obtain ⟨_, hnum, _⟩ := hno hn
          omega
        · rename_i hnegative
          have hq : q = (q.num.toNat : Rat) := Rat.ext (Int.toNat_of_nonneg (Int.not_lt.mp hnegative)).symm hden
          have hsome : naturalOf? (.number (.finite q)) = some q.num.toNat :=
            naturalOf?_eq_some.mpr ⟨congrArg (fun q => Value.number (.finite q)) hq, by omega⟩
          rw [hsome]
          exact (Decides.pass _).congr (iff_of_true trivial rfl)
  · rw [if_pos hden]
    refine hreject (.reject _ _) (Option.eq_none_iff_forall_ne_some.mpr fun n hn => hden (hno hn).1)

theorem decides_natural (h : ∃ word, s.typeName v = .ok word) :
    (natural s v).Decides ((naturalOf? v).isSome = true) ((naturalOf? v).getD 0) := by
  have hother : natural s v = wrongType "number" s v → naturalOf? v = none →
      (natural s v).Decides ((naturalOf? v).isSome = true) ((naturalOf? v).getD 0) := by
    intro hwrong hnone
    rw [hwrong, hnone]
    exact (decides_wrongType "number" h _).congr (iff_of_false id Bool.false_ne_true)
  cases v with
  | number x =>
    cases x with
    | nan => exact hother rfl rfl
    | infinity negative => exact hother rfl rfl
    | finite q => exact decides_finite s q
  | _ => exact hother rfl rfl

/-- A table is read entry by entry, without an entry under the name of the base. -/
theorem decides_table {key : Text → Bool} {value : Decoder α} {p : Value → Prop} {a : Value → α}
    (hv : s.isTable v = false → ∃ word, s.typeName v = .ok word)
    (hvalue : ∀ entry ∈ (s.listed v).filter (·.1 ≠ baseName), (value s entry.2).Decides (p entry.2) (a entry.2)) :
    (table key value s v).Decides
      (s.isTable v = true ∧ ∀ entry ∈ (s.listed v).filter (·.1 ≠ baseName), key entry.1 = true ∧ p entry.2)
      (((s.listed v).filter (·.1 ≠ baseName)).map fun entry => (entry.1, a entry.2)) := by
  rw [table]
  cases htable : s.isTable v with
  | false =>
    rw [if_neg Bool.false_ne_true]
    exact (decides_wrongType "record" (hv htable) _).congr (iff_of_false id fun h => Bool.false_ne_true h.1)
  | true =>
    rw [if_pos rfl]
    refine (Decides.all fun entry hentry => ?_).congr (and_iff_right rfl).symm
    refine Decides.under ?_ entry.1
    split
    · rename_i hkey
      exact ((hvalue entry hentry).bind fun _ => Decides.pass (entry.1, a entry.2)).congr
        ⟨fun h => ⟨hkey, h.1⟩, fun h => ⟨h.2, trivial⟩⟩
    · rename_i hkey
      exact (Decides.reject _ _).congr (iff_of_false id fun h => hkey h.1)

end Decoder

namespace Registry

variable {s : Store} {v : Value} {pairs : List (Text × Nat)}

/-! ## Lists of names -/

/-- Values in a row are added with their places. -/
theorem foldlM_placed (s : Store) (values : List Value) {r : Registry} {place : Nat} (h : r.size = place) :
    (Sequence.placed place values).foldlM (fun (r : Registry) entry =>
        if entry.1 = r.size then r.add s (entry.2, entry.1) else throw (.misuse .noMembers)) r =
      (values.zipIdx place).foldlM (fun r pair => r.add s pair) r := by
  induction values generalizing r place with
  | nil => rfl
  | cons value rest ih =>
    rw [Sequence.placed_cons, List.zipIdx_cons, List.foldlM_cons, List.foldlM_cons, if_pos h.symm]
    cases hadd : r.add s (value, place) with
    | error f => rfl
    | ok next =>
      refine ih ?_
      rw [size, (add_ok hadd).1, List.length_append, List.length_singleton, ← h]
      rfl

theorem ofElements_ofList (s : Store) (values : List Value) : ofElements s (.ofList values) = ofNames s values := by
  have hfold : ((Sequence.ofList values).entries.foldlM (fun (r : Registry) entry =>
      if entry.1 = r.size then r.add s (entry.2, entry.1) else throw (.misuse .noMembers)) empty) = ofNames s values :=
    foldlM_placed s values rfl
  show ((Sequence.ofList values).entries.foldlM (fun (r : Registry) entry =>
      if entry.1 = r.size then r.add s (entry.2, entry.1) else throw (.misuse .noMembers)) empty >>= fun r =>
        if r.size = values.length then (.ok r : Attempt Registry) else throw (.misuse .noMembers)) = _
  rw [hfold]
  cases hnames : ofNames s values with
  | error f => rfl
  | ok r =>
    have hsize : r.size = values.length := by rw [size, (ofNames_ok hnames).1, List.length_zipIdx]
    exact if_pos hsize

/-- The places of names are ids that are not repeated. -/
theorem distinct_zipIdx {names : List Text} : Distinct names.zipIdx ↔ names.Nodup := by
  refine ⟨fun h => List.zipIdx_map_fst 0 names ▸ h.names, fun h => ⟨?_, ?_⟩⟩
  · rwa [List.zipIdx_map_fst]
  · rw [List.zipIdx_map_snd]
    exact List.nodup_range'

theorem zipIdx_map_text (names : List Text) : (names.map Value.text).zipIdx = named names.zipIdx := by
  rw [List.zipIdx_map]
  rfl

theorem ofList_eq (s : Store) {names : List Text} (h : s.mapped v = .ok (.ofList (names.map .text))) :
    ofList s v = ofPairs s (named names.zipIdx) := by
  rw [ofList, h, ← zipIdx_map_text]
  exact ofElements_ofList s (names.map .text)

/-! ## Tables -/

/-- A value is a table of the pairs, in the order in which it lists them: names that are not empty and natural numbers
up to the greatest safe integer. -/
structure Tabulates (s : Store) (v : Value) (pairs : List (Text × Nat)) : Prop where
  isTable : s.isTable v = true
  listed : s.listed v = pairs.map fun pair => (pair.1, .number (.finite pair.2))
  names : (pairs.map (·.1)).Nodup
  nonempty : ∀ pair ∈ pairs, pair.1 ≠ []
  safe : ∀ pair ∈ pairs, pair.2 ≤ Number.greatestSafe

/-- A value is read as a table exactly if it is one, and is then handed on unchanged. -/
structure ReadExactly (s : Store) (v : Value) : Prop where
  unchanged : ∀ pairs, Tabulates s v pairs → (Decoder.table (· ≠ []) Decoder.natural s v).run = .ok (.ok pairs)
  otherwise : (∀ pairs, ¬ Tabulates s v pairs) →
    ∃ issues, (Decoder.table (· ≠ []) Decoder.natural s v).run = .ok (.error issues)

theorem ReadExactly.ofTable_eq (h : ReadExactly s v) (hpairs : Tabulates s v pairs) :
    ofTable s v = ofPairs s (named pairs) := by
  rw [ofTable, h.unchanged pairs hpairs]
  rfl

theorem ReadExactly.ofTable_refused (h : ReadExactly s v) (hno : ∀ pairs, ¬ Tabulates s v pairs) :
    ∃ f, ofTable s v = .error (.fault (.invalidRegistry f)) := by
  obtain ⟨issues, hrun⟩ := h.otherwise hno
  rw [ofTable, hrun]
  exact ⟨_, rfl⟩

/-- No member of a value is lost, or cannot be told of, when it is read as a table: none is listed under the name of
the base, none is listed twice, and unless it is a table of names and ids there is a word for its type and for the types
of its members. -/
structure Itemized (s : Store) (v : Value) : Prop where
  notBase : ∀ entry ∈ s.listed v, entry.1 ≠ baseName
  names : ((s.listed v).map (·.1)).Nodup
  words : (∀ pairs, ¬ Tabulates s v pairs) →
    ∀ w ∈ v :: (s.listed v).map (·.2), ∃ word, s.typeName w = .ok word

/-- Reading a table of names and ids in which none is listed under the name of the base. -/
theorem decides_pairs (hbase : ∀ entry ∈ s.listed v, entry.1 ≠ baseName)
    (hv : s.isTable v = false → ∃ word, s.typeName v = .ok word)
    (hmembers : ∀ entry ∈ s.listed v, ∃ word, s.typeName entry.2 = .ok word) :
    (Decoder.table (· ≠ []) Decoder.natural s v).Decides
      (s.isTable v = true ∧ ∀ entry ∈ s.listed v,
        decide (entry.1 ≠ []) = true ∧ (Decoder.naturalOf? entry.2).isSome = true)
      ((s.listed v).map fun entry => (entry.1, (Decoder.naturalOf? entry.2).getD 0)) := by
  have hall : (s.listed v).filter (·.1 ≠ baseName) = s.listed v :=
    List.filter_eq_self.mpr fun entry hentry => decide_eq_true (hbase entry hentry)
  rw [← hall]
  exact Decoder.decides_table (p := fun v => (Decoder.naturalOf? v).isSome = true)
    (a := fun v => (Decoder.naturalOf? v).getD 0) hv fun entry hentry =>
      Decoder.decides_natural (hmembers entry (List.mem_filter.mp hentry).1)

theorem Tabulates.run_table (h : Tabulates s v pairs) (hbase : ∀ entry ∈ s.listed v, entry.1 ≠ baseName) :
    (Decoder.table (· ≠ []) Decoder.natural s v).run = .ok (.ok pairs) := by
  have hentry : ∀ {entry : Text × Value}, entry ∈ s.listed v →
      ∃ pair ∈ pairs, entry = (pair.1, .number (.finite pair.2)) ∧ Decoder.naturalOf? entry.2 = some pair.2 := by
    intro entry hmem
    rw [h.listed] at hmem
    obtain ⟨pair, hpair, rfl⟩ := List.mem_map.mp hmem
    exact ⟨pair, hpair, rfl, Decoder.naturalOf?_eq_some.mpr ⟨rfl, h.safe pair hpair⟩⟩
  have hread := (decides_pairs hbase (fun hno => by rw [h.isTable] at hno; cases hno) fun entry hmem => by
    obtain ⟨pair, _, rfl, _⟩ := hentry hmem
    exact ⟨"number", rfl⟩).holds ⟨h.isTable, fun entry hmem => by
      obtain ⟨pair, hpair, rfl, hnatural⟩ := hentry hmem
      exact ⟨decide_eq_true (h.nonempty pair hpair), by rw [hnatural]; rfl⟩⟩
  have hpairs : ((s.listed v).map fun entry => (entry.1, (Decoder.naturalOf? entry.2).getD 0)) = pairs := by
    rw [h.listed, List.map_map]
    refine (List.map_congr_left fun pair hpair => ?_).trans (List.map_id pairs)
    show (pair.1, (Decoder.naturalOf? (.number (.finite pair.2))).getD 0) = pair
    rw [Decoder.naturalOf?_eq_some.mpr ⟨rfl, h.safe pair hpair⟩]
    rfl
  rwa [hpairs] at hread

/-- What is read as a table of names and ids is one, if it lists no name twice. -/
theorem tabulates_listed (hnames : ((s.listed v).map (·.1)).Nodup) (htable : s.isTable v = true)
    (hentries : ∀ entry ∈ s.listed v, decide (entry.1 ≠ []) = true ∧ (Decoder.naturalOf? entry.2).isSome = true) :
    Tabulates s v ((s.listed v).map fun entry => (entry.1, (Decoder.naturalOf? entry.2).getD 0)) := by
  have hentry : ∀ {entry : Text × Value}, entry ∈ s.listed v →
      entry.1 ≠ [] ∧ entry.2 = .number (.finite ((Decoder.naturalOf? entry.2).getD 0 : Nat)) ∧
        (Decoder.naturalOf? entry.2).getD 0 ≤ Number.greatestSafe := by
    intro entry hmem
    obtain ⟨hnonempty, hsome⟩ := hentries entry hmem
    obtain ⟨n, hn⟩ := Option.isSome_iff_exists.mp hsome
    rw [hn]
    exact ⟨of_decide_eq_true hnonempty, Decoder.naturalOf?_eq_some.mp hn⟩
  refine ⟨htable, ?_, by rwa [List.map_map], List.forall_mem_map.mpr fun entry hmem => (hentry hmem).1,
    List.forall_mem_map.mpr fun entry hmem => (hentry hmem).2.2⟩
  rw [List.map_map]
  exact (List.map_id _).symm.trans (List.map_congr_left fun entry hmem => Prod.ext rfl (hentry hmem).2.1)

theorem Itemized.readExactly (h : Itemized s v) : ReadExactly s v where
  unchanged _ hpairs := hpairs.run_table h.notBase
  otherwise hno := by
    have hread := decides_pairs h.notBase (fun _ => h.words hno v List.mem_cons_self) fun entry hmem =>
      h.words hno entry.2 (List.mem_cons_of_mem _ (List.mem_map_of_mem hmem))
    obtain ⟨issues, _, hrun⟩ := hread.fails fun hgood => hno _ (tabulates_listed h.names hgood.1 hgood.2)
    exact ⟨issues, hrun⟩

/-- An object is a record that was given the pairs, in some order. -/
structure Records (s : Store) (id : ObjectId) (given : List (Text × Nat)) : Prop where
  isTable : s.isTable (.object id) = true
  object : ∃ isSealed, s.object? id =
    some (.record (.ofList (given.map fun pair => (pair.1, .number (.finite pair.2)))) isSealed)
  names : (given.map (·.1)).Nodup
  nonempty : ∀ pair ∈ given, pair.1 ≠ []
  safe : ∀ pair ∈ given, pair.2 ≤ Number.greatestSafe

/-- A record tabulates the pairs that it was given, in the order in which it lists its members. -/
theorem Records.tabulates {record : ObjectId} {given : List (Text × Nat)} (h : Records s record given) :
    Members.ListsAs given (Members.ofList given) ∧ Tabulates s (.object record) (Members.ofList given) := by
  have hlists : Members.ListsAs given (Members.ofList given) := Members.listsAs_ofList h.names
  have hmem : ∀ {pair}, pair ∈ Members.ofList given → pair ∈ given := hlists.perm.mem_iff.mp
  refine ⟨hlists, h.isTable, ?_, (hlists.perm.map _).nodup_iff.mpr h.names,
    fun pair hpair => h.nonempty pair (hmem hpair), fun pair hpair => h.safe pair (hmem hpair)⟩
  obtain ⟨isSealed, hobject⟩ := h.object
  rw [Store.listed, hobject]
  exact Members.ofList_map (fun n : Nat => Value.number (.finite n)) given

/-! ## Registries -/

/-- A list of names makes a registry if and only if no name is repeated, with places for ids. Of the values that are
read exactly, a table of names and ids makes one if and only if no id is repeated, and everything else is refused; and
itemized values are read exactly. Pairs are taken, and refused, in the order in which a list or a record has them. Zero
has no sign, so there is one id for both zeros. -/
theorem numbered (s : Store) :
    (∀ v (names : List Text), s.mapped v = .ok (.ofList (names.map .text)) →
      ((∃ r, ofList s v = .ok r) ↔ names.Nodup) ∧ Registers (ofList s v) names.zipIdx) ∧
    (∀ v, ReadExactly s v →
      (∀ pairs, Tabulates s v pairs →
        ((∃ r, ofTable s v = .ok r) ↔ (pairs.map (·.2)).Nodup) ∧ Registers (ofTable s v) pairs) ∧
      ((∀ pairs, ¬ Tabulates s v pairs) → ∃ f, ofTable s v = .error (.fault (.invalidRegistry f)))) ∧
    (∀ v, Itemized s v → ReadExactly s v) ∧
    ∀ id given, Records s id given → ∃ pairs, Members.ListsAs given pairs ∧ Tabulates s (.object id) pairs := by
  refine ⟨fun v names h => ?_, fun v hread => ⟨fun pairs h => ?_, hread.ofTable_refused⟩, fun v => Itemized.readExactly,
    fun id given h => ⟨_, h.tabulates⟩⟩
  · have hregisters := registers_ofPairs s names.zipIdx
    rw [← ofList_eq s h] at hregisters
    exact ⟨hregisters.accepted.trans distinct_zipIdx, hregisters⟩
  · have hregisters := registers_ofPairs s pairs
    rw [← hread.ofTable_eq h] at hregisters
    exact ⟨hregisters.accepted.trans ⟨Distinct.ids, fun hids => ⟨h.names, hids⟩⟩, hregisters⟩

/-- A store with two tables of kinds, a record that is none and a list of kinds. -/
def tabled : Store :=
  (Session.start 0).store.addAll
    [.ofMembers (.ofList [("b", .ofNat 1), ("7", .ofNat 0), ("2", .ofNat 3)]),
      .ofMembers (.ofList [("a", .ofNat 1), ("b", .ofNat 1), ("c", .ofNat 1)]),
      .ofMembers (.ofList [("a", .text "1")]), .ofItems [.text "x", .text "y", .text "x"]]

/-- Names that are indices come first; the first repetition is what is refused; and so is what is no id. -/
theorem numbered_tabled :
    (∃ pairs, Members.ListsAs [("b", 1), ("7", 0), ("2", 3)] pairs ∧ Tabulates tabled (.object 29) pairs) ∧
    (∃ r, ofTable tabled (.object 29) = .ok r ∧ r.entries = named [("2", 3), ("7", 0), ("b", 1)]) ∧
    (∃ f, ofTable tabled (.object 30) = .error (.fault (.invalidRegistry f)) ∧
      Refusal [("a", 1), ("b", 1), ("c", 1)] f.message) ∧
    (∃ f, ofTable tabled (.object 31) = .error (.fault (.invalidRegistry f))) ∧
    ∃ f, ofList tabled (.object 32) = .error (.fault (.invalidRegistry f)) ∧
      Refusal [("x", 0), ("y", 1), ("x", 2)] f.message := by
  obtain ⟨hlist, htable, hitemized, hrecord⟩ := numbered tabled
  have hfirst : Tabulates tabled (.object 29) [("2", 3), ("7", 0), ("b", 1)] :=
    ⟨by decide, rfl, by decide, by decide, by decide⟩
  have hsecond : Tabulates tabled (.object 30) [("a", 1), ("b", 1), ("c", 1)] :=
    ⟨by decide, rfl, by decide, by decide, by decide⟩
  refine ⟨hrecord 29 _ ⟨by decide, ⟨false, rfl⟩, by decide, by decide, by decide⟩, ?_, ?_, ?_, ?_⟩
  · have hread := hitemized (.object 29) ⟨by decide, by decide, fun hno => absurd hfirst (hno _)⟩
    obtain ⟨hiff, hregisters⟩ := (htable _ hread).1 _ hfirst
    obtain ⟨r, hr⟩ := hiff.mpr (by decide)
    exact ⟨r, hr, (hregisters.entries r hr).1⟩
  · have hread := hitemized (.object 30) ⟨by decide, by decide, fun hno => absurd hsecond (hno _)⟩
    exact ((htable _ hread).1 _ hsecond).2.refused fun h => absurd h.ids (by decide)
  · refine (htable _ (hitemized (.object 31) ⟨by decide, by decide, fun _ w hw => ?_⟩)).2 fun pairs h => ?_
    · rcases List.mem_pair.mp hw with rfl | rfl
      · exact ⟨"object", rfl⟩
      · exact ⟨"string", rfl⟩
    · have hlisted := h.listed
      cases pairs with
      | nil => cases hlisted
      | cons pair rest => cases congrArg Prod.snd (List.cons.inj hlisted).1
  · obtain ⟨hiff, hregisters⟩ := hlist (.object 32) ["x", "y", "x"] rfl
    exact hregisters.refused fun h => absurd h.names (by decide)

end Registry

end LosslessSyntax
