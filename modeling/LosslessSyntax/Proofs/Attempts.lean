import LosslessSyntax.Fault
import Mathlib.Data.List.Forall2

/-!
# Attempts

Most of the library is attempts that are made of others. Here is what the outcome of the whole says of its parts, and the
other way round:

* for two attempts one after the other, `Attempt.bind_eq_ok`;
* for one attempt at each item of a list, `Attempt.forall₂_of_mapM`, `Attempt.mapM_ok` and `Attempt.mapM_error`;
* for attempts that hand on a state, `Attempt.foldlM_eq_error`, and for those that look for an answer,
  `Attempt.findSomeM?_append`.
-/

namespace LosslessSyntax.Attempt

variable {ε α β γ : Type}

theorem pure_eq_ok (a : α) : (pure a : Except ε α) = .ok a := rfl

theorem ok_bind (a : α) (f : α → Except ε β) : ((.ok a : Except ε α) >>= f) = f a := rfl

theorem bind_eq_ok {x : Except ε α} {f : α → Except ε β} {b : β} (h : (x >>= f) = .ok b) :
    ∃ a, x = .ok a ∧ f a = .ok b := by
  cases x with
  | error e => cases h
  | ok a => exact ⟨a, rfl, h⟩

/-- The failure that an attempt came to. -/
def failure? : Attempt α → Option Failure
  | .ok _ => none
  | .error failure => some failure

theorem eq_error_of_failure? {x : Attempt α} {failure : Failure} (h : x.failure? = some failure) :
    x = .error failure := by
  cases x with
  | ok a => cases h
  | error f => exact congrArg Except.error (Option.some.inj h)

/-- What succeeds as an option succeeds. -/
theorem eq_ok {x : Attempt α} {a : α} (h : x.toOption = some a) : x = .ok a := by
  cases x with
  | error f => cases h
  | ok b => exact congrArg Except.ok (Option.some.inj h)

theorem ofMisuse_eq_ok {x : Except Misuse α} {a : α} (h : ofMisuse x = .ok a) : x = .ok a := by
  cases x with
  | error m => cases h
  | ok b => exact congrArg Except.ok (Except.ok.inj h)

/-! ## One attempt at each item -/

theorem mapM_ok {f : α → Except ε β} {g : α → β} {as : List α} (h : ∀ a ∈ as, f a = .ok (g a)) :
    as.mapM f = .ok (as.map g) := by
  induction as with
  | nil => rfl
  | cons a as ih =>
    rw [List.mapM_cons, h a List.mem_cons_self, ih fun b hb => h b (List.mem_cons_of_mem _ hb)]
    rfl

theorem mapM_congr {f g : α → Except ε β} {as : List α} (h : ∀ a ∈ as, f a = g a) : as.mapM f = as.mapM g := by
  induction as with
  | nil => rfl
  | cons a as ih =>
    rw [List.mapM_cons, List.mapM_cons, h a List.mem_cons_self, ih fun b hb => h b (List.mem_cons_of_mem _ hb)]

/-- Items one of which fails, while each of the others succeeds or fails likewise. -/
theorem mapM_error {f : α → Except ε β} {e : ε} {as : List α} (h : ∀ a ∈ as, f a = .error e ∨ ∃ b, f a = .ok b)
    (hfails : ∃ a ∈ as, f a = .error e) : as.mapM f = .error e := by
  induction as with
  | nil =>
    obtain ⟨a, ha, _⟩ := hfails
    cases ha
  | cons a as ih =>
    rw [List.mapM_cons]
    rcases h a List.mem_cons_self with hfail | ⟨b, hok⟩
    · rw [hfail]
      rfl
    · obtain ⟨a', ha', hfail⟩ := hfails
      rcases List.mem_cons.mp ha' with rfl | ha'
      · rw [hok] at hfail
        cases hfail
      · rw [hok, ih (fun b hb => h b (List.mem_cons_of_mem _ hb)) ⟨a', ha', hfail⟩]
        rfl

/-- Each item comes to the result that stands in its place. -/
theorem forall₂_of_mapM {f : α → Except ε β} {as : List α} {bs : List β} (h : as.mapM f = .ok bs) :
    List.Forall₂ (fun a b => f a = .ok b) as bs := by
  induction as generalizing bs with
  | nil =>
    cases h
    exact .nil
  | cons a as ih =>
    rw [List.mapM_cons] at h
    obtain ⟨first, hfirst, h⟩ := bind_eq_ok h
    obtain ⟨rest, hrest, h⟩ := bind_eq_ok h
    cases h
    exact .cons hfirst (ih hrest)

theorem exists_of_forall₂ {R : α → β → Prop} {as : List α} {bs : List β} (h : List.Forall₂ R as bs) {a : α}
    (ha : a ∈ as) : ∃ b ∈ bs, R a b := by
  induction h with
  | nil => cases ha
  | cons hfirst _ ih =>
    rcases List.mem_cons.mp ha with rfl | ha
    · exact ⟨_, List.mem_cons_self, hfirst⟩
    · obtain ⟨b, hb, hrest⟩ := ih ha
      exact ⟨b, List.mem_cons_of_mem _ hb, hrest⟩

/-- Each result comes from an item. -/
theorem exists_of_mapM {f : α → Except ε β} {as : List α} {bs : List β} (h : as.mapM f = .ok bs) {b : β} (hb : b ∈ bs) :
    ∃ a ∈ as, f a = .ok b :=
  exists_of_forall₂ (R := fun b a => f a = .ok b) (forall₂_of_mapM h).flip hb

/-! ## A state that is handed on -/

/-- Entries that a step passes over can be left out. -/
theorem foldlM_elim (get : α → Option γ) (step : β → γ → Attempt β) (as : List α) (state : β) :
    as.foldlM (fun state a => (get a).elim (pure state) (step state)) state = (as.filterMap get).foldlM step state := by
  induction as generalizing state with
  | nil => rfl
  | cons a as ih =>
    rw [List.foldlM_cons, List.filterMap_cons]
    cases hget : get a with
    | none => exact ih state
    | some c =>
      simp only [Option.elim_some, List.foldlM_cons]
      exact bind_congr ih

theorem foldlM_eq_error {f : β → α → Except ε β} {as : List α} {b : β} {e : ε} (h : as.foldlM f b = .error e) :
    ∃ a ∈ as, ∃ b', f b' a = .error e := by
  induction as generalizing b with
  | nil => cases h
  | cons a as ih =>
    rw [List.foldlM_cons] at h
    cases hf : f b a with
    | error e' =>
      rw [hf] at h
      cases h
      exact ⟨a, List.mem_cons_self, b, hf⟩
    | ok b' =>
      rw [hf] at h
      obtain ⟨a', ha', hfails⟩ := ih h
      exact ⟨a', List.mem_cons_of_mem _ ha', hfails⟩

/-! ## A search -/

/-- A search goes on behind the first part of a list if there is no answer in it. -/
theorem findSomeM?_append (f : α → Attempt (Option β)) (as bs : List α) :
    (as ++ bs).findSomeM? f = as.findSomeM? f >>= fun found =>
      match found with
      | some b => pure (some b)
      | none => bs.findSomeM? f := by
  induction as with
  | nil => rfl
  | cons a as ih =>
    rw [List.cons_append, List.findSomeM?_cons, List.findSomeM?_cons, bind_assoc]
    refine bind_congr fun found => ?_
    cases found with
    | none => exact ih
    | some b => rfl

end LosslessSyntax.Attempt
