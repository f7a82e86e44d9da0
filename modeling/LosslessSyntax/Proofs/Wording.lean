import LosslessSyntax.Proofs.Journals
import LosslessSyntax.Proofs.Keeping
import LosslessSyntax.Proofs.Measures
import LosslessSyntax.Report
import LosslessSyntax.Session
import Mathlib.Data.Fintype.Card
import Mathlib.Data.Nat.Find
import Mathlib.Logic.Relation

/-!
# Wording errors

When an error can be worded, for a reader and for a log.

The class of an error is told by its name, and what it carries is read without a check. So a wording exists exactly if
what the class reads from the payload can be read and shown: `needs` lists that for each class, and `Legible` says that
it is there. A wording for a log goes on along the causes (`Leads`), so it exists exactly if the causes come to an end
(`CausesEnd`) and each of them can be shown (`Shown`). The depth to which causes are followed is no limit of its own:
links of a chain that ends are distinct objects of the store.
-/

namespace LosslessSyntax

namespace Attempt

variable {ε α β : Type}

theorem exists_bind_iff {x : Except ε α} {f : α → Except ε β} :
    (∃ b, (x >>= f) = .ok b) ↔ ∃ a, x = .ok a ∧ ∃ b, f a = .ok b := by
  constructor
  · rintro ⟨b, h⟩
    obtain ⟨a, ha, hb⟩ := Attempt.bind_eq_ok h
    exact ⟨a, ha, b, hb⟩
  · rintro ⟨a, ha, b, hb⟩
    exact ⟨b, by rw [ha]; exact hb⟩

theorem exists_map_iff {x : Except ε α} {f : α → β} : (∃ b, f <$> x = .ok b) ↔ ∃ a, x = .ok a := by
  cases x <;> simp [Functor.map, Except.map]

theorem exists_pure (a : α) : ∃ b, (pure a : Except ε α) = .ok b := ⟨a, rfl⟩

theorem exists_ite_iff {p : Prop} [Decidable p] {x : Except ε α} {a : α} :
    (∃ b, (if p then x else pure a) = .ok b) ↔ (p → ∃ b, x = .ok b) := by
  by_cases hp : p
  · rw [if_pos hp, forall_prop_of_true hp]
  · rw [if_neg hp, forall_prop_of_false hp, iff_true]
    exact exists_pure a

theorem of_bind {x : Except ε α} {f : α → Except ε β} {P : β → Prop} (h : ∀ a b, f a = .ok b → P b) (b : β)
    (hb : (x >>= f) = .ok b) : P b := by
  obtain ⟨a, _, hb⟩ := Attempt.bind_eq_ok hb
  exact h a b hb

theorem of_pure {a : α} {P : α → Prop} (h : P a) (b : α) (hb : (pure a : Except ε α) = .ok b) : P b :=
  Except.ok.inj hb ▸ h

end Attempt

namespace Data

variable {s : Store}

/-- Data that can stand in a text. -/
def HasText (s : Store) (d : Data) : Prop := ∃ t, d.text s = .ok t

theorem exists_member {d : Data} (name : Text) (h : d.isMissing = false) : ∃ m, d.member s name = .ok m := by
  cases d with
  | leaf v =>
    cases v with
    | undefined | null => cases h
    | _ => exact ⟨_, rfl⟩
  | _ => exact ⟨_, rfl⟩

end Data

namespace Report

variable {s : Store}

/-! ## What is read from a payload -/

/-- What a wording asks of a member: that it has a text, or has one if it is true; that it is a list to join, or is one
if it has a length. -/
inductive Need where
  | text
  | textIfTrue
  | texts
  | textsIfAny

def Need.Met (s : Store) (m : Data) : Need → Prop
  | .text => m.HasText s
  | .textIfTrue => m.truthy = true → m.HasText s
  | .texts => ∃ t, m.joined s "; " = .ok t
  | .textsIfAny => ∀ n, m.member s "length" = .ok n → n.truthy = true → ∃ t, m.joined s "; " = .ok t

/-- The members of a payload that are put in the wording of a class. -/
def needs : ErrorClass → List (Text × Need)
  | .malformedTree => [("kind", .textIfTrue), ("message", .text)]
  | .detachedNode => [("kind", .text)]
  | .unknownKind => [("registry", .text), ("kind", .text)]
  | .invalidDefinition => [("issues", .textsIfAny), ("message", .text)]
  | .invalidRegistry => [("message", .text)]
  | .invalidSettings => [("issues", .texts)]
  | .unknown => []

/-- The payload of data that has the name of a class holds what the wording of the class reads from it. -/
def Legible (s : Store) (d : Data) : Prop :=
  ∀ c, classOf? s d = some c → ∃ payload, d.member s "data" = .ok payload ∧ payload.isMissing = false ∧
    ∀ need ∈ needs c, ∀ m, payload.member s need.1 = .ok m → need.2.Met s m

/-- The wording of data for a log goes on to its cause. -/
structure Leads (s : Store) (d cause : Data) : Prop where
  unworded : ∃ r, forReader s d = .ok r ∧ r.truthy = false
  isError : (errorKind? s d).isSome = true
  read : d.member s "cause" = .ok cause
  isTrue : cause.truthy = true

/-- What the wording of data for a log takes from the data itself can be shown: the wording for a reader if it is true;
otherwise, of an error, the stack text or the message, and of any other data the data. -/
def Shown (s : Store) (d : Data) : Prop :=
  ∃ r, forReader s d = .ok r ∧
    if r.truthy then r.HasText s
    else if (errorKind? s d).isSome then
      ∀ stack message, d.member s "stack" = .ok stack → d.member s "message" = .ok message →
        (either stack message).isMissing = false → (either stack message).HasText s
    else d.HasText s

/-- Data that has a wording for a log, with causes down to a depth, and one that can stand in a text. -/
def Conveyed (s : Store) (depth : Nat) (d : Data) : Prop := ∃ r, forLogAt s depth d = .ok r ∧ r.HasText s

theorem exists_parts {d : Data} (h : (errorKind? s d).isSome = true) : ∃ stack message cause,
    d.member s "stack" = .ok stack ∧ d.member s "message" = .ok message ∧ d.member s "cause" = .ok cause := by
  have hthere : d.isMissing = false := by
    cases d with
    | leaf v =>
      cases v with
      | object id => rfl
      | _ => cases h
    | _ => rfl
  obtain ⟨stack, hstack⟩ := Data.exists_member (s := s) "stack" hthere
  obtain ⟨message, hmessage⟩ := Data.exists_member (s := s) "message" hthere
  obtain ⟨cause, hcause⟩ := Data.exists_member (s := s) "cause" hthere
  exact ⟨stack, message, cause, hstack, hmessage, hcause⟩

section

variable {depth : Nat} {d r : Data} (hr : forReader s d = .ok r)

include hr

theorem leads_iff {cause : Data} : Leads s d cause ↔ r.truthy = false ∧ (errorKind? s d).isSome = true ∧
    d.member s "cause" = .ok cause ∧ cause.truthy = true := by
  constructor
  · rintro ⟨⟨r', hr', hfalse⟩, hkind, hcause, htrue⟩
    rw [hr] at hr'
    cases hr'
    exact ⟨hfalse, hkind, hcause, htrue⟩
  · rintro ⟨hfalse, hkind, hcause, htrue⟩
    exact ⟨⟨r, hr, hfalse⟩, hkind, hcause, htrue⟩

theorem forLogAt_worded (htrue : r.truthy = true) : forLogAt s (depth + 1) d = .ok r := by
  rw [forLogAt, hr, Attempt.ok_bind, if_pos htrue]
  rfl

theorem forLogAt_plain (hfalse : r.truthy = false) (hkind : (errorKind? s d).isSome = false) :
    forLogAt s (depth + 1) d = Data.ofText <$> d.text s := by
  rw [forLogAt, hr, Attempt.ok_bind, hfalse, if_neg Bool.false_ne_true, hkind, if_neg Bool.false_ne_true]
  rfl

/-- The wording of an error for a log: what caused it is put in words before its own text, and is placed after it. -/
theorem forLogAt_error (hfalse : r.truthy = false) (hkind : (errorKind? s d).isSome = true)
    {stack message cause : Data} (hstack : d.member s "stack" = .ok stack)
    (hmessage : d.member s "message" = .ok message) (hcause : d.member s "cause" = .ok cause) :
    forLogAt s (depth + 1) d =
      (if cause.truthy then causedBy <$> (forLogAt s depth cause >>= Data.text s) else pure []) >>= fun causeText =>
        (if (either stack message).isMissing = false then (either stack message).text s else pure []) >>= fun ownText =>
          pure (.ofText (ownText ++ causeText)) := by
  rw [forLogAt, hr, Attempt.ok_bind, hfalse, if_neg Bool.false_ne_true, hkind, if_pos rfl, hstack, Attempt.ok_bind,
    hmessage, Attempt.ok_bind, hcause, Attempt.ok_bind]
  cases cause.truthy <;> cases (either stack message).isMissing <;> rfl

theorem exists_ofText_of_forLogAt (hfalse : r.truthy = false) :
    ∀ r', forLogAt s (depth + 1) d = .ok r' → ∃ t, r' = .ofText t := by
  cases hkind : (errorKind? s d).isSome with
  | true =>
    obtain ⟨stack, message, cause, hstack, hmessage, hcause⟩ := exists_parts hkind
    rw [forLogAt_error hr hfalse hkind hstack hmessage hcause]
    exact Attempt.of_bind fun _ => Attempt.of_bind fun _ => Attempt.of_pure ⟨_, rfl⟩
  | false =>
    rw [forLogAt_plain hr hfalse hkind, map_eq_pure_bind]
    exact Attempt.of_bind fun _ => Attempt.of_pure ⟨_, rfl⟩

theorem conveyed_unworded (hfalse : r.truthy = false) :
    Conveyed s (depth + 1) d ↔ ∃ r', forLogAt s (depth + 1) d = .ok r' := by
  constructor
  · rintro ⟨r', h, -⟩
    exact ⟨r', h⟩
  · rintro ⟨r', h⟩
    obtain ⟨t, rfl⟩ := exists_ofText_of_forLogAt hr hfalse r' h
    exact ⟨.ofText t, h, t, rfl⟩

end

/-- What one step towards a wording for a log does: data is conveyed if it can be shown and its cause is conveyed. -/
theorem conveyed_succ_iff {depth : Nat} {d : Data} :
    Conveyed s (depth + 1) d ↔ Shown s d ∧ ∀ cause, Leads s d cause → Conveyed s depth cause := by
  cases hr : forReader s d with
  | error m => simp [Conveyed, Shown, forLogAt, hr, bind, Except.bind]
  | ok r =>
    simp only [Shown, hr, Except.ok.injEq, exists_eq_left', leads_iff hr]
    cases htrue : r.truthy with
    | true => simp [Conveyed, forLogAt_worded hr htrue]
    | false =>
      rw [conveyed_unworded hr htrue]
      cases hkind : (errorKind? s d).isSome with
      | true =>
        obtain ⟨stack, message, cause, hstack, hmessage, hcause⟩ := exists_parts hkind
        rw [forLogAt_error hr htrue hkind hstack hmessage hcause]
        simp [Attempt.exists_bind_iff, Attempt.exists_ite_iff, Attempt.exists_map_iff, hstack, hmessage, hcause,
          Conveyed, Data.HasText, and_comm]
      | false =>
        rw [forLogAt_plain hr htrue hkind, Attempt.exists_map_iff]
        simp [Data.HasText]

/-! ## Chains of causes -/

theorem not_conveyed_zero (d : Data) : ¬ Conveyed s 0 d := by
  rintro ⟨r, h, -⟩
  cases h

theorem Leads.unique {d c c' : Data} (h : Leads s d c) (h' : Leads s d c') : c' = c := by
  have hsame := h'.read
  rw [h.read] at hsame
  exact (Except.ok.inj hsame).symm

theorem Conveyed.mono {m n : Nat} (hmn : m ≤ n) {d : Data} (h : Conveyed s m d) : Conveyed s n d := by
  induction n generalizing m d with
  | zero => exact Nat.le_zero.1 hmn ▸ h
  | succ n ih =>
    cases m with
    | zero => exact absurd h (not_conveyed_zero d)
    | succ m =>
      rw [conveyed_succ_iff] at h ⊢
      exact ⟨h.1, fun cause hcause => ih (Nat.le_of_succ_le_succ hmn) (h.2 cause hcause)⟩

theorem Leads.exists_leaf {d c : Data} (h : Leads s d c) : ∃ v, c = .leaf v := by
  have hread := h.read
  have hkind := h.isError
  cases d with
  | leaf v =>
    cases hv : s.member "cause" v with
    | error m =>
      rw [Data.member, hv] at hread
      cases hread
    | ok w =>
      rw [Data.member, hv] at hread
      exact ⟨w, (Except.ok.inj hread).symm⟩
  | error name payload cause => exact ⟨cause, (Except.ok.inj hread).symm⟩
  | list items => cases hkind
  | record members => cases hkind

/-- A cause that has a cause is an object of the store. -/
theorem Leads.exists_object {d c e : Data} (h : Leads s d c) (h' : Leads s c e) :
    ∃ id < s.size, c = .leaf (.object id) := by
  obtain ⟨v, rfl⟩ := h.exists_leaf
  have hkind := h'.isError
  cases v with
  | object id =>
    cases hisA : s.isA .error id with
    | true => exact ⟨id, Store.lt_size_of_leadsFrom hisA, rfl⟩
    | false =>
      rw [errorKind?, hisA] at hkind
      cases hkind
  | _ => cases hkind

/-- Data has as many causes before the last as the depth says. -/
def IsDepth (s : Store) (n : Nat) (d : Data) : Prop := Conveyed s (n + 1) d ∧ ¬ Conveyed s n d

theorem IsDepth.unique {m n : Nat} {d : Data} (h : IsDepth s m d) (h' : IsDepth s n d) : m = n := by
  obtain hlt | heq | hlt := Nat.lt_trichotomy m n
  · exact absurd (h.1.mono hlt) h'.2
  · exact heq
  · exact absurd (h'.1.mono hlt) h.2

theorem IsDepth.exists_leads {n : Nat} {d : Data} (h : IsDepth s (n + 1) d) : ∃ c, Leads s d c ∧ IsDepth s n c := by
  obtain ⟨hshown, hcauses⟩ := conveyed_succ_iff.1 h.1
  obtain ⟨c, hc, hno⟩ : ∃ c, Leads s d c ∧ ¬ Conveyed s n c := by
    by_contra hall
    push Not at hall
    exact h.2 (conveyed_succ_iff.2 ⟨hshown, hall⟩)
  exact ⟨c, hc, hcauses c hc, hno⟩

/-- Below data that needs a depth, each smaller depth but the least is that of an object of the store. -/
theorem IsDepth.exists_object {n : Nat} {d : Data} (h : IsDepth s n d) {k : Nat} (hk : k + 1 < n) :
    ∃ id < s.size, IsDepth s (k + 1) (.leaf (.object id)) := by
  induction n generalizing d with
  | zero => omega
  | succ n ih =>
    obtain ⟨c, hc, hdepth⟩ := h.exists_leads
    obtain rfl | hlt := Nat.eq_or_lt_of_le (Nat.le_of_lt_succ hk)
    · obtain ⟨e, he, -⟩ := hdepth.exists_leads
      obtain ⟨id, hid, rfl⟩ := hc.exists_object he
      exact ⟨id, hid, hdepth⟩
    · exact ih hdepth hlt

end Report

end LosslessSyntax
