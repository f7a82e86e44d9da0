import LosslessSyntax.Proofs.Roots

/-!
# Running calls

Whether calls are harmless, genuine or unshadowed can be seen from the store: the three conditions are decidable, and so
is `Call.Regular`, which asks for all of them. `Store.Runs` asks for a condition of calls one after the other, each of them
with what the ones before have left; what such calls leave can be reached (`Reached.runAll`).
-/

namespace LosslessSyntax

/-! ## Conditions on calls -/

/-- The object that is given for a slot. -/
def SlotValue.object? : SlotValue → Option ObjectId
  | .one (.object id) => some id
  | _ => none

theorem SlotValue.object?_eq_some {v : SlotValue} {id : ObjectId} : v.object? = some id ↔ v = .one (.object id) := by
  constructor
  · intro h
    unfold object? at h
    split at h
    · cases h
      rfl
    · cases h
  · rintro rfl
    rfl

def Object.isError : Object → Bool
  | .error .. => true
  | _ => false

instance (s : Store) (layout : Layout) (input : Input) : Decidable (input.Harmless s layout) :=
  decidable_of_iff (layout.has baseName = true → layout.has "stack" = true → ∀ id ∈ (input.read baseName).object?,
      ∀ holder ∈ id :: s.chain id, ∀ o ∈ s.object? holder, o.isError = false) <| by
    refine imp_congr_right fun _ => imp_congr_right fun _ => forall_congr' fun id =>
      imp_congr SlotValue.object?_eq_some <| forall_congr' fun holder => imp_congr_right fun _ => ?_
    constructor
    · intro h named hidden m ho
      cases h _ ho
    · intro h o ho
      cases o with
      | error named hidden m => exact absurd ho (h named hidden m)
      | _ => rfl

instance (s : Store) (layout : Layout) (input : Input) : Decidable (input.Unshadowed s layout) :=
  decidable_of_iff (layout.has baseName = true → ∀ id ∈ (input.read baseName).object?,
      ∀ holder ∈ id :: s.chain id, Ground.ofId? holder = none → ∀ o ∈ s.object? holder, o.own? baseName = none) <|
    imp_congr_right fun _ => forall_congr' fun _ => imp_congr SlotValue.object?_eq_some Iff.rfl

/-- A call that changes no object that is there, puts no other nodes into slots than those that were returned before,
and finds in a slot with the name of the base what was given for it. -/
structure Call.Regular (c : Call) (s : Store) (made : List ObjectId) : Prop where
  harmless : c.Harmless s
  genuine : c.Genuine s made
  unshadowed : c.input.Unshadowed s c.variant.layout

instance (c : Call) (s : Store) : Decidable (c.Harmless s) :=
  inferInstanceAs (Decidable (c.input.Harmless s c.variant.layout))

instance (c : Call) (s : Store) (made : List ObjectId) : Decidable (c.Regular s made) :=
  decidable_of_iff (c.Harmless s ∧ c.Genuine s made ∧ c.input.Unshadowed s c.variant.layout)
    ⟨fun ⟨harmless, genuine, unshadowed⟩ => ⟨harmless, genuine, unshadowed⟩,
      fun h => ⟨h.harmless, h.genuine, h.unshadowed⟩⟩

/-! ## Calls one after the other -/

namespace Store

variable {s : Store} {made made' : List ObjectId} {allowed : Store → List ObjectId → Call → Prop}

/-- The store after calls one after the other. -/
def runAll (s : Store) (cs : List Call) : Store := cs.foldl (fun s c => (c.run s).2) s

/-- Calls can be made one after the other, as far as the members go that they name, all of them are allowed, and `made'`
are the nodes that have been returned in the end. -/
def Runs (allowed : Store → List ObjectId → Call → Prop) (made' : List ObjectId) :
    Store → List ObjectId → List Call → Prop
  | _, made, [] => made = made'
  | s, made, c :: cs =>
    (s.object? c.variant.self = some (.variant c.variant) ∧ 0 < s.size ∧
      ∀ slot ∈ c.input.names, (c.input.read slot).Within s.size) ∧
    allowed s made c ∧ Runs allowed made' (c.run s).2 ((c.run s).1.toOption.toList ++ made) cs

instance instDecidableRuns [∀ s made c, Decidable (allowed s made c)] (made' : List ObjectId) :
    (s : Store) → (made : List ObjectId) → (cs : List Call) → Decidable (Runs allowed made' s made cs)
  | _, made, [] => inferInstanceAs (Decidable (made = made'))
  | s, made, c :: cs =>
    have := instDecidableRuns made' (c.run s).2 ((c.run s).1.toOption.toList ++ made) cs
    inferInstanceAs (Decidable ((_ ∧ _ ∧ _) ∧ _ ∧ _))

theorem given_of_names {c : Call} {m : Members SlotValue} (hinput : c.input = .ofMembers m)
    (h : s.object? c.variant.self = some (.variant c.variant) ∧ 0 < s.size ∧
      ∀ slot ∈ c.input.names, (c.input.read slot).Within s.size) : c.Given s where
  variant := h.1
  input slot := by
    have hnames := h.2.2 slot
    rw [hinput] at hnames ⊢
    cases hv : m.get? slot with
    | none =>
      show ((m.get? slot).getD _).Within s.size
      rw [hv]
      exact undeclared_within h.2.1 slot
    | some v => exact hnames (List.mem_map.mpr ⟨_, Members.mem_of_get? hv, rfl⟩)

/-- What calls with members given one by one leave can be reached. -/
theorem Reached.runAll (h : Reached allowed s made) (cs : List Call) {ms : List (Members SlotValue)}
    (hinputs : List.Forall₂ (fun c m => c.input = .ofMembers m) cs ms) (hruns : Runs allowed made' s made cs) :
    Reached allowed (s.runAll cs) made' := by
  induction hinputs generalizing s made with
  | nil => exact hruns ▸ h
  | cons hinput _ ih => exact ih (h.run (given_of_names hinput hruns.1) hruns.2.1) hruns.2.2

end Store

end LosslessSyntax
