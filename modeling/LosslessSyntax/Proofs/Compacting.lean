import LosslessSyntax.Proofs.Flattening
import LosslessSyntax.Proofs.Listing
import LosslessSyntax.Proofs.Structure

/-!
# Compact renderings

The compact rendering of an element is its full rendering with every token in it shown by the length of its text
(`Data.compacted`), and the tokens that the full rendering shows are those that a walk hands out (`render_compact`).

A rendering follows the slots of a node, and a walk follows its items. Both see the same children, since a slot of a
returned node holds nothing, one element or a list that was made for it (`Row.IsPlain`). So a returned node has a
structure (`Store.exists_tree`), which both formats render.

This takes calls that put no other nodes into slots than those that calls have returned before. A node with the members
of a token besides is rendered as a node, while a walk hands it out as a token (`Sample.not_compacts_feigned`).
-/

namespace LosslessSyntax

/-- Work that can only fail by a misuse. -/
def Attempt.OnlyMisuses {α : Type} (x : Attempt α) : Prop := ∀ f, x = .error f → ∃ m, f = .misuse m

namespace Attempt.OnlyMisuses

variable {α β : Type}

theorem ok (a : α) : OnlyMisuses (.ok a) := by
  intro f h
  cases h

theorem misuse (m : Misuse) : OnlyMisuses (.error (.misuse m) : Attempt α) := by
  intro f h
  cases h
  exact ⟨m, rfl⟩

theorem ofMisuse (x : Except Misuse α) : OnlyMisuses (Attempt.ofMisuse x) := by
  cases x with
  | ok a => exact ok a
  | error m => exact misuse m

theorem bind {x : Attempt α} {f : α → Attempt β} (hx : OnlyMisuses x) (hf : ∀ a, OnlyMisuses (f a)) :
    OnlyMisuses (x >>= f) := by
  cases x with
  | ok a => exact hf a
  | error e =>
    obtain ⟨m, rfl⟩ := hx e rfl
    exact misuse m

theorem map {x : Attempt α} (f : α → β) (hx : OnlyMisuses x) : OnlyMisuses (f <$> x) := by
  rw [map_eq_pure_bind]
  exact hx.bind fun a => ok (f a)

end Attempt.OnlyMisuses

/-! ## Tokens in data -/

/-- The token that members show in full. -/
def Token.ofMembers? : List (Text × Data) → Option Token
  | [(k, .leaf kind), (f, .leaf (.number fullStart)), (b, .leaf (.number start)), (l, .leaf (.number length))] =>
    if [k, f, b, l] = ["kind", "fullStart", "start", "length"].map Text.ofString then
      some { kind, fullStart, start, length }
    else none
  | _ => none

namespace Data

mutual

/-- Data in which each token that is shown in full is shown by the length of its text. -/
def compacted : Data → Data
  | .leaf v => .leaf v
  | .list items => .list (compactedItems items)
  | .record members => (Token.ofMembers? members).elim (.record (compactedMembers members)) (·.shown .compact)
  | .error name payload cause => .error name payload cause

def compactedItems : List Data → List Data
  | [] => []
  | item :: rest => item.compacted :: compactedItems rest

def compactedMembers : List (Text × Data) → List (Text × Data)
  | [] => []
  | (name, value) :: rest => (name, value.compacted) :: compactedMembers rest

end

mutual

/-- The tokens that data shows in full, in order. -/
def tokens : Data → List Token
  | .leaf _ => []
  | .list items => itemTokens items
  | .record members => (Token.ofMembers? members).elim (memberTokens members) ([·])
  | .error .. => []

def itemTokens : List Data → List Token
  | [] => []
  | item :: rest => item.tokens ++ itemTokens rest

def memberTokens : List (Text × Data) → List Token
  | [] => []
  | (_, value) :: rest => value.tokens ++ memberTokens rest

end

theorem compactedItems_eq (items : List Data) : compactedItems items = items.map compacted := by
  induction items with
  | nil => rfl
  | cons item rest ih => exact congrArg _ ih

theorem itemTokens_eq (items : List Data) : itemTokens items = items.flatMap tokens := by
  induction items with
  | nil => rfl
  | cons item rest ih => exact congrArg _ ih

theorem compactedMembers_eq (members : List (Text × Data)) :
    compactedMembers members = members.map fun m => (m.1, m.2.compacted) := by
  induction members with
  | nil => rfl
  | cons m rest ih => exact congrArg _ ih

theorem memberTokens_eq (members : List (Text × Data)) : memberTokens members = members.flatMap (·.2.tokens) := by
  induction members with
  | nil => rfl
  | cons m rest ih => exact congrArg _ ih

/-- A number, as it stands for an offset. -/
def IsNumber (d : Data) : Prop := ∃ n, d = .leaf (.number n)

theorem fields_cons {name : Text} {d : Data} {names : List Text} {others : List (Text × Data)} (inside : List Text)
    (hd : ¬ d.IsNumber) (hothers : ∀ field ∈ others, field.1 ∈ names ∧ ¬ field.2.IsNumber) :
    ∀ field ∈ (name, d) :: others, field.1 ∈ name :: (inside ++ names) ∧ ¬ field.2.IsNumber := by
  refine List.forall_mem_cons.mpr ⟨⟨List.mem_cons_self, hd⟩, fun field hfield => ?_⟩
  exact (hothers field hfield).imp_left fun hname => List.mem_cons_of_mem _ (List.mem_append_right _ hname)

theorem ofMembers?_eq_none {members : List (Text × Data)} (h : ∀ m ∈ members, ¬ m.2.IsNumber) :
    Token.ofMembers? members = none := by
  unfold Token.ofMembers?
  split
  · exact absurd ⟨_, rfl⟩ (h _ (List.mem_cons_of_mem _ List.mem_cons_self))
  · rfl

/-- The record of a node with its slots. -/
theorem compacted_node (name : Text) {fields : List (Text × Data)} (h : ∀ field ∈ fields, ¬ field.2.IsNumber) :
    (record [(name, .record fields)]).compacted =
      .record [(name, .record (fields.map fun m => (m.1, m.2.compacted)))] := by
  show record [(name, (record fields).compacted)] = _
  rw [compacted, ofMembers?_eq_none h, Option.elim_none, compactedMembers_eq]

theorem tokens_node (name : Text) {fields : List (Text × Data)} (h : ∀ field ∈ fields, ¬ field.2.IsNumber) :
    (record [(name, .record fields)]).tokens = fields.flatMap (·.2.tokens) := by
  show (record fields).tokens ++ [] = _
  rw [List.append_nil, tokens, ofMembers?_eq_none h, Option.elim_none, memberTokens_eq]

end Data

/-! ## Renderings of structures -/

section

variable {α : Type}

mutual

/-- The names of all slots. -/
def Tree.slotNames : Tree α → List Text
  | .token _ => []
  | .node _ slots => slots.slotNames

def Slots.slotNames : Slots α → List Text
  | .nil => []
  | .empty name rest => name :: rest.slotNames
  | .single name tree rest => name :: (tree.slotNames ++ rest.slotNames)
  | .row name trees rest => name :: (trees.slotNames ++ rest.slotNames)

def Trees.slotNames : Trees α → List Text
  | .nil => []
  | .cons tree rest => tree.slotNames ++ rest.slotNames

end

end

section

variable {label : Token → Attempt Token} {format : TokenFormat}

theorem Tree.exists_record {tree : Tree Token} {d : Data} (h : tree.renderedBy label format = .ok d) :
    ∃ members, d = .record members := by
  cases tree with
  | token t =>
    obtain ⟨t', _, h⟩ := Attempt.bind_eq_ok h
    cases h
    cases format <;> exact ⟨_, rfl⟩
  | node w slots =>
    obtain ⟨fields, _, h⟩ := Attempt.bind_eq_ok h
    cases h
    exact ⟨_, rfl⟩

/-- What is rendered for the slots of a node is under their names, and no number. -/
theorem Slots.renderedBy_fields : ∀ {slots : Slots Token} {fields : List (Text × Data)},
    slots.renderedBy label format = .ok fields →
    ∀ field ∈ fields, field.1 ∈ slots.slotNames ∧ ¬ field.2.IsNumber
  | .nil, _, h => by
    cases h
    exact List.forall_mem_nil _
  | .empty name rest, _, h => by
    obtain ⟨others, hrest, h⟩ := Attempt.bind_eq_ok h
    cases h
    exact Data.fields_cons [] (fun ⟨_, h⟩ => by cases h) (Slots.renderedBy_fields hrest)
  | .single name tree rest, _, h => by
    obtain ⟨data, hdata, h⟩ := Attempt.bind_eq_ok h
    obtain ⟨others, hrest, h⟩ := Attempt.bind_eq_ok h
    cases h
    obtain ⟨members, rfl⟩ := Tree.exists_record hdata
    exact Data.fields_cons _ (fun ⟨_, h⟩ => by cases h) (Slots.renderedBy_fields hrest)
  | .row name trees rest, _, h => by
    rw [Slots.renderedBy] at h
    split at h
    · obtain ⟨items, _, h⟩ := Attempt.bind_eq_ok h
      obtain ⟨others, hrest, h⟩ := Attempt.bind_eq_ok h
      cases h
      exact Data.fields_cons _ (fun ⟨_, h⟩ => by cases h) (Slots.renderedBy_fields hrest)
    · cases h

theorem not_isNumber_filter {slots : Slots Token} {fields : List (Text × Data)}
    (h : slots.renderedBy label format = .ok fields) :
    ∀ field ∈ fields.filter (·.1 ≠ baseName), ¬ field.2.IsNumber :=
  fun field hfield => (Slots.renderedBy_fields h field (List.mem_of_mem_filter hfield)).2

mutual

/-- The compact rendering of a structure is its full one, compacted. -/
theorem Tree.renderedBy_compact : ∀ tree : Tree Token,
    tree.renderedBy label .compact = Data.compacted <$> tree.renderedBy label .full
  | .token t => by
    rw [Tree.renderedBy, Tree.renderedBy]
    cases label t <;> rfl
  | .node w slots => by
    rw [Tree.renderedBy, Tree.renderedBy, slots.renderedBy_compact]
    cases hfields : slots.renderedBy label .full with
    | error f => rfl
    | ok fields =>
      refine congrArg Except.ok ((Data.compacted_node _ (not_isNumber_filter hfields)).trans ?_).symm
      rw [List.filter_map]
      rfl

theorem Slots.renderedBy_compact : ∀ slots : Slots Token,
    slots.renderedBy label .compact =
      List.map (fun field => (field.1, field.2.compacted)) <$> slots.renderedBy label .full
  | .nil => rfl
  | .empty name rest => by
    rw [Slots.renderedBy, Slots.renderedBy, rest.renderedBy_compact]
    cases rest.renderedBy label .full <;> rfl
  | .single name tree rest => by
    rw [Slots.renderedBy, Slots.renderedBy, tree.renderedBy_compact, rest.renderedBy_compact]
    cases tree.renderedBy label .full <;> cases rest.renderedBy label .full <;> rfl
  | .row name trees rest => by
    rw [Slots.renderedBy, Slots.renderedBy, trees.renderedBy_compact, rest.renderedBy_compact]
    split
    · cases trees.renderedBy label .full <;> cases rest.renderedBy label .full
      case ok.ok items others =>
        exact congrArg (fun list => Except.ok ((name, Data.list list) :: _)) (Data.compactedItems_eq items).symm
      all_goals rfl
    · rfl

theorem Trees.renderedBy_compact : ∀ trees : Trees Token,
    trees.renderedBy label .compact = List.map Data.compacted <$> trees.renderedBy label .full
  | .nil => rfl
  | .cons tree rest => by
    rw [Trees.renderedBy, Trees.renderedBy, tree.renderedBy_compact, rest.renderedBy_compact]
    cases tree.renderedBy label .full <;> cases rest.renderedBy label .full <;> rfl

end

mutual

/-- The tokens that the full rendering of a structure shows are its own, labelled. -/
theorem Tree.tokens_renderedBy : ∀ {tree : Tree Token} {d : Data}, baseName ∉ tree.slotNames →
    tree.renderedBy label .full = .ok d → tree.tokens.mapM label = .ok d.tokens
  | .token t, _, _, h => by
    obtain ⟨t', ht, h⟩ := Attempt.bind_eq_ok h
    cases h
    rw [Tree.tokens, List.mapM_cons, ht]
    rfl
  | .node w slots, _, hnames, h => by
    obtain ⟨fields, hfields, h⟩ := Attempt.bind_eq_ok h
    cases h
    have hall : fields.filter (·.1 ≠ baseName) = fields := by
      refine List.filter_eq_self.mpr fun field hfield => ?_
      have hname := (Slots.renderedBy_fields hfields field hfield).1
      exact decide_eq_true fun heq => hnames (heq ▸ hname)
    rw [Data.tokens_node _ (not_isNumber_filter hfields), hall]
    exact Slots.tokens_renderedBy hnames hfields

theorem Slots.tokens_renderedBy : ∀ {slots : Slots Token} {fields : List (Text × Data)}, baseName ∉ slots.slotNames →
    slots.renderedBy label .full = .ok fields → slots.tokens.mapM label = .ok (fields.flatMap (·.2.tokens))
  | .nil, _, _, h => by
    cases h
    rfl
  | .empty name rest, _, hnames, h => by
    obtain ⟨others, hrest, h⟩ := Attempt.bind_eq_ok h
    cases h
    rw [Slots.tokens, Slots.tokens_renderedBy (mt (List.mem_cons_of_mem _) hnames) hrest]
    rfl
  | .single name tree rest, _, hnames, h => by
    obtain ⟨data, hdata, h⟩ := Attempt.bind_eq_ok h
    obtain ⟨others, hrest, h⟩ := Attempt.bind_eq_ok h
    cases h
    have hnames := not_or.mp (mt List.mem_append.mpr (List.not_mem_of_not_mem_cons hnames))
    rw [Slots.tokens, List.mapM_append, Tree.tokens_renderedBy hnames.1 hdata, Slots.tokens_renderedBy hnames.2 hrest]
    rfl
  | .row name trees rest, _, hnames, h => by
    rw [Slots.renderedBy] at h
    split at h
    · obtain ⟨items, hitems, h⟩ := Attempt.bind_eq_ok h
      obtain ⟨others, hrest, h⟩ := Attempt.bind_eq_ok h
      cases h
      have hnames := not_or.mp (mt List.mem_append.mpr (List.not_mem_of_not_mem_cons hnames))
      rw [Slots.tokens, List.mapM_append, Trees.tokens_renderedBy hnames.1 hitems,
        Slots.tokens_renderedBy hnames.2 hrest]
      exact congrArg (fun ts => Except.ok (ts ++ _)) (Data.itemTokens_eq items).symm
    · cases h

theorem Trees.tokens_renderedBy : ∀ {trees : Trees Token} {items : List Data}, baseName ∉ trees.slotNames →
    trees.renderedBy label .full = .ok items → trees.tokens.mapM label = .ok (items.flatMap Data.tokens)
  | .nil, _, _, h => by
    cases h
    rfl
  | .cons tree rest, _, hnames, h => by
    obtain ⟨data, hdata, h⟩ := Attempt.bind_eq_ok h
    obtain ⟨others, hrest, h⟩ := Attempt.bind_eq_ok h
    cases h
    have hnames := not_or.mp (mt List.mem_append.mpr hnames)
    rw [Trees.tokens, List.mapM_append, Tree.tokens_renderedBy hnames.1 hdata, Trees.tokens_renderedBy hnames.2 hrest]
    rfl

end

open Attempt (OnlyMisuses)

mutual

/-- Nothing but a misuse keeps a structure from being rendered, if that is so for the labels of its tokens. -/
theorem Tree.onlyMisuses (h : ∀ t, OnlyMisuses (label t)) : ∀ tree : Tree Token,
    OnlyMisuses (tree.renderedBy label format)
  | .token t => (h t).bind fun _ => .ok _
  | .node _ slots => (slots.onlyMisuses h).bind fun _ => .ok _

theorem Slots.onlyMisuses (h : ∀ t, OnlyMisuses (label t)) : ∀ slots : Slots Token,
    OnlyMisuses (slots.renderedBy label format)
  | .nil => .ok _
  | .empty _ rest => (rest.onlyMisuses h).bind fun _ => .ok _
  | .single _ tree rest => (tree.onlyMisuses h).bind fun _ => (rest.onlyMisuses h).bind fun _ => .ok _
  | .row _ trees rest => by
    rw [Slots.renderedBy]
    split
    · exact (trees.onlyMisuses h).bind fun _ => (rest.onlyMisuses h).bind fun _ => .ok _
    · exact .misuse _

theorem Trees.onlyMisuses (h : ∀ t, OnlyMisuses (label t)) : ∀ trees : Trees Token,
    OnlyMisuses (trees.renderedBy label format)
  | .nil => .ok _
  | .cons tree rest => (tree.onlyMisuses h).bind fun _ => (rest.onlyMisuses h).bind fun _ => .ok _

end

end

theorem Session.observe_of_onlyMisuses {α : Type} {read : Store → SessionM α} {tried : Store → Attempt α} {σ : Session}
    (hread : ∀ s, read s = relay (tried s)) (h : Attempt.OnlyMisuses (tried σ.store)) :
    observe read σ = (tried σ.store, σ) := by
  rw [observe, bind_ok (get_run σ), observeWithin_succ hread]
  cases htried : tried σ.store with
  | ok a => rfl
  | error f =>
    obtain ⟨m, rfl⟩ := h f htried
    rfl

/-! ## Slots of returned nodes -/

/-- A slot holds its children as they are met: nothing, one of them, or a list that is no element. -/
def Row.IsPlain (s : Store) (row : Row) : Prop :=
  (row.content = .null ∧ row.children = []) ∨ (∃ c, row.content = .object c ∧ row.children = [c]) ∨
    s.IsRow row.content (row.children.map .object)

theorem Row.IsPlain.keeps {s t : Store} (hs : s.Grounded) (hk : s.Keeps t) {row : Row} (h : row.IsPlain s) :
    row.IsPlain t :=
  h.imp_right fun h => h.imp_right fun hrow => hrow.keeps hs hk

theorem Call.regular_of_plain {c : Call} {s : Store} {made : List ObjectId} (hgenuine : c.Genuine s made)
    (hplain : c.variant.layout.has baseName = false) : c.Regular s made :=
  ⟨Input.harmless_of_plain hplain _, hgenuine, Input.unshadowed_of_plain hplain _⟩

namespace Store

variable {s t : Store} {made : List ObjectId} {owner n : ObjectId} {o : Outline}

theorem Made.isPlain {p : Plan} {input : Input} {id : ObjectId} {node : Node} {rows : List Row}
    (h : s.Made p input id node rows t) {row : Row} (hrow : row ∈ rows) (hbase : row.slot ≠ baseName) :
    row.IsPlain t := by
  obtain ⟨_, checked, _, _, hchildren, hstands⟩ := h.given row hrow hbase
  cases checked with
  | many ws =>
    obtain ⟨list, hvalue, hobject, hlist⟩ := hstands
    refine .inr (.inr ?_)
    rw [Row.content, hvalue, hchildren]
    exact h.grown.grounded.isRow_list hobject hlist
  | one w =>
    have hvalue : row.value = w := hstands
    cases hmissing : w.isMissing with
    | true =>
      rw [SlotValue.children, hmissing, if_pos rfl] at hchildren
      exact .inl ⟨by rw [Row.content, hvalue, hmissing, if_pos rfl], List.map_eq_nil_iff.mp hchildren⟩
    | false =>
      rw [SlotValue.children, hmissing, if_neg Bool.false_ne_true] at hchildren
      obtain ⟨c, hc, hw⟩ := List.map_eq_singleton_iff.mp hchildren
      exact .inr (.inl ⟨c, by rw [Row.content, hvalue, hmissing, if_neg Bool.false_ne_true, hw], hc⟩)

/-- A call that returns a node has made it. -/
theorem made_of_run (hs : s.Grounded) (hc : s.Closed) {c : Call} (hgiven : c.Given s) (hh : c.Harmless s)
    {id : ObjectId} (hrun : c.run s = (.ok id, t)) :
    ∃ node rows u, s.Made c.variant.plan c.input id node rows u ∧ node.variant = c.variant ∧ u.Keeps t := by
  have hv := lt_size_of_object? hgiven.variant
  cases c with
  | node v input =>
    rcases create_spec hs hc hv hgiven.input hh with
      ⟨_, node, rows, u, hcreate, hmade, hvariant, _⟩ | ⟨failure, u, hcreate, _⟩
    · cases hcreate.symm.trans hrun
      exact ⟨node, rows, _, hmade, hvariant, .refl _⟩
    · cases hcreate.symm.trans hrun
  | file g source input =>
    rcases createSourceFile_spec hs hc hv source hgiven.input hh with
      ⟨_, node, rows, u, nodes, hcreate, hmade, hvariant, _⟩ | ⟨failure, u, hcreate, _⟩ |
      ⟨failure, _, node, rows, u, nodes, hcreate, _⟩ <;> cases hcreate.symm.trans hrun
    exact ⟨node, rows, u, hmade, hvariant, keeps_recordRoot ..⟩

/-- The slots of returned nodes hold their children as they are met, and none has the name of the base. -/
def RowsPlain (s : Store) (made : List ObjectId) : Prop :=
  ∀ p ∈ made, ∃ node rows, s.Shows p node rows ∧ ∀ row ∈ rows, row.slot ≠ baseName ∧ row.IsPlain s

theorem RowsPlain.keeps (hs : s.Grounded) (hk : s.Keeps t) (h : s.RowsPlain made) : t.RowsPlain made := by
  intro p hp
  obtain ⟨node, rows, hshows, hrows⟩ := h p hp
  exact ⟨node, rows, hshows.keeps hs hk, fun row hrow => (hrows row hrow).imp_right (·.keeps hs hk)⟩

/-- A call that puts no other nodes into slots than those that were returned before, and none under the name of the
base. -/
abbrev Plainly (s : Store) (made : List ObjectId) (c : Call) : Prop :=
  c.Genuine s made ∧ c.variant.layout.has baseName = false

theorem Reached.regular (h : Reached Plainly s made) : Reached (fun s made c => c.Regular s made) s made :=
  h.mono fun _ _ _ hc => Call.regular_of_plain hc.1 hc.2

theorem Reached.rowsPlain (h : Reached Plainly s made) : s.RowsPlain made := by
  induction h with
  | empty => exact List.forall_mem_nil _
  | between reached untouched ih =>
    exact ih.keeps (reached.regular.sound Call.Regular.harmless).grounded untouched.keeps
  | refused reached given isAllowed run ih =>
    rw [reached.regular.eq_of_refused given (Call.regular_of_plain isAllowed.1 isAllowed.2) run]
    exact ih
  | returned reached given isAllowed run ih =>
    have hs := reached.regular.sound Call.Regular.harmless
    have hregular := Call.regular_of_plain isAllowed.1 isAllowed.2
    obtain ⟨node, rows, u, hmade, hvariant, hk⟩ := made_of_run hs.grounded hs.closed given hregular.harmless run
    refine List.forall_mem_cons.mpr ⟨⟨node, rows, ?_⟩, ih.keeps hs.grounded (hmade.grown.keeps.trans hk)⟩
    refine ⟨hmade.shows.keeps hmade.grown.grounded hk, fun row hrow => ?_⟩
    have hname : row.slot ∈ node.variant.slotNames := hmade.shows.slots ▸ List.mem_map_of_mem hrow
    have hbase := Members.ne_of_has isAllowed.2 (hvariant ▸ hname)
    exact ⟨hbase, (hmade.isPlain hrow hbase).keeps hmade.grown.grounded hk⟩

/-! ## Structures of returned nodes -/

/-- Lists are no longer than they can be. -/
def Bounded (s : Store) : Prop := ∀ id items, s.items? (.object id) = some items → items.length < Sequence.lengthBound

/-- The slot names of a structure and the lengths of its rows are such that all of it is rendered. -/
structure Renderable (s : Store) (names : List Text) (lengths : List Nat) : Prop where
  names : baseName ∉ names
  lengths : s.Bounded → ∀ length ∈ lengths, length < Sequence.lengthBound

namespace Renderable

variable {names names' : List Text} {lengths lengths' : List Nat}

theorem nil : s.Renderable [] [] := ⟨List.not_mem_nil, fun _ => List.forall_mem_nil _⟩

theorem append (h : s.Renderable names lengths) (h' : s.Renderable names' lengths') :
    s.Renderable (names ++ names') (lengths ++ lengths') :=
  ⟨fun hmem => (List.mem_append.mp hmem).elim h.names h'.names,
    fun hs => List.forall_mem_append.mpr ⟨h.lengths hs, h'.lengths hs⟩⟩

theorem slot {name : Text} (hname : name ≠ baseName) (h : s.Renderable names lengths) :
    s.Renderable (name :: names) lengths :=
  ⟨fun hmem => (List.mem_cons.mp hmem).elim hname.symm h.names, h.lengths⟩

theorem row {length : Nat} (hlength : s.Bounded → length < Sequence.lengthBound) (h : s.Renderable names lengths) :
    s.Renderable names (length :: lengths) :=
  ⟨h.names, fun hs => List.forall_mem_cons.mpr ⟨hlength hs, h.lengths hs⟩⟩

end Renderable

/-- A value is an element whose structure has the given tokens. -/
def HasTree (s : Store) (v : Value) (ts : List Token) : Prop :=
  ∃ tree : Tree Token, tree.IsAt s v ∧ tree.tokens = ts ∧ s.Renderable tree.slotNames tree.rowLengths

/-- Values are elements whose structures have the given tokens. -/
def HaveTrees (s : Store) (vs : List Value) (ts : List Token) : Prop :=
  ∃ trees : Trees Token, trees.AreAt s vs ∧ trees.tokens = ts ∧ s.Renderable trees.slotNames trees.rowLengths

theorem HaveTrees.cons {v : Value} {vs : List Value} {ts ts' : List Token} (h : s.HasTree v ts)
    (h' : s.HaveTrees vs ts') : s.HaveTrees (v :: vs) (ts ++ ts') := by
  obtain ⟨tree, htree, rfl, hshow⟩ := h
  obtain ⟨trees, htrees, rfl, hshow'⟩ := h'
  exact ⟨.cons tree trees, ⟨v, vs, rfl, htree, htrees⟩, rfl, hshow.append hshow'⟩

theorem HaveTrees.eq_nil {ts : List Token} (h : s.HaveTrees [] ts) : ts = [] := by
  obtain ⟨trees, htrees, rfl, _⟩ := h
  cases trees with
  | nil => rfl
  | cons tree rest =>
    obtain ⟨_, _, heq, _⟩ := htrees
    cases heq

theorem HaveTrees.single {v : Value} {ts : List Token} (h : s.HaveTrees [v] ts) : s.HasTree v ts := by
  obtain ⟨trees, htrees, rfl, hshow⟩ := h
  cases trees with
  | nil => cases htrees
  | cons tree rest =>
    obtain ⟨v', others, heq, htree, hrest⟩ := htrees
    cases heq
    cases rest with
    | nil =>
      refine ⟨tree, htree, (List.append_nil _).symm, ?_⟩
      simpa only [Trees.slotNames, Trees.rowLengths, List.append_nil] using hshow
    | cons tree' rest =>
      obtain ⟨_, _, heq, _⟩ := hrest
      cases heq

theorem token_of_elementOf? {value : Value} {id : ObjectId} {token : Token}
    (h : s.elementOf? value = some (.token id token)) :
    value = .object id ∧ s.isNode id = false ∧ s.token? id = some token := by
  cases value with
  | object id' =>
    cases hnode : s.isNode id' with
    | true =>
      rw [elementOf?, hnode, if_pos rfl] at h
      cases h
    | false =>
      rw [elementOf?, hnode, if_neg Bool.false_ne_true] at h
      obtain ⟨t, ht, heq⟩ := Option.map_eq_some_iff.mp h
      cases heq
      exact ⟨rfl, hnode, ht⟩
  | _ => cases h

/-- Children are met by a walk with the tokens that their structures have. -/
theorem exists_trees {slot : Text} {rest : List Item} {cs : List ObjectId}
    (hbelow : ∀ c ∈ cs, ∀ below, s.isNode c = true → s.Outlines c below → below.Clean →
      s.HasTree (.object c) (below.tokens.map Prod.snd))
    (h : s.Unfolds owner (cs.map (fun c => .value slot (.object c)) ++ rest) o) (hclean : o.Clean) :
    ∃ ts after, s.HaveTrees (cs.map .object) ts ∧ s.Unfolds owner rest after ∧ after.Clean ∧
      o.tokens.map Prod.snd = ts ++ after.tokens.map Prod.snd := by
  induction cs generalizing o with
  | nil => exact ⟨[], o, ⟨.nil, rfl, rfl, .nil⟩, h, hclean, rfl⟩
  | cons c cs ih =>
    have hbelow' := fun c' (hc' : c' ∈ cs) => hbelow c' (List.mem_cons_of_mem _ hc')
    cases h with
    | failure read tail => exact hclean.elim
    | token read tail =>
      obtain ⟨hobject, hnode, htoken⟩ := token_of_elementOf? (read_value_eq_ok.mp read)
      cases hobject
      obtain ⟨ts, after, htrees, hafter, hclean', htokens⟩ := ih hbelow' tail hclean
      refine ⟨_, after, .cons ⟨.token _, ⟨c, rfl, hnode, htoken⟩, rfl, .nil⟩ htrees, hafter, hclean', ?_⟩
      rw [Outline.tokens, List.map_cons, htokens]
      rfl
    | node read opened inside tail =>
      obtain ⟨hobject, hnode, _⟩ := isNode_of_elementOf? (read_value_eq_ok.mp read)
      cases hobject
      obtain ⟨ts, after, htrees, hafter, hclean', htokens⟩ := ih hbelow' tail hclean.2.2
      have htree := hbelow c List.mem_cons_self _ hnode ⟨_, opened, inside⟩ hclean.2.1
      refine ⟨_, after, .cons htree htrees, hafter, hclean', ?_⟩
      rw [Outline.tokens, List.map_append, htokens, List.append_assoc]

theorem HaveTrees.row {v : Value} {vs : List Value} {ts : List Token} (hrow : s.IsRow v vs) (h : s.HaveTrees vs ts) :
    ∃ trees : Trees Token, trees.AreAt s vs ∧ trees.tokens = ts ∧
      s.Renderable trees.slotNames (trees.length :: trees.rowLengths) := by
  obtain ⟨trees, htrees, htokens, hshow⟩ := h
  refine ⟨trees, htrees, htokens, hshow.row fun hbounded => ?_⟩
  obtain ⟨id, rfl⟩ := hrow.exists_object
  have hlength := hbounded id _ hrow.items
  rwa [Sequence.length_ofList, htrees.length_eq] at hlength

/-- What stands in the slots of a node has the tokens that a walk meets in them. -/
theorem exists_slots {rows : List Row} (hrows : ∀ row ∈ rows, row.slot ≠ baseName ∧ row.IsPlain s)
    (hbelow : ∀ row ∈ rows, ∀ c ∈ row.children, ∀ below, s.isNode c = true → s.Outlines c below → below.Clean →
      s.HasTree (.object c) (below.tokens.map Prod.snd))
    (h : s.Unfolds owner (rows.flatMap fun row => row.children.map fun c => .value row.slot (.object c)) o)
    (hclean : o.Clean) :
    ∃ slots : Slots Token, slots.AreAt s (rows.map fun row => (row.slot, row.content)) ∧
      slots.tokens = o.tokens.map Prod.snd ∧ s.Renderable slots.slotNames slots.rowLengths := by
  induction rows generalizing o with
  | nil =>
    cases h
    exact ⟨.nil, rfl, rfl, .nil⟩
  | cons row rows ih =>
    obtain ⟨⟨hname, hplain⟩, hrows⟩ := List.forall_mem_cons.mp hrows
    obtain ⟨hhere, hbelow⟩ := List.forall_mem_cons.mp hbelow
    obtain ⟨ts, after, htrees, hafter, hclean', htokens⟩ := exists_trees hhere h hclean
    obtain ⟨slots, hslots, htokens', hshow⟩ := ih hrows hbelow hafter hclean'
    rw [htokens, ← htokens']
    obtain ⟨hcontent, hchildren⟩ | ⟨c, hcontent, hchildren⟩ | hrow := hplain
    · rw [hchildren] at htrees
      obtain rfl := htrees.eq_nil
      exact ⟨.empty row.slot slots, ⟨_, by rw [List.map_cons, hcontent], hslots⟩, rfl, hshow.slot hname⟩
    · rw [hchildren] at htrees
      obtain ⟨tree, htree, rfl, hshow'⟩ := htrees.single
      refine ⟨.single row.slot tree slots, ⟨row.content, _, rfl, hcontent ▸ htree, hslots⟩, rfl, ?_⟩
      exact (hshow'.append hshow).slot hname
    · obtain ⟨trees, hat, rfl, hshow'⟩ := htrees.row hrow
      refine ⟨.row row.slot trees slots, ⟨row.content, _, _, rfl, hrow, hat, hslots⟩, rfl, ?_⟩
      exact (hshow'.append hshow).slot hname

/-- A returned node has a structure with the tokens that a walk meets below it. The induction is on the node: what
stands in its slots is older. -/
theorem exists_tree (hs : s.Sound made) (hr : s.Rooted made) (hplain : s.RowsPlain made) (hn : n ∈ made)
    (ho : s.Outlines n o) (hclean : o.Clean) : s.HasTree (.object n) (o.tokens.map Prod.snd) := by
  induction n using Nat.strong_induction_on generalizing o with
  | _ n ih =>
    obtain ⟨node, rows, hshows, hrows⟩ := hplain n hn
    obtain ⟨items, hopen, hu⟩ := ho
    rw [hshows.items hs.grounded] at hopen
    cases hopen
    have hbelow : ∀ row ∈ rows, ∀ c ∈ row.children, ∀ below, s.isNode c = true → s.Outlines c below → below.Clean →
        s.HasTree (.object c) (below.tokens.map Prod.snd) := by
      intro row hrow c hc below hnode hbelow
      have hchild : s.Child n c := hshows.child.mpr (List.mem_flatMap.mpr ⟨row, hrow, hc⟩)
      have hparent := ((hs.linked n hn c hchild).node hnode).1
      exact ih c (hs.younger c n hparent).1 (hr.known n hn c hchild hnode) hbelow
    obtain ⟨slots, hslots, htokens, hshow⟩ := exists_slots hrows hbelow hu hclean
    exact ⟨.node node.variant slots, ⟨n, _, rfl, hshows.isNode hs.grounded, .inl hshows.madeVariant?,
      hshows.contents hs.grounded, hslots⟩, htokens, hshow⟩

/-! ## Renderings of elements -/

/-- The compact rendering of an element is the full one, compacted; the full one shows the given tokens, and there is
one if their kinds have texts; and the format is the one that is asked for, else that of the settings. -/
structure Compacts (s : Store) (g : Grammar) (v : Value) (ts : List Token) : Prop where
  compact : s.render (.object g.self) .compact v = Data.compacted <$> s.render (.object g.self) .full v
  tokens : ∀ d, s.render (.object g.self) .full v = .ok d → ts.mapM (s.labelled (.object g.self)) = .ok d.tokens
  returns : s.Bounded → (∀ t ∈ ts, ∃ text, s.text t.kind = .ok text) → ∃ d, s.render (.object g.self) .full v = .ok d
  settings : ∀ (σ : Session) (options : Value) (asked : Option TokenFormat), σ.store = s →
    s.askedFormat? options = .ok asked → Session.render (.object g.self) v options σ =
      (s.render (.object g.self) (asked.getD σ.settings.tokenFormat) v, σ)

theorem HasTree.compacts {g : Grammar} (hg : s.HasGrammar g) {v : Value} {ts : List Token} (h : s.HasTree v ts) :
    s.Compacts g v ts := by
  obtain ⟨tree, htree, rfl, hshow⟩ := h
  have hrender (format : TokenFormat) :
      s.render (.object g.self) format v = tree.renderedBy (s.labelled (.object g.self)) format :=
    htree.renderAt htree.depth_le
  refine ⟨?_, fun d hd => ?_, fun hbounded htexts => ?_, fun σ options asked hσ hasked => ?_⟩
  · rw [hrender, hrender, tree.renderedBy_compact]
  · exact Tree.tokens_renderedBy hshow.names ((hrender .full).symm.trans hd)
  · rw [hrender]
    refine Tree.exists_renderedBy (fun t ht => ?_) (hshow.lengths hbounded)
    obtain ⟨text, htext⟩ := htexts t ht
    exact hg.exists_labelled htext
  · subst hσ
    rw [Session.render, Session.bind_ok (Session.tokenFormat_run hasked)]
    refine Session.observe_of_onlyMisuses (Store.render_eq_relay · v (.object g.self) _) ?_
    rw [hrender]
    exact tree.onlyMisuses fun t => (Attempt.OnlyMisuses.ofMisuse _).map _

/-- After every run of calls that put only returned nodes into slots, none of them under the name of the base, returned
nodes and tokens are rendered compactly as they are in full. -/
theorem render_compact (s : Store) (made : List ObjectId) (g : Grammar) (h : Reached Plainly s made)
    (hg : s.HasGrammar g) :
    (∀ n ∈ made, ∃ ts : List (ObjectId × Token),
      Walk.Lists s .tokens (.object n) (ts.map fun e => .token e.1 e.2) ∧ s.Compacts g (.object n) (ts.map Prod.snd)) ∧
    ∀ id t, s.isNode id = false → s.token? id = some t → s.Compacts g (.object id) [t] := by
  refine ⟨fun n hn => ?_, fun id t hnode htoken => ?_⟩
  · obtain ⟨o, ho, hclean⟩ := exists_clean h.regular hn
    have hs := h.regular.sound Call.Regular.harmless
    have hr := h.regular.rooted fun h => ⟨h.harmless, h.genuine⟩
    exact ⟨o.tokens, ho.lists_tokens hclean, (exists_tree hs hr h.rowsPlain hn ho hclean).compacts hg⟩
  · exact HasTree.compacts hg ⟨.token t, ⟨id, rfl, hnode, htoken⟩, rfl, .nil⟩

end Store

/-! ## Runs -/

namespace Sample

open Store

/-- A grammar that has a name for one of two kinds of tokens. -/
def words : Grammar := { grammar with self := 17, tokenKinds := ⟨[(.text "Word", 1)]⟩, variants := [] }

/-- The stock with that grammar. -/
def catalogued : Store := stock.addAll words.objects

theorem reached_catalogued (allowed : Store → List ObjectId → Call → Prop) : Reached allowed catalogued [] := by
  have hstock := (reached_stock fun s _ c => c.Harmless s).sound id
  have hobjects : ∀ o ∈ words.objects, o.items?.isNone = true ∧
      ∀ entry ∈ o.hidden ++ o.listed, entry.2.Within (stock.size + words.objects.length) := by decide +kernel
  refine .between (reached_stock allowed) (untouched_addAll hstock.grounded hstock.closed fun o ho => ?_)
  obtain ⟨hlist, hmembers⟩ := hobjects o ho
  refine Object.refers_of_members ?_ hmembers
  rintro items m isSealed rfl
  cases hlist

/-- Two leaves and the document of both. -/
def paired : Store := catalogued.runAll [leafCall 12, leafCall 13, documentCall letters [21, 23] 15]

/-- The document is rendered with the tokens of both leaves, and the kind that has no name is shown as it is. -/
theorem render_compact_paired :
    Reached Plainly paired [26, 23, 21] ∧ paired.HasGrammar words ∧
    (∃ ts : List (ObjectId × Token), Walk.Lists paired .tokens (.object 26) (ts.map fun e => .token e.1 e.2) ∧
      paired.Compacts words (.object 26) (ts.map Prod.snd)) ∧
    paired.Compacts words (.object 13) [⟨.ofNat 1, 1, 1, 1⟩] ∧
    (paired.render (.object words.self) .full (.object 26)).toOption.map Data.tokens =
      some [⟨.text "Word", 0, 0, 1⟩, ⟨.text "Word", 1, 1, 1⟩, ⟨.text "0", 2, 2, 0⟩] := by
  obtain ⟨hnode, htoken, hshown⟩ : paired.isNode 13 = false ∧ paired.token? 13 = some ⟨.ofNat 1, 1, 1, 1⟩ ∧
      (paired.render (.object words.self) .full (.object 26)).toOption.map Data.tokens =
        some [⟨.text "Word", 0, 0, 1⟩, ⟨.text "Word", 1, 1, 1⟩, ⟨.text "0", 2, 2, 0⟩] := by decide +kernel
  have hreached : Reached Plainly paired [26, 23, 21] :=
    (reached_catalogued _).runAll [leafCall 12, leafCall 13, documentCall letters [21, 23] 15]
      (.cons rfl (.cons rfl (.cons rfl .nil))) (by decide +kernel)
  have hgrammar : paired.HasGrammar words := ⟨by decide +kernel, by decide +kernel⟩
  obtain ⟨hnodes, htokens⟩ := render_compact paired [26, 23, 21] words hreached hgrammar
  exact ⟨hreached, hgrammar, hnodes 26 List.mem_cons_self, htokens 13 _ hnode htoken, hshown⟩

/-- The forged leaves beside the grammar. -/
def feigned : Store := forgedIn catalogued

theorem reached_feigned : Reached (fun _ _ c => c.variant.layout.has baseName = false) feigned [24, 21] := by
  have hleaf : Reached (fun _ _ c => c.variant.layout.has baseName = false) ((leafCall 12).run catalogued).2 [21] :=
    (reached_catalogued _).runAll [leafCall 12] (.cons rfl .nil) (by decide +kernel)
  exact (reached_extendWith hleaf (fun h => Input.harmless_of_plain h _) List.mem_cons_self).runAll [leafCall 22]
    (.cons rfl .nil) (by decide +kernel)

/-- A walk hands out the node with the members of a token, but the rendering of the leaf shows only the token in it. -/
theorem not_compacts_feigned :
    Reached (fun _ _ c => c.variant.layout.has baseName = false) feigned [24, 21] ∧ feigned.HasGrammar words ∧
    Walk.Lists feigned .tokens (.object 24) (forgedOutline 22).elements ∧
    ¬ feigned.Compacts words (.object 24) (((forgedOutline 22).elements.filterMap Element.token?).map Prod.snd) := by
  have houtline : feigned.outline? 4 24 = some (forgedOutline 22) := by decide +kernel
  refine ⟨reached_feigned, ⟨by decide +kernel, by decide +kernel⟩,
    Walk.lists_iff_exists.mpr ⟨_, outlines_of_outline? houtline, ⟨trivial, trivial⟩, rfl⟩, fun h => ?_⟩
  have hshown : (feigned.render (.object words.self) .full (.object 24)).toOption.map Data.tokens =
      some [⟨.text "Word", 0, 0, 1⟩] := by decide +kernel
  obtain ⟨d, hd, htokens⟩ := Option.map_eq_some_iff.mp hshown
  have hwalked := h.tokens d (Attempt.eq_ok hd)
  rw [htokens] at hwalked
  exact absurd (congrArg Except.toOption hwalked) (by decide +kernel)

end Sample

end LosslessSyntax
