import LosslessSyntax.Proofs.Lossless
import LosslessSyntax.Proofs.Reading
import LosslessSyntax.Proofs.Structure

/-!
# Trees of programs

What the tree of a source looks like, slot by slot.

* `Expr.IsAt`, `Statement.IsAt`, `Program.IsAt`: a value of a store is the tree of a piece of syntax. They are said in
  what is shown by a token (`TokenAt`) and by a node, its variant and the contents of its slots (`NodeAt`), and stay
  true as long as objects are kept.
* A run that plants a piece of syntax and succeeds returns its tree (`plantExpr_isAt`, `plantStatement_isAt`,
  `plant_isAt`), since a node shows what it was made of (`nodeAt_of_made`).
* `parse_isAt`: parsing a source gives the tree of its program.
-/

namespace LosslessSyntax

namespace Calc

open Store

variable {s t : Store}

/-! ## Places -/

/-- A value is a token: an object that is neither a node nor a list. -/
structure TokenAt (t : Store) (token : Token) (v : Value) : Prop where
  element : ∃ id, v = .object id ∧ t.elementOf? v = some (.token id token)
  single : t.isList v = false

/-- A value is a token that may be missing. -/
def OptionalAt (t : Store) : Option Token → Value → Prop
  | none, v => v = .null
  | some token, v => TokenAt t token v

/-- A value is a node of a kind, with what stands in its slots. -/
structure NodeAt (t : Store) (k : NodeKind) (slots : Members Value) (v : Value) : Prop where
  node : ∃ id, v = .object id ∧ t.isNode id = true
  single : t.isList v = false
  variant : t.madeVariant? v = some k.variant
  contents : t.contents v = .ok slots

/-- A value is the tree of an expression; what is missing is `null`. -/
def Expr.IsAt (t : Store) : Expr Token → Value → Prop
  | .missing, v => v = .null
  | .number value, v => ∃ w, TokenAt t value w ∧ NodeAt t .numberLiteral [("value", w)] v
  | .name token, v => ∃ w, TokenAt t token w ∧ NodeAt t .nameExpression [("name", w)] v
  | .paren opening inner closing, v => ∃ w₁ w₂ w₃, TokenAt t opening w₁ ∧ inner.IsAt t w₂ ∧ OptionalAt t closing w₃ ∧
    NodeAt t .parenthesizedExpression [("openParen", w₁), ("expression", w₂), ("closeParen", w₃)] v
  | .binary left operator right, v => ∃ w₁ w₂ w₃, left.IsAt t w₁ ∧ TokenAt t operator w₂ ∧ right.IsAt t w₃ ∧
    NodeAt t .binaryExpression [("left", w₁), ("operator", w₂), ("right", w₃)] v

def Statement.IsAt (t : Store) : Statement Token → Value → Prop
  | .assignment name equals value semicolon, v => ∃ w₁ w₂ w₃ w₄, TokenAt t name w₁ ∧ TokenAt t equals w₂ ∧
    value.IsAt t w₃ ∧ OptionalAt t semicolon w₄ ∧
    NodeAt t .assignmentStatement [("name", w₁), ("equals", w₂), ("value", w₃), ("semicolon", w₄)] v
  | .expression e semicolon, v => ∃ w₁ w₂, e.IsAt t w₁ ∧ OptionalAt t semicolon w₂ ∧
    NodeAt t .expressionStatement [("expression", w₁), ("semicolon", w₂)] v
  | .skipped token, v => ∃ w row, TokenAt t token w ∧ t.items? row = some (.ofList [w]) ∧
    NodeAt t .skippedTokens [("tokens", row)] v

def Program.IsAt (t : Store) (p : Program Token) (v : Value) : Prop :=
  ∃ row ws w, t.items? row = some (.ofList ws) ∧ List.Forall₂ (Statement.IsAt t) p.statements ws ∧
    TokenAt t p.endOfFile w ∧ NodeAt t .sourceFile [("statements", row), ("endOfFileToken", w)] v

/-! ## Stores that grow -/

theorem TokenAt.within {token : Token} {v : Value} (h : TokenAt t token v) : v.Within t.size := by
  obtain ⟨id, rfl, hread⟩ := h.element
  exact lt_size_of_elementOf? hread

theorem TokenAt.keeps (hs : Hosts s) (hk : s.Keeps t) {token : Token} {v : Value} (h : TokenAt s token v) :
    TokenAt t token v := by
  obtain ⟨id, heq, hread⟩ := h.element
  exact ⟨⟨id, heq, (hs.grounded.elementOf?_keeps hk h.within).trans hread⟩,
    (Grounded.isList_keeps hk h.within).trans h.single⟩

theorem OptionalAt.keeps (hs : Hosts s) (hk : s.Keeps t) {token : Option Token} {v : Value}
    (h : OptionalAt s token v) : OptionalAt t token v := by
  cases token with
  | none => exact h
  | some token => exact TokenAt.keeps hs hk h

theorem member_keeps (hs : s.Grounded) (hk : s.Keeps t) {v : Value} (hv : v.Within s.size) {name : Text}
    (hname : name ≠ "parent") : t.member name v = s.member name v := by
  cases v with
  | object id => exact congrArg Except.ok (hs.lookup_keeps hk hv hname)
  | _ => rfl

/-- The slots of a node that was made with a variant are the same, if none is named like the parent of a node. -/
theorem contents_keeps (hs : s.Grounded) (hc : s.Closed) (hk : s.Keeps t) {id : ObjectId} (hid : id < s.size)
    {v : Variant} (hvariant : s.madeVariant? (.object id) = some v) (hslots : ("parent" : Text) ∉ v.slotNames) :
    t.madeVariant? (.object id) = some v ∧ t.contents (.object id) = s.contents (.object id) := by
  have hmade : t.madeVariant? (.object id) = s.madeVariant? (.object id) := by
    simp only [madeVariant?, Value.object?, Option.bind_some, node?, hk.object hid]
  have hslot : ∀ slot ∈ v.slotNames, t.slotContent (.object id) slot = s.slotContent (.object id) slot := by
    intro slot hslot
    have hne : slot ≠ "parent" := fun heq => hslots (heq ▸ hslot)
    have hchildren := hs.lookup_keeps hk hid (by decide : ("children" : Text) ≠ "parent")
    show (t.member slot (t.lookup id "children") >>= _) = s.member slot (s.lookup id "children") >>= _
    rw [hchildren, member_keeps hs hk (hc.lookup hs id (by decide)) hne]
  refine ⟨hmade.trans hvariant, ?_⟩
  rw [contents, contents, slotNames, slotNames, hmade, hvariant]
  show v.slotNames.mapM _ = v.slotNames.mapM _
  exact Attempt.mapM_congr fun slot h => by rw [hslot slot h]

theorem NodeAt.within {k : NodeKind} {slots : Members Value} {v : Value} (h : NodeAt t k slots v) :
    v.Within t.size := by
  obtain ⟨id, rfl, hnode⟩ := h.node
  exact lt_size_of_isNode hnode

theorem NodeAt.keeps (hs : Hosts s) (hk : s.Keeps t) {k : NodeKind} {slots : Members Value} {v : Value}
    (h : NodeAt s k slots v) : NodeAt t k slots v := by
  have hv := h.within
  obtain ⟨⟨id, rfl, hnode⟩, hlist, hvariant, hcontents⟩ := h
  obtain ⟨hvariant', hcontents'⟩ := contents_keeps hs.grounded hs.closed hk hv hvariant (by cases k <;> decide)
  exact
    { node := ⟨id, rfl, (hs.grounded.isNode_keeps hk hv).trans hnode⟩
      single := (Grounded.isList_keeps hk hv).trans hlist
      variant := hvariant'
      contents := hcontents'.trans hcontents }

/-- The tree of an expression is nothing or a node. -/
theorem Expr.IsAt.null_or_node {e : Expr Token} {v : Value} (h : e.IsAt t v) :
    v = .null ∨ ∃ k slots, NodeAt t k slots v := by
  cases e with
  | missing => exact .inl h
  | number value => obtain ⟨_, _, hnode⟩ := h; exact .inr ⟨_, _, hnode⟩
  | name token => obtain ⟨_, _, hnode⟩ := h; exact .inr ⟨_, _, hnode⟩
  | paren opening inner closing => obtain ⟨_, _, _, _, _, _, hnode⟩ := h; exact .inr ⟨_, _, hnode⟩
  | binary left operator right => obtain ⟨_, _, _, _, _, _, hnode⟩ := h; exact .inr ⟨_, _, hnode⟩

theorem Expr.IsAt.within {e : Expr Token} {v : Value} (h : e.IsAt t v) : v.Within t.size := by
  obtain rfl | ⟨k, slots, hnode⟩ := h.null_or_node
  · trivial
  · exact hnode.within

theorem Expr.IsAt.keeps (hs : Hosts s) (hk : s.Keeps t) {e : Expr Token} {v : Value} (h : e.IsAt s v) :
    e.IsAt t v := by
  induction e generalizing v with
  | missing => exact h
  | number token | name token =>
    obtain ⟨w, hw, hnode⟩ := h
    exact ⟨w, hw.keeps hs hk, hnode.keeps hs hk⟩
  | paren opening inner closing ih =>
    obtain ⟨w₁, w₂, w₃, h₁, h₂, h₃, hnode⟩ := h
    exact ⟨w₁, w₂, w₃, h₁.keeps hs hk, ih h₂, h₃.keeps hs hk, hnode.keeps hs hk⟩
  | binary left operator right ihl ihr =>
    obtain ⟨w₁, w₂, w₃, h₁, h₂, h₃, hnode⟩ := h
    exact ⟨w₁, w₂, w₃, ihl h₁, h₂.keeps hs hk, ihr h₃, hnode.keeps hs hk⟩

theorem Statement.IsAt.node {st : Statement Token} {v : Value} (h : st.IsAt t v) : ∃ k slots, NodeAt t k slots v := by
  cases st with
  | assignment => obtain ⟨_, _, _, _, _, _, _, _, hnode⟩ := h; exact ⟨_, _, hnode⟩
  | expression => obtain ⟨_, _, _, _, hnode⟩ := h; exact ⟨_, _, hnode⟩
  | skipped => obtain ⟨_, _, _, _, hnode⟩ := h; exact ⟨_, _, hnode⟩

theorem items?_of_keeps (hs : Hosts s) (hk : s.Keeps t) {v : Value} {q : Sequence} (h : s.items? v = some q) :
    t.items? v = some q := by
  have hv : v.Within s.size := by
    cases v with
    | object id =>
      rw [Grounded.items?_object] at h
      obtain ⟨o, ho, _⟩ := Option.bind_eq_some_iff.mp h
      exact lt_size_of_object? ho
    | _ => trivial
  rw [hs.grounded.items?_keeps hk hv, h]

theorem Statement.IsAt.keeps (hs : Hosts s) (hk : s.Keeps t) {st : Statement Token} {v : Value} (h : st.IsAt s v) :
    st.IsAt t v := by
  cases st with
  | assignment name equals value semicolon =>
    obtain ⟨w₁, w₂, w₃, w₄, h₁, h₂, h₃, h₄, hnode⟩ := h
    exact ⟨w₁, w₂, w₃, w₄, h₁.keeps hs hk, h₂.keeps hs hk, h₃.keeps hs hk, h₄.keeps hs hk, hnode.keeps hs hk⟩
  | expression e semicolon =>
    obtain ⟨w₁, w₂, h₁, h₂, hnode⟩ := h
    exact ⟨w₁, w₂, h₁.keeps hs hk, h₂.keeps hs hk, hnode.keeps hs hk⟩
  | skipped token =>
    obtain ⟨w, row, hw, hrow, hnode⟩ := h
    exact ⟨w, row, hw.keeps hs hk, items?_of_keeps hs hk hrow, hnode.keeps hs hk⟩

/-! ## Nodes as they are made -/

/-- What a slot holds of what was given for it: a list of its own for a row. -/
def Holds (t : Store) : SlotValue → Value → Prop
  | .one w, v => v = if w.isMissing then .null else w
  | .many ws, v => t.IsRow v ws

theorem checkSlot_settled {kind : Value} {slot : Text} {given checked : SlotValue}
    (h : s.checkSlot kind slot given.arity given = .ok checked) : checked = given.settled := by
  cases given with
  | many ws =>
    rw [checkSlot, SlotValue.arity, if_pos rfl, checkMany, checkEntries] at h
    split at h
    · exact (Except.ok.inj h).symm
    · cases h
  | one w =>
    rw [checkSlot, SlotValue.arity, if_neg (by decide), checkOne] at h
    split at h
    · rename_i hmissing
      rw [SlotValue.settled, if_pos hmissing]
      exact (Except.ok.inj h).symm
    · rename_i hmissing
      split at h
      · cases h
      · split at h
        · rw [SlotValue.settled, if_neg hmissing]
          exact (Except.ok.inj h).symm
        · cases h

/-- A row holds what stands in it. -/
theorem holds_row (ht : t.Grounded) {row : Row} {given : SlotValue} (hstands : t.Stands given.settled row.value) :
    Holds t given row.content := by
  cases given with
  | one w =>
    have hvalue : row.value = if w.isMissing then .null else w := hstands
    show row.content = _
    rw [Row.content, hvalue]
    cases hmissing : w.isMissing <;> simp [hmissing]
  | many ws =>
    obtain ⟨id, hvalue, hobject, hbase⟩ := hstands
    show t.IsRow row.content ws
    rw [Row.content, hvalue]
    exact ht.isRow_list hobject hbase

/-- Lists that are told apart by names in the same order are related, if what has the same name is. -/
theorem forall₂_of_names {α β : Type} {R : α → β → Prop} {name : α → Text} {name' : β → Text} {as : List α}
    {bs : List β} (hnames : as.map name = bs.map name') (h : ∀ a ∈ as, ∀ b ∈ bs, name a = name' b → R a b) :
    List.Forall₂ R as bs := by
  induction as generalizing bs with
  | nil =>
    rw [List.map_eq_nil_iff.mp hnames.symm]
    exact .nil
  | cons a as ih =>
    obtain ⟨b, bs, rfl, hname, hrest⟩ := List.map_eq_cons_iff.mp hnames.symm
    refine .cons (h a List.mem_cons_self b List.mem_cons_self hname.symm) (ih hrest.symm fun a ha b hb => ?_)
    exact h a (List.mem_cons_of_mem _ ha) b (List.mem_cons_of_mem _ hb)

theorem exists_of_forall₂ {α β : Type} {R : α → β → Prop} {as : List α} {bs : List β} (h : List.Forall₂ R as bs) {b : β}
    (hb : b ∈ bs) : ∃ a ∈ as, R a b := by
  induction h with
  | nil => cases hb
  | cons hab _ ih =>
    rcases List.mem_cons.mp hb with rfl | hb
    · exact ⟨_, List.mem_cons_self, hab⟩
    · obtain ⟨a, ha, hr⟩ := ih hb
      exact ⟨a, List.mem_cons_of_mem _ ha, hr⟩

/-- A node that was made shows what was given for its slots. -/
theorem nodeAt_of_made {k : NodeKind} {slots : Members SlotValue} {id : ObjectId} {n : Node} {rows : List Row}
    (hdeclared : slots.map (fun entry => (entry.1, entry.2.arity)) = k.layout) (hvariant : n.variant = k.variant)
    (hmade : s.Made k.variant.plan (.ofMembers slots) id n rows t) :
    ∃ ws, NodeAt t k (slots.names.zip ws) (.object id) ∧ List.Forall₂ (Holds t) (slots.map Prod.snd) ws := by
  have hshows := hmade.shows
  have hnames : slots.names = k.layout.names := by
    rw [← hdeclared, Members.names, Members.names, List.map_map]
    rfl
  have hlayout : k.layout.names.Nodup ∧ k.layout.has baseName = false := by cases k <;> decide
  have hrows : slots.map Prod.fst = rows.map Row.slot := by
    rw [hshows.slots, hvariant]
    exact hnames
  have hread : ∀ entry ∈ slots, (Input.ofMembers slots).read entry.1 = entry.2 := by
    intro entry hentry
    show (slots.get? entry.1).getD _ = _
    rw [Members.get?_of_mem (hnames ▸ hlayout.1) hentry]
    rfl
  refine ⟨rows.map Row.content, ⟨⟨id, rfl, hshows.isNode hmade.grown.grounded⟩, ?_, ?_, ?_⟩, ?_⟩
  · simp [isList, Value.object?, hshows.object, Object.items?]
  · rw [hshows.madeVariant?, hvariant]
  · rw [hshows.contents hmade.grown.grounded, Members.names, hrows, List.zip_map']
  · refine List.forall₂_map_left_iff.mpr (List.forall₂_map_right_iff.mpr ?_)
    refine forall₂_of_names hrows fun entry hentry row hrow hname => ?_
    have hslot : entry.1 ∈ k.layout.names := hnames ▸ List.mem_map.mpr ⟨entry, hentry, rfl⟩
    obtain ⟨arity, checked, harity, hcheck, _, hstands⟩ :=
      hmade.given row hrow (hname ▸ Members.ne_of_has hlayout.2 hslot)
    rw [show k.variant.plan.layout = k.layout from rfl, ← hdeclared] at harity
    obtain ⟨entry', hentry', heq⟩ := List.mem_map.mp harity
    obtain ⟨hname', rfl⟩ := Prod.mk.inj heq
    rw [← hname', hread entry' hentry'] at hcheck
    have hsame : entry'.2 = entry.2 := by
      rw [← hread entry' hentry', ← hread entry hentry, hname', hname]
    rw [hsame] at hcheck
    obtain rfl := checkSlot_settled hcheck
    exact holds_row hmade.grown.grounded hstands

theorem hosts_of_made {p : Plan} {input : Input} {id : ObjectId} {n : Node} {rows : List Row} (h : Hosts s)
    (hmade : s.Made p input id n rows t) : Hosts t :=
  h.keeps hmade.grown.keeps hmade.grown.grounded hmade.grown.closed

/-- A run that makes a node and succeeds. -/
theorem make_nodeAt (h : Hosts s) {k : NodeKind} {slots : Members SlotValue} {v : Value}
    (hrun : make k slots s = (.ok v, t)) (hdeclared : slots.map (fun entry => (entry.1, entry.2.arity)) = k.layout)
    (hslots : ∀ given ∈ slots.map Prod.snd, given.Within s.size) :
    Hosts t ∧ s.Keeps t ∧ ∃ ws, NodeAt t k (slots.names.zip ws) v ∧
      List.Forall₂ (Holds t) (slots.map Prod.snd) ws := by
  obtain ⟨id, u, hcreate, hv⟩ := Building.bind_eq_ok hrun
  cases hv
  have hplain : k.variant.layout.has baseName = false := by cases k <;> decide
  rcases create_spec h.grounded h.closed (h.lt_size k)
      (Input.within_ofMembers (h.grounded.ground_lt .record) (List.forall_mem_map.mp hslots))
      (Input.harmless_of_plain hplain _) with
    ⟨id', n, rows, u, hrun', hmade, hvariant, _⟩ | ⟨failure, u, hrun', _⟩
  · cases hcreate.symm.trans hrun'
    exact ⟨hosts_of_made h hmade, hmade.grown.keeps, nodeAt_of_made hdeclared hvariant hmade⟩
  · cases hcreate.symm.trans hrun'

theorem Holds.keeps (hs : Hosts s) (hk : s.Keeps t) {given : SlotValue} {v : Value} (h : Holds s given v) :
    Holds t given v := by
  cases given with
  | one w => exact h
  | many ws => exact IsRow.keeps hs.grounded hk h

theorem createSourceFile_nodeAt (h : Hosts s) {source : Source} {slots : Members SlotValue} {root : ObjectId}
    (hrun : createSourceFile grammar source (.ofMembers slots) s = (.ok root, t))
    (hdeclared : slots.map (fun entry => (entry.1, entry.2.arity)) = NodeKind.sourceFile.layout)
    (hslots : ∀ given ∈ slots.map Prod.snd, given.Within s.size) :
    Hosts t ∧ s.Keeps t ∧ ∃ ws, NodeAt t .sourceFile (slots.names.zip ws) (.object root) ∧
      List.Forall₂ (Holds t) (slots.map Prod.snd) ws := by
  have hinput := Input.within_ofMembers (h.grounded.ground_lt .record) (List.forall_mem_map.mp hslots)
  rcases createSourceFile_spec (g := grammar) h.grounded h.closed (h.lt_size .sourceFile) source hinput
      (Input.harmless_of_plain (by decide) _) with
    ⟨id, n, rows, u, nodes, hrun', hmade, hvariant, _, _⟩ | ⟨failure, u, hrun', _⟩ |
      ⟨failure, id, n, rows, u, nodes, hrun', _⟩ <;> rw [hrun] at hrun' <;> cases hrun'
  have hk := keeps_recordRoot u root nodes
  have hu := hosts_of_made h hmade
  have hgrown := hmade.grown.recordRoot root nodes
  obtain ⟨ws, hnode, hheld⟩ := nodeAt_of_made hdeclared hvariant hmade
  exact ⟨h.keeps hgrown.keeps hgrown.grounded hgrown.closed, hgrown.keeps, ws, hnode.keeps hu hk,
    hheld.imp fun _ _ hgiven => hgiven.keeps hu hk⟩

/-- What was made for an expression is held as it is. -/
theorem Expr.IsAt.settled {e : Expr Token} {v : Value} (h : e.IsAt t v) : (if v.isMissing then .null else v) = v := by
  obtain rfl | ⟨k, slots, hnode⟩ := h.null_or_node
  · rfl
  · obtain ⟨id, rfl, _⟩ := hnode.node
    rfl

/-! ## Planting

Each leaf of a piece of syntax has a token and the object where it is. -/

section

variable {α : Type} {token : α → Token} {place : α → ObjectId}

theorem holds_optionalToken {x : Option α} {v : Value}
    (hx : ∀ y ∈ x.toList, TokenAt s (token y) (.object (place y))) (h : Holds t (optionalTokenSlot (x.map place)) v) :
    OptionalAt s (x.map token) v := by
  cases x with
  | none => exact h
  | some x =>
    rw [show v = .object (place x) from h]
    exact hx x List.mem_cons_self

theorem within_optionalToken {x : Option α} (hx : ∀ y ∈ x.toList, TokenAt s (token y) (.object (place y))) :
    (optionalTokenSlot (x.map place)).Within s.size := by
  cases x with
  | none => trivial
  | some x => exact (hx x List.mem_cons_self).within

/-- What is planted for an expression is its tree. -/
theorem plantExpr_isAt (h : Hosts s) {e : Expr α} (hts : ∀ x ∈ e.tokens, TokenAt s (token x) (.object (place x)))
    {v : Value} (hrun : plantExpr (e.map place) s = (.ok v, t)) :
    Hosts t ∧ s.Keeps t ∧ (e.map token).IsAt t v := by
  induction e generalizing s t v with
  | missing =>
    cases hrun
    exact ⟨h, .refl s, rfl⟩
  | number leaf | name leaf =>
    have htoken := hts leaf List.mem_cons_self
    obtain ⟨ht, hk, ws, hnode, hheld⟩ := make_nodeAt h hrun rfl (List.forall_mem_singleton.mpr htoken.within)
    rcases hheld with _ | ⟨rfl, ⟨⟩⟩
    exact ⟨ht, hk, _, htoken.keeps h hk, hnode⟩
  | paren opening inner closing ih =>
    simp only [Expr.tokens, List.mem_cons, List.mem_append] at hts
    obtain ⟨v', u, hinner, hmake⟩ := Building.bind_eq_ok hrun
    obtain ⟨hu, hk, hv'⟩ := ih h (fun x hx => hts x (.inr (.inl hx))) hinner
    have hopening := (hts opening (.inl rfl)).keeps h hk
    have hclosing := fun x hx => (hts x (.inr (.inr hx))).keeps h hk
    obtain ⟨ht, hk', ws, hnode, hheld⟩ := make_nodeAt hu hmake rfl (List.forall_mem_cons.mpr ⟨hopening.within,
      List.forall_mem_cons.mpr ⟨hv'.within, List.forall_mem_singleton.mpr (within_optionalToken hclosing)⟩⟩)
    rcases hheld with _ | ⟨rfl, _ | ⟨rfl, _ | ⟨hlast, ⟨⟩⟩⟩⟩
    rw [hv'.settled] at hnode
    exact ⟨ht, hk.trans hk', _, _, _, hopening.keeps hu hk', hv'.keeps hu hk',
      (holds_optionalToken hclosing hlast).keeps hu hk', hnode⟩
  | binary left operator right ihl ihr =>
    simp only [Expr.tokens, List.mem_cons, List.mem_append] at hts
    obtain ⟨w, t₁, hleft, hrun⟩ := Building.bind_eq_ok hrun
    obtain ⟨w', t₂, hright, hmake⟩ := Building.bind_eq_ok hrun
    obtain ⟨h₁, hk₁, hw⟩ := ihl h (fun x hx => hts x (.inl hx)) hleft
    obtain ⟨h₂, hk₂, hw'⟩ := ihr h₁ (fun x hx => (hts x (.inr (.inr hx))).keeps h hk₁) hright
    have hw := hw.keeps h₁ hk₂
    have hoperator := (hts operator (.inr (.inl rfl))).keeps h (hk₁.trans hk₂)
    obtain ⟨ht, hk, ws, hnode, hheld⟩ := make_nodeAt h₂ hmake rfl (List.forall_mem_cons.mpr ⟨hw.within,
      List.forall_mem_cons.mpr ⟨hoperator.within, List.forall_mem_singleton.mpr hw'.within⟩⟩)
    rcases hheld with _ | ⟨rfl, _ | ⟨rfl, _ | ⟨rfl, ⟨⟩⟩⟩⟩
    rw [hw.settled, hw'.settled] at hnode
    exact ⟨ht, (hk₁.trans hk₂).trans hk, _, _, _, hw.keeps h₂ hk, hoperator.keeps h₂ hk, hw'.keeps h₂ hk, hnode⟩

theorem plantStatement_isAt (h : Hosts s) {st : Statement α}
    (hts : ∀ x ∈ st.tokens, TokenAt s (token x) (.object (place x))) {v : Value}
    (hrun : plantStatement (st.map place) s = (.ok v, t)) : Hosts t ∧ s.Keeps t ∧ (st.map token).IsAt t v := by
  cases st with
  | assignment name equals value semicolon =>
    simp only [Statement.tokens, List.mem_cons, List.mem_append] at hts
    obtain ⟨w, u, hvalue, hmake⟩ := Building.bind_eq_ok hrun
    obtain ⟨hu, hk, hw⟩ := plantExpr_isAt h (fun x hx => hts x (.inr (.inr (.inl hx)))) hvalue
    have hname := (hts name (.inl rfl)).keeps h hk
    have hequals := (hts equals (.inr (.inl rfl))).keeps h hk
    have hsemicolon := fun x hx => (hts x (.inr (.inr (.inr hx)))).keeps h hk
    obtain ⟨ht, hk', ws, hnode, hheld⟩ := make_nodeAt hu hmake rfl (List.forall_mem_cons.mpr ⟨hname.within,
      List.forall_mem_cons.mpr ⟨hequals.within, List.forall_mem_cons.mpr ⟨hw.within,
        List.forall_mem_singleton.mpr (within_optionalToken hsemicolon)⟩⟩⟩)
    rcases hheld with _ | ⟨rfl, _ | ⟨rfl, _ | ⟨rfl, _ | ⟨hlast, ⟨⟩⟩⟩⟩⟩
    rw [hw.settled] at hnode
    exact ⟨ht, hk.trans hk', _, _, _, _, hname.keeps hu hk', hequals.keeps hu hk', hw.keeps hu hk',
      (holds_optionalToken hsemicolon hlast).keeps hu hk', hnode⟩
  | expression e semicolon =>
    simp only [Statement.tokens, List.mem_append] at hts
    obtain ⟨w, u, he, hmake⟩ := Building.bind_eq_ok hrun
    obtain ⟨hu, hk, hw⟩ := plantExpr_isAt h (fun x hx => hts x (.inl hx)) he
    have hsemicolon := fun x hx => (hts x (.inr hx)).keeps h hk
    obtain ⟨ht, hk', ws, hnode, hheld⟩ := make_nodeAt hu hmake rfl (List.forall_mem_cons.mpr ⟨hw.within,
      List.forall_mem_singleton.mpr (within_optionalToken hsemicolon)⟩)
    rcases hheld with _ | ⟨rfl, _ | ⟨hlast, ⟨⟩⟩⟩
    rw [hw.settled] at hnode
    exact ⟨ht, hk.trans hk', _, _, hw.keeps hu hk', (holds_optionalToken hsemicolon hlast).keeps hu hk', hnode⟩
  | skipped leaf =>
    have htoken := hts leaf List.mem_cons_self
    obtain ⟨ht, hk, ws, hnode, hheld⟩ := make_nodeAt h hrun rfl
      (List.forall_mem_singleton.mpr (List.forall_mem_singleton.mpr htoken.within))
    rcases hheld with _ | ⟨hrow, ⟨⟩⟩
    exact ⟨ht, hk, _, _, htoken.keeps h hk, hrow.items, hnode⟩

theorem plantStatements_isAt (h : Hosts s) {sts : List (Statement α)}
    (hts : ∀ x ∈ sts.flatMap Statement.tokens, TokenAt s (token x) (.object (place x))) {vs : List Value}
    (hrun : (sts.map (Statement.map place)).mapM plantStatement s = (.ok vs, t)) :
    Hosts t ∧ s.Keeps t ∧ List.Forall₂ (Statement.IsAt t) (sts.map (Statement.map token)) vs := by
  induction sts generalizing s vs with
  | nil =>
    cases hrun
    exact ⟨h, .refl _, .nil⟩
  | cons st sts ih =>
    simp only [List.flatMap_cons, List.mem_append] at hts
    rw [List.map_cons, List.mapM_cons] at hrun
    obtain ⟨v, u, hfirst, hrun⟩ := Building.bind_eq_ok hrun
    obtain ⟨vs, u', hrest, hrun⟩ := Building.bind_eq_ok hrun
    cases hrun
    obtain ⟨hu, hk, hv⟩ := plantStatement_isAt h (fun x hx => hts x (.inl hx)) hfirst
    obtain ⟨ht, hk', hvs⟩ := ih hu (fun x hx => (hts x (.inr hx)).keeps h hk) hrest
    exact ⟨ht, hk.trans hk', .cons (hv.keeps hu hk') hvs⟩

def Program.map {β γ : Type} (f : β → γ) (p : Program β) : Program γ :=
  ⟨p.statements.map (Statement.map f), f p.endOfFile⟩

/-- What is planted for a program is its tree. -/
theorem plant_isAt (h : Hosts s) {source : Source} {p : Program α}
    (hts : ∀ x ∈ p.tokens, TokenAt s (token x) (.object (place x))) {root : ObjectId}
    (hrun : plant source (p.map place) s = (.ok root, t)) : (p.map token).IsAt t (.object root) := by
  simp only [Program.tokens, List.mem_append, List.mem_singleton] at hts
  obtain ⟨vs, u, hstatements, hfile⟩ := Building.bind_eq_ok hrun
  obtain ⟨hu, hk, hvs⟩ := plantStatements_isAt h (fun x hx => hts x (.inl hx)) hstatements
  have heof := (hts p.endOfFile (.inr rfl)).keeps h hk
  have hwithin : ∀ v ∈ vs, v.Within u.size := by
    intro v hv
    obtain ⟨st, _, hst⟩ := exists_of_forall₂ hvs hv
    obtain ⟨k, slots, hnode⟩ := hst.node
    exact hnode.within
  obtain ⟨ht, hk', ws, hnode, hheld⟩ := createSourceFile_nodeAt hu hfile rfl
    (List.forall_mem_cons.mpr ⟨hwithin, List.forall_mem_singleton.mpr heof.within⟩)
  rcases hheld with _ | ⟨hrow, _ | ⟨rfl, ⟨⟩⟩⟩
  exact ⟨_, vs, _, hrow.items, hvs.imp fun _ _ hst => hst.keeps hu hk', heof.keeps hu hk', hnode⟩

end

/-! ## Sources -/

/-- The program of a lexing. -/
def Program.ofLexing (l : Lexing) : Program Lexeme := ⟨Calc.statements Lexeme.kind l.lexemes, l.endOfFile⟩

/-- The program of a lexing, its tokens numbered from `base` on. -/
def Program.numbered (base : Nat) (l : Lexing) : Program (Lexeme × Nat) :=
  ⟨Calc.statements (Lexeme.kind ∘ Prod.fst) (l.lexemes.zipIdx base), (l.endOfFile, base + l.lexemes.length)⟩

namespace Program

theorem numbered_token (base : Nat) (l : Lexing) :
    (numbered base l).map (Lexeme.token ∘ Prod.fst) = (ofLexing l).map Lexeme.token := by
  have hleaves : l.lexemes = (l.lexemes.zipIdx base).map Prod.fst := (List.zipIdx_map_fst base l.lexemes).symm
  rw [map, map, numbered, ofLexing]
  simp only
  conv_rhs => rw [hleaves, statements_map, List.map_map]
  simp only [Function.comp_def, Statement.map_map]

theorem numbered_snd (base : Nat) (l : Lexing) :
    (numbered base l).map Prod.snd = ofKinds base (l.lexemes.map Lexeme.kind) := by
  rw [map, numbered, ofKinds, List.zipIdx_map, statements_map, List.map_map, List.length_map]
  simp only [Function.comp_def, Statement.map_map]
  rfl

theorem tokens_numbered (base : Nat) (l : Lexing) : (numbered base l).tokens = l.toList.zipIdx base := by
  rw [tokens, numbered, flatMap_tokens_statements, Lexing.toList, List.zipIdx_append]
  rfl

end Program

/-- A token that was added is where it was added. -/
theorem tokenAt_addTokens {ls : List Lexeme} (h : Hosts (s.addAll (ls.map fun l => .token l.token))) {i : Nat}
    {l : Lexeme} (hl : ls[i]? = some l) :
    TokenAt (s.addAll (ls.map fun l => .token l.token)) l.token (.object (s.size + i)) := by
  obtain ⟨⟨hloose, tok, hread⟩, htoken⟩ := looseToken_addAll h.grounded
    (show (ls.map fun l => Object.token l.token)[i]? = some (.token l.token) by rw [List.getElem?_map, hl]; rfl)
  have hsame : tok = l.token := by
    simp only [elementOf?, htoken] at hread
    split at hread <;> cases hread
    rfl
  exact ⟨⟨_, rfl, hsame ▸ hread⟩, hloose.single⟩

/-- Parsing a source gives the tree of its program. -/
theorem parse_isAt (h : Hosts s) (source : Source) : ∃ root t, parseValue (.text source.text) s = (.ok root, t) ∧
    Hosts t ∧ t.isSourceFile root = true ∧
    ((Program.ofLexing (lex source.text)).map Lexeme.token).IsAt t (.object root) := by
  obtain ⟨root, _, t, hrun, ht, _, _, hfile, _⟩ := parse_spec h source
  have huntouched := untouched_addTokens h (lex source.text).toList
  have hadded := h.keeps huntouched.keeps huntouched.grounded huntouched.closed
  have hplant : plant source (.ofKinds s.size ((lex source.text).lexemes.map Lexeme.kind))
      (s.addAll ((lex source.text).toList.map fun l => .token l.token)) = (.ok root, t) := hrun
  rw [← Program.numbered_snd] at hplant
  refine ⟨root, t, ?_, ht, hfile, ?_⟩
  · rw [parseValue_text]
    exact hrun
  · rw [← Program.numbered_token s.size]
    refine plant_isAt hadded (fun x hx => ?_) hplant
    rw [Program.tokens_numbered, List.mem_zipIdx_iff_le_and_getElem?_sub] at hx
    obtain ⟨hle, hget⟩ := hx
    obtain ⟨i, hi⟩ := Nat.exists_eq_add_of_le hle
    rw [hi, Nat.add_sub_cancel_left] at hget
    rw [hi]
    exact tokenAt_addTokens hadded hget

/-! ## Children -/

/-- A node is met in what a slot holds. -/
def MetIn (t : Store) (w : Value) (c : ObjectId) : Prop :=
  t.isNode c = true ∧ ∃ entry ∈ t.slotEntries w, entry.2 = .object c

/-- The children of a node that are nodes are met in its slots. -/
theorem NodeAt.metIn {k : NodeKind} {slots : Members Value} {n c : ObjectId} (h : NodeAt t k slots (.object n))
    (hc : t.ChildNode n c) : ∃ w ∈ slots.map Prod.snd, MetIn t w c := by
  obtain ⟨items, slot, value, _, hitems, hmem, hread⟩ := hc
  obtain ⟨rfl, hnode, _⟩ := isNode_of_elementOf? hread
  rw [items_of_contents h.contents] at hitems
  cases hitems
  obtain ⟨held, hheld, hitem⟩ := List.mem_flatMap.mp hmem
  obtain ⟨entry, hentry, heq⟩ := List.mem_map.mp hitem
  exact ⟨held.2, List.mem_map.mpr ⟨held, hheld, rfl⟩, hnode, entry, hentry, (Item.value.inj heq).2⟩

theorem MetIn.eq {w : Value} {c : ObjectId} (h : MetIn t w c) (hw : t.isList w = false) : w = .object c := by
  obtain ⟨_, entry, hentry, heq⟩ := h
  have hitems : t.items? w = none := by
    rwa [← isSome_items?, Option.isSome_eq_false_iff, Option.isNone_iff_eq_none] at hw
  rw [slotEntries, hitems] at hentry
  obtain ⟨hmem, _⟩ := List.mem_filter.mp hentry
  rw [← heq, List.mem_singleton.mp hmem]

theorem MetIn.mem {w : Value} {ws : List Value} {c : ObjectId} (h : MetIn t w c)
    (hw : t.items? w = some (.ofList ws)) : .object c ∈ ws := by
  obtain ⟨_, entry, hentry, heq⟩ := h
  rw [slotEntries, hw] at hentry
  obtain ⟨hmem, _⟩ := List.mem_filter.mp hentry
  rw [← heq, ← Sequence.values_ofList ws]
  exact List.mem_map.mpr ⟨entry, hmem, rfl⟩

theorem TokenAt.not_isNode {token : Token} {c : ObjectId} (h : TokenAt t token (.object c)) : t.isNode c ≠ true := by
  intro hnode
  obtain ⟨id, _, hread⟩ := h.element
  simp [elementOf?, hnode] at hread

theorem TokenAt.not_metIn {token : Token} {w : Value} {c : ObjectId} (h : TokenAt t token w) : ¬ MetIn t w c := by
  intro hmet
  obtain rfl := hmet.eq h.single
  exact h.not_isNode hmet.1

theorem OptionalAt.not_metIn {token : Option Token} {w : Value} {c : ObjectId} (h : OptionalAt t token w) :
    ¬ MetIn t w c := by
  cases token with
  | some token => exact TokenAt.not_metIn h
  | none =>
    intro hmet
    obtain rfl : w = .null := h
    cases hmet.eq rfl

theorem Expr.IsAt.metIn {e : Expr Token} {w : Value} {c : ObjectId} (h : e.IsAt t w) (hmet : MetIn t w c) :
    e.IsAt t (.object c) := by
  obtain rfl | ⟨k, slots, hnode⟩ := h.null_or_node
  · cases hmet.eq rfl
  · rwa [← hmet.eq hnode.single]

end Calc

end LosslessSyntax
