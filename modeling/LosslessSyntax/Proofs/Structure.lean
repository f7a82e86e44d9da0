import LosslessSyntax.Proofs.Measures
import LosslessSyntax.Proofs.Nodes
import LosslessSyntax.Tree.Render

/-!
# Structures

What there is to an element apart from its place in a store: the kinds of its nodes, what stands in each of their slots,
and its tokens.

* `Tree` is such a structure. A slot holds nothing, a single element or a row of them, and the three are told apart.
* `Tree.IsAt` says that a value of a store is an element with a structure. It has one at most (`Tree.IsAt.unique`), and
  no more nodes of it are nested than the store has objects (`Tree.IsAt.depth_le`).
* `Tree.rendered` is the rendering of a structure. It is that of every element which has the structure
  (`Tree.IsAt.render`), wherever it stands: a rendering shows nothing but the structure.
-/

namespace LosslessSyntax

/-! ## Trees -/

mutual

/-- The structure of an element, with tokens of whatever type. -/
inductive Tree (α : Type) where
  | token (token : α)
  | node (variant : Variant) (slots : Slots α)

/-- The slots of a node in source order. -/
inductive Slots (α : Type) where
  | nil
  | empty (name : Text) (rest : Slots α)
  | single (name : Text) (tree : Tree α) (rest : Slots α)
  | row (name : Text) (trees : Trees α) (rest : Slots α)

/-- The elements of a row. -/
inductive Trees (α : Type) where
  | nil
  | cons (tree : Tree α) (rest : Trees α)

end

section

variable {α β : Type}

mutual

/-- The structure with other tokens in the same places. -/
def Tree.map (f : α → β) : Tree α → Tree β
  | .token a => .token (f a)
  | .node variant slots => .node variant (slots.map f)

def Slots.map (f : α → β) : Slots α → Slots β
  | .nil => .nil
  | .empty name rest => .empty name (rest.map f)
  | .single name tree rest => .single name (tree.map f) (rest.map f)
  | .row name trees rest => .row name (trees.map f) (rest.map f)

def Trees.map (f : α → β) : Trees α → Trees β
  | .nil => .nil
  | .cons tree rest => .cons (tree.map f) (rest.map f)

end

mutual

/-- The tokens in document order. -/
def Tree.tokens : Tree α → List α
  | .token a => [a]
  | .node _ slots => slots.tokens

def Slots.tokens : Slots α → List α
  | .nil => []
  | .empty _ rest => rest.tokens
  | .single _ tree rest => tree.tokens ++ rest.tokens
  | .row _ trees rest => trees.tokens ++ rest.tokens

def Trees.tokens : Trees α → List α
  | .nil => []
  | .cons tree rest => tree.tokens ++ rest.tokens

end

mutual

/-- How many nodes are nested at most. -/
def Tree.depth : Tree α → Nat
  | .token _ => 0
  | .node _ slots => slots.depth + 1

def Slots.depth : Slots α → Nat
  | .nil => 0
  | .empty _ rest => rest.depth
  | .single _ tree rest => max tree.depth rest.depth
  | .row _ trees rest => max trees.depth rest.depth

def Trees.depth : Trees α → Nat
  | .nil => 0
  | .cons tree rest => max tree.depth rest.depth

end

/-- How many elements a row has. -/
def Trees.length : Trees α → Nat
  | .nil => 0
  | .cons _ rest => rest.length + 1

mutual

/-- The variants of the nodes. -/
def Tree.variants : Tree α → List Variant
  | .token _ => []
  | .node variant slots => variant :: slots.variants

def Slots.variants : Slots α → List Variant
  | .nil => []
  | .empty _ rest => rest.variants
  | .single _ tree rest => tree.variants ++ rest.variants
  | .row _ trees rest => trees.variants ++ rest.variants

def Trees.variants : Trees α → List Variant
  | .nil => []
  | .cons tree rest => tree.variants ++ rest.variants

end

mutual

/-- The lengths of the rows. -/
def Tree.rowLengths : Tree α → List Nat
  | .token _ => []
  | .node _ slots => slots.rowLengths

def Slots.rowLengths : Slots α → List Nat
  | .nil => []
  | .empty _ rest => rest.rowLengths
  | .single _ tree rest => tree.rowLengths ++ rest.rowLengths
  | .row _ trees rest => trees.length :: (trees.rowLengths ++ rest.rowLengths)

def Trees.rowLengths : Trees α → List Nat
  | .nil => []
  | .cons tree rest => tree.rowLengths ++ rest.rowLengths

end

mutual

theorem Tree.tokens_map (f : α → β) : ∀ tree : Tree α, (tree.map f).tokens = tree.tokens.map f
  | .token _ => rfl
  | .node _ slots => slots.tokens_map f

theorem Slots.tokens_map (f : α → β) : ∀ slots : Slots α, (slots.map f).tokens = slots.tokens.map f
  | .nil => rfl
  | .empty _ rest => rest.tokens_map f
  | .single _ tree rest => by
    rw [Slots.map, Slots.tokens, Slots.tokens, tree.tokens_map f, rest.tokens_map f, List.map_append]
  | .row _ trees rest => by
    rw [Slots.map, Slots.tokens, Slots.tokens, trees.tokens_map f, rest.tokens_map f, List.map_append]

theorem Trees.tokens_map (f : α → β) : ∀ trees : Trees α, (trees.map f).tokens = trees.tokens.map f
  | .nil => rfl
  | .cons tree rest => by
    rw [Trees.map, Trees.tokens, Trees.tokens, tree.tokens_map f, rest.tokens_map f, List.map_append]

end

theorem Trees.length_map (f : α → β) : ∀ trees : Trees α, (trees.map f).length = trees.length
  | .nil => rfl
  | .cons _ rest => congrArg (· + 1) (rest.length_map f)

end

/-! ## Elements with a structure -/

namespace Store

variable {s : Store}

/-- A node uses a variant: the one that it was made with, or one that is found under that name. -/
def Uses (s : Store) (v : Value) (w : Variant) : Prop :=
  s.madeVariant? v = some w ∨
    s.madeVariant? v = none ∧ s.member "variant" v = .ok (.object w.self) ∧ s.object? w.self = some (.variant w)

/-- A list of values that is no element itself and can be mapped, as lists can that are as they were made. -/
structure IsRow (s : Store) (v : Value) (vs : List Value) : Prop where
  items : s.items? v = some (.ofList vs)
  notElement : s.isElement v = false
  mappable : ∃ id, v = .object id ∧ (s.lookup id "map").isOperation = true ∧ s.length id = .ok vs.length ∧
    s.checkRenewal id 0 = .ok ()

end Store

mutual

/-- A value is an element with the given structure. -/
def Tree.IsAt (s : Store) : Tree Token → Value → Prop
  | .token t, v => ∃ id, v = .object id ∧ s.isNode id = false ∧ s.token? id = some t
  | .node w slots, v => ∃ id contents, v = .object id ∧ s.isNode id = true ∧ s.Uses v w ∧
    s.contents v = .ok contents ∧ slots.AreAt s contents

/-- The contents of slots are as given, in the same order. -/
def Slots.AreAt (s : Store) : Slots Token → Members Value → Prop
  | .nil, contents => contents = []
  | .empty name rest, contents => ∃ others, contents = (name, .null) :: others ∧ rest.AreAt s others
  | .single name tree rest, contents => ∃ v others, contents = (name, v) :: others ∧ tree.IsAt s v ∧
    rest.AreAt s others
  | .row name trees rest, contents => ∃ v vs others, contents = (name, v) :: others ∧ s.IsRow v vs ∧
    trees.AreAt s vs ∧ rest.AreAt s others

/-- Values are elements with the given structures, one by one. -/
def Trees.AreAt (s : Store) : Trees Token → List Value → Prop
  | .nil, vs => vs = []
  | .cons tree rest, vs => ∃ v others, vs = v :: others ∧ tree.IsAt s v ∧ rest.AreAt s others

end

namespace Store

variable {s : Store}

/-! ## Reading tokens, variants and rows -/

/-- A member of its own is what an object shows, unless it stands for a link or a base. -/
theorem lookup_of_own {id : ObjectId} {o : Object} {name : Text} {v : Value} (ho : s.object? id = some o)
    (hown : o.own? name = some v) (hbase : name ≠ baseName) (hparent : name ≠ "parent") : s.lookup id name = v := by
  rw [lookup, seek, seekFrom_succ, ho, Option.bind_some, hown]
  simp only
  split
  · simp [groundMember, hbase, hparent]
  · rfl

/-- The four members of a token. -/
theorem lookup_token {id : ObjectId} {t : Token} (h : s.token? id = some t) :
    s.lookup id "kind" = t.kind ∧ s.lookup id "fullStart" = .number t.fullStart ∧
      s.lookup id "start" = .number t.start ∧ s.lookup id "length" = .number t.length := by
  rw [token?] at h
  split at h
  · cases h
  · rename_i ho
    cases h
    exact ⟨lookup_of_own ho rfl (by decide) (by decide), lookup_of_own ho rfl (by decide) (by decide),
      lookup_of_own ho rfl (by decide) (by decide), lookup_of_own ho rfl (by decide) (by decide)⟩
  · split at h
    · rw [tokenOfMembers?] at h
      split at h
      · rename_i hfullStart hstart hlength
        cases h
        exact ⟨rfl, hfullStart, hstart, hlength⟩
      · cases h
    · cases h

theorem Uses.kindName {v : Value} {w : Variant} (h : s.Uses v w) : s.kindName v = .ok (.text w.name) := by
  rcases h with hmade | ⟨hmade, hmember, hobject⟩
  · rw [Store.kindName, hmade]
  · rw [Store.kindName, hmade, hmember]
    exact congrArg Except.ok (lookup_of_own hobject rfl (by decide) (by decide))

theorem Uses.slotNames {v : Value} {w : Variant} (h : s.Uses v w) : s.slotNames v = .ok w.slotNames := by
  rcases h with hmade | ⟨hmade, hmember, hobject⟩
  · rw [Store.slotNames, hmade]
    rfl
  · obtain ⟨c, hcell, hc⟩ := Option.map_eq_some_iff.mp hobject
    rw [Store.slotNames, hmade, hmember]
    show s.slotNamesOf (.object w.self) = _
    simp only [slotNamesOf, hcell, hc, Attempt.pure_eq_ok]

theorem Uses.unique {v : Value} {w w' : Variant} (h : s.Uses v w) (h' : s.Uses v w') : w = w' := by
  rcases h with hmade | ⟨hmade, hmember, hobject⟩ <;> rcases h' with hmade' | ⟨hmade', hmember', hobject'⟩ <;>
    rw [hmade] at hmade'
  · exact Option.some.inj hmade'
  · cases hmade'
  · cases hmade'
  · rw [hmember] at hmember'
    have hself : w.self = w'.self := Value.object.inj (Except.ok.inj hmember')
    rw [hself, hobject'] at hobject
    cases hobject
    rfl

theorem IsRow.exists_object {v : Value} {vs : List Value} (h : s.IsRow v vs) : ∃ id, v = .object id := by
  obtain ⟨id, hv, _⟩ := h.mappable
  exact ⟨id, hv⟩

theorem IsRow.within {v : Value} {vs : List Value} (h : s.IsRow v vs) : v.Within s.size := by
  obtain ⟨id, rfl⟩ := h.exists_object
  have hitems := h.items
  rw [Grounded.items?_object] at hitems
  obtain ⟨o, ho, _⟩ := Option.bind_eq_some_iff.mp hitems
  exact lt_size_of_object? ho

theorem IsRow.unique {v : Value} {vs vs' : List Value} (h : s.IsRow v vs) (h' : s.IsRow v vs') : vs = vs' := by
  have hsame := Option.some.inj (h.items.symm.trans h'.items)
  rw [← Sequence.values_ofList vs, hsame, Sequence.values_ofList]

/-- A list without members of its own shows what all lists have. -/
theorem lookup_list (hs : s.Grounded) {id : ObjectId} {items : Sequence} {isSealed : Bool} {name : Text} {v : Value}
    (hobject : s.object? id = some (.list items [] isSealed)) (hbase : s.base? id = some Ground.list.id)
    (hown : (Object.list items [] isSealed).own? name = none) (hground : (Object.ground .list).own? name = some v) :
    s.lookup id name = v := by
  obtain ⟨n, hn⟩ := Nat.exists_eq_succ_of_ne_zero (Nat.ne_zero_of_lt (lt_size_of_object? hobject))
  have hseek : s.seek id name = some (Ground.list.id, v) := by
    rw [seek, seekFrom_succ, hobject, Option.bind_some, hown, hbase]
    show s.seekFrom name s.size Ground.list.id = _
    rw [hn, Nat.succ_eq_add_one, seekFrom_succ, hs.object .list, Option.bind_some, hground]
  rw [lookup, hseek]
  rfl

/-- A list without members of its own is neither a node nor a token. -/
theorem Grounded.isElement_list (hs : s.Grounded) {id : ObjectId} {items : Sequence} {isSealed : Bool}
    (hobject : s.object? id = some (.list items [] isSealed)) (hbase : s.base? id = some Ground.list.id) :
    s.isElement (.object id) = false := by
  have hground : ∀ n, s.seekFrom "tag" n Ground.list.id = none := by
    intro n
    have hlist : (Object.ground .list).own? "tag" = none := by decide
    have hrecord : (Object.ground .record).own? "tag" = none := by decide
    cases n with
    | zero => rfl
    | succ n =>
      rw [seekFrom_succ, hs.object .list, Option.bind_some, hlist, hs.base .list]
      show s.seekFrom "tag" n Ground.record.id = none
      cases n with
      | zero => rfl
      | succ n =>
        rw [seekFrom_succ, hs.object .record, Option.bind_some, hrecord, hs.base .record]
        rfl
  have htag : s.lookup id "tag" = .undefined := by
    have hown : (Object.list items [] isSealed).own? "tag" = none := rfl
    rw [lookup, seek, seekFrom_succ, hobject, Option.bind_some, hown, hbase]
    simp only [Option.bind_some, hground]
  have htoken : s.token? id = none := by
    rw [token?, hobject]
    simp only [htag]
    rfl
  have hrecord : s.isA .node Ground.record.id = false := hs.isA_ground .node .record
  have hlist : s.isA .node Ground.list.id = (Ground.node.id == Ground.record.id || s.isA .node Ground.record.id) :=
    hs.isA_ground .node .list
  rw [isElement, htoken, isNode, hs.isA_of_base hbase, hlist, hrecord]
  rfl

/-- A list as it is made can be mapped. -/
theorem Grounded.isRow_list (hs : s.Grounded) {id : ObjectId} {vs : List Value} {isSealed : Bool}
    (hobject : s.object? id = some (.list (.ofList vs) [] isSealed)) (hbase : s.base? id = some Ground.list.id) :
    s.IsRow (.object id) vs := by
  have hmap : s.lookup id "map" = .operation "map" := lookup_list hs hobject hbase rfl (by decide)
  have hconstructor : s.lookup id "constructor" = .operation "Array" := lookup_list hs hobject hbase rfl (by decide)
  refine ⟨?_, hs.isElement_list hobject hbase, id, rfl, by rw [hmap]; rfl, ?_, ?_⟩
  · rw [Grounded.items?_object, hobject, hbase]
    rfl
  · rw [length, lengthBy, hobject]
    rfl
  · rw [checkRenewal, hconstructor]
    simp [Sequence.lengthBound]

/-- Rows stay as they are where objects are kept. -/
theorem IsRow.keeps {t : Store} (hs : s.Grounded) (hk : s.Keeps t) {v : Value} {vs : List Value} (h : s.IsRow v vs) :
    t.IsRow v vs := by
  obtain ⟨id, rfl, hmap, hlength, hrenewal⟩ := h.mappable
  have hitems := h.items
  rw [Grounded.items?_object] at hitems
  obtain ⟨o, ho, hlist⟩ := Option.bind_eq_some_iff.mp hitems
  have hid := lt_size_of_object? ho
  have ho' : t.object? id = some o := (hk.object hid).trans ho
  refine ⟨(hs.items?_keeps hk (v := .object id) hid).trans h.items,
    (hs.isElement_keeps hk (v := .object id) hid).trans h.notElement, id, rfl, ?_, ?_, ?_⟩
  · rw [hs.lookup_keeps hk hid (by decide), hmap]
  · -- An object with items has a length of its own.
    cases hown : o.items? with
    | none => simp [hown] at hlist
    | some q =>
      rw [length, lengthBy, ho, Option.bind_some, hown] at hlength
      rw [length, lengthBy, ho', Option.bind_some, hown]
      exact hlength
  · rw [checkRenewal, Grounded.isList_keeps hk (v := .object id) hid, hs.lookup_keeps hk hid (by decide)]
    exact hrenewal

/-- A list that can be mapped at all is mapped up to the longest that lists are. -/
theorem checkRenewal_of_zero {id : ObjectId} (h : s.checkRenewal id 0 = .ok ()) (count : Nat) :
    s.checkRenewal id count = if count < Sequence.lengthBound then .ok () else .error .noLength := by
  unfold checkRenewal at h ⊢
  dsimp only at h ⊢
  generalize (s.isList (.object id) && _) = declared at h ⊢
  cases declared with
  | true => cases h
  | false => rfl

/-- A row is mapped as it stands, if it is no longer than lists are. -/
theorem IsRow.mapped {v : Value} {vs : List Value} (h : s.IsRow v vs) :
    s.mapped v = if vs.length < Sequence.lengthBound then .ok (.ofList vs) else .error .noLength := by
  obtain ⟨id, rfl, hmap, hlength, hrenewal⟩ := h.mappable
  have hlist : s.listFor "map" (.object id) = .ok id := by rw [listFor, if_pos hmap]
  have helements : s.elements id = .ok (.ofList vs) := by
    rw [elements, elementsBy, h.items]
  rw [Store.mapped, hlist]
  show (s.length id >>= fun count => s.checkRenewal id count >>= fun _ => s.elements id) = _
  rw [hlength]
  show (s.checkRenewal id vs.length >>= fun _ => s.elements id) = _
  rw [checkRenewal_of_zero hrenewal, helements]
  split <;> rfl

end Store

/-! ## Stores that grow -/

section

variable {s t : Store}

theorem Store.Uses.keeps (hs : s.Grounded) (hk : s.Keeps t) {id : ObjectId} (hid : id < s.size) {w : Variant}
    (h : s.Uses (.object id) w) : t.Uses (.object id) w := by
  have hmade : t.madeVariant? (.object id) = s.madeVariant? (.object id) := by
    simp only [Store.madeVariant?, Value.object?, Option.bind_some, Store.node?, hk.object hid]
  rcases h with h | ⟨hnone, hmember, hobject⟩
  · exact .inl (hmade.trans h)
  · refine .inr ⟨hmade.trans hnone, ?_, (hk.object (Store.lt_size_of_object? hobject)).trans hobject⟩
    rw [← hmember]
    exact congrArg Except.ok (hs.lookup_keeps hk hid (by decide))

theorem Store.Uses.contents_keeps (hs : s.Grounded) (hc : s.Closed) (hk : s.Keeps t) {id : ObjectId}
    (hid : id < s.size) {w : Variant} (h : s.Uses (.object id) w) (hslots : ("parent" : Text) ∉ w.slotNames) :
    t.contents (.object id) = s.contents (.object id) := by
  have hchildren : t.lookup id "children" = s.lookup id "children" := hs.lookup_keeps hk hid (by decide)
  have hslot : ∀ slot ∈ w.slotNames, t.slotContent (.object id) slot = s.slotContent (.object id) slot := by
    intro slot hslot
    have hne : slot ≠ "parent" := fun heq => hslots (heq ▸ hslot)
    show (t.member slot (t.lookup id "children") >>= _) = s.member slot (s.lookup id "children") >>= _
    rw [hchildren]
    have hwithin : (s.lookup id "children").Within s.size := hc.lookup hs id (by decide)
    cases hrecord : s.lookup id "children" with
    | object record =>
      rw [hrecord] at hwithin
      rw [Store.member, Store.member, hs.lookup_keeps hk hwithin hne]
    | _ => rfl
  rw [Store.contents, Store.contents, (h.keeps hs hk hid).slotNames, h.slotNames]
  exact Attempt.mapM_congr fun slot hmem => by rw [hslot slot hmem]

mutual

/-- An element keeps its structure where objects are kept, if no slot is named like the parent of a node. -/
theorem Tree.IsAt.keeps (hs : s.Grounded) (hc : s.Closed) (hk : s.Keeps t) : ∀ {tree : Tree Token} {v : Value},
    tree.IsAt s v → (∀ w ∈ tree.variants, ("parent" : Text) ∉ w.slotNames) → tree.IsAt t v
  | .token _, _, ⟨id, hv, hnode, htoken⟩, _ => by
    have hid := Store.lt_size_of_token? htoken
    exact ⟨id, hv, (hs.isNode_keeps hk hid).trans hnode, (hs.token?_keeps hk hid).trans htoken⟩
  | .node w slots, _, ⟨id, contents, hv, hnode, huses, hcontents, hslots⟩, hparent => by
    subst hv
    have hid := Store.lt_size_of_isNode hnode
    have hw := List.forall_mem_cons.mp hparent
    exact ⟨id, contents, rfl, (hs.isNode_keeps hk hid).trans hnode, huses.keeps hs hk hid,
      (huses.contents_keeps hs hc hk hid hw.1).trans hcontents, hslots.keeps hs hc hk hw.2⟩

theorem Slots.AreAt.keeps (hs : s.Grounded) (hc : s.Closed) (hk : s.Keeps t) : ∀ {slots : Slots Token}
    {contents : Members Value}, slots.AreAt s contents → (∀ w ∈ slots.variants, ("parent" : Text) ∉ w.slotNames) →
    slots.AreAt t contents
  | .nil, _, h, _ => h
  | .empty _ _, _, ⟨others, hcontents, hrest⟩, hparent => ⟨others, hcontents, hrest.keeps hs hc hk hparent⟩
  | .single _ _ _, _, ⟨v, others, hcontents, htree, hrest⟩, hparent =>
    have hparent := List.forall_mem_append.mp hparent
    ⟨v, others, hcontents, htree.keeps hs hc hk hparent.1, hrest.keeps hs hc hk hparent.2⟩
  | .row _ _ _, _, ⟨v, vs, others, hcontents, hrow, htrees, hrest⟩, hparent =>
    have hparent := List.forall_mem_append.mp hparent
    ⟨v, vs, others, hcontents, hrow.keeps hs hk, htrees.keeps hs hc hk hparent.1, hrest.keeps hs hc hk hparent.2⟩

theorem Trees.AreAt.keeps (hs : s.Grounded) (hc : s.Closed) (hk : s.Keeps t) : ∀ {trees : Trees Token}
    {vs : List Value}, trees.AreAt s vs → (∀ w ∈ trees.variants, ("parent" : Text) ∉ w.slotNames) → trees.AreAt t vs
  | .nil, _, h, _ => h
  | .cons _ _, _, ⟨v, others, hvs, htree, hrest⟩, hparent =>
    have hparent := List.forall_mem_append.mp hparent
    ⟨v, others, hvs, htree.keeps hs hc hk hparent.1, hrest.keeps hs hc hk hparent.2⟩

end

end

/-! ## One structure at most -/

theorem Tree.IsAt.exists_object {s : Store} {tree : Tree Token} {v : Value} (h : tree.IsAt s v) :
    ∃ id, v = .object id := by
  cases tree with
  | token t =>
    obtain ⟨id, rfl, _⟩ := h
    exact ⟨id, rfl⟩
  | node w slots =>
    obtain ⟨id, _, rfl, _⟩ := h
    exact ⟨id, rfl⟩

theorem Tree.IsAt.isElement {s : Store} {tree : Tree Token} {v : Value} (h : tree.IsAt s v) :
    s.isElement v = true := by
  cases tree with
  | token t =>
    obtain ⟨id, rfl, _, htoken⟩ := h
    simp [Store.isElement, htoken]
  | node w slots =>
    obtain ⟨id, _, rfl, hnode, _⟩ := h
    simp [Store.isElement, hnode]

mutual

theorem Tree.IsAt.unique {s : Store} : ∀ {tree tree' : Tree Token} {v : Value}, tree.IsAt s v → tree'.IsAt s v →
    tree = tree'
  | .token _, .token _, _, ⟨_, rfl, _, htoken⟩, ⟨_, heq, _, htoken'⟩ => by
    cases heq
    rw [htoken] at htoken'
    cases htoken'
    rfl
  | .token _, .node _ _, _, ⟨_, rfl, hnode, _⟩, ⟨_, _, heq, hnode', _⟩ => by
    cases heq
    rw [hnode] at hnode'
    cases hnode'
  | .node _ _, .token _, _, ⟨_, _, rfl, hnode, _⟩, ⟨_, heq, hnode', _⟩ => by
    cases heq
    rw [hnode] at hnode'
    cases hnode'
  | .node _ _, .node _ _, _, ⟨_, _, _, _, huses, hcontents, hslots⟩, ⟨_, _, _, _, huses', hcontents', hslots'⟩ => by
    rw [hcontents] at hcontents'
    cases hcontents'
    rw [huses.unique huses', hslots.unique hslots']

theorem Slots.AreAt.unique {s : Store} : ∀ {slots slots' : Slots Token} {contents : Members Value},
    slots.AreAt s contents → slots'.AreAt s contents → slots = slots'
  | .nil, slots', contents, h, h' => by
    subst h
    cases slots' with
    | nil => rfl
    | empty name rest => obtain ⟨_, heq, _⟩ := h'; cases heq
    | single name tree rest => obtain ⟨_, _, heq, _⟩ := h'; cases heq
    | row name trees rest => obtain ⟨_, _, _, heq, _⟩ := h'; cases heq
  | .empty name rest, slots', contents, ⟨others, hcontents, hrest⟩, h' => by
    subst hcontents
    cases slots' with
    | nil => cases h'
    | empty name' rest' =>
      obtain ⟨_, heq, hrest'⟩ := h'
      cases heq
      rw [hrest.unique hrest']
    | single name' tree' rest' =>
      obtain ⟨_, _, heq, htree', _⟩ := h'
      cases heq
      obtain ⟨_, heq⟩ := htree'.exists_object
      cases heq
    | row name' trees' rest' =>
      obtain ⟨_, _, _, heq, hrow', _⟩ := h'
      cases heq
      obtain ⟨_, heq⟩ := hrow'.exists_object
      cases heq
  | .single name tree rest, slots', contents, ⟨v, others, hcontents, htree, hrest⟩, h' => by
    subst hcontents
    cases slots' with
    | nil => cases h'
    | empty name' rest' =>
      obtain ⟨_, heq, _⟩ := h'
      cases heq
      obtain ⟨_, heq⟩ := htree.exists_object
      cases heq
    | single name' tree' rest' =>
      obtain ⟨_, _, heq, htree', hrest'⟩ := h'
      cases heq
      rw [htree.unique htree', hrest.unique hrest']
    | row name' trees' rest' =>
      obtain ⟨_, _, _, heq, hrow', _⟩ := h'
      cases heq
      cases htree.isElement.symm.trans hrow'.notElement
  | .row name trees rest, slots', contents, ⟨v, vs, others, hcontents, hrow, htrees, hrest⟩, h' => by
    subst hcontents
    cases slots' with
    | nil => cases h'
    | empty name' rest' =>
      obtain ⟨_, heq, _⟩ := h'
      cases heq
      obtain ⟨_, heq⟩ := hrow.exists_object
      cases heq
    | single name' tree' rest' =>
      obtain ⟨_, _, heq, htree', _⟩ := h'
      cases heq
      cases htree'.isElement.symm.trans hrow.notElement
    | row name' trees' rest' =>
      obtain ⟨_, _, _, heq, hrow', htrees', hrest'⟩ := h'
      cases heq
      obtain rfl := hrow.unique hrow'
      rw [htrees.unique htrees', hrest.unique hrest']

theorem Trees.AreAt.unique {s : Store} : ∀ {trees trees' : Trees Token} {vs : List Value}, trees.AreAt s vs →
    trees'.AreAt s vs → trees = trees'
  | .nil, .nil, _, _, _ => rfl
  | .nil, .cons _ _, _, h, ⟨_, _, heq, _⟩ => by
    subst h
    cases heq
  | .cons _ _, .nil, _, ⟨_, _, heq, _⟩, h' => by
    subst heq
    cases h'
  | .cons _ _, .cons _ _, _, ⟨_, _, heq, htree, hrest⟩, ⟨_, _, heq', htree', hrest'⟩ => by
    subst heq
    cases heq'
    rw [htree.unique htree', hrest.unique hrest']

end

/-! ## Depth -/

mutual

/-- On the way down to the innermost node there are nodes of every smaller depth. -/
theorem Tree.IsAt.exists_depth {s : Store} {d : Nat} : ∀ {tree : Tree Token} {v : Value}, tree.IsAt s v →
    d < tree.depth →
      ∃ (id : ObjectId) (inner : Tree Token), id < s.size ∧ inner.IsAt s (.object id) ∧ inner.depth = d + 1
  | .token _, _, _, hd => absurd hd (Nat.not_lt_zero d)
  | .node w slots, _, ⟨id, contents, rfl, hnode, huses, hcontents, hslots⟩, hd => by
    rcases Nat.lt_or_eq_of_le (Nat.le_of_lt_succ hd) with hlt | rfl
    · exact hslots.exists_depth hlt
    · have hat : (Tree.node w slots).IsAt s (.object id) := ⟨id, contents, rfl, hnode, huses, hcontents, hslots⟩
      exact ⟨id, .node w slots, Store.lt_size_of_isNode hnode, hat, rfl⟩

theorem Slots.AreAt.exists_depth {s : Store} {d : Nat} : ∀ {slots : Slots Token} {contents : Members Value},
    slots.AreAt s contents → d < slots.depth →
      ∃ (id : ObjectId) (inner : Tree Token), id < s.size ∧ inner.IsAt s (.object id) ∧ inner.depth = d + 1
  | .nil, _, _, hd => absurd hd (Nat.not_lt_zero d)
  | .empty _ _, _, ⟨_, _, hrest⟩, hd => hrest.exists_depth hd
  | .single _ _ _, _, ⟨_, _, _, htree, hrest⟩, hd =>
    (lt_max_iff.mp hd).elim (fun hd => htree.exists_depth hd) fun hd => hrest.exists_depth hd
  | .row _ _ _, _, ⟨_, _, _, _, _, htrees, hrest⟩, hd =>
    (lt_max_iff.mp hd).elim (fun hd => htrees.exists_depth hd) fun hd => hrest.exists_depth hd

theorem Trees.AreAt.exists_depth {s : Store} {d : Nat} : ∀ {trees : Trees Token} {vs : List Value},
    trees.AreAt s vs → d < trees.depth →
      ∃ (id : ObjectId) (inner : Tree Token), id < s.size ∧ inner.IsAt s (.object id) ∧ inner.depth = d + 1
  | .nil, _, _, hd => absurd hd (Nat.not_lt_zero d)
  | .cons _ _, _, ⟨_, _, _, htree, hrest⟩, hd =>
    (lt_max_iff.mp hd).elim (fun hd => htree.exists_depth hd) fun hd => hrest.exists_depth hd

end

/-- Nodes with structures of different depths are different, so there are no more depths than objects. -/
theorem Tree.IsAt.depth_le {s : Store} {tree : Tree Token} {v : Value} (h : tree.IsAt s v) : tree.depth ≤ s.size := by
  choose id inner hlt hat hdepth using fun d : Fin tree.depth => h.exists_depth d.isLt
  refine Fin.le_of_injective (fun d => ⟨id d, hlt d⟩) fun d d' heq => ?_
  have hid : id d = id d' := congrArg Fin.val heq
  have hinner : inner d = inner d' := (hat d).unique (hid ▸ hat d')
  exact Fin.ext (by have := hdepth d; have := hdepth d'; rw [hinner] at *; omega)

/-! ## Renderings -/

/-- The name of a token kind as it is rendered; it is missing for a kind that is not registered. -/
def Grammar.kindLabel (g : Grammar) (kind : Value) : Value := (g.tokenKinds.nameOfValue? kind).getD .undefined

/-- The rendering of a token. -/
def Token.rendered (g : Grammar) (t : Token) : TokenFormat → Data
  | .full => .record [("kind", .leaf (g.kindLabel t.kind)), ("fullStart", .leaf (.number t.fullStart)),
    ("start", .leaf (.number t.start)), ("length", .leaf (.number t.length))]
  | .compact => .record [("kind", .leaf (g.kindLabel t.kind)), ("textLength", .leaf (.number t.width))]

mutual

/-- The rendering of a structure. A row that is longer than lists are has none. -/
def Tree.rendered (g : Grammar) (format : TokenFormat) : Tree Token → Attempt Data
  | .token t => .ok (t.rendered g format)
  | .node w slots => do
    return .record [(w.name, .record ((← slots.rendered g format).filter (·.1 ≠ baseName)))]

def Slots.rendered (g : Grammar) (format : TokenFormat) : Slots Token → Attempt (List (Text × Data))
  | .nil => .ok []
  | .empty name rest => do return (name, .leaf .null) :: (← rest.rendered g format)
  | .single name tree rest => do return (name, ← tree.rendered g format) :: (← rest.rendered g format)
  | .row name trees rest => do
    if trees.length < Sequence.lengthBound then
      return (name, .list (← trees.rendered g format)) :: (← rest.rendered g format)
    else throw (.misuse .noLength)

def Trees.rendered (g : Grammar) (format : TokenFormat) : Trees Token → Attempt (List Data)
  | .nil => .ok []
  | .cons tree rest => do return (← tree.rendered g format) :: (← rest.rendered g format)

end

/-- A token as data, with its kind as it is. -/
def Token.shown (t : Token) : TokenFormat → Data
  | .full => .record [("kind", .leaf t.kind), ("fullStart", .leaf (.number t.fullStart)),
    ("start", .leaf (.number t.start)), ("length", .leaf (.number t.length))]
  | .compact => .record [("kind", .leaf t.kind), ("textLength", .leaf (.number t.width))]

theorem Token.shown_kindLabel (g : Grammar) (t : Token) (format : TokenFormat) :
    ({ t with kind := g.kindLabel t.kind } : Token).shown format = t.rendered g format := by
  cases format <;> rfl

mutual

/-- The rendering of a structure, given what tokens are labelled with. -/
def Tree.renderedBy (label : Token → Attempt Token) (format : TokenFormat) : Tree Token → Attempt Data
  | .token t => do return (← label t).shown format
  | .node w slots => do
    return .record [(w.name, .record ((← slots.renderedBy label format).filter (·.1 ≠ baseName)))]

def Slots.renderedBy (label : Token → Attempt Token) (format : TokenFormat) : Slots Token → Attempt (List (Text × Data))
  | .nil => .ok []
  | .empty name rest => do return (name, .leaf .null) :: (← rest.renderedBy label format)
  | .single name tree rest => do return (name, ← tree.renderedBy label format) :: (← rest.renderedBy label format)
  | .row name trees rest => do
    if trees.length < Sequence.lengthBound then
      return (name, .list (← trees.renderedBy label format)) :: (← rest.renderedBy label format)
    else throw (.misuse .noLength)

def Trees.renderedBy (label : Token → Attempt Token) (format : TokenFormat) : Trees Token → Attempt (List Data)
  | .nil => .ok []
  | .cons tree rest => do return (← tree.renderedBy label format) :: (← rest.renderedBy label format)

end

section

variable {g : Grammar} {format : TokenFormat} {label : Token → Attempt Token}

mutual

theorem Tree.renderedBy_eq : ∀ {tree : Tree Token},
    (∀ t ∈ tree.tokens, label t = .ok { t with kind := g.kindLabel t.kind }) →
    tree.renderedBy label format = tree.rendered g format
  | .token t, h => by
    rw [Tree.renderedBy, Tree.rendered, h t List.mem_cons_self, ← Token.shown_kindLabel]
    rfl
  | .node w slots, h => by
    have hslots : slots.renderedBy label format = slots.rendered g format := Slots.renderedBy_eq h
    rw [Tree.renderedBy, Tree.rendered, hslots]

theorem Slots.renderedBy_eq : ∀ {slots : Slots Token},
    (∀ t ∈ slots.tokens, label t = .ok { t with kind := g.kindLabel t.kind }) →
    slots.renderedBy label format = slots.rendered g format
  | .nil, _ => rfl
  | .empty name rest, h => by
    have hrest : rest.renderedBy label format = rest.rendered g format := Slots.renderedBy_eq h
    rw [Slots.renderedBy, Slots.rendered, hrest]
  | .single name tree rest, h => by
    have h := List.forall_mem_append.mp h
    rw [Slots.renderedBy, Slots.rendered, Tree.renderedBy_eq h.1, Slots.renderedBy_eq h.2]
  | .row name trees rest, h => by
    have h := List.forall_mem_append.mp h
    rw [Slots.renderedBy, Slots.rendered, Trees.renderedBy_eq h.1, Slots.renderedBy_eq h.2]

theorem Trees.renderedBy_eq : ∀ {trees : Trees Token},
    (∀ t ∈ trees.tokens, label t = .ok { t with kind := g.kindLabel t.kind }) →
    trees.renderedBy label format = trees.rendered g format
  | .nil, _ => rfl
  | .cons tree rest, h => by
    have h := List.forall_mem_append.mp h
    rw [Trees.renderedBy, Trees.rendered, Tree.renderedBy_eq h.1, Trees.renderedBy_eq h.2]

end

end

section

variable {α : Type} {g : Grammar} {format : TokenFormat} {f f' : α → Token}

mutual

/-- A rendering shows nothing of a token but the rendering of that token. -/
theorem Tree.rendered_congr : ∀ {tree : Tree α},
    (∀ a ∈ tree.tokens, (f a).rendered g format = (f' a).rendered g format) →
    (tree.map f).rendered g format = (tree.map f').rendered g format
  | .token a, h => congrArg Except.ok (h a List.mem_cons_self)
  | .node w slots, h => by
    have hslots : (slots.map f).rendered g format = (slots.map f').rendered g format := Slots.rendered_congr h
    rw [Tree.map, Tree.map, Tree.rendered, Tree.rendered, hslots]

theorem Slots.rendered_congr : ∀ {slots : Slots α},
    (∀ a ∈ slots.tokens, (f a).rendered g format = (f' a).rendered g format) →
    (slots.map f).rendered g format = (slots.map f').rendered g format
  | .nil, _ => rfl
  | .empty name rest, h => by
    have hrest : (rest.map f).rendered g format = (rest.map f').rendered g format := Slots.rendered_congr h
    rw [Slots.map, Slots.map, Slots.rendered, Slots.rendered, hrest]
  | .single name tree rest, h => by
    have h := List.forall_mem_append.mp h
    rw [Slots.map, Slots.map, Slots.rendered, Slots.rendered, Tree.rendered_congr h.1, Slots.rendered_congr h.2]
  | .row name trees rest, h => by
    have h := List.forall_mem_append.mp h
    rw [Slots.map, Slots.map, Slots.rendered, Slots.rendered, Trees.length_map, Trees.length_map,
      Trees.rendered_congr h.1, Slots.rendered_congr h.2]

theorem Trees.rendered_congr : ∀ {trees : Trees α},
    (∀ a ∈ trees.tokens, (f a).rendered g format = (f' a).rendered g format) →
    (trees.map f).rendered g format = (trees.map f').rendered g format
  | .nil, _ => rfl
  | .cons tree rest, h => by
    have h := List.forall_mem_append.mp h
    rw [Trees.map, Trees.map, Trees.rendered, Trees.rendered, Tree.rendered_congr h.1, Trees.rendered_congr h.2]

end

variable {label : Token → Attempt Token}

mutual

/-- Only a token without a label and a row that is too long keep a structure from being rendered. -/
theorem Tree.exists_renderedBy : ∀ {tree : Tree Token}, (∀ t ∈ tree.tokens, ∃ t', label t = .ok t') →
    (∀ n ∈ tree.rowLengths, n < Sequence.lengthBound) → ∃ data, tree.renderedBy label format = .ok data
  | .token t, ht, _ => by
    obtain ⟨t', ht'⟩ := ht t List.mem_cons_self
    rw [Tree.renderedBy, ht']
    exact ⟨_, rfl⟩
  | .node w slots, ht, h => by
    obtain ⟨fields, hfields⟩ : ∃ fields, slots.renderedBy label format = .ok fields := Slots.exists_renderedBy ht h
    rw [Tree.renderedBy, hfields]
    exact ⟨_, rfl⟩

theorem Slots.exists_renderedBy : ∀ {slots : Slots Token}, (∀ t ∈ slots.tokens, ∃ t', label t = .ok t') →
    (∀ n ∈ slots.rowLengths, n < Sequence.lengthBound) → ∃ fields, slots.renderedBy label format = .ok fields
  | .nil, _, _ => ⟨_, rfl⟩
  | .empty name rest, ht, h => by
    obtain ⟨fields, hfields⟩ : ∃ fields, rest.renderedBy label format = .ok fields := Slots.exists_renderedBy ht h
    rw [Slots.renderedBy, hfields]
    exact ⟨_, rfl⟩
  | .single name tree rest, ht, h => by
    have ht := List.forall_mem_append.mp ht
    have h := List.forall_mem_append.mp h
    obtain ⟨data, hdata⟩ := Tree.exists_renderedBy ht.1 h.1
    obtain ⟨fields, hfields⟩ := Slots.exists_renderedBy ht.2 h.2
    rw [Slots.renderedBy, hdata, hfields]
    exact ⟨_, rfl⟩
  | .row name trees rest, ht, h => by
    have ht := List.forall_mem_append.mp ht
    have hlength := List.forall_mem_cons.mp h
    have h := List.forall_mem_append.mp hlength.2
    obtain ⟨items, hitems⟩ := Trees.exists_renderedBy ht.1 h.1
    obtain ⟨fields, hfields⟩ := Slots.exists_renderedBy ht.2 h.2
    rw [Slots.renderedBy, if_pos hlength.1, hitems, hfields]
    exact ⟨_, rfl⟩

theorem Trees.exists_renderedBy : ∀ {trees : Trees Token}, (∀ t ∈ trees.tokens, ∃ t', label t = .ok t') →
    (∀ n ∈ trees.rowLengths, n < Sequence.lengthBound) → ∃ items, trees.renderedBy label format = .ok items
  | .nil, _, _ => ⟨_, rfl⟩
  | .cons tree rest, ht, h => by
    have ht := List.forall_mem_append.mp ht
    have h := List.forall_mem_append.mp h
    obtain ⟨data, hdata⟩ := Tree.exists_renderedBy ht.1 h.1
    obtain ⟨items, hitems⟩ := Trees.exists_renderedBy ht.2 h.2
    rw [Trees.renderedBy, hdata, hitems]
    exact ⟨_, rfl⟩

end

theorem Tree.exists_rendered {tree : Tree Token} (h : ∀ n ∈ tree.rowLengths, n < Sequence.lengthBound) :
    ∃ data, tree.rendered g format = .ok data := by
  rw [← Tree.renderedBy_eq fun _ _ => rfl]
  exact Tree.exists_renderedBy (fun t _ => ⟨_, rfl⟩) h

end

namespace Store

variable {s : Store}

/-- A store has a grammar with the names of its token kinds. -/
structure HasGrammar (s : Store) (g : Grammar) : Prop where
  grammar : s.object? g.self = some (.grammar g)
  tokenKinds : s.object? (g.self + 1) = some (.registry g.tokenKinds)

theorem HasGrammar.keeps {t : Store} {g : Grammar} (h : s.HasGrammar g) (hk : s.Keeps t) : t.HasGrammar g :=
  ⟨(hk.object (lt_size_of_object? h.grammar)).trans h.grammar,
    (hk.object (lt_size_of_object? h.tokenKinds)).trans h.tokenKinds⟩

theorem HasGrammar.registryFor {g : Grammar} (h : s.HasGrammar g) :
    (do s.registryFor (← s.member "tokenKinds" (.object g.self)) "nameOf") = .ok g.tokenKinds := by
  have hkinds : s.lookup g.self "tokenKinds" = .object (g.self + 1) :=
    lookup_of_own h.grammar rfl (by decide) (by decide)
  have hholder : s.operationHolder? (.object (g.self + 1)) "nameOf" = some (.registry g.tokenKinds) := by
    have hown : (Object.registry g.tokenKinds).own? "nameOf" = some (.operation "nameOf") := rfl
    simp only [operationHolder?, seek, seekFrom_succ, h.tokenKinds, Option.bind_some, hown]
  simp only [member]
  show s.registryFor (s.lookup g.self "tokenKinds") "nameOf" = _
  rw [hkinds, Store.registryFor, hholder]
  rfl

/-- A token with the name of its kind in place of the kind. -/
def labelled (s : Store) (grammar : Value) (t : Token) : Attempt Token :=
  (fun label => { t with kind := label }) <$> Attempt.ofMisuse (s.tokenKindName grammar t.kind)

/-- A token is rendered with the name of its kind and its own offsets. -/
theorem renderToken_eq {id : ObjectId} {t : Token} (htoken : s.token? id = some t) (grammar : Value)
    (format : TokenFormat) :
    Attempt.ofMisuse (s.renderToken grammar format (.object id)) = do
      return (← s.labelled grammar t).shown format := by
  obtain ⟨hk, hf, hs, hl⟩ := lookup_token htoken
  have hfields : TokenFields.ofValue s (.object id) = .ok (.ofToken t) := by
    simp only [TokenFields.ofValue, member, hf, hs, hl]
    rfl
  rw [Store.renderToken, labelled]
  simp only [member, hk]
  show Attempt.ofMisuse (s.tokenKindName grammar t.kind >>= _) = _
  cases s.tokenKindName grammar t.kind with
  | error m => rfl
  | ok label =>
    rw [hfields]
    cases format <;> rfl

/-- A kind is shown by its name if it is registered, and by its text if it is not. -/
theorem HasGrammar.tokenKindName {g : Grammar} (h : s.HasGrammar g) (kind : Value) :
    s.tokenKindName (.object g.self) kind =
      if (g.kindLabel kind).isMissing then Value.text <$> s.text kind else .ok (g.kindLabel kind) := by
  rw [Store.tokenKindName, ← bind_assoc, h.registryFor]
  unfold Grammar.kindLabel
  simp only [bind, Except.bind]
  cases g.tokenKinds.nameOfValue? kind with
  | none => rfl
  | some name => cases name <;> rfl

theorem HasGrammar.labelled {g : Grammar} (h : s.HasGrammar g) {t : Token}
    (hkind : (g.kindLabel t.kind).isMissing = false) :
    s.labelled (.object g.self) t = .ok { t with kind := g.kindLabel t.kind } := by
  rw [Store.labelled, h.tokenKindName, if_neg (by rw [hkind]; exact Bool.false_ne_true)]
  rfl

theorem HasGrammar.exists_labelled {g : Grammar} (h : s.HasGrammar g) {t : Token} {text : Text}
    (htext : s.text t.kind = .ok text) : ∃ t', s.labelled (.object g.self) t = .ok t' := by
  rw [Store.labelled, h.tokenKindName, htext]
  split <;> exact ⟨_, rfl⟩

/-- A node is rendered slot by slot. -/
theorem renderAt_node {grammar : Value} {format : TokenFormat} {n : Nat} {id : ObjectId} {w : Variant}
    {contents : Members Value} (hnode : s.isNode id = true) (huses : s.Uses (.object id) w)
    (hcontents : s.contents (.object id) = .ok contents) :
    s.renderAt grammar format (n + 1) (.object id) = do
      let slots ← contents.mapM fun slot => (slot.1, ·) <$> s.renderSlot (s.renderAt grammar format n) slot.2
      return .record [(w.name, .record (slots.filter (·.1 ≠ baseName)))] := by
  rw [renderAt]
  simp only [hnode, if_true, hcontents, Attempt.ok_bind, huses.kindName]
  rfl

theorem renderSlot_element {element : Value → Attempt Data} {v : Value} (h : s.isElement v = true) :
    s.renderSlot element v = element v := by
  cases v with
  | object id => simp only [renderSlot, h, Value.isMissing, Bool.false_eq_true, if_false, if_true]
  | _ => cases h

theorem renderSlot_row {element : Value → Attempt Data} {v : Value} {vs : List Value} (hrow : s.IsRow v vs) :
    s.renderSlot element v =
      if vs.length < Sequence.lengthBound then .list <$> vs.mapM element else .error (.misuse .noLength) := by
  obtain ⟨id, rfl⟩ := hrow.exists_object
  simp only [renderSlot, hrow.notElement, hrow.mapped, Value.isMissing, Bool.false_eq_true, if_false]
  split
  · rw [Attempt.ofMisuse, pure_bind, Sequence.toList_ofList, List.mapM_map, map_eq_pure_bind]
    rfl
  · rfl

end Store

theorem Trees.AreAt.length_eq {s : Store} : ∀ {trees : Trees Token} {vs : List Value}, trees.AreAt s vs →
    vs.length = trees.length
  | .nil, _, h => by
    subst h
    rfl
  | .cons _ _, _, ⟨_, _, hvs, _, hrest⟩ => by
    subst hvs
    exact congrArg (· + 1) hrest.length_eq

section

variable {s : Store} {grammar : Value} {format : TokenFormat}

mutual

/-- An element is rendered as its structure is, once the rendering goes as deep. -/
theorem Tree.IsAt.renderAt : ∀ {tree : Tree Token} {v : Value} {n : Nat}, tree.IsAt s v → tree.depth ≤ n →
    s.renderAt grammar format (n + 1) v = tree.renderedBy (s.labelled grammar) format
  | .token t, _, n, ⟨id, rfl, hnode, htoken⟩, _ => by
    rw [Store.renderAt, Tree.renderedBy, ← Store.renderToken_eq htoken]
    simp only [hnode, Bool.false_eq_true, if_false]
  | .node w slots, _, n, ⟨id, contents, rfl, hnode, huses, hcontents, hslots⟩, hn => by
    obtain ⟨m, rfl⟩ : ∃ m, n = m + 1 := ⟨n - 1, by rw [Tree.depth] at hn; omega⟩
    rw [Store.renderAt_node hnode huses hcontents, Tree.renderedBy, hslots.renderAt (Nat.le_of_succ_le_succ hn)]

theorem Slots.AreAt.renderAt : ∀ {slots : Slots Token} {contents : Members Value} {n : Nat},
    slots.AreAt s contents → slots.depth ≤ n →
    (contents.mapM fun slot => (slot.1, ·) <$> s.renderSlot (s.renderAt grammar format (n + 1)) slot.2) =
      slots.renderedBy (s.labelled grammar) format
  | .nil, _, n, h, _ => by
    subst h
    rfl
  | .empty name rest, _, n, ⟨others, hcontents, hrest⟩, hn => by
    subst hcontents
    rw [List.mapM_cons, hrest.renderAt hn]
    rfl
  | .single name tree rest, _, n, ⟨v, others, hcontents, htree, hrest⟩, hn => by
    subst hcontents
    have hn := Nat.max_le.mp hn
    rw [List.mapM_cons, hrest.renderAt hn.2, Slots.renderedBy, Store.renderSlot_element htree.isElement,
      htree.renderAt hn.1, bind_map_left]
  | .row name trees rest, _, n, ⟨v, vs, others, hcontents, hrow, htrees, hrest⟩, hn => by
    subst hcontents
    have hn := Nat.max_le.mp hn
    rw [List.mapM_cons, hrest.renderAt hn.2, Slots.renderedBy, Store.renderSlot_row hrow, htrees.length_eq,
      htrees.renderAt hn.1]
    split
    · rw [bind_map_left, bind_map_left]
    · rfl

theorem Trees.AreAt.renderAt : ∀ {trees : Trees Token} {vs : List Value} {n : Nat}, trees.AreAt s vs →
    trees.depth ≤ n → vs.mapM (s.renderAt grammar format (n + 1)) = trees.renderedBy (s.labelled grammar) format
  | .nil, _, n, h, _ => by
    subst h
    rfl
  | .cons tree rest, _, n, ⟨v, others, hvs, htree, hrest⟩, hn => by
    subst hvs
    have hn := Nat.max_le.mp hn
    rw [List.mapM_cons, htree.renderAt hn.1, hrest.renderAt hn.2, Trees.renderedBy]

end

end

/-- An element whose token kinds have names is rendered as its structure is. -/
theorem Tree.IsAt.render {s : Store} {g : Grammar} (hg : s.HasGrammar g) {tree : Tree Token} {v : Value}
    (h : tree.IsAt s v) (hkinds : ∀ t ∈ tree.tokens, (g.kindLabel t.kind).isMissing = false) (format : TokenFormat) :
    s.render (.object g.self) format v = tree.rendered g format := by
  rw [Store.render, h.renderAt h.depth_le]
  exact Tree.renderedBy_eq fun t ht => hg.labelled (hkinds t ht)

end LosslessSyntax
