import LosslessSyntax.Proofs.Patterns
import LosslessSyntax.Proofs.Registries

/-!
# Decoding

From the rendering of an element with all offsets its structure can be told, provided its nodes use variants of the
grammar and the kinds of its tokens are registered there. Nodes and tokens are told apart by how many members they are
rendered with, whatever their kinds and slots are called: a node has one, and a token has four.

* `Grammar.decode` reads a structure off plain data.
* `Grammar.decode_render` says that it gives back the structure of every element which was rendered, so that elements
  with the same rendering have the same structure.
-/

namespace LosslessSyntax

/-! ## Reading a structure off plain data -/

mutual

def Grammar.decode (g : Grammar) : Data → Option (Tree Token)
  | .record [(name, .record slots)] => do
    return .node (← g.variants.find? (·.name = name)) (← g.decodeSlots slots)
  | .record [(_, .leaf kind), (_, .leaf (.number fullStart)), (_, .leaf (.number start)),
      (_, .leaf (.number length))] =>
    (g.tokenKinds.idOf? kind).map fun id : Nat => .token ⟨.number (.finite id), fullStart, start, length⟩
  | _ => none

def Grammar.decodeSlots (g : Grammar) : List (Text × Data) → Option (Slots Token)
  | [] => some .nil
  | (name, .leaf .null) :: rest => do return .empty name (← g.decodeSlots rest)
  | (name, .list items) :: rest => do return .row name (← g.decodeTrees items) (← g.decodeSlots rest)
  | (name, data) :: rest => do return .single name (← g.decode data) (← g.decodeSlots rest)

def Grammar.decodeTrees (g : Grammar) : List Data → Option (Trees Token)
  | [] => some .nil
  | data :: rest => do return .cons (← g.decode data) (← g.decodeTrees rest)

end

/-! ## Grammars that tell renderings apart -/

/-- What it takes for the renderings over a grammar to be told apart. -/
structure Grammar.Distinguishes (g : Grammar) : Prop where
  tokenKinds : g.tokenKinds.OneToOne
  named : ∀ entry ∈ g.tokenKinds.entries, entry.1.isMissing = false
  variants : (g.variants.map (·.name)).Nodup
  slots : ∀ w ∈ g.variants, baseName ∉ w.slotNames

namespace Grammar

/-- The tables of a grammar that was defined. -/
theorem define_ok {s : Store} {self : ObjectId} {d : Definition} {g : Grammar} (h : define s self d = .ok g) :
    Registry.ofNames s d.tokens = .ok g.tokenKinds ∧ Registry.ofNames s (d.nodes.names.map .text) = .ok g.nodeKinds ∧
      g.variants = variantsOf self d ∧ g.self = self ∧ g.sourceFile ∈ g.variants := by
  obtain ⟨tokenKinds, htokens, h⟩ := Attempt.bind_eq_ok h
  obtain ⟨nodeKinds, hnodes, h⟩ := Attempt.bind_eq_ok h
  obtain ⟨_, -, h⟩ := Attempt.bind_eq_ok h
  dsimp only at h
  split at h
  · obtain ⟨text, -, h⟩ := Attempt.bind_eq_ok h
    cases h
  · rename_i hsource
    split at h
    · cases h
    · split at h
      · obtain ⟨text, -, h⟩ := Attempt.bind_eq_ok h
        cases h
      · cases h
        exact ⟨htokens, hnodes, rfl, rfl, List.mem_of_find?_eq_some hsource⟩

theorem map_name_variantsOf (self : ObjectId) (d : Definition) : (variantsOf self d).map (·.name) = d.nodes.names := by
  rw [variantsOf, List.map_map, Members.names]
  show d.nodes.zipIdx.map ((·.1) ∘ (·.1)) = _
  rw [← List.map_map, List.zipIdx_map_fst]

/-- A grammar that was defined tells renderings apart, if its token kinds have names and no slot stands for a base. -/
theorem define_distinguishes {s : Store} {self : ObjectId} {d : Definition} {g : Grammar} (h : define s self d = .ok g)
    (hnamed : ∀ name ∈ d.tokens, name.isMissing = false) (hslots : ∀ node ∈ d.nodes, baseName ∉ node.2.names) :
    g.Distinguishes := by
  obtain ⟨htokens, hnodes, hvariants, _⟩ := define_ok h
  obtain ⟨hentries, hkinds, _⟩ := Registry.ofNames_ok htokens
  refine ⟨hkinds, fun entry he => ?_, ?_, fun w hw => ?_⟩
  · rw [hentries] at he
    exact hnamed _ (List.fst_mem_of_mem_zipIdx he)
  · rw [hvariants, map_name_variantsOf]
    exact (Registry.ofNames_ok hnodes).2.2.of_map _
  · rw [hvariants] at hw
    obtain ⟨⟨node, kind⟩, hnode, rfl⟩ := List.mem_map.mp hw
    exact hslots node (List.fst_mem_of_mem_zipIdx hnode)

variable {g : Grammar}

namespace Distinguishes

/-- A variant is found by its name. -/
theorem find?_variant (hg : g.Distinguishes) {w : Variant} (hw : w ∈ g.variants) :
    g.variants.find? (·.name = w.name) = some w := by
  cases hfound : g.variants.find? (·.name = w.name) with
  | none => simpa using List.find?_eq_none.mp hfound w hw
  | some w' =>
    have hname : w'.name = w.name := by simpa using List.find?_some hfound
    rw [List.inj_on_of_nodup_map hg.variants (List.mem_of_find?_eq_some hfound) hw hname]

/-- A registered kind is a number, and known from its name. -/
theorem kindLabel (hg : g.Distinguishes) {kind : Value} (h : (g.tokenKinds.nameOfValue? kind).isSome) :
    (g.kindLabel kind).isMissing = false ∧
      ∃ id : Nat, kind = .number (.finite id) ∧ g.tokenKinds.idOf? (g.kindLabel kind) = some id := by
  cases kind with
  | number n =>
    obtain ⟨name, hname⟩ := Option.isSome_iff_exists.mp h
    obtain ⟨id, hid, hnameOf⟩ := Option.bind_eq_some_iff.mp hname
    have hlabel : g.kindLabel (.number n) = name := by rw [Grammar.kindLabel, hname, Option.getD_some]
    rw [hlabel]
    refine ⟨hg.named _ (Registry.mem_of_nameOf? hnameOf), id, ?_, hg.tokenKinds.idOf?_iff_nameOf?.mpr hnameOf⟩
    rw [Number.eq_of_toNat?_eq_some hid]
  | _ => cases h

end Distinguishes

end Grammar

/-! ## Telling structures from renderings -/

section

variable {s : Store} {g : Grammar}

/-- What stands in the slots of a node is given for its slot names, in their order. -/
theorem Store.names_of_contents {v : Value} {names : List Text} {rows : Members Value}
    (hnames : s.slotNames v = .ok names) (h : s.contents v = .ok rows) : rows.map (·.1) = names := by
  obtain ⟨names', hnames', hrows⟩ := forall₂_of_contents h
  rw [hnames] at hnames'
  cases hnames'
  have hsame : List.Forall₂ Eq (rows.map (·.1)) names :=
    List.forall₂_map_left_iff.mpr (List.Forall₂.flip (hrows.imp fun _ _ hrow => hrow.1))
  rwa [List.forall₂_eq_eq_eq] at hsame

theorem Grammar.decodeSlots_single {data : Data} {tree : Tree Token} (h : g.decode data = some tree) (name : Text)
    (rest : List (Text × Data)) :
    g.decodeSlots ((name, data) :: rest) = (g.decodeSlots rest).map fun slots => .single name tree slots := by
  cases data with
  | record fields =>
    rw [Grammar.decodeSlots, h]
    · cases hrest : g.decodeSlots rest <;> rfl
    · exact fun heq => by cases heq
    · exact fun _ heq => by cases heq
  | _ => cases h

mutual

/-- The rendering of a structure leads back to it. -/
theorem Tree.IsAt.decode_rendered (hg : g.Distinguishes) : ∀ {tree : Tree Token} {v : Value}, tree.IsAt s v →
    (∀ w ∈ tree.variants, w ∈ g.variants) → (∀ t ∈ tree.tokens, (g.tokenKinds.nameOfValue? t.kind).isSome) →
    (∀ n ∈ tree.rowLengths, n < Sequence.lengthBound) →
    ∃ data, tree.rendered g .full = .ok data ∧ g.decode data = some tree
  | .token t, _, _, _, hkinds, _ => by
    obtain ⟨_, id, hkind, hid⟩ := hg.kindLabel (hkinds t List.mem_cons_self)
    refine ⟨_, rfl, ?_⟩
    rw [Token.rendered, Grammar.decode, hid, Option.map_some, ← hkind]
  | .node w slots, _, ⟨id, contents, rfl, hnode, huses, hcontents, hslots⟩, hvariants, hkinds, hrows => by
    have hvariants := List.forall_mem_cons.mp hvariants
    obtain ⟨fields, hfields, hnames, hdecode⟩ := hslots.decode_rendered hg hvariants.2 hkinds hrows
    have hkept : fields.filter (·.1 ≠ baseName) = fields := by
      refine List.filter_eq_self.mpr fun field hfield => ?_
      have hslot : field.1 ∈ w.slotNames := by
        rw [← Store.names_of_contents huses.slotNames hcontents, ← hnames]
        exact List.mem_map.mpr ⟨field, hfield, rfl⟩
      exact decide_eq_true fun heq => hg.slots w hvariants.1 (heq ▸ hslot)
    refine ⟨.record [(w.name, .record fields)], ?_, ?_⟩
    · rw [Tree.rendered, hfields, Attempt.ok_bind, hkept]
      rfl
    · rw [Grammar.decode, hg.find?_variant hvariants.1, hdecode]
      rfl

theorem Slots.AreAt.decode_rendered (hg : g.Distinguishes) : ∀ {slots : Slots Token} {contents : Members Value},
    slots.AreAt s contents → (∀ w ∈ slots.variants, w ∈ g.variants) →
    (∀ t ∈ slots.tokens, (g.tokenKinds.nameOfValue? t.kind).isSome) →
    (∀ n ∈ slots.rowLengths, n < Sequence.lengthBound) →
    ∃ fields, slots.rendered g .full = .ok fields ∧ fields.map (·.1) = contents.map (·.1) ∧
      g.decodeSlots fields = some slots
  | .nil, _, h, _, _, _ => by
    subst h
    exact ⟨[], rfl, rfl, rfl⟩
  | .empty name rest, _, ⟨others, hcontents, hrest⟩, hvariants, hkinds, hrows => by
    subst hcontents
    obtain ⟨fields, hfields, hnames, hdecode⟩ := hrest.decode_rendered hg hvariants hkinds hrows
    refine ⟨(name, .leaf .null) :: fields, ?_, ?_, ?_⟩
    · rw [Slots.rendered, hfields]
      rfl
    · rw [List.map_cons, List.map_cons, hnames]
    · rw [Grammar.decodeSlots, hdecode]
      rfl
  | .single name tree rest, _, ⟨v, others, hcontents, htree, hrest⟩, hvariants, hkinds, hrows => by
    subst hcontents
    have hvariants := List.forall_mem_append.mp hvariants
    have hkinds := List.forall_mem_append.mp hkinds
    have hrows := List.forall_mem_append.mp hrows
    obtain ⟨data, hdata, hdecode⟩ := htree.decode_rendered hg hvariants.1 hkinds.1 hrows.1
    obtain ⟨fields, hfields, hnames, hdecode'⟩ := hrest.decode_rendered hg hvariants.2 hkinds.2 hrows.2
    refine ⟨(name, data) :: fields, ?_, ?_, ?_⟩
    · rw [Slots.rendered, hdata, hfields]
      rfl
    · rw [List.map_cons, List.map_cons, hnames]
    · rw [Grammar.decodeSlots_single hdecode, hdecode']
      rfl
  | .row name trees rest, _, ⟨v, vs, others, hcontents, _, htrees, hrest⟩, hvariants, hkinds, hrows => by
    subst hcontents
    have hvariants := List.forall_mem_append.mp hvariants
    have hkinds := List.forall_mem_append.mp hkinds
    obtain ⟨hlength, hrows⟩ := List.forall_mem_cons.mp hrows
    have hrows := List.forall_mem_append.mp hrows
    obtain ⟨items, hitems, hdecode⟩ := htrees.decode_rendered hg hvariants.1 hkinds.1 hrows.1
    obtain ⟨fields, hfields, hnames, hdecode'⟩ := hrest.decode_rendered hg hvariants.2 hkinds.2 hrows.2
    refine ⟨(name, .list items) :: fields, ?_, ?_, ?_⟩
    · rw [Slots.rendered, if_pos hlength, hitems, hfields]
      rfl
    · rw [List.map_cons, List.map_cons, hnames]
    · rw [Grammar.decodeSlots, hdecode, hdecode']
      rfl

theorem Trees.AreAt.decode_rendered (hg : g.Distinguishes) : ∀ {trees : Trees Token} {vs : List Value},
    trees.AreAt s vs → (∀ w ∈ trees.variants, w ∈ g.variants) →
    (∀ t ∈ trees.tokens, (g.tokenKinds.nameOfValue? t.kind).isSome) →
    (∀ n ∈ trees.rowLengths, n < Sequence.lengthBound) →
    ∃ items, trees.rendered g .full = .ok items ∧ g.decodeTrees items = some trees
  | .nil, _, _, _, _, _ => ⟨[], rfl, rfl⟩
  | .cons tree rest, _, ⟨v, others, hvs, htree, hrest⟩, hvariants, hkinds, hrows => by
    have hvariants := List.forall_mem_append.mp hvariants
    have hkinds := List.forall_mem_append.mp hkinds
    have hrows := List.forall_mem_append.mp hrows
    obtain ⟨data, hdata, hdecode⟩ := htree.decode_rendered hg hvariants.1 hkinds.1 hrows.1
    obtain ⟨items, hitems, hdecode'⟩ := hrest.decode_rendered hg hvariants.2 hkinds.2 hrows.2
    refine ⟨data :: items, ?_, ?_⟩
    · rw [Trees.rendered, hdata, hitems]
      rfl
    · rw [Grammar.decodeTrees, hdecode, hdecode']
      rfl

end

end

/-- An element with its structure, in a store that has a grammar: all nodes use variants of the grammar, and all tokens
have kinds that are registered there. Rows are no longer than lists can be. -/
structure Tree.IsOver (g : Grammar) (tree : Tree Token) (s : Store) (v : Value) : Prop where
  hasGrammar : s.HasGrammar g
  isAt : tree.IsAt s v
  variants : ∀ w ∈ tree.variants, w ∈ g.variants
  kinds : ∀ t ∈ tree.tokens, (g.tokenKinds.nameOfValue? t.kind).isSome
  rows : ∀ n ∈ tree.rowLengths, n < Sequence.lengthBound

/-- The rendering of an element over a grammar can be decoded. -/
theorem Tree.IsOver.exists_decode {g : Grammar} (hg : g.Distinguishes) {tree : Tree Token} {s : Store} {v : Value}
    (h : tree.IsOver g s v) : ∃ data, s.render (.object g.self) .full v = .ok data ∧ g.decode data = some tree := by
  rw [h.isAt.render h.hasGrammar fun t ht => (hg.kindLabel (h.kinds t ht)).1]
  exact h.isAt.decode_rendered hg h.variants h.kinds h.rows

/-- For every grammar that was defined with names for its token kinds and without a slot that stands for a base, the
structure of every element over it can be told from its full rendering: there is a rendering, `Grammar.decode` reads the
structure back, and elements that are rendered alike, be it in different stores, have the same structure. -/
theorem Grammar.decode_render {s₀ : Store} {self : ObjectId} {d : Definition} {g : Grammar}
    (hdefine : Grammar.define s₀ self d = .ok g) (hnamed : ∀ name ∈ d.tokens, name.isMissing = false)
    (hslots : ∀ node ∈ d.nodes, baseName ∉ node.2.names) :
    (∀ tree s v, Tree.IsOver g tree s v →
      ∃ data, s.render (.object g.self) .full v = .ok data ∧ g.decode data = some tree) ∧
    ∀ tree s v tree' s' v', Tree.IsOver g tree s v → Tree.IsOver g tree' s' v' →
      s.render (.object g.self) .full v = s'.render (.object g.self) .full v' → tree = tree' := by
  have hg := define_distinguishes hdefine hnamed hslots
  refine ⟨fun tree s v h => h.exists_decode hg, fun tree s v tree' s' v' h h' hsame => ?_⟩
  obtain ⟨data, hrender, hdecode⟩ := h.exists_decode hg
  obtain ⟨data', hrender', hdecode'⟩ := h'.exists_decode hg
  rw [hrender, hrender'] at hsame
  cases hsame
  exact Option.some.inj (hdecode.symm.trans hdecode')

namespace Calc

/-- The tree of a source of the calculator language is over its grammar, unless it has too many statements. -/
theorem parse_isOver {s : Store} (h : Stocked s) (source : Source)
    (hshort : (lex source.text).toList.length < Sequence.lengthBound) : ∃ tree root t,
      parseValue (.text source.text) s = (.ok root, t) ∧ Tree.IsOver grammar tree t (.object root) := by
  obtain ⟨root, t, hrun, hk, htree⟩ := parse_tree h.toHosts source
  refine ⟨_, root, t, hrun, h.hasGrammar.keeps hk, htree, fun w hw => ?_, fun token htoken => ?_, ?_⟩
  · obtain ⟨k, rfl⟩ := Program.native_tree _ w hw
    exact List.mem_map.mpr ⟨k, by cases k <;> decide, rfl⟩
  · rw [Program.tree_map, Tree.tokens_map] at htoken
    obtain ⟨l, _, rfl⟩ := List.mem_map.mp htoken
    rw [Lexeme.token]
    cases l.kind <;> rfl
  · exact rowLengths_tree_lt source hshort

/-- A source with a missing operand and a missing parenthesis. -/
theorem decode_render_spaced : Grammar.define .empty grammarId definition = .ok grammar ∧
    (∀ name ∈ definition.tokens, name.isMissing = false) ∧
    (∀ node ∈ definition.nodes, baseName ∉ node.2.names) ∧
    ∃ tree root t data, parseValue (.text spaced.text) start = (.ok root, t) ∧
      Tree.IsOver grammar tree t (.object root) ∧ t.render (.object grammarId) .full (.object root) = .ok data ∧
      grammar.decode data = some tree := by
  have hdefine : Grammar.define .empty grammarId definition = .ok grammar := Attempt.eq_ok define_definition
  have hnamed : ∀ name ∈ definition.tokens, name.isMissing = false := List.forall_mem_map.mpr fun _ _ => rfl
  have hslots : ∀ node ∈ definition.nodes, baseName ∉ node.2.names :=
    List.forall_mem_map.mpr fun k _ => by cases k <;> decide
  obtain ⟨tree, root, t, hrun, hover⟩ := parse_isOver stocked_start spaced (by decide +kernel)
  obtain ⟨data, hrender, hdecode⟩ := (Grammar.decode_render hdefine hnamed hslots).1 tree t (.object root) hover
  exact ⟨hdefine, hnamed, hslots, tree, root, t, data, hrun, hover, hrender, hdecode⟩

end Calc

end LosslessSyntax
