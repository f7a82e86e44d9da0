import LosslessSyntax.Proofs.Depicting
import LosslessSyntax.Proofs.Lexing
import Mathlib.Algebra.BigOperators.Group.List.Basic

/-!
# Patterns of kinds

The parser sees nothing of a token but its kind. Sources whose tokens have the same kinds in the same order have trees
of one structure, in which the tokens of the one stand where those of the other do (`parse_pattern`).

* `Program.tree` is the structure of a program, whatever its tokens are; replacing tokens does not change it otherwise
  (`Program.tree_map`).
* What is planted for a program has its structure (`plant_tree`), so that of a source is known from its tokens
  (`parse_tree`).
-/

namespace LosslessSyntax

variable {α β : Type}

/-! ## Slots and rows -/

/-- A slot in which an element may stand. -/
def Slots.optional (name : Text) : Option (Tree α) → Slots α → Slots α
  | none, rest => .empty name rest
  | some tree, rest => .single name tree rest

/-- A row of elements. -/
def Trees.ofList : List (Tree α) → Trees α
  | [] => .nil
  | tree :: rest => .cons tree (ofList rest)

section

variable (name : Text) (tree : Option (Tree α)) (rest : Slots α) (trees : List (Tree α))

theorem Slots.map_optional (f : α → β) :
    (optional name tree rest).map f = optional name (tree.map (Tree.map f)) (rest.map f) := by
  cases tree <;> rfl

theorem Slots.tokens_optional : (optional name tree rest).tokens = tree.elim [] Tree.tokens ++ rest.tokens := by
  cases tree <;> rfl

theorem Slots.variants_optional : (optional name tree rest).variants = tree.elim [] Tree.variants ++ rest.variants := by
  cases tree <;> rfl

theorem Slots.rowLengths_optional :
    (optional name tree rest).rowLengths = tree.elim [] Tree.rowLengths ++ rest.rowLengths := by
  cases tree <;> rfl

theorem Trees.map_ofList (f : α → β) : (ofList trees).map f = ofList (trees.map (Tree.map f)) := by
  induction trees with
  | nil => rfl
  | cons tree rest ih => exact congrArg (cons (tree.map f)) ih

theorem Trees.tokens_ofList : (ofList trees).tokens = trees.flatMap Tree.tokens := by
  induction trees with
  | nil => rfl
  | cons tree rest ih => exact congrArg (tree.tokens ++ ·) ih

theorem Trees.variants_ofList : (ofList trees).variants = trees.flatMap Tree.variants := by
  induction trees with
  | nil => rfl
  | cons tree rest ih => exact congrArg (tree.variants ++ ·) ih

theorem Trees.rowLengths_ofList : (ofList trees).rowLengths = trees.flatMap Tree.rowLengths := by
  induction trees with
  | nil => rfl
  | cons tree rest ih => exact congrArg (tree.rowLengths ++ ·) ih

theorem Trees.length_ofList : (ofList trees).length = trees.length := by
  induction trees with
  | nil => rfl
  | cons tree rest ih => exact congrArg (· + 1) ih

end

/-- A value is an element with a structure, or `null` where there is none. -/
def Tree.MayBeAt (s : Store) : Option (Tree Token) → Value → Prop
  | none, v => v = .null
  | some tree, v => tree.IsAt s v

theorem Slots.areAt_optional {s : Store} {name : Text} {tree : Option (Tree Token)} {rest : Slots Token} {v : Value}
    {others : Members Value} (h : Tree.MayBeAt s tree v) (hrest : rest.AreAt s others) :
    (optional name tree rest).AreAt s ((name, v) :: others) := by
  cases tree with
  | none =>
    obtain rfl : v = .null := h
    exact ⟨others, rfl, hrest⟩
  | some tree => exact ⟨v, others, rfl, h, hrest⟩

theorem Trees.areAt_ofList {s : Store} {trees : List (Tree Token)} {vs : List Value}
    (h : List.Forall₂ (Tree.IsAt s) trees vs) : (ofList trees).AreAt s vs := by
  induction h with
  | nil => exact rfl
  | cons htree _ ih => exact ⟨_, _, rfl, htree, ih⟩

namespace Calc

/-! ## Structures of programs -/

/-- The structure of an expression, unless it is missing. -/
def Expr.tree? : Expr α → Option (Tree α)
  | .missing => none
  | .number value => some (.node NodeKind.numberLiteral.variant (.single "value" (.token value) .nil))
  | .name token => some (.node NodeKind.nameExpression.variant (.single "name" (.token token) .nil))
  | .paren opening inner closing =>
    some (.node NodeKind.parenthesizedExpression.variant (.single "openParen" (.token opening)
      (.optional "expression" inner.tree? (.optional "closeParen" (closing.map .token) .nil))))
  | .binary left operator right =>
    some (.node NodeKind.binaryExpression.variant (.optional "left" left.tree?
      (.single "operator" (.token operator) (.optional "right" right.tree? .nil))))

def Statement.tree : Statement α → Tree α
  | .assignment name equals value semicolon =>
    .node NodeKind.assignmentStatement.variant (.single "name" (.token name) (.single "equals" (.token equals)
      (.optional "value" value.tree? (.optional "semicolon" (semicolon.map .token) .nil))))
  | .expression e semicolon =>
    .node NodeKind.expressionStatement.variant (.optional "expression" e.tree?
      (.optional "semicolon" (semicolon.map .token) .nil))
  | .skipped token => .node NodeKind.skippedTokens.variant (.row "tokens" (.ofList [.token token]) .nil)

def Program.tree (p : Program α) : Tree α :=
  .node NodeKind.sourceFile.variant (.row "statements" (.ofList (p.statements.map Statement.tree))
    (.single endOfFileSlot (.token p.endOfFile) .nil))

/-! ### Replacing tokens -/

theorem map_token (f : α → β) (a : Option α) : (a.map f).map Tree.token = (a.map Tree.token).map (Tree.map f) := by
  cases a <;> rfl

theorem Expr.tree?_map (f : α → β) (e : Expr α) : (e.map f).tree? = e.tree?.map (Tree.map f) := by
  induction e with
  | missing | number value | name name => rfl
  | paren opening inner closing ih =>
    simp only [Expr.map, Expr.tree?, Option.map_some, Tree.map, Slots.map, Slots.map_optional, ih, map_token]
  | binary left operator right ihl ihr =>
    simp only [Expr.map, Expr.tree?, Option.map_some, Tree.map, Slots.map, Slots.map_optional, ihl, ihr]

theorem Statement.tree_map (f : α → β) (st : Statement α) : (st.map f).tree = st.tree.map f := by
  cases st with
  | assignment name equals value semicolon =>
    simp only [Statement.map, Statement.tree, Tree.map, Slots.map, Slots.map_optional, Expr.tree?_map, map_token]
  | expression e semicolon =>
    simp only [Statement.map, Statement.tree, Tree.map, Slots.map, Slots.map_optional, Expr.tree?_map, map_token]
  | skipped token => rfl

theorem Program.tree_map (f : α → β) (p : Program α) : (p.map f).tree = p.tree.map f := by
  simp only [Program.map, Program.tree, Tree.map, Slots.map, Trees.map_ofList, List.map_map]
  simp only [Function.comp_def, Statement.tree_map]

/-! ### Tokens -/

theorem elim_map_token (a : Option α) : a.elim [] (Tree.tokens ∘ Tree.token) = a.toList := by
  cases a <;> rfl

theorem Expr.tokens_tree? (e : Expr α) : e.tree?.elim [] Tree.tokens = e.tokens := by
  induction e with
  | missing | number value | name name => rfl
  | paren opening inner closing ih =>
    simp [Expr.tree?, Expr.tokens, Tree.tokens, Slots.tokens, Slots.tokens_optional, ih, elim_map_token]
  | binary left operator right ihl ihr =>
    simp [Expr.tree?, Expr.tokens, Tree.tokens, Slots.tokens, Slots.tokens_optional, ihl, ihr]

theorem Statement.tokens_tree (st : Statement α) : st.tree.tokens = st.tokens := by
  cases st with
  | assignment name equals value semicolon =>
    simp [Statement.tree, Statement.tokens, Tree.tokens, Slots.tokens, Slots.tokens_optional, Expr.tokens_tree?,
      elim_map_token]
  | expression e semicolon =>
    simp [Statement.tree, Statement.tokens, Tree.tokens, Slots.tokens, Slots.tokens_optional, Expr.tokens_tree?,
      elim_map_token]
  | skipped token => rfl

theorem Program.tokens_tree (p : Program α) : p.tree.tokens = p.tokens := by
  simp only [Program.tree, Program.tokens, Tree.tokens, Slots.tokens, Trees.tokens_ofList, List.flatMap_map,
    Statement.tokens_tree, List.append_nil]

/-! ### Nodes and rows -/

/-- Every node of a structure is of one of the kinds of the language. -/
def Native (ws : List Variant) : Prop := ∀ w ∈ ws, ∃ k : NodeKind, w = k.variant

theorem native_nil : Native [] := List.forall_mem_nil _

theorem Native.cons {ws : List Variant} (k : NodeKind) (h : Native ws) : Native (k.variant :: ws) :=
  List.forall_mem_cons.mpr ⟨⟨k, rfl⟩, h⟩

theorem Native.append {ws ws' : List Variant} (h : Native ws) (h' : Native ws') : Native (ws ++ ws') :=
  List.forall_mem_append.mpr ⟨h, h'⟩

theorem native_token (a : Option α) : Native ((a.map Tree.token).elim [] Tree.variants) := by
  cases a <;> exact native_nil

theorem Expr.native_tree? (e : Expr α) : Native (e.tree?.elim [] Tree.variants) := by
  induction e with
  | missing => exact native_nil
  | number value => exact native_nil.cons .numberLiteral
  | name token => exact native_nil.cons .nameExpression
  | paren opening inner closing ih =>
    simp only [Expr.tree?, Option.elim_some, Tree.variants, Slots.variants, Slots.variants_optional]
    exact .cons .parenthesizedExpression (native_nil.append (ih.append ((native_token closing).append native_nil)))
  | binary left operator right ihl ihr =>
    simp only [Expr.tree?, Option.elim_some, Tree.variants, Slots.variants, Slots.variants_optional]
    exact .cons .binaryExpression (ihl.append (native_nil.append (ihr.append native_nil)))

theorem Statement.native_tree (st : Statement α) : Native st.tree.variants := by
  cases st with
  | assignment name equals value semicolon =>
    simp only [Statement.tree, Tree.variants, Slots.variants, Slots.variants_optional]
    exact .cons .assignmentStatement
      (native_nil.append (native_nil.append (value.native_tree?.append ((native_token semicolon).append native_nil))))
  | expression e semicolon =>
    simp only [Statement.tree, Tree.variants, Slots.variants, Slots.variants_optional]
    exact .cons .expressionStatement (e.native_tree?.append ((native_token semicolon).append native_nil))
  | skipped token => exact native_nil.cons .skippedTokens

theorem Program.native_tree (p : Program α) : Native p.tree.variants := by
  have hstatements : Native ((p.statements.map Statement.tree).flatMap Tree.variants) := by
    rw [List.flatMap_map]
    exact List.forall_mem_flatMap.mpr fun st _ => st.native_tree
  simp only [Program.tree, Tree.variants, Slots.variants, Trees.variants_ofList]
  exact .cons .sourceFile (hstatements.append native_nil)

theorem rowLengths_token (a : Option α) : (a.map Tree.token).elim [] Tree.rowLengths = [] := by
  cases a <;> rfl

theorem Expr.rowLengths_tree? (e : Expr α) : e.tree?.elim [] Tree.rowLengths = [] := by
  induction e with
  | missing | number value | name token => rfl
  | paren opening inner closing ih =>
    simp only [Expr.tree?, Option.elim_some, Tree.rowLengths, Slots.rowLengths, Slots.rowLengths_optional, ih,
      rowLengths_token, List.append_nil]
  | binary left operator right ihl ihr =>
    simp only [Expr.tree?, Option.elim_some, Tree.rowLengths, Slots.rowLengths, Slots.rowLengths_optional, ihl, ihr,
      List.append_nil]

theorem Statement.rowLengths_tree (st : Statement α) : ∀ n ∈ st.tree.rowLengths, n = 1 := by
  cases st with
  | assignment name equals value semicolon =>
    simp only [Statement.tree, Tree.rowLengths, Slots.rowLengths, Slots.rowLengths_optional, Expr.rowLengths_tree?,
      rowLengths_token, List.append_nil]
    exact List.forall_mem_nil _
  | expression e semicolon =>
    simp only [Statement.tree, Tree.rowLengths, Slots.rowLengths, Slots.rowLengths_optional, Expr.rowLengths_tree?,
      rowLengths_token, List.append_nil]
    exact List.forall_mem_nil _
  | skipped token => exact List.forall_mem_singleton.mpr rfl

/-- The rows of a program are that of its statements and those of skipped tokens. -/
theorem Program.rowLengths_tree (p : Program α) : ∀ n ∈ p.tree.rowLengths, n = p.statements.length ∨ n = 1 := by
  simp only [Program.tree, Tree.rowLengths, Slots.rowLengths, Trees.rowLengths_ofList, Trees.length_ofList,
    List.length_map, List.flatMap_map, List.append_nil]
  refine List.forall_mem_cons.mpr ⟨.inl rfl, fun n hn => ?_⟩
  obtain ⟨st, _, hst⟩ := List.mem_flatMap.mp hn
  exact .inr (st.rowLengths_tree n hst)

/-! ## Structures of trees -/

section

variable {s t : Store}

theorem TokenAt.isAt {token : Token} {v : Value} (h : TokenAt t token v) : (Tree.token token).IsAt t v := by
  obtain ⟨id, rfl, hread⟩ := h.element
  rw [Store.elementOf?] at hread
  split at hread
  · cases hread
  · rename_i hnode
    obtain ⟨token', htoken, heq⟩ := Option.map_eq_some_iff.mp hread
    cases heq
    exact ⟨id, rfl, Bool.eq_false_iff.mpr hnode, htoken⟩

theorem OptionalAt.mayBeAt {token : Option Token} {v : Value} (h : OptionalAt t token v) :
    Tree.MayBeAt t (token.map .token) v := by
  cases token with
  | none => exact h
  | some token => exact TokenAt.isAt h

theorem NodeAt.isAt {k : NodeKind} {contents : Members Value} {v : Value} (h : NodeAt t k contents v)
    {slots : Slots Token} (hslots : slots.AreAt t contents) : (Tree.node k.variant slots).IsAt t v := by
  obtain ⟨id, hv, hnode⟩ := h.node
  exact ⟨id, contents, hv, hnode, .inl h.variant, h.contents, hslots⟩

/-- Tokens and expressions in slots, one after another. -/
theorem areAt_token {token : Token} {name : Text} {rest : Slots Token} {v : Value} {others : Members Value}
    (h : TokenAt t token v) (hrest : rest.AreAt t others) :
    (Slots.single name (.token token) rest).AreAt t ((name, v) :: others) :=
  ⟨v, others, rfl, h.isAt, hrest⟩

theorem Expr.IsAt.mayBeAt {e : Expr Token} {v : Value} (h : e.IsAt t v) : Tree.MayBeAt t e.tree? v := by
  induction e generalizing v with
  | missing => exact h
  | number token | name token =>
    obtain ⟨w, hw, hnode⟩ := h
    exact hnode.isAt (areAt_token hw rfl)
  | paren opening inner closing ih =>
    obtain ⟨w₁, w₂, w₃, h₁, h₂, h₃, hnode⟩ := h
    exact hnode.isAt (areAt_token h₁ (Slots.areAt_optional (ih h₂) (Slots.areAt_optional h₃.mayBeAt rfl)))
  | binary left operator right ihl ihr =>
    obtain ⟨w₁, w₂, w₃, h₁, h₂, h₃, hnode⟩ := h
    exact hnode.isAt (Slots.areAt_optional (ihl h₁) (areAt_token h₂ (Slots.areAt_optional (ihr h₃) rfl)))

/-! ## Planting -/

variable {token : α → Token} {place : α → ObjectId}

/-- What is planted for a statement has its structure. -/
theorem plantStatement_tree (h : Hosts s) {st : Statement α}
    (hts : ∀ x ∈ st.tokens, TokenAt s (token x) (.object (place x))) {v : Value}
    (hrun : plantStatement (st.map place) s = (.ok v, t)) :
    Hosts t ∧ s.Keeps t ∧ (st.map token).tree.IsAt t v := by
  obtain ⟨ht, hk, hst⟩ := plantStatement_isAt h hts hrun
  refine ⟨ht, hk, ?_⟩
  cases st with
  | assignment name equals value semicolon =>
    obtain ⟨w₁, w₂, w₃, w₄, h₁, h₂, h₃, h₄, hnode⟩ := hst
    exact hnode.isAt (areAt_token h₁ (areAt_token h₂
      (Slots.areAt_optional h₃.mayBeAt (Slots.areAt_optional h₄.mayBeAt rfl))))
  | expression e semicolon =>
    obtain ⟨w₁, w₂, h₁, h₂, hnode⟩ := hst
    exact hnode.isAt (Slots.areAt_optional h₁.mayBeAt (Slots.areAt_optional h₂.mayBeAt rfl))
  | skipped leaf =>
    have htoken := hts leaf List.mem_cons_self
    obtain ⟨_, hk, ws, hnode, hheld⟩ := make_nodeAt h hrun rfl
      (List.forall_mem_singleton.mpr (List.forall_mem_singleton.mpr htoken.within))
    rcases hheld with _ | ⟨hrow, ⟨⟩⟩
    exact hnode.isAt ⟨_, _, [], rfl, hrow, ⟨_, [], rfl, (htoken.keeps h hk).isAt, rfl⟩, rfl⟩

theorem Native.parent_notMem {ws : List Variant} (h : Native ws) : ∀ w ∈ ws, ("parent" : Text) ∉ w.slotNames := by
  intro w hw
  obtain ⟨k, rfl⟩ := h w hw
  cases k <;> decide

theorem plantStatements_tree (h : Hosts s) {sts : List (Statement α)}
    (hts : ∀ x ∈ sts.flatMap Statement.tokens, TokenAt s (token x) (.object (place x))) {vs : List Value}
    (hrun : (sts.map (Statement.map place)).mapM plantStatement s = (.ok vs, t)) :
    Hosts t ∧ s.Keeps t ∧
      List.Forall₂ (Tree.IsAt t) ((sts.map (Statement.map token)).map Statement.tree) vs := by
  induction sts generalizing s vs with
  | nil =>
    cases hrun
    exact ⟨h, .refl _, .nil⟩
  | cons st sts ih =>
    simp only [List.flatMap_cons, List.mem_append] at hts
    rw [List.map_cons, List.mapM_cons] at hrun
    obtain ⟨v, u, hfirst, hrun⟩ := Building.bind_eq_ok hrun
    obtain ⟨vs, u', hrest, hrun⟩ := Building.bind_eq_ok hrun
    cases hrun
    obtain ⟨hu, hk, hv⟩ := plantStatement_tree h (fun x hx => hts x (.inl hx)) hfirst
    obtain ⟨ht, hk', hvs⟩ := ih hu (fun x hx => (hts x (.inr hx)).keeps h hk) hrest
    have hparent := (Statement.native_tree (st.map token)).parent_notMem
    exact ⟨ht, hk.trans hk', .cons (hv.keeps hu.grounded hu.closed hk' hparent) hvs⟩

/-- What is planted for a program has its structure. -/
theorem plant_tree (h : Hosts s) {source : Source} {p : Program α}
    (hts : ∀ x ∈ p.tokens, TokenAt s (token x) (.object (place x))) {root : ObjectId}
    (hrun : plant source (p.map place) s = (.ok root, t)) :
    Hosts t ∧ s.Keeps t ∧ (p.map token).tree.IsAt t (.object root) := by
  simp only [Program.tokens, List.mem_append, List.mem_singleton] at hts
  obtain ⟨vs, u, hstatements, hfile⟩ := Building.bind_eq_ok hrun
  obtain ⟨hu, hk, hvs⟩ := plantStatements_tree h (fun x hx => hts x (.inl hx)) hstatements
  have heof := (hts p.endOfFile (.inr rfl)).keeps h hk
  have hwithin : ∀ v ∈ vs, v.Within u.size := by
    intro v hv
    obtain ⟨tree, _, htree⟩ := exists_of_forall₂ hvs hv
    obtain ⟨id, rfl, hid⟩ := Store.isElement_object htree.isElement
    exact hid
  obtain ⟨ht, hk', ws, hnode, hheld⟩ := createSourceFile_nodeAt hu hfile rfl
    (List.forall_mem_cons.mpr ⟨hwithin, List.forall_mem_singleton.mpr heof.within⟩)
  rcases hheld with _ | ⟨hrow, _ | ⟨rfl, ⟨⟩⟩⟩
  refine ⟨ht, hk.trans hk', hnode.isAt ⟨_, vs, _, rfl, hrow, ?_, areAt_token (heof.keeps hu hk') rfl⟩⟩
  refine Trees.areAt_ofList (List.forall₂_map_left_iff.mpr ((List.forall₂_map_left_iff.mp hvs).imp ?_))
  exact fun st v hst => hst.keeps hu.grounded hu.closed hk' st.native_tree.parent_notMem

/-- The tree of a source has the structure of its program. -/
theorem parse_tree (h : Hosts s) (source : Source) : ∃ root t, parseValue (.text source.text) s = (.ok root, t) ∧
    s.Keeps t ∧ ((Program.ofLexing (lex source.text)).map Lexeme.token).tree.IsAt t (.object root) := by
  obtain ⟨root, _, t, hrun, _⟩ := parse_spec h source
  have huntouched := untouched_addTokens h (lex source.text).toList
  have hadded := h.keeps huntouched.keeps huntouched.grounded huntouched.closed
  have hplant : plant source (.ofKinds s.size ((lex source.text).lexemes.map Lexeme.kind))
      (s.addAll ((lex source.text).toList.map fun l => .token l.token)) = (.ok root, t) := hrun
  rw [← Program.numbered_snd] at hplant
  have htokens : ∀ x ∈ (Program.numbered s.size (lex source.text)).tokens,
      TokenAt (s.addAll ((lex source.text).toList.map fun l => .token l.token)) x.1.token (.object x.2) := by
    intro x hx
    rw [Program.tokens_numbered, List.mem_zipIdx_iff_le_and_getElem?_sub] at hx
    obtain ⟨hle, hget⟩ := hx
    obtain ⟨i, hi⟩ := Nat.exists_eq_add_of_le hle
    rw [hi, Nat.add_sub_cancel_left] at hget
    rw [hi]
    exact tokenAt_addTokens hadded hget
  obtain ⟨_, hk, htree⟩ : Hosts t ∧ Store.Keeps _ t ∧
      ((Program.numbered s.size (lex source.text)).map (Lexeme.token ∘ Prod.fst)).tree.IsAt t (.object root) :=
    plant_tree hadded htokens hplant
  refine ⟨root, t, ?_, huntouched.keeps.trans hk, ?_⟩
  · rw [parseValue_text]
    exact hrun
  · rwa [← Program.numbered_token s.size]

end

/-! ## Two sources -/

/-- Statements depend on the kinds of the tokens at hand. -/
theorem statements_congr {kind kind' : α → Kind} {ts : List α} (h : ∀ t ∈ ts, kind t = kind' t) :
    statements kind ts = statements kind' ts := by
  have hkinds : kind ∘ Subtype.val = kind' ∘ (Subtype.val : {t // t ∈ ts} → α) := funext fun t => h t.1 t.2
  rw [← ts.attach_map_subtype_val, statements_map, statements_map, hkinds]

theorem Program.map_map {γ : Type} (f : α → β) (f' : β → γ) (p : Program α) :
    (p.map f).map f' = p.map (f' ∘ f) := by
  simp only [Program.map, List.map_map, Function.comp_def, Statement.map_map]

/-- Lists with the same images have them place by place. -/
theorem eq_of_mem_zip {f : α → β} {as bs : List α} (h : as.map f = bs.map f) : ∀ x ∈ as.zip bs, f x.1 = f x.2 := by
  rw [← List.forall₂_eq_eq_eq, List.forall₂_map_left_iff, List.forall₂_map_right_iff, List.forall₂_iff_zip] at h
  exact fun x hx => h.2 hx

/-- Sources with the same kinds of tokens have one program, of pairs of their tokens. -/
theorem exists_pairs {l₁ l₂ : Lexing} (h : l₁.toList.map Lexeme.kind = l₂.toList.map Lexeme.kind) :
    ∃ p : Program (Lexeme × Lexeme), p.map Prod.fst = .ofLexing l₁ ∧ p.map Prod.snd = .ofLexing l₂ ∧
      p.tokens = l₁.toList.zip l₂.toList := by
  have hlength : l₁.lexemes.length = l₂.lexemes.length := by
    have := congrArg List.length h
    simpa [Lexing.toList] using this
  have hkinds : l₁.lexemes.map Lexeme.kind = l₂.lexemes.map Lexeme.kind := by
    rw [Lexing.toList, Lexing.toList, List.map_append, List.map_append] at h
    exact (List.append_inj h (by simpa using hlength)).1
  have hfst : (l₁.lexemes.zip l₂.lexemes).map Prod.fst = l₁.lexemes := List.map_fst_zip hlength.le
  have hsnd : (l₁.lexemes.zip l₂.lexemes).map Prod.snd = l₂.lexemes := List.map_snd_zip hlength.ge
  have hsame : statements (Lexeme.kind ∘ Prod.fst) (l₁.lexemes.zip l₂.lexemes) =
      statements (Lexeme.kind ∘ Prod.snd) (l₁.lexemes.zip l₂.lexemes) := statements_congr (eq_of_mem_zip hkinds)
  refine ⟨⟨statements (Lexeme.kind ∘ Prod.fst) (l₁.lexemes.zip l₂.lexemes), (l₁.endOfFile, l₂.endOfFile)⟩, ?_, ?_, ?_⟩
  · rw [Program.map, Program.ofLexing, ← statements_map, hfst]
  · rw [Program.map, Program.ofLexing, hsame, ← statements_map, hsnd]
  · rw [Program.tokens, flatMap_tokens_statements, Lexing.toList, Lexing.toList, List.zip_append hlength]
    rfl

/-- A store in which trees of the language can be made and rendered. -/
structure Stocked (s : Store) : Prop extends Hosts s where
  hasGrammar : s.HasGrammar grammar

theorem kindLabel_token (l : Lexeme) : (grammar.kindLabel l.token.kind).isMissing = false := by
  rw [Lexeme.token]
  cases l.kind <;> rfl

/-- There are fewer statements than tokens. -/
theorem Program.length_statements_lt (l : Lexing) : (Program.ofLexing l).statements.length < l.toList.length := by
  obtain ⟨htokens, hne⟩ := statementsFrom_spec Lexeme.kind (Nat.le_refl l.lexemes.length)
  have hone : ∀ n ∈ (Calc.statements Lexeme.kind l.lexemes).map (·.tokens.length), 1 ≤ n := by
    intro n hn
    obtain ⟨st, hst, rfl⟩ := List.mem_map.mp hn
    exact List.length_pos_iff.mpr (hne st hst)
  have hle := List.length_le_sum_of_one_le _ hone
  rw [List.length_map, ← List.length_flatMap, flatMap_tokens_statements] at hle
  rw [Program.ofLexing, Lexing.toList, List.length_append]
  exact Nat.lt_succ_of_le hle

/-- No row of a source is longer than lists can be, unless it has too many tokens. -/
theorem rowLengths_tree_lt (source : Source) (h : (lex source.text).toList.length < Sequence.lengthBound) :
    ∀ n ∈ ((Program.ofLexing (lex source.text)).map Lexeme.token).tree.rowLengths, n < Sequence.lengthBound := by
  intro n hn
  have hstatements := Program.length_statements_lt (lex source.text)
  rcases Program.rowLengths_tree _ n hn with rfl | rfl
  · rw [Program.map, List.length_map]
    omega
  · decide

/-- The tree of a source is rendered as its structure is. -/
theorem parse_rendered {s : Store} (h : Stocked s) (source : Source) : ∃ root t,
    parseValue (.text source.text) s = (.ok root, t) ∧
    ((Program.ofLexing (lex source.text)).map Lexeme.token).tree.IsAt t (.object root) ∧
    ∀ format, t.render (.object grammarId) format (.object root) =
      ((Program.ofLexing (lex source.text)).map Lexeme.token).tree.rendered grammar format := by
  obtain ⟨root, t, hrun, hk, htree⟩ := parse_tree h.toHosts source
  refine ⟨root, t, hrun, htree, htree.render (h.hasGrammar.keeps hk) fun token htoken => ?_⟩
  rw [Program.tree_map, Tree.tokens_map] at htoken
  obtain ⟨l, _, rfl⟩ := List.mem_map.mp htoken
  exact kindLabel_token l

/-- Sources whose tokens have the same kinds have the same tree, up to the tokens in it: there is one structure over
pairs of tokens, the tokens at the same place in both sources, and either tree is that structure with the tokens of its
source. If the texts of the tokens have the same lengths too, both trees are rendered alike in the compact format. A
tree is rendered unless it has more statements than lists can hold. -/
theorem parse_pattern {s₁ s₂ : Store} (h₁ : Stocked s₁) (h₂ : Stocked s₂) {first second : Source} {ts₁ ts₂ : List Token}
    (hts₁ : tokens s₁ (.text first.text) = .ok ts₁) (hts₂ : tokens s₂ (.text second.text) = .ok ts₂)
    (hkinds : ts₁.map Token.kind = ts₂.map Token.kind) :
    ∃ (tree : Tree (Token × Token)) (root₁ root₂ : ObjectId) (t₁ t₂ : Store),
      parseValue (.text first.text) s₁ = (.ok root₁, t₁) ∧ parseValue (.text second.text) s₂ = (.ok root₂, t₂) ∧
      tree.tokens = ts₁.zip ts₂ ∧ (tree.map Prod.fst).IsAt t₁ (.object root₁) ∧
      (tree.map Prod.snd).IsAt t₂ (.object root₂) ∧
      (ts₁.map Token.width = ts₂.map Token.width →
        t₁.render (.object grammarId) .compact (.object root₁) =
          t₂.render (.object grammarId) .compact (.object root₂)) ∧
      (ts₁.length < Sequence.lengthBound →
        ∃ data₁ data₂, t₁.render (.object grammarId) .compact (.object root₁) = .ok data₁ ∧
          t₂.render (.object grammarId) .compact (.object root₂) = .ok data₂) := by
  obtain rfl := Except.ok.inj hts₁
  obtain rfl := Except.ok.inj hts₂
  have hlexemes : (lex first.text).toList.map Lexeme.kind = (lex second.text).toList.map Lexeme.kind := by
    have hinjective : Function.Injective fun k : Kind => Value.ofNat k.id := fun _ _ => Kind.eq_of_id
    refine List.map_injective_iff.mpr hinjective ?_
    rw [List.map_map, List.map_map]
    rwa [List.map_map, List.map_map] at hkinds
  obtain ⟨p, hfst, hsnd, htokens⟩ := exists_pairs hlexemes
  obtain ⟨root₁, t₁, hrun₁, htree₁, hrender₁⟩ := parse_rendered h₁ first
  obtain ⟨root₂, t₂, hrun₂, htree₂, hrender₂⟩ := parse_rendered h₂ second
  have hlength : (lex first.text).toList.length = (lex second.text).toList.length := by
    simpa using congrArg List.length hlexemes
  let tree := (p.map (Prod.map Lexeme.token Lexeme.token)).tree
  have hfst' : tree.map Prod.fst = ((Program.ofLexing (lex first.text)).map Lexeme.token).tree := by
    rw [← hfst, Program.map_map, ← Program.tree_map, Program.map_map]
    rfl
  have hsnd' : tree.map Prod.snd = ((Program.ofLexing (lex second.text)).map Lexeme.token).tree := by
    rw [← hsnd, Program.map_map, ← Program.tree_map, Program.map_map]
    rfl
  have hzip : tree.tokens =
      ((lex first.text).toList.map Lexeme.token).zip ((lex second.text).toList.map Lexeme.token) := by
    rw [List.zip_map, ← htokens, ← Program.tokens_tree, ← Tree.tokens_map, ← Program.tree_map]
  refine ⟨tree, root₁, root₂, t₁, t₂, hrun₁, hrun₂, hzip, hfst' ▸ htree₁, hsnd' ▸ htree₂, fun hwidths => ?_,
    fun hshort => ?_⟩
  · rw [hrender₁, hrender₂, ← hfst', ← hsnd']
    refine Tree.rendered_congr fun x hx => ?_
    rw [hzip] at hx
    have hkind : x.1.kind = x.2.kind := eq_of_mem_zip hkinds x hx
    have hwidth : x.1.width = x.2.width := eq_of_mem_zip hwidths x hx
    rw [Token.rendered, Token.rendered, hkind, hwidth]
  · rw [List.length_map] at hshort
    obtain ⟨data₁, hdata₁⟩ := Tree.exists_rendered (rowLengths_tree_lt first hshort)
    obtain ⟨data₂, hdata₂⟩ := Tree.exists_rendered (rowLengths_tree_lt second (hlength ▸ hshort))
    exact ⟨data₁, data₂, (hrender₁ _).trans hdata₁, (hrender₂ _).trans hdata₂⟩

/-- An assignment of an unfinished sum in an unclosed parenthesis, with a comment. -/
def spaced : Source := ⟨"a = (1 + // c\n ;", by decide⟩

/-- Tokens of the same kinds and lengths without anything between them. -/
def tight : Source := ⟨"x=(2+;", by decide⟩

theorem stocked_start : Stocked start := ⟨hosts_start, rfl, rfl⟩

theorem spaced_tight_pattern : ∃ ts₁ ts₂ : List Token,
    tokens start (.text spaced.text) = .ok ts₁ ∧ tokens start (.text tight.text) = .ok ts₂ ∧
    ts₁.map Token.kind = ts₂.map Token.kind ∧ ts₁.map Token.width = ts₂.map Token.width ∧ ts₁ ≠ ts₂ ∧
    ∃ (tree : Tree (Token × Token)) (root₁ root₂ : ObjectId) (t₁ t₂ : Store) (data : Data),
      parseValue (.text spaced.text) start = (.ok root₁, t₁) ∧
      parseValue (.text tight.text) start = (.ok root₂, t₂) ∧ tree.tokens = ts₁.zip ts₂ ∧
      (tree.map Prod.fst).IsAt t₁ (.object root₁) ∧ (tree.map Prod.snd).IsAt t₂ (.object root₂) ∧
      t₁.render (.object grammarId) .compact (.object root₁) = .ok data ∧
      t₂.render (.object grammarId) .compact (.object root₂) = .ok data := by
  have hkinds : ((lex spaced.text).toList.map Lexeme.token).map Token.kind =
      ((lex tight.text).toList.map Lexeme.token).map Token.kind := by decide +kernel
  have hwidths : ((lex spaced.text).toList.map Lexeme.token).map Token.width =
      ((lex tight.text).toList.map Lexeme.token).map Token.width := by decide +kernel
  have hshort : ((lex spaced.text).toList.map Lexeme.token).length < Sequence.lengthBound := by decide +kernel
  refine ⟨_, _, rfl, rfl, hkinds, hwidths, by decide +kernel, ?_⟩
  obtain ⟨tree, root₁, root₂, t₁, t₂, hrun₁, hrun₂, hzip, htree₁, htree₂, hsame, hrendered⟩ :=
    parse_pattern stocked_start stocked_start rfl rfl hkinds
  obtain ⟨data, _, hdata, _⟩ := hrendered hshort
  exact ⟨tree, root₁, root₂, t₁, t₂, data, hrun₁, hrun₂, hzip, htree₁, htree₂, hdata, (hsame hwidths).symm.trans hdata⟩

end Calc

end LosslessSyntax
