import LosslessSyntax.Calc.Source
import LosslessSyntax.Proofs.Forest
import LosslessSyntax.Proofs.Growing
import LosslessSyntax.Proofs.Parsing

/-!
# Lossless parsing

Every source of the calculator language has a tree, with its tokens in order and its text.

Planting follows the constructors of programs: what is planted for an expression or a statement is made of its tokens
and of nothing else (`plantExpr_spec`, `plantStatement_spec`), so that no check on children can fail. The tokens of the
whole tree are then those of the program, which are those of the source, and they tile it.
-/

namespace LosslessSyntax.Calc

open Store

variable {s t : Store}

/-- A store in which trees of the calculator language can be made. -/
structure Hosts (s : Store) : Prop where
  grounded : s.Grounded
  closed : s.Closed
  variants : ∀ k : NodeKind, s.object? k.variant.self = some (.variant k.variant)

theorem Hosts.keeps (h : Hosts s) (hk : s.Keeps t) (ht : t.Grounded) (hc : t.Closed) : Hosts t :=
  ⟨ht, hc, fun k => by rw [hk.object (lt_size_of_object? (h.variants k)), h.variants k]⟩

theorem Hosts.lt_size (h : Hosts s) (k : NodeKind) : k.variant.self < s.size := lt_size_of_object? (h.variants k)

/-! ## Nodes -/

theorem children_tokenSlot (id : ObjectId) : (tokenSlot id).children = [id].map .object := rfl

theorem children_optionalTokenSlot (id : Option ObjectId) :
    (optionalTokenSlot id).children = id.toList.map .object := by
  cases id <;> rfl

/-- Slots in the order of a layout, with what is given for them. -/
theorem fills (k : NodeKind) {slots : Members SlotValue} {cs : List ObjectId}
    (hdeclared : slots.map (fun entry => (entry.1, entry.2.arity)) = k.layout)
    (hchildren : slots.flatMap (·.2.children) = cs.map .object) : Fills slots k.variant.layout cs := by
  have hlayout : k.layout.names.Nodup ∧ k.layout.has baseName = false := by cases k <;> decide
  exact ⟨hdeclared, hlayout.1, hlayout.2, hchildren⟩

/-- A node is made of what was planted, in the order of its slots. -/
theorem make_spec (h : Hosts s) (k : NodeKind) (hk : k ≠ .sourceFile) (slots : Members SlotValue)
    {ts cs : List ObjectId} {o : Outline} (hplanted : s.Planted t ts cs o) (hts : ts ≠ [])
    (hdeclared : slots.map (fun entry => (entry.1, entry.2.arity)) = k.layout)
    (hchildren : slots.flatMap (·.2.children) = cs.map .object) :
    ∃ id o u, make k slots t = (.ok (.object id), u) ∧ s.Planted u ts [id] o := by
  obtain ⟨id, u, hrun, hnode⟩ :=
    hplanted.node hts (h.lt_size k) (decide_eq_false hk) (fills k hdeclared hchildren)
  refine ⟨id, _, u, ?_, hnode⟩
  exact Building.bind_ok hrun

/-! ## Expressions -/

/-- Work that makes what stands in a slot for a single child, or leaves the slot empty. -/
def Plants (work : Building Value) (s : Store) (ts : List ObjectId) : Prop :=
  ∃ v cs o t, work s = (.ok v, t) ∧ s.Planted t ts cs o ∧ (SlotValue.one v).children = cs.map .object

/-- Tokens before and after what is planted go into other slots of the same node. -/
theorem Plants.between (h : Hosts s) {work : Building Value} {ts : List ObjectId} (hwork : Plants work s ts)
    (before after : List ObjectId) (hts : ∀ id ∈ before ++ (ts ++ after), s.LooseToken id)
    (hnodup : (before ++ (ts ++ after)).Nodup) : ∃ v cs o t, work s = (.ok v, t) ∧
      s.Planted t (before ++ (ts ++ after)) (before ++ (cs ++ after)) o ∧
      (SlotValue.one v).children = cs.map .object := by
  obtain ⟨v, cs, o, t, hrun, hplanted, hv⟩ := hwork
  obtain ⟨hbefore, hrest, _⟩ := List.nodup_append.mp hnodup
  obtain ⟨_, hafter, _⟩ := List.nodup_append.mp hrest
  have hdisjoint := List.disjoint_of_nodup_append hrest
  have htsAfter : ∀ id ∈ after, s.LooseToken id := fun id hid => hts id (by simp [hid])
  obtain ⟨o₁, hfirst⟩ :=
    Planted.ofTokens h.grounded h.closed (fun id hid => hts id (List.mem_append_left _ hid)) hbefore
  obtain ⟨o₂, hlast⟩ := Planted.ofTokens hplanted.grounded hplanted.closed
    (hplanted.looseToken h.grounded htsAfter hdisjoint) hafter
  refine ⟨v, cs, _, t, hrun, hfirst.append (hplanted.append hlast htsAfter hdisjoint) ?_ ?_, hv⟩
  · exact fun id hid => hts id (List.mem_append_right _ hid)
  · exact List.disjoint_of_nodup_append hnodup

/-- Every expression of loose and distinct tokens can be planted. The induction is on the expression, for any store. -/
theorem plantExpr_spec (h : Hosts s) (e : Expr ObjectId) (hts : ∀ id ∈ e.tokens, s.LooseToken id)
    (hnodup : e.tokens.Nodup) : Plants (plantExpr e) s e.tokens := by
  induction e generalizing s with
  | missing =>
    obtain ⟨o, hnone⟩ := Planted.ofTokens h.grounded h.closed hts hnodup
    exact ⟨.null, [], o, s, rfl, hnone, rfl⟩
  | number value =>
    obtain ⟨o, htoken⟩ := Planted.ofTokens h.grounded h.closed hts hnodup
    obtain ⟨id, o, t, hrun, hplanted⟩ := make_spec h .numberLiteral (by decide) [("value", tokenSlot value)] htoken
      (List.cons_ne_nil _ _) rfl rfl
    exact ⟨.object id, [id], o, t, hrun, hplanted, rfl⟩
  | name token =>
    obtain ⟨o, htoken⟩ := Planted.ofTokens h.grounded h.closed hts hnodup
    obtain ⟨id, o, t, hrun, hplanted⟩ := make_spec h .nameExpression (by decide) [("name", tokenSlot token)] htoken
      (List.cons_ne_nil _ _) rfl rfl
    exact ⟨.object id, [id], o, t, hrun, hplanted, rfl⟩
  | paren opening inner closing ih =>
    have hinner := ih h (fun id hid => hts id (by simp [Expr.tokens, hid]))
      (List.nodup_append.mp (List.nodup_cons.mp hnodup).2).1
    obtain ⟨v, cs, o, t, hrun, hplanted, hv⟩ := hinner.between h [opening] closing.toList hts hnodup
    obtain ⟨id, o, u, hmake, hplanted⟩ := make_spec h .parenthesizedExpression (by decide)
      [("openParen", tokenSlot opening), ("expression", .one v), ("closeParen", optionalTokenSlot closing)] hplanted
      (List.cons_ne_nil _ _) rfl (by simp [children_tokenSlot, children_optionalTokenSlot, hv])
    refine ⟨.object id, [id], o, u, ?_, hplanted, rfl⟩
    exact (Building.bind_ok hrun).trans hmake
  | binary left operator right ihl ihr =>
    obtain ⟨hleft, hrest, _⟩ := List.nodup_append.mp hnodup
    have hdisjoint := List.disjoint_of_nodup_append hnodup
    have htsRest : ∀ id ∈ operator :: right.tokens, s.LooseToken id := fun id hid =>
      hts id (List.mem_append_right _ hid)
    obtain ⟨v, cs, o, t, hrun, hplanted, hv⟩ := ihl h (fun id hid => hts id (List.mem_append_left _ hid)) hleft
    have ht := h.keeps hplanted.keeps hplanted.grounded hplanted.closed
    have htsRest' := hplanted.looseToken h.grounded htsRest hdisjoint
    have hright := ihr ht (fun id hid => htsRest' id (List.mem_cons_of_mem _ hid)) (List.nodup_cons.mp hrest).2
    obtain ⟨w, cs', o', t', hrun', hplanted', hw⟩ := hright.between ht [operator] [] (by simpa using htsRest')
      (by simpa using hrest)
    rw [List.append_nil, List.append_nil] at hplanted'
    obtain ⟨id, o, u, hmake, hplanted⟩ := make_spec h .binaryExpression (by decide)
      [("left", .one v), ("operator", tokenSlot operator), ("right", .one w)]
      (hplanted.append hplanted' htsRest hdisjoint) (by simp) rfl (by simp [children_tokenSlot, hv, hw])
    refine ⟨.object id, [id], o, u, ?_, hplanted, rfl⟩
    exact (Building.bind_ok hrun).trans ((Building.bind_ok hrun').trans hmake)

/-! ## Programs -/

theorem plantStatement_spec (h : Hosts s) (st : Statement ObjectId) (hne : st.tokens ≠ [])
    (hts : ∀ id ∈ st.tokens, s.LooseToken id) (hnodup : st.tokens.Nodup) :
    ∃ id o t, plantStatement st s = (.ok (.object id), t) ∧ s.Planted t st.tokens [id] o := by
  cases st with
  | assignment name equals value semicolon =>
    have hvalue := plantExpr_spec h value (fun id hid => hts id (by simp [Statement.tokens, hid]))
      (List.nodup_append.mp (List.nodup_cons.mp (List.nodup_cons.mp hnodup).2).2).1
    obtain ⟨v, cs, o, t, hrun, hplanted, hv⟩ := hvalue.between h [name, equals] semicolon.toList hts hnodup
    obtain ⟨id, o, u, hmake, hplanted⟩ := make_spec h .assignmentStatement (by decide)
      [("name", tokenSlot name), ("equals", tokenSlot equals), ("value", .one v),
        ("semicolon", optionalTokenSlot semicolon)] hplanted hne rfl
      (by simp [children_tokenSlot, children_optionalTokenSlot, hv])
    refine ⟨id, o, u, ?_, hplanted⟩
    exact (Building.bind_ok hrun).trans hmake
  | expression e semicolon =>
    have he := plantExpr_spec h e (fun id hid => hts id (List.mem_append_left _ hid)) (List.nodup_append.mp hnodup).1
    obtain ⟨v, cs, o, t, hrun, hplanted, hv⟩ := he.between h [] semicolon.toList hts hnodup
    obtain ⟨id, o, u, hmake, hplanted⟩ := make_spec h .expressionStatement (by decide)
      [("expression", .one v), ("semicolon", optionalTokenSlot semicolon)] hplanted hne rfl
      (by simp [children_optionalTokenSlot, hv])
    refine ⟨id, o, u, ?_, hplanted⟩
    exact (Building.bind_ok hrun).trans hmake
  | skipped token =>
    obtain ⟨o, htoken⟩ := Planted.ofTokens h.grounded h.closed hts hnodup
    exact make_spec h .skippedTokens (by decide) [("tokens", .many [.object token])] htoken hne rfl rfl

/-- Statements are planted one after the other. -/
theorem plantStatements_spec (h : Hosts s) {sts : List (Statement ObjectId)} (hne : ∀ st ∈ sts, st.tokens ≠ [])
    (hts : ∀ id ∈ sts.flatMap Statement.tokens, s.LooseToken id) (hnodup : (sts.flatMap Statement.tokens).Nodup) :
    ∃ cs o t, sts.mapM plantStatement s = (.ok (cs.map .object), t) ∧
      s.Planted t (sts.flatMap Statement.tokens) cs o := by
  induction sts generalizing s with
  | nil =>
    obtain ⟨o, hnone⟩ := Planted.ofTokens h.grounded h.closed hts hnodup
    exact ⟨[], o, s, rfl, hnone⟩
  | cons st sts ih =>
    rw [List.flatMap_cons] at hts hnodup
    obtain ⟨hfirst, hrest, _⟩ := List.nodup_append.mp hnodup
    have hdisjoint := List.disjoint_of_nodup_append hnodup
    have htsRest : ∀ id ∈ sts.flatMap Statement.tokens, s.LooseToken id := fun id hid =>
      hts id (List.mem_append_right _ hid)
    obtain ⟨id, o, t, hrun, hplanted⟩ := plantStatement_spec h st (hne st List.mem_cons_self)
      (fun id hid => hts id (List.mem_append_left _ hid)) hfirst
    have ht := h.keeps hplanted.keeps hplanted.grounded hplanted.closed
    obtain ⟨cs, o', u, hrun', hplanted'⟩ := ih ht (fun st hst => hne st (List.mem_cons_of_mem _ hst))
      (hplanted.looseToken h.grounded htsRest hdisjoint) hrest
    refine ⟨id :: cs, _, u, ?_, hplanted.append hplanted' htsRest hdisjoint⟩
    rw [List.mapM_cons, Building.bind_ok hrun, Building.bind_ok hrun']
    rfl

/-- The tokens of a program in the order of the source, the end of the file last. -/
def Program.tokens {α : Type} (p : Program α) : List α := p.statements.flatMap Statement.tokens ++ [p.endOfFile]

/-- Every program of loose and distinct tokens can be planted, and its tree has these tokens. -/
theorem plant_spec (h : Hosts s) (source : Source) {p : Program ObjectId} (hne : ∀ st ∈ p.statements, st.tokens ≠ [])
    (hts : ∀ id ∈ p.tokens, s.LooseToken id) (hnodup : p.tokens.Nodup) {eof : Token}
    (heof : s.token? p.endOfFile = some eof) (hkind : eof.kind.same (.ofNat Kind.endOfFile.id) = true) :
    ∃ root o t, plant source p s = (.ok root, t) ∧ Hosts t ∧ s.Keeps t ∧ t.Bears root o ∧
      o.tokens.map Prod.fst = p.tokens ∧ t.isSourceFile root = true ∧
      t.source (.object root) = .ok (.text source.text) ∧ t.Branch root (p.endOfFile, eof) root o := by
  have hdisjoint := List.disjoint_of_nodup_append hnodup
  obtain ⟨cs, o, t, hrun, hplanted⟩ := plantStatements_spec h hne
    (fun id hid => hts id (List.mem_append_left _ hid)) (List.nodup_append.mp hnodup).1
  have htsLast : ∀ id ∈ [p.endOfFile], s.LooseToken id := fun id hid => hts id (List.mem_append_right _ hid)
  obtain ⟨o', hlast⟩ := Planted.ofTokens hplanted.grounded hplanted.closed
    (hplanted.looseToken h.grounded htsLast hdisjoint) (List.nodup_append.mp hnodup).2.1
  have hall := hplanted.append hlast htsLast hdisjoint
  have heof' : t.token? p.endOfFile = some eof := by
    rw [h.grounded.token?_keeps hplanted.keeps (lt_size_of_token? heof), heof]
  obtain ⟨root, u, hfile, ⟨hkeeps, hground, hclosed⟩, hbears, hisFile, hsource, hbranch⟩ :=
    hall.file (by simp) grammar (h.lt_size .sourceFile) source
      [("statements", .many (cs.map .object)), (endOfFileSlot, tokenSlot p.endOfFile)]
      (fills .sourceFile rfl (by rw [List.map_append]; rfl)) (by simp [tokenSlot]) heof' hkind
  refine ⟨root, _, u, ?_, h.keeps hkeeps hground hclosed, hkeeps, hbears, hall.tokens, hisFile, hsource, hbranch⟩
  exact (Building.bind_ok hrun).trans hfile

/-! ## Sources -/

theorem parseValue_text (source : Source) : parseValue (.text source.text) = parse source := by
  rw [parseValue, parseValueM, Source.ofText?, dif_pos source.length_le]
  rfl

theorem kind_endOfFile_lexFrom (count offset : Nat) (t : Text) :
    (lexFrom count offset t).endOfFile.kind = .endOfFile := by
  induction count generalizing offset t with
  | zero => rfl
  | succ count ih =>
    rw [lexFrom]
    cases t.drop (triviaLength false t) with
    | nil => rfl
    | cons u rest => exact ih ..

/-- Tokens with numbers in a row are told by their numbers. -/
theorem eq_zipIdx {base : Nat} {ts : List Token} {es : List (ObjectId × Token)}
    (hnumbers : es.map Prod.fst = List.range' base ts.length)
    (htokens : ∀ e ∈ es, ∀ i : Nat, e.1 = base + i → ts[i]? = some e.2) :
    es = (ts.zipIdx base).map fun e => (e.2, e.1) := by
  induction ts generalizing base es with
  | nil => exact List.map_eq_nil_iff.mp hnumbers
  | cons t ts ih =>
    obtain ⟨e, es, rfl, he, hrest⟩ := List.map_eq_cons_iff.mp hnumbers
    have ht := htokens e List.mem_cons_self 0 he
    rw [List.getElem?_cons_zero] at ht
    rw [List.zipIdx_cons, List.map_cons, ← ih hrest fun e he i hi => ?_]
    · rw [Option.some.inj ht, ← he]
    · have := htokens e (List.mem_cons_of_mem _ he) (i + 1) (hi.trans (Nat.succ_add_eq_add_succ ..))
      rwa [List.getElem?_cons_succ] at this

theorem tokens_ofKinds (base : Nat) (kinds : List Kind) :
    (Program.ofKinds base kinds).tokens = List.range' base (kinds.length + 1) := by
  rw [Program.tokens, flatMap_tokens_ofKinds, List.range'_concat, Nat.one_mul]
  rfl

/-- The tokens of a source can be added to any store. -/
theorem untouched_addTokens (h : Hosts s) (ls : List Lexeme) :
    s.Untouched (s.addAll (ls.map fun l => .token l.token)) := by
  refine untouched_addAll h.grounded h.closed fun o ho => ?_
  obtain ⟨l, _, rfl⟩ := List.mem_map.mp ho
  refine Object.refers_of_members nofun fun entry hentry => ?_
  simp only [Object.hidden, Object.listed, Token.members, List.nil_append, List.mem_cons, List.not_mem_nil,
    or_false] at hentry
  rcases hentry with rfl | rfl | rfl | rfl | rfl <;> trivial

/-- The tree of a source has the tokens of the source, numbered from the end of the store on, and ends with the last of
them. -/
theorem parse_branch (h : Hosts s) (source : Source) : ∃ root o t, parse source s = (.ok root, t) ∧ Hosts t ∧
    t.Bears root o ∧
    o.tokens = (((lex source.text).toList.map Lexeme.token).zipIdx s.size).map (fun e => (e.2, e.1)) ∧
    t.isSourceFile root = true ∧ t.source (.object root) = .ok (.text source.text) ∧
    t.Branch root (s.size + (lex source.text).lexemes.length, (lex source.text).endOfFile.token) root o := by
  let lexing := lex source.text
  let added := s.addAll (lexing.toList.map fun l => .token l.token)
  let program := Program.ofKinds s.size (lexing.lexemes.map Lexeme.kind)
  have huntouched : s.Untouched added := untouched_addTokens h lexing.toList
  have hadded : Hosts added := h.keeps huntouched.keeps huntouched.grounded huntouched.closed
  have hlength : lexing.toList.length = lexing.lexemes.length + 1 := List.length_append
  have hprogram : program.tokens = List.range' s.size lexing.toList.length := by
    rw [tokens_ofKinds, List.length_map, hlength]
  have hfound : ∀ {i : Nat} {l}, lexing.toList[i]? = some l →
      added.LooseToken (s.size + i) ∧ added.token? (s.size + i) = some l.token := by
    intro i l hl
    exact looseToken_addAll hadded.grounded (by rw [List.getElem?_map, hl]; rfl)
  have hloose : ∀ id ∈ program.tokens, added.LooseToken id := by
    intro id hid
    rw [hprogram] at hid
    obtain ⟨i, hi, rfl⟩ := List.mem_range'.mp hid
    rw [Nat.one_mul]
    exact (hfound (List.getElem?_eq_getElem hi)).1
  have hend : program.endOfFile = s.size + lexing.lexemes.length := by
    show s.size + (lexing.lexemes.map Lexeme.kind).length = _
    rw [List.length_map]
  have heof : added.token? program.endOfFile = some lexing.endOfFile.token := by
    rw [hend]
    exact (hfound List.getElem?_concat_length).2
  have hkind : lexing.endOfFile.token.kind.same (.ofNat Kind.endOfFile.id) = true := by
    have hlast : lexing.endOfFile.kind = .endOfFile := kind_endOfFile_lexFrom ..
    rw [Lexeme.token, hlast]
    exact (by decide : (Value.ofNat Kind.endOfFile.id).same (.ofNat Kind.endOfFile.id) = true)
  obtain ⟨root, o, t, hrun, ht, hkeeps, hbears, htokens, hisFile, hsource, hbranch⟩ :=
    plant_spec hadded source (tokens_ne_nil_ofKinds s.size _) hloose (hprogram ▸ List.nodup_range') heof hkind
  refine ⟨root, o, t, hrun, ht, hbears, eq_zipIdx ?_ fun e he i hi => ?_, hisFile, hsource, hend ▸ hbranch⟩
  · rw [htokens, hprogram, List.length_map]
  · obtain ⟨n, rows, _, _, _, hgrows⟩ := hbears
    have hmem : e.1 ∈ List.range' s.size lexing.toList.length := by
      rw [← hprogram, ← htokens]
      exact List.mem_map.mpr ⟨e, he, rfl⟩
    have hlt : i < lexing.toList.length := by
      rw [hi, List.mem_range'_1] at hmem
      exact Nat.lt_of_add_lt_add_left hmem.2
    have hl := List.getElem?_eq_getElem hlt
    have htoken := (hgrows.isNode_token? e he).2
    rw [hi, hadded.grounded.token?_keeps hkeeps (hfound hl).1.loose.lt_size, (hfound hl).2] at htoken
    rw [List.getElem?_map, hl, Option.map_some, Option.some.inj htoken]

theorem parse_spec (h : Hosts s) (source : Source) : ∃ root o t, parse source s = (.ok root, t) ∧ Hosts t ∧
    t.Bears root o ∧
    o.tokens = (((lex source.text).toList.map Lexeme.token).zipIdx s.size).map (fun e => (e.2, e.1)) ∧
    t.isSourceFile root = true ∧ t.source (.object root) = .ok (.text source.text) := by
  obtain ⟨root, o, t, hrun, ht, hbears, htokens, hisFile, hsource, _⟩ := parse_branch h source
  exact ⟨root, o, t, hrun, ht, hbears, htokens, hisFile, hsource⟩

theorem tiles_tokens (source : Text) (base : Nat) : Token.Tiles 0
    (((((lex source).toList.map Lexeme.token).zipIdx base).map fun e => (e.2, e.1)).map Prod.snd) source.length := by
  rw [List.map_map]
  simpa [Function.comp_def] using tiles_lex source

/-- Every source has a tree. A walk over its tokens hands out the tokens of the source, each once and in order, and its
full text is the source. Trees can be made after that as before. -/
theorem parse_lossless (h : Hosts s) (source : Source) : ∃ root t ts, parseValue (.text source.text) s = (.ok root, t) ∧
    t.isSourceFile root = true ∧ tokens s (.text source.text) = .ok ts ∧
    Walk.Lists t .tokens (.object root) ((ts.zipIdx s.size).map fun e => .token e.2 e.1) ∧
    t.fullText (.object root) = .ok source.text ∧ Hosts t := by
  obtain ⟨root, o, t, hrun, ht, hbears, htokens, hisFile, hsource⟩ := parse_spec h source
  have htiles : Token.Tiles 0 (o.tokens.map Prod.snd) source.text.length := by
    rw [htokens]
    exact tiles_tokens source.text s.size
  have hne : o.tokens ≠ [] := by
    obtain ⟨e, he⟩ := hbears.exists_first
    exact List.ne_nil_of_mem (List.mem_of_head? (Outline.head?_tokens he))
  refine ⟨root, t, _, ?_, hisFile, rfl, ?_, ?_, ht⟩
  · rw [parseValue_text]
    exact hrun
  · have hlists := (hbears.outlines ht.grounded).lists_tokens hbears.clean
    rwa [htokens, List.map_map] at hlists
  · rw [(hbears.outlines ht.grounded).fullText hbears.clean hsource source.length_le htiles (Nat.le_refl _) hne]
    simp

/-- The store with nothing but the grammar of the language. -/
def start : Store := Store.empty.addAll grammar.objects

theorem hosts_start : Hosts start := by
  have hobjects : ∀ o ∈ grammar.objects, o.items?.isNone = true ∧
      ∀ entry ∈ o.hidden ++ o.listed, entry.2.Within (Store.empty.size + grammar.objects.length) := by decide +kernel
  have huntouched : Store.empty.Untouched start := untouched_addAll grounded_empty closed_empty fun o ho => by
    obtain ⟨hlist, hmembers⟩ := hobjects o ho
    refine Object.refers_of_members ?_ hmembers
    rintro items m isSealed rfl
    cases hlist
  exact ⟨huntouched.grounded, huntouched.closed, fun k => by cases k <;> rfl⟩

/-- A source with a missing operand, an unclosed parenthesis, a comment, a token that is skipped and a lone surrogate. -/
def broken : Source := ⟨("a = (1 + ; // b\n) x)" : Text) ++ [0xD800], by decide⟩

theorem broken_lossless : Hosts start ∧ ∃ root t ts, parseValue (.text broken.text) start = (.ok root, t) ∧
    t.isSourceFile root = true ∧ tokens start (.text broken.text) = .ok ts ∧
    Walk.Lists t .tokens (.object root) ((ts.zipIdx start.size).map fun e => .token e.2 e.1) ∧
    t.fullText (.object root) = .ok broken.text ∧ Hosts t :=
  ⟨hosts_start, parse_lossless hosts_start broken⟩

end LosslessSyntax.Calc
