import LosslessSyntax.Proofs.Depicting
import LosslessSyntax.Proofs.Lexing

/-!
# Printed programs

Parsing undoes printing on the well-formed programs of the calculator language.

* `Formed`, `Statement.Formed`: well-formed expressions and statements, with texts for tokens. Chains are nested to the
  left, and a semicolon may be left out.
* `Prints`: words one after the other with blanks between them, and maybe after the last one.
* `Formed.reads`: a well-formed expression is read back, whatever follows it that does not go on with it. The induction
  is over chains that are still to be gone on with, which is how left-nested ones are read.
* `Prints.lexes`: printed words are lexed as they are.
-/

namespace LosslessSyntax.Calc

/-! ## Well-formed programs -/

/-- The words for the operators of a chain. -/
def Chain.operators : Chain → List Text
  | .term => ["*", "/"]
  | .sum => ["+", "-"]

/-- Well-formed primaries and chains. -/
inductive Formed : Goal Text → Expr Text → Prop
  | number {text : Text} (word : Word .number text []) : Formed .primary (.number text)
  | name {text : Text} (word : Word .identifier text []) : Formed .primary (.name text)
  | paren {inner : Expr Text} (inside : Formed (.chain .sum) inner) : Formed .primary (.paren "(" inner (some ")"))
  | operand {c : Chain} {e : Expr Text} (single : Formed c.operand e) : Formed (.chain c) e
  | binary {c : Chain} {left right : Expr Text} {operator : Text} (first : Formed (.chain c) left)
      (between : operator ∈ c.operators) (second : Formed c.operand right) :
      Formed (.chain c) (.binary left operator right)

/-- Well-formed statements. -/
def Statement.Formed : Statement Text → Prop
  | .assignment name equals value semicolon =>
    Word .identifier name [] ∧ equals = "=" ∧ Calc.Formed (.chain .sum) value ∧ ∀ w ∈ semicolon, w = ";"
  | .expression e semicolon => Calc.Formed (.chain .sum) e ∧ ∀ w ∈ semicolon, w = ";"
  | .skipped _ => False

/-- Words one after the other, with some blanks between any two of them and maybe after the last. -/
inductive Prints : List Text → Text → Prop
  | nil : Prints [] []
  | word {word gap text : Text} {words : List Text} (blank : gap ⊆ blanks) (apart : words ≠ [] → gap ≠ [])
      (more : Prints words text) : Prints (word :: words) (word ++ (gap ++ text))

/-! ## Words -/

/-- The kind of a word. -/
def wordKind : Text → Kind
  | [] => .unknown
  | u :: tail => (significant u tail).1

/-- A word that stands by itself, of a known kind. -/
def IsWord (w : Text) : Prop := Word (wordKind w) w [] ∧ wordKind w ≠ .unknown

theorem Word.wordKind_eq {kind : Kind} {text : Text} (h : Word kind text []) : wordKind text = kind := by
  obtain ⟨u, tail, rfl, hsignificant⟩ := h.significant_eq
  rw [List.append_nil] at hsignificant
  rw [wordKind, hsignificant]

theorem Word.isWord {kind : Kind} {text : Text} (h : Word kind text []) (hknown : kind ≠ .unknown) : IsWord text := by
  rw [IsWord, h.wordKind_eq]
  exact ⟨h, hknown⟩

/-- Words that are marks. -/
def markWords : List Text := ["=", "+", "-", "*", "/", "(", ")", ";"]

theorem isWord_mark {w : Text} (h : w ∈ markWords) : IsWord w := by
  have hmarks : markWords = marks.map fun mark => [mark.1] := by decide
  rw [hmarks] at h
  obtain ⟨mark, hmark, rfl⟩ := List.mem_map.mp h
  exact Word.isWord (.mark hmark) (mem_marks.mp hmark).2

theorem Chain.mem_markWords {c : Chain} {w : Text} (h : w ∈ c.operators) : w ∈ markWords := by
  cases c with
  | term => exact (by decide : ∀ w ∈ Chain.term.operators, w ∈ markWords) w h
  | sum => exact (by decide : ∀ w ∈ Chain.sum.operators, w ∈ markWords) w h

/-- All words of a well-formed expression are words. -/
theorem Formed.isWord {g : Goal Text} {e : Expr Text} (h : Formed g e) : ∀ w ∈ e.tokens, IsWord w := by
  induction h with
  | number word => simpa [Expr.tokens] using word.isWord (by decide)
  | name word => simpa [Expr.tokens] using word.isWord (by decide)
  | paren inside ih =>
    intro w hw
    simp only [Expr.tokens, Option.toList_some, List.mem_cons, List.mem_append, List.not_mem_nil, or_false] at hw
    rcases hw with rfl | hw | rfl
    · exact isWord_mark (by decide)
    · exact ih w hw
    · exact isWord_mark (by decide)
  | operand single ih => exact ih
  | binary first between second ihFirst ihSecond =>
    intro w hw
    simp only [Expr.tokens, List.mem_append, List.mem_cons] at hw
    rcases hw with hw | rfl | hw
    · exact ihFirst w hw
    · exact isWord_mark (Chain.mem_markWords between)
    · exact ihSecond w hw

theorem Statement.Formed.isWord {st : Statement Text} (h : st.Formed) : ∀ w ∈ st.tokens, IsWord w := by
  have hsemicolon : ∀ {semicolon : Option Text}, (∀ w ∈ semicolon, w = ";") → ∀ w ∈ semicolon, IsWord w :=
    fun hall w hw => hall w hw ▸ isWord_mark (by decide)
  cases st with
  | assignment name equals value semicolon =>
    obtain ⟨hname, rfl, hvalue, hend⟩ := h
    intro w hw
    simp only [Statement.tokens, List.mem_cons, List.mem_append, Option.mem_toList] at hw
    rcases hw with rfl | rfl | hw | hw
    · exact hname.isWord (by decide)
    · exact isWord_mark (by decide)
    · exact hvalue.isWord w hw
    · exact hsemicolon hend w hw
  | expression e semicolon =>
    obtain ⟨he, hend⟩ := h
    intro w hw
    simp only [Statement.tokens, List.mem_append, Option.mem_toList] at hw
    rcases hw with hw | hw
    · exact he.isWord w hw
    · exact hsemicolon hend w hw
  | skipped token => exact h.elim

/-! ## Reading expressions back -/

/-- Operators that go on with an operand of a chain, in place of the chain. -/
def Chain.inner : Chain → Kind → Bool
  | .term => fun _ => false
  | .sum => isMultiplicative

theorem wordKind_operator {c : Chain} {w : Text} (h : w ∈ c.operators) :
    c.isOperator (wordKind w) = true ∧ c.inner (wordKind w) = false := by
  cases c with
  | term => exact (by decide : ∀ w ∈ Chain.term.operators, Chain.term.isOperator (wordKind w) = true ∧
      Chain.term.inner (wordKind w) = false) w h
  | sum => exact (by decide : ∀ w ∈ Chain.sum.operators, Chain.sum.isOperator (wordKind w) = true ∧
      Chain.sum.inner (wordKind w) = false) w h

theorem Formed.ne_missing {g : Goal Text} {e : Expr Text} (h : Formed g e) : e ≠ .missing := by
  induction h with
  | operand single ih => exact ih
  | _ => simp

/-- What can be read for a well-formed expression: a primary in front of anything, and a chain in front of what is read
when the chain is gone on with. -/
def ReadsBack : Goal Text → Expr Text → Prop
  | .primary, e => ∀ after, Reads wordKind .primary (e.tokens ++ after) e after
  | .chain c, e => ∀ after e' rest, ¬ Begins wordKind c.inner after → Reads wordKind (.further c e) after e' rest →
      Reads wordKind (.chain c) (e.tokens ++ after) e' rest
  | .further .., _ => True

theorem ReadsBack.chain {c : Chain} {e : Expr Text} (h : ReadsBack (.chain c) e) {after : List Text}
    (hinner : ¬ Begins wordKind c.inner after) (hafter : ¬ Begins wordKind c.isOperator after) :
    Reads wordKind (.chain c) (e.tokens ++ after) e after :=
  h after e after hinner (.done hafter)

theorem ReadsBack.operand {c : Chain} {e : Expr Text} (h : ReadsBack c.operand e) {after : List Text}
    (hinner : ¬ Begins wordKind c.inner after) : Reads wordKind c.operand (e.tokens ++ after) e after := by
  cases c with
  | term => exact h after
  | sum => exact ReadsBack.chain h (by simp [Begins, Chain.inner]) hinner

theorem Formed.reads {g : Goal Text} {e : Expr Text} (h : Formed g e) : ReadsBack g e := by
  induction h with
  | number word => exact fun after => .number word.wordKind_eq
  | name word => exact fun after => .name word.wordKind_eq
  | @paren inner inside ih =>
    intro after
    have hclosing : wordKind ")" = .closeParen := by decide
    have hinside : Reads wordKind (.chain .sum) (inner.tokens ++ (")" : Text) :: after) inner (")" :: after) := by
      refine ReadsBack.chain ih ?_ ?_ <;> rw [begins_cons, hclosing] <;> decide
    have hclose : takeKind wordKind .closeParen (")" :: after) = (some (")" : Text), after) := by
      rw [takeKind, if_pos hclosing]
    simpa [Expr.tokens] using Reads.paren (by decide : wordKind "(" = .openParen) hinside hclose
  | @operand c e single ih =>
    intro after e' rest hinner hmore
    exact .chain (ReadsBack.operand ih hinner) single.ne_missing hmore
  | @binary c left right operator first between second ihFirst ihSecond =>
    intro after e' rest hinner hmore
    obtain ⟨hoperator, hnot⟩ := wordKind_operator between
    have hsecond := ReadsBack.operand ihSecond hinner
    -- The left operand is gone on with by this operator, and then by what goes on with the whole.
    have hfirst := ihFirst (operator :: (right.tokens ++ after)) e' rest (by simp [begins_cons, hnot])
      (.operator hoperator hsecond hmore)
    simpa [Expr.tokens] using hfirst

/-! ## Reading statements back -/

/-- The first word, if there is one, begins an operand, as it does where a statement begins. -/
def Opens (ts : List Text) : Prop := ∀ w ∈ ts.head?, opensOperand (wordKind w) = true

theorem Formed.opens {g : Goal Text} {e : Expr Text} (h : Formed g e) :
    ∃ w tail, e.tokens = w :: tail ∧ opensOperand (wordKind w) = true := by
  induction h with
  | number word => exact ⟨_, _, rfl, by rw [word.wordKind_eq]; rfl⟩
  | name word => exact ⟨_, _, rfl, by rw [word.wordKind_eq]; rfl⟩
  | paren => exact ⟨_, _, rfl, by decide⟩
  | operand single ih => exact ih
  | @binary c left right operator first between second ihFirst ihSecond =>
    obtain ⟨w, tail, htokens, hopens⟩ := ihFirst
    exact ⟨w, tail ++ operator :: right.tokens, by rw [Expr.tokens, htokens, List.cons_append], hopens⟩

/-- What follows an expression begins with a semicolon, or as the next statement does. -/
theorem head?_semicolon {semicolon : Option Text} (hsemicolon : ∀ w ∈ semicolon, w = ";") {after : List Text}
    (hafter : Opens after) : ∀ w ∈ (semicolon.toList ++ after).head?,
      wordKind w = .semicolon ∨ opensOperand (wordKind w) = true := by
  cases semicolon with
  | none => exact fun w hw => .inr (hafter w hw)
  | some semicolon =>
    rintro _ ⟨rfl⟩
    rw [hsemicolon semicolon rfl]
    exact .inl (by decide)

/-- A whole expression is read back where no operator follows. -/
theorem Formed.reads_sum {e : Expr Text} (h : Formed (.chain .sum) e) {after : List Text}
    (hafter : ∀ w ∈ after.head?, wordKind w = .semicolon ∨ opensOperand (wordKind w) = true) :
    Reads wordKind (.chain .sum) (e.tokens ++ after) e after := by
  have hoperator : ∀ c : Chain, ¬ Begins wordKind c.isOperator after := by
    rintro c ⟨w, hw, hoperator⟩
    have hkind := hafter w hw
    revert hkind hoperator
    cases c <;> cases wordKind w <;> decide
  exact ReadsBack.chain h.reads (hoperator .term) (hoperator .sum)

/-- An expression and its semicolon, in front of the next statement. -/
theorem Formed.expression_eq {e : Expr Text} (h : Formed (.chain .sum) e) {semicolon : Option Text}
    (hsemicolon : ∀ w ∈ semicolon, w = ";") {after : List Text} (hafter : Opens after) :
    expression wordKind (e.tokens ++ (semicolon.toList ++ after)) = (e, semicolon.toList ++ after) ∧
      takeKind wordKind .semicolon (semicolon.toList ++ after) = (semicolon, after) := by
  refine ⟨reads_iff.mp (h.reads_sum (head?_semicolon hsemicolon hafter)), ?_⟩
  cases semicolon with
  | some w =>
    rw [Option.toList_some, List.singleton_append, takeKind, hsemicolon w rfl, if_pos (by decide)]
  | none =>
    cases after with
    | nil => rfl
    | cons w after =>
      have hw := hafter w rfl
      rw [Option.toList_none, List.nil_append, takeKind, if_neg]
      rintro hkind
      rw [hkind] at hw
      cases hw

/-- A statement that does not go on with an equals sign is no assignment. -/
theorem statement_of_head_ne {t : Text} {rest : List Text} (h : ∀ w ∈ rest.head?, wordKind w ≠ .equals) :
    statement wordKind t rest = simpleStatement wordKind t rest := by
  cases rest with
  | nil => rfl
  | cons equals rest => rw [statement, if_neg fun hkinds => h equals rfl hkinds.2]

/-- No equals sign follows the first word of an expression. -/
theorem Formed.head_ne {e : Expr Text} (h : Formed (.chain .sum) e) {w : Text} {tail : List Text}
    (htokens : e.tokens = w :: tail) {semicolon : Option Text} (hsemicolon : ∀ w ∈ semicolon, w = ";")
    {after : List Text} (hafter : Opens after) :
    ∀ v ∈ (tail ++ (semicolon.toList ++ after)).head?, wordKind v ≠ .equals := by
  have hfollows := head?_semicolon hsemicolon hafter
  cases tail with
  | nil =>
    intro v hv hequals
    have hkind := hfollows v hv
    rw [hequals] at hkind
    revert hkind
    decide
  | cons u tail =>
    rintro _ ⟨rfl⟩ hequals
    have hcontinues := (h.reads_sum hfollows).continues (by simp [Goal.before]) u (by simp [htokens])
    rw [hequals] at hcontinues
    cases hcontinues

/-- A well-formed statement is read back in front of the next one. -/
theorem Statement.Formed.statement_eq {st : Statement Text} (h : st.Formed) {after : List Text}
    (hafter : Opens after) : ∃ w tail, st.tokens = w :: tail ∧ opensOperand (wordKind w) = true ∧
      statement wordKind w (tail ++ after) = (st, after) := by
  cases st with
  | assignment name equals value semicolon =>
    obtain ⟨hname, rfl, hvalue, hsemicolon⟩ := h
    obtain ⟨hexpression, htake⟩ := hvalue.expression_eq hsemicolon hafter
    refine ⟨name, _, rfl, by rw [hname.wordKind_eq]; rfl, ?_⟩
    rw [List.cons_append, List.append_assoc, statement, if_pos ⟨hname.wordKind_eq, by decide⟩]
    simp only [hexpression, htake]
  | expression e semicolon =>
    obtain ⟨he, hsemicolon⟩ := h
    obtain ⟨w, tail, htokens, hopens⟩ := he.opens
    obtain ⟨hexpression, htake⟩ := he.expression_eq hsemicolon hafter
    rw [htokens, List.cons_append] at hexpression
    refine ⟨w, tail ++ semicolon.toList, by rw [Statement.tokens, htokens, List.cons_append], hopens, ?_⟩
    rw [List.append_assoc, statement_of_head_ne (he.head_ne htokens hsemicolon hafter), simpleStatement_eq,
      if_pos hopens, hexpression, htake]
  | skipped token => exact h.elim

/-- The words of well-formed statements are read back as these statements. -/
theorem statements_tokens {program : List (Statement Text)} (h : ∀ st ∈ program, st.Formed) :
    Opens (program.flatMap Statement.tokens) ∧
      statements wordKind (program.flatMap Statement.tokens) = program := by
  induction program with
  | nil => exact ⟨by simp [Opens], rfl⟩
  | cons st program ih =>
    obtain ⟨hafter, hprogram⟩ := ih fun st' hst => h st' (List.mem_cons_of_mem _ hst)
    obtain ⟨w, tail, htokens, hopens, hstatement⟩ := (h st List.mem_cons_self).statement_eq hafter
    rw [List.flatMap_cons, htokens, List.cons_append]
    refine ⟨?_, ?_⟩
    · rintro _ ⟨rfl⟩
      exact hopens
    · rw [statements_cons, hstatement, hprogram]

/-! ## Lexing words -/

theorem trivia_of_blanks {gap : Text} (h : gap ⊆ blanks) (rest : Text) : Trivia gap rest := by
  induction gap with
  | nil => exact .none
  | cons u gap ih =>
    rw [List.cons_subset] at h
    exact .blank h.1 (ih h.2)

/-- A word ends where a blank follows. -/
theorem Word.before_blank {kind : Kind} {w rest : Text} (h : Word kind w [])
    (hrest : ∀ v ∈ rest.head?, v ∈ blanks) : Word kind w rest := by
  have hblank : ∀ v ∈ blanks, v ∉ letters ∧ v ∉ digits := of_all (by decide)
  cases h with
  | identifier first others _ => exact .identifier first others fun v hv => hblank v (hrest v hv)
  | number first others _ => exact .number first others fun v hv => (hblank v (hrest v hv)).2
  | mark mark => exact .mark mark
  | unknown letter digit mark => exact .unknown letter digit mark

/-- No trivia begin with a word, unless they do with the unit after it. -/
theorem Word.not_beginsTrivia {kind : Kind} {w rest : Text} (h : Word kind w []) (hknown : kind ≠ .unknown)
    (hrest : ∀ v ∈ rest.head?, v ∈ blanks) : ¬ BeginsTrivia (w ++ rest) := by
  cases h with
  | @identifier u tail _ first others _ =>
    have hu := of_all (p := fun u => isBlankUnit u = false ∧ u ≠ unit '/') (by decide) u first
    rw [List.cons_append, beginsTrivia_cons]
    simp [hu]
  | @number u tail _ first others _ =>
    have hu := of_all (p := fun u => isBlankUnit u = false ∧ u ≠ unit '/') (by decide) u first
    rw [List.cons_append, beginsTrivia_cons]
    simp [hu]
  | @mark u _ _ mark =>
    have hu := (by decide : ∀ mark ∈ marks, isBlankUnit mark.1 = false) _ mark
    rw [List.singleton_append, beginsTrivia_cons, hu]
    rintro (hblank | ⟨_, hslash⟩)
    · cases hblank
    · exact absurd (hrest _ hslash) (by decide)
  | unknown => exact absurd rfl hknown

/-- What is printed after a word is nothing, or begins with a blank. -/
theorem Prints.head_blank {gap text : Text} {words : List Text} (blank : gap ⊆ blanks) (apart : words ≠ [] → gap ≠ [])
    (more : Prints words text) : ∀ v ∈ (gap ++ text).head?, v ∈ blanks := by
  cases gap with
  | cons u gap =>
    rintro _ ⟨rfl⟩
    exact blank List.mem_cons_self
  | nil =>
    cases more with
    | nil => simp
    | word => exact absurd rfl (apart (List.cons_ne_nil _ _))

/-- Printed words are lexed one by one, each to a lexeme of its kind with its text. The induction is on the words, for
any part of the source before them. -/
theorem Prints.lexes {words : List Text} {text : Text} (h : Prints words text) (hwords : ∀ w ∈ words, IsWord w)
    {before gap : Text} (hgap : gap ⊆ blanks) (hbound : (before ++ (gap ++ text)).length ≤ Number.exactBound) :
    ∃ l, Lexes before.length (gap ++ text) l ∧
      l.lexemes.map (fun x => (x.kind, x.token.text (before ++ (gap ++ text)))) =
        words.map fun w => (wordKind w, w) := by
  induction h generalizing before gap with
  | nil =>
    rw [List.append_nil]
    exact ⟨_, .endOfFile (trivia_of_blanks hgap []), rfl⟩
  | @word word after text words blank apart more ih =>
    have hhead := more.head_blank blank apart
    obtain ⟨hword, hknown⟩ := hwords word List.mem_cons_self
    obtain ⟨hsource, hoffset⟩ := append_parts before gap word (after ++ text)
    obtain ⟨later, hlater, htexts⟩ := ih (fun w hw => hwords w (List.mem_cons_of_mem _ hw)) blank (hsource ▸ hbound)
    rw [hoffset] at hlater
    rw [← hsource] at htexts
    refine ⟨_, .lexeme (trivia_of_blanks hgap _) (hword.not_beginsTrivia hknown hhead) (hword.before_blank hhead)
      hlater, ?_⟩
    obtain ⟨_, _, htext, _⟩ := cuts_eq hbound (spans_lexeme (wordKind word) before gap word)
    rw [List.map_cons, List.map_cons, htexts, htext]

/-! ## Parsing printed programs -/

/-- Statements with something known of each token, from tokens with their kinds beside it. -/
theorem statements_pairs {α β : Type} (kind : α → Kind) (f : α → β) (ts : List α) :
    (statements Prod.fst (ts.map fun x => (kind x, f x))).map (Statement.map Prod.snd) =
      (statements kind ts).map (Statement.map f) := by
  have hpairs : statements Prod.fst (ts.map fun x => (kind x, f x)) =
      (statements kind ts).map (Statement.map fun x => (kind x, f x)) := statements_map _ ts
  rw [hpairs, List.map_map]
  exact List.map_congr_left fun st _ => Statement.map_map _ _ st

/-- Parsing undoes printing: a source with the words of well-formed statements, and blanks around them, is parsed to the
tree of these statements. -/
theorem parse_prints {s : Store} (h : Hosts s) {program : List (Statement Text)} (hprogram : ∀ st ∈ program, st.Formed)
    {source : Source} {gap text : Text} (hgap : gap ⊆ blanks) (htext : Prints (program.flatMap Statement.tokens) text)
    (hsource : source.text = gap ++ text) : ∃ (p : Program Token) (root : ObjectId) (t : Store),
      parseValue (.text source.text) s = (.ok root, t) ∧ t.isSourceFile root = true ∧ p.IsAt t (.object root) ∧
      p.statements.map (Statement.map fun token => token.text source.text) = program := by
  obtain ⟨root, t, hrun, _, hfile, hp⟩ := parse_isAt h source
  refine ⟨_, root, t, hrun, hfile, hp, ?_⟩
  have hwords : ∀ w ∈ program.flatMap Statement.tokens, IsWord w := by
    intro w hw
    obtain ⟨st, hst, hw⟩ := List.mem_flatMap.mp hw
    exact (hprogram st hst).isWord w hw
  obtain ⟨l, hlexes, htexts⟩ := @Prints.lexes _ _ htext hwords [] gap hgap (hsource ▸ source.length_le)
  rw [List.nil_append, ← hsource] at htexts
  rw [← hsource] at hlexes
  obtain rfl := lexes_iff.mp hlexes
  calc ((Program.ofLexing (lex source.text)).map Lexeme.token).statements.map
        (Statement.map fun token => token.text source.text)
    _ = (statements Lexeme.kind (lex source.text).lexemes).map (Statement.map fun x => x.token.text source.text) := by
      simp only [Program.map, Program.ofLexing, List.map_map]
      exact List.map_congr_left fun st _ => Statement.map_map _ _ st
    _ = (statements wordKind (program.flatMap Statement.tokens)).map (Statement.map id) := by
      rw [← statements_pairs, htexts]
      exact statements_pairs wordKind id _
    _ = program := by
      rw [(statements_tokens hprogram).2, funext Statement.map_id, List.map_id']

/-- Words with the same blanks after each of them are printed. -/
theorem prints_flatMap {gap : Text} (hblank : gap ⊆ blanks) (hne : gap ≠ []) (words : List Text) :
    Prints words (words.flatMap (· ++ gap)) := by
  induction words with
  | nil => exact .nil
  | cons w words ih =>
    rw [List.flatMap_cons, List.append_assoc]
    exact .word hblank (fun _ => hne) ih

/-- Two statements with no semicolon between them: a name, and an assignment to another one. -/
def adjacent : List (Statement Text) :=
  [.expression (.name "a") none,
    .assignment "b1" "=" (.binary (.paren "(" (.binary (.number "10") "-" (.name "a")) (some ")")) "*" (.number "2"))
      (some ";")]

def adjacentSource : Source := ⟨"\ta \nb1 \n= \n( \n10 \n- \na \n) \n* \n2 \n; \n", by decide⟩

theorem formed_adjacent : ∀ st ∈ adjacent, st.Formed := by
  have ha : Word .identifier "a" [] := @Word.identifier (unit 'a') [] [] (by decide) (by simp) (by simp)
  have hb : Word .identifier "b1" [] :=
    @Word.identifier (unit 'b') [unit '1'] [] (by decide) (of_all (by decide)) (by simp)
  have hten : Word .number "10" [] :=
    @Word.number (unit '1') [unit '0'] [] (by decide) (of_all (by decide)) (by simp)
  have htwo : Word .number "2" [] := @Word.number (unit '2') [] [] (by decide) (by simp) (by simp)
  have hinner : Formed (.chain .sum) (.binary (.number "10") "-" (.name "a")) :=
    .binary (.operand (.operand (.number hten))) (by decide) (.operand (.name ha))
  have hproduct : Formed (.chain .term)
      (.binary (.paren "(" (.binary (.number "10") "-" (.name "a")) (some ")")) "*" (.number "2")) :=
    .binary (.operand (.paren hinner)) (by decide) (.number htwo)
  have hname : Formed (.chain .sum) (.name "a") := .operand (.operand (.name ha))
  simp only [adjacent, List.forall_mem_cons, List.not_mem_nil, false_imp_iff, implies_true, and_true]
  exact ⟨⟨hname, by simp⟩, hb, rfl, .operand hproduct, by simp⟩

/-- The two statements with blanks after each word. -/
def adjacentText : Text := (adjacent.flatMap Statement.tokens).flatMap (· ++ (" \n" : Text))

theorem adjacent_parse_prints : (∀ st ∈ adjacent, st.Formed) ∧
    Prints (adjacent.flatMap Statement.tokens) adjacentText ∧ adjacentSource.text = ("\t" : Text) ++ adjacentText ∧
    ∃ (p : Program Token) (root : ObjectId) (t : Store),
      parseValue (.text adjacentSource.text) start = (.ok root, t) ∧ t.isSourceFile root = true ∧
      p.IsAt t (.object root) ∧
      p.statements.map (Statement.map fun token => token.text adjacentSource.text) = adjacent := by
  have hsource : adjacentSource.text = ("\t" : Text) ++ adjacentText := by decide
  have hprints : Prints (adjacent.flatMap Statement.tokens) adjacentText :=
    prints_flatMap (by decide) (by decide) _
  exact ⟨formed_adjacent, hprints, hsource, parse_prints hosts_start formed_adjacent (by decide) hprints hsource⟩

end LosslessSyntax.Calc
