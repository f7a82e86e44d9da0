import LosslessSyntax.Calc.Program
import LosslessSyntax.Proofs.Tiling
import Mathlib.Data.List.Basic

/-!
# Sources are covered

Nothing of a source of the calculator language is lost, whatever it holds:

* `tiles_lex`: its lexemes tile it;
* `flatMap_tokens_ofKinds`: the tokens of its statements, in order, are all tokens before the end of the file.

Both functions count down a bound, and the proofs say why it is large enough: every lexeme takes a unit
(`significant_bounds`) and every statement a token (`statement_spec`). The bounds of expressions need no such proof,
since a parser of expressions that stops early leaves the tokens to what follows (`Splits`).
-/

namespace LosslessSyntax.Calc

/-! ## Lexemes -/

theorem triviaLength_le (inside : Bool) (t : Text) : triviaLength inside t ≤ t.length := by
  fun_induction triviaLength inside t with
  | case1 => exact Nat.zero_le _
  | case2 u rest ih => exact Nat.succ_le_succ ih
  | case3 u rest _ ih => exact Nat.succ_le_succ ih
  | case4 u rest _ _ ih => exact Nat.succ_le_succ ih
  | case5 => exact Nat.zero_le _

/-- A lexeme takes the unit that it begins with, and no more than there are. -/
theorem significant_bounds (u : UInt16) (rest : Text) :
    0 < (significant u rest).2 ∧ (significant u rest).2 ≤ rest.length + 1 := by
  have hword : ∀ p : UInt16 → Bool, (rest.takeWhile p).length ≤ rest.length := fun p =>
    (List.takeWhile_prefix p).length_le
  rw [significant]
  split
  · exact ⟨Nat.succ_pos _, Nat.succ_le_succ (hword _)⟩
  · split
    · exact ⟨Nat.succ_pos _, Nat.succ_le_succ (hword _)⟩
    · exact ⟨Nat.one_pos, Nat.succ_le_succ (Nat.zero_le _)⟩

theorem Lexeme.spans (kind : Kind) {first start stop : Nat} (hfirst : first ≤ start) (hstart : start ≤ stop) :
    (Lexeme.token ⟨kind, first, start, stop - first⟩).Spans first start stop :=
  ⟨hfirst, hstart, rfl, rfl, rfl⟩

/-- Lexemes tile the text that they are lexed from, if there may be more of them than it has units. -/
theorem tiles_lexFrom {count : Nat} (offset : Nat) (t : Text) (h : t.length < count) :
    Token.Tiles offset ((lexFrom count offset t).toList.map Lexeme.token) (offset + t.length) := by
  induction count generalizing offset t with
  | zero => omega
  | succ count ih =>
    have htrivia := triviaLength_le false t
    rw [lexFrom]
    cases hdrop : t.drop (triviaLength false t) with
    | nil =>
      have hlength : t.length ≤ triviaLength false t := List.drop_eq_nil_iff.mp hdrop
      have hspans := Lexeme.spans .endOfFile (Nat.le_add_right offset (triviaLength false t)) (Nat.le_refl _)
      rw [Nat.add_sub_cancel_left] at hspans
      exact ⟨_, _, hspans, by show _ = _; omega⟩
    | cons u rest =>
      obtain ⟨hpos, hsize⟩ := significant_bounds u rest
      have hlength : rest.length + 1 = t.length - triviaLength false t := by
        rw [← List.length_drop, hdrop, List.length_cons]
      have hspans := Lexeme.spans (significant u rest).1 (Nat.le_add_right offset (triviaLength false t))
        (Nat.add_le_add_left (Nat.le_add_right (triviaLength false t) (significant u rest).2) offset)
      rw [Nat.add_sub_cancel_left] at hspans
      have hlater := ih (offset + (triviaLength false t + (significant u rest).2))
        (t.drop (triviaLength false t + (significant u rest).2)) (by rw [List.length_drop]; omega)
      rw [List.length_drop, show offset + (triviaLength false t + (significant u rest).2) +
        (t.length - (triviaLength false t + (significant u rest).2)) = offset + t.length by omega] at hlater
      exact ⟨_, _, hspans, hlater⟩

theorem tiles_lex (t : Text) : Token.Tiles 0 ((lex t).toList.map Lexeme.token) t.length := by
  have h := tiles_lexFrom 0 t (Nat.lt_succ_self t.length)
  rwa [Nat.zero_add] at h

/-! ## Tokens of programs -/

variable {α β : Type}

/-- The tokens of an expression in the order of the source. -/
def Expr.tokens : Expr α → List α
  | .missing => []
  | .number value => [value]
  | .name token => [token]
  | .paren opening inner closing => opening :: (inner.tokens ++ closing.toList)
  | .binary left operator right => left.tokens ++ operator :: right.tokens

/-- The tokens of a statement in the order of the source. -/
def Statement.tokens : Statement α → List α
  | .assignment name equals value semicolon => name :: equals :: (value.tokens ++ semicolon.toList)
  | .expression e semicolon => e.tokens ++ semicolon.toList
  | .skipped token => [token]

theorem toList_map (f : α → β) (a : Option α) : (a.map f).toList = a.toList.map f := by cases a <;> rfl

@[simp] theorem Expr.tokens_map (f : α → β) (e : Expr α) : (e.map f).tokens = e.tokens.map f := by
  induction e with
  | missing => rfl
  | number value => rfl
  | name name => rfl
  | paren opening inner closing ih => simp [Expr.map, Expr.tokens, ih, toList_map]
  | binary left operator right ihl ihr => simp [Expr.map, Expr.tokens, ihl, ihr]

@[simp] theorem Statement.tokens_map (f : α → β) (st : Statement α) : (st.map f).tokens = st.tokens.map f := by
  cases st <;> simp [Statement.map, Statement.tokens, toList_map]

theorem Expr.isMissing_iff {e : Expr α} : e.isMissing = true ↔ e = .missing := by
  cases e <;> simp [Expr.isMissing]

theorem Expr.tokens_ne_nil {e : Expr α} (h : e.isMissing = false) : e.tokens ≠ [] := by
  cases e <;> simp [Expr.isMissing, Expr.tokens] at h ⊢

/-! ## Expressions -/

section

variable {kind : α → Kind}

theorem takeKind_append (kind : α → Kind) (k : Kind) (ts : List α) :
    (takeKind kind k ts).1.toList ++ (takeKind kind k ts).2 = ts := by
  fun_cases takeKind kind k ts <;> rfl

/-- A parser that splits every list of tokens into those of an expression and those after it. -/
def Splits (p : List α → Expr α × List α) : Prop := ∀ ts, (p ts).1.tokens ++ (p ts).2 = ts

theorem Splits.primary {inner : List α → Expr α × List α} (h : Splits inner) : Splits (Calc.primary kind inner) := by
  intro ts
  cases ts with
  | nil => rfl
  | cons t rest =>
    rw [Calc.primary]
    cases kind t with
    | openParen =>
      simp only [Expr.tokens, List.cons_append, List.append_assoc, takeKind_append, h rest]
    | _ => rfl

/-- A chain splits its tokens after those of its left operand. -/
theorem Splits.chainFrom {operand : List α → Expr α × List α} (h : Splits operand) (isOperator : Kind → Bool)
    (count : Nat) (left : Expr α) (ts : List α) :
    (Calc.chainFrom kind operand isOperator count left ts).1.tokens ++
      (Calc.chainFrom kind operand isOperator count left ts).2 = left.tokens ++ ts := by
  fun_induction Calc.chainFrom kind operand isOperator count left ts with
  | case1 => rfl
  | case2 => rfl
  | case3 count left t rest hop right after heq ih =>
    have hsplit := h rest
    rw [heq] at hsplit
    rw [ih, Expr.tokens, List.append_assoc, List.cons_append, hsplit]
  | case4 => rfl

theorem Splits.chain {operand : List α → Expr α × List α} (h : Splits operand) (isOperator : Kind → Bool) :
    Splits (Calc.chain kind operand isOperator) := by
  intro ts
  have hsplit := h ts
  simp only [Calc.chain]
  split
  · rename_i hmissing
    rwa [Expr.isMissing_iff.mp hmissing] at hsplit
  · rw [h.chainFrom, hsplit]

theorem splits_expressionAt (kind : α → Kind) (depth : Nat) : Splits (expressionAt kind depth) := by
  induction depth with
  | zero => exact fun ts => rfl
  | succ depth ih => exact (ih.primary.chain isMultiplicative).chain isAdditive

/-- An expression is found where one begins. -/
theorem isMissing_chainFrom {operand : List α → Expr α × List α} {isOperator : Kind → Bool} (count : Nat)
    {left : Expr α} (hleft : left.isMissing = false) (ts : List α) :
    (chainFrom kind operand isOperator count left ts).1.isMissing = false := by
  fun_induction chainFrom kind operand isOperator count left ts with
  | case1 => exact hleft
  | case2 => exact hleft
  | case3 count left t rest hop right after heq ih => exact ih rfl
  | case4 => exact hleft

theorem isMissing_chain {operand : List α → Expr α × List α} {isOperator : Kind → Bool} {ts : List α}
    (h : (operand ts).1.isMissing = false) : (chain kind operand isOperator ts).1.isMissing = false := by
  simp only [chain, h, Bool.false_eq_true, if_false]
  exact isMissing_chainFrom _ h _

theorem isMissing_expression {t : α} (rest : List α)
    (h : kind t = .identifier ∨ kind t = .number ∨ kind t = .openParen) :
    (expression kind (t :: rest)).1.isMissing = false := by
  refine isMissing_chain (isMissing_chain ?_)
  rw [primary]
  rcases h with h | h | h <;> rw [h] <;> rfl

/-! ## Statements -/

/-- A statement takes the token that it begins with, and leaves those after it. -/
theorem simpleStatement_spec (kind : α → Kind) (t : α) (rest : List α) :
    (simpleStatement kind t rest).1.tokens ≠ [] ∧
      (simpleStatement kind t rest).1.tokens ++ (simpleStatement kind t rest).2 = t :: rest := by
  have hexpression : ∀ e afterExpression semicolon after,
      (kind t = .identifier ∨ kind t = .number ∨ kind t = .openParen) →
      expression kind (t :: rest) = (e, afterExpression) →
      takeKind kind .semicolon afterExpression = (semicolon, after) →
        (Statement.expression e semicolon).tokens ≠ [] ∧
          (Statement.expression e semicolon).tokens ++ after = t :: rest := by
    intro e afterExpression semicolon after hkind he hsemicolon
    have hfound := isMissing_expression rest hkind
    have hsplit := splits_expressionAt kind ((t :: rest).length + 1) (t :: rest)
    have htake := takeKind_append kind .semicolon afterExpression
    rw [expression] at he hfound
    rw [he] at hsplit hfound
    rw [hsemicolon] at htake
    rw [Statement.tokens]
    refine ⟨fun hnil => Expr.tokens_ne_nil hfound (List.append_eq_nil_iff.mp hnil).1, ?_⟩
    rw [List.append_assoc, htake, hsplit]
  fun_cases simpleStatement kind t rest with
  | case1 hkind e afterExpression he semicolon after hsemicolon => exact hexpression _ _ _ _ (.inl hkind) he hsemicolon
  | case2 hkind e afterExpression he semicolon after hsemicolon =>
    exact hexpression _ _ _ _ (.inr (.inl hkind)) he hsemicolon
  | case3 hkind e afterExpression he semicolon after hsemicolon =>
    exact hexpression _ _ _ _ (.inr (.inr hkind)) he hsemicolon
  | case4 => exact ⟨List.cons_ne_nil _ _, rfl⟩

theorem statement_spec (kind : α → Kind) (t : α) (rest : List α) : (statement kind t rest).1.tokens ≠ [] ∧
    (statement kind t rest).1.tokens ++ (statement kind t rest).2 = t :: rest := by
  fun_cases statement kind t rest with
  | case1 => exact simpleStatement_spec kind t []
  | case2 equals rest _ value afterValue hvalue semicolon after hsemicolon =>
    have hsplit := splits_expressionAt kind (rest.length + 1) rest
    have htake := takeKind_append kind .semicolon afterValue
    rw [expression] at hvalue
    rw [hvalue] at hsplit
    rw [hsemicolon] at htake
    refine ⟨List.cons_ne_nil _ _, ?_⟩
    rw [Statement.tokens, List.cons_append, List.cons_append, List.append_assoc, htake, hsplit]
  | case3 equals rest => exact simpleStatement_spec kind t (equals :: rest)

/-- No token is lost, and no statement is without one, if there may be as many statements as there are tokens. -/
theorem statementsFrom_spec (kind : α → Kind) {count : Nat} {ts : List α} (h : ts.length ≤ count) :
    (statementsFrom kind count ts).flatMap Statement.tokens = ts ∧
      ∀ st ∈ statementsFrom kind count ts, st.tokens ≠ [] := by
  fun_induction statementsFrom kind count ts with
  | case1 ts => exact ⟨(List.length_eq_zero_iff.mp (Nat.le_zero.mp h)).symm, nofun⟩
  | case2 => exact ⟨rfl, nofun⟩
  | case3 count t rest first after heq ih =>
    obtain ⟨hne, hsplit⟩ := statement_spec kind t rest
    rw [heq] at hne hsplit
    have hlength : first.tokens.length + after.length = rest.length + 1 := by
      rw [← List.length_append, hsplit, List.length_cons]
    have hpos : 0 < first.tokens.length := List.length_pos_iff.mpr hne
    obtain ⟨hrest, hstatements⟩ := ih (by rw [List.length_cons] at h; omega)
    refine ⟨by rw [List.flatMap_cons, hrest, hsplit], ?_⟩
    rintro st (_ | ⟨_, hst⟩)
    · exact hne
    · exact hstatements st hst

end

/-- Statements have the tokens that they were parsed from. -/
theorem flatMap_tokens_statements (kind : α → Kind) (ts : List α) :
    (statements kind ts).flatMap Statement.tokens = ts :=
  (statementsFrom_spec kind (Nat.le_refl ts.length)).1

/-- The tokens of the statements of a program, in order, are all tokens but the last. -/
theorem flatMap_tokens_ofKinds (base : Nat) (kinds : List Kind) :
    (Program.ofKinds base kinds).statements.flatMap Statement.tokens = List.range' base kinds.length := by
  rw [Program.ofKinds, List.flatMap_map]
  simp only [Statement.tokens_map]
  rw [← List.map_flatMap, flatMap_tokens_statements, List.zipIdx_map_snd]

theorem tokens_ne_nil_ofKinds (base : Nat) (kinds : List Kind) :
    ∀ st ∈ (Program.ofKinds base kinds).statements, st.tokens ≠ [] := by
  intro st hst
  obtain ⟨parsed, hparsed, rfl⟩ := List.mem_map.mp hst
  have hne := (statementsFrom_spec Prod.fst (Nat.le_refl (kinds.zipIdx base).length)).2 parsed hparsed
  rw [Statement.tokens_map]
  exact fun hnil => hne (List.map_eq_nil_iff.mp hnil)

end LosslessSyntax.Calc
