import LosslessSyntax.Proofs.Parsing

/-!
# Reading expressions

Parsing an expression counts down two bounds, one for the depth of parentheses and one for the length of a chain.
`Reads` is the same without bounds, rule by rule: what is looked for, the tokens, the expression that is read, and the
tokens that are left.

* `reads_expression`, `Reads.unique`: parsing an expression reads by the rules, and they allow nothing else
  (`reads_iff`). So neither bound is ever met.
* `Reads.map`: reading depends on the kinds of tokens only.
* `Reads.append`: tokens that come later change nothing, unless reading has got that far.

For statements the same is said of the functions themselves, since these do not call each other: `statements_cons` goes
without a bound, and from it follow `statements_map` and `statements_append`.
-/

namespace LosslessSyntax.Calc

variable {α β : Type}

/-- The two kinds of chains: primaries with multiplicative operators, and terms with additive ones. -/
inductive Chain where
  | term
  | sum
  deriving DecidableEq

/-- What is looked for: a primary, a chain of operands, or what goes on with a chain after its left operand. -/
inductive Goal (α : Type) where
  | primary
  | chain (c : Chain)
  | further (c : Chain) (left : Expr α)

namespace Chain

def isOperator : Chain → Kind → Bool
  | .term => isMultiplicative
  | .sum => isAdditive

/-- What stands between the operators of a chain. -/
def operand : Chain → Goal α
  | .term => .primary
  | .sum => .chain .term

end Chain

/-- The tokens of what has been read of a chain. -/
def Goal.before : Goal α → List α
  | .further _ left => left.tokens
  | _ => []

@[simp] theorem Chain.before_operand (c : Chain) : (c.operand : Goal α).before = [] := by
  cases c <;> rfl

/-- Kinds of tokens that an operand begins with. -/
def opensOperand : Kind → Bool
  | .number | .identifier | .openParen => true
  | _ => false

section

variable (kind : α → Kind)

/-- The next token is of a kind with some property. -/
def Begins (p : Kind → Bool) (ts : List α) : Prop := ∃ t ∈ ts.head?, p (kind t) = true

/-- Reading an expression: what is looked for, the tokens, what is read and the tokens that are left. -/
inductive Reads : Goal α → List α → Expr α → List α → Prop
  | number {t : α} {rest : List α} (number : kind t = .number) : Reads .primary (t :: rest) (.number t) rest
  | name {t : α} {rest : List α} (name : kind t = .identifier) : Reads .primary (t :: rest) (.name t) rest
  | paren {t : α} {ts after rest : List α} {inner : Expr α} {closing : Option α} (opening : kind t = .openParen)
      (inside : Reads (.chain .sum) ts inner after) (close : takeKind kind .closeParen after = (closing, rest)) :
      Reads .primary (t :: ts) (.paren t inner closing) rest
  | missing {ts : List α} (none : ¬ Begins kind opensOperand ts) : Reads .primary ts .missing ts
  | nothing {c : Chain} {ts rest : List α} (first : Reads c.operand ts .missing rest) :
      Reads (.chain c) ts .missing rest
  | chain {c : Chain} {ts after rest : List α} {left e : Expr α} (first : Reads c.operand ts left after)
      (found : left ≠ .missing) (more : Reads (.further c left) after e rest) : Reads (.chain c) ts e rest
  | operator {c : Chain} {t : α} {ts after rest : List α} {left right e : Expr α}
      (operator : c.isOperator (kind t) = true) (second : Reads c.operand ts right after)
      (more : Reads (.further c (.binary left t right)) after e rest) : Reads (.further c left) (t :: ts) e rest
  | done {c : Chain} {ts : List α} {left : Expr α} (none : ¬ Begins kind c.isOperator ts) :
      Reads (.further c left) ts left ts

end

/-! ## Parsing reads by the rules -/

section

variable {kind : α → Kind}

theorem not_begins_nil (p : Kind → Bool) : ¬ Begins kind p [] := by
  simp [Begins]

theorem begins_cons {p : Kind → Bool} {t : α} {rest : List α} : Begins kind p (t :: rest) ↔ p (kind t) = true := by
  simp [Begins]

/-- A parser reads by the rules whatever has fewer tokens than a bound. -/
def Obeys (kind : α → Kind) (p : List α → Expr α × List α) (g : Goal α) (bound : Nat) : Prop :=
  ∀ ts, ts.length < bound → Reads kind g ts (p ts).1 (p ts).2

theorem Obeys.primary {inner : List α → Expr α × List α} {bound : Nat} (h : Obeys kind inner (.chain .sum) bound) :
    Obeys kind (Calc.primary kind inner) .primary (bound + 1) := by
  intro ts hts
  cases ts with
  | nil => exact .missing (not_begins_nil _)
  | cons t rest =>
    have hinside := h rest (by simpa using hts)
    rw [Calc.primary]
    cases hkind : kind t with
    | number => exact .number hkind
    | identifier => exact .name hkind
    | openParen => exact .paren hkind hinside rfl
    | _ => exact .missing (by simp [begins_cons, hkind, opensOperand])

theorem Splits.length_le {p : List α → Expr α × List α} (h : Splits p) (ts : List α) : (p ts).2.length ≤ ts.length := by
  have hlength := congrArg List.length (h ts)
  rw [List.length_append] at hlength
  omega

/-- A chain is gone on with to its end, if there may be as many operators as there are tokens. -/
theorem Obeys.chainFrom {operand : List α → Expr α × List α} {c : Chain} {bound : Nat} (hsplits : Splits operand)
    (h : Obeys kind operand c.operand bound) {count : Nat} {left : Expr α} {ts : List α} (hcount : ts.length ≤ count)
    (hts : ts.length < bound) : Reads kind (.further c left) ts
      (Calc.chainFrom kind operand c.isOperator count left ts).1
      (Calc.chainFrom kind operand c.isOperator count left ts).2 := by
  fun_induction Calc.chainFrom kind operand c.isOperator count left ts with
  | case1 left ts =>
    obtain rfl := List.length_eq_zero_iff.mp (Nat.le_zero.mp hcount)
    exact .done (not_begins_nil _)
  | case2 => exact .done (not_begins_nil _)
  | case3 count left t rest hop right after heq ih =>
    rw [List.length_cons] at hcount hts
    have hread := h rest (by omega)
    have hlength : (operand rest).2.length ≤ rest.length := hsplits.length_le rest
    simp only [heq] at hread hlength
    exact .operator hop hread (ih (by omega) (by omega))
  | case4 count left t rest hop => exact .done (by rwa [begins_cons])

theorem Obeys.chain {operand : List α → Expr α × List α} {c : Chain} {bound : Nat} (hsplits : Splits operand)
    (h : Obeys kind operand c.operand bound) :
    Obeys kind (Calc.chain kind operand c.isOperator) (.chain c) bound := by
  intro ts hts
  have hread := h ts hts
  have hlength := hsplits.length_le ts
  simp only [Calc.chain]
  split
  · rename_i hmissing
    rw [Expr.isMissing_iff.mp hmissing] at hread
    exact .nothing hread
  · rename_i hfound
    refine .chain hread (mt Expr.isMissing_iff.mpr hfound) ?_
    exact h.chainFrom hsplits (Nat.le_refl _) (by omega)

theorem obeys_expressionAt (kind : α → Kind) (depth : Nat) :
    Obeys kind (expressionAt kind depth) (.chain .sum) depth := by
  induction depth with
  | zero => exact fun ts hts => absurd hts (Nat.not_lt_zero _)
  | succ depth ih =>
    have hsplits := splits_expressionAt kind depth
    exact (ih.primary.chain (c := .term) hsplits.primary).chain (c := .sum) (hsplits.primary.chain isMultiplicative)

theorem reads_expression (kind : α → Kind) (ts : List α) :
    Reads kind (.chain .sum) ts (expression kind ts).1 (expression kind ts).2 :=
  obeys_expressionAt kind (ts.length + 1) ts (Nat.lt_succ_self _)

/-- The rules allow one reading at most. -/
theorem Reads.unique {g : Goal α} {ts rest rest' : List α} {e e' : Expr α} (h : Reads kind g ts e rest)
    (h' : Reads kind g ts e' rest') : e = e' ∧ rest = rest' := by
  induction h generalizing e' rest' with
  | number number => cases h' <;> simp_all [begins_cons, opensOperand]
  | name name => cases h' <;> simp_all [begins_cons, opensOperand]
  | paren opening inside close ih =>
    cases h' with
    | paren _ inside' close' =>
      obtain ⟨rfl, rfl⟩ := ih inside'
      rw [close] at close'
      cases close'
      exact ⟨rfl, rfl⟩
    | _ => simp_all [begins_cons, opensOperand]
  | missing none => cases h' <;> simp_all [begins_cons, opensOperand]
  | nothing first ih =>
    cases h' with
    | nothing first' => exact ⟨rfl, (ih first').2⟩
    | chain first' found _ => exact absurd (ih first').1.symm found
  | chain first found more ih ihMore =>
    cases h' with
    | nothing first' => exact absurd (ih first').1 found
    | chain first' _ more' =>
      obtain ⟨rfl, rfl⟩ := ih first'
      exact ihMore more'
  | operator operator second more ih ihMore =>
    cases h' with
    | operator _ second' more' =>
      obtain ⟨rfl, rfl⟩ := ih second'
      exact ihMore more'
    | done none => exact absurd (begins_cons.mpr operator) none
  | done none =>
    cases h' with
    | operator operator _ _ => exact absurd (begins_cons.mpr operator) none
    | done _ => exact ⟨rfl, rfl⟩

theorem reads_iff {ts rest : List α} {e : Expr α} :
    Reads kind (.chain .sum) ts e rest ↔ expression kind ts = (e, rest) := by
  constructor
  · intro h
    obtain ⟨he, hrest⟩ := (reads_expression kind ts).unique h
    exact Prod.ext he hrest
  · intro h
    have hread := reads_expression kind ts
    rwa [h] at hread

/-! ## Tokens that are read -/

/-- What is read and what is left make up the tokens. -/
theorem Reads.tokens_append {g : Goal α} {ts rest : List α} {e : Expr α} (h : Reads kind g ts e rest) :
    e.tokens ++ rest = g.before ++ ts := by
  induction h with
  | number => rfl
  | name => rfl
  | @paren t ts after rest inner closing opening inside close ih =>
    have hclose := takeKind_append kind .closeParen after
    rw [close] at hclose
    simp only [Expr.tokens, List.cons_append, List.append_assoc, hclose, ih, Goal.before, List.nil_append]
  | missing => rfl
  | nothing first ih => rwa [Chain.before_operand] at ih
  | chain first found more ih ihMore =>
    rw [Chain.before_operand] at ih
    rw [ihMore, Goal.before, ih]
    rfl
  | operator operator second more ih ihMore =>
    rw [Chain.before_operand, List.nil_append] at ih
    rw [ihMore, Goal.before, Expr.tokens, List.append_assoc, List.cons_append, ih]
    rfl
  | done => rfl

theorem takeKind_suffix (kind : α → Kind) (k : Kind) (ts : List α) : (takeKind kind k ts).2 <:+ ts :=
  ⟨_, takeKind_append kind k ts⟩

theorem Reads.suffix {g : Goal α} {ts rest : List α} {e : Expr α} (h : Reads kind g ts e rest) : rest <:+ ts := by
  induction h with
  | number => exact List.suffix_cons ..
  | name => exact List.suffix_cons ..
  | @paren t ts after rest inner closing opening inside close ih =>
    have hclose := takeKind_suffix kind .closeParen after
    rw [close] at hclose
    exact (hclose.trans ih).trans (List.suffix_cons ..)
  | missing => exact List.suffix_refl _
  | nothing first ih => exact ih
  | chain first found more ih ihMore => exact ihMore.trans ih
  | operator operator second more ih ihMore => exact (ihMore.trans ih).trans (List.suffix_cons ..)
  | done => exact List.suffix_refl _

/-- Kinds of tokens that an expression can go on with. -/
def continues : Kind → Bool
  | .number | .identifier | .openParen | .closeParen | .plus | .minus | .star | .slash => true
  | .endOfFile | .equals | .semicolon | .unknown => false

theorem Chain.continues_of_isOperator {c : Chain} {k : Kind} (h : c.isOperator k = true) : continues k = true := by
  cases c <;> cases k <;> first | rfl | cases h

theorem kind_of_takeKind (kind : α → Kind) (k : Kind) (ts : List α) : ∀ t ∈ (takeKind kind k ts).1, kind t = k := by
  fun_cases takeKind kind k ts <;> simp_all

/-- No other tokens stand in an expression. -/
theorem Reads.continues {g : Goal α} {ts rest : List α} {e : Expr α} (h : Reads kind g ts e rest)
    (hg : ∀ t ∈ g.before, Calc.continues (kind t) = true) : ∀ t ∈ e.tokens, Calc.continues (kind t) = true := by
  induction h with
  | number number => simp [Expr.tokens, number, Calc.continues]
  | name name => simp [Expr.tokens, name, Calc.continues]
  | @paren t ts after rest inner closing opening inside close ih =>
    have hclosing : ∀ t ∈ closing, kind t = .closeParen := by
      have := kind_of_takeKind kind .closeParen after
      rwa [close] at this
    intro x hx
    simp only [Expr.tokens, List.mem_cons, List.mem_append, Option.mem_toList] at hx
    rcases hx with rfl | hx | hx
    · rw [opening]
      rfl
    · exact ih (by simp [Goal.before]) x hx
    · rw [hclosing x hx]
      rfl
  | missing => simp [Expr.tokens]
  | nothing => simp [Expr.tokens]
  | chain first found more ih ihMore => exact ihMore (ih (by simp))
  | operator operator second more ih ihMore =>
    refine ihMore fun x hx => ?_
    simp only [Goal.before, Expr.tokens, List.mem_append, List.mem_cons] at hx
    rcases hx with hx | rfl | hx
    · exact hg x hx
    · exact Chain.continues_of_isOperator operator
    · exact ih (by simp) x hx
  | done => exact hg

/-! ## Reading by kinds only -/

theorem Expr.map_map {γ : Type} (f : α → β) (g : β → γ) (e : Expr α) : (e.map f).map g = e.map (g ∘ f) := by
  induction e with
  | paren opening inner closing ih => simp [Expr.map, ih]
  | binary left operator right ihl ihr => simp [Expr.map, ihl, ihr]
  | _ => rfl

theorem Statement.map_map {γ : Type} (f : α → β) (g : β → γ) (st : Statement α) :
    (st.map f).map g = st.map (g ∘ f) := by
  cases st <;> simp [Statement.map, Expr.map_map]

theorem Expr.map_congr {f g : α → β} {e : Expr α} (h : ∀ x ∈ e.tokens, f x = g x) : e.map f = e.map g := by
  induction e with
  | missing => rfl
  | number leaf | name leaf => simp [Expr.map, h leaf (by simp [Expr.tokens])]
  | paren opening inner closing ih =>
    simp only [Expr.tokens, List.mem_cons, List.mem_append] at h
    rw [Expr.map, Expr.map, h opening (.inl rfl), ih fun x hx => h x (.inr (.inl hx)),
      Option.map_congr fun x hx => h x (.inr (.inr (Option.mem_toList.mpr hx)))]
  | binary left operator right ihl ihr =>
    simp only [Expr.tokens, List.mem_cons, List.mem_append] at h
    rw [Expr.map, Expr.map, ihl fun x hx => h x (.inl hx), h operator (.inr (.inl rfl)),
      ihr fun x hx => h x (.inr (.inr hx))]

theorem Statement.map_congr {f g : α → β} {st : Statement α} (h : ∀ x ∈ st.tokens, f x = g x) :
    st.map f = st.map g := by
  cases st with
  | assignment name equals value semicolon =>
    simp only [Statement.tokens, List.mem_cons, List.mem_append] at h
    rw [Statement.map, Statement.map, h name (.inl rfl), h equals (.inr (.inl rfl)),
      Expr.map_congr fun x hx => h x (.inr (.inr (.inl hx))),
      Option.map_congr fun x hx => h x (.inr (.inr (.inr (Option.mem_toList.mpr hx))))]
  | expression e semicolon =>
    simp only [Statement.tokens, List.mem_append] at h
    rw [Statement.map, Statement.map, Expr.map_congr fun x hx => h x (.inl hx),
      Option.map_congr fun x hx => h x (.inr (Option.mem_toList.mpr hx))]
  | skipped leaf => rw [Statement.map, Statement.map, h leaf (by simp [Statement.tokens])]

theorem Expr.map_id (e : Expr α) : e.map id = e := by
  induction e with
  | paren opening inner closing ih => simp [Expr.map, ih]
  | binary left operator right ihl ihr => simp [Expr.map, ihl, ihr]
  | _ => rfl

theorem Statement.map_id (st : Statement α) : st.map id = st := by
  cases st <;> simp [Statement.map, Expr.map_id]

/-- What is looked for, with other tokens. -/
def Goal.map (f : α → β) : Goal α → Goal β
  | .primary => .primary
  | .chain c => .chain c
  | .further c left => .further c (left.map f)

theorem Chain.operand_map (f : α → β) (c : Chain) : (c.operand : Goal α).map f = c.operand := by
  cases c <;> rfl

theorem begins_map {kind' : β → Kind} (f : α → β) (p : Kind → Bool) (ts : List α) :
    Begins kind' p (ts.map f) ↔ Begins (kind' ∘ f) p ts := by
  cases ts <;> simp [Begins]

theorem takeKind_map {kind' : β → Kind} (f : α → β) (k : Kind) (ts : List α) : takeKind kind' k (ts.map f) =
    ((takeKind (kind' ∘ f) k ts).1.map f, (takeKind (kind' ∘ f) k ts).2.map f) := by
  cases ts with
  | nil => rfl
  | cons t rest =>
    simp only [List.map_cons, takeKind, Function.comp_apply]
    split <;> rfl

theorem Expr.map_ne_missing {f : α → β} {e : Expr α} (h : e ≠ .missing) : e.map f ≠ .missing := by
  cases e with
  | missing => exact absurd rfl h
  | _ => simp [Expr.map]

/-- Tokens of the same kinds are read alike. -/
theorem Reads.map {kind' : β → Kind} (f : α → β) {g : Goal α} {ts rest : List α} {e : Expr α}
    (h : Reads (kind' ∘ f) g ts e rest) : Reads kind' (g.map f) (ts.map f) (e.map f) (rest.map f) := by
  induction h with
  | number number => exact .number number
  | name name => exact .name name
  | @paren t ts after rest inner closing opening inside close ih =>
    refine .paren opening ih ?_
    rw [takeKind_map, close]
  | missing none => exact .missing (mt (begins_map f _ _).mp none)
  | nothing first ih =>
    rw [Chain.operand_map] at ih
    exact .nothing ih
  | chain first found more ih ihMore =>
    rw [Chain.operand_map] at ih
    exact .chain ih (Expr.map_ne_missing found) ihMore
  | operator operator second more ih ihMore =>
    rw [Chain.operand_map] at ih
    exact .operator operator ih ihMore
  | done none => exact .done (mt (begins_map f _ _).mp none)

theorem expression_map (kind' : β → Kind) (f : α → β) (ts : List α) : expression kind' (ts.map f) =
    ((expression (kind' ∘ f) ts).1.map f, (expression (kind' ∘ f) ts).2.map f) :=
  reads_iff.mp ((reads_expression (kind' ∘ f) ts).map f)

/-! ## Reading on -/

theorem begins_append {p : Kind → Bool} {ts us : List α} (h : Begins kind p (ts ++ us)) :
    Begins kind p ts ∨ ts = [] ∧ Begins kind p us := by
  cases ts with
  | nil => exact .inr ⟨rfl, h⟩
  | cons t ts => exact .inl h

theorem Begins.imp {p q : Kind → Bool} {ts : List α} (hpq : ∀ k, p k = true → q k = true) (h : Begins kind p ts) :
    Begins kind q ts := by
  obtain ⟨t, ht, hp⟩ := h
  exact ⟨t, ht, hpq _ hp⟩

/-- Later tokens are not taken unless the first of them comes next. -/
theorem takeKind_append_right {k : Kind} {ts us : List α} (h : ts = [] → ¬ Begins kind (· = k) us) :
    takeKind kind k (ts ++ us) = ((takeKind kind k ts).1, (takeKind kind k ts).2 ++ us) := by
  cases ts with
  | cons t ts =>
    simp only [List.cons_append, takeKind]
    split <;> rfl
  | nil =>
    cases us with
    | nil => rfl
    | cons u us =>
      have hu : kind u ≠ k := by simpa [begins_cons] using h rfl
      simp [takeKind, hu]

/-- Later tokens change nothing if reading stops before them, or if they are none that an expression can go on with. -/
theorem Reads.append {g : Goal α} {ts rest us : List α} {e : Expr α} (h : Reads kind g ts e rest)
    (hus : rest = [] → ¬ Begins kind Calc.continues us) : Reads kind g (ts ++ us) e (rest ++ us) := by
  induction h with
  | number number => exact .number number
  | name name => exact .name name
  | @paren t ts after rest inner closing opening inside close ih =>
    have hrest : after = [] → rest = [] := by
      rintro rfl
      exact (Prod.mk.inj close).2.symm
    refine .paren opening (ih fun hafter => hus (hrest hafter)) ?_
    rw [takeKind_append_right, close]
    intro hafter hbegins
    refine hus (hrest hafter) (hbegins.imp fun k hk => ?_)
    rw [of_decide_eq_true hk]
    rfl
  | missing none =>
    refine .missing fun hbegins => ?_
    rcases begins_append hbegins with hbegins | ⟨hnil, hbegins⟩
    · exact none hbegins
    · exact hus hnil (hbegins.imp fun k => by cases k <;> simp [opensOperand, Calc.continues])
  | nothing first ih => exact .nothing (ih hus)
  | @chain c ts after rest left e first found more ih ihMore =>
    refine .chain (ih fun hafter => hus ?_) found (ihMore hus)
    exact List.suffix_nil.mp (hafter ▸ more.suffix)
  | @operator c t ts after rest left right e operator second more ih ihMore =>
    refine .operator operator (ih fun hafter => hus ?_) (ihMore hus)
    exact List.suffix_nil.mp (hafter ▸ more.suffix)
  | done none =>
    refine .done fun hbegins => ?_
    rcases begins_append hbegins with hbegins | ⟨hnil, hbegins⟩
    · exact none hbegins
    · exact hus hnil (hbegins.imp fun k => Chain.continues_of_isOperator)

/-! ## Statements -/

theorem simpleStatement_eq (kind : α → Kind) (t : α) (rest : List α) : simpleStatement kind t rest =
    if opensOperand (kind t) then
      (.expression (expression kind (t :: rest)).1 (takeKind kind .semicolon (expression kind (t :: rest)).2).1,
        (takeKind kind .semicolon (expression kind (t :: rest)).2).2)
    else (.skipped t, rest) := by
  rw [simpleStatement]
  cases kind t <;> rfl

theorem length_statement_lt (kind : α → Kind) (t : α) (rest : List α) :
    (statement kind t rest).2.length < (t :: rest).length := by
  obtain ⟨hne, hsplit⟩ := statement_spec kind t rest
  have hpos := List.length_pos_iff.mpr hne
  rw [← hsplit, List.length_append]
  omega

/-- The bound of statements is never met. -/
theorem statementsFrom_eq (kind : α → Kind) {count count' : Nat} {ts : List α} (h : ts.length ≤ count)
    (h' : ts.length ≤ count') : statementsFrom kind count ts = statementsFrom kind count' ts := by
  induction count generalizing count' ts with
  | zero =>
    obtain rfl := List.length_eq_zero_iff.mp (Nat.le_zero.mp h)
    cases count' <;> rfl
  | succ count ih =>
    cases ts with
    | nil => cases count' <;> rfl
    | cons t rest =>
      obtain ⟨count', rfl⟩ := Nat.exists_eq_succ_of_ne_zero (by simp at h'; omega : count' ≠ 0)
      have hlt := length_statement_lt kind t rest
      simp only [statementsFrom]
      rw [ih (by omega) (by omega : (statement kind t rest).2.length ≤ count')]

theorem statements_cons (kind : α → Kind) (t : α) (rest : List α) :
    statements kind (t :: rest) = (statement kind t rest).1 :: statements kind (statement kind t rest).2 := by
  have hlt := length_statement_lt kind t rest
  rw [List.length_cons] at hlt
  show statementsFrom kind (rest.length + 1) (t :: rest) = _
  simp only [statementsFrom]
  rw [statementsFrom_eq kind (by omega) (Nat.le_refl _)]
  rfl

theorem simpleStatement_map {kind' : β → Kind} (f : α → β) (t : α) (rest : List α) :
    simpleStatement kind' (f t) (rest.map f) = ((simpleStatement (kind' ∘ f) t rest).1.map f,
      (simpleStatement (kind' ∘ f) t rest).2.map f) := by
  have hexpression := expression_map kind' f (t :: rest)
  rw [List.map_cons] at hexpression
  simp only [simpleStatement, Function.comp_apply, hexpression, takeKind_map]
  cases kind' (f t) <;> rfl

theorem statement_map {kind' : β → Kind} (f : α → β) (t : α) (rest : List α) :
    statement kind' (f t) (rest.map f) =
      ((statement (kind' ∘ f) t rest).1.map f, (statement (kind' ∘ f) t rest).2.map f) := by
  cases rest with
  | nil => exact simpleStatement_map f t []
  | cons equals rest =>
    rw [List.map_cons, statement, statement]
    simp only [Function.comp_apply]
    split
    · simp only [expression_map, takeKind_map]
      rfl
    · exact simpleStatement_map f t (equals :: rest)

/-- Statements depend on the kinds of tokens only. -/
theorem statements_map {kind' : β → Kind} (f : α → β) (ts : List α) :
    statements kind' (ts.map f) = (statements (kind' ∘ f) ts).map (Statement.map f) := by
  induction hn : ts.length using Nat.strongRecOn generalizing ts with
  | ind n ih =>
    cases ts with
    | nil => rfl
    | cons t rest =>
      have hlt := length_statement_lt (kind' ∘ f) t rest
      rw [List.map_cons, statements_cons, statements_cons, statement_map, ih _ (hn ▸ hlt) _ rfl]
      rfl

/-! ## Statements after a semicolon -/

/-- The last token is a semicolon, if there is one. -/
def EndsStatement (kind : α → Kind) (ts : List α) : Prop := ∀ t ∈ ts.getLast?, kind t = .semicolon

theorem EndsStatement.suffix {ts rest : List α} (h : EndsStatement kind ts) (hrest : rest <:+ ts) :
    EndsStatement kind rest := by
  obtain ⟨before, rfl⟩ := hrest
  intro t ht
  refine h t ?_
  rw [List.getLast?_append, Option.mem_def.mp ht]
  rfl

/-- An expression stops before a semicolon, so that later tokens change nothing. -/
theorem expression_append {ts : List α} (h : EndsStatement kind ts) (hne : ts ≠ []) (us : List α) :
    (expression kind ts).2 ≠ [] ∧
      expression kind (ts ++ us) = ((expression kind ts).1, (expression kind ts).2 ++ us) := by
  have hread := reads_expression kind ts
  have hrest : (expression kind ts).2 ≠ [] := by
    intro hnil
    obtain ⟨t, ht⟩ : ∃ t, ts.getLast? = some t := ⟨_, List.getLast?_eq_some_getLast hne⟩
    have htokens := hread.tokens_append
    rw [hnil, List.append_nil] at htokens
    have hcontinues := hread.continues (by simp [Goal.before]) t (htokens ▸ List.mem_of_getLast? ht)
    rw [h t ht] at hcontinues
    cases hcontinues
  exact ⟨hrest, reads_iff.mp (hread.append fun hnil => absurd hnil hrest)⟩

theorem statement_of_ne {t : α} {rest : List α} (h : kind t ≠ .identifier) :
    statement kind t rest = simpleStatement kind t rest := by
  cases rest with
  | nil => rfl
  | cons equals rest => rw [statement, if_neg fun hkinds => h hkinds.1]

theorem statement_append {t : α} {rest : List α} (h : EndsStatement kind (t :: rest)) (us : List α) :
    statement kind t (rest ++ us) = ((statement kind t rest).1, (statement kind t rest).2 ++ us) := by
  -- An expression and the semicolon after it.
  have hexpression : ∀ ts, EndsStatement kind ts → ts ≠ [] →
      expression kind (ts ++ us) = ((expression kind ts).1, (expression kind ts).2 ++ us) ∧
        takeKind kind .semicolon ((expression kind ts).2 ++ us) =
          ((takeKind kind .semicolon (expression kind ts).2).1,
            (takeKind kind .semicolon (expression kind ts).2).2 ++ us) := by
    intro ts hts hne
    obtain ⟨hrest, happend⟩ := expression_append hts hne us
    exact ⟨happend, takeKind_append_right fun hnil => absurd hnil hrest⟩
  have hsimple : simpleStatement kind t (rest ++ us) =
      ((simpleStatement kind t rest).1, (simpleStatement kind t rest).2 ++ us) := by
    obtain ⟨happend, htake⟩ := hexpression (t :: rest) h (List.cons_ne_nil _ _)
    rw [List.cons_append] at happend
    simp only [simpleStatement, happend, htake]
    cases kind t <;> rfl
  cases rest with
  | nil =>
    have hkind : kind t ≠ .identifier := by simp [h t rfl]
    rw [statement_of_ne hkind, statement_of_ne hkind, hsimple]
  | cons equals rest =>
    rw [List.cons_append, statement, statement]
    split
    · rename_i hkinds
      have hne : rest ≠ [] := by
        rintro rfl
        have hequals := h equals rfl
        rw [hkinds.2] at hequals
        cases hequals
      obtain ⟨happend, htake⟩ := hexpression rest (h.suffix ⟨[t, equals], rfl⟩) hne
      simp only [happend, htake]
    · exact hsimple

theorem statements_append {ts : List α} (h : EndsStatement kind ts) (us : List α) :
    statements kind (ts ++ us) = statements kind ts ++ statements kind us := by
  induction hn : ts.length using Nat.strongRecOn generalizing ts with
  | ind n ih =>
    cases ts with
    | nil => rfl
    | cons t rest =>
      have hlt := length_statement_lt kind t rest
      have hsuffix : (statement kind t rest).2 <:+ t :: rest := ⟨_, (statement_spec kind t rest).2⟩
      rw [List.cons_append, statements_cons, statement_append h, statements_cons,
        ih _ (hn ▸ hlt) (h.suffix hsuffix) rfl]
      rfl

end

end LosslessSyntax.Calc
