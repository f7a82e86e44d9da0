import LosslessSyntax.Proofs.Depicting
import LosslessSyntax.Proofs.Lexing

/-!
# Precedence and recovery

The shape of the trees of the calculator language, of correct sources and of those with errors alike.

* `Expr.Orderly`, `Statement.Orderly`: the rules for one node, given the tokens that follow it. Operators bind as they
  should and to the left, and something is missing only if the next token cannot begin it.
* `Expr.Tidy`, `Statement.Tidy`: the rules for a node and for all that is below it.
* `Reads.tidy`: what is read is tidy, in front of what is left. The induction carries what has been read of a chain so
  far, whose shape tells which operators may follow it (`Fits`).
-/

namespace LosslessSyntax.Calc

variable {α β : Type}

/-! ## Rules -/

def Expr.IsPrimary : Expr α → Prop
  | .number _ | .name _ | .paren .. => True
  | .missing | .binary .. => False

section

variable (kind : α → Kind)

/-- A binary expression with a multiplicative operator. -/
def Expr.IsProduct : Expr α → Prop
  | .binary _ operator _ => kind operator = .star ∨ kind operator = .slash
  | _ => False

/-- An operand is missing only if the next token cannot begin one. -/
def Expr.Needed (e : Expr α) (next : List α) : Prop := e = .missing → ¬ Begins kind opensOperand next

/-- A token is of a kind, and missing only if the next token is not of this kind. -/
def Takes (k : Kind) (taken : Option α) (next : List α) : Prop :=
  (∀ t ∈ taken, kind t = k) ∧ (taken = none → ¬ Begins kind (· == k) next)

/-- The rules for an expression in front of the tokens that follow it. -/
def Expr.Orderly (after : List α) : Expr α → Prop
  | .missing => True
  | .number value => kind value = .number
  | .name token => kind token = .identifier
  | .paren opening inner closing =>
    kind opening = .openParen ∧ inner.Needed kind (closing.toList ++ after) ∧ Takes kind .closeParen closing after
  | .binary left operator right =>
    left ≠ .missing ∧ right.Needed kind after ∧
      ((kind operator = .star ∨ kind operator = .slash) ∧
          (left.IsPrimary ∨ left.IsProduct kind) ∧ (right.IsPrimary ∨ right = .missing) ∨
        (kind operator = .plus ∨ kind operator = .minus) ∧
          (right.IsPrimary ∨ right.IsProduct kind ∨ right = .missing))

/-- The rules for a statement in front of the tokens that follow it. -/
def Statement.Orderly (after : List α) : Statement α → Prop
  | .assignment name equals value semicolon =>
    kind name = .identifier ∧ kind equals = .equals ∧ value.Needed kind (semicolon.toList ++ after) ∧
      Takes kind .semicolon semicolon after
  | .expression e semicolon =>
    e ≠ .missing ∧ ((e.tokens ++ (semicolon.toList ++ after)).take 2).map kind ≠ [.identifier, .equals] ∧
      Takes kind .semicolon semicolon after
  | .skipped token => kind token ∉ [.identifier, .number, .openParen, .endOfFile]

/-- The rules hold for an expression and all its parts. -/
def Expr.Tidy : List α → Expr α → Prop
  | after, .paren opening inner closing =>
    (Expr.paren opening inner closing).Orderly kind after ∧ inner.Tidy (closing.toList ++ after)
  | after, .binary left operator right =>
    (Expr.binary left operator right).Orderly kind after ∧ left.Tidy (operator :: (right.tokens ++ after)) ∧
      right.Tidy after
  | after, e => e.Orderly kind after

def Statement.Tidy (after : List α) (st : Statement α) : Prop :=
  st.Orderly kind after ∧
    match st with
    | .assignment _ _ value semicolon => value.Tidy kind (semicolon.toList ++ after)
    | .expression e semicolon => e.Tidy kind (semicolon.toList ++ after)
    | .skipped _ => True

end

section

variable {kind : α → Kind}

theorem Expr.Tidy.orderly {after : List α} {e : Expr α} (h : e.Tidy kind after) : e.Orderly kind after := by
  cases e with
  | paren => exact h.1
  | binary => exact h.1
  | _ => exact h

/-! ## Shapes of what is read -/

/-- The shapes of what is found where something is looked for. -/
def Fits (kind : α → Kind) : Goal α → Expr α → Prop
  | .primary, e => e.IsPrimary
  | .chain .term, e | .further .term _, e => e.IsPrimary ∨ e.IsProduct kind
  | .chain .sum, e | .further .sum _, e => e ≠ .missing

theorem Fits.operand {c : Chain} {e : Expr α} (h : Fits kind c.operand e) : Fits kind (.chain c) e := by
  cases c with
  | term => exact .inl h
  | sum =>
    rintro rfl
    rcases h with h | h <;> exact h

theorem Fits.ne_missing {g : Goal α} {e : Expr α} (h : Fits kind g e) : e ≠ .missing := by
  rintro rfl
  rcases g with _ | (_ | _) | ⟨_ | _, _⟩
  · exact h
  · rcases h with h | h <;> exact h
  · exact h rfl
  · rcases h with h | h <;> exact h
  · exact h rfl

theorem fits_binary {c : Chain} {left right : Expr α} {t : α} (h : c.isOperator (kind t) = true) :
    Fits kind (.chain c) (.binary left t right) := by
  cases c with
  | term =>
    refine .inr ?_
    show kind t = .star ∨ kind t = .slash
    revert h
    cases kind t <;> simp [Chain.isOperator, isMultiplicative]
  | sum => exact fun heq => by cases heq

/-- Nothing has been read, or a chain of the right shape. -/
def Goal.Sound (kind : α → Kind) : Goal α → Prop
  | .further c left => Fits kind (.chain c) left
  | _ => True

theorem Chain.operand_sound (kind : α → Kind) (c : Chain) : (c.operand : Goal α).Sound kind := by
  cases c <;> trivial

/-- What is read has the shape of what was looked for, or nothing can be read there. -/
theorem Reads.fits {g : Goal α} {ts rest : List α} {e : Expr α} (h : Reads kind g ts e rest) (hg : g.Sound kind) :
    ((∀ c left, g ≠ .further c left) ∧ e = .missing ∧ ¬ Begins kind opensOperand ts ∧ rest = ts) ∨ Fits kind g e := by
  induction h with
  | number => exact .inr trivial
  | name => exact .inr trivial
  | paren => exact .inr trivial
  | missing none => exact .inl ⟨by simp, rfl, none, rfl⟩
  | @nothing c ts rest first ih =>
    rcases ih (c.operand_sound kind) with ⟨_, _, hnone, hrest⟩ | hfits
    · exact .inl ⟨by simp, rfl, hnone, hrest⟩
    · exact absurd rfl hfits.ne_missing
  | @chain c ts after rest left e first found more ih ihMore =>
    have hleft : Fits kind (.chain c) left := by
      rcases ih (c.operand_sound kind) with ⟨_, hmissing, _⟩ | hfits
      · exact absurd hmissing found
      · exact hfits.operand
    rcases ihMore hleft with ⟨hfresh, _⟩ | hfits
    · exact absurd rfl (hfresh c left)
    · cases c <;> exact .inr hfits
  | @operator c t ts after rest left right e operator second more ih ihMore =>
    rcases ihMore (fits_binary operator) with ⟨hfresh, _⟩ | hfits
    · exact absurd rfl (hfresh c _)
    · cases c <;> exact .inr hfits
  | @done c ts left none => cases c <;> exact .inr hg

/-- What has been read is tidy in front of what follows. -/
def Goal.Tidy (kind : α → Kind) (ts : List α) : Goal α → Prop
  | .further c left => Fits kind (.chain c) left ∧ left.Tidy kind ts
  | _ => True

theorem Chain.operand_tidy (kind : α → Kind) (ts : List α) (c : Chain) : (c.operand : Goal α).Tidy kind ts := by
  cases c <;> trivial

/-- Nothing is read only where nothing can be read, and then the same tokens are left. -/
theorem Reads.needed {g : Goal α} {ts rest : List α} {e : Expr α} (h : Reads kind g ts e rest) (hg : g.Sound kind) :
    e.Needed kind ts ∧ e.Needed kind rest := by
  rcases h.fits hg with ⟨_, _, hnone, rfl⟩ | hfits
  · exact ⟨fun _ => hnone, fun _ => hnone⟩
  · exact ⟨fun heq => absurd heq hfits.ne_missing, fun heq => absurd heq hfits.ne_missing⟩

theorem takes_of_takeKind {k : Kind} {ts rest : List α} {taken : Option α} (h : takeKind kind k ts = (taken, rest)) :
    Takes kind k taken rest ∧ taken.toList ++ rest = ts := by
  have happend := takeKind_append kind k ts
  have hkind := kind_of_takeKind kind k ts
  rw [h] at happend hkind
  refine ⟨⟨hkind, fun hnone => ?_⟩, happend⟩
  subst hnone
  rw [← show rest = ts from happend] at h
  cases rest with
  | nil => exact not_begins_nil _
  | cons t rest =>
    rw [takeKind] at h
    split at h
    · cases h
    · rw [begins_cons]
      simpa using ‹¬ kind t = k›

/-- An operator with its operands is in order. -/
theorem orderly_binary {c : Chain} {t : α} {ts after : List α} {left right : Expr α}
    (hop : c.isOperator (kind t) = true) (hleft : Fits kind (.chain c) left) (h : Reads kind c.operand ts right after) :
    (Expr.binary left t right).Orderly kind after := by
  refine ⟨hleft.ne_missing, (h.needed (c.operand_sound kind)).2, ?_⟩
  have hright : right = .missing ∨ Fits kind c.operand right :=
    (h.fits (c.operand_sound kind)).imp_left fun hnone => hnone.2.1
  cases c with
  | term =>
    refine .inl ⟨?_, hleft, hright.symm⟩
    revert hop
    cases kind t <;> simp [Chain.isOperator, isMultiplicative]
  | sum =>
    refine .inr ⟨?_, or_assoc.mp hright.symm⟩
    revert hop
    cases kind t <;> simp [Chain.isOperator, isAdditive]

/-- What is read is tidy in front of what is left. -/
theorem Reads.tidy {g : Goal α} {ts rest : List α} {e : Expr α} (h : Reads kind g ts e rest) (hg : g.Tidy kind ts) :
    e.Tidy kind rest := by
  induction h with
  | number number => exact number
  | name name => exact name
  | @paren t ts after rest inner closing opening inside close ih =>
    obtain ⟨htakes, hafter⟩ := takes_of_takeKind close
    subst hafter
    exact ⟨⟨opening, (inside.needed trivial).2, htakes⟩, ih trivial⟩
  | missing => exact trivial
  | nothing => exact trivial
  | @chain c ts after rest left e first found more ih ihMore =>
    have hleft := (first.fits (c.operand_sound kind)).resolve_left fun hnone => found hnone.2.1
    exact ihMore ⟨hleft.operand, ih (c.operand_tidy kind ts)⟩
  | @operator c t ts after rest left right e operator second more ih ihMore =>
    obtain ⟨hleft, htidy⟩ := hg
    have hsplit : right.tokens ++ after = ts := by
      simpa using second.tokens_append
    subst hsplit
    exact ihMore ⟨fits_binary operator, orderly_binary operator hleft second, htidy, ih (c.operand_tidy kind _)⟩
  | done none => exact hg.2

/-! ## Statements -/

/-- An expression and the semicolon after it, if there is one. -/
theorem closed_expression (kind : α → Kind) (ts : List α) {after rest : List α} {e : Expr α} {semicolon : Option α}
    (he : expression kind ts = (e, after)) (hsemicolon : takeKind kind .semicolon after = (semicolon, rest)) :
    e.tokens ++ (semicolon.toList ++ rest) = ts ∧ e.Needed kind (semicolon.toList ++ rest) ∧
      e.Tidy kind (semicolon.toList ++ rest) ∧ Takes kind .semicolon semicolon rest := by
  have hreads := reads_iff.mpr he
  obtain ⟨htakes, rfl⟩ := takes_of_takeKind hsemicolon
  exact ⟨hreads.tokens_append, (hreads.needed trivial).2, hreads.tidy trivial, htakes⟩

theorem simpleStatement_tidy {t : α} {rest : List α} (ht : kind t ≠ .endOfFile)
    (hstart : ((t :: rest).take 2).map kind ≠ [.identifier, .equals]) :
    (simpleStatement kind t rest).1.Tidy kind (simpleStatement kind t rest).2 := by
  rw [simpleStatement_eq]
  split
  · rename_i hopens
    obtain ⟨htokens, _, htidy, htakes⟩ := closed_expression kind (t :: rest) rfl rfl
    have hfound : (expression kind (t :: rest)).1 ≠ .missing := fun hmissing =>
      ((reads_expression kind (t :: rest)).needed trivial).1 hmissing (begins_cons.mpr hopens)
    exact ⟨⟨hfound, htokens.symm ▸ hstart, htakes⟩, htidy⟩
  · rename_i hopens
    refine ⟨?_, trivial⟩
    show kind t ∉ [.identifier, .number, .openParen, .endOfFile]
    revert ht hopens
    cases kind t <;> simp [opensOperand]

theorem statement_tidy {t : α} {rest : List α} (ht : kind t ≠ .endOfFile) :
    (statement kind t rest).1.Tidy kind (statement kind t rest).2 := by
  cases rest with
  | nil => exact simpleStatement_tidy ht (by simp)
  | cons equals rest =>
    rw [statement]
    split
    · rename_i hkinds
      obtain ⟨_, hneeded, htidy, htakes⟩ := closed_expression kind rest rfl rfl
      exact ⟨⟨hkinds.1, hkinds.2, hneeded, htakes⟩, htidy⟩
    · rename_i hkinds
      exact simpleStatement_tidy ht (by simpa using hkinds)

/-- Every statement is tidy in front of the tokens after it. The induction is on the number of tokens. -/
theorem statements_tidy {ts : List α} (hts : ∀ t ∈ ts, kind t ≠ .endOfFile) {st : Statement α}
    (hst : st ∈ statements kind ts) : ∃ before after, ts = before ++ (st.tokens ++ after) ∧ st.Tidy kind after := by
  induction hn : ts.length using Nat.strongRecOn generalizing ts with
  | ind n ih =>
    cases ts with
    | nil => cases hst
    | cons t rest =>
      have hsplit := (statement_spec kind t rest).2
      rw [statements_cons] at hst
      rcases List.mem_cons.mp hst with rfl | hst
      · exact ⟨[], _, hsplit.symm, statement_tidy (hts t List.mem_cons_self)⟩
      · have hlater : ∀ x ∈ (statement kind t rest).2, kind x ≠ .endOfFile := fun x hx =>
          hts x (hsplit ▸ List.mem_append_right _ hx)
        obtain ⟨before, after, heq, htidy⟩ := ih _ (hn ▸ length_statement_lt kind t rest) hlater hst rfl
        refine ⟨(statement kind t rest).1.tokens ++ before, after, ?_, htidy⟩
        rw [List.append_assoc, ← heq, hsplit]

/-! ## The end of the file -/

theorem not_begins_concat {p : Kind → Bool} {next : List α} {x : α} (h : ¬ Begins kind p next)
    (hx : p (kind x) = false) : ¬ Begins kind p (next ++ [x]) := by
  cases next with
  | nil => simp [begins_cons, hx]
  | cons t next => rwa [List.cons_append, begins_cons, ← begins_cons]

section

variable {x : α} (hx : kind x = .endOfFile)

include hx

theorem Expr.Needed.concat {e : Expr α} {next : List α} (h : e.Needed kind next) : e.Needed kind (next ++ [x]) :=
  fun hmissing => not_begins_concat (h hmissing) (by rw [hx]; rfl)

theorem Takes.concat {k : Kind} (hk : k ≠ .endOfFile) {taken : Option α} {next : List α} (h : Takes kind k taken next) :
    Takes kind k taken (next ++ [x]) :=
  ⟨h.1, fun hnone => not_begins_concat (h.2 hnone) (by rw [hx]; simpa using hk.symm)⟩

theorem Expr.Orderly.concat {e : Expr α} {after : List α} (h : e.Orderly kind after) :
    e.Orderly kind (after ++ [x]) := by
  cases e with
  | paren opening inner closing =>
    obtain ⟨hopening, hinner, hclosing⟩ := h
    exact ⟨hopening, List.append_assoc .. ▸ hinner.concat hx, hclosing.concat hx (by decide)⟩
  | binary left operator right => exact ⟨h.1, h.2.1.concat hx, h.2.2⟩
  | _ => exact h

theorem Expr.Tidy.concat {e : Expr α} {after : List α} (h : e.Tidy kind after) : e.Tidy kind (after ++ [x]) := by
  induction e generalizing after with
  | paren opening inner closing ih =>
    have hinner := ih h.2
    rw [List.append_assoc] at hinner
    exact ⟨h.1.concat hx, hinner⟩
  | binary left operator right ihl ihr =>
    have hleft := ihl h.2.1
    rw [List.cons_append, List.append_assoc] at hleft
    exact ⟨h.1.concat hx, hleft, ihr h.2.2⟩
  | _ => exact Expr.Orderly.concat hx h

theorem take_two_concat {ts : List α} (h : (ts.take 2).map kind ≠ [.identifier, .equals]) :
    ((ts ++ [x]).take 2).map kind ≠ [.identifier, .equals] := by
  match ts with
  | [] => simp
  | [t] => simp [hx]
  | t :: u :: ts => simpa using h

/-- A statement is still tidy if the end of the file comes after it. -/
theorem Statement.Tidy.concat {st : Statement α} {after : List α} (h : st.Tidy kind after) :
    st.Tidy kind (after ++ [x]) := by
  cases st with
  | assignment name equals value semicolon =>
    obtain ⟨⟨hname, hequals, hneeded, htakes⟩, htidy⟩ := h
    have hneeded := hneeded.concat hx
    have htidy := Expr.Tidy.concat hx htidy
    rw [List.append_assoc] at hneeded htidy
    exact ⟨⟨hname, hequals, hneeded, htakes.concat hx (by decide)⟩, htidy⟩
  | expression e semicolon =>
    obtain ⟨⟨hfound, hstart, htakes⟩, htidy⟩ := h
    have hstart := take_two_concat hx hstart
    have htidy := Expr.Tidy.concat hx htidy
    rw [List.append_assoc, List.append_assoc] at hstart
    rw [List.append_assoc] at htidy
    exact ⟨⟨hfound, hstart, htakes.concat hx (by decide)⟩, htidy⟩
  | skipped token => exact h

end

end

/-! ## Nodes -/

/-- What a node other than a source file is the tree of. -/
inductive Phrase (α : Type) where
  | expr (e : Expr α)
  | statement (st : Statement α)

namespace Phrase

def tokens : Phrase α → List α
  | .expr e => e.tokens
  | .statement st => st.tokens

def map (f : α → β) : Phrase α → Phrase β
  | .expr e => .expr (e.map f)
  | .statement st => .statement (st.map f)

def IsAt (t : Store) : Phrase Token → Value → Prop
  | .expr e => e.IsAt t
  | .statement st => st.IsAt t

def Orderly (kind : α → Kind) (after : List α) : Phrase α → Prop
  | .expr e => e.Orderly kind after
  | .statement st => st.Orderly kind after

def Tidy (kind : α → Kind) (after : List α) : Phrase α → Prop
  | .expr e => e.Tidy kind after
  | .statement st => st.Tidy kind after

theorem Tidy.orderly {kind : α → Kind} {after : List α} {phrase : Phrase α} (h : phrase.Tidy kind after) :
    phrase.Orderly kind after := by
  cases phrase with
  | expr e => exact Expr.Tidy.orderly h
  | statement st => exact h.1

end Phrase

/-- A node is the tree of a tidy phrase among the tokens of a source. -/
def TidyAt (t : Store) (ls : List Lexeme) (n : ObjectId) : Prop :=
  ∃ (phrase : Phrase Lexeme) (before after : List Lexeme), ls = before ++ (phrase.tokens ++ after) ∧
    (phrase.map Lexeme.token).IsAt t (.object n) ∧ phrase.Tidy Lexeme.kind after

/-- What an operand is the tree of. -/
theorem TidyAt.ofExpr {t : Store} {ls : List Lexeme} (before : List Lexeme) {after : List Lexeme} {e : Expr Lexeme}
    {w : Value} {c : ObjectId} (hls : ls = before ++ (e.tokens ++ after)) (hat : (e.map Lexeme.token).IsAt t w)
    (htidy : e.Tidy Lexeme.kind after) (hmet : MetIn t w c) : TidyAt t ls c :=
  ⟨.expr e, before, after, hls, hat.metIn hmet, htidy⟩

/-- The children of the tree of a phrase. -/
theorem TidyAt.child {t : Store} {ls : List Lexeme} {n c : ObjectId} (h : TidyAt t ls n) (hc : t.ChildNode n c) :
    TidyAt t ls c := by
  obtain ⟨phrase, before, after, hls, hat, htidy⟩ := h
  match phrase with
  | .expr .missing => cases hat
  | .expr (.number leaf) | .expr (.name leaf) =>
    obtain ⟨w, hw, hnode⟩ := hat
    obtain ⟨_, hmem, hmet⟩ := hnode.metIn hc
    simp only [List.map_cons, List.map_nil, List.mem_singleton] at hmem
    exact absurd (hmem ▸ hmet) hw.not_metIn
  | .expr (.paren opening inner closing) =>
    obtain ⟨w₁, w₂, w₃, h₁, h₂, h₃, hnode⟩ := hat
    obtain ⟨w, hmem, hmet⟩ := hnode.metIn hc
    simp only [List.map_cons, List.map_nil, List.mem_cons, List.not_mem_nil, or_false] at hmem
    rcases hmem with rfl | rfl | rfl
    · exact absurd hmet h₁.not_metIn
    · refine .ofExpr (before ++ [opening]) ?_ h₂ htidy.2 hmet
      simp [hls, Phrase.tokens, Expr.tokens]
    · exact absurd hmet h₃.not_metIn
  | .expr (.binary left operator right) =>
    obtain ⟨w₁, w₂, w₃, h₁, h₂, h₃, hnode⟩ := hat
    obtain ⟨w, hmem, hmet⟩ := hnode.metIn hc
    simp only [List.map_cons, List.map_nil, List.mem_cons, List.not_mem_nil, or_false] at hmem
    rcases hmem with rfl | rfl | rfl
    · refine .ofExpr before ?_ h₁ htidy.2.1 hmet
      simp [hls, Phrase.tokens, Expr.tokens]
    · exact absurd hmet h₂.not_metIn
    · refine .ofExpr (before ++ (left.tokens ++ [operator])) ?_ h₃ htidy.2.2 hmet
      simp [hls, Phrase.tokens, Expr.tokens]
  | .statement (.assignment name equals value semicolon) =>
    obtain ⟨w₁, w₂, w₃, w₄, h₁, h₂, h₃, h₄, hnode⟩ := hat
    obtain ⟨w, hmem, hmet⟩ := hnode.metIn hc
    simp only [List.map_cons, List.map_nil, List.mem_cons, List.not_mem_nil, or_false] at hmem
    rcases hmem with rfl | rfl | rfl | rfl
    · exact absurd hmet h₁.not_metIn
    · exact absurd hmet h₂.not_metIn
    · refine .ofExpr (before ++ [name, equals]) ?_ h₃ htidy.2 hmet
      simp [hls, Phrase.tokens, Statement.tokens]
    · exact absurd hmet h₄.not_metIn
  | .statement (.expression e semicolon) =>
    obtain ⟨w₁, w₂, h₁, h₂, hnode⟩ := hat
    obtain ⟨w, hmem, hmet⟩ := hnode.metIn hc
    simp only [List.map_cons, List.map_nil, List.mem_cons, List.not_mem_nil, or_false] at hmem
    rcases hmem with rfl | rfl
    · refine .ofExpr before ?_ h₁ htidy.2 hmet
      simp [hls, Phrase.tokens, Statement.tokens]
    · exact absurd hmet h₂.not_metIn
  | .statement (.skipped leaf) =>
    obtain ⟨w, row, hw, hrow, hnode⟩ := hat
    obtain ⟨_, hmem, hmet⟩ := hnode.metIn hc
    simp only [List.map_cons, List.map_nil, List.mem_singleton] at hmem
    subst hmem
    obtain rfl := List.mem_singleton.mp (hmet.mem hrow)
    exact absurd hmet.1 hw.not_isNode

/-- The statements of a program are children of its root, and there are no others that are nodes. -/
theorem Program.IsAt.child {t : Store} {p : Program Token} {root c : ObjectId} (h : p.IsAt t (.object root))
    (hc : t.ChildNode root c) : ∃ st ∈ p.statements, st.IsAt t (.object c) := by
  obtain ⟨row, ws, w, hrow, hws, hw, hnode⟩ := h
  obtain ⟨_, hmem, hmet⟩ := hnode.metIn hc
  simp only [List.map_cons, List.map_nil, List.mem_cons, List.not_mem_nil, or_false] at hmem
  rcases hmem with rfl | rfl
  · exact exists_of_forall₂ hws (hmet.mem hrow)
  · exact absurd hmet hw.not_metIn

theorem Lexes.kind_ne {offset : Nat} {t : Text} {l : Lexing} (h : Lexes offset t l) :
    ∀ x ∈ l.lexemes, x.kind ≠ .endOfFile := by
  induction h with
  | endOfFile => simp
  | lexeme trivia stops word more ih => exact List.forall_mem_cons.mpr ⟨word.kind_ne, ih⟩

/-- Every node below the root of a tree is the tree of a tidy phrase. -/
theorem tidyAt_of_reaches {t : Store} {text : Text} {root n : ObjectId}
    (h : ((Program.ofLexing (lex text)).map Lexeme.token).IsAt t (.object root)) (hn : t.Reaches root n) :
    n = root ∨ TidyAt t (lex text).toList n := by
  have hkinds := (lexes_iff.mpr (rfl : lex text = lex text)).kind_ne
  have hend : (lex text).endOfFile.kind = .endOfFile := kind_endOfFile_lexFrom ..
  induction hn with
  | refl => exact .inl rfl
  | @tail m n _ hchild ih =>
    refine .inr ?_
    rcases ih with rfl | hm
    · obtain ⟨_, hmem, hat⟩ := h.child hchild
      obtain ⟨st, hst, rfl⟩ := List.mem_map.mp hmem
      obtain ⟨before, after, heq, htidy⟩ := statements_tidy hkinds hst
      refine ⟨.statement st, before, after ++ [(lex text).endOfFile], ?_, hat, htidy.concat hend⟩
      simp [Lexing.toList, Phrase.tokens, heq]
    · exact hm.child hchild

/-- Every tree respects precedence, left associativity and minimal recovery: a node below the root is the tree of an
expression or a statement among the tokens of the source, which follows the rules for it. -/
theorem parse_orderly {s : Store} (h : Hosts s) (source : Source) : ∃ (root : ObjectId) (t : Store) (ls : List Lexeme),
    parseValue (.text source.text) s = (.ok root, t) ∧ tokens s (.text source.text) = .ok (ls.map Lexeme.token) ∧
    ∀ n, t.Reaches root n → n = root ∨
      ∃ (phrase : Phrase Lexeme) (before after : List Lexeme), ls = before ++ (phrase.tokens ++ after) ∧
        (phrase.map Lexeme.token).IsAt t (.object n) ∧ phrase.Orderly Lexeme.kind after := by
  obtain ⟨root, t, hrun, _, _, hat⟩ := parse_isAt h source
  refine ⟨root, t, _, hrun, rfl, fun n hn => ?_⟩
  refine (tidyAt_of_reaches hat hn).imp_right fun ⟨phrase, before, after, heq, hphrase, htidy⟩ => ?_
  exact ⟨phrase, before, after, heq, hphrase, htidy.orderly⟩

theorem broken_orderly : Hosts start ∧ ∃ (root : ObjectId) (t : Store) (ls : List Lexeme),
    parseValue (.text broken.text) start = (.ok root, t) ∧
    tokens start (.text broken.text) = .ok (ls.map Lexeme.token) ∧
    ∀ n, t.Reaches root n → n = root ∨
      ∃ (phrase : Phrase Lexeme) (before after : List Lexeme), ls = before ++ (phrase.tokens ++ after) ∧
        (phrase.map Lexeme.token).IsAt t (.object n) ∧ phrase.Orderly Lexeme.kind after :=
  ⟨hosts_start, parse_orderly hosts_start broken⟩

end LosslessSyntax.Calc
