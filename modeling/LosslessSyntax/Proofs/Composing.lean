import LosslessSyntax.Proofs.Depicting
import LosslessSyntax.Proofs.Lexing

/-!
# Joined sources

A source that ends in a semicolon can be continued by any other one: the tree of both has the statements of the first
and then those of the second, moved by the length of the first.

* `Lexes.append`: no word and no comment reaches across a semicolon at the end of a text. What follows a lexeme is not
  looked at beyond the unit after it, and there is one, unless the lexeme is the semicolon itself.
* `statements_append` says the same for statements, whatever is missing in front of the semicolon.
-/

namespace LosslessSyntax

/-- A token at another place, so many units further on. -/
def Token.shift (n : Nat) (t : Token) : Token :=
  { t with fullStart := t.fullStart + .ofNat n, start := t.start + .ofNat n }

namespace Calc

/-! ## Units that follow -/

theorem head?_append_left {t : Text} (h : t ≠ []) (more : Text) : (t ++ more).head? = t.head? := by
  cases t with
  | nil => exact absurd rfl h
  | cons u t => rfl

theorem Trivia.append {gap rest : Text} (h : Trivia gap rest) (hrest : rest ≠ []) (more : Text) :
    Trivia gap (rest ++ more) := by
  induction h with
  | none => exact .none
  | blank blank _ ih => exact .blank blank (ih hrest)
  | @comment line gap rest within ends _ ih =>
    refine .comment within (fun u hu => ends u ?_) (ih hrest)
    rwa [← List.append_assoc, head?_append_left (by simp [hrest])] at hu

theorem Word.append {kind : Kind} {text rest : Text} (h : Word kind text rest) (hrest : rest ≠ []) (more : Text) :
    Word kind text (rest ++ more) := by
  have hhead := head?_append_left hrest more
  cases h with
  | identifier first others longest => exact .identifier first others (hhead ▸ longest)
  | number first others longest => exact .number first others (hhead ▸ longest)
  | mark mark => exact .mark mark
  | unknown letter digit mark => exact .unknown letter digit mark

/-- Whether trivia begin at a word is known from the unit after it. -/
theorem not_beginsTrivia_append {text rest : Text} (h : ¬ BeginsTrivia (text ++ rest)) (htext : text ≠ [])
    (hrest : rest ≠ []) (more : Text) : ¬ BeginsTrivia (text ++ (rest ++ more)) := by
  obtain ⟨u, text, rfl⟩ := List.exists_cons_of_ne_nil htext
  rw [List.cons_append, beginsTrivia_cons] at h ⊢
  rwa [← List.append_assoc, head?_append_left (by simp [hrest])]

theorem Word.ne_nil {kind : Kind} {text rest : Text} (h : Word kind text rest) : text ≠ [] := by
  obtain ⟨u, tail, rfl, _⟩ := h.significant_eq
  exact List.cons_ne_nil u tail

theorem Word.semicolon_eq {text rest : Text} (h : Word .semicolon text rest) : text = [unit ';'] := by
  cases h with
  | @mark u _ _ mark => exact (by decide : ∀ mark ∈ marks, mark.2 = .semicolon → [mark.1] = [unit ';']) _ mark rfl

/-! ## Lexemes of joined texts -/

/-- Lexemes end in a semicolon at the end of their text, or there is no text. -/
def ClosedAt (stop : Nat) (t : Text) (ls : List Lexeme) : Prop :=
  t = [] ∨ ∃ x ∈ ls.getLast?, x.kind = .semicolon ∧ x.fullStart + x.length = stop

theorem Lexes.ne_nil {offset : Nat} {t : Text} {l : Lexing} (h : Lexes offset t l) (hl : l.lexemes ≠ []) : t ≠ [] := by
  cases h with
  | endOfFile trivia => exact absurd rfl hl
  | lexeme trivia stops word more => simp [word.ne_nil]

/-- The lexemes of a text that ends in a semicolon are read in front of any other text as by themselves. -/
theorem Lexes.append {offset : Nat} {t after : Text} {l later : Lexing} (h : Lexes offset t l)
    (hclosed : ClosedAt (offset + t.length) t l.lexemes) (hafter : Lexes (offset + t.length) after later) :
    Lexes offset (t ++ after) ⟨l.lexemes ++ later.lexemes, later.endOfFile⟩ := by
  induction h with
  | @endOfFile offset gap trivia =>
    obtain rfl | ⟨x, hx, _⟩ := hclosed
    · exact hafter
    · cases hx
  | @lexeme offset kind gap text rest l trivia stops word more ih =>
    have hlength : offset + (gap ++ (text ++ rest)).length = offset + (gap.length + text.length) + rest.length := by
      simp only [List.length_append]
      omega
    rw [hlength] at hclosed hafter
    obtain ⟨x, hx, hkind, hstop⟩ := hclosed.resolve_left (by simp [word.ne_nil])
    rw [List.append_assoc, List.append_assoc]
    by_cases hl : l.lexemes = []
    · -- The lexeme is the semicolon, and nothing is left of the text.
      rw [hl, List.getLast?_singleton, Option.mem_some_iff] at hx
      subst hx
      obtain rfl : kind = .semicolon := hkind
      obtain rfl := word.semicolon_eq
      obtain rfl : rest = [] := List.length_eq_zero_iff.mp (by simp only at hstop; omega)
      rw [hl]
      refine .lexeme (trivia.append (by simp) after) ?_ (.mark (by decide)) hafter
      rw [List.cons_append, beginsTrivia_cons]
      exact fun h => h.elim (by decide) fun h => absurd h.1 (by decide)
    · have hrest := more.ne_nil hl
      have hlast : ClosedAt (offset + (gap.length + text.length) + rest.length) rest l.lexemes := by
        obtain ⟨y, ls, hcons⟩ := List.exists_cons_of_ne_nil hl
        rw [hcons, List.getLast?_cons_cons] at hx
        exact .inr ⟨x, hcons ▸ hx, hkind, hstop⟩
      refine .lexeme ?_ (not_beginsTrivia_append stops word.ne_nil hrest after) (word.append hrest after)
        (ih hlast hafter)
      rw [← List.append_assoc]
      exact trivia.append (by simp [hrest]) after

/-! ## Lexemes at another place -/

def Lexeme.shift (n : Nat) (l : Lexeme) : Lexeme := { l with fullStart := l.fullStart + n, start := l.start + n }

/-- Lexemes do not depend on where their text begins. -/
theorem Lexes.shift {offset : Nat} {t : Text} {l : Lexing} (h : Lexes offset t l) (n : Nat) :
    Lexes (offset + n) t ⟨l.lexemes.map (Lexeme.shift n), l.endOfFile.shift n⟩ := by
  induction h with
  | @endOfFile offset gap trivia =>
    have hend := @Lexes.endOfFile (offset + n) gap trivia
    rwa [Nat.add_right_comm] at hend
  | @lexeme offset kind gap text rest later trivia stops word more ih =>
    rw [Nat.add_right_comm] at ih
    have hall := Lexes.lexeme trivia stops word ih
    rwa [Nat.add_right_comm offset n gap.length] at hall

/-- Lexemes lie within their text. -/
theorem Lexes.bounds {offset : Nat} {t : Text} {l : Lexing} (h : Lexes offset t l) :
    ∀ x ∈ l.toList, x.start ≤ x.fullStart + x.length ∧ x.fullStart + x.length ≤ offset + t.length := by
  induction h with
  | endOfFile trivia => simp [Lexing.toList]
  | @lexeme offset kind gap text rest later trivia stops word more ih =>
    intro x hx
    simp only [List.length_append]
    rcases List.mem_cons.mp hx with rfl | hx
    · simp only
      omega
    · have hlater := ih x hx
      omega

theorem lex_append {t after : Text} (h : ClosedAt t.length t (lex t).lexemes) : lex (t ++ after) =
    ⟨(lex t).lexemes ++ (lex after).lexemes.map (Lexeme.shift t.length), (lex after).endOfFile.shift t.length⟩ := by
  have hfirst : Lexes 0 t (lex t) := lexes_iff.mpr rfl
  have hsecond : Lexes 0 after (lex after) := lexes_iff.mpr rfl
  have hafter := hsecond.shift t.length
  refine lexes_iff.mp (hfirst.append ?_ hafter)
  rwa [Nat.zero_add]

/-! ## Programs of joined sources -/

/-- The program of one source and then another one. -/
def Program.append (n : Nat) (p q : Program Token) : Program Token :=
  ⟨p.statements ++ q.statements.map (Statement.map (Token.shift n)), q.endOfFile.shift n⟩

theorem Lexeme.token_shift {l : Lexeme} {n : Nat} (hfirst : l.fullStart ≤ Number.exactBound)
    (hstart : l.start ≤ Number.exactBound) (hn : n ≤ Number.exactBound) : (l.shift n).token = l.token.shift n := by
  rw [Lexeme.shift, Lexeme.token, Lexeme.token, Token.shift, Number.add_ofNat hfirst hn, Number.add_ofNat hstart hn]

theorem ofLexing_append {t after : Text} (h : ClosedAt t.length t (lex t).lexemes)
    (hbound : (t ++ after).length ≤ Number.exactBound) : (Program.ofLexing (lex (t ++ after))).map Lexeme.token =
      ((Program.ofLexing (lex t)).map Lexeme.token).append t.length
        ((Program.ofLexing (lex after)).map Lexeme.token) := by
  rw [List.length_append] at hbound
  have htoken : ∀ x ∈ (lex after).toList, (x.shift t.length).token = x.token.shift t.length := by
    intro x hx
    have hx := (lexes_iff.mpr rfl : Lexes 0 after (lex after)).bounds x hx
    exact Lexeme.token_shift (by omega) (by omega) (by omega)
  have hends : EndsStatement Lexeme.kind (lex t).lexemes := by
    intro y hy
    rcases h with rfl | ⟨x, hx, hkind, _⟩
    · cases hy
    · rw [Option.mem_unique hy hx, hkind]
  have hkinds : statements Lexeme.kind ((lex after).lexemes.map (Lexeme.shift t.length)) =
      (statements Lexeme.kind (lex after).lexemes).map (Statement.map (Lexeme.shift t.length)) := statements_map _ _
  have hshift : ∀ st ∈ statements Lexeme.kind (lex after).lexemes,
      st.map (Lexeme.token ∘ Lexeme.shift t.length) = st.map (Token.shift t.length ∘ Lexeme.token) := by
    refine fun st hst => Statement.map_congr fun x hx => htoken x (List.mem_append_left _ ?_)
    rw [← flatMap_tokens_statements Lexeme.kind (lex after).lexemes]
    exact List.mem_flatMap.mpr ⟨st, hst, hx⟩
  rw [lex_append h, Program.ofLexing, statements_append hends, hkinds]
  simp only [Program.map, Program.append, Program.ofLexing, List.map_append, List.map_map, Program.mk.injEq,
    List.append_cancel_left_eq]
  refine ⟨List.map_congr_left fun st hst => ?_, htoken _ (List.mem_append_right _ List.mem_cons_self)⟩
  simp only [Function.comp_apply, Statement.map_map]
  exact hshift st hst

/-- The last token of a text before the end of the file is a semicolon at the end of the text, or there is no text. -/
def EndsInSemicolon (s : Store) (t : Text) : Prop :=
  t = [] ∨ ∃ ts last, tokens s (.text t) = .ok ts ∧ last ∈ ts.dropLast.getLast? ∧
    last.kind = .ofNat Kind.semicolon.id ∧ last.stop = .ofNat t.length

theorem EndsInSemicolon.closedAt {s : Store} {t : Text} (h : EndsInSemicolon s t)
    (hbound : t.length ≤ Number.exactBound) : ClosedAt t.length t (lex t).lexemes := by
  rcases h with rfl | ⟨ts, last, hts, hlast, hkind, hstop⟩
  · exact .inl rfl
  · obtain rfl := Except.ok.inj hts
    rw [Lexing.toList, List.map_append, List.map_singleton, List.dropLast_concat, List.getLast?_map] at hlast
    obtain ⟨x, hx, rfl⟩ := Option.map_eq_some_iff.mp hlast
    have hmem : x ∈ (lex t).toList := List.mem_append_left _ (List.mem_of_getLast? hx)
    have hx' := (lexes_iff.mpr rfl : Lexes 0 t (lex t)).bounds x hmem
    rw [Token.stop, Lexeme.token, Number.add_ofNat (by omega) (by omega)] at hstop
    exact .inr ⟨x, hx, Kind.eq_of_id hkind, Number.ofNat_inj (by omega) hbound hstop⟩

/-- A source that ends in a semicolon and then another source: their tree has the statements of the first and those of
the second, whose tokens are moved by the length of the first, and so is the end of the file. -/
theorem parse_append {s₁ s₂ s : Store} (h₁ : Hosts s₁) (h₂ : Hosts s₂) (h : Hosts s) {first second whole : Source}
    (hwhole : whole.text = first.text ++ second.text) (hfirst : EndsInSemicolon s₁ first.text) :
    ∃ (p q : Program Token) (root₁ root₂ root : ObjectId) (t₁ t₂ t : Store),
      parseValue (.text first.text) s₁ = (.ok root₁, t₁) ∧ p.IsAt t₁ (.object root₁) ∧
      parseValue (.text second.text) s₂ = (.ok root₂, t₂) ∧ q.IsAt t₂ (.object root₂) ∧
      parseValue (.text whole.text) s = (.ok root, t) ∧ (p.append first.text.length q).IsAt t (.object root) := by
  obtain ⟨root₁, t₁, hrun₁, _, _, hp⟩ := parse_isAt h₁ first
  obtain ⟨root₂, t₂, hrun₂, _, _, hq⟩ := parse_isAt h₂ second
  obtain ⟨root, t, hrun, _, _, hpq⟩ := parse_isAt h whole
  refine ⟨_, _, root₁, root₂, root, t₁, t₂, t, hrun₁, hp, hrun₂, hq, hrun, ?_⟩
  rwa [← ofLexing_append (hfirst.closedAt first.length_le) (hwhole ▸ whole.length_le), ← hwhole]

/-- A source with an operand, an unclosed parenthesis and a comment in front of its semicolon. -/
def unfinished : Source := ⟨"a = (1 + // b\n ;", by decide⟩

/-- A source that would go on with an expression in front of it. -/
def continuing : Source := ⟨"* 2) // c", by decide⟩

def joined : Source := ⟨unfinished.text ++ continuing.text, by decide⟩

theorem unfinished_append : EndsInSemicolon start unfinished.text ∧
    ∃ (p q : Program Token) (root₁ root₂ root : ObjectId) (t₁ t₂ t : Store),
      parseValue (.text unfinished.text) start = (.ok root₁, t₁) ∧ p.IsAt t₁ (.object root₁) ∧
      parseValue (.text continuing.text) start = (.ok root₂, t₂) ∧ q.IsAt t₂ (.object root₂) ∧
      parseValue (.text joined.text) start = (.ok root, t) ∧
      (p.append unfinished.text.length q).IsAt t (.object root) := by
  have hends : EndsInSemicolon start unfinished.text :=
    .inr ⟨_, Lexeme.token ⟨.semicolon, 8, 15, 8⟩, rfl, by decide +kernel, rfl, by decide +kernel⟩
  have hwhole : joined.text = unfinished.text ++ continuing.text := rfl
  exact ⟨hends, parse_append hosts_start hosts_start hosts_start hwhole hends⟩

end Calc

end LosslessSyntax
