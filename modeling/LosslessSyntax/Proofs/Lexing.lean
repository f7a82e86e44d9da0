import LosslessSyntax.Calc.Source
import LosslessSyntax.Proofs.Parsing
import Mathlib.Data.List.TakeWhile

/-!
# Tokenizations

The lexical rules of the calculator language, and that every source is lexed in the one way that they allow.

* `Trivia`, `Word`: what stands before a lexeme, and what a lexeme of a kind looks like. Both are said of a text and of
  what follows it, since a comment has to reach the next line feed and a name has to be as long as it can be.
* `Lexes`: all lexemes of a text that begins at an offset, read by the rules. Lexing reads by the rules, and whatever is
  read by them is what lexing gives (`lexes_iff`).
* `Tokenization`: the rules for all tokens of a source, by their offsets in it.
-/

namespace LosslessSyntax.Calc

/-! ## Units -/

def blanks : Text := " \t\r\n"

/-- Units that begin a name. -/
def letters : Text := "ABCDEFGHIJKLMNOPQRSTUVWXYZabcdefghijklmnopqrstuvwxyz_"

def digits : Text := "0123456789"

/-- Units that are lexemes by themselves, with their kinds. -/
def marks : List (UInt16 × Kind) :=
  [(unit '=', .equals), (unit '+', .plus), (unit '-', .minus), (unit '*', .star), (unit '/', .slash),
    (unit '(', .openParen), (unit ')', .closeParen), (unit ';', .semicolon)]

theorem mem_blanks {u : UInt16} : u ∈ blanks ↔ isBlankUnit u = true := by
  have hblanks : blanks = [unit ' ', unit '\t', Text.carriageReturn, Text.lineFeed] := by decide
  simp [hblanks, isBlankUnit, or_assoc]

/-- What holds of the first so many units holds of each of them. -/
theorem of_ascii {p : UInt16 → Prop} (h : ∀ i < 128, p (.ofNat i)) {u : UInt16} (hu : u.toNat < 128) : p u := by
  simpa using h u.toNat hu

/-- What is checked along a text holds of each of its units. A plain decision might go over all units there are. -/
theorem of_all {p : UInt16 → Prop} [DecidablePred p] {t : Text} (h : t.all (fun u => decide (p u)) = true) :
    ∀ u ∈ t, p u := by
  simpa using h

theorem mem_letters {u : UInt16} : u ∈ letters ↔ isNameStart u = true := by
  constructor
  · exact of_all (p := fun u => isNameStart u = true) (by decide) u
  · intro hu
    have hascii : u.toNat < 128 := by
      simp [isNameStart, unit, UInt16.le_iff_toNat_le, ← UInt16.toNat_inj] at hu
      omega
    exact of_ascii (p := fun u => isNameStart u = true → u ∈ letters) (by decide +kernel) hascii hu

theorem mem_digits {u : UInt16} : u ∈ digits ↔ isDigitUnit u = true := by
  constructor
  · exact of_all (p := fun u => isDigitUnit u = true) (by decide) u
  · intro hu
    have hascii : u.toNat < 128 := by
      simp [isDigitUnit, unit, UInt16.le_iff_toNat_le] at hu
      omega
    exact of_ascii (p := fun u => isDigitUnit u = true → u ∈ digits) (by decide +kernel) hascii hu

/-- A unit that is no mark is of no known kind. -/
theorem mem_marks {u : UInt16} {k : Kind} : (u, k) ∈ marks ↔ punctuation u = k ∧ k ≠ .unknown := by
  constructor
  · exact (by decide : ∀ mark ∈ marks, punctuation mark.1 = mark.2 ∧ mark.2 ≠ .unknown) (u, k)
  · rintro ⟨rfl, hknown⟩
    revert hknown
    fun_cases punctuation u <;> simp_all [marks]

/-! ## Trivia -/

/-- Blanks and comments in front of a text. A comment goes on up to the next line feed, or to the end. -/
inductive Trivia : Text → Text → Prop
  | none {rest : Text} : Trivia [] rest
  | blank {u : UInt16} {gap rest : Text} (blank : u ∈ blanks) (more : Trivia gap rest) : Trivia (u :: gap) rest
  | comment {line gap rest : Text} (within : Text.lineFeed ∉ line)
      (ends : ∀ u ∈ (gap ++ rest).head?, u = Text.lineFeed) (more : Trivia gap rest) :
      Trivia (unit '/' :: unit '/' :: (line ++ gap)) rest

/-- A blank or a comment begins here. -/
def BeginsTrivia (t : Text) : Prop := (∃ u ∈ t.head?, u ∈ blanks) ∨ [unit '/', unit '/'] <+: t

theorem not_beginsTrivia_nil : ¬ BeginsTrivia [] := by
  simp [BeginsTrivia]

theorem beginsTrivia_cons {u : UInt16} {rest : Text} :
    BeginsTrivia (u :: rest) ↔ isBlankUnit u = true ∨ u = unit '/' ∧ rest.head? = some (unit '/') := by
  rw [← mem_blanks]
  cases rest <;> simp [BeginsTrivia, eq_comm]

theorem triviaLength_eq_zero {t : Text} (h : ¬ BeginsTrivia t) : triviaLength false t = 0 := by
  cases t with
  | nil => rfl
  | cons u rest =>
    rw [beginsTrivia_cons, not_or] at h
    rw [triviaLength, if_neg h.1, if_neg h.2]

/-- Inside a comment that is over, trivia go on as outside. -/
theorem triviaLength_true {t : Text} (h : ∀ u ∈ t.head?, u = Text.lineFeed) :
    triviaLength true t = triviaLength false t := by
  cases t with
  | nil => rfl
  | cons u rest =>
    obtain rfl := h u rfl
    rw [triviaLength, triviaLength, if_pos (by decide)]
    rfl

theorem triviaLength_line {line : Text} (h : Text.lineFeed ∉ line) (rest : Text) :
    triviaLength true (line ++ rest) = line.length + triviaLength true rest := by
  induction line with
  | nil => simp
  | cons u line ih =>
    rw [List.mem_cons, not_or] at h
    have hu : (u != Text.lineFeed) = true := bne_iff_ne.mpr (Ne.symm h.1)
    rw [List.cons_append, triviaLength, hu, ih h.2, List.length_cons]
    omega

/-- Trivia that are followed by none are all the trivia there are. -/
theorem Trivia.triviaLength_eq {gap rest : Text} (h : Trivia gap rest) (hrest : ¬ BeginsTrivia rest) :
    triviaLength false (gap ++ rest) = gap.length := by
  induction h with
  | none => exact triviaLength_eq_zero hrest
  | blank blank more ih =>
    rw [List.cons_append, triviaLength, if_pos (mem_blanks.mp blank), ih hrest, List.length_cons]
  | @comment line gap rest within ends more ih =>
    rw [List.cons_append, triviaLength, if_neg (by decide), if_pos ⟨rfl, rfl⟩, List.cons_append, triviaLength,
      show (unit '/' != Text.lineFeed) = true by decide, List.append_assoc, triviaLength_line within,
      triviaLength_true ends, ih hrest]
    simp only [List.length_cons, List.length_append]

/-- Units of a comment that has begun, up to its end, and the trivia after it. -/
def Commented (gap rest : Text) : Prop :=
  ∃ line more, gap = line ++ more ∧ Text.lineFeed ∉ line ∧ (∀ u ∈ (more ++ rest).head?, u = Text.lineFeed) ∧
    Trivia more rest

theorem Commented.cons {gap rest : Text} (h : Commented gap rest) {u : UInt16} (hu : u ≠ Text.lineFeed) :
    Commented (u :: gap) rest := by
  obtain ⟨line, more, rfl, hline, hends, hmore⟩ := h
  refine ⟨u :: line, more, rfl, ?_, hends, hmore⟩
  simp [hline, hu.symm]

theorem Commented.of_trivia {gap rest : Text} (h : Trivia gap rest)
    (hends : ∀ u ∈ (gap ++ rest).head?, u = Text.lineFeed) : Commented gap rest :=
  ⟨[], gap, rfl, List.not_mem_nil, hends, h⟩

/-- The second slash belongs to the comment that it begins. -/
theorem Commented.trivia {gap rest : Text} (h : Commented gap rest) (hslash : (gap ++ rest).head? = some (unit '/')) :
    Trivia (unit '/' :: gap) rest := by
  obtain ⟨line, more, rfl, hline, hends, hmore⟩ := h
  cases line with
  | nil => exact absurd (hends _ hslash) (by decide)
  | cons u line =>
    obtain rfl : u = unit '/' := by simpa using hslash
    exact .comment (fun hmem => hline (List.mem_cons_of_mem _ hmem)) hends hmore

/-- What can be passed over from inside a comment or outside. -/
def Passed : Bool → Text → Text → Prop
  | true => Commented
  | false => Trivia

/-- What is passed over as trivia is trivia, and no trivia begin after it. -/
theorem passed_triviaLength (inside : Bool) (t : Text) :
    Passed inside (t.take (triviaLength inside t)) (t.drop (triviaLength inside t)) ∧
      ¬ BeginsTrivia (t.drop (triviaLength inside t)) := by
  fun_induction triviaLength inside t with
  | case1 inside =>
    refine ⟨?_, not_beginsTrivia_nil⟩
    cases inside with
    | false => exact Trivia.none
    | true => exact Commented.of_trivia .none (by simp)
  | case2 u rest ih =>
    refine ⟨?_, ih.2⟩
    by_cases hu : u = Text.lineFeed
    · subst hu
      exact Commented.of_trivia (.blank (by decide) ih.1) (by simp)
    · rw [bne_iff_ne.mpr hu] at ih ⊢
      exact Commented.cons ih.1 hu
  | case3 u rest hblank ih => exact ⟨Trivia.blank (mem_blanks.mpr hblank) ih.1, ih.2⟩
  | case4 u rest hblank hslash ih =>
    obtain ⟨rfl, hhead⟩ := hslash
    exact ⟨Commented.trivia ih.1 (by rw [List.drop_succ_cons, List.take_append_drop, hhead]), ih.2⟩
  | case5 u rest hblank hslash => exact ⟨Trivia.none, fun h => (beginsTrivia_cons.mp h).elim hblank hslash⟩

theorem exists_trivia (t : Text) : ∃ gap rest, t = gap ++ rest ∧ triviaLength false t = gap.length ∧
    Trivia gap rest ∧ ¬ BeginsTrivia rest :=
  ⟨_, _, (List.take_append_drop _ t).symm, (List.length_take_of_le (triviaLength_le false t)).symm,
    passed_triviaLength false t⟩

/-! ## Words -/

/-- The text of a lexeme in front of what follows: a name or a number as long as it can be, a mark, or any other
unit. -/
inductive Word : Kind → Text → Text → Prop
  | identifier {u : UInt16} {tail rest : Text} (first : u ∈ letters) (others : ∀ v ∈ tail, v ∈ letters ∨ v ∈ digits)
      (longest : ∀ v ∈ rest.head?, v ∉ letters ∧ v ∉ digits) : Word .identifier (u :: tail) rest
  | number {u : UInt16} {tail rest : Text} (first : u ∈ digits) (others : ∀ v ∈ tail, v ∈ digits)
      (longest : ∀ v ∈ rest.head?, v ∉ digits) : Word .number (u :: tail) rest
  | mark {u : UInt16} {kind : Kind} {rest : Text} (mark : (u, kind) ∈ marks) : Word kind [u] rest
  | unknown {u : UInt16} {rest : Text} (letter : u ∉ letters) (digit : u ∉ digits) (mark : ∀ kind, (u, kind) ∉ marks) :
      Word .unknown [u] rest

theorem mem_nameUnits {u : UInt16} : u ∈ letters ∨ u ∈ digits ↔ isNameUnit u = true := by
  rw [mem_letters, mem_digits, isNameUnit, Bool.or_eq_true]

/-- A run of units is as long as it can be if the next unit is none of them. -/
theorem takeWhile_append {p : UInt16 → Bool} {tail rest : Text} (htail : ∀ v ∈ tail, p v = true)
    (hrest : ∀ v ∈ rest.head?, p v = false) : (tail ++ rest).takeWhile p = tail := by
  rw [List.takeWhile_append_of_pos htail]
  cases rest with
  | nil => simp
  | cons v rest => rw [List.takeWhile_cons, hrest v rfl]; simp

theorem head?_dropWhile {p : UInt16 → Bool} (t : Text) : ∀ v ∈ (t.dropWhile p).head?, p v = false := by
  intro v hv
  have hstop := List.head?_dropWhile_not p t
  rwa [Option.mem_def.mp hv] at hstop

theorem mark_not_name {u : UInt16} {kind : Kind} (h : (u, kind) ∈ marks) :
    isNameStart u = false ∧ isDigitUnit u = false :=
  (by decide : ∀ mark ∈ marks, isNameStart mark.1 = false ∧ isDigitUnit mark.1 = false) (u, kind) h

theorem digit_not_letter {u : UInt16} (h : u ∈ digits) : isNameStart u = false :=
  of_all (p := fun u => isNameStart u = false) (by decide) u h

/-- A word is what is lexed where it stands. -/
theorem Word.significant_eq {kind : Kind} {word rest : Text} (h : Word kind word rest) :
    ∃ u tail, word = u :: tail ∧ significant u (tail ++ rest) = (kind, word.length) := by
  cases h with
  | @identifier u tail _ first others longest =>
    have htake : (tail ++ rest).takeWhile isNameUnit = tail := by
      refine takeWhile_append (fun v hv => mem_nameUnits.mp (others v hv)) fun v hv => ?_
      rw [← Bool.not_eq_true, ← mem_nameUnits, not_or]
      exact longest v hv
    refine ⟨u, tail, rfl, ?_⟩
    rw [significant, if_pos (mem_letters.mp first), htake, List.length_cons]
  | @number u tail _ first others longest =>
    have htake : (tail ++ rest).takeWhile isDigitUnit = tail := by
      refine takeWhile_append (fun v hv => mem_digits.mp (others v hv)) fun v hv => ?_
      rw [← Bool.not_eq_true, ← mem_digits]
      exact longest v hv
    refine ⟨u, tail, rfl, ?_⟩
    rw [significant, digit_not_letter first, if_neg Bool.false_ne_true, if_pos (mem_digits.mp first), htake,
      List.length_cons]
  | @mark u _ _ mark =>
    obtain ⟨hname, hdigit⟩ := mark_not_name mark
    refine ⟨u, [], rfl, ?_⟩
    rw [significant, hname, hdigit, if_neg Bool.false_ne_true, if_neg Bool.false_ne_true, (mem_marks.mp mark).1]
    rfl
  | @unknown u _ letter digit mark =>
    refine ⟨u, [], rfl, ?_⟩
    rw [mem_letters] at letter
    rw [mem_digits] at digit
    have hunknown : punctuation u = .unknown := Classical.byContradiction fun hknown =>
      mark _ (mem_marks.mpr ⟨rfl, hknown⟩)
    rw [significant, if_neg letter, if_neg digit, hunknown]
    rfl

/-- What is lexed is a word. -/
theorem word_significant (u : UInt16) (rest : Text) : ∃ word after, u :: rest = word ++ after ∧
    (significant u rest).2 = word.length ∧ Word (significant u rest).1 word after := by
  have hsplit : ∀ p : UInt16 → Bool, u :: rest = (u :: rest.takeWhile p) ++ rest.dropWhile p := fun p => by
    rw [List.cons_append, List.takeWhile_append_dropWhile]
  rw [significant]
  by_cases hname : isNameStart u = true
  · rw [if_pos hname]
    refine ⟨_, _, hsplit isNameUnit, rfl, .identifier (mem_letters.mpr hname) (fun v hv => ?_) fun v hv => ?_⟩
    · exact mem_nameUnits.mpr (List.mem_takeWhile_imp hv)
    · rw [← not_or, mem_nameUnits, Bool.not_eq_true]
      exact head?_dropWhile rest v hv
  · rw [if_neg hname]
    by_cases hdigit : isDigitUnit u = true
    · rw [if_pos hdigit]
      refine ⟨_, _, hsplit isDigitUnit, rfl, .number (mem_digits.mpr hdigit) (fun v hv => ?_) fun v hv => ?_⟩
      · exact mem_digits.mpr (List.mem_takeWhile_imp hv)
      · rw [mem_digits, Bool.not_eq_true]
        exact head?_dropWhile rest v hv
    · rw [if_neg hdigit]
      refine ⟨[u], rest, rfl, rfl, ?_⟩
      by_cases hknown : punctuation u = .unknown
      · rw [hknown]
        refine .unknown (mt mem_letters.mp hname) (mt mem_digits.mp hdigit) fun kind hmark => ?_
        obtain ⟨hkind, hne⟩ := mem_marks.mp hmark
        exact hne (hkind.symm.trans hknown)
      · exact .mark (mem_marks.mpr ⟨rfl, hknown⟩)

/-! ## Lexemes -/

/-- The lexemes of a text that begins at an offset, one after the other up to the end. -/
inductive Lexes : Nat → Text → Lexing → Prop
  | endOfFile {offset : Nat} {gap : Text} (trivia : Trivia gap []) :
      Lexes offset gap ⟨[], ⟨.endOfFile, offset, offset + gap.length, gap.length⟩⟩
  | lexeme {offset : Nat} {kind : Kind} {gap text rest : Text} {later : Lexing} (trivia : Trivia gap (text ++ rest))
      (stops : ¬ BeginsTrivia (text ++ rest)) (word : Word kind text rest)
      (more : Lexes (offset + (gap.length + text.length)) rest later) :
      Lexes offset (gap ++ (text ++ rest))
        { later with
          lexemes := ⟨kind, offset, offset + gap.length, gap.length + text.length⟩ :: later.lexemes }

/-- Whatever is read by the rules is what lexing gives. -/
theorem Lexes.lexFrom_eq {offset : Nat} {t : Text} {l : Lexing} (h : Lexes offset t l) {count : Nat}
    (hcount : t.length < count) : lexFrom count offset t = l := by
  induction h generalizing count with
  | @endOfFile offset gap trivia =>
    obtain ⟨count, rfl⟩ := Nat.exists_eq_succ_of_ne_zero (by omega : count ≠ 0)
    have hlength := trivia.triviaLength_eq not_beginsTrivia_nil
    rw [List.append_nil] at hlength
    rw [Nat.succ_eq_add_one, lexFrom, hlength, List.drop_length]
  | @lexeme offset kind gap text rest later trivia stops word more ih =>
    obtain ⟨count, rfl⟩ := Nat.exists_eq_succ_of_ne_zero (by omega : count ≠ 0)
    obtain ⟨u, tail, rfl, hsignificant⟩ := word.significant_eq
    have hlater : (gap ++ ((u :: tail) ++ rest)).drop (gap.length + (u :: tail).length) = rest := by
      rw [← List.append_assoc, ← List.length_append, List.drop_left]
    rw [Nat.succ_eq_add_one, lexFrom, trivia.triviaLength_eq stops, List.drop_left, List.cons_append]
    simp only [hsignificant]
    rw [← List.cons_append, hlater, ih (by simp only [List.length_append, List.length_cons] at hcount; omega)]

/-- Lexing reads by the rules, if there may be more lexemes than units. -/
theorem lexes_lexFrom {count : Nat} (offset : Nat) (t : Text) (h : t.length < count) :
    Lexes offset t (lexFrom count offset t) := by
  induction count generalizing offset t with
  | zero => omega
  | succ count ih =>
    obtain ⟨gap, rest, rfl, hlength, htrivia, hstops⟩ := exists_trivia t
    rw [lexFrom, hlength, List.drop_left]
    cases rest with
    | nil =>
      rw [List.append_nil]
      exact .endOfFile htrivia
    | cons u rest =>
      obtain ⟨text, after, heq, hsize, hword⟩ := word_significant u rest
      have hpos := (significant_bounds u rest).1
      simp only [hsize]
      rw [heq] at htrivia hstops h ⊢
      have hafter : (gap ++ (text ++ after)).drop (gap.length + text.length) = after := by
        rw [← List.append_assoc, ← List.length_append, List.drop_left]
      rw [hafter]
      refine .lexeme htrivia hstops hword (ih _ after ?_)
      simp only [List.length_append] at h
      omega

theorem lexes_iff {t : Text} {l : Lexing} : Lexes 0 t l ↔ lex t = l :=
  ⟨fun h => h.lexFrom_eq (Nat.lt_succ_self _), fun h => h ▸ lexes_lexFrom 0 t (Nat.lt_succ_self _)⟩

/-! ## Tokenizations -/

/-- The text from an offset on. -/
def textFrom (source : Text) (first : Number) : Text := source.slice first (.ofNat source.length)

/-- The tokens of a source by the rules: they tile it, the last one and no other is the end of the file and stands at
the end, trivia lead each of them as far as there are any, and each but the last is a word of its kind. -/
structure Tokenization (source : Text) (ts : List Token) : Prop where
  tiles : Token.Tiles 0 ts source.length
  last : ∃ t ∈ ts.getLast?, t.kind = .ofNat Kind.endOfFile.id ∧ t.start = .ofNat source.length
  only : ∀ t ∈ ts.dropLast, t.kind ≠ .ofNat Kind.endOfFile.id
  trivia : ∀ t ∈ ts, Trivia (t.leadingTrivia source) (textFrom source t.start) ∧
    ¬ BeginsTrivia (textFrom source t.start)
  words : ∀ t ∈ ts.dropLast, ∃ kind : Kind, t.kind = .ofNat kind.id ∧
    Word kind (t.text source) (textFrom source t.stop)

/-- What comes before the next token. -/
theorem append_parts (before gap text rest : Text) :
    before ++ (gap ++ (text ++ rest)) = (before ++ (gap ++ text)) ++ rest ∧
      (before ++ (gap ++ text)).length = before.length + (gap.length + text.length) := by
  simp only [List.append_assoc, List.length_append, and_self]

/-- What is cut out of a source for a token, given the parts of the source. -/
theorem cuts_eq {before gap text rest : Text}
    (hsource : (before ++ (gap ++ (text ++ rest))).length ≤ Number.exactBound) {t : Token}
    (h : t.Spans before.length (before.length + gap.length) (before.length + gap.length + text.length)) :
    t.leadingTrivia (before ++ (gap ++ (text ++ rest))) = gap ∧
      textFrom (before ++ (gap ++ (text ++ rest))) t.start = text ++ rest ∧
      t.text (before ++ (gap ++ (text ++ rest))) = text ∧
      textFrom (before ++ (gap ++ (text ++ rest))) t.stop = rest := by
  have hlength : (before ++ (gap ++ (text ++ rest))).length =
      before.length + gap.length + text.length + rest.length := by
    simp only [List.length_append]
    omega
  have hstart : (before ++ (gap ++ (text ++ rest))).drop (before.length + gap.length) = text ++ rest := by
    rw [← List.length_append, ← List.append_assoc, List.drop_left]
  have hstop : (before ++ (gap ++ (text ++ rest))).drop (before.length + gap.length + text.length) = rest := by
    rw [← List.drop_drop, hstart, List.drop_left]
  refine ⟨?_, ?_, ?_, ?_⟩
  · rw [h.leadingTrivia (by omega) hsource, Nat.add_sub_cancel_left, List.drop_left, List.take_left]
  · rw [textFrom, h.start, Text.slice_ofNat (by omega) (Nat.le_refl _) hsource, hstart, hlength]
    exact List.take_of_length_le (by simp only [List.length_append]; omega)
  · rw [h.text (by omega) hsource, Nat.add_sub_cancel_left, hstart, List.take_left]
  · rw [textFrom, h.stop_eq (by omega), Text.slice_ofNat (by omega) (Nat.le_refl _) hsource, hstop, hlength]
    exact List.take_of_length_le (by omega)

theorem spans_lexeme (kind : Kind) (before gap text : Text) :
    (Lexeme.token ⟨kind, before.length, before.length + gap.length, gap.length + text.length⟩).Spans before.length
      (before.length + gap.length) (before.length + gap.length + text.length) := by
  have hspans := Lexeme.spans kind (Nat.le_add_right before.length gap.length)
    (Nat.le_add_right (before.length + gap.length) text.length)
  rwa [Nat.add_assoc, Nat.add_sub_cancel_left, ← Nat.add_assoc] at hspans

theorem Word.kind_ne {kind : Kind} {text rest : Text} (h : Word kind text rest) : kind ≠ .endOfFile := by
  cases h with
  | mark mark => exact (by decide : ∀ mark ∈ marks, mark.2 ≠ .endOfFile) _ mark
  | _ => decide

theorem Kind.eq_of_id {k k' : Kind} (h : Value.ofNat k.id = .ofNat k'.id) : k = k' := by
  revert h
  cases k <;> cases k' <;> decide

/-- The rules for a token, given the parts of the source that it is cut out of. -/
theorem Lexes.lawful {offset : Nat} {t : Text} {l : Lexing} (h : Lexes offset t l) (before : Text)
    (hbefore : before.length = offset) (hbound : (before ++ t).length ≤ Number.exactBound) :
    (∀ x ∈ l.toList, Trivia (x.token.leadingTrivia (before ++ t)) (textFrom (before ++ t) x.token.start) ∧
        ¬ BeginsTrivia (textFrom (before ++ t) x.token.start)) ∧
      (∀ x ∈ l.lexemes, Word x.kind (x.token.text (before ++ t)) (textFrom (before ++ t) x.token.stop)) ∧
      l.endOfFile.kind = .endOfFile ∧ l.endOfFile.start = (before ++ t).length := by
  induction h generalizing before with
  | @endOfFile offset gap trivia =>
    subst hbefore
    have hspans := Lexeme.spans .endOfFile (Nat.le_add_right before.length gap.length) (Nat.le_refl _)
    rw [Nat.add_sub_cancel_left] at hspans
    have hcuts := @cuts_eq before gap [] []
    simp only [List.append_nil, List.length_nil, Nat.add_zero] at hcuts
    obtain ⟨hgap, hrest, _⟩ := hcuts hbound hspans
    refine ⟨fun x hx => ?_, fun x hx => absurd hx List.not_mem_nil, rfl, List.length_append.symm⟩
    obtain rfl := List.mem_singleton.mp hx
    rw [hgap, hrest]
    exact ⟨trivia, not_beginsTrivia_nil⟩
  | @lexeme offset kind gap text rest later trivia stops word more ih =>
    subst hbefore
    obtain ⟨hgap, hfrom, htext, hrest⟩ := cuts_eq hbound (spans_lexeme kind before gap text)
    obtain ⟨hsource, hoffset⟩ := append_parts before gap text rest
    have hlater := ih (before ++ (gap ++ text)) hoffset (hsource ▸ hbound)
    rw [← hsource] at hlater
    obtain ⟨hlaterTrivia, hlaterWords, hlaterEnd⟩ := hlater
    refine ⟨fun x hx => ?_, fun x hx => ?_, hlaterEnd⟩
    · rcases List.mem_cons.mp hx with rfl | hx
      · rw [hgap, hfrom]
        exact ⟨trivia, stops⟩
      · exact hlaterTrivia x hx
    · rcases List.mem_cons.mp hx with rfl | hx
      · rw [htext, hrest]
        exact word
      · exact hlaterWords x hx

theorem tokenization_lex (source : Source) :
    Tokenization source.text ((lex source.text).toList.map Lexeme.token) := by
  have hlexes := lexes_iff.mpr (rfl : lex source.text = lex source.text)
  obtain ⟨htrivia, hwords, hkind, hstart⟩ := hlexes.lawful [] rfl source.length_le
  have hlast : ((lex source.text).toList.map Lexeme.token).getLast? = some (lex source.text).endOfFile.token := by
    rw [Lexing.toList, List.map_append, List.map_singleton, List.getLast?_concat]
  have hbefore : ((lex source.text).toList.map Lexeme.token).dropLast =
      (lex source.text).lexemes.map Lexeme.token := by
    rw [Lexing.toList, List.map_append, List.map_singleton, List.dropLast_concat]
  have hword : ∀ t ∈ ((lex source.text).toList.map Lexeme.token).dropLast, ∃ kind : Kind,
      t.kind = .ofNat kind.id ∧ Word kind (t.text source.text) (textFrom source.text t.stop) := by
    intro t ht
    rw [hbefore] at ht
    obtain ⟨x, hx, rfl⟩ := List.mem_map.mp ht
    exact ⟨x.kind, rfl, hwords x hx⟩
  refine ⟨tiles_lex source.text, ⟨_, hlast, ?_, ?_⟩, fun t ht => ?_, fun t ht => ?_, hword⟩
  · rw [Lexeme.token, hkind]
  · rw [Lexeme.token, hstart]
    rfl
  · obtain ⟨kind, hkind, hword⟩ := hword t ht
    rw [hkind]
    exact fun heq => hword.kind_ne (Kind.eq_of_id heq)
  · obtain ⟨x, hx, rfl⟩ := List.mem_map.mp ht
    exact htrivia x hx

/-- A text is cut at two places. -/
theorem exists_parts {t : Text} {first start stop : Nat} (hfirst : first ≤ start) (hstart : start ≤ stop)
    (hstop : stop ≤ first + t.length) : ∃ gap text rest, t = gap ++ (text ++ rest) ∧
      start = first + gap.length ∧ stop = first + gap.length + text.length := by
  refine ⟨t.take (start - first), (t.drop (start - first)).take (stop - start),
    (t.drop (start - first)).drop (stop - start), ?_, ?_, ?_⟩
  · rw [List.take_append_drop, List.take_append_drop]
  · rw [List.length_take]
    omega
  · rw [List.length_take, List.length_take, List.length_drop]
    omega

theorem token_eq {t : Token} {kind : Kind} {first start stop : Nat} (hkind : t.kind = .ofNat kind.id)
    (h : t.Spans first start stop) : t = Lexeme.token ⟨kind, first, start, stop - first⟩ := by
  obtain ⟨_, _, hfullStart, hstart, hlength⟩ := h
  rw [Lexeme.token, ← hkind, ← hfullStart, ← hstart, ← hlength]

/-- Tokens by the rules are lexemes by the rules. The induction is on the tokens, for any part of the source before
them. -/
theorem exists_lexes {before t : Text} (hbound : (before ++ t).length ≤ Number.exactBound) {ts : List Token}
    (htiles : Token.Tiles before.length ts (before ++ t).length)
    (hlast : ∃ x ∈ ts.getLast?, x.kind = .ofNat Kind.endOfFile.id ∧ x.start = .ofNat (before ++ t).length)
    (htrivia : ∀ x ∈ ts, Trivia (x.leadingTrivia (before ++ t)) (textFrom (before ++ t) x.start) ∧
      ¬ BeginsTrivia (textFrom (before ++ t) x.start))
    (hwords : ∀ x ∈ ts.dropLast, ∃ kind : Kind, x.kind = .ofNat kind.id ∧
      Word kind (x.text (before ++ t)) (textFrom (before ++ t) x.stop)) :
    ∃ l, Lexes before.length t l ∧ ts = l.toList.map Lexeme.token := by
  induction ts generalizing before t with
  | nil =>
    obtain ⟨x, hx, _⟩ := hlast
    cases hx
  | cons x xs ih =>
    obtain ⟨start, stop, hspans, hrest⟩ := htiles
    obtain ⟨gap, text, rest, rfl, rfl, rfl⟩ :=
      exists_parts hspans.first_le hspans.start_le (by simpa using hrest.le)
    obtain ⟨hgap, hfrom, htext, hafter⟩ := cuts_eq hbound hspans
    obtain ⟨htrivia₁, hstops⟩ := htrivia x List.mem_cons_self
    rw [hgap, hfrom] at htrivia₁
    rw [hfrom] at hstops
    cases xs with
    | nil =>
      obtain ⟨_, ⟨rfl⟩, hkind, hstart⟩ := hlast
      have hlength : before.length + gap.length = (before ++ (gap ++ (text ++ rest))).length := by
        refine Number.ofNat_inj ?_ hbound (hspans.start.symm.trans hstart)
        simp only [List.length_append] at hbound ⊢
        omega
      simp only [List.length_append] at hlength
      obtain rfl : text = [] := List.length_eq_zero_iff.mp (by omega)
      obtain rfl : rest = [] := List.length_eq_zero_iff.mp (by omega)
      have hx := token_eq hkind hspans
      rw [List.length_nil, Nat.add_zero, Nat.add_sub_cancel_left] at hx
      refine ⟨_, .endOfFile ?_, ?_⟩
      · simpa using htrivia₁
      · simpa [Lexing.toList] using hx
    | cons y ys =>
      obtain ⟨kind, hkind, hword⟩ := hwords x (by simp)
      rw [htext, hafter] at hword
      obtain ⟨hsource, hoffset⟩ := append_parts before gap text rest
      rw [Nat.add_assoc, ← hoffset] at hrest
      rw [hsource] at hbound hrest hlast htrivia hwords
      obtain ⟨later, hlater, hys⟩ := ih hbound hrest (by simpa using hlast)
        (fun x hx => htrivia x (List.mem_cons_of_mem _ hx)) fun x hx => hwords x (by simp [hx])
      rw [hoffset] at hlater
      have hx := token_eq hkind hspans
      rw [Nat.add_assoc, Nat.add_sub_cancel_left] at hx
      refine ⟨_, .lexeme htrivia₁ hstops hword hlater, ?_⟩
      rw [hys, hx]
      rfl

/-- The tokens of a source are the one tokenization that the lexical rules allow. -/
theorem tokens_eq_tokenization (s : Store) (source : Source) : ∃ ts, tokens s (.text source.text) = .ok ts ∧
    ∀ ts', Tokenization source.text ts' ↔ ts' = ts := by
  refine ⟨_, rfl, fun ts' => ⟨fun h => ?_, fun h => h ▸ tokenization_lex source⟩⟩
  obtain ⟨l, hlexes, rfl⟩ := @exists_lexes [] source.text source.length_le ts' h.tiles h.last h.trivia h.words
  rw [lexes_iff.mp hlexes]

end LosslessSyntax.Calc
