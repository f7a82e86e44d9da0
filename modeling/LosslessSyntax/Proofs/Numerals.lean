import LosslessSyntax.Number.Decimal
import LosslessSyntax.Value.Members
import Mathlib.Algebra.Order.Field.Power
import Mathlib.Data.List.DropRight
import Mathlib.Data.Rat.Cast.Order
import Mathlib.Tactic.IntervalCases
import Mathlib.Tactic.Linarith
import Mathlib.Tactic.Ring

/-!
# Numerals

A member that is named by a number is a list item if the text of the number is the canonical decimal text of an index.
For numbers that a binary64 can hold, that is so exactly if the number itself is the index (`Number.index?_text`).

* `Members.digits_of_index?`, `Members.index?_ofNat`: an index is spelled by its digits.
* `Number.value_shortest_of_index?`: where the digits of a positive number are laid out as an index, that index is
  their value.
* `Number.far_from_index`: no binary64 number but a small integer has an index so close below it that seventeen digits
  could not tell the two apart.
-/

namespace LosslessSyntax

/-! ## Digits -/

namespace Members

theorem isDigit_iff {u : UInt16} : isDigit u = true ↔ 0x30 ≤ u.toNat ∧ u.toNat ≤ 0x39 := by
  simp [isDigit, UInt16.le_iff_toNat_le]

/-- A digit has one unit, which is a digit. -/
theorem ofChar_of_isDigit {c : Char} (h : c.isDigit = true) :
    ∃ u : UInt16, Text.ofChar c = [u] ∧ u.toNat = c.toNat ∧ isDigit u = true := by
  obtain ⟨hlow, hhigh⟩ := Char.isDigit_iff_toNat.mp h
  change 48 ≤ c.toNat at hlow
  change c.toNat ≤ 57 at hhigh
  have hunit : c.toNat.toUInt16.toNat = c.toNat := UInt16.toNat_ofNat_of_lt' (by show _ < 65536; omega)
  refine ⟨c.toNat.toUInt16, if_pos (by omega), hunit, isDigit_iff.mpr ?_⟩
  rw [hunit]
  exact ⟨hlow, hhigh⟩

/-- Only a digit has nothing but digits for units. -/
theorem isDigit_of_ofChar {c : Char} (h : ∀ u ∈ Text.ofChar c, isDigit u = true) : c.isDigit = true := by
  rw [Text.ofChar] at h
  split at h
  · rename_i hlow
    have hunit : c.toNat.toUInt16.toNat = c.toNat := UInt16.toNat_ofNat_of_lt' hlow
    have hdigit := isDigit_iff.mp (h _ List.mem_cons_self)
    rw [hunit] at hdigit
    exact Char.isDigit_iff_toNat.mpr hdigit
  · have hdigit := isDigit_iff.mp (h _ List.mem_cons_self)
    have hchar : c.toNat < 0x110000 := by
      have := c.valid
      simp only [UInt32.isValidChar, Nat.isValidChar] at this
      have : c.val.toNat = c.toNat := rfl
      omega
    have hunit : (0xD800 + (c.toNat - 0x10000) / 0x400).toUInt16.toNat = 0xD800 + (c.toNat - 0x10000) / 0x400 :=
      UInt16.toNat_ofNat_of_lt' (by show _ < 65536; omega)
    rw [hunit] at hdigit
    omega

/-- The units of digits spell what the digits spell. -/
theorem digitsValue_flatMap {cs : List Char} (h : ∀ c ∈ cs, c.isDigit = true) :
    digitsValue (cs.flatMap Text.ofChar) = Nat.ofDigitChars 10 cs 0 ∧ (cs.flatMap Text.ofChar).length = cs.length ∧
      (cs.flatMap Text.ofChar).all isDigit = true := by
  rw [digitsValue]
  generalize 0 = total
  induction cs generalizing total with
  | nil => exact ⟨rfl, rfl, rfl⟩
  | cons c rest ih =>
    obtain ⟨u, hu, hnat, hdigit⟩ := ofChar_of_isDigit (h c List.mem_cons_self)
    obtain ⟨hvalue, hlength, hall⟩ :=
      ih (fun c hc => h c (List.mem_cons_of_mem _ hc)) (10 * total + (c.toNat - '0'.toNat))
    rw [List.flatMap_cons, hu, List.singleton_append, List.foldl_cons, Nat.ofDigitChars_cons, hnat,
      Nat.mul_comm total 10]
    refine ⟨hvalue, by rw [List.length_cons, hlength, List.length_cons], ?_⟩
    rw [List.all_cons, hdigit, hall, Bool.and_self]

/-- A name that is an index is made of digits that spell it. -/
theorem digits_of_index? {cs : List Char} {i : Nat} (h : index? (cs.flatMap Text.ofChar) = some i) :
    (∀ c ∈ cs, c.isDigit = true) ∧ Nat.ofDigitChars 10 cs 0 = i ∧ i ≤ 4294967294 := by
  rw [index?] at h
  split at h
  · cases h
  · rename_i hname
    simp only [Bool.or_eq_true, not_or, Bool.not_eq_true, Bool.not_eq_false'] at hname
    have hdigits : ∀ c ∈ cs, c.isDigit = true := fun c hc => isDigit_of_ofChar fun u hu =>
      List.all_eq_true.mp hname.1.2 u (List.mem_flatMap.mpr ⟨c, hc, hu⟩)
    dsimp only at h
    split at h
    · cases h
      exact ⟨hdigits, (digitsValue_flatMap hdigits).1.symm, ‹_›⟩
    · cases h

theorem head?_toDigits {n : Nat} (h : 0 < n) : (Nat.toDigits 10 n).head? ≠ some '0' := by
  induction n using Nat.strong_induction_on with
  | _ n ih =>
    rcases Nat.lt_or_ge n 10 with hlt | hge
    · rw [Nat.toDigits_of_lt_base hlt]
      interval_cases n <;> decide
    · rw [Nat.toDigits_of_base_le (by decide) hge, List.head?_append_of_ne_nil _ Nat.toDigits_ne_nil]
      exact ih (n / 10) (by omega) (by omega)

/-- The decimal text of a natural number is an index unless the number is too great. -/
theorem index?_ofNat {n : Nat} (h : n ≤ 4294967294) : index? (Text.ofNat n) = some n := by
  have hdigits : ∀ c ∈ Nat.toDigits 10 n, c.isDigit = true := fun c hc =>
    Nat.isDigit_of_mem_toDigits (by decide) (by decide) hc
  obtain ⟨hvalue, hlength, hall⟩ := digitsValue_flatMap hdigits
  have htext : Text.ofNat n = (Nat.toDigits 10 n).flatMap Text.ofChar := by
    rw [Text.ofNat, Text.ofString, Nat.toString_eq_ofList_toDigits, String.toList_ofList]
  rw [htext, index?, if_neg, hvalue, Nat.ofDigitChars_ten_toDigits]
  · exact if_pos h
  · have hshort : (Nat.toDigits 10 n).length ≤ 10 := (Nat.length_toDigits_le_iff (by decide) (by decide)).mpr (by omega)
    simp only [hlength, hall, Bool.not_true, Bool.or_false, Bool.or_eq_true, List.isEmpty_iff, decide_eq_true_eq,
      Bool.and_eq_true, beq_iff_eq, bne_iff_ne, not_or, not_and, not_not]
    refine ⟨⟨?_, Nat.not_lt.mpr hshort⟩, fun hhead => ?_⟩
    · exact List.length_pos_iff.mp (hlength ▸ Nat.length_toDigits_pos)
    · -- A first digit zero is the only one.
      rcases Nat.eq_zero_or_pos n with rfl | hpos
      · rw [Nat.toDigits_zero, List.length_singleton]
      · refine absurd ?_ (head?_toDigits hpos)
        cases hchars : Nat.toDigits 10 n with
        | nil => exact absurd hchars Nat.toDigits_ne_nil
        | cons c rest =>
          obtain ⟨u, hu, hnat, _⟩ := ofChar_of_isDigit (hdigits c (hchars ▸ List.mem_cons_self))
          rw [hchars, List.flatMap_cons, hu, List.singleton_append, List.head?_cons] at hhead
          cases hhead
          have hzero : c = '0' := Char.toNat_inj.mp hnat.symm
          rw [List.head?_cons, hzero]

end Members

namespace Number

/-! ## Decimal places -/

/-- A power with an integer exponent, as a fraction of two others. -/
theorem pow_toNat_div {b : Rat} (hb : b ≠ 0) (e : Int) : b ^ e.toNat / b ^ (-e).toNat = b ^ e := by
  rw [← zpow_natCast, ← zpow_natCast, ← zpow_sub₀ hb]
  congr 1
  omega

theorem scaled_eq (mantissa exponent : Int) : scaled mantissa exponent = mantissa * (10 : Rat) ^ exponent := by
  rw [scaled, Rat.mkRat_eq_div, ← pow_toNat_div (by norm_num) exponent]
  push_cast [Nat.pow_eq]
  exact mul_div_assoc ..

/-- A text that is laid out is an index only if it shows all digits, followed by zeros. -/
theorem layOut_digits {digits : List Char} {point : Int} (h : ∀ c ∈ layOut digits point, c.isDigit = true) :
    (digits.length : Int) ≤ point ∧
      layOut digits point = digits ++ List.replicate (point - digits.length).toNat '0' := by
  rw [layOut] at h ⊢
  dsimp only at h ⊢
  split at h
  · rename_i hpositional
    rw [if_pos hpositional]
    split at h
    · exact absurd (h '.' (by simp)) (by decide)
    · rename_i hpoint
      rw [if_neg hpoint]
      split at h
      · rename_i hlength
        exact ⟨hlength, if_pos hlength⟩
      · exact absurd (h '.' (by simp)) (by decide)
  · have hmark : 'e' ∈ if point - 1 < 0 then "e-".toList else "e+".toList := by split <;> decide
    exact absurd (h 'e' (List.mem_append_left _ (List.mem_append_right _ hmark))) (by decide)

/-- Digits without the zeros behind them, which are so many. -/
theorem exists_trailing_zeros (all : List Char) :
    ∃ zeros, all = (all.reverse.dropWhile (· = '0')).reverse ++ List.replicate zeros '0' := by
  refine ⟨(all.rtakeWhile (· = '0')).length, ?_⟩
  have hzeros : all.rtakeWhile (· = '0') = List.replicate (all.rtakeWhile (· = '0')).length '0' :=
    List.eq_replicate_of_mem fun c hc =>
      of_decide_eq_true (List.mem_rtakeWhile_imp (p := fun c => decide (c = '0')) hc)
  rw [← hzeros]
  exact List.rdropWhile_append_rtakeWhile.symm

/-- Where the text of a positive number is an index, that is the value of the digits which were chosen. -/
theorem value_shortest_of_index? {q : Rat} {i : Nat}
    (h : Members.index? ((positiveText q).flatMap Text.ofChar) = some i) : (shortest q).value = i := by
  obtain ⟨hdigits, hvalue, _⟩ := Members.digits_of_index? h
  rw [positiveText] at hdigits hvalue
  obtain ⟨hpoint, hlayOut⟩ := layOut_digits hdigits
  rw [hlayOut, Nat.ofDigitChars_append, Nat.ofDigitChars_replicate_zero] at hvalue
  obtain ⟨zeros, hzeros⟩ := exists_trailing_zeros (Nat.toDigits 10 (shortest q).digits)
  have hall : (shortest q).digits = Nat.ofDigitChars 10 (Nat.toDigits 10 (shortest q).digits) 0 :=
    Nat.ofDigitChars_ten_toDigits.symm
  have hlength := congrArg List.length hzeros
  rw [hzeros, Nat.ofDigitChars_append, Nat.ofDigitChars_replicate_zero] at hall
  rw [List.length_append, List.length_replicate] at hlength
  generalize ((Nat.toDigits 10 (shortest q).digits).reverse.dropWhile (· = '0')).reverse = shown at *
  have hexponent : (10 : Rat) ^ zeros * 10 ^ (shortest q).exponent =
      10 ^ ((Nat.toDigits 10 (shortest q).digits).length + (shortest q).exponent - shown.length).toNat := by
    rw [← zpow_natCast, ← zpow_natCast, ← zpow_add₀ (by norm_num)]
    congr 1
    omega
  have hcast : ((shortest q).digits : Rat) = 10 ^ zeros * (Nat.ofDigitChars 10 shown 0 : Nat) := by exact_mod_cast hall
  rw [Decimal.value, scaled_eq, ← hvalue, Int.cast_natCast, hcast]
  push_cast
  rw [← hexponent]
  ring

/-! ## Neighbours -/

/-- A number is its own rounding, as all binary64 numbers are. -/
def IsBinary64 (n : Number) : Prop := ∀ q, n = .finite q → ofRat q = .finite q

theorem lt_two_zpow_lastPlace (num : Nat) {den : Nat} (hden : 0 < den) :
    (num : Rat) / den < 2 ^ (lastPlace num den + 53) := by
  have hden' : (0 : Rat) < den := by exact_mod_cast hden
  have hbound : ∀ {leading : Int}, (num : Rat) < 2 ^ (leading + 1) * den →
      (num : Rat) / den < 2 ^ (max (leading - 52) (-1074) + 53) := by
    intro leading hlt
    refine ((div_lt_iff₀ hden').mpr hlt).trans_le (zpow_le_zpow_right₀ (by norm_num) ?_)
    omega
  rw [lastPlace]
  refine hbound ?_
  split
  · have hnum : (num : Rat) < 2 ^ ((num.log2 : Int) + 1) := by exact_mod_cast Nat.lt_log2_self
    have hlow : (2 : Rat) ^ (den.log2 : Int) ≤ den := by exact_mod_cast Nat.log2_self_le hden.ne'
    calc (num : Rat) < 2 ^ ((num.log2 : Int) + 1) := hnum
      _ = 2 ^ ((num.log2 : Int) - den.log2 + 1) * 2 ^ (den.log2 : Int) := by
        rw [← zpow_add₀ (by norm_num)]
        congr 1
        omega
      _ ≤ 2 ^ ((num.log2 : Int) - den.log2 + 1) * den := by gcongr
  · rename_i hcond
    have hlt : (num : Rat) * 2 ^ (-((num.log2 : Int) - den.log2)).toNat <
        den * 2 ^ ((num.log2 : Int) - den.log2).toNat := by
      exact_mod_cast Nat.lt_of_not_le hcond
    rw [sub_add_cancel, ← pow_toNat_div (by norm_num), div_mul_eq_mul_div, lt_div_iff₀ (by positivity),
      mul_comm _ (den : Rat)]
    exact hlt

/-- As many digits as a number has, it needs. -/
theorem ten_pow_le_of_toDigits {n : Nat} (h : 0 < n) : (10 : Rat) ^ (((Nat.toDigits 10 n).length : Int) - 1) ≤ n := by
  obtain ⟨count, hcount⟩ := Nat.exists_eq_succ_of_ne_zero (Nat.length_toDigits_pos (b := 10) (n := n)).ne'
  have hle : 10 ^ count ≤ n := by
    rcases Nat.eq_zero_or_pos count with rfl | hpos
    · exact h
    · refine Nat.le_of_not_lt fun hlt => ?_
      have := (Nat.length_toDigits_le_iff (by decide) hpos).mpr hlt
      omega
  have hexponent : ((Nat.toDigits 10 n).length : Int) - 1 = count := by omega
  rw [hexponent]
  exact_mod_cast hle

theorem le_decimalMagnitude {num den : Nat} (hnum : 0 < num) (hden : 0 < den) :
    (10 : Rat) ^ (decimalMagnitude num den - 1) ≤ (num : Rat) / den := by
  have hden' : (0 : Rat) < den := by exact_mod_cast hden
  rw [decimalMagnitude, le_div_iff₀ hden']
  split
  · have hhigh : (den : Rat) ≤ 10 ^ ((Nat.toDigits 10 den).length : Int) := by
      have := (Nat.length_toDigits_le_iff (b := 10) (n := den) (by decide) Nat.length_toDigits_pos).mp le_rfl
      exact_mod_cast this.le
    calc (10 : Rat) ^ (((Nat.toDigits 10 num).length : Int) - (Nat.toDigits 10 den).length - 1) * den
        ≤ 10 ^ (((Nat.toDigits 10 num).length : Int) - (Nat.toDigits 10 den).length - 1) *
            10 ^ ((Nat.toDigits 10 den).length : Int) := by gcongr
      _ = 10 ^ (((Nat.toDigits 10 num).length : Int) - 1) := by
        rw [← zpow_add₀ (by norm_num)]
        congr 1
        omega
      _ ≤ num := ten_pow_le_of_toDigits hnum
  · rename_i hcond
    have hle : (den : Rat) * 10 ^ (((Nat.toDigits 10 num).length : Int) - (Nat.toDigits 10 den).length).toNat ≤
        num * 10 ^ (-(((Nat.toDigits 10 num).length : Int) - (Nat.toDigits 10 den).length)).toNat := by
      exact_mod_cast Nat.le_of_not_lt hcond
    rw [add_sub_cancel_right, ← pow_toNat_div (by norm_num), div_mul_eq_mul_div, div_le_iff₀ (by positivity),
      mul_comm _ (den : Rat)]
    exact hle

theorem roundMagnitude_eq (num den : Nat) : ∃ count : Nat, roundMagnitude num den = count * 2 ^ lastPlace num den := by
  refine ⟨roundDiv (num * Nat.pow 2 (-lastPlace num den).toNat) (den * Nat.pow 2 (lastPlace num den).toNat), ?_⟩
  rw [roundMagnitude, Rat.mkRat_eq_div, ← pow_toNat_div (by norm_num) (lastPlace _ _)]
  push_cast [Nat.pow_eq]
  exact mul_div_assoc ..

/-- A binary64 number is a multiple of its last place, unless it is a small integer. -/
theorem exists_multiple {q : Rat} (hq : 0 < q) (hbinary : ofRat q = .finite q)
    (hsmall : ¬ (q.den = 1 ∧ q.num.natAbs ≤ exactBound)) :
    ∃ count : Nat, q = count * 2 ^ lastPlace q.num.natAbs q.den := by
  rw [ofRat, if_neg hsmall] at hbinary
  dsimp only at hbinary
  split at hbinary
  · cases hbinary
  · rw [if_neg hq.not_gt] at hbinary
    have hmagnitude : roundMagnitude q.num.natAbs q.den = q := Number.finite.inj hbinary
    obtain ⟨count, hcount⟩ := roundMagnitude_eq q.num.natAbs q.den
    exact ⟨count, hmagnitude.symm.trans hcount⟩

/-- The digits that are chosen read back as the number, or are seventeen of its own. -/
theorem shortest_cases (q : Rat) : ofRat (shortest q).value = .finite q ∨
    shortest q = ⟨(q / scaled 1 (decimalMagnitude q.num.natAbs q.den - 17)).floor.toNat,
      decimalMagnitude q.num.natAbs q.den - 17⟩ := by
  rw [shortest]
  cases hcandidates : (List.range 17).flatMap fun (k : Nat) =>
      readingBack q (decimalMagnitude q.num.natAbs q.den - (k + 1)) with
  | nil => exact .inr rfl
  | cons d rest =>
    refine .inl ?_
    have hmem : d ∈ (List.range 17).flatMap fun (k : Nat) =>
        readingBack q (decimalMagnitude q.num.natAbs q.den - (k + 1)) := hcandidates ▸ List.mem_cons_self
    obtain ⟨k, _, hk⟩ := List.mem_flatMap.mp hmem
    exact eq_of_beq (List.mem_filter.mp hk).2

theorem isSmall_of_eq_natCast {q : Rat} {n : Nat} (h : q = n) (hn : n ≤ exactBound) :
    q.den = 1 ∧ q.num.natAbs ≤ exactBound := by
  subst h
  exact ⟨rfl, hn⟩

theorem eq_natAbs_div {q : Rat} (hq : 0 < q) : (q.num.natAbs : Rat) / q.den = q := by
  have hnum : ((q.num.natAbs : Int) : Rat) = q.num := congrArg _ (Int.natAbs_of_nonneg (Rat.num_pos.mpr hq).le)
  rw [← Int.cast_natCast (R := Rat) q.num.natAbs, hnum, Rat.num_div_den]

/-- A binary64 number that is no small integer lies no closer above an index than its last place is apart, which is
more than the seventeenth digit counts. -/
theorem far_from_index {q t : Rat} (hq : 0 < q) (hbinary : ofRat q = .finite q)
    (hsmall : ¬ (q.den = 1 ∧ q.num.natAbs ≤ exactBound)) {i : Nat} (hi : i ≤ 4294967294) (hle : (i : Rat) ≤ q)
    (ht : 10 ^ 16 * t ≤ q) : i + t ≤ q := by
  by_contra hlt
  rw [not_le] at hlt
  have hi' : (i : Rat) ≤ 4294967294 := by exact_mod_cast hi
  have hne : q ≠ i := fun h => hsmall (isSmall_of_eq_natCast h (hi.trans (by decide)))
  obtain ⟨count, hcount⟩ := exists_multiple hq hbinary hsmall
  have hplace : q < 2 ^ (lastPlace q.num.natAbs q.den + 53) := by
    have := lt_two_zpow_lastPlace q.num.natAbs q.den_pos
    rwa [eq_natAbs_div hq] at this
  generalize lastPlace q.num.natAbs q.den = place at hcount hplace
  rcases lt_or_ge place 0 with hneg | hpos
  · -- The index is a multiple of the last place as well.
    obtain ⟨depth, rfl⟩ : ∃ depth : Nat, place = -depth := ⟨place.natAbs, by omega⟩
    have hstep : (0 : Rat) < 2 ^ (-(depth : Int)) := by positivity
    have hindex : (i : Rat) = (i * 2 ^ depth : Nat) * 2 ^ (-(depth : Int)) := by
      push_cast
      rw [mul_assoc, ← zpow_natCast, ← zpow_add₀ (by norm_num), add_neg_cancel, zpow_zero, mul_one]
    have hmore : i * 2 ^ depth < count := by
      have hlt : (i : Rat) < q := lt_of_le_of_ne hle hne.symm
      rw [hcount, hindex, mul_lt_mul_iff_of_pos_right hstep] at hlt
      exact_mod_cast hlt
    have hapart : (i : Rat) + 2 ^ (-(depth : Int)) ≤ q := by
      have hcast : ((i * 2 ^ depth : Nat) : Rat) + 1 ≤ count := by exact_mod_cast hmore
      calc (i : Rat) + 2 ^ (-(depth : Int)) = (((i * 2 ^ depth : Nat) : Rat) + 1) * 2 ^ (-(depth : Int)) := by
            rw [add_mul, one_mul, ← hindex]
        _ ≤ count * 2 ^ (-(depth : Int)) := by gcongr
        _ = q := hcount.symm
    have hfar : q < 2 ^ (-(depth : Int)) * 2 ^ 53 := by
      rwa [zpow_add₀ (by norm_num)] at hplace
    linarith
  · -- A number without a fraction would be a small integer.
    obtain ⟨height, rfl⟩ := Int.eq_ofNat_of_zero_le hpos
    have hnat : q = (count * 2 ^ height : Nat) := by
      rw [hcount]
      push_cast
      rw [zpow_natCast]
    have hsize : ((count * 2 ^ height : Nat) : Rat) ≤ exactBound := by
      rw [← hnat, exactBound]
      push_cast
      linarith
    exact hsmall (isSmall_of_eq_natCast hnat (by exact_mod_cast hsize))

/-- Digits that spell an index are chosen for small integers only. -/
theorem value_shortest_ne {q : Rat} (hq : 0 < q) (hbinary : ofRat q = .finite q)
    (hsmall : ¬ (q.den = 1 ∧ q.num.natAbs ≤ exactBound)) {i : Nat} (hi : i ≤ 4294967294) : (shortest q).value ≠ i := by
  intro hvalue
  have hbound : i ≤ exactBound := hi.trans (by decide)
  rcases shortest_cases q with hback | hown
  · rw [hvalue] at hback
    have hexact : ofRat ((i : Int) : Rat) = .finite ((i : Int) : Rat) := ofRat_intCast hbound
    rw [Int.cast_natCast, hback] at hexact
    exact hsmall (isSmall_of_eq_natCast (Number.finite.inj hexact) hbound)
  · have hlow : 10 ^ 16 * (10 : Rat) ^ (decimalMagnitude q.num.natAbs q.den - 17) ≤ q := by
      have := le_decimalMagnitude (Int.natAbs_pos.mpr (Rat.num_pos.mpr hq).ne') q.den_pos
      rw [eq_natAbs_div hq] at this
      refine le_trans (le_of_eq ?_) this
      rw [← zpow_natCast, ← zpow_add₀ (by norm_num)]
      congr 1
      push_cast
      ring
    rw [hown, Decimal.value, scaled_eq, scaled_eq, Int.cast_one, one_mul] at hvalue
    dsimp only at hvalue
    have ht : (0 : Rat) < 10 ^ (decimalMagnitude q.num.natAbs q.den - 17) := by positivity
    generalize (10 : Rat) ^ (decimalMagnitude q.num.natAbs q.den - 17) = t at hlow hvalue ht
    have hfloor : (((q / t).floor.toNat : Int) : Rat) = (q / t).floor := by
      refine congrArg _ (Int.toNat_of_nonneg (Rat.le_floor_iff.mpr ?_))
      exact_mod_cast (div_pos hq ht).le
    rw [hfloor] at hvalue
    have hle : (i : Rat) ≤ q := by
      rw [← hvalue, ← le_div_iff₀ ht]
      exact Rat.floor_le _
    have hlt : q < i + t := by
      have := (div_lt_iff₀ ht).mp (Rat.lt_floor_add_one (q / t))
      rwa [Int.cast_add, Int.cast_one, add_mul, one_mul, hvalue] at this
    exact absurd hlt (not_lt.mpr (far_from_index hq hbinary hsmall hi hle hlow))

/-! ## Indices -/

theorem text_natCast {i : Nat} (hi : i ≤ exactBound) : (finite (i : Rat)).text = toString i := by
  rw [text]
  split
  · rename_i hzero
    obtain rfl : i = 0 := by exact_mod_cast hzero
    rfl
  · exact if_pos (isSmall_of_eq_natCast rfl hi)

/-- A text that has something else than digits is no index. -/
theorem index?_ne_some {s : String} {c : Char} (hc : c ∈ s.toList) (hdigit : c.isDigit = false) (i : Nat) :
    Members.index? (Text.ofString s) ≠ some i := fun h =>
  Bool.false_ne_true (hdigit.symm.trans ((Members.digits_of_index? h).1 c hc))

/-- The text of an integer is an index only of the integer itself. -/
theorem eq_of_index?_toString {z : Int} {i : Nat} (h : Members.index? (Text.ofString (toString z)) = some i) :
    z = i := by
  cases z with
  | ofNat m =>
    have hvalue : Nat.ofDigitChars 10 (toString m).toList 0 = i := (Members.digits_of_index? h).2.1
    rw [Nat.toString_eq_ofList_toDigits, String.toList_ofList, Nat.ofDigitChars_ten_toDigits] at hvalue
    exact congrArg Int.ofNat hvalue
  | negSucc m =>
    refine absurd h (index?_ne_some (c := '-') ?_ rfl i)
    show '-' ∈ ("-" ++ Nat.repr (m + 1)).toList
    rw [String.toList_append]
    exact List.mem_append_left _ (by decide)

/-- The text of a number is an index if and only if the number is that index. -/
theorem index?_text {n : Number} (hn : n.IsBinary64) {i : Nat} :
    Members.index? (Text.ofString n.text) = some i ↔ n = .finite i ∧ i ≤ 4294967294 := by
  refine ⟨fun h => ?_, ?_⟩
  · refine ⟨?_, (Members.digits_of_index? h).2.2⟩
    cases n with
    | nan => exact absurd h (index?_ne_some (c := 'N') (by decide) rfl i)
    | infinity negative => cases negative <;> exact absurd h (index?_ne_some (c := 'I') (by decide) rfl i)
    | finite q =>
      rw [text] at h
      by_cases hzero : q = 0
      · rw [if_pos hzero] at h
        obtain rfl : 0 = i := (Members.digits_of_index? h).2.1
        rw [hzero, Nat.cast_zero]
      · rw [if_neg hzero] at h
        by_cases hsmall : q.den = 1 ∧ q.num.natAbs ≤ exactBound
        · rw [if_pos hsmall] at h
          exact congrArg Number.finite (Rat.ext (eq_of_index?_toString h) hsmall.1)
        · rw [if_neg hsmall] at h
          by_cases hneg : q < 0
          · rw [if_pos hneg] at h
            exact absurd h (index?_ne_some (c := '-') (by rw [String.toList_ofList]; exact List.mem_cons_self) rfl i)
          · rw [if_neg hneg, Text.ofString, String.toList_ofList] at h
            have hq : 0 < q := lt_of_le_of_ne (not_lt.mp hneg) (Ne.symm hzero)
            exact absurd (value_shortest_of_index? h)
              (value_shortest_ne hq (hn q rfl) hsmall (Members.digits_of_index? h).2.2)
  · rintro ⟨rfl, hi⟩
    rw [text_natCast (hi.trans (by decide))]
    exact Members.index?_ofNat hi

end Number

end LosslessSyntax
