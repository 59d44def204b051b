import Mathlib.Data.List.GetD
import Mathlib.Data.Nat.Digits.Lemmas
import Mathlib.Tactic.Ring

/-!
# Texts in character arrays

What the `printf` family and the string functions of C do with byte arrays: decimal
numerals (`decimal`), copies of a text into a zeroed array (`ofList`, which cuts it), and
`strnlen`. A text without zero bytes that fits has its length back from `strnlen`
(`strnlen_ofList`).

`zeroPadded` is the numeral of fixed width, digit by digit; a numeral copied to the end
of an array of zeros is one (`padded_decimal`).

`value` reads a text of digits in base ten. Among digit texts of one length it is
monotone for the lexicographic order of the bytes (`value_lt_iff`), and it gives the
number of a zero-padded numeral back (`value_zeroPadded`).
-/

namespace Text

/-- The character of a decimal digit. -/
def digitChar (d : ℕ) : BitVec 8 := BitVec.ofNat 8 (0x30 + d)

/-- The canonical decimal numeral. -/
def decimal (n : ℕ) : List (BitVec 8) :=
  if n = 0 then [digitChar 0] else ((Nat.digits 10 n).map digitChar).reverse

/-- The canonical decimal numeral of an integer. -/
def signedDecimal (v : ℤ) : List (BitVec 8) :=
  if v < 0 then 0x2D :: decimal v.natAbs else decimal v.natAbs

/-- An array that holds the first bytes of a text, then zeros. -/
def ofList {n : ℕ} (text : List (BitVec 8)) : Fin n → BitVec 8 := fun i => text.getD i 0

/-- The number of bytes before the first zero byte, at most `n`. -/
def strnlen (f : ℕ → BitVec 8) : ℕ → ℕ
  | 0 => 0
  | n + 1 => if f 0 = 0 then 0 else strnlen (fun k => f (k + 1)) n + 1

/-- The length of a text without zero bytes that ends before the limit. -/
theorem strnlen_getD {text : List (BitVec 8)} (h_text : ∀ c ∈ text, c ≠ 0) {n : ℕ}
    (h_len : text.length < n) : strnlen (fun k => text.getD k 0) n = text.length := by
  -- induction on the text; the limit shrinks with it
  induction text generalizing n with
  | nil =>
    obtain ⟨n, rfl⟩ := Nat.exists_eq_succ_of_ne_zero (Nat.ne_of_gt h_len)
    rfl
  | cons c text ih =>
    obtain ⟨n, rfl⟩ := Nat.exists_eq_succ_of_ne_zero (Nat.ne_of_gt (Nat.zero_lt_of_lt h_len))
    have h_rest := ih (fun d h_d => h_text d (List.mem_cons_of_mem c h_d))
      (Nat.lt_of_succ_lt_succ h_len)
    have h_first : (c :: text).getD 0 0 ≠ 0 := h_text c List.mem_cons_self
    rw [strnlen, if_neg h_first, List.length_cons]
    exact congrArg (· + 1) h_rest

/-- The array of width `w` with the decimal digits of `n`, the most significant first. -/
def zeroPadded (w n : ℕ) : Fin w → BitVec 8 := fun i => digitChar (n / 10 ^ (w - 1 - i) % 10)

theorem digitChar_ne_zero {d : ℕ} (h : d < 10) : digitChar d ≠ 0 := by
  intro h_zero
  have h_nat := congrArg BitVec.toNat h_zero
  rw [digitChar, BitVec.toNat_ofNat, Nat.mod_eq_of_lt (by omega)] at h_nat
  exact absurd h_nat (by simp)

/-- A numeral is made of digits. -/
theorem exists_digit_of_mem {n : ℕ} {c : BitVec 8} (h_c : c ∈ decimal n) :
    ∃ d < 10, c = digitChar d := by
  unfold decimal at h_c
  split at h_c
  · exact ⟨0, by norm_num, List.mem_singleton.mp h_c⟩
  · obtain ⟨d, h_d, rfl⟩ := List.mem_map.mp (List.mem_reverse.mp h_c)
    exact ⟨d, Nat.digits_lt_base (by norm_num) h_d, rfl⟩

theorem decimal_ne_zero (n : ℕ) : ∀ c ∈ decimal n, c ≠ 0 := by
  intro c h_c
  obtain ⟨d, h_d, rfl⟩ := exists_digit_of_mem h_c
  exact digitChar_ne_zero h_d

/-- Digit `k` from the end of a numeral. -/
theorem decimal_getD (n : ℕ) {k : ℕ} (h : k < (decimal n).length) :
    (decimal n).getD ((decimal n).length - 1 - k) 0 = digitChar (n / 10 ^ k % 10) := by
  unfold decimal at h ⊢
  split
  · -- zero has one digit
    next h_zero =>
    rw [if_pos h_zero] at h
    subst h_zero
    rw [Nat.zero_div, Nat.zero_mod]
    obtain rfl := Nat.lt_one_iff.mp h
    rfl
  · -- otherwise the digits are reversed
    next h_pos =>
    rw [if_neg h_pos, List.length_reverse, List.length_map] at h
    have h_digit := Nat.getD_digits n k (by norm_num : 2 ≤ 10)
    rw [List.getD_eq_getElem _ _ h] at h_digit
    -- the index from the end is the index from the front of what was reversed
    have h_lt : (Nat.digits 10 n).length - 1 - k < (Nat.digits 10 n).length := by omega
    have h_index : (Nat.digits 10 n).length - 1 - ((Nat.digits 10 n).length - 1 - k) = k := by
      omega
    rw [List.length_reverse, List.length_map, List.getD_eq_getElem _ _ (by simpa using h_lt)]
    simp only [List.getElem_reverse, List.length_map, List.getElem_map, h_index, h_digit]

/-- A number is below the power of ten of its numeral's length. -/
theorem lt_pow_decimal_length (n : ℕ) : n < 10 ^ (decimal n).length := by
  unfold decimal
  split
  · next h_zero =>
    subst h_zero
    norm_num
  · rw [List.length_reverse, List.length_map]
    exact Nat.lt_base_pow_length_digits (by norm_num)

theorem decimal_length_le {n w : ℕ} (h : n < 10 ^ w) (h_w : 0 < w) : (decimal n).length ≤ w := by
  unfold decimal
  split
  · exact h_w
  · rw [List.length_reverse, List.length_map]
    exact (Nat.digits_length_le_iff (by norm_num) n).mpr h

/-- A numeral at the end of an array of zero characters. -/
theorem padded_decimal {n w : ℕ} (h : (decimal n).length ≤ w) (i : Fin w) :
    (if i.val < w - (decimal n).length then digitChar 0
      else (decimal n).getD (i.val - (w - (decimal n).length)) 0) = zeroPadded w n i := by
  have h_i := i.isLt
  split
  · -- in front of the numeral the digits of `n` are zero
    next h_pad =>
    have h_lt : n < 10 ^ (w - 1 - i.val) :=
      lt_of_lt_of_le (lt_pow_decimal_length n) (Nat.pow_le_pow_right (by norm_num) (by omega))
    rw [zeroPadded, Nat.div_eq_of_lt h_lt]
  · next h_pad =>
    have h_digit := decimal_getD n (k := w - 1 - i.val) (by omega)
    have h_index : (decimal n).length - 1 - (w - 1 - i.val) =
        i.val - (w - (decimal n).length) := by omega
    rw [← h_index, h_digit, zeroPadded]

/-! ### Numerals determine numbers -/

theorem digitChar_injOn {c d : ℕ} (h_c : c < 10) (h_d : d < 10) (h : digitChar c = digitChar d) :
    c = d := by
  have h_nat := congrArg BitVec.toNat h
  rw [digitChar, digitChar, BitVec.toNat_ofNat, BitVec.toNat_ofNat, Nat.mod_eq_of_lt (by omega),
    Nat.mod_eq_of_lt (by omega)] at h_nat
  exact Nat.add_left_cancel h_nat

/-- Two numbers below a power of ten that agree in every digit are equal. -/
theorem eq_of_digits_eq {w n m : ℕ} (h_n : n < 10 ^ w) (h_m : m < 10 ^ w)
    (h : ∀ k < w, n / 10 ^ k % 10 = m / 10 ^ k % 10) : n = m := by
  -- induction on the width: the last digit, and the number without it
  induction w generalizing n m with
  | zero => omega
  | succ w ih =>
    have h_last : n % 10 = m % 10 := by simpa using h 0 (Nat.succ_pos w)
    have h_rest : n / 10 = m / 10 := by
      refine ih (by omega) (by omega) fun k h_k => ?_
      have h_digit := h (k + 1) (Nat.succ_lt_succ h_k)
      rwa [pow_succ', ← Nat.div_div_eq_div_mul, ← Nat.div_div_eq_div_mul] at h_digit
    omega

theorem zeroPadded_injOn {w n m : ℕ} (h_n : n < 10 ^ w) (h_m : m < 10 ^ w)
    (h : zeroPadded w n = zeroPadded w m) : n = m := by
  refine eq_of_digits_eq h_n h_m fun k h_k => ?_
  have h_char := congrFun h ⟨w - 1 - k, by omega⟩
  have h_index : w - 1 - (w - 1 - k) = k := by omega
  simp only [zeroPadded, h_index] at h_char
  exact digitChar_injOn (Nat.mod_lt _ (by norm_num)) (Nat.mod_lt _ (by norm_num)) h_char

theorem decimal_injective : Function.Injective decimal := by
  intro n m h
  -- both numerals are the digits of one width
  obtain ⟨w, h_w⟩ : ∃ w, w = (decimal m).length := ⟨_, rfl⟩
  have h_n := lt_pow_decimal_length n
  have h_m := lt_pow_decimal_length m
  rw [h, ← h_w] at h_n
  rw [← h_w] at h_m
  refine zeroPadded_injOn h_n h_m ?_
  funext i
  rw [← padded_decimal (by rw [h, h_w]) i, ← padded_decimal h_w.ge i, h]

theorem signedDecimal_ne_zero (v : ℤ) : ∀ c ∈ signedDecimal v, c ≠ 0 := by
  intro c h_c
  unfold signedDecimal at h_c
  split at h_c
  · rcases List.mem_cons.mp h_c with rfl | h_c
    · decide
    · exact decimal_ne_zero _ c h_c
  · exact decimal_ne_zero _ c h_c

/-- No numeral begins with a sign. -/
theorem cons_sign_ne_decimal (text : List (BitVec 8)) (n : ℕ) : 0x2D :: text ≠ decimal n := by
  intro h
  obtain ⟨d, h_d, h_char⟩ := exists_digit_of_mem (h ▸ List.mem_cons_self : 0x2D ∈ decimal n)
  have h_nat := congrArg BitVec.toNat h_char
  rw [digitChar, BitVec.toNat_ofNat, Nat.mod_eq_of_lt (by omega)] at h_nat
  change 45 = 48 + d at h_nat
  omega

theorem signedDecimal_injective : Function.Injective signedDecimal := by
  intro v v' h
  unfold signedDecimal at h
  split at h
  · split at h
    · have h_abs := decimal_injective (List.cons.inj h).2
      omega
    · exact absurd h (cons_sign_ne_decimal _ _)
  · split at h
    · exact absurd h.symm (cons_sign_ne_decimal _ _)
    · have h_abs := decimal_injective h
      omega

/-- A number of at most six characters. -/
theorem signedDecimal_length_le {v : ℤ} (h_low : -99999 ≤ v) (h_high : v ≤ 999999) :
    (signedDecimal v).length ≤ 6 := by
  unfold signedDecimal
  split
  · have h_len : (decimal v.natAbs).length ≤ 5 := decimal_length_le (by omega) (by norm_num)
    rw [List.length_cons]
    omega
  · exact decimal_length_le (by omega) (by norm_num)

/-! ### Reading a text of digits -/

/-- The ASCII characters `0` to `9`. -/
def IsDigit (c : BitVec 8) : Prop := 0x30 ≤ c.toNat ∧ c.toNat ≤ 0x39

instance : DecidablePred IsDigit := fun c =>
  inferInstanceAs (Decidable (0x30 ≤ c.toNat ∧ c.toNat ≤ 0x39))

/-- The number that a text of digits spells in base ten, the most significant digit first. -/
def value (text : List (BitVec 8)) : ℕ :=
  text.foldl (fun n c => 10 * n + (c.toNat - 0x30)) 0

theorem isDigit_digitChar {d : ℕ} (h : d < 10) : IsDigit (digitChar d) := by
  unfold IsDigit
  rw [digitChar, BitVec.toNat_ofNat, Nat.mod_eq_of_lt (by omega)]
  omega

theorem toNat_digitChar_sub {d : ℕ} (h : d < 10) : (digitChar d).toNat - 0x30 = d := by
  rw [digitChar, BitVec.toNat_ofNat, Nat.mod_eq_of_lt (by omega), Nat.add_sub_cancel_left]

theorem isDigit_zeroPadded (w n : ℕ) (i : Fin w) : IsDigit (zeroPadded w n i) :=
  isDigit_digitChar (Nat.mod_lt _ (by norm_num))

@[simp] theorem value_concat (text : List (BitVec 8)) (c : BitVec 8) :
    value (text ++ [c]) = 10 * value text + (c.toNat - 0x30) := by
  simp only [value, List.foldl_append, List.foldl_cons, List.foldl_nil]

@[simp] theorem value_cons (c : BitVec 8) (text : List (BitVec 8)) :
    value (c :: text) = (c.toNat - 0x30) * 10 ^ text.length + value text := by
  -- the first digit is in front of every digit read after it: induction from the end
  induction text using List.reverseRecOn with
  | nil => simp [value]
  | append_singleton text d ih =>
    rw [← List.cons_append, value_concat, value_concat, ih, List.length_append,
      List.length_singleton, pow_succ]
    ring

theorem value_lt_pow {text : List (BitVec 8)} (h : ∀ c ∈ text, IsDigit c) :
    value text < 10 ^ text.length := by
  induction text with
  | nil => exact Nat.one_pos
  | cons c text ih =>
    have h_rest := ih fun d h_d => h d (List.mem_cons_of_mem c h_d)
    have h_digit : c.toNat - 0x30 ≤ 9 := by
      have := (h c List.mem_cons_self).2
      omega
    have h_mul := Nat.mul_le_mul_right (10 ^ text.length) h_digit
    rw [value_cons, List.length_cons, pow_succ]
    omega

/-- **Digit texts of one length are ordered as the numbers they spell.** -/
theorem value_lt_iff {a b : List (BitVec 8)} (h_len : a.length = b.length)
    (h_a : ∀ c ∈ a, IsDigit c) (h_b : ∀ c ∈ b, IsDigit c) : value a < value b ↔ a < b := by
  -- the first digits decide, or are equal and leave it to the rest
  induction a generalizing b with
  | nil =>
    obtain rfl := List.length_eq_zero_iff.mp h_len.symm
    simp [List.not_lt_nil]
  | cons c a ih =>
    cases b with
    | nil => exact absurd h_len (by simp)
    | cons d b =>
      have h_len' : a.length = b.length := Nat.succ.inj h_len
      have h_rest := ih h_len' (fun e h_e => h_a e (List.mem_cons_of_mem c h_e))
        (fun e h_e => h_b e (List.mem_cons_of_mem d h_e))
      have h_lt_a := value_lt_pow fun e h_e => h_a e (List.mem_cons_of_mem c h_e)
      have h_lt_b := value_lt_pow fun e h_e => h_b e (List.mem_cons_of_mem d h_e)
      have h_c := (h_a c List.mem_cons_self).1
      have h_d := (h_b d List.mem_cons_self).1
      rw [List.cons_lt_cons_iff, value_cons, value_cons, h_len', BitVec.lt_def]
      rw [h_len'] at h_lt_a
      rcases Nat.lt_trichotomy c.toNat d.toNat with h_cd | h_cd | h_cd
      · -- a smaller first digit: the rest cannot make up for it
        have h_mul := Nat.mul_le_mul_right (10 ^ b.length)
          (by omega : c.toNat - 0x30 + 1 ≤ d.toNat - 0x30)
        rw [Nat.add_mul, Nat.one_mul] at h_mul
        exact iff_of_true (by omega) (Or.inl h_cd)
      · obtain rfl := BitVec.eq_of_toNat_eq h_cd
        simp only [Nat.add_lt_add_iff_left, h_rest, lt_irrefl, true_and, false_or]
      · have h_mul := Nat.mul_le_mul_right (10 ^ b.length)
          (by omega : d.toNat - 0x30 + 1 ≤ c.toNat - 0x30)
        rw [Nat.add_mul, Nat.one_mul] at h_mul
        refine iff_of_false (by omega) ?_
        rintro (h_lt | ⟨rfl, -⟩)
        · exact absurd h_lt h_cd.le.not_gt
        · exact absurd h_cd (lt_irrefl _)

/-- **A zero-padded numeral spells its number**, as far as the width goes. -/
theorem value_zeroPadded (w n : ℕ) : value (List.ofFn (zeroPadded w n)) = n % 10 ^ w := by
  -- induction on the width: the last digit, and the numeral of the number without it
  induction w generalizing n with
  | zero => simp [value, Nat.mod_one]
  | succ w ih =>
    have h_front : (fun i : Fin w => zeroPadded (w + 1) n i.castSucc) = zeroPadded w (n / 10) := by
      funext i
      have h_i := i.isLt
      have h_exp : w + 1 - 1 - i.val = w - 1 - i.val + 1 := by omega
      simp only [zeroPadded, Fin.val_castSucc, h_exp]
      rw [pow_succ', Nat.div_div_eq_div_mul]
    have h_last : zeroPadded (w + 1) n (Fin.last w) = digitChar (n % 10) := by
      simp [zeroPadded]
    rw [List.ofFn_succ_last, value_concat, h_front, ih, h_last,
      toNat_digitChar_sub (Nat.mod_lt _ (by norm_num)), pow_succ', Nat.mod_mul]
    omega

/-! ### Texts that begin alike -/

/-- The first `n` characters agree, if a text that ends is continued by zero bytes. -/
def SameStart (n : ℕ) (a b : List (BitVec 8)) : Prop := ∀ i < n, a.getD i 0 = b.getD i 0

instance (n : ℕ) (a b : List (BitVec 8)) : Decidable (SameStart n a b) :=
  inferInstanceAs (Decidable (∀ i < n, a.getD i 0 = b.getD i 0))

/-- Two texts cut to `n` characters are in one array alike if and only if they begin alike. -/
theorem ofList_take_eq_iff {n m : ℕ} (h : n ≤ m) {a b : List (BitVec 8)} :
    (ofList (a.take n) : Fin m → BitVec 8) = ofList (b.take n) ↔ SameStart n a b := by
  -- cutting a text leaves its first characters and zeros behind
  have h_getD : ∀ (l : List (BitVec 8)) i,
      (l.take n).getD i 0 = if i < n then l.getD i 0 else 0 := by
    intro l i
    rw [List.getD_eq_getElem?_getD, List.getElem?_take]
    split
    · rw [List.getD_eq_getElem?_getD]
    · rfl
  constructor
  · intro h_eq i h_i
    have h_char := congrFun h_eq ⟨i, h_i.trans_le h⟩
    simp only [ofList, h_getD, if_pos h_i] at h_char
    exact h_char
  · intro h_same
    funext i
    simp only [ofList, h_getD]
    split
    · next h_i => exact h_same i h_i
    · rfl

/-- Texts without zero bytes that fit are equal if they begin alike. -/
theorem SameStart.eq {n : ℕ} {a b : List (BitVec 8)} (h : SameStart n a b)
    (h_a : ∀ c ∈ a, c ≠ 0) (h_b : ∀ c ∈ b, c ≠ 0) (h_len : a.length ≤ n) (h_len' : b.length ≤ n) :
    a = b := by
  -- one after the other; where one text ends the other has a zero byte or ends too
  induction n generalizing a b with
  | zero =>
    rw [List.length_eq_zero_iff.mp (Nat.le_zero.mp h_len),
      List.length_eq_zero_iff.mp (Nat.le_zero.mp h_len')]
  | succ n ih =>
    have h_first := h 0 (Nat.succ_pos n)
    cases a with
    | nil =>
      cases b with
      | nil => rfl
      | cons c b => exact absurd h_first.symm (h_b c List.mem_cons_self)
    | cons c a =>
      cases b with
      | nil => exact absurd h_first (h_a c List.mem_cons_self)
      | cons d b =>
        have h_rest := ih (fun i h_i => h (i + 1) (Nat.succ_lt_succ h_i))
          (fun e h_e => h_a e (List.mem_cons_of_mem c h_e))
          (fun e h_e => h_b e (List.mem_cons_of_mem d h_e))
          (Nat.le_of_succ_le_succ h_len) (Nat.le_of_succ_le_succ h_len')
        change c = d at h_first
        rw [h_first, h_rest]

end Text
