-- SUMMARY: Rounding of rationals to a binary floating-point grid, and when a rounded quotient has the exact ceiling.
import Mathlib.Data.Int.Log
import Mathlib.Data.Rat.Floor
import Mathlib.Algebra.Order.Floor.Semiring
import Mathlib.Tactic.Linarith
import Mathlib.Tactic.Positivity
import Mathlib.Tactic.FieldSimp

/-!
# Binary rounding

Round-to-nearest, ties-to-even, on the grid of numbers with a `p`-bit
significand. The exponent range is unbounded: neither overflow nor subnormal
numbers are modelled, so the grid is the right one only for results in the
normal range of the format.

The main fact is `ceil_div_ofNat`: below `2 ^ p` the ceiling of a rounded
quotient is the ceiling of the quotient.
-/

namespace Fp

/-! ## Rounding to an integer -/

/-- The nearest integer, an even one on a tie. -/
def roundEven (q : ℚ) : ℤ :=
  if q - ⌊q⌋ < 1 / 2 then ⌊q⌋
  else if 1 / 2 < q - ⌊q⌋ then ⌊q⌋ + 1
  else if ⌊q⌋ % 2 = 0 then ⌊q⌋ else ⌊q⌋ + 1

theorem roundEven_sub_le (q : ℚ) : q - 1 / 2 ≤ roundEven q := by
  have hlt : q < ⌊q⌋ + 1 := Int.lt_floor_add_one q
  unfold roundEven
  split_ifs with h₁ h₂ <;> push_cast <;> linarith

theorem roundEven_le_add (q : ℚ) : roundEven q ≤ q + 1 / 2 := by
  have hle : (⌊q⌋ : ℚ) ≤ q := Int.floor_le q
  unfold roundEven
  split_ifs with h₁ h₂ <;> push_cast <;> linarith

theorem le_roundEven {m : ℤ} {q : ℚ} (h : (m : ℚ) ≤ q) : m ≤ roundEven q := by
  have hfloor : m ≤ ⌊q⌋ := Int.le_floor.mpr h
  unfold roundEven
  split_ifs <;> omega

theorem roundEven_le {m : ℤ} {q : ℚ} (h : q ≤ m) : roundEven q ≤ m := by
  rcases h.lt_or_eq with hlt | rfl
  · have hfloor : ⌊q⌋ < m := Int.floor_lt.mpr hlt
    unfold roundEven
    split_ifs <;> omega
  · simp [roundEven]

/-! ## The grid -/

/-- The gap between neighbouring grid points around `q`. -/
def ulp (p : ℕ) (q : ℚ) : ℚ := 2 ^ (Int.log 2 q + 1 - p)

/-- The grid point nearest to `q`. -/
def round (p : ℕ) (q : ℚ) : ℚ := roundEven (q / ulp p q) * ulp p q

variable {p : ℕ} {q : ℚ}

theorem ulp_pos : 0 < ulp p q := zpow_pos two_pos _

@[simp] theorem round_zero : round p 0 = 0 := by
  simp [round, roundEven]

theorem round_sub_le : q - ulp p q / 2 ≤ round p q := by
  have hround := roundEven_sub_le (q / ulp p q)
  calc q - ulp p q / 2 = (q / ulp p q - 1 / 2) * ulp p q := by
        field_simp [ulp_pos.ne']
    _ ≤ roundEven (q / ulp p q) * ulp p q :=
        mul_le_mul_of_nonneg_right hround ulp_pos.le

theorem round_le_add : round p q ≤ q + ulp p q / 2 := by
  have hround := roundEven_le_add (q / ulp p q)
  calc (roundEven (q / ulp p q) : ℚ) * ulp p q ≤ (q / ulp p q + 1 / 2) * ulp p q :=
        mul_le_mul_of_nonneg_right hround ulp_pos.le
    _ = q + ulp p q / 2 := by field_simp [ulp_pos.ne']

theorem half_ulp : ulp p q / 2 = 2 ^ Int.log 2 q / 2 ^ p := by
  unfold ulp
  rw [zpow_sub₀ two_ne_zero, zpow_add₀ two_ne_zero, zpow_one, zpow_natCast]
  ring

/-- Rounding stays below a multiple of the gap. -/
theorem round_le_of_mul {m : ℤ} (h : q ≤ m * ulp p q) : round p q ≤ m * ulp p q := by
  have hdiv : q / ulp p q ≤ m := (div_le_iff₀ ulp_pos).mpr h
  exact mul_le_mul_of_nonneg_right (by exact_mod_cast roundEven_le hdiv) ulp_pos.le

/-- Rounding stays above a multiple of the gap. -/
theorem le_round_of_mul {m : ℤ} (h : m * ulp p q ≤ q) : m * ulp p q ≤ round p q := by
  have hdiv : (m : ℚ) ≤ q / ulp p q := (le_div_iff₀ ulp_pos).mpr h
  exact mul_le_mul_of_nonneg_right (by exact_mod_cast le_roundEven hdiv) ulp_pos.le

/-- The relative error of rounding. -/
theorem round_le_add_div (hq : 0 < q) : round p q ≤ q + q / 2 ^ p := by
  have hlog : (2 : ℚ) ^ Int.log 2 q ≤ q := by exact_mod_cast Int.zpow_log_le_self one_lt_two hq
  calc round p q ≤ q + ulp p q / 2 := round_le_add
    _ = q + 2 ^ Int.log 2 q / 2 ^ p := by rw [half_ulp]
    _ ≤ q + q / 2 ^ p := by gcongr

/-- Rounding does not leave the binade from below. -/
theorem zpow_log_le_round (hp : 0 < p) (hq : 0 < q) : (2 : ℚ) ^ Int.log 2 q ≤ round p q := by
  have hpow : ((2 ^ (p - 1) : ℤ) : ℚ) * ulp p q = 2 ^ Int.log 2 q := by
    unfold ulp
    push_cast
    rw [← zpow_natCast, ← zpow_add₀ two_ne_zero]
    congr 1
    push_cast [Nat.cast_sub (show 1 ≤ p from hp)]
    ring
  rw [← hpow]
  apply le_round_of_mul
  rw [hpow]
  exact_mod_cast Int.zpow_log_le_self one_lt_two hq

theorem round_pos (hp : 0 < p) (hq : 0 < q) : 0 < round p q :=
  (zpow_pos two_pos _).trans_le (zpow_log_le_round hp hq)

/-- Below the last binade natural numbers are multiples of the gap. -/
theorem natCast_eq_mul_ulp (m : ℕ) (h : Int.log 2 q + 1 ≤ p) : ∃ z : ℤ, (m : ℚ) = z * ulp p q := by
  obtain ⟨k, hk⟩ := Int.le.dest h
  refine ⟨m * 2 ^ k, ?_⟩
  unfold ulp
  rw [show Int.log 2 q + 1 - (p : ℤ) = -(k : ℤ) by omega]
  push_cast
  rw [zpow_neg, zpow_natCast]
  field_simp

/-- A natural number up to `2 ^ p` above `q` is a multiple of the gap at `q`. -/
private theorem exists_mul_ulp {m : ℕ} (hp : 0 < p) (hq : 0 < q) (hqm : q ≤ m)
    (hm : m ≤ 2 ^ p) : ∃ z : ℤ, (m : ℚ) = z * ulp p q := by
  rcases le_or_gt (Int.log 2 q + 1) (p : ℤ) with hlog | hlog
  · exact natCast_eq_mul_ulp m hlog
  · -- above the last binade `q` can only be `2 ^ p` itself
    have hle : (2 : ℚ) ^ (p : ℤ) ≤ q :=
      (Int.zpow_le_iff_le_log one_lt_two hq).mpr (by omega)
    have hmp : (m : ℚ) ≤ 2 ^ p := by exact_mod_cast hm
    have hqp : q = 2 ^ (p : ℤ) := le_antisymm (by rw [zpow_natCast]; linarith) hle
    have hmq : (m : ℚ) = q := le_antisymm (by rw [hqp, zpow_natCast]; exact hmp) hqm
    have hlogq : Int.log 2 q = p := by
      rw [hqp]
      exact_mod_cast Int.log_zpow one_lt_two (R := ℚ) (p : ℤ)
    refine ⟨2 ^ (p - 1), ?_⟩
    unfold ulp
    rw [hmq, hlogq, hqp, show (p : ℤ) + 1 - p = 1 by ring]
    push_cast
    rw [zpow_natCast, ← pow_succ, Nat.sub_add_cancel hp]

/-- Rounding does not cross a natural number up to `2 ^ p` from below. -/
theorem round_le_natCast {m : ℕ} (hp : 0 < p) (hq : 0 < q) (hqm : q ≤ m) (hm : m ≤ 2 ^ p) :
    round p q ≤ m := by
  obtain ⟨z, hz⟩ := exists_mul_ulp hp hq hqm hm
  rw [hz] at hqm ⊢
  exact round_le_of_mul hqm

/-- Rounding does not cross a natural number up to `2 ^ p` from above. -/
theorem natCast_le_round {m : ℕ} (hp : 0 < p) (hq : 0 < q) (hmq : (m : ℚ) ≤ q) (hm : m ≤ 2 ^ p) :
    (m : ℚ) ≤ round p q := by
  rcases le_or_gt (Int.log 2 q + 1) (p : ℤ) with hlog | hlog
  · obtain ⟨z, hz⟩ := natCast_eq_mul_ulp m hlog
    rw [hz] at hmq ⊢
    exact le_round_of_mul hmq
  · calc (m : ℚ) ≤ 2 ^ p := by exact_mod_cast hm
      _ = 2 ^ (p : ℤ) := (zpow_natCast 2 p).symm
      _ ≤ 2 ^ Int.log 2 q := zpow_le_zpow_right₀ one_le_two (by omega)
      _ ≤ round p q := zpow_log_le_round hp hq

/-- Natural numbers up to `2 ^ p` are grid points. -/
theorem round_natCast {n : ℕ} (hp : 0 < p) (hn : n ≤ 2 ^ p) : round p n = n := by
  rcases Nat.eq_zero_or_pos n with rfl | hpos
  · simp
  · have hq : (0 : ℚ) < n := by exact_mod_cast hpos
    obtain ⟨z, hz⟩ := exists_mul_ulp hp hq le_rfl hn
    apply le_antisymm (round_le_natCast hp hq le_rfl hn)
    calc (n : ℚ) = z * ulp p n := hz
      _ ≤ round p n := le_round_of_mul hz.ge

/-- A multiple of the gap around it is a grid point. -/
theorem round_eq_of_mul {m : ℤ} (h : q = m * ulp p q) : round p q = q := by
  apply le_antisymm
  · calc round p q ≤ m * ulp p q := round_le_of_mul h.le
      _ = q := h.symm
  · calc q = m * ulp p q := h
      _ ≤ round p q := le_round_of_mul h.ge

/-- Rounding twice is rounding once. -/
theorem round_round (hp : 0 < p) (hq : 0 < q) : round p (round p q) = round p q := by
  have hy := round_pos hp hq
  have hlow := zpow_log_le_round hp hq
  -- the rounded value stays in the binade of `q` or is the power of two above it
  have htop : ((2 ^ p : ℤ) : ℚ) * ulp p q = 2 ^ (Int.log 2 q + 1) := by
    unfold ulp
    push_cast
    rw [← zpow_natCast, ← zpow_add₀ two_ne_zero]
    congr 1
    ring
  have hhigh : round p q ≤ 2 ^ (Int.log 2 q + 1) := by
    rw [← htop]
    apply round_le_of_mul
    rw [htop]
    exact_mod_cast (Int.lt_zpow_succ_log_self one_lt_two q).le
  rcases hhigh.lt_or_eq with hlt | heq
  · have hlog : Int.log 2 (round p q) = Int.log 2 q := by
      apply le_antisymm
      · have := (Int.lt_zpow_iff_log_lt one_lt_two hy).mp hlt
        omega
      · exact (Int.zpow_le_iff_le_log one_lt_two hy).mp hlow
    have hulp : ulp p (round p q) = ulp p q := by rw [ulp, hlog, ulp]
    apply round_eq_of_mul (m := roundEven (q / ulp p q))
    rw [hulp]
    rfl
  · have hlog : Int.log 2 (round p q) = Int.log 2 q + 1 := by
      rw [heq]
      exact_mod_cast Int.log_zpow one_lt_two (R := ℚ) (Int.log 2 q + 1)
    apply round_eq_of_mul (m := 2 ^ (p - 1))
    rw [ulp, hlog, heq]
    push_cast
    rw [← zpow_natCast, ← zpow_add₀ two_ne_zero]
    congr 1
    push_cast [Nat.cast_sub (show 1 ≤ p from hp)]
    ring

/-- The grid is finer around a quotient by a power of two, by that power. -/
theorem ulp_div_two_pow (hq : 0 < q) (k : ℕ) : ulp p (q / 2 ^ k) = ulp p q / 2 ^ k := by
  have hquot : 0 < q / 2 ^ k := by positivity
  have hlog : Int.log 2 (q / 2 ^ k) = Int.log 2 q - k := by
    apply le_antisymm
    · have hlt : q / 2 ^ k < ((2 : ℕ) : ℚ) ^ (Int.log 2 q + 1 - k) := by
        rw [zpow_sub₀ (by norm_num), zpow_natCast]
        exact div_lt_div_of_pos_right (Int.lt_zpow_succ_log_self one_lt_two q) (by positivity)
      have := (Int.lt_zpow_iff_log_lt one_lt_two hquot).mp hlt
      omega
    · apply (Int.zpow_le_iff_le_log one_lt_two hquot).mp
      rw [zpow_sub₀ (by norm_num), zpow_natCast]
      exact div_le_div_of_nonneg_right (Int.zpow_log_le_self one_lt_two hq) (by positivity)
  unfold ulp
  rw [hlog, show Int.log 2 q - k + 1 - p = Int.log 2 q + 1 - p - k by ring,
    zpow_sub₀ two_ne_zero _ (k : ℤ), zpow_natCast]

/-- Rounding commutes with a division by a power of two. -/
theorem round_div_two_pow (hq : 0 < q) (k : ℕ) : round p (q / 2 ^ k) = round p q / 2 ^ k := by
  have hpow : (2 : ℚ) ^ k ≠ 0 := by positivity
  unfold round
  rw [ulp_div_two_pow hq, div_div_div_cancel_right₀ hpow, mul_div_assoc]

/-! ## Quotients of natural numbers -/

/-- A natural number as a floating-point value. -/
def ofNat (p n : ℕ) : ℚ := round p n

/-- Floating-point division. -/
def div (p : ℕ) (x y : ℚ) : ℚ := round p (x / y)

theorem ofNat_eq {n : ℕ} (hp : 0 < p) (hn : n ≤ 2 ^ p) : ofNat p n = n :=
  round_natCast hp hn

/-- The bound is sharp: the first count that is not representable. -/
theorem ofNat_two_pow_add_one {p : ℕ} (hp : 2 ≤ p) : ofNat p (2 ^ p + 1) = 2 ^ p := by
  obtain ⟨m, rfl⟩ : ∃ m, p = m + 2 := ⟨p - 2, by omega⟩
  have hlog : Int.log 2 ((2 ^ (m + 2) + 1 : ℕ) : ℚ) = (m + 2 : ℕ) := by
    rw [Int.log_natCast]
    congr 1
    refine (Nat.log_eq_iff (.inl (by omega))).mpr ⟨by omega, ?_⟩
    rw [pow_succ 2 (m + 2)]
    have := Nat.one_lt_two_pow (show m + 2 ≠ 0 by omega)
    omega
  have hulp : ulp (m + 2) ((2 ^ (m + 2) + 1 : ℕ) : ℚ) = 2 := by
    rw [ulp, hlog, add_sub_cancel_left, zpow_one]
  have hquot : ((2 ^ (m + 2) + 1 : ℕ) : ℚ) / 2 = (2 * 2 ^ m : ℤ) + 1 / 2 := by
    push_cast
    ring
  have hfloor : ⌊((2 * 2 ^ m : ℤ) : ℚ) + 1 / 2⌋ = 2 * 2 ^ m := by
    rw [Int.floor_intCast_add]
    norm_num
  unfold ofNat round
  rw [hulp, hquot, roundEven, hfloor]
  rw [if_neg (by norm_num), if_neg (by norm_num), if_pos (by omega)]
  push_cast
  ring

theorem ofNat_pos {n : ℕ} (hp : 0 < p) (hn : 0 < n) : 0 < ofNat p n :=
  round_pos hp (by exact_mod_cast hn)

theorem div_pos {x y : ℚ} (hp : 0 < p) (hx : 0 < x) (hy : 0 < y) : 0 < div p x y :=
  round_pos hp (by positivity)

theorem natCast_le_ofNat {m n : ℕ} (hp : 0 < p) (hmn : m ≤ n) (hm : m ≤ 2 ^ p) :
    (m : ℚ) ≤ ofNat p n := by
  rcases Nat.eq_zero_or_pos n with rfl | hpos
  · obtain rfl : m = 0 := by omega
    simp [ofNat]
  · exact natCast_le_round hp (by exact_mod_cast hpos) (by exact_mod_cast hmn) hm

/-- A grid point divided by a power of two is a grid point. -/
theorem div_ofNat_two_pow (hp : 0 < p) (n k : ℕ) : div p (ofNat p n) (2 ^ k) = ofNat p n / 2 ^ k := by
  rcases Nat.eq_zero_or_pos n with rfl | hpos
  · simp [div, ofNat]
  · have hn : (0 : ℚ) < n := by exact_mod_cast hpos
    rw [div, round_div_two_pow (ofNat_pos hp hpos), ofNat, round_round hp hn]

/-- Rounding a quotient never reaches the natural number below it. The quotient
is at least `1 / b` above `k`, and half a gap at `k` is less than that. -/
theorem lt_round_div {a b k : ℕ} (hp : 0 < p) (ha : a ≤ 2 ^ p) (hb : 0 < b)
    (hk : (k : ℚ) < a / b) : (k : ℚ) < round p (a / b) := by
  set q : ℚ := a / b with hqdef
  have hq : 0 < q := (Nat.cast_nonneg k).trans_lt hk
  have hbQ : (0 : ℚ) < b := by exact_mod_cast hb
  rcases le_or_gt ((2 : ℚ) ^ Int.log 2 q) k with hlow | hhigh
  · have hkb : k * b + 1 ≤ a := by
      have h : ((k * b : ℕ) : ℚ) < (a : ℕ) := by
        push_cast
        exact (lt_div_iff₀ hbQ).mp hk
      exact_mod_cast h
    have hgap : (k : ℚ) + 1 / b ≤ q := by
      rw [hqdef, ← sub_nonneg]
      have h : ((k * b + 1 : ℕ) : ℚ) ≤ (a : ℕ) := by exact_mod_cast hkb
      push_cast at h
      have : (a : ℚ) / b - (k + 1 / b) = (a - (k * b + 1)) / b := by field_simp
      rw [this]
      exact div_nonneg (by linarith) hbQ.le
    have hhalf : ulp p q / 2 < 1 / b := by
      rw [half_ulp, div_lt_div_iff₀ (by positivity) hbQ, one_mul]
      calc (2 : ℚ) ^ Int.log 2 q * b ≤ k * b := mul_le_mul_of_nonneg_right hlow hbQ.le
        _ < ((a : ℕ) : ℚ) := by exact_mod_cast hkb
        _ ≤ 2 ^ p := by exact_mod_cast ha
    have hround : q - ulp p q / 2 ≤ round p q := round_sub_le
    linarith
  · exact hhigh.trans_le (zpow_log_le_round hp hq)

/-- The ceiling of a quotient of natural numbers, in natural-number arithmetic. -/
theorem ceil_natCast_div (a : ℕ) {b : ℕ} (hb : 0 < b) :
    ⌈(a : ℚ) / b⌉₊ = (a + b - 1) / b := by
  have hbQ : (0 : ℚ) < b := by exact_mod_cast hb
  have hle : ∀ m : ℕ, ⌈(a : ℚ) / b⌉₊ ≤ m ↔ (a + b - 1) / b ≤ m := by
    intro m
    rw [Nat.ceil_le, div_le_iff₀ hbQ, Nat.div_le_iff_le_mul_add_pred hb]
    constructor
    · intro h
      have h' : a ≤ m * b := by exact_mod_cast h
      rw [mul_comm] at h'
      omega
    · intro h
      have h' : a ≤ m * b := by rw [mul_comm]; omega
      exact_mod_cast h'
  exact le_antisymm ((hle _).mpr le_rfl) ((hle _).mp le_rfl)

/-- Up to `2 ^ p` the ceiling of the rounded quotient is exact. -/
theorem ceil_round_div {a b : ℕ} (hp : 0 < p) (ha : a ≤ 2 ^ p) (hb : 0 < b) :
    ⌈round p ((a : ℚ) / b)⌉₊ = (a + b - 1) / b := by
  rw [← ceil_natCast_div a hb]
  rcases Nat.eq_zero_or_pos a with rfl | hpos
  · simp
  have hbQ : (0 : ℚ) < b := by exact_mod_cast hb
  have hq : (0 : ℚ) < a / b := by positivity
  have hc : ⌈(a : ℚ) / b⌉₊ ≠ 0 := (Nat.ceil_pos.mpr hq).ne'
  have hca : ⌈(a : ℚ) / b⌉₊ ≤ a := by
    rw [Nat.ceil_le, div_le_iff₀ hbQ]
    exact_mod_cast Nat.le_mul_of_pos_right a hb
  obtain ⟨hlow, hhigh⟩ := (Nat.ceil_eq_iff hc).mp rfl
  exact (Nat.ceil_eq_iff hc).mpr
    ⟨lt_round_div hp ha hb hlow, round_le_natCast hp hq hhigh (hca.trans ha)⟩

/-- Up to `2 ^ p` a further division by a power of two leaves the ceiling exact. -/
theorem ceil_div_div_two_pow {a b : ℕ} (hp : 0 < p) (ha : 0 < a) (hap : a ≤ 2 ^ p) (hb : 0 < b)
    (hbp : b ≤ 2 ^ p) (k : ℕ) :
    ⌈div p (div p (ofNat p a) (ofNat p b)) (2 ^ k)⌉₊ = (a + b * 2 ^ k - 1) / (b * 2 ^ k) := by
  have hq : (0 : ℚ) < a / b := by positivity
  rw [ofNat_eq hp hap, ofNat_eq hp hbp]
  unfold div
  rw [round_div_two_pow (round_pos hp hq), round_round hp hq, ← round_div_two_pow hq, div_div,
    ← ceil_round_div hp hap (show 0 < b * 2 ^ k by positivity)]
  push_cast
  rfl

/-- Dividend up to `2 ^ p`, any divisor: the ceiling of the floating-point
quotient is exact. A divisor beyond `2 ^ p` is itself rounded, but then both
quotients lie in `(0, 1]`. -/
theorem ceil_div_ofNat {a b : ℕ} (hp : 0 < p) (ha : a ≤ 2 ^ p) (hb : 0 < b) :
    ⌈div p (ofNat p a) (ofNat p b)⌉₊ = (a + b - 1) / b := by
  rw [ofNat_eq hp ha]
  rcases le_or_gt b (2 ^ p) with hbp | hbp
  · rw [ofNat_eq hp hbp]
    exact ceil_round_div hp ha hb
  · rcases Nat.eq_zero_or_pos a with rfl | hpos
    · simp [div, Nat.div_eq_of_lt (show b - 1 < b by omega)]
    · have hbQ : (0 : ℚ) < b := by exact_mod_cast hb
      have hbig : (2 : ℚ) ^ p ≤ ofNat p b := by
        exact_mod_cast natCast_le_ofNat (m := 2 ^ p) hp hbp.le le_rfl
      have hbpos : 0 < ofNat p b := ofNat_pos hp hb
      have haQ : (0 : ℚ) < a := by exact_mod_cast hpos
      have hone : (a : ℚ) / ofNat p b ≤ (1 : ℕ) := by
        rw [div_le_iff₀ hbpos]
        push_cast
        have : (a : ℚ) ≤ 2 ^ p := by exact_mod_cast ha
        linarith
      have hceil : ⌈div p (a : ℚ) (ofNat p b)⌉₊ = 1 := by
        refine (Nat.ceil_eq_iff one_ne_zero).mpr ⟨?_, ?_⟩
        · simpa using div_pos hp haQ hbpos
        · exact round_le_natCast hp (by positivity) hone (Nat.one_le_two_pow)
      rw [hceil]
      refine (Nat.div_eq_of_lt_le ?_ ?_).symm <;> omega

/-- The floor of a rounded quotient of integers is exact for a dividend below `2 ^ p`. -/
theorem floor_round_div {a : ℕ} (hp : 0 < p) (ha : a < 2 ^ p) (b : ℕ) :
    ⌊round p (a / b)⌋₊ = a / b := by
  rcases Nat.eq_zero_or_pos a with rfl | hpos
  · simp
  rcases Nat.eq_zero_or_pos b with rfl | hb
  · simp
  have hb' : (0 : ℚ) < b := by exact_mod_cast hb
  have haQ : (0 : ℚ) < a := by exact_mod_cast hpos
  have hq : (0 : ℚ) < a / b := by positivity
  have hlow : ((a / b : ℕ) : ℚ) * b ≤ a := by exact_mod_cast Nat.div_mul_le_self a b
  have hhigh : (a : ℚ) + 1 ≤ ((a / b : ℕ) + 1) * b := by
    exact_mod_cast Nat.lt_mul_of_div_lt (Nat.lt_succ_self (a / b)) hb
  rw [Nat.floor_eq_iff (round_pos hp hq).le]
  refine ⟨natCast_le_round hp hq ((le_div_iff₀ hb').mpr hlow) ?_, ?_⟩
  · exact (Nat.div_le_self a b).trans ha.le
  · have hpow : (a : ℚ) / 2 ^ p < 1 := by
      rw [div_lt_one (by positivity)]
      exact_mod_cast ha
    calc round p (a / b) ≤ a / b + a / b / 2 ^ p := round_le_add_div hq
      _ = (a + a / 2 ^ p) / b := by ring
      _ < (a + 1) / b := by gcongr
      _ ≤ (a / b : ℕ) + 1 := (div_le_iff₀ hb').mpr hhigh

/-- Dividend below `2 ^ p`, any divisor: the floor of the floating-point quotient is exact. -/
theorem floor_div_ofNat {a : ℕ} (hp : 0 < p) (ha : a < 2 ^ p) (b : ℕ) :
    ⌊div p (ofNat p a) (ofNat p b)⌋₊ = a / b := by
  rw [ofNat_eq hp ha.le]
  rcases Nat.eq_zero_or_pos a with rfl | hpos
  · simp [div]
  rcases Nat.eq_zero_or_pos b with rfl | hb
  · simp [div, ofNat]
  have haQ : (0 : ℚ) < a := by exact_mod_cast hpos
  have hb' : 0 < ofNat p b := ofNat_pos hp hb
  -- a divisor beyond the grid is rounded, but stays above the dividend
  have hlow : ((a / b : ℕ) : ℚ) * ofNat p b ≤ a := by
    rcases le_or_gt b (2 ^ p) with hbp | hbp
    · rw [ofNat_eq hp hbp]
      exact_mod_cast Nat.div_mul_le_self a b
    · rw [Nat.div_eq_of_lt (by omega)]
      simp
  have hhigh : (a : ℚ) + 1 ≤ ((a / b : ℕ) + 1) * ofNat p b := by
    rcases le_or_gt b (2 ^ p) with hbp | hbp
    · rw [ofNat_eq hp hbp]
      exact_mod_cast Nat.lt_mul_of_div_lt (Nat.lt_succ_self (a / b)) hb
    · have hbig : ((2 ^ p : ℕ) : ℚ) ≤ ofNat p b := natCast_le_ofNat hp hbp.le le_rfl
      have ha' : (a : ℚ) + 1 ≤ ((2 ^ p : ℕ) : ℚ) := by exact_mod_cast ha
      rw [Nat.div_eq_of_lt (by omega)]
      simpa using ha'.trans hbig
  have hq : (0 : ℚ) < a / ofNat p b := by positivity
  rw [div, Nat.floor_eq_iff (round_pos hp hq).le]
  refine ⟨natCast_le_round hp hq ((le_div_iff₀ hb').mpr hlow) ?_, ?_⟩
  · exact (Nat.div_le_self a b).trans ha.le
  · have hpow : (a : ℚ) / 2 ^ p < 1 := by
      rw [div_lt_one (by positivity)]
      exact_mod_cast ha
    calc round p (a / ofNat p b) ≤ a / ofNat p b + a / ofNat p b / 2 ^ p := round_le_add_div hq
      _ = (a + a / 2 ^ p) / ofNat p b := by ring
      _ < (a + 1) / ofNat p b := by gcongr
      _ ≤ (a / b : ℕ) + 1 := (div_le_iff₀ hb').mpr hhigh

/-! ## Rounding of natural numbers -/

/-- The gap between the grid points around `n`. -/
def gap (p n : ℕ) : ℕ := 2 ^ (Nat.log 2 n + 1 - p)

/-- `n` goes down to the grid point below it: that one is nearer, or both are as near and it
is the even one. -/
def RoundsDown (u n : ℕ) : Prop := 2 * (n % u) < u ∨ 2 * (n % u) = u ∧ n / u % 2 = 0

instance (u n : ℕ) : Decidable (RoundsDown u n) := inferInstanceAs (Decidable (_ ∨ _))

/-- The grid point nearest to `n`, in natural-number arithmetic. -/
def roundNat (p n : ℕ) : ℕ :=
  (if RoundsDown (gap p n) n then n / gap p n else n / gap p n + 1) * gap p n

theorem gap_pos (p n : ℕ) : 0 < gap p n := Nat.two_pow_pos _

theorem roundEven_natCast_div (n : ℕ) {u : ℕ} (hu : 0 < u) :
    roundEven ((n : ℚ) / u) = ((if RoundsDown u n then n / u else n / u + 1 : ℕ) : ℤ) := by
  have huQ : (0 : ℚ) < u := by exact_mod_cast hu
  have hfloor : ⌊(n : ℚ) / u⌋ = ((n / u : ℕ) : ℤ) := Rat.floor_natCast_div_natCast n u
  have hfrac : (n : ℚ) / u - ((n / u : ℕ) : ℤ) = (n % u : ℕ) / u := by
    have hdm : (n : ℚ) = u * (n / u : ℕ) + (n % u : ℕ) := by
      exact_mod_cast (Nat.div_add_mod n u).symm
    rw [Int.cast_natCast, sub_eq_iff_eq_add, div_eq_iff huQ.ne']
    generalize n / u = d at hdm ⊢
    generalize n % u = r at hdm ⊢
    rw [hdm]
    field_simp
    ring
  have hlt : ((n % u : ℕ) : ℚ) / u < 1 / 2 ↔ 2 * (n % u) < u := by
    rw [div_lt_div_iff₀ huQ two_pos]
    constructor
    · intro h
      have h' : n % u * 2 < 1 * u := by exact_mod_cast h
      omega
    · intro h
      have h' : n % u * 2 < 1 * u := by omega
      exact_mod_cast h'
  have hgt : (1 : ℚ) / 2 < ((n % u : ℕ) : ℚ) / u ↔ u < 2 * (n % u) := by
    rw [div_lt_div_iff₀ two_pos huQ]
    constructor
    · intro h
      have h' : 1 * u < n % u * 2 := by exact_mod_cast h
      omega
    · intro h
      have h' : 1 * u < n % u * 2 := by omega
      exact_mod_cast h'
  unfold roundEven
  rw [hfloor, hfrac]
  simp only [hlt, hgt]
  by_cases hdown : RoundsDown u n
  · rw [if_pos hdown]
    unfold RoundsDown at hdown
    split_ifs <;> omega
  · rw [if_neg hdown]
    unfold RoundsDown at hdown
    split_ifs <;> omega

theorem ofNat_eq_roundNat (hp : 0 < p) (n : ℕ) : ofNat p n = roundNat p n := by
  rcases le_or_gt (Nat.log 2 n + 1) p with hlog | hlog
  · -- no bit is lost
    have hgap : gap p n = 1 := by rw [gap, Nat.sub_eq_zero_of_le hlog, pow_zero]
    have hn : n ≤ 2 ^ p :=
      (Nat.lt_pow_succ_log_self one_lt_two n).le.trans (Nat.pow_le_pow_right two_pos hlog)
    rw [ofNat_eq hp hn, roundNat, hgap, if_pos (.inl (by omega))]
    simp
  · have hulp : ulp p n = gap p n := by
      rw [ulp, Int.log_natCast, gap]
      push_cast
      rw [← zpow_natCast]
      congr 1
      omega
    rw [ofNat, round, hulp, roundEven_natCast_div n (gap_pos p n), roundNat]
    push_cast
    rfl

theorem le_roundNat {m n : ℕ} (hp : 0 < p) (hmn : m ≤ n) (hm : m ≤ 2 ^ p) : m ≤ roundNat p n := by
  have h := natCast_le_ofNat hp hmn hm
  rw [ofNat_eq_roundNat hp] at h
  exact_mod_cast h

end Fp
