-- SUMMARY: Block-wise arrival of a cyclic array: how many rounds and how much of the last round have arrived.
import Sgcn.Base.Rounds
import Mathlib.Tactic.Ring
import Mathlib.Tactic.Linarith

/-!
# Arrival windows

An array of `n` elements is sent again and again in blocks of `b` elements, the
last block of a round possibly shorter. After `R` blocks, `rounds` complete
rounds lie before the round the last block belongs to, and that round has arrived
up to `endAt`.
-/

namespace Window

variable {b n : ℕ}

/-- Blocks in one round. -/
def blocks (b n : ℕ) : ℕ := (n + b - 1) / b

/-- The rounds before the one the last of `R` blocks belongs to. -/
def rounds (b n R : ℕ) : ℕ := (R - 1) / blocks b n

/-- How far that round has arrived. -/
def endAt (b n R : ℕ) : ℕ :=
  if R = 0 then 0 else min (b * ((R - 1) % blocks b n + 1)) n

/-- Element `i` of round `f` is among the first `R` blocks. -/
def Received (b n R f i : ℕ) : Prop := f * blocks b n + i / b < R

@[simp] theorem endAt_zero : endAt b n 0 = 0 := rfl

@[simp] theorem rounds_zero : rounds b n 0 = 0 := by simp [rounds]

theorem endAt_le (R : ℕ) : endAt b n R ≤ n := by
  unfold endAt
  split_ifs <;> omega

theorem blocks_pos (hb : 0 < b) (hn : 0 < n) : 0 < blocks b n :=
  Nat.div_pos (by omega) hb

theorem le_mul_blocks (hb : 0 < b) : n ≤ b * blocks b n := by
  have h := Nat.div_add_mod (n + b - 1) b
  have hlt := Nat.mod_lt (n + b - 1) hb
  unfold blocks
  omega

theorem lt_blocks_iff (hb : 0 < b) {j : ℕ} : j < blocks b n ↔ b * j < n := by
  unfold blocks
  rw [Nat.lt_iff_add_one_le, Nat.le_div_iff_mul_le hb, add_mul, one_mul, mul_comm]
  omega

theorem rounds_le_succ (R : ℕ) : rounds b n R ≤ rounds b n (R + 1) :=
  Nat.div_le_div_right (by omega)

/-- A full window: the next block opens a new round. -/
theorem next_of_full (hb : 0 < b) (hn : 0 < n) {R : ℕ} (h : endAt b n R = n) :
    endAt b n (R + 1) = min b n ∧ rounds b n (R + 1) = rounds b n R + 1 := by
  have hL := blocks_pos hb hn
  have hR : R ≠ 0 := by
    rintro rfl
    simp at h
    omega
  obtain ⟨Q, rfl⟩ := Nat.exists_eq_succ_of_ne_zero hR
  simp only [endAt, rounds, Nat.succ_ne_zero, if_false, Nat.succ_sub_one] at h ⊢
  rcases Rounds.succ_cases hL Q with ⟨hlt, -, -⟩ | ⟨-, hdiv, hmod⟩
  · have := (lt_blocks_iff hb).mp hlt
    omega
  · simp [hdiv, hmod]

/-- A window that is not full: the next block extends the round. -/
theorem next_of_not_full (hb : 0 < b) (hn : 0 < n) {R : ℕ} (h : endAt b n R ≠ n) :
    endAt b n (R + 1) = min (endAt b n R + b) n ∧ rounds b n (R + 1) = rounds b n R := by
  have hL := blocks_pos hb hn
  cases R with
  | zero => simp [endAt, rounds]
  | succ Q =>
    simp only [endAt, rounds, Nat.succ_ne_zero, if_false, Nat.add_sub_cancel] at h ⊢
    have hle : n ≤ b * blocks b n := le_mul_blocks hb
    rcases Rounds.succ_cases hL Q with ⟨hlt, hdiv, hmod⟩ | ⟨heq, -, -⟩
    · rw [hdiv, hmod]
      refine ⟨?_, rfl⟩
      rw [mul_add b (Q % blocks b n + 1) 1, mul_one]
      omega
    · rw [heq] at h
      omega

/-- An opened round has arrived at least up to its first block. -/
theorem min_le_endAt {R : ℕ} (hR : 0 < R) : min b n ≤ endAt b n R := by
  unfold endAt
  rw [if_neg hR.ne', mul_add, mul_one]
  omega

theorem pos_of_rounds_pos {R : ℕ} (h : 0 < rounds b n R) : 0 < R := by
  by_contra h₀
  obtain rfl : R = 0 := by omega
  simp at h

/-- An element has arrived when its round is complete, or when it lies in the
arrived part of the open round. -/
theorem received_iff (hb : 0 < b) {R f i : ℕ} (hi : i < n) :
    Received b n R f i ↔ f < rounds b n R ∨ f = rounds b n R ∧ i < endAt b n R := by
  have hL : i / b < blocks b n := by
    rw [lt_blocks_iff hb]
    exact (Nat.mul_div_le i b).trans_lt hi
  cases R with
  | zero => simp [Received]
  | succ Q =>
    simp only [Received, rounds, endAt, Nat.succ_ne_zero, if_false, Nat.add_sub_cancel]
    generalize hLdef : blocks b n = L at hL ⊢
    have hdm := Nat.div_add_mod Q L
    have hmod := Nat.mod_lt Q ((Nat.zero_le _).trans_lt hL)
    have hblock : i < b * (Q % L + 1) ↔ i / b ≤ Q % L := by
      rw [← Nat.lt_add_one_iff, Nat.div_lt_iff_lt_mul hb, mul_comm]
    generalize i / b = j at hL hblock ⊢
    rcases Nat.lt_trichotomy f (Q / L) with hf | rfl | hf
    · have hmul : (f + 1) * L ≤ Q / L * L := Nat.mul_le_mul_right L hf
      rw [add_mul, one_mul] at hmul
      rw [mul_comm L] at hdm
      simp only [hf, true_or, iff_true]
      omega
    · rw [mul_comm L] at hdm
      simp only [lt_self_iff_false, false_or, true_and, lt_min_iff, hi, and_true, hblock]
      omega
    · have hmul : (Q / L + 1) * L ≤ f * L := Nat.mul_le_mul_right L hf
      rw [add_mul, one_mul] at hmul
      rw [mul_comm L] at hdm
      simp only [hf.not_gt, hf.ne', false_and, or_self, iff_false]
      omega

/-- A cursor that has gone round `w` times may read on exactly when the element at
its position has arrived. At the end of a round that element is the first of the
next one. -/
theorem available_iff (hb : 0 < b) (hn : 0 < n) {R w cur : ℕ} (hcur : cur ≤ n)
    (hw : w ≤ rounds b n R) :
    (cur < endAt b n R ∨ w < rounds b n R) ↔
      Received b n R ((w * n + cur) / n) ((w * n + cur) % n) := by
  rcases hcur.lt_or_eq with hlt | rfl
  · rw [mul_comm, Nat.mul_add_div hn, Nat.mul_add_mod, Nat.div_eq_of_lt hlt,
      Nat.mod_eq_of_lt hlt, received_iff hb hlt]
    simp only [Nat.add_zero]
    omega
  · have hdiv : (w * cur + cur) / cur = w + 1 := by
      rw [← Nat.succ_mul, Nat.mul_div_cancel _ hn]
    have hmod : (w * cur + cur) % cur = 0 := by
      rw [← Nat.succ_mul, Nat.mul_mod_left]
    rw [hdiv, hmod, received_iff hb hn]
    have hend := endAt_le (b := b) (n := cur) R
    constructor
    · rintro (h | h)
      · omega
      · rcases Nat.lt_or_ge (w + 1) (rounds b cur R) with h' | h'
        · exact .inl h'
        · have := min_le_endAt (b := b) (n := cur) (pos_of_rounds_pos (by omega : 0 < rounds b cur R))
          exact .inr ⟨by omega, by omega⟩
    · rintro (h | ⟨h, -⟩) <;> exact .inr (by omega)

/-- After `f` rounds and more, all elements of these have arrived. -/
theorem received_of_rounds (hb : 0 < b) {R rounds f i : ℕ} (hR : rounds * blocks b n ≤ R)
    (hf : f < rounds) (hi : i < n) : Received b n R f i := by
  have hblock : i / b < blocks b n := by
    rw [lt_blocks_iff hb]
    exact lt_of_le_of_lt (Nat.mul_div_le i b) hi
  have hmul := Nat.mul_le_mul_right (blocks b n) (Nat.succ_le_of_lt hf)
  rw [Nat.succ_mul] at hmul
  unfold Received
  omega

end Window
