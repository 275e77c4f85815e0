-- SUMMARY: Consecutive blocks of given sizes: where each starts, and that every position lies in exactly one.
import Mathlib.Algebra.BigOperators.Ring.Finset
import Mathlib.Algebra.Order.BigOperators.Group.Finset
import Mathlib.Algebra.Order.Group.Nat

/-!
# Consecutive blocks

Blocks of sizes `size 0, size 1, …` laid one after the other from position 0 on.
A block may be empty.
-/

namespace Blocks

open Finset

variable {size : ℕ → ℕ}

/-- The position at which block `i` starts. -/
def start (size : ℕ → ℕ) (i : ℕ) : ℕ := ∑ j ∈ range i, size j

@[simp] theorem start_zero : start size 0 = 0 := sum_range_zero size

theorem start_succ (i : ℕ) : start size (i + 1) = start size i + size i :=
  sum_range_succ size i

theorem start_mono : Monotone (start size) :=
  monotone_nat_of_le_succ fun i => by rw [start_succ]; exact Nat.le_add_right _ _

/-- Blocks of at most `b` each. -/
theorem start_le {b n : ℕ} (h : ∀ j < n, size j ≤ b) : start size n ≤ n * b := by
  have hsum := sum_le_card_nsmul (range n) size b fun j hj => h j (mem_range.mp hj)
  simpa [start] using hsum

/-- A position below the end of block `n` lies in one of the first `n` blocks. -/
theorem exists_block (size : ℕ → ℕ) {n x : ℕ} (h : x < start size n) :
    ∃ i < n, start size i ≤ x ∧ x < start size (i + 1) := by
  induction n with
  | zero => simp at h
  | succ n ih =>
    rcases Nat.lt_or_ge x (start size n) with hlt | hge
    · obtain ⟨i, hi, hx⟩ := ih hlt
      exact ⟨i, Nat.lt_succ_of_lt hi, hx⟩
    · exact ⟨n, Nat.lt_succ_self n, hge, h⟩

/-- Two blocks that share a position are the same. -/
theorem block_unique (size : ℕ → ℕ) {i j x : ℕ}
    (hi : start size i ≤ x ∧ x < start size (i + 1))
    (hj : start size j ≤ x ∧ x < start size (j + 1)) : i = j := by
  rcases Nat.lt_trichotomy i j with hlt | heq | hgt
  · exact absurd (hi.2.trans_le ((start_mono hlt).trans hj.1)) (lt_irrefl x)
  · exact heq
  · exact absurd (hj.2.trans_le ((start_mono hgt).trans hi.1)) (lt_irrefl x)

theorem start_dvd {d : ℕ} (h : ∀ i, d ∣ size i) (i : ℕ) : d ∣ start size i :=
  dvd_sum fun j _ => h j

end Blocks
