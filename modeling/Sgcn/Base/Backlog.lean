-- SUMMARY: A queue that loses one entry per tick: what is left after given arrivals, and when nothing is.
import Mathlib.Algebra.BigOperators.Group.List.Basic
import Mathlib.Algebra.Ring.Nat

/-!
# Backlog

In every tick some entries arrive, and then one is taken if there is any. The queue is
empty in the end if and only if the last ticks brought no more entries than they are,
however many of them one looks at.
-/

namespace Backlog

/-- One tick with `r` arrivals. -/
def tick (q r : ℕ) : ℕ := q + r - 1

/-- What is left of `q` entries after the arrivals `rs`. -/
def left (q : ℕ) (rs : List ℕ) : ℕ := rs.foldl tick q

@[simp] theorem left_nil (q : ℕ) : left q [] = q := rfl

theorem left_append (q : ℕ) (rs rs' : List ℕ) : left q (rs ++ rs') = left (left q rs) rs' :=
  List.foldl_append

theorem left_eq_zero_iff (q : ℕ) (rs : List ℕ) :
    left q rs = 0 ↔ (∀ l, l <:+ rs → l.sum ≤ l.length) ∧ q + rs.sum ≤ rs.length := by
  induction rs generalizing q with
  | nil =>
    rw [left_nil]
    simp
  | cons r rs ih =>
    change left (tick q r) rs = 0 ↔ _
    rw [ih, tick, List.sum_cons, List.length_cons]
    constructor
    · rintro ⟨hsuffix, hle⟩
      refine ⟨fun l hl => ?_, by omega⟩
      rcases List.suffix_cons_iff.mp hl with rfl | hl
      · rw [List.sum_cons, List.length_cons]
        omega
      · exact hsuffix l hl
    · rintro ⟨hsuffix, hle⟩
      -- an idle tick takes nothing: what follows it has to fit by itself
      have hrest := hsuffix rs (List.suffix_cons r rs)
      exact ⟨fun l hl => hsuffix l (hl.trans (List.suffix_cons r rs)), by omega⟩

/-- From an empty queue on, the ticks that end in an empty one. -/
theorem left_zero_eq_zero_iff (rs : List ℕ) :
    left 0 rs = 0 ↔ ∀ l, l <:+ rs → l.sum ≤ l.length := by
  rw [left_eq_zero_iff, Nat.zero_add]
  exact ⟨fun h => h.1, fun h => ⟨h, h rs List.suffix_rfl⟩⟩

end Backlog
