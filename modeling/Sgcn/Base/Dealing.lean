-- SUMMARY: Sorting a list into numbered classes, and dealing positions out in chunks: nothing is lost, and the local position of an item.
import Sgcn.Base.Rounds
import Mathlib.Data.List.Perm.Basic
import Mathlib.Data.List.Range
import Mathlib.Tactic.Ring

/-!
# Classes and chunks

A list may be split by a function that gives every entry the number of its class.
The classes keep the order of the list, and together they hold its entries. When
positions are dealt in chunks of `w` to `n` classes in turn, the place of a
position within its class has a closed form.
-/

namespace Dealing

variable {α : Type*}

/-! ## Classes -/

/-- The entries of a list in class `k`, in order. -/
def part (cls : α → ℕ) (k : ℕ) (l : List α) : List α := l.filter fun x => cls x = k

theorem mem_part {cls : α → ℕ} {k : ℕ} {l : List α} {x : α} :
    x ∈ part cls k l ↔ x ∈ l ∧ cls x = k := by
  simp [part]

theorem flatMap_part_perm_filter (cls : α → ℕ) (n : ℕ) (l : List α) :
    ((List.range n).flatMap fun k => part cls k l).Perm (l.filter fun x => cls x < n) := by
  induction n with
  | zero => simp
  | succ n ih =>
    rw [List.range_succ, List.flatMap_append, List.flatMap_singleton]
    refine (ih.append_right _).trans ?_
    have hsplit := List.filter_append_perm (fun x => decide (cls x < n))
      (l.filter fun x => cls x < n + 1)
    rw [List.filter_filter, List.filter_filter] at hsplit
    convert hsplit using 2
    · refine List.filter_congr fun x _ => ?_
      simp only [← Bool.decide_and, decide_eq_decide]
      omega
    · refine List.filter_congr fun x _ => ?_
      simp only [← decide_not, ← Bool.decide_and, decide_eq_decide]
      omega

/-- The classes hold the entries of the list. -/
theorem flatMap_part_perm {cls : α → ℕ} {n : ℕ} {l : List α} (h : ∀ x ∈ l, cls x < n) :
    ((List.range n).flatMap fun k => part cls k l).Perm l := by
  have hall : l.filter (fun x => cls x < n) = l :=
    List.filter_eq_self.mpr fun x hx => decide_eq_true (h x hx)
  simpa only [hall] using flatMap_part_perm_filter cls n l

/-- A position that is kept stands behind the positions before it that are kept. -/
theorem getElem?_filter_range {p : ℕ → Bool} {i m : ℕ} (hi : i < m) (hp : p i = true) :
    ((List.range m).filter p)[((List.range i).filter p).length]? = some i := by
  obtain ⟨d, rfl⟩ : ∃ d, m = i + (1 + d) := ⟨m - i - 1, by omega⟩
  rw [List.range_add, List.filter_append, List.getElem?_append_right (le_refl _), Nat.sub_self,
    List.range_add]
  simp [hp]

/-! ## Chunks -/

variable {w n e m : ℕ}

/-- The class of position `i` when chunks of `w` go to `n` classes in turn. -/
def turn (w n i : ℕ) : ℕ := i / w % n

theorem turn_lt (hn : 0 < n) (w i : ℕ) : turn w n i < n := Nat.mod_lt _ hn

/-- Position `i` is in class `e` when its place in the round lies in the `e`-th chunk. -/
theorem turn_eq_iff (hw : 0 < w) :
    turn w n m = e ↔ e * w ≤ m % (w * n) ∧ m % (w * n) < e * w + w := by
  rw [turn, ← Nat.mod_mul_right_div_self, Nat.div_eq_iff hw]
  constructor
  · rintro ⟨hlo, hhi⟩
    exact ⟨hlo, by omega⟩
  · rintro ⟨hlo, hhi⟩
    exact ⟨hlo, by omega⟩

/-- How many of the first `m` positions are in class `e`: `w` for each full round,
and what the current round has dealt to it. -/
theorem length_part_range (hw : 0 < w) (he : e < n) (m : ℕ) :
    (part (turn w n) e (List.range m)).length =
      m / (w * n) * w + min w (m % (w * n) - e * w) := by
  have hchunk : e * w + w ≤ w * n := by
    calc e * w + w = w * (e + 1) := by ring
      _ ≤ w * n := Nat.mul_le_mul_left w he
  induction m with
  | zero => simp [part]
  | succ m ih =>
    have hstep : (part (turn w n) e (List.range (m + 1))).length =
        (part (turn w n) e (List.range m)).length + if turn w n m = e then 1 else 0 := by
      rw [List.range_succ, part, List.filter_append, List.length_append]
      split
      next h => simp [h, part]
      next h => simp [h, part]
    rw [hstep, ih]
    simp only [turn_eq_iff hw]
    -- either the round goes on, or position `m` ends it
    rcases Rounds.succ_cases (show 0 < w * n by omega) m with ⟨-, hq, hr⟩ | ⟨hlast, hq, hr⟩
    · rw [hq, hr]
      split <;> omega
    · rw [hq, hr, Nat.add_mul, Nat.one_mul]
      split <;> omega

/-- The place of position `m` within its class. -/
theorem length_part_range_turn (hw : 0 < w) (hn : 0 < n) (m : ℕ) :
    (part (turn w n) (turn w n m) (List.range m)).length = m / (w * n) * w + m % w := by
  rw [length_part_range hw (turn_lt hn w m)]
  congr 1
  obtain ⟨hlo, hhi⟩ := (turn_eq_iff (n := n) (m := m) hw).mp rfl
  have hmod : (m % (w * n) - turn w n m * w) % w = m % w := by
    rw [Nat.mul_comm (turn w n m)] at hlo ⊢
    rw [Nat.sub_mul_mod hlo, Nat.mod_mul_right_mod]
  have hlt : m % (w * n) - turn w n m * w < w := by omega
  rw [← hmod, Nat.mod_eq_of_lt hlt]
  omega

/-- Position `i` stands at that place of its class. -/
theorem getElem?_part_range (hw : 0 < w) (hn : 0 < n) {i m : ℕ} (hi : i < m) :
    (part (turn w n) (turn w n i) (List.range m))[i / (w * n) * w + i % w]? = some i := by
  rw [← length_part_range_turn hw hn i]
  exact getElem?_filter_range hi (by simp)

end Dealing
