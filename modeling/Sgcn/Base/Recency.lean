-- SUMMARY: Recency order of a history: distinct entries by last use, and how a bounded most-recent-first list follows it.
import Mathlib.Data.List.Nodup

/-!
# Recency

A history lists the uses of some items, newest first. Its distinct items, each at
its newest use, are the recency stack; a least-recently-used store of capacity `k`
is the first `k` of them. Using an item moves it to the top of the stack, and the
two lemmas at the end say what that is on the first `k` alone.
-/

namespace Recency

variable {α : Type*} [DecidableEq α] {a : α} {h : List α} {k : ℕ}

/-- The distinct items of a history, most recently used first. -/
def stack (h : List α) : List α := h.eraseDups

theorem stack_filter (p : α → Bool) (h : List α) : stack (h.filter p) = (stack h).filter p := by
  induction hlen : h.length using Nat.strongRecOn generalizing h with
  | _ n ih =>
  unfold stack at *
  cases h with
  | nil => simp
  | cons a h =>
    have hlt : (h.filter fun b => !b == a).length < n := by
      rw [← hlen]
      exact Nat.lt_succ_of_le (List.length_filter_le _ h)
    by_cases hp : p a
    · rw [List.filter_cons_of_pos hp, List.eraseDups_cons, List.eraseDups_cons,
        List.filter_cons_of_pos hp, ← ih _ hlt _ rfl, List.filter_filter, List.filter_filter]
      simp only [Bool.and_comm]
    · rw [List.filter_cons_of_neg hp, List.eraseDups_cons, List.filter_cons_of_neg hp,
        ← ih _ hlt _ rfl, List.filter_filter]
      congr 1
      refine List.filter_congr fun b _ => ?_
      by_cases hb : b = a
      · simp [hb, hp]
      · simp [hb]

@[simp] theorem stack_nil : stack ([] : List α) = [] := rfl

theorem nodup_stack (h : List α) : (stack h).Nodup := by
  induction h with
  | nil => simp
  | cons a h ih =>
    rw [stack, List.eraseDups_cons, ← stack, stack_filter]
    exact List.nodup_cons.mpr ⟨by simp, ih.filter _⟩

/-- A use moves the item to the top. -/
theorem stack_cons (a : α) (h : List α) : stack (a :: h) = a :: (stack h).erase a := by
  rw [(nodup_stack h).erase_eq_filter]
  conv_lhs => rw [stack, List.eraseDups_cons, ← stack, stack_filter]
  rfl

/-! ## The first `k` -/

/-- Moving an item up from among the first `k + 1` leaves the rest of them. -/
theorem take_erase_of_mem {l : List α} (hmem : a ∈ l.take (k + 1)) :
    (l.erase a).take k = (l.take (k + 1)).erase a := by
  induction l generalizing k with
  | nil => simp at hmem
  | cons b l ih =>
    by_cases hba : b = a
    · simp [hba]
    · cases k with
      | zero => simp [Ne.symm hba] at hmem
      | succ k =>
        have hmem' : a ∈ l.take (k + 1) := by simpa [Ne.symm hba] using hmem
        simp [hba, ih hmem']

/-- Moving an item up from below, or a new one, pushes out the last of the first `k + 1`. -/
theorem take_erase_of_not_mem {l : List α} (hmem : a ∉ l.take (k + 1)) :
    (l.erase a).take k = l.take k := by
  induction l generalizing k with
  | nil => simp
  | cons b l ih =>
    have hba : b ≠ a := by
      rintro rfl
      simp at hmem
    cases k with
    | zero => simp
    | succ k =>
      have hmem' : a ∉ l.take (k + 1) := by
        intro hl
        exact hmem (by simp [hl])
      simp [hba, ih hmem']

/-- A use of one of the first `k`. -/
theorem take_stack_of_mem (hmem : a ∈ (stack h).take k) :
    (stack (a :: h)).take k = a :: ((stack h).take k).erase a := by
  cases k with
  | zero => simp at hmem
  | succ k => rw [stack_cons, List.take_succ_cons, take_erase_of_mem hmem]

/-- A use of another item: the last of the first `k` goes, if there are `k`. -/
theorem take_stack_of_not_mem (hk : 0 < k) (hmem : a ∉ (stack h).take k) :
    (stack (a :: h)).take k =
      a :: if ((stack h).take k).length = k then ((stack h).take k).dropLast
        else (stack h).take k := by
  obtain ⟨n, rfl⟩ : ∃ n, k = n + 1 := ⟨k - 1, by omega⟩
  rw [stack_cons, List.take_succ_cons, take_erase_of_not_mem hmem]
  congr 1
  split
  next hlen =>
    rw [List.dropLast_eq_take, hlen, Nat.add_sub_cancel, List.take_take]
    simp
  next hlen =>
    have hshort : (stack h).length ≤ n := by
      simp only [List.length_take] at hlen
      omega
    rw [List.take_of_length_le hshort, List.take_of_length_le (by omega)]

end Recency
