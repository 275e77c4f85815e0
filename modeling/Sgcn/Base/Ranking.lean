-- SUMMARY: The first entries of a stably sorted list are those that few entries come before.
import Mathlib.Data.List.Basic
import Mathlib.Data.List.Nodup
import Mathlib.Order.Nat

/-!
# Ranking

A list that is sorted by a strict order has an entry among its first `n` exactly when fewer
than `n` entries come before it, and a stable sort sorts by such an order: by `le` first, and
by the order of the list between entries that `le` does not tell apart.
-/

namespace Ranking

variable {α : Type*}

/-! ## Positions and ranks -/

/-- Among the first `n` of a sorted list are the entries with fewer than `n` before them. -/
theorem mem_take_iff {r : α → α → Prop} [DecidableRel r] (hasymm : ∀ a b, r a b → ¬ r b a)
    {s : List α} (hs : s.Pairwise r) {x : α} (hx : x ∈ s) (n : ℕ) :
    x ∈ s.take n ↔ s.countP (fun y => decide (r y x)) < n := by
  have hirrefl : ∀ a, ¬ r a a := fun a h => hasymm a a h h
  obtain ⟨pre, post, rfl⟩ := List.append_of_mem hx
  obtain ⟨-, hpost, hpre⟩ := List.pairwise_append.mp hs
  have hbefore : ∀ y ∈ pre, r y x := fun y hy => hpre y hy x List.mem_cons_self
  have hafter : ∀ y ∈ post, ¬ r y x := fun y hy =>
    hasymm x y (List.rel_of_pairwise_cons hpost hy)
  have hcount : (pre ++ x :: post).countP (fun y => decide (r y x)) = pre.length := by
    have hleft : pre.countP (fun y => decide (r y x)) = pre.length :=
      List.countP_eq_length.mpr fun y hy => decide_eq_true (hbefore y hy)
    have hright : post.countP (fun y => decide (r y x)) = 0 :=
      List.countP_eq_zero.mpr fun y hy => by simpa using hafter y hy
    rw [List.countP_append, List.countP_cons, hleft, hright, if_neg (by simpa using hirrefl x)]
    omega
  have hnot : x ∉ pre := fun hmem => hirrefl x (hbefore x hmem)
  rw [hcount]
  constructor
  · intro hmem
    by_contra hle
    rw [List.take_append_of_le_length (Nat.le_of_not_lt hle)] at hmem
    exact hnot (List.mem_of_mem_take hmem)
  · intro hlt
    obtain ⟨k, rfl⟩ : ∃ k, n = pre.length + (k + 1) := ⟨n - pre.length - 1, by omega⟩
    rw [List.take_length_add_append, List.take_succ_cons]
    exact List.mem_append_right pre List.mem_cons_self

/-! ## Stable sorting -/

variable {le : α → α → Bool} {pos : α → ℕ} {l : List α}

/-- Entries stand in the order of their positions. -/
theorem pair_sublist (hl : l.Pairwise fun a b => pos a < pos b) {a b : α} (ha : a ∈ l)
    (hb : b ∈ l) (hab : pos a < pos b) : [a, b].Sublist l := by
  induction l with
  | nil => cases ha
  | cons c l ih =>
    rcases List.mem_cons.mp ha with rfl | hal
    · rcases List.mem_cons.mp hb with rfl | hbl
      · exact absurd hab (lt_irrefl _)
      · exact (List.singleton_sublist.mpr hbl).cons_cons a
    · rcases List.mem_cons.mp hb with rfl | hbl
      · exact absurd hab (List.rel_of_pairwise_cons hl hal).asymm
      · exact (ih hl.of_cons hal hbl).cons c

/-- Two entries of a list without duplicates occur in one order only. -/
theorem not_pair_sublist_swap (hl : l.Nodup) {a b : α} (hab : [a, b].Sublist l) :
    ¬ [b, a].Sublist l := by
  induction l with
  | nil => cases hab
  | cons c l ih =>
    obtain ⟨hc, hl⟩ := List.nodup_cons.mp hl
    intro hba
    rcases List.sublist_cons_iff.mp hab with habl | ⟨_, heq, hbl⟩
    · rcases List.sublist_cons_iff.mp hba with hbal | ⟨_, heq, -⟩
      · exact ih hl habl hbal
      · cases heq
        exact hc (habl.subset (by simp))
    · cases heq
      rcases List.sublist_cons_iff.mp hba with hbal | ⟨_, heq, -⟩
      · exact hc (hbal.subset (by simp))
      · cases heq
        exact hc (hbl.subset (by simp))

/-- What a stable sort sorts by: `le`, and the position between entries that `le` does not
tell apart. -/
def Before (le : α → α → Bool) (pos : α → ℕ) (a b : α) : Prop :=
  le b a = false ∨ le a b = true ∧ pos a < pos b

instance (le : α → α → Bool) (pos : α → ℕ) : DecidableRel (Before le pos) :=
  fun _ _ => inferInstanceAs (Decidable (_ ∨ _))

section Stable

variable (htrans : ∀ a b c, le a b → le b c → le a c) (htotal : ∀ a b, le a b || le b a)

include htotal in
theorem before_asymm (a b : α) (h : Before le pos a b) : ¬ Before le pos b a := by
  have hor := htotal a b
  rintro (hba | ⟨hba, hlt⟩)
  · rcases h with hab | ⟨hab, -⟩
    · simp [hab, hba] at hor
    · simp [hab] at hba
  · rcases h with hab | ⟨-, hgt⟩
    · simp [hab] at hba
    · exact hgt.asymm hlt

include htrans htotal in
theorem pairwise_before (hl : l.Pairwise fun a b => pos a < pos b) :
    (l.mergeSort le).Pairwise (Before le pos) := by
  have hnodup : (l.mergeSort le).Nodup := by
    refine (List.mergeSort_perm l le).nodup_iff.mpr (hl.imp ?_)
    rintro a b hab rfl
    exact hab.false
  rw [List.pairwise_iff_forall_sublist]
  intro a b hsub
  have hle : le a b = true :=
    List.pairwise_iff_forall_sublist.mp (List.pairwise_mergeSort htrans htotal l) hsub
  by_cases hba : le b a = true
  · have ha : a ∈ l := List.mem_mergeSort.mp (hsub.subset (by simp))
    have hb : b ∈ l := List.mem_mergeSort.mp (hsub.subset (by simp))
    -- were `b` in front of `a` in the list, the sort would have kept it there
    have hswap : ¬ [b, a].Sublist l := fun h =>
      not_pair_sublist_swap hnodup hsub (List.pair_sublist_mergeSort htrans htotal hba h)
    have hne : pos a ≠ pos b := by
      have hinj : (l.map pos).Nodup := List.pairwise_map.mpr (hl.imp fun h => h.ne)
      intro heq
      have hab : a ≠ b := List.pairwise_iff_forall_sublist.mp hnodup hsub
      exact hab (List.inj_on_of_nodup_map hinj ha hb heq)
    refine .inr ⟨hle, lt_of_le_of_ne ?_ hne⟩
    exact Nat.le_of_not_lt fun hlt => hswap (pair_sublist hl hb ha hlt)
  · exact .inl (by simpa using hba)

include htrans htotal in
/-- Among the first `n` of a stably sorted list are the entries that fewer than `n` come
before. -/
theorem mem_take_mergeSort (hl : l.Pairwise fun a b => pos a < pos b) {x : α} (hx : x ∈ l)
    (n : ℕ) : x ∈ (l.mergeSort le).take n ↔
      l.countP (fun y => decide (Before le pos y x)) < n := by
  rw [mem_take_iff (before_asymm htotal) (pairwise_before htrans htotal hl)
    (List.mem_mergeSort.mpr hx), (List.mergeSort_perm l le).countP_eq]

end Stable

end Ranking
