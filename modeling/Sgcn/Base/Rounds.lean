-- SUMMARY: Going through rounds of equal length with one counter.
import Mathlib.Data.Nat.ModEq
import Mathlib.Data.List.Range

/-!
# Rounds

A counter `k` that goes through rounds of length `n` is in round `k / n` at
position `k % n`.
-/

namespace Rounds

variable {α : Type*}

/-- The next position lies in the same round, or opens the next one. -/
theorem succ_cases {n : ℕ} (hn : 0 < n) (k : ℕ) :
    (k % n + 1 < n ∧ (k + 1) / n = k / n ∧ (k + 1) % n = k % n + 1) ∨
      (k % n + 1 = n ∧ (k + 1) / n = k / n + 1 ∧ (k + 1) % n = 0) := by
  have hlt := Nat.mod_lt k hn
  have hdm := Nat.div_add_mod k n
  rcases Nat.lt_or_ge (k % n + 1) n with h | h
  · refine .inl ⟨h, ?_⟩
    have h₁ : k + 1 = (k % n + 1) + n * (k / n) := by omega
    rw [h₁, Nat.add_mul_div_left _ _ hn, Nat.add_mul_mod_self_left, Nat.div_eq_of_lt h,
      Nat.mod_eq_of_lt h]
    simp
  · refine .inr ⟨by omega, ?_⟩
    have h₁ : k + 1 = n * (k / n + 1) := by rw [mul_add, mul_one]; omega
    rw [h₁, Nat.mul_div_cancel_left _ hn, Nat.mul_mod_right]
    exact ⟨rfl, rfl⟩

/-- The counter determines the round and the position. -/
theorem eq_of_counter_eq {n a b r t : ℕ} (hr : r < n) (ht : t < n) (h : a * n + r = b * n + t) :
    a = b ∧ r = t := by
  have hpos : 0 < n := by omega
  have hdiv (c u : ℕ) (hu : u < n) : (c * n + u) / n = c ∧ (c * n + u) % n = u := by
    rw [Nat.mul_comm, Nat.mul_add_div hpos, Nat.mul_add_mod, Nat.div_eq_of_lt hu,
      Nat.mod_eq_of_lt hu]
    simp
  obtain ⟨ha, hr'⟩ := hdiv a r hr
  obtain ⟨hb, ht'⟩ := hdiv b t ht
  rw [h] at ha hr'
  exact ⟨ha.symm.trans hb, hr'.symm.trans ht'⟩

/-- The items of `b` rounds, enumerated by the counter. -/
theorem flatMap_range (F : ℕ → ℕ → α) (b n : ℕ) :
    ((List.range b).flatMap fun f => (List.range n).map (F f)) =
      (List.range (b * n)).map fun k => F (k / n) (k % n) := by
  induction b with
  | zero => simp
  | succ b ih =>
    rw [List.range_succ, List.flatMap_append, ih, Nat.succ_mul, List.range_add, List.map_append,
      List.map_map]
    simp only [List.flatMap_cons, List.flatMap_nil, List.append_nil]
    congr 1
    apply List.map_congr_left
    intro j hj
    have hlt : j < n := List.mem_range.mp hj
    have hpos : 0 < n := by omega
    simp [Nat.mul_add_div hpos, mul_comm b, Nat.div_eq_of_lt hlt, Nat.mod_eq_of_lt hlt]

/-- Rounds of `u` positions that stop at `m` go through the positions below both. -/
theorem flatMap_range'_min (u m b : ℕ) :
    ((List.range b).flatMap fun f => List.range' (f * u) (min u (m - f * u))) =
      List.range (min (b * u) m) := by
  induction b with
  | zero => simp
  | succ b ih =>
    rw [List.range_succ, List.flatMap_append, ih, List.flatMap_singleton, Nat.succ_mul,
      List.range_eq_range', List.range_eq_range']
    rcases Nat.le_total (b * u) m with hle | hge
    · have happ := List.range'_append_1 (s := 0) (m := b * u) (n := min u (m - b * u))
      rw [Nat.zero_add] at happ
      rw [min_eq_left hle, happ]
      congr 1
      omega
    · rw [show m - b * u = 0 by omega, Nat.min_zero, List.range'_zero, List.append_nil]
      congr 1
      omega

/-- Equal rounds, enumerated by the counter. -/
theorem flatten_replicate (F : ℕ → α) (b n : ℕ) :
    (List.replicate b ((List.range n).map F)).flatten =
      (List.range (b * n)).map fun k => F (k % n) := by
  rw [← flatMap_range fun _ => F]
  simp [List.flatMap_def]

section Lookup

variable {f : ℕ → List α} {b n : ℕ}

theorem length_flatMap_range (hlen : ∀ t < b, (f t).length = n) :
    ((List.range b).flatMap f).length = b * n := by
  induction b with
  | zero => simp
  | succ b ih =>
    rw [List.range_succ, List.flatMap_append, List.length_append,
      ih fun t ht => hlen t (Nat.lt_succ_of_lt ht), List.flatMap_singleton, hlen b b.lt_succ_self,
      Nat.succ_mul]

/-- Entry `r` of round `t`. -/
theorem getElem?_flatMap_range (hlen : ∀ t < b, (f t).length = n) {t r : ℕ} (ht : t < b)
    (hr : r < n) : ((List.range b).flatMap f)[t * n + r]? = (f t)[r]? := by
  obtain ⟨d, rfl⟩ : ∃ d, b = t + (1 + d) := ⟨b - t - 1, by omega⟩
  have hbefore : ((List.range t).flatMap f).length = t * n :=
    length_flatMap_range fun k hk => hlen k (by omega)
  rw [List.range_add, List.flatMap_append, List.getElem?_append_right (by omega), hbefore,
    Nat.add_sub_cancel_left, List.range_add, List.map_append, List.flatMap_append,
    List.getElem?_append_left]
  · simp
  · simpa [hlen t ht] using hr

end Lookup

end Rounds
