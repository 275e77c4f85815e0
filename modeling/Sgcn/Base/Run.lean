-- SUMMARY: Infinite runs of a closed system: what settles, what recurs, and where a cycle takes a run.
import Sgcn.Base.Machine
import Mathlib.Order.Filter.AtTopBot.Basic
import Mathlib.Order.OrderIsoNat
import Mathlib.Data.Finset.Card

/-!
# Infinite runs

Termination is proved by contradiction: a run that never ends has a measure that
settles, and what is left of the system after that is led to an end by fairness.
"From some point on" is `∀ᶠ n in atTop`.
-/

namespace Machine

open Filter

variable {σ : Type*} {step : σ → σ → Prop} {s₀ : σ}

/-- An infinite run. -/
structure Run (step : σ → σ → Prop) (s₀ : σ) where
  st : ℕ → σ
  start : st 0 = s₀
  next : ∀ n, step (st n) (st (n + 1))

theorem Run.reachable (r : Run step s₀) (n : ℕ) : Reachable step s₀ (r.st n) := by
  induction n with
  | zero => rw [r.start]
  | succ n ih => exact ih.tail (r.next n)

/-! ## What settles -/

section Settles

variable {f : ℕ → ℕ} {P : ℕ → Prop}

/-- A number that does not grow settles. -/
theorem eventually_eq_of_le (hle : ∀ᶠ n in atTop, f (n + 1) ≤ f n) :
    ∀ᶠ n in atTop, f (n + 1) = f n := by
  obtain ⟨N, hN⟩ := eventually_atTop.mp hle
  have hanti : Antitone fun n => f (N + n) :=
    antitone_nat_of_succ_le fun n => hN (N + n) (Nat.le_add_right N n)
  obtain ⟨M, hM⟩ := WellFoundedLT.antitone_chain_condition hanti
  refine eventually_atTop.mpr ⟨N + M, fun n hn => ?_⟩
  obtain ⟨d, rfl⟩ := Nat.exists_eq_add_of_le hn
  have hnow : f (N + M) = f (N + (M + d)) := hM (M + d) (Nat.le_add_right M d)
  have hthen : f (N + M) = f (N + (M + (d + 1))) := hM (M + (d + 1)) (Nat.le_add_right M (d + 1))
  rw [← Nat.add_assoc] at hnow hthen
  exact hthen.symm.trans hnow

/-- A number that does not grow, and changes as long as it is not zero, becomes zero. -/
theorem eventually_eq_zero (hle : ∀ᶠ n in atTop, f (n + 1) ≤ f n)
    (hdrop : ∀ᶠ n in atTop, f n ≠ 0 → ∃ m ≥ n, f (m + 1) ≠ f m) :
    ∀ᶠ n in atTop, f n = 0 := by
  obtain ⟨N, hN⟩ := eventually_atTop.mp (eventually_eq_of_le hle)
  filter_upwards [hdrop, eventually_ge_atTop N] with n hn hge
  by_contra hne
  obtain ⟨m, hm, hchange⟩ := hn hne
  exact hchange (hN m (hge.trans hm))

/-- A finite set to which nothing is added, and from which everything goes some time, becomes
empty. -/
theorem eventually_eq_empty {α : Type*} {s : ℕ → Finset α} (hsub : ∀ᶠ n in atTop, s (n + 1) ⊆ s n)
    (hgo : ∀ᶠ n in atTop, ∀ a ∈ s n, ∃ m ≥ n, a ∉ s m) : ∀ᶠ n in atTop, s n = ∅ := by
  have hcard := eventually_eq_of_le (f := fun n => (s n).card)
    (hsub.mono fun n h => Finset.card_le_card h)
  obtain ⟨N, hN⟩ := eventually_atTop.mp (hsub.and hcard)
  filter_upwards [hgo, eventually_ge_atTop N] with n hn hge
  refine Finset.eq_empty_of_forall_notMem fun a ha => ?_
  obtain ⟨m, hm, hgone⟩ := hn a ha
  refine hgone ?_
  clear hgone
  induction m, hm using Nat.le_induction with
  | base => exact ha
  | succ m hm ih =>
    obtain ⟨hsub, hcard⟩ := hN m (hge.trans hm)
    rw [Finset.eq_of_subset_of_card_le hsub hcard.ge]
    exact ih

/-- What lasts once it holds, and holds at last, holds from some point on. -/
theorem eventually_of_stable (hstable : ∀ᶠ n in atTop, P n → P (n + 1))
    (hfreq : ∃ᶠ n in atTop, P n) : ∀ᶠ n in atTop, P n := by
  obtain ⟨N, hN⟩ := eventually_atTop.mp hstable
  obtain ⟨M, hM, hP⟩ := frequently_atTop.mp hfreq N
  refine eventually_atTop.mpr ⟨M, fun n hn => ?_⟩
  induction n, hn using Nat.le_induction with
  | base => exact hP
  | succ n hn ih => exact hN n (hM.trans hn) ih

end Settles

/-! ## Cycles -/

/-- A run goes through the positions `0, …, top` of a cycle in turn. It may stay at a
position for a while, but not for ever: `w` falls with every step that stays. -/
structure Cycles (pos w : ℕ → ℕ) (top : ℕ) : Prop where
  le_top : ∀ n, pos n ≤ top
  stay_or_next : ∀ n, pos n < top → pos (n + 1) = pos n ∨ pos (n + 1) = pos n + 1
  stay_lt : ∀ n, pos (n + 1) = pos n → w (n + 1) < w n
  wrap : ∀ n, pos n = top → pos (n + 1) = 0

namespace Cycles

variable {pos w : ℕ → ℕ} {top : ℕ}

/-- A position is left some time. -/
theorem exists_leaves (h : Cycles pos w top) (n : ℕ) :
    ∃ m ≥ n, pos m = pos n ∧ pos (m + 1) ≠ pos m := by
  induction hw : w n using Nat.strong_induction_on generalizing n with
  | _ k ih =>
    by_cases hstay : pos (n + 1) = pos n
    · obtain ⟨m, hm, heq, hne⟩ := ih (w (n + 1)) (hw ▸ h.stay_lt n hstay) (n + 1) rfl
      exact ⟨m, by omega, heq.trans hstay, hne⟩
    · exact ⟨n, le_rfl, rfl, hstay⟩

/-- Every later position of the cycle is reached, and nothing beyond it before. -/
theorem exists_reaches (h : Cycles pos w top) {n p : ℕ} (hp : pos n ≤ p) (htop : p ≤ top) :
    ∃ m ≥ n, pos m = p ∧ ∀ j, n ≤ j → j < m → pos j < p := by
  obtain ⟨d, hd⟩ := Nat.exists_eq_add_of_le hp
  induction d generalizing n with
  | zero => exact ⟨n, le_rfl, by omega, fun j hj hlt => by omega⟩
  | succ d ih =>
    -- the first position at which the run moves on
    obtain ⟨m, ⟨hm, hne⟩, hmin⟩ : ∃ m, (n ≤ m ∧ pos (m + 1) ≠ pos n) ∧
        ∀ j < m, ¬ (n ≤ j ∧ pos (j + 1) ≠ pos n) := by
      obtain ⟨m, hm, heq, hne⟩ := h.exists_leaves n
      have hex : ∃ m, n ≤ m ∧ pos (m + 1) ≠ pos n := ⟨m, hm, heq ▸ hne⟩
      classical
      exact ⟨Nat.find hex, Nat.find_spec hex, fun j hj => Nat.find_min hex hj⟩
    have hsame : ∀ j, n ≤ j → j ≤ m → pos j = pos n := by
      intro j hj hjm
      induction j, hj using Nat.le_induction with
      | base => rfl
      | succ j hj _ =>
        by_contra hdiff
        exact hmin j hjm ⟨hj, hdiff⟩
    have hnow := hsame m hm le_rfl
    have hnext : pos (m + 1) = pos n + 1 := by
      rcases h.stay_or_next m (by omega) with hstay | hstep
      · exact absurd (hstay.trans hnow) hne
      · omega
    obtain ⟨m', hm', heq, hbefore⟩ := ih (n := m + 1) (by omega) (by omega)
    refine ⟨m', by omega, heq, fun j hj hlt => ?_⟩
    rcases Nat.lt_or_ge m j with hjm | hjm
    · exact hbefore j hjm hlt
    · rw [hsame j hj hjm]
      omega

/-- Every position is reached again and again. -/
theorem frequently_eq (h : Cycles pos w top) {p : ℕ} (hp : p ≤ top) :
    ∃ᶠ n in atTop, pos n = p := by
  refine frequently_atTop.mpr fun N => ?_
  obtain ⟨m, hm, htop, -⟩ := h.exists_reaches (h.le_top N) le_rfl
  obtain ⟨k, hk, heq, -⟩ := h.exists_reaches (n := m + 1) (p := p)
    (by rw [h.wrap m htop]; exact Nat.zero_le p) hp
  exact ⟨k, by omega, heq⟩

end Cycles

end Machine
