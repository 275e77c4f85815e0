-- SUMMARY: Counted loops over a state that may fail, and their invariant rule.
import Mathlib.Data.Nat.Notation

/-!
# Counted loops

`forUpto n body s` runs `body 0`, …, `body (n - 1)` in this order. A body that
fails (an undefined operation of the modelled program) makes the loop fail.
-/

namespace Loop

variable {σ : Type*}

/-- `for (i = 0; i < n; i++) body(i)`. -/
def forUpto : ℕ → (ℕ → σ → Option σ) → σ → Option σ
  | 0, _, s => some s
  | n + 1, body, s => (forUpto n body s).bind (body n)

@[simp] theorem forUpto_zero (body : ℕ → σ → Option σ) (s : σ) : forUpto 0 body s = some s :=
  rfl

@[simp] theorem forUpto_succ (n : ℕ) (body : ℕ → σ → Option σ) (s : σ) :
    forUpto (n + 1) body s = (forUpto n body s).bind (body n) :=
  rfl

/-- What the iterations before `n` have reached, and iteration `n`. -/
theorem lt_succ_and_iff {n r : ℕ} {q : ℕ → Prop} :
    r < n ∧ q r ∨ r = n ∧ q n ↔ r < n + 1 ∧ q r := by
  constructor
  · rintro (⟨hr, hq⟩ | ⟨rfl, hq⟩)
    · exact ⟨Nat.lt_succ_of_lt hr, hq⟩
    · exact ⟨r.lt_succ_self, hq⟩
  · rintro ⟨hr, hq⟩
    rcases Nat.lt_succ_iff_lt_or_eq.mp hr with hlt | rfl
    · exact .inl ⟨hlt, hq⟩
    · exact .inr ⟨rfl, hq⟩

/-- What holds before the loop and is kept by every iteration holds after it. -/
theorem forUpto_inv {n : ℕ} {body : ℕ → σ → Option σ} {s s' : σ} (I : ℕ → σ → Prop)
    (h : forUpto n body s = some s') (hinit : I 0 s)
    (hstep : ∀ i t t', i < n → I i t → body i t = some t' → I (i + 1) t') : I n s' := by
  induction n generalizing s' with
  | zero =>
    obtain rfl : s = s' := by simpa using h
    exact hinit
  | succ n ih =>
    obtain ⟨t, ht, hbody⟩ := Option.bind_eq_some_iff.mp h
    refine hstep n t s' n.lt_succ_self ?_ hbody
    exact ih ht fun i u u' hi => hstep i u u' (Nat.lt_succ_of_lt hi)

/-- A loop whose body never fails under the invariant does not fail. -/
theorem forUpto_isSome {n : ℕ} {body : ℕ → σ → Option σ} {s : σ} (I : ℕ → σ → Prop)
    (hinit : I 0 s)
    (hstep : ∀ i t, i < n → I i t → ∃ t', body i t = some t' ∧ I (i + 1) t') :
    ∃ s', forUpto n body s = some s' ∧ I n s' := by
  induction n with
  | zero => exact ⟨s, rfl, hinit⟩
  | succ n ih =>
    obtain ⟨t, ht, hI⟩ := ih fun i u hi => hstep i u (Nat.lt_succ_of_lt hi)
    obtain ⟨t', hbody, hI'⟩ := hstep n t n.lt_succ_self hI
    exact ⟨t', by simp [ht, hbody], hI'⟩

end Loop
