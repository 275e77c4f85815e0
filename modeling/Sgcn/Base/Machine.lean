-- SUMMARY: Call sequences of a partial machine with outputs, reachability, and the invariant rules of both.
import Mathlib.Logic.Relation

/-!
# Machines

Two ways to say "over every run". A component that is driven by calls is a
partial function from a state and a call to a state and some outputs; a run is a
list of calls. A closed system is a relation between states; a run is a chain.
-/

namespace Machine

variable {σ ι ω : Type*}

/-! ## Call sequences -/

/-- One call: a new state and the outputs of the call, or nothing when the call
is undefined or not allowed. -/
abbrev Call (σ ι ω : Type*) := σ → ι → Option (σ × List ω)

/-- Run a list of calls and collect the outputs. -/
def run (call : Call σ ι ω) : σ → List ι → Option (σ × List ω)
  | s, [] => some (s, [])
  | s, i :: is =>
    match call s i with
    | none => none
    | some (s', o) => (run call s' is).map fun r => (r.1, o ++ r.2)

variable {call : Call σ ι ω}

@[simp] theorem run_nil (s : σ) : run call s [] = some (s, []) := rfl

theorem run_cons_eq_some {s s' : σ} {i : ι} {is : List ι} {os : List ω} :
    run call s (i :: is) = some (s', os) ↔
      ∃ t o os', call s i = some (t, o) ∧ run call t is = some (s', os') ∧ os = o ++ os' := by
  simp only [run]
  cases h : call s i with
  | none => simp
  | some r =>
    obtain ⟨t, o⟩ := r
    simp only [Option.map_eq_some_iff, Prod.mk.injEq, Option.some.injEq]
    constructor
    · rintro ⟨⟨u, os'⟩, hrun, rfl, rfl⟩
      exact ⟨t, o, os', ⟨rfl, rfl⟩, hrun, rfl⟩
    · rintro ⟨t', o', os', ⟨rfl, rfl⟩, hrun, rfl⟩
      exact ⟨(s', os'), hrun, rfl, rfl⟩

/-- The invariant rule for call sequences. The invariant may speak of the calls
and of the outputs so far. -/
theorem run_inv {I : List ι → List ω → σ → Prop}
    (hstep : ∀ is os s i s' o, I is os s → call s i = some (s', o) → I (is ++ [i]) (os ++ o) s')
    {s₀ s : σ} {is : List ι} {os : List ω} (h₀ : I [] [] s₀)
    (hrun : run call s₀ is = some (s, os)) : I is os s := by
  suffices key : ∀ (is is₀ : List ι) (os₀ os : List ω) (t : σ), I is₀ os₀ t →
      run call t is = some (s, os) → I (is₀ ++ is) (os₀ ++ os) s by
    simpa using key is [] [] os s₀ h₀ hrun
  intro is
  induction is with
  | nil =>
    intro is₀ os₀ os t hI h
    obtain ⟨rfl, rfl⟩ : t = s ∧ os = [] := by simpa [eq_comm] using h
    simpa using hI
  | cons i is ih =>
    intro is₀ os₀ os t hI h
    obtain ⟨u, o, os', hcall, hrest, rfl⟩ := run_cons_eq_some.mp h
    simpa using ih (is₀ ++ [i]) (os₀ ++ o) os' u (hstep _ _ _ _ _ _ hI hcall) hrest

/-- A call that cannot fail under the invariant makes every run succeed. -/
theorem run_total {I : List ι → List ω → σ → Prop} {P : ι → Prop}
    (hstep : ∀ is os s i, I is os s → P i →
      ∃ s' o, call s i = some (s', o) ∧ I (is ++ [i]) (os ++ o) s')
    {s₀ : σ} (h₀ : I [] [] s₀) {is : List ι} (hP : ∀ i ∈ is, P i) :
    ∃ s os, run call s₀ is = some (s, os) ∧ I is os s := by
  suffices key : ∀ (is is₀ : List ι) (os₀ : List ω) (t : σ), I is₀ os₀ t → (∀ i ∈ is, P i) →
      ∃ s os, run call t is = some (s, os) ∧ I (is₀ ++ is) (os₀ ++ os) s by
    simpa using key is [] [] s₀ h₀ hP
  intro is
  induction is with
  | nil =>
    intro is₀ os₀ t hI _
    exact ⟨t, [], rfl, by simpa using hI⟩
  | cons i is ih =>
    intro is₀ os₀ t hI hP
    obtain ⟨u, o, hcall, hI'⟩ := hstep _ _ _ i hI (hP i (by simp))
    obtain ⟨s, os, hrun, hI''⟩ := ih (is₀ ++ [i]) (os₀ ++ o) u hI'
      fun j hj => hP j (List.mem_cons_of_mem _ hj)
    exact ⟨s, o ++ os, run_cons_eq_some.mpr ⟨u, o, os, hcall, hrun, rfl⟩, by simpa using hI''⟩

theorem run_append_eq_some {s s' : σ} {is js : List ι} {os : List ω} :
    run call s (is ++ js) = some (s', os) ↔
      ∃ t os₁ os₂, run call s is = some (t, os₁) ∧ run call t js = some (s', os₂) ∧
        os = os₁ ++ os₂ := by
  induction is generalizing s os with
  | nil =>
    constructor
    · intro h
      exact ⟨s, [], os, rfl, h, rfl⟩
    · rintro ⟨t, os₁, os₂, h₁, h₂, rfl⟩
      obtain ⟨rfl, rfl⟩ : s = t ∧ os₁ = [] := by simpa [eq_comm] using h₁
      exact h₂
  | cons i is ih =>
    rw [List.cons_append, run_cons_eq_some]
    constructor
    · rintro ⟨t, o, os', hcall, hrun, rfl⟩
      obtain ⟨u, os₁, os₂, h₁, h₂, rfl⟩ := ih.mp hrun
      exact ⟨u, o ++ os₁, os₂, run_cons_eq_some.mpr ⟨t, o, os₁, hcall, h₁, rfl⟩, h₂,
        (List.append_assoc o os₁ os₂).symm⟩
    · rintro ⟨u, os₁, os₂, h₁, h₂, rfl⟩
      obtain ⟨t, o, os', hcall, hrun, rfl⟩ := run_cons_eq_some.mp h₁
      exact ⟨t, o, os' ++ os₂, hcall, ih.mpr ⟨u, os', os₂, hrun, h₂, rfl⟩,
        List.append_assoc o os' os₂⟩

/-! ## Reachable states -/

/-- The states that a chain of steps from `s₀` ends in. -/
abbrev Reachable (step : σ → σ → Prop) (s₀ s : σ) : Prop := Relation.ReflTransGen step s₀ s

/-- The invariant rule for a closed system. What is known of reachable states may
be used in the step. -/
theorem Reachable.inv {step : σ → σ → Prop} {I : σ → Prop} {s₀ s : σ}
    (h : Reachable step s₀ s) (h₀ : I s₀)
    (hstep : ∀ t t', Reachable step s₀ t → I t → step t t' → I t') : I s := by
  induction h with
  | refl => exact h₀
  | tail hreach hlast ih => exact hstep _ _ hreach ih hlast

end Machine
