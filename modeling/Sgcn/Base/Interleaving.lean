-- SUMMARY: Interleavings of processes over a shared state, and when every state of a run is safe.
import Mathlib.Data.List.Basic

/-!
# Interleavings

Processes of any number share one state; a step is the move of one process. A
run is a schedule: the list of the processes in the order in which they move.
-/

namespace Interleaving

variable {P σ : Type*} (step : σ → P → σ)

/-- The states of a run, the first and the last included. -/
def states : σ → List P → List σ
  | s, [] => [s]
  | s, p :: ps => s :: states (step s p) ps

/-- The moves of a run: each process with the state it moves in. -/
def moves : σ → List P → List (σ × P)
  | _, [] => []
  | s, p :: ps => (s, p) :: moves (step s p) ps

variable {step}

theorem start_mem_states (s : σ) (ps : List P) : s ∈ states step s ps := by
  cases ps <;> simp [states]

/-- A move is made in a state of the run. -/
theorem state_mem_of_mem_moves {s : σ} {ps : List P} {m : σ × P} (hm : m ∈ moves step s ps) :
    m.1 ∈ states step s ps := by
  induction ps generalizing s with
  | nil => simp [moves] at hm
  | cons p ps ih =>
    rcases List.mem_cons.mp hm with rfl | hm
    · exact List.mem_cons_self
    · exact List.mem_cons_of_mem _ (ih hm)

/-- What every guarded move keeps holds in every state of a guarded run. -/
theorem inv_of_guarded {I : σ → Prop} {G : σ → P → Prop}
    (hstep : ∀ s p, I s → G s p → I (step s p)) {s : σ} {ps : List P} (h₀ : I s)
    (hG : ∀ m ∈ moves step s ps, G m.1 m.2) : ∀ t ∈ states step s ps, I t := by
  induction ps generalizing s with
  | nil =>
    intro t ht
    obtain rfl : t = s := by simpa [states] using ht
    exact h₀
  | cons p ps ih =>
    have hmove : G s p := hG (s, p) List.mem_cons_self
    intro t ht
    rcases List.mem_cons.mp ht with rfl | ht
    · exact h₀
    · exact ih (hstep s p h₀ hmove) (fun m hm => hG m (List.mem_cons_of_mem _ hm)) t ht

/-- When the first unguarded move spoils safety, the safe runs are exactly the
guarded ones. -/
theorem safe_iff_guarded {I Q : σ → Prop} {G : σ → P → Prop} (hsafe : ∀ s, I s → Q s)
    (hstep : ∀ s p, I s → G s p → I (step s p))
    (hspoil : ∀ s p, I s → ¬ G s p → ¬ Q (step s p)) {s : σ} {ps : List P} (h₀ : I s) :
    (∀ t ∈ states step s ps, Q t) ↔ ∀ m ∈ moves step s ps, G m.1 m.2 := by
  constructor
  · intro hQ
    induction ps generalizing s with
    | nil => simp [moves]
    | cons p ps ih =>
      have hnext : Q (step s p) := hQ _ (List.mem_cons_of_mem _ (start_mem_states _ ps))
      have hmove : G s p := by
        by_contra hG
        exact hspoil s p h₀ hG hnext
      intro m hm
      rcases List.mem_cons.mp hm with rfl | hm
      · exact hmove
      · exact ih (hstep s p h₀ hmove) (fun t ht => hQ t (List.mem_cons_of_mem _ ht)) m hm
  · intro hG t ht
    exact hsafe t (inv_of_guarded hstep h₀ hG t ht)

end Interleaving
