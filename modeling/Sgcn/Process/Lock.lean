-- SUMMARY: Mutual exclusion by the lock file of `main`: the runs that have it are those that never create it twice.
import Sgcn.Base.Interleaving
import Sgcn.Model.Main

/-!
# The lock file

`main` looks for the lock file and creates it in two separate system calls, and
the second one does not ask whether the file is there. A process holds the lock
from its `create` to its `remove`. The runs in which at most one process does so
are exactly those in which every `create` finds the file still absent.
-/

namespace Sgcn

namespace CsvState

variable {P : Type*}

/-- `p` is between creating the lock file and removing it. -/
def Holds (s : CsvState P) (p : P) : Prop := s.pc p = .append ∨ s.pc p = .remove

/-- At most one process holds the lock. -/
def Exclusive (s : CsvState P) : Prop := ∀ p q, s.Holds p → s.Holds q → p = q

/-- `p` does not remove the lock file while another process is appending. -/
def RemovesOwn (s : CsvState P) (p : P) : Prop :=
  s.pc p = .remove → ∀ q, q ≠ p → s.pc q ≠ .append

/-- `p` does not open a lock file that is there already. -/
def CreatesNew (s : CsvState P) (p : P) : Prop := s.pc p = .create → s.lockExists = false

/-- What the lock is for, over one run of the processes in `ps`. -/
structure MutualExclusion [DecidableEq P] (record : P → String) (s : CsvState P) (ps : List P) :
    Prop where
  exclusive : ∀ t ∈ Interleaving.states (step record) s ps, t.Exclusive
  removesOwn : ∀ m ∈ Interleaving.moves (step record) s ps, m.1.RemovesOwn m.2

/-! ## The invariant -/

/-- The lock file is there while the lock is held. A process may stand before its
`create` while the file is there only because some process holds the lock. -/
structure LockInv (s : CsvState P) : Prop where
  exclusive : s.Exclusive
  locked : ∀ p, s.Holds p → s.lockExists = true
  held : s.lockExists = true → ∀ p, s.pc p = .create → ∃ q, s.Holds q

theorem lockInv_start (lockFile : Option String) (csv : String) :
    (start lockFile csv : CsvState P).LockInv where
  exclusive := by simp [Exclusive, Holds, start]
  locked := by simp [Holds, start]
  held := by simp [start]

/-- A holder that removes the file is the only process that could be appending. -/
theorem Exclusive.removesOwn {s : CsvState P} (h : s.Exclusive) (p : P) : s.RemovesOwn p := by
  intro hp q hne hq
  exact hne (h q p (.inl hq) (.inr hp))

/-! ## One move -/

section Move

variable [DecidableEq P] {record : P → String} {s t : CsvState P} {p : P} {c : LockPc}

/-- `t` is `s` after `p` alone has moved to `c`; the lock file is there or not by `b`. -/
def Moves (s t : CsvState P) (p : P) (c : LockPc) (b : Bool) : Prop :=
  t.pc = Function.update s.pc p c ∧ t.lockExists = b

/-- All that one system call can do. -/
theorem step_cases (record : P → String) (s : CsvState P) (p : P) :
    (s.pc p = .test ∧ s.step record p = s) ∨
    (s.pc p = .test ∧ s.lockExists = false ∧ s.Moves (s.step record p) p .create false) ∨
    (s.pc p = .create ∧ s.Moves (s.step record p) p .append true) ∨
    (s.pc p = .append ∧ s.Moves (s.step record p) p .remove s.lockExists) ∨
    (s.pc p = .remove ∧ s.Moves (s.step record p) p .test false) := by
  cases hpc : s.pc p with
  | test =>
    cases hlock : s.lockExists with
    | true => simp [step, hpc, hlock]
    | false =>
      have hfile : (s.step record p).lockFile = s.lockFile := by simp [step, hpc, hlock]
      refine .inr (.inl ⟨rfl, rfl, by simp [step, hpc, hlock], ?_⟩)
      rw [lockExists, hfile]
      exact hlock
  | create => simp [step, hpc, Moves, lockExists]
  | append => simp [step, hpc, Moves, lockExists]
  | remove => simp [step, hpc, Moves, lockExists]

/-- Who holds the lock when `p` alone has moved. -/
theorem Moves.holds_iff {b : Bool} (h : s.Moves t p c b) (q : P) :
    t.Holds q ↔ if q = p then c = .append ∨ c = .remove else s.Holds q := by
  unfold Holds
  rw [h.1]
  split
  next hq => simp [hq]
  next hq => simp [Function.update_of_ne hq]

theorem LockInv.step (h : s.LockInv) (hnew : s.CreatesNew p) : (s.step record p).LockInv := by
  obtain ⟨-, heq⟩ | ⟨-, hlock, hm⟩ | ⟨hpc, hm⟩ | ⟨hpc, hm⟩ | ⟨hpc, hm⟩ := step_cases record s p
  · rwa [heq]
  · have hfree (q : P) : ¬ s.Holds q := fun hq => by simp [h.locked q hq] at hlock
    have hfree' (q : P) : ¬ (s.step record p).Holds q := by simp [hm.holds_iff, hfree]
    exact ⟨fun q _ hq => absurd hq (hfree' q), fun q hq => absurd hq (hfree' q), by simp [hm.2]⟩
  · have hlock : s.lockExists = false := hnew hpc
    have hfree (q : P) : ¬ s.Holds q := fun hq => by simp [h.locked q hq] at hlock
    have hown (q : P) : (s.step record p).Holds q ↔ q = p := by simp [hm.holds_iff, hfree]
    refine ⟨fun q r hq hr => ?_, fun _ _ => hm.2, fun _ _ _ => ⟨p, (hown p).mpr rfl⟩⟩
    rw [(hown q).mp hq, (hown r).mp hr]
  · have hp : s.Holds p := .inl hpc
    have hsame (q : P) : (s.step record p).Holds q ↔ s.Holds q := by
      rw [hm.holds_iff]
      split
      next hq => simp [hq, hp]
      next => rfl
    refine ⟨fun q r hq hr => ?_, fun q hq => ?_, fun _ _ _ => ⟨p, (hsame p).mpr hp⟩⟩
    · exact h.exclusive q r ((hsame q).mp hq) ((hsame r).mp hr)
    · rw [hm.2]
      exact h.locked p hp
  · have hp : s.Holds p := .inr hpc
    have hfree (q : P) : ¬ (s.step record p).Holds q := by
      rw [hm.holds_iff]
      split
      next => simp
      next hq => exact fun hs => hq (h.exclusive q p hs hp)
    exact ⟨fun q _ hq => absurd hq (hfree q), fun q hq => absurd hq (hfree q), by simp [hm.2]⟩

/-- A `create` that opens a lock file of another process makes two holders. -/
theorem LockInv.not_exclusive_step (h : s.LockInv) (hnew : ¬ s.CreatesNew p) :
    ¬ (s.step record p).Exclusive := by
  obtain ⟨hpc, hlock⟩ : s.pc p = .create ∧ s.lockExists = true := by
    simpa [CreatesNew] using hnew
  obtain ⟨q, hq⟩ := h.held hlock p hpc
  have hne : q ≠ p := by
    rintro rfl
    simp [Holds, hpc] at hq
  obtain hm : s.Moves (s.step record p) p .append true := by
    simpa [hpc] using step_cases record s p
  intro hex
  exact hne (hex q p (by simpa [hm.holds_iff, hne] using hq) (by simp [hm.holds_iff]))

end Move

/-! ## Every run -/

/-- For any number of processes and any interleaving of their system calls, from
any state of the two files: the run has mutual exclusion exactly when every
`create` in it finds the lock file still absent. -/
theorem mutualExclusion_iff [DecidableEq P] (record : P → String) (lockFile : Option String)
    (csv : String) (ps : List P) :
    MutualExclusion record (start lockFile csv) ps ↔
      ∀ m ∈ Interleaving.moves (step record) (start lockFile csv) ps, m.1.CreatesNew m.2 := by
  have hsafe : (∀ t ∈ Interleaving.states (step record) (start lockFile csv) ps, t.Exclusive) ↔
      ∀ m ∈ Interleaving.moves (step record) (start lockFile csv) ps, m.1.CreatesNew m.2 :=
    Interleaving.safe_iff_guarded (I := LockInv) (fun _ h => h.exclusive)
      (fun _ _ h => h.step) (fun _ _ h => h.not_exclusive_step) (lockInv_start lockFile csv)
  rw [← hsafe]
  constructor
  · intro h
    exact h.exclusive
  · intro h
    refine ⟨h, fun m hm => ?_⟩
    exact (h m.1 (Interleaving.state_mem_of_mem_moves hm)).removesOwn m.2

/-- Two processes look for the lock file before either creates it: both create it
and both append. -/
theorem not_mutualExclusion_twoProcesses :
    ¬ MutualExclusion (fun _ : Bool => "1,0,") (start none "") [false, true, false, true] := by
  intro h
  have hlast := h.exclusive
    (step (fun _ => "1,0,") (step (fun _ => "1,0,") (step (fun _ => "1,0,")
      (step (fun _ => "1,0,") (start none "") false) true) false) true)
    (by simp [Interleaving.states])
  exact absurd (hlast false true (.inl rfl) (.inl rfl)) (by decide)

end CsvState

end Sgcn
