-- SUMMARY: Result directories of processes that start together: no two share one exactly when no `mkdir` finds its path taken.
import Sgcn.Base.Interleaving
import Sgcn.Model.Main

/-!
# Result directories

`main` takes the first index whose directory is not there and makes that directory,
in two separate system calls. It does not look at what `mkdir` returns. The runs in
which every process gets a directory of its own are exactly those in which every
`mkdir` finds its path still free.
-/

namespace Sgcn

namespace DirState

variable {P : Type*}

/-- No two processes have the same directory. -/
def Separate (s : DirState P) : Prop :=
  ∀ p q path, s.memOutput p = some path → s.memOutput q = some path → p = q

/-- `p` does not make a directory that is there already. -/
def MakesNew (s : DirState P) (p : P) : Prop :=
  ∀ idx, s.pc p = .mkdir idx → s.dirs (resultPath idx) = false

theorem resultPath_ne_resultsPath (idx : ℕ) : resultPath idx ≠ resultsPath := by
  intro h
  have hlen := congrArg String.length h
  rw [resultPath, String.length_append, String.length_append] at hlen
  have : "/result_".length = 8 := rfl
  omega

/-! ## The invariant -/

/-- A directory that a process has taken is there. One that appeared after a process
found it absent has been taken. -/
structure DirInv (s : DirState P) : Prop where
  separate : s.Separate
  root : ∀ p idx, s.pc p = .stat idx ∨ s.pc p = .mkdir idx → s.dirs resultsPath = true
  made : ∀ p path, s.memOutput p = some path → s.dirs path = true
  taken : ∀ p idx, s.pc p = .mkdir idx → s.dirs (resultPath idx) = true →
    ∃ q, s.memOutput q = some (resultPath idx)

theorem dirInv_start (dirs : String → Bool) : (start dirs : DirState P).DirInv where
  separate := by simp [Separate, memOutput, start, DirPc.memOutput]
  root := by simp [start]
  made := by simp [memOutput, start, DirPc.memOutput]
  taken := by simp [start]

/-! ## One move -/

section Move

variable [DecidableEq P] {s t : DirState P} {p : P} {c : DirPc} {made : Option String}

/-- `t` is `s` after `p` alone has moved to `c` and the path `made`, if any, was made. -/
structure Moves (s t : DirState P) (p : P) (c : DirPc) (made : Option String) : Prop where
  pc_eq : t.pc = Function.update s.pc p c
  dirs_eq : ∀ path, t.dirs path = (s.dirs path || decide (made = some path))

/-- `c` is a position before `mkdir`, or before a `mkdir` whose path is free. -/
def Searching (s : DirState P) (c : DirPc) : Prop :=
  c = .mkdirRoot ∨ (∃ idx, c = .stat idx) ∨ ∃ idx, c = .mkdir idx ∧ s.dirs (resultPath idx) = false

/-- All that one system call can do: nothing, a move on in the search, making `results`, or
taking a directory. -/
theorem step_cases (h : s.DirInv) (p : P) :
    s.step p = s ∨
    (∃ c made, s.Moves (s.step p) p c made ∧ s.memOutput p = none ∧ s.Searching c ∧
      (c = .mkdirRoot ∨ (s.step p).dirs resultsPath = true) ∧
      (made = none ∨ made = some resultsPath)) ∨
    ∃ idx, s.pc p = .mkdir idx ∧ s.Moves (s.step p) p (.done idx) (some (resultPath idx)) := by
  cases hpc : s.pc p with
  | statRoot =>
    have hnone : s.memOutput p = none := by simp [memOutput, hpc, DirPc.memOutput]
    cases hroot : s.dirs resultsPath with
    | true =>
      refine .inr (.inl ⟨.stat 0, none, ⟨?_, ?_⟩, hnone, .inr (.inl ⟨0, rfl⟩), .inr ?_, .inl rfl⟩)
      all_goals simp [step, hpc, hroot]
    | false =>
      refine .inr (.inl ⟨.mkdirRoot, none, ⟨?_, ?_⟩, hnone, .inl rfl, .inl rfl, .inl rfl⟩)
      all_goals simp [step, hpc, hroot]
  | mkdirRoot =>
    refine .inr (.inl ⟨.stat 0, some resultsPath, ⟨by simp [step, hpc], fun path => ?_⟩,
      by simp [memOutput, hpc, DirPc.memOutput], .inr (.inl ⟨0, rfl⟩), .inr (by simp [step, hpc]),
      .inr rfl⟩)
    by_cases hpath : path = resultsPath
    · simp [step, hpc, hpath]
    · simp [step, hpc, hpath, Ne.symm hpath]
  | stat idx =>
    have hnone : s.memOutput p = none := by simp [memOutput, hpc, DirPc.memOutput]
    have hroot := h.root p idx (.inl hpc)
    cases hdir : s.dirs (resultPath idx) with
    | true =>
      refine .inr (.inl ⟨.stat (idx + 1), none, ⟨?_, ?_⟩, hnone, .inr (.inl ⟨_, rfl⟩), .inr ?_,
        .inl rfl⟩)
      all_goals simp [step, hpc, hdir, hroot]
    | false =>
      refine .inr (.inl ⟨.mkdir idx, none, ⟨?_, ?_⟩, hnone, .inr (.inr ⟨idx, rfl, hdir⟩), .inr ?_,
        .inl rfl⟩)
      all_goals simp [step, hpc, hdir, hroot]
  | mkdir idx =>
    have hroot := h.root p idx (.inr hpc)
    refine .inr (.inr ⟨idx, rfl, by simp [step, hpc], fun path => ?_⟩)
    by_cases hpath : path = resultPath idx
    · simp [step, hpc, hroot, hpath]
    · simp [step, hpc, hroot, hpath, Ne.symm hpath]
  | done idx => exact .inl (by simp [step, hpc])

theorem Moves.memOutput_eq (h : s.Moves t p c made) (q : P) :
    t.memOutput q = if q = p then c.memOutput else s.memOutput q := by
  unfold memOutput
  rw [h.pc_eq]
  split
  next hq => rw [hq, Function.update_self]
  next hq => rw [Function.update_of_ne hq]

/-- A move in the search takes no directory and makes none that could be taken. -/
theorem DirInv.search (h : s.DirInv) (hm : s.Moves t p c made) (hp : s.memOutput p = none)
    (hc : s.Searching c) (hroot : c = .mkdirRoot ∨ t.dirs resultsPath = true)
    (hmade : made = none ∨ made = some resultsPath) : t.DirInv := by
  have hout : c.memOutput = none := by
    obtain rfl | ⟨idx, rfl⟩ | ⟨idx, rfl, -⟩ := hc <;> rfl
  have hsame (q : P) : t.memOutput q = s.memOutput q := by
    rw [hm.memOutput_eq]
    split
    next hq => rw [hq, hout, hp]
    next => rfl
  have hkeep (path : String) (hpath : s.dirs path = true) : t.dirs path = true := by
    rw [hm.dirs_eq, hpath, Bool.true_or]
  have hpaths (idx : ℕ) : t.dirs (resultPath idx) = s.dirs (resultPath idx) := by
    have hne : made ≠ some (resultPath idx) := by
      rintro rfl
      obtain hmade | hmade := hmade
      · cases hmade
      · exact resultPath_ne_resultsPath idx (Option.some.inj hmade)
    rw [hm.dirs_eq, decide_eq_false hne, Bool.or_false]
  refine ⟨fun q r path hq hr => ?_, fun q idx hq => ?_, fun q path hq => ?_,
    fun q idx hq hdir => ?_⟩
  · rw [hsame] at hq hr
    exact h.separate q r path hq hr
  · rw [hm.pc_eq] at hq
    by_cases hqp : q = p
    · subst hqp
      rw [Function.update_self] at hq
      refine hroot.resolve_left fun heq => ?_
      rw [heq] at hq
      obtain hq | hq := hq <;> cases hq
    · rw [Function.update_of_ne hqp] at hq
      exact hkeep _ (h.root q idx hq)
  · rw [hsame] at hq
    exact hkeep _ (h.made q path hq)
  · rw [hpaths] at hdir
    rw [hm.pc_eq] at hq
    by_cases hqp : q = p
    · subst hqp
      rw [Function.update_self] at hq
      obtain rfl | ⟨i, rfl⟩ | ⟨i, rfl, habsent⟩ := hc
      · cases hq
      · cases hq
      · cases hq
        rw [habsent] at hdir
        cases hdir
    · rw [Function.update_of_ne hqp] at hq
      obtain ⟨r, hr⟩ := h.taken q idx hq hdir
      exact ⟨r, by rw [hsame, hr]⟩

/-- Taking a directory that was free. -/
theorem DirInv.take (h : s.DirInv) {idx : ℕ} (hpc : s.pc p = .mkdir idx)
    (hfree : s.dirs (resultPath idx) = false)
    (hm : s.Moves t p (.done idx) (some (resultPath idx))) : t.DirInv := by
  have hnone (q : P) : s.memOutput q ≠ some (resultPath idx) := by
    intro hq
    rw [h.made q _ hq] at hfree
    cases hfree
  have hout (q : P) : t.memOutput q = if q = p then some (resultPath idx) else s.memOutput q :=
    hm.memOutput_eq q
  have hkeep (path : String) (hpath : s.dirs path = true) : t.dirs path = true := by
    rw [hm.dirs_eq, hpath, Bool.true_or]
  refine ⟨fun q r path hq hr => ?_, fun q i hq => ?_, fun q path hq => ?_, fun q i hq hdir => ?_⟩
  · rw [hout] at hq hr
    split at hq
    next hqp =>
      split at hr
      next hrp => rw [hqp, hrp]
      next =>
        rw [← Option.some.inj hq] at hr
        exact absurd hr (hnone r)
    next =>
      split at hr
      next =>
        rw [← Option.some.inj hr] at hq
        exact absurd hq (hnone q)
      next => exact h.separate q r path hq hr
  · rw [hm.pc_eq] at hq
    by_cases hqp : q = p
    · subst hqp
      rw [Function.update_self] at hq
      obtain hq | hq := hq <;> cases hq
    · rw [Function.update_of_ne hqp] at hq
      exact hkeep _ (h.root q i hq)
  · rw [hout] at hq
    split at hq
    next => rw [hm.dirs_eq, decide_eq_true hq, Bool.or_true]
    next => exact hkeep _ (h.made q path hq)
  · by_cases hpath : resultPath i = resultPath idx
    · exact ⟨p, by rw [hout, if_pos rfl, hpath]⟩
    · rw [hm.dirs_eq, decide_eq_false fun heq => hpath (Option.some.inj heq).symm,
        Bool.or_false] at hdir
      rw [hm.pc_eq] at hq
      by_cases hqp : q = p
      · subst hqp
        rw [Function.update_self] at hq
        cases hq
      · rw [Function.update_of_ne hqp] at hq
        obtain ⟨r, hr⟩ := h.taken q i hq hdir
        have hrp : r ≠ p := by
          rintro rfl
          simp [memOutput, hpc, DirPc.memOutput] at hr
        exact ⟨r, by rw [hout, if_neg hrp, hr]⟩

theorem DirInv.step (h : s.DirInv) (hnew : s.MakesNew p) : (s.step p).DirInv := by
  obtain heq | ⟨c, made, hm, hp, hc, hroot, hmade⟩ | ⟨idx, hpc, hm⟩ := step_cases h p
  · rwa [heq]
  · exact h.search hm hp hc hroot hmade
  · exact h.take hpc (hnew idx hpc) hm

/-- A `mkdir` whose path was made since it was looked for gives two processes one directory. -/
theorem DirInv.not_separate_step (h : s.DirInv) (hnew : ¬ s.MakesNew p) :
    ¬ (s.step p).Separate := by
  obtain ⟨idx, hpc, hdir⟩ : ∃ idx, s.pc p = .mkdir idx ∧ s.dirs (resultPath idx) = true := by
    simpa [MakesNew] using hnew
  obtain ⟨q, hq⟩ := h.taken p idx hpc hdir
  have hne : q ≠ p := by
    rintro rfl
    simp [memOutput, hpc, DirPc.memOutput] at hq
  have hpc' : (s.step p).pc = Function.update s.pc p (.done idx) := by simp [DirState.step, hpc]
  intro hsep
  refine hne (hsep q p (resultPath idx) ?_ ?_)
  · rwa [memOutput, hpc', Function.update_of_ne hne]
  · rw [memOutput, hpc', Function.update_self]
    rfl

end Move

/-! ## Every run -/

/-- For any number of processes and any interleaving of their system calls, whatever
directories are there before: every process gets a directory of its own exactly when
every `mkdir` of the run finds its path still free. -/
theorem separate_iff [DecidableEq P] (dirs : String → Bool) (ps : List P) :
    (∀ t ∈ Interleaving.states step (start dirs) ps, t.Separate) ↔
      ∀ m ∈ Interleaving.moves step (start dirs) ps, m.1.MakesNew m.2 :=
  Interleaving.safe_iff_guarded (I := DirInv) (fun _ h => h.separate) (fun _ _ h => h.step)
    (fun _ _ h => h.not_separate_step) (dirInv_start dirs)

/-- Two processes look for `results/result_0` before either makes it: both write there. -/
theorem not_separate_twoProcesses :
    ¬ ∀ t ∈ Interleaving.states step (start fun path => path == "results" : DirState Bool)
      [false, true, false, true, false, true], t.Separate := by
  intro h
  have hlast := h (step (step (step (step (step (step (start fun path => path == "results")
    false) true) false) true) false) true) (by simp [Interleaving.states])
  exact absurd (hlast false true (resultPath 0) rfl rfl) (by decide)

end DirState

end Sgcn
