-- SUMMARY: The cycle count of `GCNInference` covers the work of every engine, and its progress lines end with the whole.
import Sgcn.System.Fairness
import Sgcn.System.Traffic

/-!
# Cycles and progress

An engine passes on at most one line and issues at most one write in a cycle, so that the
cycles that `GCNInference` returns are at least the lines and the writes of every engine.
The progress lines are printed from a countdown that one cycle lowers by one at most: its
product with `unit_write` never wraps, since the countdown falls below zero in the last
cycle only.
-/

namespace Sgcn

open FeatureReader

variable {inp : Input} {g : Globals} {i : ℕ} {k : EngineCall}

/-- The states a run of `GCNInference` goes through, with its local variables. -/
def Inference.Reachable (g : Globals) (s : Inference) : Prop :=
  Machine.Reachable (InferenceStep g) (.init g) s

@[simp] theorem report_cfg (g : Globals) (s : Inference) : (s.report g).cfg = s.cfg := by
  unfold Inference.report
  split <;> rfl

@[simp] theorem report_cycle (g : Globals) (s : Inference) :
    (s.report g).cycle = s.cycle + 1 := by
  unfold Inference.report
  split <;> rfl

/-- The local variables only watch the run. -/
theorem Inference.Reachable.cfg {s : Inference} (hs : s.Reachable g) : s.cfg.Reachable g := by
  refine Machine.Reachable.inv (I := fun s => s.cfg.Reachable g) hs .refl ?_
  intro t t' _ h hstep
  cases hstep with
  | inner _ hstep => exact h.tail hstep
  | test _ hstep => exact h.tail hstep

/-! ## One call per cycle -/

/-- The place of a call for an engine in the cycle. -/
def slot (i : ℕ) (k : EngineCall) : ℕ := 7 * i + k.index

/-- How often the call in slot `p` has been made in the current cycle. -/
def Pc.made (p : ℕ) : Pc → ℕ
  | .engine j k' => if p < slot j k' then 1 else 0
  | .done => 0
  | _ => 1

theorem slot_lt (hi : i < g.archInfo.nOfEngine) (k : EngineCall) :
    slot i k < 7 * g.archInfo.nOfEngine := by
  have := k.index_le
  unfold slot
  omega

theorem slot_injective {j : ℕ} {k' : EngineCall} (h : slot i k = slot j k') : i = j ∧ k = k' := by
  have hk := k.index_le
  have hk' := k'.index_le
  unfold slot at h
  obtain rfl : i = j := by omega
  exact ⟨rfl, EngineCall.index_injective (by omega)⟩

theorem made_start {p : ℕ} (hp : p < 7 * g.archInfo.nOfEngine) : (Pc.start g).made p = 0 := by
  unfold Pc.start
  rw [if_pos (by omega)]
  simp [Pc.made, slot, EngineCall.index]

/-- A call is made once the position has gone past it. -/
theorem made_next {p j : ℕ} (hp : p < 7 * g.archInfo.nOfEngine) (k : EngineCall) :
    (Pc.next g j k).made p = if p ≤ slot j k then 1 else 0 := by
  cases k with
  | write =>
    simp only [Pc.next]
    split
    · exact if_congr Nat.lt_succ_iff rfl rfl
    · have hle : p ≤ slot j .write := by
        have : slot j .write = 7 * j + 6 := rfl
        omega
      rw [if_pos hle]
      rfl
  | _ => exact if_congr Nat.lt_succ_iff rfl rfl

/-- A count that one call for one engine raises by one at most, and nothing else raises. -/
structure CountedBy (g : Globals) (i : ℕ) (k : EngineCall) (f : Controller → ℤ) : Prop where
  init : f (.init g) = 0
  step : ∀ s s' : Config, s.Reachable g → Step g s s' →
    f s'.ctr ≤ f s.ctr ∨ s.pc = .engine i k ∧ f s'.ctr ≤ f s.ctr + 1

/-- Such a count is at most the number of cycles. -/
theorem CountedBy.le_cycle {f : Controller → ℤ} (hi : i < g.archInfo.nOfEngine)
    (h : CountedBy g i k f) {s : Inference} (hs : s.Reachable g) :
    f s.cfg.ctr ≤ s.cycle + s.cfg.pc.made (slot i k) := by
  refine Machine.Reachable.inv
    (I := fun s => f s.cfg.ctr ≤ s.cycle + s.cfg.pc.made (slot i k)) hs ?_ ?_
  · simp only [Inference.init, Config.init, h.init]
    positivity
  intro t t' hreach hle hstep
  have hcount : ∀ cfg, Step g t.cfg cfg → f cfg.ctr ≤ f t.cfg.ctr ∨
      t.cfg.pc = .engine i k ∧ f cfg.ctr ≤ f t.cfg.ctr + 1 :=
    fun cfg => h.step t.cfg cfg (Inference.Reachable.cfg hreach)
  cases hstep with
  | @test cfg hpc hstep =>
    -- the cycle is counted, and the next one starts
    have hnone : cfg.pc.made (slot i k) = 0 := by
      generalize t.cfg = s at hpc hstep
      cases hstep with
      | again => exact made_start (slot_lt hi k)
      | exit => rfl
      | _ => cases hpc
    rcases hcount cfg hstep with hsame | ⟨hcall, -⟩
    · rw [hpc] at hle
      simp only [Pc.made] at hle
      simp only [hnone, report_cycle]
      push_cast at hle ⊢
      omega
    · rw [hcall] at hpc
      cases hpc
  | @inner cfg hpc hstep =>
    have hcases := hcount cfg hstep
    dsimp only
    generalize t.cfg = s at hpc hstep hcases hle
    cases hstep with
    | @call j k' c c' hcall =>
      rw [made_next (slot_lt hi k)]
      dsimp only at hcases
      simp only [Pc.made] at hle ⊢
      rcases hcases with hsame | ⟨heq, hup⟩
      · split at hle <;> split <;> push_cast at hle ⊢ <;> omega
      · cases heq
        rw [if_neg (lt_irrefl _)] at hle
        rw [if_pos le_rfl]
        push_cast at hle ⊢
        omega
    | again => exact absurd rfl hpc
    | exit => exact absurd rfl hpc
    | _ =>
      rcases hcases with hsame | ⟨heq, -⟩
      · exact hsame.trans hle
      · cases heq

/-! ## Lines -/

/-- The lines that engine `i` has yet to pass on. -/
def remaining (g : Globals) (i : ℕ) (c : Controller) : ℕ := unread g i c + queuedLines i c.fr

theorem remaining_congr {c c' : Controller}
    (hedges : edgesPassed g i (c'.gr i) = edgesPassed g i (c.gr i))
    (hfr : SameEngine i c.fr c'.fr) : remaining g i c' = remaining g i c := by
  simp only [remaining, unread, ahead, queuedLines, hedges, hfr.frs, hfr.pq, hfr.fq]

theorem remaining_of_quiet {c c' : Controller} {j : ℕ} (h : Quiet g j c c') :
    remaining g i c' = remaining g i c :=
  remaining_congr (h.edges_eq i) ⟨by rw [h.frs_eq], by rw [h.pq_eq], by rw [h.fq_eq]⟩

/-- Only `PassFtoSIMD` takes a line off what an engine has to pass on. -/
theorem remaining_call (hw : Workload inp g) {c c' : Controller} (hrun : Running g c) {j : ℕ}
    (hj : j < g.archInfo.nOfEngine) {k : EngineCall} (hcall : c.call g j k = some c') :
    remaining g i c' = remaining g i c ∨
      (j = i ∧ k = .passFtoSIMD) ∧ remaining g i c' + 1 = remaining g i c := by
  have hother : ∀ l, j ≠ i → SameEngine i c.fr c'.fr → c'.gr = Function.update c.gr j l →
      remaining g i c' = remaining g i c := by
    intro l hji hsame hgr
    refine remaining_congr ?_ hsame
    rw [hgr, Function.update_of_ne (Ne.symm hji)]
  cases k with
  | vertexRequest =>
    left
    cases call_effect hcall with
    | skip => rfl
    | vertexRequest =>
      exact remaining_congr (edgesPassed_setGr (edgesPassed_vertexRequest g j _ _) i) ⟨rfl, rfl, rfl⟩
  | edgeRequest =>
    left
    cases call_effect hcall with
    | skip => rfl
    | edgeRequest =>
      exact remaining_congr (edgesPassed_setGr (edgesPassed_edgeRequest g j _ _) i) ⟨rfl, rfl, rfl⟩
  | graphReceive =>
    left
    cases call_effect hcall with
    | skip => rfl
    | graphReceive =>
      exact remaining_congr (edgesPassed_setGr (edgesPassed_graphReceive g j _ _) i) ⟨rfl, rfl, rfl⟩
  | nextFeature =>
    left
    obtain ⟨n, out, hengine⟩ := hrun.pipe.engines j
    have hn := hengine.cursor.edgesPassed_eq hw.bf_pos
    cases call_effect hcall with
    | skip => rfl
    | noFeature hnext =>
      rcases hengine.cursor.next hw.toPrepared hnext with ⟨-, hnext'⟩ | ⟨ei, hei, -⟩
      · exact remaining_congr
          (edgesPassed_setGr ((hnext'.edgesPassed_eq hw.bf_pos).trans hn.symm) i) ⟨rfl, rfl, rfl⟩
      · cases hei
    | @nextFeature r ei hnext =>
      rcases hengine.cursor.next hw.toPrepared hnext with ⟨hnone, -⟩ |
        ⟨ei', hei', rfl, -, hstream, hnext'⟩
      · cases hnone
      · cases hei'
        by_cases hji : ei.id = i
        · subst hji
          have hunread := unread_enterFtoList hn (hnext'.edgesPassed_eq hw.bf_pos) hstream
          rw [remaining, remaining, hunread]
          rfl
        · exact hother _ hji (sameEngine_enterFtoList hji) rfl
  | readNext =>
    left
    rcases readNext_moves hw hrun hcall with ⟨hquiet, -⟩ | ⟨hgr, -, hsame, hkeep, -⟩
    · exact remaining_of_quiet hquiet
    · by_cases hji : j = i
      · subst hji
        exact hkeep
      · exact remaining_congr (by rw [hgr]) (hsame i (Ne.symm hji))
  | passFtoSIMD =>
    rcases passFtoSIMD_moves hrun hcall with ⟨hquiet, -⟩ | ⟨hgr, -, hsame, -, -, hunread, hqueued⟩
    · exact .inl (remaining_of_quiet hquiet)
    · by_cases hji : j = i
      · subst hji
        refine .inr ⟨⟨rfl, rfl⟩, ?_⟩
        rw [remaining, remaining]
        omega
      · exact .inl (remaining_congr (by rw [hgr]) (hsame i (Ne.symm hji)))
  | write =>
    left
    rcases call_write hcall with rfl | ⟨a, rest, -, rfl⟩
    · rfl
    · rfl

/-- The lines that engine `i` has passed on. -/
def linesPassed (g : Globals) (i : ℕ) (c : Controller) : ℤ :=
  remaining g i (.init g) - remaining g i c

theorem remaining_init (g : Globals) (i : ℕ) : remaining g i (.init g) =
    lineCount g (refStream i (g.rowPtr i) (g.colIdx i) g.archInfo.bf) := by
  simp [remaining, unread, ahead, queuedLines, lineCount, edgesPassed, restTokens, Controller.init,
    GraphReader.init, FeatureReader.init]

theorem linesPassed_counted (hw : Workload inp g) (i : ℕ) :
    CountedBy g i .passFtoSIMD (linesPassed g i) where
  init := sub_self _
  step := by
    intro s s' hs hstep
    have hsame : ∀ c c' : Controller, c'.gr = c.gr → SameEngine i c.fr c'.fr →
        linesPassed g i c' ≤ linesPassed g i c := by
      intro c c' hgr hfr
      rw [linesPassed, linesPassed, remaining_congr (by rw [hgr]) hfr]
    cases hstep with
    | call hcall =>
      have hcases := remaining_call (i := i) hw (hw.running hs) (engine_lt_of_reachable hs rfl) hcall
      rcases hcases with heq | ⟨⟨rfl, rfl⟩, heq⟩
      · left
        rw [linesPassed, linesPassed, heq]
      · right
        refine ⟨rfl, ?_⟩
        rw [linesPassed, linesPassed, ← heq]
        push_cast
        omega
    | featureReceive => exact .inl (hsame _ _ rfl (sameEngine_featureReceive i _))
    | accept => exact .inl (hsame _ _ rfl ⟨rfl, rfl, rfl⟩)
    | readReply => exact .inl (hsame _ _ rfl ⟨rfl, rfl, rfl⟩)
    | writeReply => exact .inl (hsame _ _ rfl ⟨rfl, rfl, rfl⟩)
    | refuse => exact .inl le_rfl
    | tick => exact .inl le_rfl
    | again => exact .inl le_rfl
    | exit => exact .inl le_rfl

/-! ## Writes -/

/-- The writes that engine `i` has issued. -/
def writesIssued (i : ℕ) (c : Controller) : ℤ := (c.si i).cnt - (c.si i).wq.length

theorem writesIssued_counted (g : Globals) (i : ℕ) : CountedBy g i .write (writesIssued i) where
  init := rfl
  step := by
    intro s s' hs hstep
    cases hstep with
    | @call j k c c' hcall =>
      by_cases hpass : k = .passFtoSIMD
      · subst hpass
        left
        simp only [Controller.call, Option.some.injEq] at hcall
        subst hcall
        by_cases hji : i = j
        · subst hji
          have := cnt_getFeature g (c.fr.passFtoSIMD g i).1 (c.si i)
          simp only [writesIssued, Function.update_self]
          omega
        · simp only [writesIssued, Function.update_of_ne hji, le_refl]
      · by_cases hwrite : k = .write
        · subst hwrite
          rcases call_write hcall with rfl | ⟨a, rest, hwq, rfl⟩
          · exact .inl le_rfl
          · by_cases hji : i = j
            · subst hji
              refine .inr ⟨rfl, ?_⟩
              simp only [writesIssued, Function.update_self, hwq, List.length_cons]
              push_cast
              omega
            · left
              simp only [writesIssued, Function.update_of_ne hji, le_refl]
        · left
          simp only [writesIssued, call_si hpass hwrite hcall, le_refl]
    | _ => exact .inl le_rfl

/-! ## The cycles of a run -/

theorem remaining_of_done (hw : Workload inp g) {s : Config} (hs : s.Reachable g)
    (hpc : s.pc = .done) (hi : i < g.archInfo.nOfEngine) : remaining g i s.ctr = 0 := by
  obtain ⟨hedges, hpq, hneed, hfq⟩ := drained_of_done hw hs hpc hi
  have hdrop : (refStream i (g.rowPtr i) (g.colIdx i) g.archInfo.bf).drop
      (edgesPassed g i (s.ctr.gr i)) = [] := by
    rw [hedges, ← length_refStream (hw.valid i), List.drop_length]
  rw [remaining, unread, ahead, queuedLines, hdrop, hpq, hfq, restTokens, if_pos hneed]
  rfl

/-- The cycles that `GCNInference` returns are at least the lines that an engine passes on, one
for every line of every edge, and at least the writes it issues. -/
theorem cycle_of_done (inp : Input) (h : Runnable inp) :
    ∃ g, preprocess inp = some g ∧ ∀ s : Inference, s.Reachable g → s.cfg.pc = .done →
      ∀ i < inp.nOfEngine,
        lineCount g (refStream i (g.rowPtr i) (g.colIdx i) g.archInfo.bf) ≤ s.cycle ∧
          workRows (inp.engineRows i) * inp.rowLines ≤ s.cycle := by
  obtain ⟨g, hg, hw⟩ := h.exists_workload
  have hgeo := geometry_of_preprocess hg
  refine ⟨g, hg, fun s hs hpc i hi => ?_⟩
  have hi' : i < g.archInfo.nOfEngine := by rwa [hw.nOfEngine_eq]
  have hrun := hw.running hs.cfg
  refine ⟨?_, ?_⟩
  · have hle := (linesPassed_counted hw i).le_cycle hi' hs
    rw [hpc, linesPassed, remaining_init, remaining_of_done hw hs.cfg hpc hi'] at hle
    simp only [Pc.made] at hle
    push_cast at hle
    omega
  · have hle := (writesIssued_counted g i).le_cycle hi' hs
    have hengines := hrun.pipe.of_totalWrite_zero hw hrun.writes (totalWrite_of_done hs.cfg hpc)
    obtain ⟨hcnt, hwq⟩ := hengines i hi'
    rw [budget, Simd.rowsOf, hgeo.rows_eq, hgeo.totalUrb_eq] at hcnt
    rw [hpc, writesIssued, hcnt, hwq] at hle
    simp only [Pc.made, List.length_nil] at hle
    push_cast at hle
    exact_mod_cast (by linarith : (workRows (inp.engineRows i) * inp.rowLines : ℤ) ≤ s.cycle)

theorem cycle_of_done_twoEngines :
    ∃ g, preprocess twoEngines = some g ∧ ∀ s : Inference, s.Reachable g → s.cfg.pc = .done →
      workRows (twoEngines.engineRows 1) * twoEngines.rowLines ≤ s.cycle := by
  obtain ⟨g, hg, h⟩ := cycle_of_done twoEngines runnable_twoEngines
  exact ⟨g, hg, fun s hs hpc => (h s hs hpc 1 (by decide)).2⟩

/-! ## The progress lines -/

/-- `unit_write` is at most a sixteenth of what a `uint64_t` holds. -/
theorem unitWrite_le (h : g.totalWrite ≤ 2 ^ 62) : unitWrite g ≤ 2 ^ 60 := by
  rcases Nat.eq_zero_or_pos g.totalWrite with hzero | hpos
  · rw [unitWrite, hzero, ceilDiv_zero]
    exact Nat.zero_le _
  · have hten : toFloat 10 = 10 := by
      rw [toFloat, Fp.ofNat_eq (by decide) (by decide)]
      rfl
    have hposQ : (0 : ℚ) < g.totalWrite := by exact_mod_cast hpos
    have hleQ : (g.totalWrite : ℚ) ≤ 2 ^ 62 := by exact_mod_cast h
    have hfloat : toFloat g.totalWrite ≤ g.totalWrite + g.totalWrite / 2 ^ 24 :=
      Fp.round_le_add_div hposQ
    have hquot : 0 < toFloat g.totalWrite / 10 := by
      have := toFloat_pos hpos
      positivity
    have hdiv : floatDiv (toFloat g.totalWrite) 10 ≤
        toFloat g.totalWrite / 10 + toFloat g.totalWrite / 10 / 2 ^ 24 := by
      rw [floatDiv, Fp.div, hten]
      exact Fp.round_le_add_div hquot
    refine Nat.ceil_le.mpr ?_
    push_cast
    linarith

theorem unitWrite_le_of_workload (hw : Workload inp g) : unitWrite g ≤ 2 ^ 60 := by
  refine unitWrite_le ?_
  have hle : ∑ i ∈ Finset.range g.archInfo.nOfEngine, budget g i ≤
      g.archInfo.nOfEngine * 2 ^ 31 := by
    have hbound := Finset.sum_le_card_nsmul (Finset.range g.archInfo.nOfEngine) (budget g) (2 ^ 31)
      fun i hi => (hw.fit i (Finset.mem_range.mp hi)).le
    rwa [Finset.card_range, nsmul_eq_mul, Nat.cast_id] at hbound
  have hn := hw.engines_le
  rw [hw.totalWrite_eq.1]
  omega

/-- The counter only falls. -/
theorem totalWrite_step (hw : Workload inp g) {s s' : Config} (hs : s.Reachable g)
    (hstep : Step g s s') : s'.ctr.totalWrite ≤ s.ctr.totalWrite := by
  have hafter := (hw.running (hs.tail hstep)).writes.total
  have hbefore := (hw.running hs).writes.total
  cases hstep with
  | @call i k c c' hcall =>
    by_cases hwrite : k = .write
    · subst hwrite
      rcases call_write hcall with rfl | ⟨a, rest, -, rfl⟩ <;> exact le_rfl
    · rw [(call_frame hwrite hcall).totalWrite_eq]
  | writeReply =>
    simp only [Memory.writeCompleteCallback] at hafter hbefore ⊢
    omega
  | _ => exact le_rfl

/-- What has been printed. The countdown is not below zero as long as the loop runs. -/
structure ProgressInv (g : Globals) (s : Inference) : Prop where
  le_nine : s.propCount ≤ 9
  nonneg : s.cfg.pc ≠ .done → 0 ≤ s.propCount
  ge : -1 ≤ s.propCount
  count : (s.progress.length : ℤ) = 9 - s.propCount
  shown : ∀ p ∈ s.progress, p.2 = g.totalWrite ∧ p.1 + s.cfg.ctr.totalWrite ≤ g.totalWrite
  sorted : s.progress.Pairwise (·.1 ≤ ·.1)
  last : s.cfg.pc = .done → s.progress.getLast? = some (g.totalWrite, g.totalWrite)

/-- The product that the countdown is compared by does not wrap. -/
theorem ProgressInv.product_eq (hunit : unitWrite g ≤ 2 ^ 60) {s : Inference}
    (h : ProgressInv g s) (hpc : s.cfg.pc ≠ .done) :
    (uint64 (unitWrite g * s.propCount) : ℤ) = unitWrite g * s.propCount := by
  have hnonneg := h.nonneg hpc
  have hle := h.le_nine
  have hmul : (unitWrite g : ℤ) * s.propCount ≤ 2 ^ 60 * 9 := by
    have : (unitWrite g : ℤ) ≤ 2 ^ 60 := by exact_mod_cast hunit
    exact mul_le_mul this hle hnonneg (by positivity)
  refine uint64_eq (by positivity) (lt_of_le_of_lt hmul (by norm_num))

theorem ProgressInv.test (hw : Workload inp g) (hunit : unitWrite g ≤ 2 ^ 60)
    (hlt : g.totalWrite < 2 ^ 64) {s : Inference} (hs : s.cfg.Reachable g) (h : ProgressInv g s)
    {cfg : Config} (hpc : s.cfg.pc = .loopTest) (hstep : Step g s.cfg cfg) :
    ProgressInv g { s.report g with cfg := cfg } := by
  have hnot : s.cfg.pc ≠ .done := by
    rw [hpc]
    decide
  obtain ⟨hctr, hdone⟩ := step_loopTest hstep hpc
  have hproduct := h.product_eq hunit hnot
  have hnonneg := h.nonneg hnot
  have hnine := h.le_nine
  have hcount := h.count
  have htotal : s.cfg.ctr.totalWrite ≤ g.totalWrite := by
    have := (hw.running hs).writes.total
    omega
  have hshown : (uint64 ((g.totalWrite : ℤ) - s.cfg.ctr.totalWrite) : ℤ) =
      g.totalWrite - s.cfg.ctr.totalWrite := uint64_eq (by omega) (by omega)
  unfold Inference.report
  split
  · next hle =>
    refine ⟨?_, fun hgo => ?_, ?_, ?_, ?_, ?_, fun hend => ?_⟩
    · dsimp only
      omega
    · -- at zero the countdown is only lowered when nothing is left
      have hne : s.cfg.ctr.totalWrite ≠ 0 := fun hzero => hgo (hdone.mpr hzero)
      have hone : s.propCount ≠ 0 := by
        intro hzero
        rw [hzero, mul_zero] at hproduct
        rw [hzero, mul_zero] at hle
        omega
      dsimp only
      omega
    · dsimp only
      omega
    · simp only [List.length_append, List.length_singleton]
      push_cast
      omega
    · intro p hp
      simp only [hctr]
      rcases List.mem_append.mp hp with hp | hp
      · exact h.shown p hp
      · rw [List.mem_singleton.mp hp]
        exact ⟨rfl, by dsimp only; omega⟩
    · refine List.pairwise_append.mpr ⟨h.sorted, List.pairwise_singleton _ _, fun p hp q hq => ?_⟩
      rw [List.mem_singleton.mp hq]
      have := (h.shown p hp).2
      dsimp only
      omega
    · rw [hdone.mp hend]
      simp only [List.getLast?_append, List.getLast?_singleton, Option.some_or, Option.some.injEq,
        Prod.mk.injEq, and_true]
      rw [hdone.mp hend] at hshown
      omega
  · next hgt =>
    refine ⟨hnine, fun _ => hnonneg, h.ge, hcount, ?_, h.sorted, fun hend => ?_⟩
    · simp only [hctr]
      exact h.shown
    · rw [hdone.mp hend] at hgt
      exact absurd (Nat.zero_le _) hgt

theorem progress_of_reachable (hw : Workload inp g) {s : Inference} (hs : s.Reachable g) :
    ProgressInv g s := by
  have hlt := hw.totalWrite_eq.2.1
  have hunit := unitWrite_le_of_workload hw
  refine Machine.Reachable.inv (I := fun s => ProgressInv g s) hs ?_ ?_
  · refine ⟨le_rfl, fun _ => Int.natCast_nonneg 9, (by decide : (-1 : ℤ) ≤ 9), rfl, fun p hp => absurd hp List.not_mem_nil,
      List.Pairwise.nil, fun hdone => ?_⟩
    simp only [Inference.init, Config.init, Pc.start] at hdone
    split at hdone <;> cases hdone
  · intro t t' hreach h hstep
    have hcfg := Inference.Reachable.cfg hreach
    cases hstep with
    | inner hpc hstep =>
      have hgo : t.cfg.pc ≠ .done := fun hdone => not_step_done hdone hstep
      have hfall := totalWrite_step hw hcfg hstep
      refine ⟨h.le_nine, fun _ => h.nonneg hgo, h.ge, h.count, fun p hp => ?_, h.sorted,
        fun hdone => absurd (step_to_done hstep hdone).1 hpc⟩
      obtain ⟨heq, hle⟩ := h.shown p hp
      exact ⟨heq, by dsimp only; omega⟩
    | test hpc hstep => exact h.test hw hunit hlt hcfg hpc hstep

/-- `GCNInference` prints at most ten `PROGRESS` lines. They count up, none says more than has
been written, and the last one, which is printed in the cycle in which the loop is left, says
that all has been written. The product they are decided by does not wrap. -/
theorem progress_lines (inp : Input) (h : Runnable inp) :
    ∃ g, preprocess inp = some g ∧ ∀ s : Inference, s.Reachable g →
      s.progress.length ≤ 10 ∧ s.progress.Pairwise (·.1 ≤ ·.1) ∧
      (∀ p ∈ s.progress, p.2 = g.totalWrite ∧ p.1 + s.cfg.ctr.totalWrite ≤ g.totalWrite) ∧
      (s.cfg.pc = .done → s.progress.getLast? = some (g.totalWrite, g.totalWrite)) ∧
      (s.cfg.pc ≠ .done →
        (uint64 (unitWrite g * s.propCount) : ℤ) = unitWrite g * s.propCount) := by
  obtain ⟨g, hg, hw⟩ := h.exists_workload
  refine ⟨g, hg, fun s hs => ?_⟩
  have h := progress_of_reachable hw hs
  have hcount := h.count
  have hge := h.ge
  exact ⟨by omega, h.sorted, h.shown, h.last, h.product_eq (unitWrite_le_of_workload hw)⟩

theorem progress_lines_twoEngines :
    ∃ g, preprocess twoEngines = some g ∧ ∀ s : Inference, s.Reachable g →
      s.progress.length ≤ 10 ∧
        (s.cfg.pc = .done → s.progress.getLast? = some (g.totalWrite, g.totalWrite)) := by
  obtain ⟨g, hg, h⟩ := progress_lines twoEngines runnable_twoEngines
  exact ⟨g, hg, fun s hs => ⟨(h s hs).1, (h s hs).2.2.2.1⟩⟩

end Sgcn
