-- SUMMARY: In every mode a run keeps the flow through the engines, the outstanding requests and the writes in step.
import Sgcn.Feature.PlanFlow
import Sgcn.Feature.PlanTables
import Sgcn.System.Misses

/-!
# The pipeline in every mode

What the modes differ in is behind a plan for every edge. Over it a run is the same in all of
them: edges become lines, lines become row ends, row ends become writes, and what is asked for
is on its way until it is taken.
-/

namespace Sgcn

open FeatureReader

variable {inp : Input} {g : Globals} {c c' : Controller} {i j k : ℕ} {out : List ℤ}

/-! ## Assumptions -/

/-- Prepared globals with folds and with a plan for every edge, in which every engine has edges,
and whose arrays fit. -/
structure Equipped (inp : Input) (g : Globals) : Prop extends Prepared inp g where
  geometry : Geometry inp g
  sum_eq : g.totalWrite = sumTotalWrite g.dataIndex g.archInfo.nOfEngine
  table : PlanTable g
  bf_pos : 0 < g.archInfo.bf
  inside : (g.archInfo.bf - 1) * g.archInfo.urb < g.dataInfo.totalUrb
  one_fold : g.archInfo.bf = 1 → g.archInfo.urb = g.dataInfo.totalUrb
  edge_pos : ∀ i < g.archInfo.nOfEngine, 0 < (g.colIdx i).length
  row_le : ∀ i < g.archInfo.nOfEngine, (g.rowPtr i).length ≤ 2 ^ 24
  col_le : ∀ i < g.archInfo.nOfEngine, (g.colIdx i).length ≤ 2 ^ 24

/-- Such globals whose write counts fit. Where headers are waited for, the transaction queue has
room for a header and a line of every engine. -/
structure Workload (inp : Input) (g : Globals) : Prop extends Equipped inp g where
  engines_le : g.archInfo.nOfEngine ≤ 2 ^ 31
  headed_le : Headed g → 2 * g.archInfo.nOfEngine ≤ requestLimit
  fit : ∀ i < g.archInfo.nOfEngine, budget g i < 2 ^ 31

/-- An input in any mode in which every engine has edges, and whose arrays fit the types that the
source has for them. -/
structure WellSized (inp : Input) : Prop extends ModeOk inp where
  engines_pos : 1 ≤ inp.nOfEngine
  xW_pos : 1 ≤ inp.xW
  xW_le : inp.xW ≤ 2 ^ 24
  size_le : ∀ i < inp.nOfEngine, (rowPtrOf (inp.engineRows i)).length ≤ 2 ^ 24 ∧
    (inp.engineRows i).flatten.length ≤ 2 ^ 24
  edges : ∀ i < inp.nOfEngine, (inp.engineRows i).flatten ≠ []

/-- Such an input whose write counts fit as well. -/
structure Runnable (inp : Input) : Prop extends WellSized inp where
  engines_lt : inp.nOfEngine < 2 ^ 31
  headed_le : inp.mode = .csr ∨ inp.mode = .xFullCmp → 2 * inp.nOfEngine ≤ requestLimit
  fit : ∀ i < inp.nOfEngine, workRows (inp.engineRows i) * inp.rowLines < 2 ^ 31

/-- There are folds, and the last one starts inside the row. -/
theorem WellSized.folds (h : WellSized inp) :
    0 < inp.folds ∧ (inp.folds - 1) * inp.foldLines < inp.rowLines := by
  by_cases hmode : inp.mode = .xCmp
  · have hunit := h.xUnit_pos hmode
    have hfolds : 0 < inp.folds := by
      simp only [Input.folds, hmode]
      exact ceilDiv_pos h.xW_pos hunit
    have hlines : 0 < inp.foldLines := by
      simp only [Input.foldLines, hmode]
      exact ceilDiv_pos hunit (by decide)
    refine ⟨hfolds, ?_⟩
    have hrow : inp.rowLines = inp.folds * inp.foldLines := by simp only [Input.rowLines, hmode]
    rw [hrow]
    exact Nat.mul_lt_mul_of_pos_right (by omega) hlines
  · have hfolds : inp.folds = inp.bf := by
      cases hm : inp.mode with
      | xCmp => exact absurd hm hmode
      | _ => simp only [Input.folds, hm]
    rw [hfolds]
    exact ⟨h.bf_pos hmode, h.inside hmode⟩

/-- Such an input is prepared for a run. -/
theorem WellSized.exists_equipped (h : WellSized inp) :
    ∃ g, preprocess inp = some g ∧ Equipped inp g := by
  obtain ⟨g, hg⟩ := preprocess_isSome_of_modeOk h.xW_pos h.xW_le h.size_le h.toModeOk
  have hp := prepared_of_preprocess hg
  have hgeo := geometry_of_preprocess hg
  have hlt : ∀ i < g.archInfo.nOfEngine, i < inp.nOfEngine := by
    rw [hp.nOfEngine_eq]
    exact fun i hi => hi
  have hsum : g.totalWrite = sumTotalWrite g.dataIndex g.archInfo.nOfEngine := by
    obtain ⟨g₁, -, rfl⟩ := preprocess_spec hg
    rfl
  refine ⟨g, hg, hp, hgeo, hsum, planTable_of_preprocess h.engines_pos h.xW_pos h.toModeOk hg,
    ?_, ?_, fun hone => ?_, hp.colIdx_pos h.edges, fun i hi => ?_, fun i hi => ?_⟩
  · rw [hgeo.bf_eq]
    exact h.folds.1
  · rw [hgeo.bf_eq, hgeo.urb_eq, hgeo.totalUrb_eq]
    exact h.folds.2
  · rw [hgeo.urb_eq, hgeo.totalUrb_eq]
    exact Simd.foldLines_of_folds_one (hgeo.bf_eq.symm.trans hone)
  · rw [hp.rowPtr_eq]
    exact (h.size_le i (hlt i hi)).1
  · rw [hp.colIdx_eq]
    exact (h.size_le i (hlt i hi)).2

theorem Runnable.exists_workload (h : Runnable inp) :
    ∃ g, preprocess inp = some g ∧ Workload inp g := by
  obtain ⟨g, hg, he⟩ := h.exists_equipped
  refine ⟨g, hg, he, ?_, fun hhead => ?_, fun i hi => ?_⟩
  · rw [he.nOfEngine_eq]
    exact h.engines_lt.le
  · rw [he.nOfEngine_eq]
    refine h.headed_le ?_
    rwa [← (mapFeatures_of_preprocess hg).1]
  · rw [budget, Simd.rowsOf, he.geometry.rows_eq, he.geometry.totalUrb_eq]
    exact h.fit i (by rwa [← he.nOfEngine_eq])

theorem runnable_twoEngines : Runnable twoEngines where
  xUnit_pos := fun _ => by decide
  bf_pos := fun h => absurd rfl h
  inside := fun h => absurd rfl h
  csr_rows := fun h => (by cases h)
  full_width := fun h => (by cases h)
  engines_pos := by decide
  engines_lt := by decide
  headed_le := fun _ => by decide
  xW_pos := by decide
  xW_le := by decide
  size_le := fun i hi => ⟨(twoEngines_rows i hi).2.1, (twoEngines_rows i hi).2.2.1⟩
  edges := fun i hi => (twoEngines_rows i hi).1
  fit := fun i hi => by
    rw [(twoEngines_rows i hi).2.2.2, rowLines_twoEngines]
    decide

/-- The small input in a mode that waits for headers. -/
def twoEnginesCsr : Input := { twoEngines with mode := .csr, bf := 1 }

theorem rowLines_twoEnginesCsr : twoEnginesCsr.rowLines = 2 := ceilDiv_eq (by decide) (by decide)

theorem runnable_twoEnginesCsr : Runnable twoEnginesCsr where
  xUnit_pos := fun h => (by cases h)
  bf_pos := fun _ => by decide
  inside := fun _ => by
    rw [rowLines_twoEnginesCsr, show twoEnginesCsr.bf - 1 = 0 from rfl, Nat.zero_mul]
    decide
  csr_rows := fun _ _ _ => ⟨0, by decide, one_ne_zero⟩
  full_width := fun h => (by cases h)
  engines_pos := by decide
  xW_pos := by decide
  xW_le := by decide
  size_le := fun i hi => ⟨(twoEngines_rows i hi).2.1, (twoEngines_rows i hi).2.2.1⟩
  edges := fun i hi => (twoEngines_rows i hi).1
  engines_lt := by decide
  headed_le := fun _ => by decide
  fit := fun i hi => by
    have hrows : workRows (twoEnginesCsr.engineRows i) = 1 := (twoEngines_rows i hi).2.2.2
    rw [hrows, rowLines_twoEnginesCsr]
    decide

theorem Equipped.ownRegions (he : Equipped inp g) (hi : i < g.archInfo.nOfEngine) :
    GraphReader.OwnRegions g i :=
  .of_layout he.layout hi (he.valid i).length_pos (he.edge_pos i hi)

/-! ## The flow through an engine -/

/-- The graph reader has passed on `k` edges, the feature reader has made `out` of them, and the
SIMD unit has counted the row ends in `out`. -/
structure EnginePipe (g : Globals) (i k : ℕ) (out : List ℤ) (c : Controller) : Prop where
  cursor : CursorOk g i k (c.gr i)
  lines : PlanInv g (streamed g i k) out i c.fr
  rows : Simd.RowInv g i (out.count 0) (c.si i)

/-- What is known of the units in a run: the flow through every engine, where the graph readers
ask, and what is outstanding. -/
structure Pipeline (g : Globals) (c : Controller) : Prop where
  engines : ∀ i, ∃ k out, EnginePipe g i k out c
  addrs : ∀ i < g.archInfo.nOfEngine, GraphReader.AddrInv g i (c.gr i)
  requests : Outstanding g c.dram c.fr

theorem Pipeline.init (he : Equipped inp g) : Pipeline g (.init g) where
  engines := fun i => ⟨0, [], .inl ⟨he.bf_pos, .init (he.valid i) he.bf_pos⟩, .init g i, .init g i⟩
  addrs := fun i _ => .init g i
  requests := .init g

theorem prefix_of_planInv {edges : List EdgeInfo} {fr : FeatureReader}
    (h : PlanInv g edges out i fr) : out <+: edges.flatMap (planTokens g) := by
  obtain ⟨items, -, -, heq⟩ := h.queued
  rw [← heq, List.append_assoc, List.append_assoc]
  exact List.prefix_append _ _

theorem count_planTokens (g : Globals) (edges : List EdgeInfo) :
    (edges.flatMap (planTokens g)).count 0 = edges.countP EdgeInfo.isLast :=
  count_tokens (fun ei => (plan g ei.dst ei.vFold).length) edges

/-- No more row ends are passed on than the stream of the engine has. -/
theorem PlanInv.count_le (hp : Prepared inp g) {fr : FeatureReader}
    (h : PlanInv g (streamed g i k) out i fr) :
    out.count 0 ≤ g.archInfo.bf * Simd.rowsOf g i := by
  calc out.count 0 ≤ ((streamed g i k).flatMap (planTokens g)).count 0 :=
        (prefix_of_planInv h).sublist.count_le 0
    _ = (streamed g i k).countP EdgeInfo.isLast := count_planTokens g _
    _ ≤ (refStream i (g.rowPtr i) (g.colIdx i) g.archInfo.bf).countP EdgeInfo.isLast :=
        (List.take_sublist _ _).countP_le
    _ = g.archInfo.bf * Simd.rowsOf g i := hp.countP_isLast i

/-- A result passed on moves the SIMD unit on. A row end can only be one of a row, so that the
unit has rows. -/
theorem PlanInv.rowInv (hp : Prepared inp g) {pass : ℤ} {fr : FeatureReader} {si : Simd}
    (hrows : Simd.RowInv g i (out.count 0) si)
    (hlines : PlanInv g (streamed g i k) (out ++ results pass) i fr) :
    Simd.RowInv g i ((out ++ results pass).count 0) (si.getFeature g pass) := by
  have hle := hlines.count_le hp
  rw [List.count_append] at hle ⊢
  by_cases hpass : pass = 0
  · subst hpass
    have hone : (results 0).count 0 = 1 := rfl
    rw [hone] at hle ⊢
    have hpos : 0 < Simd.rowsOf g i := by
      by_contra hzero
      rw [Nat.eq_zero_of_not_pos hzero, Nat.mul_zero] at hle
      omega
    exact (hrows.rowEnd hpos).1
  · have hzero : (results pass).count 0 = 0 := by
      unfold results
      split
      · rfl
      · exact List.count_singleton.trans (if_neg (by simpa using hpass))
    rw [hzero, Simd.getFeature_of_ne hpass]
    exact hrows

/-! ## The calls -/

namespace Pipeline

theorem addrs_update (h : Pipeline g c) {r : GraphReader}
    (haddr : GraphReader.AddrInv g i (c.gr i) → GraphReader.AddrInv g i r) :
    ∀ j < g.archInfo.nOfEngine, GraphReader.AddrInv g j (Function.update c.gr i r j) := by
  intro j hj
  by_cases hji : j = i
  · subst hji
    rw [Function.update_self]
    exact haddr (h.addrs j hj)
  · rw [Function.update_of_ne hji]
    exact h.addrs j hj

/-- A change of one graph reader that keeps its cursors and asks for graph data at most. -/
theorem setGr (h : Pipeline g c) {r : GraphReader} {m : Memory}
    (hcursor : ∀ k, CursorOk g i k (c.gr i) → CursorOk g i k r)
    (haddr : GraphReader.AddrInv g i (c.gr i) → GraphReader.AddrInv g i r)
    (hm : inFlight g c.dram m = inFlight g c.dram c.fr.mem) : Pipeline g (c.setGr i r m) where
  engines := by
    intro j
    obtain ⟨k, out, hpipe⟩ := h.engines j
    refine ⟨k, out, ?_, hpipe.lines.congr ⟨rfl, rfl, rfl⟩, hpipe.rows⟩
    by_cases hj : j = i
    · subst hj
      simp only [Controller.setGr, Function.update_self]
      exact hcursor k hpipe.cursor
    · simp only [Controller.setGr, Function.update_of_ne hj]
      exact hpipe.cursor
  addrs := h.addrs_update haddr
  requests := h.requests.environment hm

/-- A new edge of engine `i` goes from its graph reader to the feature reader. -/
theorem enterFtoList (h : Pipeline g c) {r : GraphReader} {ei : EdgeInfo} (hid : ei.id = i)
    (hei : EdgeOk g ei)
    (hcursor : ∀ k, CursorOk g i k (c.gr i) →
      streamed g i (k + 1) = streamed g i k ++ [ei] ∧ CursorOk g i (k + 1) r)
    (haddr : GraphReader.AddrInv g i (c.gr i) → GraphReader.AddrInv g i r) :
    Pipeline g { c with gr := Function.update c.gr i r, fr := c.fr.enterFtoList ei } where
  engines := by
    intro j
    obtain ⟨k, out, hpipe⟩ := h.engines j
    by_cases hj : j = i
    · subst hj
      obtain ⟨hstream, hnext⟩ := hcursor k hpipe.cursor
      refine ⟨k + 1, out, ?_, ?_, hpipe.rows⟩
      · simpa using hnext
      · rw [hstream]
        subst hid
        exact hpipe.lines.enterFtoList hei
    · refine ⟨k, out, ?_, hpipe.lines.congr (sameEngine_enterFtoList (hid.trans_ne (Ne.symm hj))),
        hpipe.rows⟩
      simpa [hj] using hpipe.cursor
  addrs := h.addrs_update haddr
  requests := h.requests.keep rfl rfl (fun _ => List.Perm.refl _) fun a ha => by
    obtain ⟨j, hj, hwait⟩ := h.requests.waited a ha
    exact ⟨j, hj, hwait.imp_right fun hawait => ⟨hawait.1, hawait.2, hawait.3, hawait.4⟩⟩

theorem call (he : Equipped inp g) (hi : i < g.archInfo.nOfEngine) (h : Pipeline g c)
    {call : EngineCall} (hcall : c.call g i call = some c') : Pipeline g c' := by
  have ho := he.ownRegions hi
  cases call_effect hcall with
  | skip => exact h
  | vertexRequest =>
    obtain ⟨haddr, l, hmem, hl⟩ := (h.addrs i hi).vertexRequest ho c.fr.mem
    refine h.setGr (fun k hk => hk.congr (GraphReader.cursors_vertexRequest g i _ _))
      (fun _ => haddr) ?_
    rw [hmem]
    exact inFlight_graphReads he.layout hi hl
  | edgeRequest =>
    obtain ⟨haddr, l, hmem, hl⟩ := (h.addrs i hi).edgeRequest ho c.fr.mem
    refine h.setGr (fun k hk => hk.congr (GraphReader.cursors_edgeRequest g i _ _))
      (fun _ => haddr) ?_
    rw [hmem]
    exact inFlight_graphReads he.layout hi hl
  | graphReceive =>
    refine h.setGr (fun k hk => hk.graphReceive fun hbf => absurd hbf he.bf_pos.ne')
      (fun haddr => haddr.congr (GraphReader.requests_graphReceive _)) ?_
    unfold Memory.getGraph
    split <;> rfl
  | noFeature hnext =>
    refine h.setGr (fun k hk => ?_)
      (fun haddr => haddr.congr (GraphReader.requests_nextFeature hnext)) rfl
    rcases hk.next he.toPrepared hnext with ⟨-, hk'⟩ | ⟨ei, hei, -⟩
    · exact hk'
    · cases hei
  | nextFeature hnext =>
    obtain ⟨k, out, hpipe⟩ := h.engines i
    rcases hpipe.cursor.next he.toPrepared hnext with ⟨hnone, -⟩ | ⟨ei', hei', hid, hok, -, -⟩
    · cases hnone
    · cases hei'
      refine h.enterFtoList hid hok (fun k hk => ?_)
        fun haddr => haddr.congr (GraphReader.requests_nextFeature hnext)
      rcases hk.next he.toPrepared hnext with ⟨hnone, -⟩ | ⟨ei'', hei'', -, -, hstream, hk'⟩
      · cases hnone
      · cases hei''
        exact ⟨hstream, hk'⟩
  | readNext hfr =>
    obtain ⟨k, out, hpipe⟩ := h.engines i
    obtain ⟨fr', hfr', heffect⟩ := readNext_effect he.table h.requests.cache hpipe.lines.current
      hpipe.lines.pending
    rw [hfr] at hfr'
    cases hfr'
    refine ⟨fun j => ?_, h.addrs, h.requests.readEffect he.table hi hpipe.lines heffect⟩
    by_cases hj : j = i
    · subst hj
      exact ⟨k, out, hpipe.cursor, hpipe.lines.readEffect he.table heffect, hpipe.rows⟩
    · obtain ⟨k', out', hpipe'⟩ := h.engines j
      exact ⟨k', out', hpipe'.cursor, hpipe'.lines.congr (heffect.sameEngine hj), hpipe'.rows⟩
  | passFtoSIMD =>
    obtain ⟨k, out, hpipe⟩ := h.engines i
    obtain ⟨heffect, hlines⟩ := hpipe.lines.passFtoSIMD h.requests.cache
    refine ⟨fun j => ?_, h.addrs, h.requests.passEffect hi heffect⟩
    by_cases hj : j = i
    · subst hj
      refine ⟨k, out ++ results (c.fr.passFtoSIMD g j).1, hpipe.cursor, hlines, ?_⟩
      simp only [Function.update_self]
      exact hlines.rowInv he.toPrepared hpipe.rows
    · obtain ⟨k', out', hpipe'⟩ := h.engines j
      refine ⟨k', out', hpipe'.cursor, hpipe'.lines.congr (heffect.sameEngine hj), ?_⟩
      simp only [Function.update_of_ne hj]
      exact hpipe'.rows
  | write =>
    refine ⟨fun j => ?_, h.addrs, h.requests.environment ?_⟩
    · obtain ⟨k, out, hpipe⟩ := h.engines j
      refine ⟨k, out, hpipe.cursor, hpipe.lines.congr ⟨rfl, rfl, rfl⟩, ?_⟩
      by_cases hj : j = i
      · subst hj
        simp only [Function.update_self]
        exact ⟨hpipe.rows.1, hpipe.rows.2, hpipe.rows.3, hpipe.rows.4, hpipe.rows.5⟩
      · simp only [Function.update_of_ne hj]
        exact hpipe.rows
    · refine inFlight_append rfl rfl fun t ht => ?_
      rw [List.mem_singleton.mp ht]
      rintro ⟨hread, -⟩
      cases hread

theorem engines_congr (h : Pipeline g c) (hgr : c'.gr = c.gr) (hsi : c'.si = c.si)
    (hfr : ∀ i, SameEngine i c.fr c'.fr) (i : ℕ) : ∃ k out, EnginePipe g i k out c' := by
  obtain ⟨k, out, hpipe⟩ := h.engines i
  exact ⟨k, out, by rw [hgr]; exact hpipe.cursor, hpipe.lines.congr (hfr i),
    by rw [hsi]; exact hpipe.rows⟩

end Pipeline

theorem Equipped.pipeline (he : Equipped inp g) {s : Config} (hs : s.Reachable g) :
    Pipeline g s.ctr := by
  refine Machine.Reachable.inv (I := fun s => Pipeline g s.ctr) hs (.init he) ?_
  intro t t' hreach h hstep
  cases hstep with
  | call hcall => exact h.call he (engine_lt_of_reachable hreach rfl) hcall
  | featureReceive =>
    exact ⟨h.engines_congr rfl rfl fun i => sameEngine_featureReceive i _, h.addrs,
      h.requests.featureReceive⟩
  | accept htq =>
    exact ⟨h.engines_congr rfl rfl fun i => ⟨rfl, rfl, rfl⟩, h.addrs,
      h.requests.environment (inFlight_accept htq)⟩
  | readReply hmem hreply =>
    exact ⟨h.engines_congr rfl rfl fun i => ⟨rfl, rfl, rfl⟩, h.addrs,
      h.requests.environment (inFlight_readReply hmem hreply)⟩
  | writeReply hmem =>
    exact ⟨h.engines_congr rfl rfl fun i => ⟨rfl, rfl, rfl⟩, h.addrs,
      h.requests.environment (inFlight_writeReply hmem)⟩
  | refuse => exact h
  | tick => exact h
  | again => exact h
  | exit => exact h

/-! ## Writes -/

namespace Simd

theorem pushed_mono (g : Globals) (i : ℕ) : Monotone (pushed g i) := fun _ _ h =>
  Finset.sum_le_sum_of_subset (Finset.range_subset_range.mpr h)

end Simd

namespace Equipped

/-- The row ends of all folds queue the budget. -/
theorem pushed_eq (he : Equipped inp g) (hrows : 0 < Simd.rowsOf g i) :
    Simd.pushed g i (g.archInfo.bf * Simd.rowsOf g i) = budget g i := by
  rw [Simd.pushed_bf hrows he.bf_pos he.one_fold, max_eq_right he.inside.le, budget]

/-- The last fold has something to write. -/
theorem width_pos (he : Equipped inp g) : 0 < (Simd.width g (g.archInfo.bf - 1)).toNat := by
  have hbf := he.bf_pos
  have hinside := he.inside
  unfold Simd.width
  split
  · have hlast : (g.archInfo.urb * (g.archInfo.bf - 1) : ℤ) =
        ((g.archInfo.bf - 1) * g.archInfo.urb : ℕ) := by
      push_cast [hbf]
      ring
    rw [hlast]
    omega
  · have hone : g.archInfo.bf = 1 := by omega
    rw [hone] at hinside
    rw [he.one_fold hone]
    omega

/-- The budget is queued with the last row end, and not before. -/
theorem pushed_lt (he : Equipped inp g) (hrows : 0 < Simd.rowsOf g i) {z : ℕ}
    (hz : z < g.archInfo.bf * Simd.rowsOf g i) : Simd.pushed g i z < budget g i := by
  obtain ⟨n, hn⟩ : ∃ n, g.archInfo.bf * Simd.rowsOf g i = n + 1 :=
    Nat.exists_eq_add_of_le' (Nat.mul_pos he.bf_pos hrows)
  have hfold : n / Simd.rowsOf g i = g.archInfo.bf - 1 := by
    rw [Nat.div_eq_iff hrows, Nat.sub_mul, Nat.one_mul, hn]
    have := Nat.le_mul_of_pos_left (Simd.rowsOf g i) he.bf_pos
    omega
  have hpos := he.width_pos
  calc Simd.pushed g i z ≤ Simd.pushed g i n := Simd.pushed_mono g i (by omega)
    _ < Simd.pushed g i (n + 1) := by
        rw [Simd.pushed, Simd.pushed, Finset.sum_range_succ, hfold]
        omega
    _ = budget g i := by rw [← hn, he.pushed_eq hrows]

end Equipped

/-- `total_write` is the sum of the budgets. -/
theorem Workload.totalWrite_eq (hw : Workload inp g) :
    g.totalWrite = ∑ i ∈ Finset.range g.archInfo.nOfEngine, budget g i ∧
      g.totalWrite < 2 ^ 64 ∧
      ∀ i < g.archInfo.nOfEngine, (g.dataIndex i).totalWrite = budget g i := by
  have heq : ∀ i < g.archInfo.nOfEngine, (g.dataIndex i).totalWrite = budget g i := by
    intro i hi
    have hlt := hw.fit i hi
    have hbudget : budget g i = workRows (inp.engineRows i) * inp.rowLines := by
      rw [budget, Simd.rowsOf, hw.geometry.rows_eq, hw.geometry.totalUrb_eq]
    rw [hw.geometry.totalWrite_eq, ← hbudget]
    exact int32_eq (Int.natCast_nonneg _) (by exact_mod_cast hlt)
  have hn := hw.engines_le
  obtain ⟨hsum, hle⟩ := sumTotalWrite_eq hn heq hw.fit
  rw [hw.sum_eq, hsum]
  exact ⟨rfl, by omega, heq⟩


/-- No engine queues more than its budget. -/
theorem EnginePipe.cnt_le (he : Equipped inp g) (h : EnginePipe g i k out c) :
    (c.si i).cnt ≤ budget g i := by
  have hle := h.lines.count_le he.toPrepared
  rw [h.rows.cnt_eq]
  rcases Nat.eq_zero_or_pos (Simd.rowsOf g i) with hzero | hrows
  · rw [hzero, Nat.mul_zero, Nat.le_zero] at hle
    rw [hle]
    exact Nat.zero_le _
  · rw [← he.pushed_eq hrows]
    exact Simd.pushed_mono g i hle

/-- An engine that has queued its budget has passed on all row ends. -/
theorem EnginePipe.count_eq (he : Equipped inp g) (h : EnginePipe g i k out c)
    (hcnt : (c.si i).cnt = budget g i) : out.count 0 = g.archInfo.bf * Simd.rowsOf g i := by
  have hle := h.lines.count_le he.toPrepared
  refine hle.antisymm (Nat.le_of_not_lt fun hlt => ?_)
  have hrows : 0 < Simd.rowsOf g i := by
    by_contra hzero
    rw [Nat.eq_zero_of_not_pos hzero, Nat.mul_zero] at hlt
    omega
  have := he.pushed_lt hrows hlt
  rw [h.rows.cnt_eq] at hcnt
  omega

theorem Pipeline.sum_cnt_le (hw : Workload inp g) (h : Pipeline g c) :
    ∑ i ∈ Finset.range g.archInfo.nOfEngine, (c.si i).cnt ≤ g.totalWrite := by
  rw [hw.totalWrite_eq.1]
  refine Finset.sum_le_sum fun i _ => ?_
  obtain ⟨k, out, hpipe⟩ := h.engines i
  exact hpipe.cnt_le hw.toEquipped

theorem Workload.writeInv (hw : Workload inp g) {s : Config} (hs : s.Reachable g) :
    WriteInv g s.ctr :=
  writeInv_of_sum_le hw.totalWrite_eq.2.1 (fun _ ht => (hw.pipeline ht).sum_cnt_le hw) hs

/-! ## The end of a run -/

theorem flatMap_planTokens_eq_nil {edges : List EdgeInfo}
    (h : edges.flatMap (planTokens g) = []) : edges = [] :=
  flatMap_tokens_eq_nil (fun ei => (plan g ei.dst ei.vFold).length) h

/-- An engine whose results are all passed on has empty queues. -/
theorem PlanInv.drained {edges : List EdgeInfo} {fr : FeatureReader}
    (h : PlanInv g edges out i fr) (hout : out = edges.flatMap (planTokens g)) :
    fr.pq i = [] ∧ (fr.frs i).pqReadNeed = true ∧ fr.fq i = [] := by
  obtain ⟨items, hfq, -, heq⟩ := h.queued
  rw [← hout, List.append_assoc, List.append_assoc, List.append_right_eq_self] at heq
  simp only [List.append_eq_nil_iff] at heq
  obtain ⟨hitems, hcur, hpq⟩ := heq
  refine ⟨flatMap_planTokens_eq_nil hpq, ?_, ?_⟩
  · by_contra hneed
    rw [Bool.not_eq_true] at hneed
    have hlt := (h.current hneed).place_lt
    rw [restTokens, if_neg (by simp [hneed]), List.drop_eq_nil_iff] at hcur
    simp only [lineTokens, List.length_append, List.length_replicate, List.length_singleton] at hcur
    omega
  · rw [hfq, List.map_eq_nil_iff.mp hitems]
    rfl

/-- Once all row ends of the stream are passed on, so are all results, and the graph reader is
at the end of the stream. -/
theorem EnginePipe.out_eq (he : Equipped inp g) (hi : i < g.archInfo.nOfEngine)
    (h : EnginePipe g i k out c) (hcount : out.count 0 = g.archInfo.bf * Simd.rowsOf g i) :
    g.archInfo.bf * (g.colIdx i).length ≤ k ∧
      out = (streamed g i k).flatMap (planTokens g) := by
  obtain ⟨init, hinit⟩ := stream_tokens (fun ei => (plan g ei.dst ei.vFold).length) (he.valid i)
    he.bf_pos (he.edge_pos i hi)
  have hinit : (refStream i (g.rowPtr i) (g.colIdx i) g.archInfo.bf).flatMap (planTokens g) =
      init ++ [0] := hinit
  have hpre := prefix_of_planInv h.lines
  have hstream : (streamed g i k).flatMap (planTokens g) ++
      ((refStream i (g.rowPtr i) (g.colIdx i) g.archInfo.bf).drop k).flatMap (planTokens g) =
        init ++ [0] := by
    rw [← hinit, ← List.flatMap_append, streamed, List.take_append_drop]
  have hall : out = init ++ [0] := by
    refine eq_of_prefix_of_count (hpre.trans ⟨_, hstream⟩) ?_
    rw [hcount, ← hinit, count_planTokens, he.toPrepared.countP_isLast]
  obtain ⟨rest, hrest⟩ := hpre
  -- the results due for the stream are `out`, so that nothing follows it
  rw [← hrest, ← hall, List.append_assoc, List.append_right_eq_self, List.append_eq_nil_iff]
    at hstream
  refine ⟨?_, by rw [← hrest, hstream.1, List.append_nil]⟩
  have hlen := List.drop_eq_nil_iff.mp (flatMap_planTokens_eq_nil hstream.2)
  rwa [length_refStream (he.valid i)] at hlen

/-- An engine that has queued its budget is done but for its write queue. -/
theorem EnginePipe.done_of_cnt (he : Equipped inp g) (hi : i < g.archInfo.nOfEngine)
    (h : EnginePipe g i k out c) (hcnt : (c.si i).cnt = budget g i) :
    k = g.archInfo.bf * (g.colIdx i).length ∧
      c.fr.pq i = [] ∧ (c.fr.frs i).pqReadNeed = true ∧ c.fr.fq i = [] := by
  obtain ⟨hk, hout⟩ := h.out_eq he hi (h.count_eq he hcnt)
  refine ⟨?_, h.lines.drained hout⟩
  rcases h.cursor with ⟨-, hcursor⟩ | ⟨hbf, -⟩
  · exact le_antisymm hcursor.le hk
  · exact absurd hbf he.bf_pos.ne'

/-- When the counter is zero, every unit has queued its budget and issued it. -/
theorem Pipeline.of_totalWrite_zero (hw : Workload inp g) (h : Pipeline g c) (hwrite : WriteInv g c)
    (hzero : c.totalWrite = 0) :
    ∀ i < g.archInfo.nOfEngine, (c.si i).cnt = budget g i ∧ (c.si i).wq = [] := by
  have hsum := hw.totalWrite_eq.1
  have hle := h.sum_cnt_le hw
  have hcons := hwrite.conserved
  have htotal := hwrite.total
  have hcnt : ∀ i ∈ Finset.range g.archInfo.nOfEngine, (c.si i).cnt = budget g i := by
    refine (Finset.sum_eq_sum_iff_of_le fun i _ => ?_).mp (by omega)
    obtain ⟨k, out, hpipe⟩ := h.engines i
    exact hpipe.cnt_le hw.toEquipped
  have hwq : ∀ i ∈ Finset.range g.archInfo.nOfEngine, (c.si i).wq.length = 0 :=
    Finset.sum_eq_zero_iff.mp (by omega)
  exact fun i hi => ⟨hcnt i (Finset.mem_range.mpr hi),
    List.length_eq_zero_iff.mp (hwq i (Finset.mem_range.mpr hi))⟩

end Sgcn
