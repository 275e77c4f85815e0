-- SUMMARY: Edges, lines, row ends and writes flow through the units of every engine without loss, in every run.
import Sgcn.Graph.Stream
import Sgcn.Output.Simd
import Sgcn.System.Calls

/-!
# The flow through an engine

A graph reader, the feature reader's queues of the engine and its SIMD unit form
a pipeline. What one unit has handed over is what the next one has taken, in
every state of a run and whatever DRAMsim3 does (`EngineFlow`).
-/

namespace Sgcn

open FeatureReader

variable {inp : Input} {g : Globals}

/-! ## Row ends -/

theorem count_lineTokens (n : ℕ) (isLast : Bool) :
    (lineTokens n isLast).count 0 = if isLast then 1 else 0 := by
  unfold lineTokens
  rw [List.count_append, List.count_replicate]
  cases isLast <;> simp

/-- The row ends passed on for a list of edges are as many as its last edges, however many
lines an edge has. -/
theorem count_tokens (lines : EdgeInfo → ℕ) (edges : List EdgeInfo) :
    (edges.flatMap fun ei => lineTokens (lines ei) ei.isLast).count 0 =
      edges.countP EdgeInfo.isLast := by
  induction edges with
  | nil => rfl
  | cons ei edges ih =>
    rw [List.flatMap_cons, List.count_append, ih, List.countP_cons, count_lineTokens, Nat.add_comm]

theorem count_edgeTokens (g : Globals) (edges : List EdgeInfo) :
    (edges.flatMap (edgeTokens g)).count 0 = edges.countP EdgeInfo.isLast :=
  count_tokens (fun ei => (sliceLines g ei.dst ei.vFold).length) edges

theorem countP_flatMap_eq {α β : Type*} {p : β → Bool} {q : α → Bool} {f : α → List β} {l : List α}
    (h : ∀ a ∈ l, (f a).countP p = if q a then 1 else 0) : (l.flatMap f).countP p = l.countP q := by
  induction l with
  | nil => rfl
  | cons a l ih =>
    rw [List.flatMap_cons, List.countP_append, h a (by simp), List.countP_cons,
      ih fun b hb => h b (List.mem_cons_of_mem a hb), Nat.add_comm]

/-- A row with edges has one last edge. -/
theorem countP_isLast_row (id fold lo n : ℕ) (col : ℕ → ℕ) :
    ((List.range' lo n).map fun j =>
      (⟨id, decide (j + 1 = lo + n), col j, fold⟩ : EdgeInfo)).countP EdgeInfo.isLast =
      if 0 < n then 1 else 0 := by
  cases n with
  | zero => rfl
  | succ n =>
    rw [List.range'_concat, List.map_append, List.countP_append, if_pos n.succ_pos]
    have hinit : ((List.range' lo n 1).map fun j =>
        (⟨id, decide (j + 1 = lo + (n + 1)), col j, fold⟩ : EdgeInfo)).countP
          EdgeInfo.isLast = 0 := by
      rw [List.countP_eq_zero]
      rintro ei hei
      obtain ⟨j, hj, rfl⟩ := List.mem_map.mp hei
      have := (List.mem_range'_1.mp hj).2
      simp only [decide_eq_true_eq]
      omega
    rw [hinit]
    simp [Nat.add_assoc]

/-- A fold has one last edge per row with edges. -/
theorem countP_isLast_refFold {rowPtr colIdx : List ℕ} (hv : ValidCsr rowPtr colIdx)
    (id fold : ℕ) :
    (refFold id rowPtr colIdx fold).countP EdgeInfo.isLast = workRows (csrRows rowPtr colIdx) := by
  rw [workRows, csrRows, List.countP_map]
  refine countP_flatMap_eq fun r hr => ?_
  have hlt : r + 1 < rowPtr.length := by
    have := List.mem_range.mp hr
    omega
  have hlen := hv.length_slice hlt
  have hmono := hv.vget_mono (Nat.le_succ r) hlt
  have hrow := countP_isLast_row id fold (vget rowPtr r) (vget rowPtr (r + 1) - vget rowPtr r)
    (vget colIdx)
  rw [Nat.add_sub_cancel' hmono, ← hlen] at hrow
  rw [← hlen, hrow]
  refine if_congr ?_ rfl rfl
  rw [List.length_pos_iff, Function.comp_apply, Bool.not_eq_true', List.isEmpty_eq_false_iff]

/-- The stream of an engine has `bf` last edges per row with edges. -/
theorem countP_isLast_refStream {rowPtr colIdx : List ℕ} (hv : ValidCsr rowPtr colIdx)
    (id bf : ℕ) : (refStream id rowPtr colIdx bf).countP EdgeInfo.isLast =
      bf * workRows (csrRows rowPtr colIdx) := by
  induction bf with
  | zero => simp [refStream]
  | succ bf ih =>
    rw [refStream, List.range_succ, List.flatMap_append, List.countP_append, ← refStream, ih,
      Nat.succ_mul, List.flatMap_singleton, countP_isLast_refFold hv]

/-! ## The invariant of an engine -/

namespace GraphReader

variable {r : GraphReader} {m : Memory}

/-- What the edges that a reader passes on depend on. -/
def cursors (r : GraphReader) : ℕ × ℤ × ℤ × ℕ × ℕ × ℕ × ℕ :=
  (r.curRowIdx, r.remainEdge, r.rowOverflow, r.rowEndIdx, r.colEndIdx, r.curColIdx, r.gPassCount)

theorem cursors_vertexRequest (g : Globals) (id : ℕ) (r : GraphReader) (m : Memory) :
    (r.vertexRequest g id m).1.cursors = r.cursors := by
  rw [vertexRequest_eq]
  split <;> rfl

theorem cursors_edgeRequest (g : Globals) (id : ℕ) (r : GraphReader) (m : Memory) :
    (r.edgeRequest g id m).1.cursors = r.cursors := by
  rw [edgeRequest_eq]
  split <;> rfl

end GraphReader

/-- The reader has passed on `k` edges. When there are no folds the run is over
before anything arrives. -/
def CursorOk (g : Globals) (i k : ℕ) (r : GraphReader) : Prop :=
  (0 < g.archInfo.bf ∧ GraphReader.CursorInv g i k r) ∨
    (g.archInfo.bf = 0 ∧ k = 0 ∧ r.rowEndIdx = 0 ∧ r.rowOverflow = 0 ∧ r.remainEdge = 0 ∧
      r.curColIdx = 0 ∧ r.gPassCount = 0)

/-- The first `k` edges of the stream of engine `i`. -/
def streamed (g : Globals) (i k : ℕ) : List EdgeInfo :=
  (refStream i (g.rowPtr i) (g.colIdx i) g.archInfo.bf).take k

/-- The graph reader has passed on `k` edges, the feature reader has made `out` of
them, and the SIMD unit has counted the row ends in `out`. -/
structure EngineFlow (g : Globals) (i k : ℕ) (out : List ℤ) (c : Controller) : Prop where
  cursor : CursorOk g i k (c.gr i)
  lines : LineInv g (streamed g i k) out i c.fr
  rows : Simd.RowInv g i (out.count 0) (c.si i)

/-- Every engine is in such a state. -/
def FlowInv (g : Globals) (c : Controller) : Prop := ∀ i, ∃ k out, EngineFlow g i k out c

variable {c c' : Controller} {i j k : ℕ} {out : List ℤ}

theorem CursorOk.congr {r r' : GraphReader} (h : CursorOk g i k r) (heq : r'.cursors = r.cursors) :
    CursorOk g i k r' := by
  simp only [GraphReader.cursors, Prod.mk.injEq] at heq
  obtain ⟨hrow, hrem, hov, hend, hcolEnd, hcol, hpass⟩ := heq
  rcases h with ⟨hbf, ⟨w, hw⟩, hle, hpos, hcur, hlt⟩ | ⟨hbf, hk, hidle⟩
  · refine .inl ⟨hbf, ⟨w, hw.congr hrow hrem⟩, ?_, ?_, ?_, ?_⟩
    · rw [hcolEnd]; exact hle
    · rw [hpass, hcol]; exact hpos
    · rw [hcol]; exact hcur
    · rw [hpass]; exact hlt
  · refine .inr ⟨hbf, hk, ?_⟩
    rw [hend, hov, hrem, hcol, hpass]
    exact hidle

theorem FlowInv.init (hp : PreparedXCmp inp g) : FlowInv g (.init g) := by
  intro i
  refine ⟨0, [], ?_, LineInv.init g i, Simd.RowInv.init g i⟩
  rcases Nat.eq_zero_or_pos g.archInfo.bf with hbf | hbf
  · exact .inr ⟨hbf, rfl, rfl, rfl, rfl, rfl, rfl⟩
  · exact .inl ⟨hbf, .init (hp.valid i) hbf⟩

/-- A reply moves no cursor; without folds there is none. -/
theorem CursorOk.graphReceive {r : GraphReader} (h : CursorOk g i k r) {reci : RType}
    (hreci : g.archInfo.bf = 0 → reci = .empty) : CursorOk g i k (r.graphReceive g i reci) := by
  rcases h with ⟨hbf, hinv⟩ | ⟨hbf, hk, hidle⟩
  · exact .inl ⟨hbf, hinv.graphReceive reci⟩
  · obtain ⟨isOver, heq⟩ := GraphReader.graphReceive_eq g i r reci
    rw [heq, hreci hbf]
    exact .inr ⟨hbf, hk, hidle⟩

/-- Every edge of the stream names a row and a fold of the table. -/
theorem Prepared.edgeOk (hp : Prepared inp g) (hk : k < g.archInfo.bf * (g.colIdx i).length) :
    EdgeOk g (edgeAt i (g.rowPtr i) (g.colIdx i) k) := by
  have hedge : 0 < (g.colIdx i).length := by
    by_contra hzero
    rw [Nat.eq_zero_of_not_pos hzero] at hk
    simp at hk
  have hmod := Nat.mod_lt k hedge
  refine ⟨?_, (Nat.div_lt_iff_lt_mul hedge).mpr hk⟩
  simp only [edgeAt, edgeOf, vget_eq_getElem hmod]
  exact hp.col_lt (List.getElem_mem hmod)

/-- `NextFeature` passes on the next edge of the stream or nothing. -/
theorem CursorOk.next (hp : Prepared inp g) {r r' : GraphReader} (h : CursorOk g i k r)
    {next : Option EdgeInfo} (hnext : r.nextFeature g i = some (r', next)) :
    (next = none ∧ CursorOk g i k r') ∨
      ∃ ei, next = some ei ∧ ei.id = i ∧ EdgeOk g ei ∧
        streamed g i (k + 1) = streamed g i k ++ [ei] ∧ CursorOk g i (k + 1) r' := by
  rcases h with ⟨hbf, hinv⟩ | ⟨hbf, hk, hend, hov, hrem, hstart⟩
  · rcases GraphReader.nextFeature_cursor (hp.valid i) hinv hnext with ⟨hnone, hinv'⟩ | ⟨hei, hinv'⟩
    · exact .inl ⟨hnone, .inl ⟨hbf, hinv'⟩⟩
    · refine .inr ⟨_, hei, rfl, hp.edgeOk hinv'.le, ?_, .inl ⟨hbf, hinv'⟩⟩
      rw [streamed, streamed, take_refStream (hp.valid i) hinv'.le,
        take_refStream (hp.valid i) hinv.le, List.range_succ, List.map_append]
      rfl
  · unfold GraphReader.nextFeature GraphReader.enterRows GraphReader.ready at hnext
    rw [if_neg (by omega), if_neg (by omega)] at hnext
    simp only [Option.bind_some, hrem, lt_irrefl, false_and, decide_false, Bool.false_eq_true,
      if_false, Option.some.injEq, Prod.mk.injEq] at hnext
    obtain ⟨rfl, rfl⟩ := hnext
    exact .inl ⟨rfl, .inr ⟨hbf, hk, hend, hov, hrem, hstart⟩⟩

theorem CursorOk.nextFeature (hp : PreparedXCmp inp g) {r r' : GraphReader}
    (h : CursorOk g i k r) {next : Option EdgeInfo} (hnext : r.nextFeature g i = some (r', next)) :
    (next = none ∧ CursorOk g i k r') ∨
      ∃ ei, next = some ei ∧ ei.id = i ∧ EdgeOk g ei ∧
        streamed g i (k + 1) = streamed g i k ++ [ei] ∧ CursorOk g i (k + 1) r' :=
  h.next hp.toPrepared hnext

/-- The stream of an engine ends `bf` times as many rows as the SIMD unit counts. -/
theorem Prepared.countP_isLast (hp : Prepared inp g) (i : ℕ) :
    (refStream i (g.rowPtr i) (g.colIdx i) g.archInfo.bf).countP EdgeInfo.isLast =
      g.archInfo.bf * Simd.rowsOf g i := by
  rw [countP_isLast_refStream (hp.valid i), Simd.rowsOf, hp.workRows_eq, hp.rowPtr_eq,
    hp.colIdx_eq, csrRows_rowPtrOf]

theorem countP_isLast_stream (hp : PreparedXCmp inp g) (i : ℕ) :
    (refStream i (g.rowPtr i) (g.colIdx i) g.archInfo.bf).countP EdgeInfo.isLast =
      g.archInfo.bf * Simd.rowsOf g i :=
  hp.toPrepared.countP_isLast i

theorem prefix_of_lineInv {edges : List EdgeInfo} {fr : FeatureReader}
    (h : LineInv g edges out i fr) : out <+: edges.flatMap (edgeTokens g) := by
  obtain ⟨items, -, -, heq⟩ := h.queued
  rw [← heq, List.append_assoc, List.append_assoc]
  exact List.prefix_append _ _

/-- No more row ends are passed on than the stream of the engine has. -/
theorem count_zero_le (hp : PreparedXCmp inp g) {fr : FeatureReader}
    (h : LineInv g (streamed g i k) out i fr) :
    out.count 0 ≤ g.archInfo.bf * Simd.rowsOf g i := by
  calc out.count 0 ≤ ((streamed g i k).flatMap (edgeTokens g)).count 0 :=
        (prefix_of_lineInv h).sublist.count_le 0
    _ = (streamed g i k).countP EdgeInfo.isLast := count_edgeTokens g _
    _ ≤ (refStream i (g.rowPtr i) (g.colIdx i) g.archInfo.bf).countP EdgeInfo.isLast :=
        (List.take_sublist _ _).countP_le
    _ = g.archInfo.bf * Simd.rowsOf g i := countP_isLast_stream hp i

/-- The results of one call. -/
def results (pass : ℤ) : List ℤ := if pass = -1 then [] else [pass]

/-- A result passed on moves the SIMD unit on. A row end can only be one of a row,
so that the unit has rows. -/
theorem rowInv_getFeature (hp : PreparedXCmp inp g) {pass : ℤ} {fr : FeatureReader} {si : Simd}
    (hrows : Simd.RowInv g i (out.count 0) si)
    (hlines : LineInv g (streamed g i k) (out ++ results pass) i fr) :
    Simd.RowInv g i ((out ++ results pass).count 0) (si.getFeature g pass) := by
  rw [List.count_append]
  by_cases hpass : pass = 0
  · subst hpass
    have hle := count_zero_le hp hlines
    rw [List.count_append] at hle
    have hone : (results 0).count 0 = 1 := rfl
    rw [hone] at hle ⊢
    have hpos : 0 < Simd.rowsOf g i := by
      by_contra hzero
      rw [Nat.eq_zero_of_not_pos hzero, Nat.mul_zero] at hle
      omega
    exact (hrows.rowEnd hpos).1
  · have hzero : (results pass).count 0 = 0 := by
      unfold results
      split
      · rfl
      · exact List.count_singleton.trans (if_neg (by simpa using hpass))
    rw [hzero, Simd.getFeature_of_ne hpass]
    exact hrows

/-- A change of one graph reader that keeps its cursors. -/
theorem FlowInv.setGr (h : FlowInv g c) {r : GraphReader}
    (hr : ∀ k, CursorOk g i k (c.gr i) → CursorOk g i k r) (m : Memory) :
    FlowInv g (c.setGr i r m) := by
  intro j
  obtain ⟨k, out, hflow⟩ := h j
  refine ⟨k, out, ?_, hflow.lines.congr ⟨rfl, rfl, rfl⟩, hflow.rows⟩
  by_cases hj : j = i
  · subst hj
    simp only [Controller.setGr, Function.update_self]
    exact hr k hflow.cursor
  · simp only [Controller.setGr, Function.update_of_ne hj]
    exact hflow.cursor

/-- A new edge of engine `i` goes from its graph reader to the feature reader. -/
theorem FlowInv.enterFtoList {r : GraphReader} {ei : EdgeInfo}
    (h : FlowInv g c) (hid : ei.id = i) (hei : EdgeOk g ei)
    (hr : ∀ k, CursorOk g i k (c.gr i) →
      streamed g i (k + 1) = streamed g i k ++ [ei] ∧ CursorOk g i (k + 1) r) :
    FlowInv g { c with gr := Function.update c.gr i r, fr := c.fr.enterFtoList ei } := by
  intro j
  obtain ⟨k, out, hflow⟩ := h j
  by_cases hj : j = i
  · subst hj
    obtain ⟨hstream, hcursor⟩ := hr k hflow.cursor
    refine ⟨k + 1, out, ?_, ?_, hflow.rows⟩
    · simpa using hcursor
    · rw [hstream]
      subst hid
      exact hflow.lines.enterFtoList hei
  · refine ⟨k, out, ?_, hflow.lines.congr (sameEngine_enterFtoList (hid.trans_ne (Ne.symm hj))),
      hflow.rows⟩
    simpa [hj] using hflow.cursor

/-- A call for engine `i` leaves the other engines alone, and moves what it takes
from one unit of engine `i` into the next. -/
theorem FlowInv.call (hp : PreparedXCmp inp g) (hrq : g.archInfo.bf = 0 → ∀ i, c.fr.mem.rq i = [])
    (h : FlowInv g c) {call : EngineCall} (hcall : c.call g i call = some c') : FlowInv g c' := by
  cases call_effect hcall with
  | skip => exact h
  | vertexRequest =>
    exact h.setGr (fun k hk => hk.congr (GraphReader.cursors_vertexRequest g i _ _)) _
  | edgeRequest =>
    exact h.setGr (fun k hk => hk.congr (GraphReader.cursors_edgeRequest g i _ _)) _
  | graphReceive =>
    refine h.setGr (fun k hk => hk.graphReceive fun hbf => ?_) _
    simp only [Memory.getGraph, hrq hbf i]
  | noFeature hnext =>
    refine h.setGr (fun k hk => ?_) c.fr.mem
    rcases hk.nextFeature hp hnext with ⟨-, hk'⟩ | ⟨ei, hei, -⟩
    · exact hk'
    · cases hei
  | nextFeature hnext =>
    obtain ⟨k, out, hflow⟩ := h i
    rcases hflow.cursor.nextFeature hp hnext with ⟨hnone, -⟩ | ⟨ei', hei', hid, hok, -, -⟩
    · cases hnone
    · cases hei'
      refine h.enterFtoList hid hok fun k hk => ?_
      rcases hk.nextFeature hp hnext with ⟨hnone, -⟩ | ⟨ei'', hei'', -, -, hstream, hk'⟩
      · cases hnone
      · cases hei''
        exact ⟨hstream, hk'⟩
  | readNext hfr =>
    intro j
    obtain ⟨k, out, hflow⟩ := h j
    by_cases hj : j = i
    · subst hj
      obtain ⟨fr', hfr', hlines, -⟩ := hflow.lines.readNext hp.mode_eq hp.table
      rw [hfr] at hfr'
      cases hfr'
      exact ⟨k, out, hflow.cursor, hlines, hflow.rows⟩
    · obtain ⟨k', out', hflow'⟩ := h i
      obtain ⟨fr', hfr', -, hsame⟩ := hflow'.lines.readNext hp.mode_eq hp.table
      rw [hfr] at hfr'
      cases hfr'
      exact ⟨k, out, hflow.cursor, hflow.lines.congr (hsame j hj), hflow.rows⟩
  | passFtoSIMD =>
    intro j
    obtain ⟨k, out, hflow⟩ := h j
    by_cases hj : j = i
    · subst hj
      obtain ⟨hlines, -⟩ := hflow.lines.passFtoSIMD
      refine ⟨k, out ++ results (c.fr.passFtoSIMD g j).1, hflow.cursor, hlines, ?_⟩
      simp only [Function.update_self]
      exact rowInv_getFeature hp hflow.rows hlines
    · obtain ⟨k', out', hflow'⟩ := h i
      obtain ⟨-, hsame⟩ := hflow'.lines.passFtoSIMD
      refine ⟨k, out, hflow.cursor, hflow.lines.congr (hsame j hj), ?_⟩
      simp only [Function.update_of_ne hj]
      exact hflow.rows
  | write =>
    intro j
    obtain ⟨k, out, hflow⟩ := h j
    refine ⟨k, out, hflow.cursor, hflow.lines.congr ⟨rfl, rfl, rfl⟩, ?_⟩
    by_cases hj : j = i
    · subst hj
      simp only [Function.update_self]
      exact ⟨hflow.rows.1, hflow.rows.2, hflow.rows.3, hflow.rows.4, hflow.rows.5⟩
    · simp only [Function.update_of_ne hj]
      exact hflow.rows

/-! ## Runs without folds -/

/-- DRAMsim3 is being ticked, or the cycle is over. -/
def Pc.Replying : Pc → Prop
  | .updateCycle | .loopTest | .done => True
  | _ => False

/-- Without folds nothing is to be written, and the run ends after one cycle,
before any reply is looked at. -/
structure NoFold (s : Config) : Prop where
  totalWrite_eq : s.ctr.totalWrite = 0
  wq_eq : ∀ i, (s.ctr.si i).wq = []
  tq_read : ∀ t ∈ s.ctr.fr.mem.tq, t.isWrite = false
  dram_read : ∀ t ∈ s.ctr.dram, t.isWrite = false
  rq_eq : s.pc.Replying ∨ ∀ i, s.ctr.fr.mem.rq i = []

theorem NoFold.init (hp : PreparedXCmp inp g) (hbf : g.archInfo.bf = 0) : NoFold (.init g) where
  totalWrite_eq := by
    have hurb : g.dataInfo.totalUrb = 0 := by rw [hp.table.totalUrb_eq, hbf, Nat.zero_mul]
    have hzero : ∀ n, sumTotalWrite g.dataIndex n = 0 := by
      intro n
      induction n with
      | zero => rfl
      | succ n ih =>
        rw [sumTotalWrite, ih, hp.totalWrite_eq, hurb, Nat.mul_zero]
        rfl
    exact hp.sum_eq.trans (hzero _)
  wq_eq := fun _ => rfl
  tq_read := by simp [Config.init, Controller.init, FeatureReader.init, Memory.init]
  dram_read := by simp [Config.init, Controller.init]
  rq_eq := .inr fun _ => rfl

theorem NoFold.call (hp : PreparedXCmp inp g) (hbf : g.archInfo.bf = 0) (hflow : FlowInv g c)
    {call : EngineCall} (h : NoFold ⟨.engine i call, c⟩) (hcall : c.call g i call = some c') :
    NoFold ⟨.next g i call, c'⟩ := by
  by_cases hwrite : call = .write
  · subst hwrite
    rcases call_write hcall with rfl | ⟨a, rest, hwq, -⟩
    · exact ⟨h.1, h.2, h.3, h.4, .inr (h.rq_eq.resolve_left id)⟩
    · have hnil : (c.si i).wq = [] := h.wq_eq i
      rw [hnil] at hwq
      cases hwq
  · have hframe := call_frame hwrite hcall
    obtain ⟨l, hl⟩ := hframe.tq_eq
    refine ⟨hframe.totalWrite_eq.trans h.totalWrite_eq, fun j => ?_, fun t ht => ?_, ?_, ?_⟩
    · by_cases hpass : call = .passFtoSIMD
      · subst hpass
        simp only [Controller.call, Option.some.injEq] at hcall
        subst hcall
        -- there is no row end to pass on
        obtain ⟨k, out, hengine⟩ := hflow i
        have hlines := hengine.lines.passFtoSIMD.1
        have hle := count_zero_le hp hlines
        rw [hbf, Nat.zero_mul, Nat.le_zero, List.count_eq_zero] at hle
        have hne : (c.fr.passFtoSIMD g i).1 ≠ 0 := by
          intro hzero
          rw [hzero] at hle
          exact hle (List.mem_append_right _ (List.mem_singleton_self 0))
        rw [Simd.getFeature_of_ne hne, Function.update_eq_self]
        exact h.wq_eq j
      · rw [call_si hpass hwrite hcall]
        exact h.wq_eq j
    · simp only [hl, List.mem_append, List.mem_map] at ht
      rcases ht with ht | ⟨a, -, rfl⟩
      · exact h.tq_read t ht
      · rfl
    · simp only [hframe.dram_eq]
      exact h.dram_read
    · refine .inr fun j => ?_
      have hsuffix := hframe.rq_suffix j
      rw [h.rq_eq.resolve_left id j] at hsuffix
      exact List.suffix_nil.mp hsuffix

/-! ## Every run -/

theorem FlowInv.congr (h : FlowInv g c) (hgr : c'.gr = c.gr) (hsi : c'.si = c.si)
    (hfr : ∀ i, SameEngine i c.fr c'.fr) : FlowInv g c' := by
  intro i
  obtain ⟨k, out, hflow⟩ := h i
  exact ⟨k, out, by rw [hgr]; exact hflow.cursor, hflow.lines.congr (hfr i),
    by rw [hsi]; exact hflow.rows⟩

/-- The flow is kept in every state of a run. -/
theorem flow_of_reachable (hp : PreparedXCmp inp g) {s : Config} (hs : s.Reachable g) :
    FlowInv g s.ctr ∧ (g.archInfo.bf = 0 → NoFold s) := by
  refine Machine.Reachable.inv (I := fun s => FlowInv g s.ctr ∧ (g.archInfo.bf = 0 → NoFold s))
    hs ⟨.init hp, .init hp⟩ ?_
  rintro t t' - ⟨hflow, hnone⟩ hstep
  cases hstep with
  | call hcall =>
    exact ⟨hflow.call hp (fun hbf => (hnone hbf).rq_eq.resolve_left id) hcall,
      fun hbf => (hnone hbf).call hp hbf hflow hcall⟩
  | featureReceive =>
    refine ⟨hflow.congr rfl rfl fun i => sameEngine_featureReceive i _, fun hbf => ?_⟩
    obtain ⟨htotal, hwq, htq, hdram, hrq⟩ := hnone hbf
    rw [featureReceive_eq]
    exact ⟨htotal, hwq, htq, hdram, .inr (hrq.resolve_left id)⟩
  | @accept c t rest htq' =>
    refine ⟨hflow.congr rfl rfl fun i => ⟨rfl, rfl, rfl⟩, fun hbf => ?_⟩
    obtain ⟨htotal, hwq, htq, hdram, hrq⟩ := hnone hbf
    simp only [htq', List.mem_cons] at htq
    refine ⟨htotal, hwq, fun t' ht' => htq t' (.inr ht'), fun t' ht' => ?_, hrq⟩
    rcases Multiset.mem_cons.mp ht' with rfl | ht'
    · exact htq _ (.inl rfl)
    · exact hdram t' ht'
  | refuse => exact ⟨hflow, fun hbf => ⟨(hnone hbf).1, (hnone hbf).2, (hnone hbf).3, (hnone hbf).4,
      .inl trivial⟩⟩
  | readReply hmem hreply =>
    refine ⟨hflow.congr rfl rfl fun i => ⟨rfl, rfl, rfl⟩, fun hbf => ?_⟩
    obtain ⟨htotal, hwq, htq, hdram, -⟩ := hnone hbf
    refine ⟨htotal, hwq, ?_, fun t' ht' => hdram t' (Multiset.mem_of_mem_erase ht'), .inl trivial⟩
    simp only [(readCompleteCallback_frame hreply).1]
    exact htq
  | writeReply hmem =>
    refine ⟨hflow.congr rfl rfl fun i => ⟨rfl, rfl, rfl⟩, fun hbf => ?_⟩
    cases (hnone hbf).dram_read _ hmem
  | tick => exact ⟨hflow, fun hbf => ⟨(hnone hbf).1, (hnone hbf).2, (hnone hbf).3, (hnone hbf).4,
      .inl trivial⟩⟩
  | again hne => exact ⟨hflow, fun hbf => absurd (hnone hbf).totalWrite_eq hne⟩
  | exit => exact ⟨hflow, fun hbf => ⟨(hnone hbf).1, (hnone hbf).2, (hnone hbf).3, (hnone hbf).4,
      .inl trivial⟩⟩

end Sgcn
