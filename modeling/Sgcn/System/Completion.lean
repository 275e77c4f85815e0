-- SUMMARY: The write counter of the main loop never runs past zero, and is zero only when every engine is done.
import Sgcn.System.Flow

/-!
# Completion

`GCNInference` stops when the global count of outstanding writes is zero. Every
write that a SIMD unit has queued is in its queue, in the transaction queue,
inside DRAMsim3 or acknowledged (`WriteInv`), and no unit queues more than its
budget. So the count cannot reach zero before every engine has passed on all of
its edges.
-/

namespace Sgcn

open FeatureReader

variable {inp : Input} {g : Globals} {c c' : Controller} {i k : ℕ} {out : List ℤ}

/-! ## The end of the stream -/

theorem lineTokens_ne_nil (n : ℕ) (isLast : Bool) : lineTokens n isLast ≠ [] := by
  simp [lineTokens]

/-- The results due for the whole stream of an engine with edges end in a row end. -/
theorem stream_tokens (lines : EdgeInfo → ℕ) (hv : ValidCsr (g.rowPtr i) (g.colIdx i))
    (hbf : 0 < g.archInfo.bf) (hedge : 0 < (g.colIdx i).length) :
    ∃ init, ((refStream i (g.rowPtr i) (g.colIdx i) g.archInfo.bf).flatMap fun ei =>
      lineTokens (lines ei) ei.isLast) = init ++ [0] := by
  obtain ⟨n, hn⟩ : ∃ n, g.archInfo.bf * (g.colIdx i).length = n + 1 :=
    Nat.exists_eq_add_of_le' (Nat.mul_pos hbf hedge)
  have hlast : (edgeAt i (g.rowPtr i) (g.colIdx i) n).isLast = true := by
    have hmod : n % (g.colIdx i).length + 1 = (g.colIdx i).length := by
      rcases Rounds.succ_cases hedge n with ⟨-, -, hmod⟩ | ⟨heq, -, -⟩
      · rw [← hn, Nat.mul_mod_left] at hmod
        omega
      · exact heq
    simp only [edgeAt, edgeOf, hmod, decide_eq_true_eq]
    exact List.mem_of_getLast? hv.last
  rw [refStream_eq hv, hn, List.range_succ, List.map_append, List.flatMap_append, List.map_singleton,
    List.flatMap_singleton, hlast, lineTokens, if_pos rfl, ← List.append_assoc]
  exact ⟨_, rfl⟩

theorem stream_tokens_eq (hp : PreparedXCmp inp g) (hbf : 0 < g.archInfo.bf)
    (hedge : 0 < (g.colIdx i).length) :
    ∃ init, (refStream i (g.rowPtr i) (g.colIdx i) g.archInfo.bf).flatMap (edgeTokens g) =
      init ++ [0] :=
  stream_tokens (fun ei => (sliceLines g ei.dst ei.vFold).length) (hp.valid i) hbf hedge

/-- Nothing is left of a list of results once all its row ends are passed on. -/
theorem eq_of_prefix_of_count {out init : List ℤ} (hpre : out <+: init ++ [0])
    (hcount : out.count 0 = (init ++ [0]).count 0) : out = init ++ [0] := by
  rcases List.prefix_concat_iff.mp hpre with heq | hinit
  · exact heq
  · have := hinit.sublist.count_le 0
    rw [List.count_append] at hcount
    simp at hcount
    omega

theorem flatMap_tokens_eq_nil (lines : EdgeInfo → ℕ) {edges : List EdgeInfo}
    (h : (edges.flatMap fun ei => lineTokens (lines ei) ei.isLast) = []) : edges = [] := by
  cases edges with
  | nil => rfl
  | cons ei edges =>
    rw [List.flatMap_cons, List.append_eq_nil_iff] at h
    exact absurd h.1 (lineTokens_ne_nil _ _)

theorem flatMap_edgeTokens_eq_nil {edges : List EdgeInfo}
    (h : edges.flatMap (edgeTokens g) = []) : edges = [] :=
  flatMap_tokens_eq_nil (fun ei => (sliceLines g ei.dst ei.vFold).length) h

/-- An engine whose results are all passed on has empty queues. -/
theorem drained_of_lineInv {edges : List EdgeInfo} {fr : FeatureReader}
    (h : LineInv g edges out i fr) (hout : out = edges.flatMap (edgeTokens g)) :
    fr.pq i = [] ∧ (fr.frs i).pqReadNeed = true ∧ fr.fq i = [] := by
  obtain ⟨items, hfq, hok, heq⟩ := h.queued
  rw [← hout, List.append_assoc, List.append_assoc, List.append_right_eq_self] at heq
  simp only [List.append_eq_nil_iff] at heq
  obtain ⟨hitems, hcur, hpq⟩ := heq
  refine ⟨flatMap_edgeTokens_eq_nil hpq, ?_, ?_⟩
  · by_contra hneed
    rw [Bool.not_eq_true] at hneed
    have hlt := (h.current hneed).cur_lt
    rw [currentTokens, if_neg (by simp [hneed]), List.drop_eq_nil_iff] at hcur
    simp only [lineTokens, List.length_append, List.length_replicate, List.length_singleton] at hcur
    omega
  · rw [hfq, List.map_eq_nil_iff.mp hitems]
    rfl

/-- Once all row ends of the stream are passed on, so are all results, and the graph
reader is at the end of the stream. -/
theorem EngineFlow.out_eq (hp : PreparedXCmp inp g) (hbf : 0 < g.archInfo.bf)
    (hedge : 0 < (g.colIdx i).length) (h : EngineFlow g i k out c)
    (hcount : out.count 0 = g.archInfo.bf * Simd.rowsOf g i) :
    g.archInfo.bf * (g.colIdx i).length ≤ k ∧
      out = (streamed g i k).flatMap (edgeTokens g) := by
  obtain ⟨init, hinit⟩ := stream_tokens_eq hp hbf hedge
  have hpre := prefix_of_lineInv h.lines
  have hstream : (streamed g i k).flatMap (edgeTokens g) ++
      ((refStream i (g.rowPtr i) (g.colIdx i) g.archInfo.bf).drop k).flatMap (edgeTokens g) =
        init ++ [0] := by
    rw [← hinit, ← List.flatMap_append, streamed, List.take_append_drop]
  have hall : out = init ++ [0] := by
    refine eq_of_prefix_of_count (hpre.trans ⟨_, hstream⟩) ?_
    rw [hcount, ← hinit, count_edgeTokens, countP_isLast_stream hp]
  obtain ⟨rest, hrest⟩ := hpre
  -- the results due for the stream are `out`, so that nothing follows it
  rw [← hrest, ← hall, List.append_assoc, List.append_right_eq_self, List.append_eq_nil_iff]
    at hstream
  refine ⟨?_, by rw [← hrest, hstream.1, List.append_nil]⟩
  have hlen := List.drop_eq_nil_iff.mp (flatMap_edgeTokens_eq_nil hstream.2)
  rwa [length_refStream (hp.valid i)] at hlen

/-! ## Budgets -/

/-- In `X_CMP` all folds have the same width. -/
theorem width_xCmp (ht : FeatureTable g) (f : ℕ) : Simd.width g f = g.archInfo.urb := by
  unfold Simd.width
  split
  · rw [ht.totalUrb_eq]
    push_cast
    ring
  · rfl

theorem pushed_xCmp (ht : FeatureTable g) (i z : ℕ) :
    Simd.pushed g i z = z * g.archInfo.urb := by
  have hurb : ∀ k ∈ Finset.range z,
      (Simd.width g (k / Simd.rowsOf g i)).toNat = g.archInfo.urb := by
    intro k _
    rw [width_xCmp ht, Int.toNat_natCast]
  rw [Simd.pushed, Finset.sum_const_nat hurb, Finset.card_range]

/-- The writes due by engine `i`. -/
def budget (g : Globals) (i : ℕ) : ℕ := Simd.rowsOf g i * g.dataInfo.totalUrb

theorem EngineFlow.cnt_le (hp : PreparedXCmp inp g) (h : EngineFlow g i k out c) :
    (c.si i).cnt ≤ budget g i := by
  rw [h.rows.cnt_eq, pushed_xCmp hp.table, budget, hp.table.totalUrb_eq, ← mul_assoc,
    mul_comm (Simd.rowsOf g i)]
  exact Nat.mul_le_mul_right _ (count_zero_le hp h.lines)

/-- An engine that has queued its budget has passed on all row ends. -/
theorem EngineFlow.count_eq (hp : PreparedXCmp inp g) (h : EngineFlow g i k out c)
    (hcnt : (c.si i).cnt = budget g i) : out.count 0 = g.archInfo.bf * Simd.rowsOf g i := by
  rw [h.rows.cnt_eq, pushed_xCmp hp.table, budget, hp.table.totalUrb_eq, ← mul_assoc,
    mul_comm (Simd.rowsOf g i)] at hcnt
  exact Nat.eq_of_mul_eq_mul_right hp.table.urb_pos hcnt

/-! ## Where the writes are -/

/-- The position in the loop names an engine. -/
theorem engine_lt_of_reachable {s : Config} (hs : s.Reachable g) {i : ℕ} {call : EngineCall}
    (hpc : s.pc = .engine i call) : i < g.archInfo.nOfEngine := by
  suffices key : ∀ i call, s.pc = .engine i call → i < g.archInfo.nOfEngine from key i call hpc
  have hstart : ∀ i call, Pc.start g = .engine i call → i < g.archInfo.nOfEngine := by
    intro i call h
    unfold Pc.start at h
    split at h
    · cases h
      assumption
    · cases h
  refine Machine.Reachable.inv
    (I := fun s => ∀ i call, s.pc = .engine i call → i < g.archInfo.nOfEngine) hs hstart ?_
  rintro t t' - hpc hstep i call heq
  cases hstep with
  | @call j k c c' hcall =>
    have hj := hpc j k rfl
    cases k with
    | write =>
      simp only [Pc.next] at heq
      split at heq
      · cases heq
        assumption
      · cases heq
    | _ =>
      cases heq
      exact hj
  | again => exact hstart i call heq
  | _ => cases heq

/-- Writes among transactions. -/
def writes (l : List Transaction) : ℕ := l.countP Transaction.isWrite

/-- Every queued write is in the queue of its unit, in the transaction queue, inside
DRAMsim3 or acknowledged, and the counter has been decremented for the last. -/
structure WriteInv (g : Globals) (c : Controller) : Prop where
  conserved : ∑ i ∈ Finset.range g.archInfo.nOfEngine, (c.si i).cnt =
    ∑ i ∈ Finset.range g.archInfo.nOfEngine, (c.si i).wq.length +
      writes c.fr.mem.tq + c.dram.countP (·.isWrite) + c.fr.mem.oAccess
  total : c.totalWrite + c.fr.mem.oAccess = g.totalWrite

theorem writes_append_reads (l : List Transaction) (r : List ℕ) :
    writes (l ++ r.map fun a => ⟨a, false⟩) = writes l := by
  rw [writes, List.countP_append, writes, Nat.add_eq_left, List.countP_eq_zero]
  intro t ht
  obtain ⟨a, -, rfl⟩ := List.mem_map.mp ht
  simp

/-- A SIMD unit counts what it queues. -/
theorem cnt_getFeature (g : Globals) (f : ℤ) (s : Simd) :
    (s.getFeature g f).cnt + s.wq.length = s.cnt + (s.getFeature g f).wq.length := by
  have hpushes : (Simd.pushes s.writeUrb.toNat s).cnt + s.wq.length =
      s.cnt + (Simd.pushes s.writeUrb.toNat s).wq.length := by
    rw [Simd.pushes_eq]
    simp only [List.length_append, List.length_map, List.length_range']
    omega
  unfold Simd.getFeature
  split
  · dsimp only
    split
    · split
      · exact hpushes
      · exact hpushes
    · exact hpushes
  · rfl

/-- A change of one unit changes one summand. -/
theorem sum_update_add {n i : ℕ} (hi : i < n) (f : Simd → ℕ) (si : ℕ → Simd) (s : Simd) :
    ∑ j ∈ Finset.range n, f (Function.update si i s j) + f (si i) =
      ∑ j ∈ Finset.range n, f (si j) + f s := by
  have hmem : i ∈ Finset.range n := Finset.mem_range.mpr hi
  have hrest : ∑ j ∈ (Finset.range n).erase i, f (Function.update si i s j) =
      ∑ j ∈ (Finset.range n).erase i, f (si j) := by
    refine Finset.sum_congr rfl fun j hj => ?_
    rw [Function.update_of_ne (Finset.ne_of_mem_erase hj)]
  rw [← Finset.add_sum_erase _ _ hmem, ← Finset.add_sum_erase (Finset.range n) (fun j => f (si j)) hmem,
    hrest, Function.update_self]
  omega

theorem WriteInv.call (hi : i < g.archInfo.nOfEngine) (h : WriteInv g c) {call : EngineCall}
    (hcall : c.call g i call = some c') : WriteInv g c' := by
  by_cases hwrite : call = .write
  · subst hwrite
    rcases call_write hcall with rfl | ⟨a, rest, hwq, rfl⟩
    · exact h
    · refine ⟨?_, h.total⟩
      have hcnt := sum_update_add hi Simd.cnt c.si { c.si i with wq := rest }
      have hlen := sum_update_add hi (fun s => s.wq.length) c.si { c.si i with wq := rest }
      have hadd : writes (c.fr.mem.tq ++ [⟨a, true⟩]) = writes c.fr.mem.tq + 1 := by
        simp [writes, List.countP_append]
      have hcons := h.conserved
      rw [hwq, List.length_cons] at hlen
      dsimp only [Memory.addTransaction] at hcnt hlen ⊢
      omega
  · have hframe := call_frame hwrite hcall
    obtain ⟨l, hl⟩ := hframe.tq_eq
    refine ⟨?_, by rw [hframe.totalWrite_eq, hframe.oAccess_eq]; exact h.total⟩
    rw [hl, writes_append_reads, hframe.dram_eq, hframe.oAccess_eq]
    by_cases hpass : call = .passFtoSIMD
    · subst hpass
      simp only [Controller.call, Option.some.injEq] at hcall
      subst hcall
      have hcnt := sum_update_add hi Simd.cnt c.si ((c.si i).getFeature g (c.fr.passFtoSIMD g i).1)
      have hlen := sum_update_add hi (fun s => s.wq.length) c.si
        ((c.si i).getFeature g (c.fr.passFtoSIMD g i).1)
      have hpush := cnt_getFeature g (c.fr.passFtoSIMD g i).1 (c.si i)
      have := h.conserved
      dsimp only at hlen ⊢
      omega
    · rw [call_si hpass hwrite hcall]
      exact h.conserved

/-- `total_write` is the sum of the budgets. -/
theorem totalWrite_eq_sum (hp : PreparedXCmp inp g) (hn : g.archInfo.nOfEngine ≤ 2 ^ 31)
    (hfit : ∀ i < g.archInfo.nOfEngine, budget g i < 2 ^ 31) :
    g.totalWrite = ∑ i ∈ Finset.range g.archInfo.nOfEngine, budget g i ∧ g.totalWrite < 2 ^ 64 := by
  have heq : ∀ i < g.archInfo.nOfEngine, (g.dataIndex i).totalWrite = budget g i := by
    intro i hi
    have hlt := hfit i hi
    rw [hp.totalWrite_eq, ← hp.workRows_eq]
    exact int32_eq (Int.natCast_nonneg _) (by exact_mod_cast hlt)
  obtain ⟨hsum, hle⟩ := sumTotalWrite_eq hn heq hfit
  rw [hp.sum_eq, hsum]
  exact ⟨rfl, by omega⟩

/-- The units never queue more writes than the counter started with. -/
theorem sum_cnt_le (hp : PreparedXCmp inp g) (hn : g.archInfo.nOfEngine ≤ 2 ^ 31)
    (hfit : ∀ i < g.archInfo.nOfEngine, budget g i < 2 ^ 31) (hflow : FlowInv g c) :
    ∑ i ∈ Finset.range g.archInfo.nOfEngine, (c.si i).cnt ≤ g.totalWrite := by
  rw [(totalWrite_eq_sum hp hn hfit).1]
  refine Finset.sum_le_sum fun i _ => ?_
  obtain ⟨k, out, h⟩ := hflow i
  exact h.cnt_le hp

/-- The writes are conserved in every run in which the units never queue more than the counter
started with. -/
theorem writeInv_of_sum_le (hlt : g.totalWrite < 2 ^ 64)
    (hle : ∀ t : Config, t.Reachable g →
      ∑ i ∈ Finset.range g.archInfo.nOfEngine, (t.ctr.si i).cnt ≤ g.totalWrite)
    {s : Config} (hs : s.Reachable g) : WriteInv g s.ctr := by
  refine Machine.Reachable.inv (I := fun s => WriteInv g s.ctr) hs ⟨by simp [Config.init,
    Controller.init, Simd.init, FeatureReader.init, Memory.init, writes], rfl⟩ ?_
  intro t t' hreach h hstep
  cases hstep with
  | call hcall => exact h.call (engine_lt_of_reachable hreach rfl) hcall
  | featureReceive =>
    rw [featureReceive_eq]
    exact ⟨h.conserved, h.total⟩
  | @accept c t rest htq =>
    refine ⟨?_, h.total⟩
    have := h.conserved
    simp only [htq, writes, List.countP_cons] at this
    simp only [writes, Multiset.countP_cons]
    omega
  | @readReply c a m hmem hreply =>
    obtain ⟨htq, hacc, -⟩ := readCompleteCallback_frame hreply
    have hdram : c.dram.countP (·.isWrite) = (c.dram.erase ⟨a, false⟩).countP (·.isWrite) := by
      conv_lhs => rw [← Multiset.cons_erase hmem]
      rw [Multiset.countP_cons_of_neg _ (by simp)]
    refine ⟨?_, by simp only [hacc]; exact h.total⟩
    simp only [htq, hacc, ← hdram]
    exact h.conserved
  | @writeReply c a hmem =>
    have hdram : c.dram.countP (·.isWrite) =
        (c.dram.erase ⟨a, true⟩).countP (·.isWrite) + 1 := by
      conv_lhs => rw [← Multiset.cons_erase hmem]
      exact Multiset.countP_cons_of_pos _ rfl
    -- the acknowledged write was counted, so the counter is positive
    have hle := hle _ hreach
    have hcons := h.conserved
    have htotal := h.total
    dsimp only at hle hcons htotal
    have hdec := uint64_eq (z := (c.totalWrite : ℤ) - 1) (by omega) (by omega)
    refine ⟨?_, ?_⟩
    · dsimp only [Memory.writeCompleteCallback]
      omega
    · dsimp only [Memory.writeCompleteCallback]
      omega
  | refuse => exact ⟨h.conserved, h.total⟩
  | tick => exact ⟨h.conserved, h.total⟩
  | again => exact ⟨h.conserved, h.total⟩
  | exit => exact ⟨h.conserved, h.total⟩

theorem writeInv_of_reachable (hp : PreparedXCmp inp g) (hn : g.archInfo.nOfEngine ≤ 2 ^ 31)
    (hfit : ∀ i < g.archInfo.nOfEngine, budget g i < 2 ^ 31) {s : Config} (hs : s.Reachable g) :
    WriteInv g s.ctr :=
  writeInv_of_sum_le (totalWrite_eq_sum hp hn hfit).2
    (fun _ ht => sum_cnt_le hp hn hfit (flow_of_reachable hp ht).1) hs

/-! ## The loop test -/

/-- Engine `i` has nothing left to do: every edge of its stream has been passed on,
all its queues are empty, and it has queued exactly its budget of writes. -/
structure EngineDone (g : Globals) (i : ℕ) (c : Controller) : Prop where
  edges : (c.gr i).gPassCount * (g.colIdx i).length + (c.gr i).curColIdx =
    g.archInfo.bf * (g.colIdx i).length
  pq_eq : c.fr.pq i = []
  current : (c.fr.frs i).pqReadNeed = true
  fq_eq : c.fr.fq i = []
  wq_eq : (c.si i).wq = []
  cnt_eq : (c.si i).cnt = (g.dataIndex i).totalWrite

/-- An engine that has queued its budget is done but for its write queue. -/
theorem EngineFlow.done_of_cnt (hp : PreparedXCmp inp g) (hedge : 0 < (g.colIdx i).length)
    (h : EngineFlow g i k out c) (hcnt : (c.si i).cnt = budget g i) :
    (c.gr i).gPassCount * (g.colIdx i).length + (c.gr i).curColIdx =
        g.archInfo.bf * (g.colIdx i).length ∧
      c.fr.pq i = [] ∧ (c.fr.frs i).pqReadNeed = true ∧ c.fr.fq i = [] := by
  rcases h.cursor with ⟨hbf, hcursor⟩ | ⟨hbf, rfl, -, -, -, hcol, hpass⟩
  · obtain ⟨hk, hout⟩ := h.out_eq hp hbf hedge (h.count_eq hp hcnt)
    refine ⟨?_, drained_of_lineInv h.lines hout⟩
    rw [hcursor.pos]
    exact le_antisymm hcursor.le hk
  · -- without folds the stream is empty
    refine ⟨by rw [hcol, hpass, hbf]; rfl, drained_of_lineInv h.lines ?_⟩
    have hpre := prefix_of_lineInv h.lines
    rw [streamed, List.take_zero, List.flatMap_nil] at hpre ⊢
    exact List.prefix_nil.mp hpre

/-- What the invariants say when the counter is zero: every unit has queued its
budget, and every write is acknowledged. -/
theorem WriteInv.of_totalWrite_zero (hp : PreparedXCmp inp g) (hn : g.archInfo.nOfEngine ≤ 2 ^ 31)
    (hfit : ∀ i < g.archInfo.nOfEngine, budget g i < 2 ^ 31) (hflow : FlowInv g c)
    (h : WriteInv g c) (hzero : c.totalWrite = 0) :
    (∀ i < g.archInfo.nOfEngine, (c.si i).cnt = budget g i ∧ (c.si i).wq = []) ∧
      writes c.fr.mem.tq = 0 ∧ c.dram.countP (·.isWrite) = 0 := by
  have hsum := (totalWrite_eq_sum hp hn hfit).1
  have hle := sum_cnt_le hp hn hfit hflow
  have hcons := h.conserved
  have htotal := h.total
  have hcnt : ∀ i ∈ Finset.range g.archInfo.nOfEngine, (c.si i).cnt = budget g i := by
    refine (Finset.sum_eq_sum_iff_of_le fun i _ => ?_).mp (by omega)
    obtain ⟨k, out, hengine⟩ := hflow i
    exact hengine.cnt_le hp
  have hwq : ∀ i ∈ Finset.range g.archInfo.nOfEngine, (c.si i).wq.length = 0 :=
    Finset.sum_eq_zero_iff.mp (by omega)
  refine ⟨fun i hi => ⟨hcnt i (Finset.mem_range.mpr hi), ?_⟩, by omega, by omega⟩
  exact List.length_eq_zero_iff.mp (hwq i (Finset.mem_range.mpr hi))

/-- In every run the counter is what is left of the initial `total_write` after the
acknowledged writes, the units never queue more writes than that, and the loop test
sees zero only when every engine is done and no write is under way. -/
theorem totalWrite_counts_down (inp : Input) (hmode : inp.mode = .xCmp) (hunit : 1 ≤ inp.xUnit)
    (hpos : 1 ≤ inp.nOfEngine) (hn : inp.nOfEngine < 2 ^ 31) (hxW : inp.xW ≤ 2 ^ 24)
    (hsize : ∀ i < inp.nOfEngine, (rowPtrOf (inp.engineRows i)).length ≤ 2 ^ 24 ∧
      (inp.engineRows i).flatten.length ≤ 2 ^ 24)
    (hedge : ∀ i < inp.nOfEngine, (inp.engineRows i).flatten ≠ [])
    (hfit : ∀ i < inp.nOfEngine, workRows (inp.engineRows i) * inp.rowLines < 2 ^ 31) :
    ∃ g, preprocess inp = some g ∧ ∀ s : Config, s.Reachable g →
      (∑ i ∈ Finset.range inp.nOfEngine, (s.ctr.si i).cnt ≤ g.totalWrite ∧
        s.ctr.fr.mem.oAccess ≤ g.totalWrite ∧
        s.ctr.totalWrite = g.totalWrite - s.ctr.fr.mem.oAccess) ∧
      (s.pc = .loopTest → s.ctr.totalWrite = 0 →
        (∀ i < inp.nOfEngine, EngineDone g i s.ctr) ∧
        (∀ t ∈ s.ctr.fr.mem.tq, t.isWrite = false) ∧ ∀ t ∈ s.ctr.dram, t.isWrite = false) := by
  obtain ⟨g, hg⟩ := preprocess_isSome hmode hunit hxW hsize
  have hp := preparedXCmp_of_preprocess hmode hunit hpos hg
  have hgeo := geometry_of_preprocess hg
  have hn' : g.archInfo.nOfEngine ≤ 2 ^ 31 := by rw [hp.nOfEngine_eq]; exact hn.le
  have hfit' : ∀ i < g.archInfo.nOfEngine, budget g i < 2 ^ 31 := by
    intro i hi
    rw [budget, Simd.rowsOf, hgeo.rows_eq, hgeo.totalUrb_eq]
    exact hfit i (by rwa [hp.nOfEngine_eq] at hi)
  refine ⟨g, hg, fun s hs => ?_⟩
  have hflow := (flow_of_reachable hp hs).1
  have hwrite := writeInv_of_reachable hp hn' hfit' hs
  have htotal := hwrite.total
  rw [← hp.nOfEngine_eq]
  refine ⟨⟨sum_cnt_le hp hn' hfit' hflow, by omega, by omega⟩, fun _ hzero => ?_⟩
  obtain ⟨hengines, htq, hdram⟩ := hwrite.of_totalWrite_zero hp hn' hfit' hflow hzero
  refine ⟨fun i hi => ?_, fun t ht => ?_, fun t ht => ?_⟩
  · obtain ⟨hcnt, hwq⟩ := hengines i hi
    obtain ⟨k, out, hengine⟩ := hflow i
    obtain ⟨hedges, hpq, hneed, hfq⟩ := hengine.done_of_cnt hp (hp.colIdx_pos hedge i hi) hcnt
    refine ⟨hedges, hpq, hneed, hfq, hwq, ?_⟩
    rw [hcnt, hgeo.totalWrite_eq, budget, Simd.rowsOf, hgeo.rows_eq, hgeo.totalUrb_eq]
    exact (int32_eq (Int.natCast_nonneg _)
      (by exact_mod_cast hfit i (by rwa [hp.nOfEngine_eq] at hi))).symm
  · exact Bool.eq_false_iff.mpr (List.countP_eq_zero.mp htq t ht)
  · exact Bool.eq_false_iff.mpr (Multiset.countP_eq_zero.mp hdram t ht)

/-- The small input, with the rows of the vertices 0 and 1 for the first engine and
that of vertex 2 for the second. -/
def twoEngines : Input := { Input.threeVertices with lacWidth := 2 }

theorem twoEngines_rows (i : ℕ) (hi : i < twoEngines.nOfEngine) :
    (twoEngines.engineRows i).flatten ≠ [] ∧
      (rowPtrOf (twoEngines.engineRows i)).length ≤ 2 ^ 24 ∧
      (twoEngines.engineRows i).flatten.length ≤ 2 ^ 24 ∧ workRows (twoEngines.engineRows i) = 1 := by
  have hrows : twoEngines.engineRows 0 = [[1, 2], []] ∧ twoEngines.engineRows 1 = [[0]] := ⟨rfl, rfl⟩
  have hcases : i = 0 ∨ i = 1 := by
    have : i < 2 := hi
    omega
  rcases hcases with rfl | rfl
  · rw [hrows.1]
    decide
  · rw [hrows.2]
    decide

theorem preprocess_twoEngines : ∃ g, preprocess twoEngines = some g :=
  preprocess_isSome rfl (by decide) (by decide) fun i hi =>
    ⟨(twoEngines_rows i hi).2.1, (twoEngines_rows i hi).2.2.1⟩

theorem rowLines_twoEngines : twoEngines.rowLines = 2 := by
  have hfolds : twoEngines.folds = 2 := ceilDiv_eq (by decide) (by decide)
  have hfold : twoEngines.foldLines = 1 := ceilDiv_eq (by decide) (by decide)
  change twoEngines.folds * twoEngines.foldLines = 2
  rw [hfolds, hfold]

theorem totalWrite_counts_down_twoEngines :
    ∃ g, preprocess twoEngines = some g ∧ ∀ s : Config, s.Reachable g →
      s.ctr.totalWrite = g.totalWrite - s.ctr.fr.mem.oAccess ∧
      (s.pc = .loopTest → s.ctr.totalWrite = 0 → EngineDone g 0 s.ctr ∧ EngineDone g 1 s.ctr) := by
  obtain ⟨g, hg, h⟩ := totalWrite_counts_down twoEngines rfl (by decide) (by decide)
    (by decide) (by decide)
    (fun i hi => ⟨(twoEngines_rows i hi).2.1, (twoEngines_rows i hi).2.2.1⟩)
    (fun i hi => (twoEngines_rows i hi).1)
    (fun i hi => by
      rw [(twoEngines_rows i hi).2.2.2, rowLines_twoEngines]
      decide)
  refine ⟨g, hg, fun s hs => ⟨(h s hs).1.2.2, fun hpc hzero => ?_⟩⟩
  have hdone := ((h s hs).2 hpc hzero).1
  exact ⟨hdone 0 (by decide), hdone 1 (by decide)⟩

end Sgcn
