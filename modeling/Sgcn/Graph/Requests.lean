-- SUMMARY: What the request calls of a graph reader do, and how an address goes round a region.
import Sgcn.Base.Rounds
import Sgcn.Model.GraphReader

/-!
# Graph requests

`VertexRequest` and `EdgeRequest` as equations, from which everything else about
them follows. A reader that goes round a region of `lines` lines has asked for
the line `lineAt lo lines k` after `k` requests.
-/

namespace Sgcn

/-- Queue reads of the addresses `l`. -/
def Memory.addReads (m : Memory) (l : List ℕ) : Memory :=
  { m with tq := m.tq ++ l.map fun a => ⟨a, false⟩ }

@[simp] theorem Memory.addReads_nil (m : Memory) : m.addReads [] = m := by
  simp [addReads]

theorem Memory.addReads_append (m : Memory) (l l' : List ℕ) :
    m.addReads (l ++ l') = (m.addReads l).addReads l' := by
  simp [addReads]

theorem Memory.addTransaction_read (m : Memory) (a : ℕ) :
    m.addTransaction ⟨a, false⟩ = m.addReads [a] := rfl

namespace GraphReader

/-! ## Going round a region -/

/-- The `k`-th address of a reader that goes round `lines` lines from `lo` on. -/
def lineAt (lo lines k : ℕ) : ℕ := lo + cacheLineByte * (k % lines)

section Round

variable {lines : ℕ} (lo k : ℕ)

theorem lineAt_mem (hlines : 0 < lines) :
    lo ≤ lineAt lo lines k ∧ lineAt lo lines k < lo + cacheLineByte * lines := by
  have hmod := Nat.mod_lt k hlines
  simp only [lineAt, cacheLineByte]
  omega

/-- The end of a region is met at the end of a round, wherever the region lies. -/
theorem lineAt_end_iff (hlines : 0 < lines) :
    lineAt lo lines k + cacheLineByte = lo + cacheLineByte * lines ↔ k % lines + 1 = lines := by
  have hmod := Nat.mod_lt k hlines
  simp only [lineAt, cacheLineByte]
  omega

theorem lineAt_succ (hlines : 0 < lines) :
    lineAt lo lines (k + 1) =
      if k % lines + 1 = lines then lo else lineAt lo lines k + cacheLineByte := by
  rcases Rounds.succ_cases hlines k with ⟨hlt, -, hmod⟩ | ⟨heq, -, hmod⟩
  · rw [if_neg (by omega), lineAt, lineAt, hmod, mul_add, mul_one, Nat.add_assoc]
  · rw [if_pos heq, lineAt, hmod, mul_zero, Nat.add_zero]

end Round

/-! ## The calls as equations -/

section Calls

variable (g : Globals) (id : ℕ) (r : GraphReader) (m : Memory)

/-- The reader after it has asked for a line of rows; `isEnd` says whether it was the last
of its region. -/
def afterVertexRequest (isEnd : Bool) : GraphReader :=
  { r with
    nextVAddr := if isEnd then (g.dataIndex id).rowAddrStart else r.nextVAddr + cacheLineByte
    vReqCount := if isEnd then r.vReqCount + 1 else r.vReqCount
    vReqOver := r.vReqOver || isEnd && decide (r.vReqCount + 1 = g.archInfo.bf) }

theorem vertexRequest_eq :
    r.vertexRequest g id m =
      if m.willAcceptTransaction then
        (r.afterVertexRequest g id
          (decide (r.nextVAddr + cacheLineByte = (g.dataIndex id).rowAddrEnd)),
          m.addReads [r.nextVAddr])
      else (r, m) := by
  unfold vertexRequest afterVertexRequest
  split
  · by_cases hend : r.nextVAddr + cacheLineByte = (g.dataIndex id).rowAddrEnd
    · simp only [if_pos hend, decide_eq_true hend, if_true, Bool.true_and,
        ← Memory.addTransaction_read]
      by_cases hbf : r.vReqCount + 1 = g.archInfo.bf
      · rw [if_pos hbf, decide_eq_true hbf, Bool.or_true]
      · rw [if_neg hbf, decide_eq_false hbf, Bool.or_false]
    · simp only [if_neg hend, decide_eq_false hend, Bool.false_eq_true, if_false, Bool.false_and,
        Bool.or_false, ← Memory.addTransaction_read]
  · rfl

/-- The lines an `EdgeRequest` call asks for: a column line and, when the edges carry values,
the value line beside it. -/
def edgeReads : List ℕ :=
  r.nextEAddr :: if g.archInfo.gnnMode = .gcn then [r.nextValAddr] else []

/-- The reader after it has asked for a line of columns. The value address follows. -/
def afterEdgeRequest (isEnd : Bool) : GraphReader :=
  { r with
    nextEAddr := if isEnd then (g.dataIndex id).colAddrStart else r.nextEAddr + cacheLineByte
    nextValAddr :=
      if g.archInfo.gnnMode = .gcn then
        if isEnd then (g.dataIndex id).valueAddrStart else r.nextValAddr + cacheLineByte
      else r.nextValAddr
    eReqCount := if isEnd then r.eReqCount + 1 else r.eReqCount
    eReqOver := r.eReqOver || isEnd && decide (r.eReqCount + 1 = g.archInfo.bf) }

theorem edgeRequest_eq :
    r.edgeRequest g id m =
      if m.willAcceptTransaction then
        (r.afterEdgeRequest g id
          (decide (r.nextEAddr + cacheLineByte = (g.dataIndex id).colAddrEnd)),
          m.addReads (r.edgeReads g))
      else (r, m) := by
  unfold edgeRequest afterEdgeRequest edgeReads
  split
  · by_cases hgnn : g.archInfo.gnnMode = .gcn
    · have hreads : m.addReads [r.nextEAddr, r.nextValAddr] =
          (m.addTransaction ⟨r.nextEAddr, false⟩).addTransaction ⟨r.nextValAddr, false⟩ :=
        m.addReads_append [r.nextEAddr] [r.nextValAddr]
      simp only [if_pos hgnn, hreads]
      by_cases hend : r.nextEAddr + cacheLineByte = (g.dataIndex id).colAddrEnd
      · simp only [if_pos hend, decide_eq_true hend, if_true, Bool.true_and]
        by_cases hbf : r.eReqCount + 1 = g.archInfo.bf
        · rw [if_pos hbf, decide_eq_true hbf, Bool.or_true]
        · rw [if_neg hbf, decide_eq_false hbf, Bool.or_false]
      · simp only [if_neg hend, decide_eq_false hend, Bool.false_eq_true, if_false, Bool.false_and,
          Bool.or_false]
    · simp only [if_neg hgnn, ← Memory.addTransaction_read]
      by_cases hend : r.nextEAddr + cacheLineByte = (g.dataIndex id).colAddrEnd
      · simp only [if_pos hend, decide_eq_true hend, if_true, Bool.true_and]
        by_cases hbf : r.eReqCount + 1 = g.archInfo.bf
        · rw [if_pos hbf, decide_eq_true hbf, Bool.or_true]
        · rw [if_neg hbf, decide_eq_false hbf, Bool.or_false]
      · simp only [if_neg hend, decide_eq_false hend, Bool.false_eq_true, if_false, Bool.false_and,
          Bool.or_false]
  · rfl

end Calls

end GraphReader

end Sgcn
