-- SUMMARY: What the DAVC warm-up leaves behind, depending on how DRAMsim3 bunches its replies.
import Sgcn.Base.Backlog
import Sgcn.Layout.Prepared
import Sgcn.System.Calls

/-!
# The DAVC warm-up

`DAVCRead` reads the first feature line as often as the cached vertices have lines. It
counts the replies as they arrive, but takes one per cycle from the reply queue, and
returns when all have arrived. What is left in the queue then goes to the first
`FeatureReceive`.
-/

namespace Sgcn

variable {g : Globals}

namespace Davc

variable {s s' : Davc} {n q : ℕ}

/-- Nothing of the warm-up is queued, inside DRAMsim3 or answered and not yet taken. -/
structure NothingLeft (s : Davc) : Prop where
  tq_eq : s.mem.tq = []
  fq_eq : s.mem.fq = []
  dram_eq : s.dram = 0

/-- Of `n` reads of the first feature line each is queued, inside DRAMsim3 or counted; the
reply queue holds `q` replies. -/
structure ReadsInv (g : Globals) (n q : ℕ) (s : Davc) : Prop where
  count : s.mem.tq.length + s.dram.card + s.xwGet = n
  tq : ∀ t ∈ s.mem.tq, t = ⟨g.archInfo.xwEleAddrStart, false⟩
  dram : ∀ t ∈ s.dram, t = ⟨g.archInfo.xwEleAddrStart, false⟩
  fq : s.mem.fq.length = q

theorem ReadsInv.init (g : Globals) : ReadsInv g 0 0 .init :=
  ⟨rfl, fun _ h => (by cases h), fun _ h => (by cases h), rfl⟩

theorem ReadsInv.addTransaction (h : ReadsInv g n q s) :
    ReadsInv g (n + 1) q
      { s with mem := s.mem.addTransaction ⟨g.archInfo.xwEleAddrStart, false⟩ } where
  count := by
    have hcount := h.count
    simp only [Memory.addTransaction, List.length_append, List.length_singleton]
    omega
  tq := by
    intro t ht
    rcases List.mem_append.mp ht with ht | ht
    · exact h.tq t ht
    · exact List.mem_singleton.mp ht
  dram := h.dram
  fq := h.fq

theorem ReadsInv.consumeTransaction (h : ReadsInv g n q s) {accepted : ℕ}
    (hs : s.consumeTransaction accepted = some s') : ReadsInv g n q s' := by
  unfold Davc.consumeTransaction at hs
  split at hs
  · next hle =>
    cases hs
    refine ⟨?_, fun t ht => h.tq t (List.mem_of_mem_drop ht), fun t ht => ?_, h.fq⟩
    · have hcount := h.count
      simp only [List.length_drop, Multiset.card_add, Multiset.coe_card, List.length_take]
      omega
    · rcases Multiset.mem_add.mp ht with ht | ht
      · exact h.tq t (List.mem_of_mem_take (Multiset.mem_coe.mp ht))
      · exact h.dram t ht
  · cases hs

/-- A reply is one of the first feature line. It is counted and queued. -/
theorem ReadsInv.reply (hn : n < 2 ^ 64) (h : ReadsInv g n q s) {a : ℕ}
    (hs : s.reply g a = some s') : ReadsInv g n (q + 1) s' := by
  unfold Davc.reply at hs
  split at hs
  · next hmem =>
    obtain ⟨m, hm, rfl⟩ := Option.map_eq_some_iff.mp hs
    obtain ⟨htq, -, hfq⟩ := readCompleteCallback_frame hm
    have ha : a = g.archInfo.xwEleAddrStart := congrArg Transaction.address (h.dram _ hmem)
    have hcard : s.dram.card = (s.dram.erase ⟨a, false⟩).card + 1 := by
      rw [← Multiset.card_cons, Multiset.cons_erase hmem]
    have hcount := h.count
    have hget : uint64 (s.xwGet + 1) = s.xwGet + 1 := by
      unfold uint64
      omega
    refine ⟨?_, by simpa only [htq] using h.tq,
      fun t ht => h.dram t (Multiset.mem_of_mem_erase ht), ?_⟩
    · simp only [htq, if_pos ha.ge, hget]
      omega
    · simp only [hfq, if_pos ha.ge, List.length_append, List.length_singleton, h.fq]
  · cases hs

theorem ReadsInv.updateCycle (hn : n < 2 ^ 64) {replies : List ℕ} (h : ReadsInv g n q s)
    (hs : s.updateCycle g replies = some s') : ReadsInv g n (q + replies.length) s' := by
  unfold Davc.updateCycle at hs
  induction replies generalizing s q with
  | nil =>
    cases hs
    exact h
  | cons a replies ih =>
    rw [List.foldlM_cons] at hs
    obtain ⟨t, ht, hs⟩ := Option.bind_eq_some_iff.mp hs
    rw [List.length_cons, Nat.add_comm replies.length, ← Nat.add_assoc]
    exact ih (h.reply hn ht) hs

/-- A cycle takes one reply from the queue. -/
theorem ReadsInv.cycleWith (hn : n < 2 ^ 64) {e : DramCycle} (h : ReadsInv g n q s)
    (hs : s.cycleWith g e = some s') : ReadsInv g n (Backlog.tick q e.replies.length) s' := by
  unfold Davc.cycleWith at hs
  obtain ⟨t, ht, hs⟩ := Option.bind_eq_some_iff.mp hs
  obtain ⟨u, hu, hs⟩ := Option.bind_eq_some_iff.mp hs
  cases hs
  have hinv := (h.consumeTransaction ht).updateCycle hn hu
  have hframe : u.mem.getFeature.2.tq = u.mem.tq ∧
      u.mem.getFeature.2.fq.length = u.mem.fq.length - 1 := by
    unfold Memory.getFeature
    split
    · next hnil => simp [hnil]
    · next hcons => simp [hcons]
  refine ⟨?_, by simpa only [hframe.1] using hinv.tq, hinv.dram, ?_⟩
  · simp only [hframe.1]
    exact hinv.count
  · rw [hframe.2, hinv.fq, Backlog.tick]

/-! ## The loops -/

/-- How many replies each cycle brings. -/
def arrivals (es : List DramCycle) : List ℕ := es.map fun e => e.replies.length

theorem forLoop_inv {k : ℕ} {es rest : List DramCycle} (hn : n + k < 2 ^ 64)
    (h : ReadsInv g n q s) (hs : forLoop g k es s = some (rest, s')) :
    ∃ used, es = used ++ rest ∧ ReadsInv g (n + k) (Backlog.left q (arrivals used)) s' := by
  induction k generalizing n q es s with
  | zero =>
    cases hs
    exact ⟨[], rfl, h⟩
  | succ k ih =>
    cases es with
    | nil => cases hs
    | cons e es =>
      obtain ⟨t, ht, hs⟩ := Option.bind_eq_some_iff.mp hs
      have hnext := h.addTransaction.cycleWith (by omega) ht
      obtain ⟨used, rfl, hinv⟩ := ih (by omega) hnext hs
      refine ⟨e :: used, rfl, ?_⟩
      rw [← Nat.add_assoc, Nat.add_right_comm]
      exact hinv

theorem whileLoop_inv {es : List DramCycle} (hn : n < 2 ^ 64) (h : ReadsInv g n q s)
    (hs : whileLoop g n es s = some s') :
    ReadsInv g n (Backlog.left q (arrivals es)) s' ∧ n ≤ s'.xwGet := by
  induction es generalizing q s with
  | nil =>
    unfold whileLoop at hs
    split at hs
    · cases hs
    · next hget =>
      cases hs
      exact ⟨h, Nat.le_of_not_lt hget⟩
  | cons e es ih =>
    unfold whileLoop at hs
    split at hs
    · obtain ⟨t, ht, hs⟩ := Option.bind_eq_some_iff.mp hs
      exact ih (h.cycleWith hn ht) hs
    · cases hs

/-- When `DAVCRead` returns, every read has been answered, and the reply queue holds what
has not been taken. -/
theorem davcRead_spec {davcList : Finset ℤ} {es : List DramCycle}
    (hs : davcRead g davcList es = some s) :
    s.mem.tq = [] ∧ s.dram = 0 ∧ s.mem.fq.length = Backlog.left 0 (arrivals es) := by
  unfold davcRead at hs
  split at hs
  · split at hs
    · next hes =>
      cases hs
      rw [List.isEmpty_iff.mp hes]
      exact ⟨rfl, rfl, rfl⟩
    · cases hs
  · dsimp only at hs
    split at hs
    · next hint =>
      obtain ⟨⟨rest, t⟩, hfor, hs⟩ := Option.bind_eq_some_iff.mp hs
      obtain ⟨u, hwhile, hs⟩ := Option.bind_eq_some_iff.mp hs
      cases hs
      obtain ⟨used, rfl, hinv⟩ := forLoop_inv (by omega) (.init g) hfor
      rw [Nat.zero_add] at hinv
      obtain ⟨hinv', hget⟩ := whileLoop_inv (by omega) hinv hwhile
      have hcount := hinv'.count
      have htq : u.mem.tq = [] := List.eq_nil_of_length_eq_zero (by omega)
      have hdram : u.dram = 0 := Multiset.card_eq_zero.mp (by omega)
      refine ⟨htq, hdram, ?_⟩
      rw [hinv'.fq, arrivals, arrivals, arrivals, List.map_append, Backlog.left_append]
    · cases hs

/-- The warm-up leaves nothing behind if and only if, for every number of cycles, its last
cycles brought no more replies than they are. -/
theorem nothingLeft_iff {davcList : Finset ℤ} {es : List DramCycle}
    (hs : davcRead g davcList es = some s) :
    NothingLeft s ↔ ∀ l, l <:+ es → (arrivals l).sum ≤ l.length := by
  obtain ⟨htq, hdram, hfq⟩ := davcRead_spec hs
  have hempty : s.mem.fq = [] ↔ ∀ l, l <:+ arrivals es → l.sum ≤ l.length := by
    rw [← Backlog.left_zero_eq_zero_iff, ← hfq, List.length_eq_zero_iff]
  constructor
  · intro h l hl
    have hle := hempty.mp h.fq_eq (arrivals l) (hl.map _)
    rwa [arrivals, List.length_map] at hle
  · intro h
    refine ⟨htq, hempty.mpr fun l hl => ?_, hdram⟩
    obtain ⟨l', hl', rfl⟩ := List.suffix_map_iff.mp hl
    rw [List.length_map]
    exact h l' hl'

/-! ## Two reads -/

/-- The small input has two lines per vertex. When DRAMsim3 answers the reads one at a time,
and when it answers both in the third cycle, `DAVCRead` returns. -/
theorem davcRead_threeVertices (hg : preprocess .threeVertices = some g) :
    (∃ s, davcRead g {0} [⟨1, []⟩, ⟨1, [g.archInfo.xwEleAddrStart]⟩,
        ⟨0, [g.archInfo.xwEleAddrStart]⟩] = some s) ∧
      ∃ s, davcRead g {0} [⟨1, []⟩, ⟨1, []⟩,
          ⟨0, [g.archInfo.xwEleAddrStart, g.archInfo.xwEleAddrStart]⟩] = some s ∧
        s.mem.fq = [g.archInfo.xwEleAddrStart] := by
  obtain ⟨hbf, hurb, -⟩ := geometry_threeVertices hg
  constructor <;>
    simp [davcRead, hurb, hbf, forLoop, whileLoop, cycleWith, init, consumeTransaction,
      updateCycle, reply, Memory.init, Memory.addTransaction, Memory.readCompleteCallback,
      Memory.getFeature, uint64]

theorem nothingLeft_threeVertices :
    ∃ g, preprocess .threeVertices = some g ∧ ∃ es s, davcRead g {0} es = some s ∧
      NothingLeft s := by
  obtain ⟨g, hg⟩ := preprocess_threeVertices
  obtain ⟨⟨s, hs⟩, -⟩ := davcRead_threeVertices hg
  refine ⟨g, hg, _, s, hs, (nothingLeft_iff hs).mpr fun l hl => ?_⟩
  simp only [List.suffix_cons_iff, List.suffix_nil] at hl
  rcases hl with rfl | rfl | rfl | rfl <;> simp [arrivals]

/-- Both reads are answered in the third cycle: one reply is left for `FeatureReceive`. -/
theorem not_nothingLeft_threeVertices :
    ∃ g, preprocess .threeVertices = some g ∧ ∃ es s, davcRead g {0} es = some s ∧
      s.mem.fq = [g.archInfo.xwEleAddrStart] ∧ ¬ NothingLeft s := by
  obtain ⟨g, hg⟩ := preprocess_threeVertices
  obtain ⟨-, s, hs, hfq⟩ := davcRead_threeVertices hg
  refine ⟨g, hg, _, s, hs, hfq, fun h => ?_⟩
  rw [h.fq_eq] at hfq
  cases hfq

end Davc

end Sgcn
