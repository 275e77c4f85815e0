-- SUMMARY: The transaction queue stays short in every run: the checked producers stop at the limit, and the unchecked one adds a line per engine at most.
import Sgcn.System.Misses

/-!
# The length of the transaction queue

All producers but `PassFtoSIMD` ask `WillAcceptTransaction` first, and `EdgeRequest`
may add two reads when it was told that there is room. `PassFtoSIMD` asks for the line at
the front of its engine's queue whenever that is neither cached nor requested. As long as
its read is in the transaction queue, the line is requested and not cached: it stays at
the front, and the engine asks for no other.
-/

namespace Sgcn

open FeatureReader

variable {inp : Input} {g : Globals} {c c' : Controller} {s s' : Config} {i : ℕ}

/-! ## Who issued what -/

/-- A transaction with the engine and the call that issued it. -/
abbrev Issue := Transaction × ℕ × EngineCall

/-- The issues in the queue after a step: a call for an engine adds what it issued at the
end, `ConsumeTransaction` takes from the front. -/
def issuesAfter (s s' : Config) (l : List Issue) : List Issue :=
  match s.pc with
  | .engine i k => l ++ (s'.ctr.fr.mem.tq.drop s.ctr.fr.mem.tq.length).map fun t => (t, i, k)
  | _ => l.drop (s.ctr.fr.mem.tq.length - s'.ctr.fr.mem.tq.length)

/-- A run to `s`, with the issues that are in its transaction queue. -/
inductive Issued (g : Globals) : Config → List Issue → Prop where
  | init : Issued g (.init g) []
  | step {s s' : Config} {l : List Issue} : Issued g s l → Step g s s' →
      Issued g s' (issuesAfter s s' l)

theorem Issued.reachable {l : List Issue} (h : Issued g s l) : s.Reachable g := by
  induction h with
  | init => exact .refl
  | step _ hstep ih => exact .tail ih hstep

theorem exists_issued (h : s.Reachable g) : ∃ l, Issued g s l := by
  refine Machine.Reachable.inv (I := fun s => ∃ l, Issued g s l) h ⟨[], .init⟩ ?_
  rintro t t' - ⟨l, hl⟩ hstep
  exact ⟨_, hl.step hstep⟩

/-- `PassFtoSIMD` issued it. -/
def ByPass (e : Issue) : Prop := e.2.2 = .passFtoSIMD

instance : DecidablePred ByPass := fun _ => inferInstanceAs (Decidable (_ = _))

/-! ## What a call adds -/

namespace FeatureReader

variable {s s' : FeatureReader}

theorem endEdge_fq_prefix (s : FeatureReader) (i j : ℕ) (f : FrStat) :
    s.fq j <+: (s.endEdge i f).fq j := by
  unfold endEdge
  split
  · by_cases hj : j = i
    · subst hj
      simp [pushFq, setFrs]
    · simp [pushFq, setFrs, Function.update_of_ne hj]
  · exact List.prefix_rfl

theorem pushFq_fq_prefix (s : FeatureReader) (i v j : ℕ) : s.fq j <+: (s.pushFq i v).fq j := by
  by_cases hj : j = i
  · subst hj
    simp [pushFq]
  · simp [pushFq, Function.update_of_ne hj]

/-- `ReadNext` enters lines at the end of a queue. -/
theorem readXCmp_fq_prefix (h : readXCmp g i s = some s') (j : ℕ) : s.fq j <+: s'.fq j := by
  unfold readXCmp at h
  obtain ⟨a, -, h⟩ := Option.bind_eq_some_iff.mp h
  dsimp only at h
  have hpush := pushFq_fq_prefix ((s.fetch g a).access g a).2 i
    (if ((s.fetch g a).access g a).1 then 1 else a) j
  rw [access_fq, fetch_fq] at hpush
  refine hpush.trans ?_
  split at h
  · obtain ⟨next, -, h⟩ := Option.bind_eq_some_iff.mp h
    split at h
    · cases h
      exact endEdge_fq_prefix _ i j _
    · cases h
      exact List.prefix_rfl
  · cases h
    exact endEdge_fq_prefix _ i j _

theorem readNext_fq_prefix (hmode : g.archInfo.mode = .xCmp) (h : readNext g i s = some s')
    (j : ℕ) : s.fq j <+: s'.fq j := by
  rcases readNext_cases hmode s i with hsame | ⟨-, hread⟩ | ⟨ei, rest, -, -, hread⟩
  · rw [hsame] at h
    cases h
    exact List.prefix_rfl
  · rw [hread] at h
    exact readXCmp_fq_prefix h j
  · rw [hread] at h
    exact readXCmp_fq_prefix (s := s.consumePendingQ i ei rest) h j

/-- `ReadNext` asks for nothing when the queue is full. -/
theorem readNext_of_full (hfull : s.mem.willAcceptTransaction = false) :
    readNext g i s = some s := by
  unfold readNext
  rw [if_pos (.inr (by simp [hfull]))]

/-- `PassFtoSIMD` stalls, with a read of the front line unless it is on its way already, or
it passes on a line that is not. -/
theorem passFtoSIMD_queue {dram : Multiset Transaction} {edges : List EdgeInfo} {out : List ℤ}
    (h : MissInv g dram s) (hlines : LineInv g edges out i s) :
    ((passFtoSIMD g i s).2.fq = s.fq ∧
      ((passFtoSIMD g i s).2.mem.tq = s.mem.tq ∨
        ∃ a, (s.fq i).head? = some a ∧ IsLine g.archInfo a ∧
          (passFtoSIMD g i s).2.mem.tq = s.mem.tq ++ [⟨a, false⟩])) ∨
    ((passFtoSIMD g i s).2.mem.tq = s.mem.tq ∧
      (∀ j, j ≠ i → (passFtoSIMD g i s).2.fq j = s.fq j) ∧
      ∀ a, (s.fq i).head? = some a → a ∉ s.requested) := by
  obtain ⟨items, hfq, hok, -⟩ := hlines.queued
  rcases passFtoSIMD_cases hfq hok with ⟨rfl, hpass⟩ |
    ⟨it, rest, rfl, ⟨hone, hmiss, hpass⟩ | ⟨hhit, hpass⟩⟩
  · rw [hpass]
    exact .inl ⟨rfl, .inl rfl⟩
  · have hnot : ¬ s.cah.Holds it.1 := by
      rw [← access_fst_iff h.cache, hmiss]
      decide
    rw [hpass, access_of_miss h.cache hnot]
    refine .inl ⟨request_fq s _, ?_⟩
    rw [request_mem]
    split
    · exact .inl (by rw [Memory.addReads_nil])
    · refine .inr ⟨it.1, ?_, (hok it (by simp)).resolve_left hone, rfl⟩
      rw [hfq, encode_cons, List.head?_cons]
  · rw [hpass]
    refine .inr ⟨?_, fun j hj => ?_, fun a ha hreq => ?_⟩
    · simp only
      split <;> rfl
    · simp only [Function.update_of_ne hj]
    · rw [hfq, encode_cons, List.head?_cons, Option.some.injEq] at ha
      subst ha
      rcases hhit with hone | hhit
      · exact absurd hone (h.line _ hreq).one_lt.ne'
      · exact h.uncached _ hreq ((access_fst_iff h.cache).mp hhit)

end FeatureReader

/-- All calls but `PassFtoSIMD` add two transactions at most, and none when the queue has
reached the limit. -/
theorem call_queue (hmode : g.archInfo.mode = .xCmp) {k : EngineCall} (hk : k ≠ .passFtoSIMD)
    (hcall : c.call g i k = some c') :
    (∃ l, c'.fr.mem.tq = c.fr.mem.tq ++ l ∧
      (l = [] ∨ c.fr.mem.tq.length < requestLimit ∧ l.length ≤ 2)) ∧
      ∀ j, c.fr.fq j <+: c'.fr.fq j := by
  have haccept : c.fr.mem.willAcceptTransaction = true → c.fr.mem.tq.length < requestLimit :=
    of_decide_eq_true
  cases call_effect hcall with
  | skip => exact ⟨⟨[], by simp⟩, fun j => List.prefix_rfl⟩
  | vertexRequest =>
    refine ⟨?_, fun j => List.prefix_rfl⟩
    rw [GraphReader.vertexRequest_eq]
    split
    · next hacc => exact ⟨_, rfl, .inr ⟨haccept hacc, by simp⟩⟩
    · exact ⟨[], by simp [Controller.setGr]⟩
  | edgeRequest =>
    refine ⟨?_, fun j => List.prefix_rfl⟩
    rw [GraphReader.edgeRequest_eq]
    split
    · next hacc =>
      refine ⟨_, rfl, .inr ⟨haccept hacc, ?_⟩⟩
      unfold GraphReader.edgeReads
      split <;> simp
    · exact ⟨[], by simp [Controller.setGr]⟩
  | graphReceive =>
    refine ⟨⟨[], ?_⟩, fun j => List.prefix_rfl⟩
    simp only [Controller.setGr, Memory.getGraph]
    split <;> simp
  | noFeature => exact ⟨⟨[], by simp [Controller.setGr]⟩, fun j => List.prefix_rfl⟩
  | nextFeature => exact ⟨⟨[], by simp [FeatureReader.enterFtoList]⟩, fun j => List.prefix_rfl⟩
  | readNext hfr =>
    refine ⟨?_, FeatureReader.readNext_fq_prefix hmode hfr⟩
    cases hacc : c.fr.mem.willAcceptTransaction with
    | false =>
      rw [FeatureReader.readNext_of_full hacc] at hfr
      cases hfr
      exact ⟨[], by simp⟩
    | true =>
      obtain ⟨l, hlen, hl⟩ := FeatureReader.readNext_mem hfr
      refine ⟨l.map fun a => ⟨a, false⟩, by rw [hl]; rfl, .inr ⟨haccept hacc, ?_⟩⟩
      rw [List.length_map]
      omega
  | passFtoSIMD => exact absurd rfl hk
  | write hwq hacc => exact ⟨⟨_, rfl, .inr ⟨haccept hacc, by simp⟩⟩, fun j => List.prefix_rfl⟩

/-! ## The invariant of a run -/

/-- The issues are those of the queue, what `PassFtoSIMD` issued is the line at the front of
its engine's queue, and there is no more than the limit and one besides. -/
structure QueueInv (g : Globals) (c : Controller) (l : List Issue) : Prop where
  queue : l.map Prod.fst = c.fr.mem.tq
  front : ∀ e ∈ l, ByPass e → e.2.1 < g.archInfo.nOfEngine ∧ IsFeatureRead g e.1 ∧
    (c.fr.fq e.2.1).head? = some e.1.address
  length_le : l.length ≤ requestLimit + 1 + l.countP fun e => ByPass e

namespace QueueInv

variable {l : List Issue}

theorem init (g : Globals) : QueueInv g (.init g) [] :=
  ⟨rfl, fun _ h => (by cases h), Nat.zero_le _⟩

theorem length_eq (h : QueueInv g c l) : l.length = c.fr.mem.tq.length := by
  rw [← h.queue, List.length_map]

/-- Entering lines at the end of the queues leaves their fronts alone. -/
theorem front_of_prefix (h : QueueInv g c l) (hfq : ∀ j, c.fr.fq j <+: c'.fr.fq j) :
    ∀ e ∈ l, ByPass e → e.2.1 < g.archInfo.nOfEngine ∧ IsFeatureRead g e.1 ∧
      (c'.fr.fq e.2.1).head? = some e.1.address := by
  intro e he hpass
  obtain ⟨hlt, hread, hhead⟩ := h.front e he hpass
  obtain ⟨t, ht⟩ := hfq e.2.1
  refine ⟨hlt, hread, ?_⟩
  rw [← ht, List.head?_append, hhead, Option.some_or]

/-- A move that neither adds nor takes. -/
theorem congr (h : QueueInv g c l) (htq : c'.fr.mem.tq = c.fr.mem.tq)
    (hfq : c'.fr.fq = c.fr.fq) : QueueInv g c' l :=
  ⟨h.queue.trans htq.symm, h.front_of_prefix fun j => by rw [hfq], h.length_le⟩

/-- A producer that has asked adds two transactions at most. -/
theorem append (h : QueueInv g c l) {ts : List Transaction} {k : EngineCall}
    (hk : k ≠ .passFtoSIMD) (htq : c'.fr.mem.tq = c.fr.mem.tq ++ ts)
    (hroom : ts = [] ∨ c.fr.mem.tq.length < requestLimit ∧ ts.length ≤ 2)
    (hfq : ∀ j, c.fr.fq j <+: c'.fr.fq j) : QueueInv g c' (l ++ ts.map fun t => (t, i, k)) where
  queue := by
    rw [htq, List.map_append, h.queue, List.map_map]
    simp [Function.comp_def]
  front := by
    intro e he hpass
    rcases List.mem_append.mp he with he | he
    · exact h.front_of_prefix hfq e he hpass
    · obtain ⟨t, -, rfl⟩ := List.mem_map.mp he
      exact absurd hpass hk
  length_le := by
    have hlen := h.length_eq
    have hle := h.length_le
    rw [List.length_append, List.length_map, List.countP_append]
    rcases hroom with rfl | hroom
    · simp only [List.length_nil]
      omega
    · omega

/-- As long as the read is in the queue, its line is requested. -/
theorem mem_requested (h : QueueInv g c l) (hmiss : MissInv g c.dram c.fr) {e : Issue}
    (he : e ∈ l) (hpass : ByPass e) : e.1.address ∈ c.fr.requested := by
  have hread := (h.front e he hpass).2.1
  have htq : e.1 ∈ c.fr.mem.tq := by
    rw [← h.queue]
    exact List.mem_map_of_mem he
  rw [← Finset.mem_val, ← hmiss.inFlight_eq, inFlight, Multiset.mem_add, Multiset.mem_add]
  refine .inl (.inl ?_)
  exact Multiset.mem_map_of_mem _ (Multiset.mem_filter.mpr ⟨htq, hread⟩)

/-- `PassFtoSIMD` adds a read of the front line, or nothing; it passes the front on only
when no read of it is in the queue. -/
theorem passFtoSIMD {edges : List EdgeInfo} {out : List ℤ} (h : QueueInv g c l)
    (hmiss : MissInv g c.dram c.fr) (hi : i < g.archInfo.nOfEngine)
    (hlines : LineInv g edges out i c.fr) (hcall : c.call g i .passFtoSIMD = some c') :
    QueueInv g c' (l ++ (c'.fr.mem.tq.drop c.fr.mem.tq.length).map
      fun t => (t, i, .passFtoSIMD)) := by
  simp only [Controller.call, Option.some.injEq] at hcall
  subst hcall
  rcases passFtoSIMD_queue hmiss hlines with ⟨hfq, htq | ⟨a, hhead, hline, htq⟩⟩ | ⟨htq, hfq, hfree⟩
  · rw [htq, List.drop_length, List.map_nil, List.append_nil]
    exact h.congr htq hfq
  · rw [htq, List.drop_left, List.map_singleton]
    refine ⟨?_, fun e he hpass => ?_, ?_⟩
    · rw [List.map_append, h.queue, htq]
      rfl
    · simp only [hfq]
      rcases List.mem_append.mp he with he | he
      · exact h.front e he hpass
      · rw [List.mem_singleton.mp he]
        exact ⟨hi, ⟨rfl, hline.ge⟩, hhead⟩
    · have hle := h.length_le
      have hone : [((⟨a, false⟩ : Transaction), i, EngineCall.passFtoSIMD)].countP
          (fun e => ByPass e) = 1 := rfl
      rw [List.length_append, List.length_singleton, List.countP_append, hone]
      omega
  · rw [htq, List.drop_length, List.map_nil, List.append_nil]
    refine ⟨h.queue.trans htq.symm, fun e he hpass => ?_, h.length_le⟩
    obtain ⟨hlt, hread, hhead⟩ := h.front e he hpass
    refine ⟨hlt, hread, ?_⟩
    by_cases hei : e.2.1 = i
    · rw [hei] at hhead
      exact absurd (h.mem_requested hmiss he hpass) (hfree _ hhead)
    · rw [← hhead]
      exact congrArg List.head? (hfq _ hei)

/-- The front of the queue is handed over. -/
theorem accept (h : QueueInv g c l) {t : Transaction} {rest : List Transaction}
    (htq : c.fr.mem.tq = t :: rest) (htq' : c'.fr.mem.tq = rest) (hfq : c'.fr.fq = c.fr.fq) :
    QueueInv g c' (l.drop 1) := by
  have hqueue := h.queue
  rw [htq] at hqueue
  cases l with
  | nil => cases hqueue
  | cons e l =>
    have hle := h.length_le
    rw [List.length_cons, List.countP_cons] at hle
    refine ⟨?_, fun e' he' hpass => ?_, ?_⟩
    · rw [htq']
      exact (List.cons.inj hqueue).2
    · rw [hfq]
      exact h.front e' (List.mem_cons_of_mem e he') hpass
    · change l.length ≤ requestLimit + 1 + l.countP fun e => ByPass e
      split at hle <;> omega

end QueueInv

theorem queueInv_of_issued (hp : PreparedXCmp inp g)
    (hedge : ∀ i < g.archInfo.nOfEngine, 0 < (g.colIdx i).length) {l : List Issue}
    (hs : Issued g s l) : QueueInv g s.ctr l := by
  induction hs with
  | init => exact .init g
  | @step s s' l hs hstep ih =>
    have hmiss := (runMisses_of_reachable hp hedge hs.reachable).misses
    have hreach := hs.reachable
    cases hstep with
    | @call i k c c' hcall =>
      have hi := engine_lt_of_reachable hreach rfl
      by_cases hk : k = .passFtoSIMD
      · subst hk
        obtain ⟨n, out, hengine⟩ := (flow_of_reachable hp hreach).1 i
        exact ih.passFtoSIMD hmiss hi hengine.lines hcall
      · obtain ⟨⟨ts, htq, hroom⟩, hfq⟩ := call_queue hp.mode_eq hk hcall
        have happ := ih.append (i := i) hk htq hroom hfq
        simp only [issuesAfter, htq, List.drop_left]
        exact happ
    | @featureReceive c =>
      have heq := featureReceive_eq g c.fr
      have htq : (c.fr.featureReceive g).mem.tq = c.fr.mem.tq := by rw [heq]
      have hfq : (c.fr.featureReceive g).fq = c.fr.fq := by rw [heq]
      simp only [issuesAfter, htq, Nat.sub_self, List.drop_zero]
      exact ih.congr htq hfq
    | accept htq =>
      simp only [issuesAfter, htq, List.length_cons, Nat.add_sub_cancel_left]
      exact ih.accept htq rfl rfl
    | readReply hmem hreply =>
      have htq := (readCompleteCallback_frame hreply).1
      simp only [issuesAfter, htq, Nat.sub_self, List.drop_zero]
      exact ih.congr htq rfl
    | writeReply =>
      simp only [issuesAfter, Memory.writeCompleteCallback, Nat.sub_self, List.drop_zero]
      exact ih.congr rfl rfl
    | refuse | tick | again | exit =>
      simp only [issuesAfter, Nat.sub_self, List.drop_zero]
      exact ih

/-! ## The bound -/

/-- No engine's `PassFtoSIMD` has two reads in the queue: both would be of the line at the
front, but no line is in flight twice. -/
theorem QueueInv.nodup {l : List Issue} (h : QueueInv g c l) (hmiss : MissInv g c.dram c.fr) :
    ((l.filter fun e => ByPass e).map fun e => e.2.1).Nodup := by
  have hmem : ∀ e ∈ l.filter fun e => ByPass e, e ∈ l ∧ ByPass e := by
    intro e he
    simpa using he
  have hfront : ((l.filter fun e => ByPass e).map fun e => e.2.1).map
      (fun i => (c.fr.fq i).head?.getD 0) = (l.filter fun e => ByPass e).map fun e => e.1.address := by
    rw [List.map_map]
    refine List.map_congr_left fun e he => ?_
    obtain ⟨-, -, hhead⟩ := h.front e (hmem e he).1 (hmem e he).2
    simp [hhead]
  have hreads : ((l.filter fun e => ByPass e).map fun e => e.1.address).Sublist
      ((l.filter fun e => IsFeatureRead g e.1).map fun e => e.1.address) := by
    refine List.Sublist.map _ ?_
    have hall : ((l.filter fun e => ByPass e).filter fun e => IsFeatureRead g e.1) =
        l.filter fun e => ByPass e := by
      refine List.filter_eq_self.mpr fun e he => ?_
      exact decide_eq_true (h.front e (hmem e he).1 (hmem e he).2).2.1
    rw [← hall]
    exact List.filter_sublist.filter _
  have hflight : (((l.filter fun e => IsFeatureRead g e.1).map fun e => e.1.address : List ℕ) :
      Multiset ℕ) ≤ inFlight g c.dram c.fr.mem := by
    have htq : featureReads g c.fr.mem.tq =
        ((l.filter fun e => IsFeatureRead g e.1).map fun e => e.1.address : List ℕ) := by
      rw [← h.queue, featureReads, Multiset.filter_coe, Multiset.map_coe, List.filter_map,
        List.map_map]
      rfl
    rw [← htq, inFlight, add_assoc]
    exact Multiset.le_add_right _ _
  rw [hmiss.inFlight_eq] at hflight
  refine List.Nodup.of_map (fun i => (c.fr.fq i).head?.getD 0) ?_
  rw [hfront]
  exact (Multiset.coe_nodup.mp (Multiset.nodup_of_le hflight c.fr.requested.nodup)).sublist hreads

/-- In every state of a run the transaction queue holds no more than the limit, one
transaction besides, and one per engine; of those that an engine's `PassFtoSIMD` issued
it holds one at most. -/
theorem queue_le_limit {inp : Input} {g : Globals} (hmode : inp.mode = .xCmp)
    (hunit : 1 ≤ inp.xUnit) (hn : 1 ≤ inp.nOfEngine) (hg : preprocess inp = some g)
    (hedge : ∀ i < inp.nOfEngine, (inp.engineRows i).flatten ≠ []) (s : Config)
    (hs : s.Reachable g) :
    s.ctr.fr.mem.tq.length ≤ requestLimit + 1 + inp.nOfEngine ∧
      (∃ l, Issued g s l) ∧
      ∀ l, Issued g s l → l.map Prod.fst = s.ctr.fr.mem.tq ∧
        ∀ i, (l.countP fun e => e.2 = (i, .passFtoSIMD)) ≤ 1 := by
  have hp := preparedXCmp_of_preprocess hmode hunit hn hg
  have hedge' := hp.colIdx_pos hedge
  rw [← hp.nOfEngine_eq]
  have hmiss := (runMisses_of_reachable hp hedge' hs).misses
  obtain ⟨l, hl⟩ := exists_issued hs
  refine ⟨?_, ⟨l, hl⟩, fun l' hl' => ?_⟩
  · have h := queueInv_of_issued hp hedge' hl
    have hengines : ((l.filter fun e => ByPass e).map fun e => e.2.1) ⊆
        List.range g.archInfo.nOfEngine := by
      intro i hi
      obtain ⟨e, he, rfl⟩ := List.mem_map.mp hi
      obtain ⟨hmem, hpass⟩ := List.mem_filter.mp he
      exact List.mem_range.mpr (h.front e hmem (of_decide_eq_true hpass)).1
    have hcard := (List.subperm_of_subset (h.nodup hmiss) hengines).length_le
    rw [List.length_map, List.length_range, ← List.countP_eq_length_filter] at hcard
    have hle := h.length_le
    rw [h.length_eq] at hle
    omega
  · have h := queueInv_of_issued hp hedge' hl'
    refine ⟨h.queue, fun i => ?_⟩
    have hcount := List.nodup_iff_count_le_one.mp (h.nodup hmiss) i
    rw [List.count_eq_countP, List.countP_map, List.countP_filter] at hcount
    refine le_trans (le_of_eq (List.countP_congr fun e _ => ?_)) hcount
    simp only [Function.comp_apply, Bool.and_eq_true, beq_iff_eq, decide_eq_true_eq]
    exact Prod.ext_iff

theorem queue_le_limit_twoEngines :
    ∃ g, preprocess twoEngines = some g ∧ ∀ s : Config, s.Reachable g →
      s.ctr.fr.mem.tq.length ≤ requestLimit + 3 := by
  obtain ⟨g, hg⟩ := preprocess_twoEngines
  refine ⟨g, hg, fun s hs => ?_⟩
  exact (queue_le_limit rfl (by decide) (by decide) hg (fun i hi => (twoEngines_rows i hi).1) s hs).1

end Sgcn
