-- SUMMARY: The main loop goes round for ever unless it ends, and a fair DRAMsim3 answers every feature read.
import Sgcn.Base.Run
import Sgcn.System.Progress

/-!
# Fairness

DRAMsim3 may refuse and delay, but not for ever. The position in the loop moves on through
a cycle, since no position can be kept for ever, so that every call for every engine is made
again and again, and what is asked for arrives at `FeatureReceive`.
-/

namespace Sgcn

open FeatureReader Machine Filter

variable {inp : Input} {g : Globals}

/-! ## Fair runs -/

/-- DRAMsim3 takes something from a queue that is not empty, and answers every transaction
it has taken, some time. -/
structure Fair (σ : ℕ → Config) : Prop where
  accepts : ∀ n, (σ n).ctr.fr.mem.tq ≠ [] → ∃ m ≥ n,
    (σ m).pc = .consumeTransaction ∧ (σ (m + 1)).pc = .consumeTransaction
  answers : ∀ n, ∀ t ∈ (σ n).ctr.dram, ∃ m ≥ n,
    (σ m).pc = .updateCycle ∧ t ∈ (σ m).ctr.dram ∧
      (σ (m + 1)).ctr.dram = (σ m).ctr.dram.erase t

/-! ## The cycle -/

/-- The place of a call among those for its engine. -/
def EngineCall.index : EngineCall → ℕ
  | .vertexRequest => 0
  | .edgeRequest => 1
  | .graphReceive => 2
  | .nextFeature => 3
  | .readNext => 4
  | .passFtoSIMD => 5
  | .write => 6

/-- The place of a position in the cycle that starts after `FeatureReceive`. -/
def Pc.place (g : Globals) : Pc → ℕ
  | .consumeTransaction => 0
  | .updateCycle => 1
  | .loopTest => 2
  | .engine i k => 3 + 7 * i + k.index
  | .featureReceive => 3 + 7 * g.archInfo.nOfEngine
  | .done => 0

/-- What bounds the stay at a position. -/
def Config.patience (s : Config) : ℕ :=
  match s.pc with
  | .consumeTransaction => s.ctr.fr.mem.tq.length
  | .updateCycle => s.ctr.dram.card
  | _ => 0

theorem EngineCall.index_le (k : EngineCall) : k.index ≤ 6 := by
  cases k <;> decide

theorem EngineCall.index_injective {k k' : EngineCall} (h : k.index = k'.index) : k = k' := by
  cases k <;> cases k' <;> first | rfl | cases h

theorem place_start (g : Globals) : (Pc.start g).place g = 3 := by
  unfold Pc.start
  split
  · rfl
  · next hzero =>
    simp only [Pc.place]
    omega

theorem place_next {i : ℕ} (hi : i < g.archInfo.nOfEngine) (k : EngineCall) :
    (Pc.next g i k).place g = (Pc.engine i k).place g + 1 := by
  cases k with
  | write =>
    simp only [Pc.next]
    split
    · simp only [Pc.place, EngineCall.index]
      omega
    · simp only [Pc.place, EngineCall.index]
      omega
  | _ => rfl

/-- A position within the cycle. -/
theorem place_lt_or_eq {s : Config} (hs : s.Reachable g) :
    s.pc.place g < 3 + 7 * g.archInfo.nOfEngine ∨ s.pc = .featureReceive := by
  cases hpc : s.pc with
  | engine i k =>
    have := engine_lt_of_reachable hs hpc
    have := k.index_le
    simp only [Pc.place]
    omega
  | featureReceive => exact .inr rfl
  | _ =>
    simp only [Pc.place]
    omega

/-- A step stays, with less patience, or goes on to the next position, or starts over. -/
theorem place_step {s s' : Config} (hs : s.Reachable g) (hstep : Step g s s')
    (hdone : s'.pc ≠ .done) :
    (s'.pc.place g = s.pc.place g ∧ s'.patience < s.patience) ∨
      s'.pc.place g = s.pc.place g + 1 ∨
      s.pc = .featureReceive ∧ s'.pc = .consumeTransaction := by
  cases hstep with
  | @call i k => exact .inr (.inl (place_next (engine_lt_of_reachable hs rfl) k))
  | featureReceive => exact .inr (.inr ⟨rfl, rfl⟩)
  | accept htq => exact .inl ⟨rfl, by simp [Config.patience, htq]⟩
  | readReply hmem => exact .inl ⟨rfl, Multiset.card_erase_lt_of_mem hmem⟩
  | writeReply hmem => exact .inl ⟨rfl, Multiset.card_erase_lt_of_mem hmem⟩
  | refuse => exact .inr (.inl rfl)
  | tick => exact .inr (.inl rfl)
  | again => exact .inr (.inl (place_start g))
  | exit => exact absurd rfl hdone

theorem step_featureReceive {s s' : Config} (hpc : s.pc = .featureReceive) (hstep : Step g s s') :
    s'.pc = .consumeTransaction ∧ s'.ctr = { s.ctr with fr := s.ctr.fr.featureReceive g } := by
  cases hstep with
  | featureReceive => exact ⟨rfl, rfl⟩
  | _ => cases hpc

/-- There is no step from the end. -/
theorem not_step_done {s s' : Config} (hpc : s.pc = .done) : ¬ Step g s s' := by
  intro hstep
  cases hstep <;> cases hpc

theorem pc_ne_done (r : Run (Step g) (.init g)) (n : ℕ) : (r.st n).pc ≠ .done :=
  fun hpc => not_step_done hpc (r.next n)

/-- A run goes round and round. -/
theorem cycles (r : Run (Step g) (.init g)) : Cycles (fun n => (r.st n).pc.place g)
    (fun n => (r.st n).patience) (3 + 7 * g.archInfo.nOfEngine) := by
  have hstep := fun n => place_step (r.reachable n) (r.next n) (pc_ne_done r (n + 1))
  have hplace := fun n => place_lt_or_eq (r.reachable n)
  refine ⟨fun n => ?_, fun n hlt => ?_, fun n hstay => ?_, fun n htop => ?_⟩
  · rcases hplace n with hlt | hpc
    · exact hlt.le
    · rw [hpc]
      rfl
  · rcases hstep n with ⟨hstay, -⟩ | hnext | ⟨hpc, -⟩
    · exact .inl hstay
    · exact .inr hnext
    · rw [hpc] at hlt
      exact absurd hlt (lt_irrefl _)
  · rcases hstep n with ⟨-, hless⟩ | hnext | ⟨hpc, hpc'⟩
    · exact hless
    · omega
    · rw [hpc, hpc'] at hstay
      simp only [Pc.place] at hstay
      omega
  · rcases hplace n with hlt | hpc
    · omega
    · rw [(step_featureReceive hpc (r.next n)).1]
      rfl

/-- A position is known by its place. -/
theorem pc_eq_of_place {s : Config} (hs : s.Reachable g) (hdone : s.pc ≠ .done) {pc : Pc}
    (hpc : (∃ i k, i < g.archInfo.nOfEngine ∧ pc = .engine i k) ∨ pc = .loopTest ∨
      pc = .featureReceive)
    (h : s.pc.place g = pc.place g) : s.pc = pc := by
  rcases hpc with ⟨j, k', hj, rfl⟩ | rfl | rfl
  · have hk' := k'.index_le
    cases hs' : s.pc with
    | engine i k =>
      rw [hs'] at h
      have hk := k.index_le
      simp only [Pc.place] at h
      obtain rfl : i = j := by omega
      have hindex : k.index = k'.index := by omega
      rw [EngineCall.index_injective hindex]
    | done => exact absurd hs' hdone
    | _ =>
      rw [hs'] at h
      simp only [Pc.place] at h
      omega
  · cases hs' : s.pc with
    | loopTest => rfl
    | done => exact absurd hs' hdone
    | _ =>
      rw [hs'] at h
      simp only [Pc.place] at h
      omega
  · rcases place_lt_or_eq hs with hlt | heq
    · rw [h] at hlt
      exact absurd hlt (lt_irrefl _)
    · exact heq

/-- Every call for every engine is made again and again. -/
theorem frequently_engine (r : Run (Step g) (.init g)) {i : ℕ} (hi : i < g.archInfo.nOfEngine)
    (k : EngineCall) : ∃ᶠ n in atTop, (r.st n).pc = .engine i k := by
  have hk := k.index_le
  refine ((cycles r).frequently_eq (p := (Pc.engine i k).place g) ?_).mono fun n hn => ?_
  · simp only [Pc.place]
    omega
  · exact pc_eq_of_place (r.reachable n) (pc_ne_done r n) (.inl ⟨i, k, hi, rfl⟩) hn

theorem frequently_loopTest (r : Run (Step g) (.init g)) :
    ∃ᶠ n in atTop, (r.st n).pc = .loopTest :=
  ((cycles r).frequently_eq (p := 2) (by omega)).mono fun n hn =>
    pc_eq_of_place (r.reachable n) (pc_ne_done r n) (.inr (.inl rfl)) hn

/-- From any position the run comes to `FeatureReceive`, and not twice. -/
theorem exists_featureReceive (r : Run (Step g) (.init g)) (n : ℕ) :
    ∃ m ≥ n, (r.st m).pc = .featureReceive ∧
      ∀ j, n ≤ j → j < m → (r.st j).pc ≠ .featureReceive := by
  obtain ⟨m, hm, hplace, hbefore⟩ := (cycles r).exists_reaches (n := n)
    (p := 3 + 7 * g.archInfo.nOfEngine) ((cycles r).le_top n) le_rfl
  refine ⟨m, hm, pc_eq_of_place (r.reachable m) (pc_ne_done r m) (.inr (.inr rfl)) hplace,
    fun j hj hlt hpc => ?_⟩
  have := hbefore j hj hlt
  rw [hpc] at this
  exact absurd this (lt_irrefl _)

/-- After `FeatureReceive` the run comes to any call before it comes there again. -/
theorem exists_engine_call (r : Run (Step g) (.init g)) {n i : ℕ}
    (hn : (r.st n).pc = .consumeTransaction) (hi : i < g.archInfo.nOfEngine) (k : EngineCall) :
    ∃ m ≥ n, (r.st m).pc = .engine i k ∧
      ∀ j, n ≤ j → j < m → (r.st j).pc ≠ .featureReceive := by
  have hk := k.index_le
  have hle : (Pc.engine i k).place g ≤ 3 + 7 * g.archInfo.nOfEngine := by
    simp only [Pc.place]
    omega
  obtain ⟨m, hm, hplace, hbefore⟩ := (cycles r).exists_reaches (n := n)
    (p := (Pc.engine i k).place g) (by rw [hn]; exact Nat.zero_le _) hle
  refine ⟨m, hm, pc_eq_of_place (r.reachable m) (pc_ne_done r m) (.inl ⟨i, k, hi, rfl⟩) hplace,
    fun j hj hlt hpc => ?_⟩
  have := hbefore j hj hlt
  rw [hpc] at this
  exact absurd this (Nat.not_lt.mpr hle)

/-! ## Every transaction can be answered -/

/-- A write, a read of a feature line, or a read of a line of some engine. -/
def Owned (g : Globals) (t : Transaction) : Prop :=
  t.isWrite = true ∨ g.archInfo.xwEleAddrStart ≤ t.address ∨
    ∃ i < g.archInfo.nOfEngine, ∃ kind, Memory.inRegion (g.dataIndex i) kind t.address = true

/-- The calls issue such transactions only. -/
theorem call_owned (he : Equipped inp g) {c c' : Controller} (hpipe : Pipeline g c) {i : ℕ}
    (hi : i < g.archInfo.nOfEngine) {k : EngineCall} (hcall : c.call g i k = some c') :
    ∃ l, c'.fr.mem.tq = c.fr.mem.tq ++ l ∧ ∀ t ∈ l, Owned g t := by
  have ho := he.ownRegions hi
  obtain ⟨n, out, hengine⟩ := hpipe.engines i
  have hcells := hengine.cells he hpipe.requests
  have hnone : ∃ l, c.fr.mem.tq = c.fr.mem.tq ++ l ∧ ∀ t ∈ l, Owned g t :=
    ⟨[], (List.append_nil _).symm, fun t ht => by cases ht⟩
  have hgraph : ∀ l : List ℕ, (∀ a ∈ l, ∃ kind, Memory.inRegion (g.dataIndex i) kind a = true) →
      ∀ t ∈ l.map (fun a => (⟨a, false⟩ : Transaction)), Owned g t := by
    intro l hl t ht
    obtain ⟨a, ha, rfl⟩ := List.mem_map.mp ht
    exact .inr (.inr ⟨i, hi, hl a ha⟩)
  have hcell : ∀ l : List ℕ, (∀ a ∈ l, IsCell g.archInfo a) →
      ∀ t ∈ l.map (fun a => (⟨a, false⟩ : Transaction)), Owned g t := by
    intro l hl t ht
    obtain ⟨a, ha, rfl⟩ := List.mem_map.mp ht
    exact .inr (.inl (hl a ha).ge)
  cases call_effect hcall with
  | skip => exact hnone
  | vertexRequest =>
    obtain ⟨-, l, hmem, hl⟩ := (hpipe.addrs i hi).vertexRequest ho c.fr.mem
    exact ⟨_, by rw [hmem]; rfl, hgraph l hl⟩
  | edgeRequest =>
    obtain ⟨-, l, hmem, hl⟩ := (hpipe.addrs i hi).edgeRequest ho c.fr.mem
    exact ⟨_, by rw [hmem]; rfl, hgraph l hl⟩
  | graphReceive =>
    refine ⟨[], ?_, fun t ht => by cases ht⟩
    rw [List.append_nil]
    simp only [Controller.setGr, Memory.getGraph]
    split <;> rfl
  | noFeature => exact hnone
  | nextFeature => exact hnone
  | readNext hfr =>
    obtain ⟨l, hmem, hl⟩ := hcells.1 _ hfr
    exact ⟨_, by rw [hmem]; rfl, hcell l hl⟩
  | passFtoSIMD =>
    obtain ⟨l, hmem, hl⟩ := hcells.2
    exact ⟨_, by rw [hmem]; rfl, hcell l hl⟩
  | write =>
    refine ⟨_, rfl, fun t ht => ?_⟩
    rw [List.mem_singleton.mp ht]
    exact .inl rfl

theorem owned_of_reachable (he : Equipped inp g) {s : Config} (hs : s.Reachable g) :
    (∀ t ∈ s.ctr.fr.mem.tq, Owned g t) ∧ ∀ t ∈ s.ctr.dram, Owned g t := by
  refine Machine.Reachable.inv (I := fun s => (∀ t ∈ s.ctr.fr.mem.tq, Owned g t) ∧
    ∀ t ∈ s.ctr.dram, Owned g t) hs
    ⟨fun _ ht => absurd ht List.not_mem_nil, fun t ht => absurd ht (Multiset.notMem_zero t)⟩ ?_
  intro u u' hreach ⟨htq, hdram⟩ hstep
  cases hstep with
  | @call i k c c' hcall =>
    obtain ⟨l, heq, hl⟩ := call_owned he (he.pipeline hreach)
      (engine_lt_of_reachable hreach rfl) hcall
    have hdram' : c'.dram = c.dram := by
      by_cases hwrite : k = .write
      · subst hwrite
        rcases call_write hcall with rfl | ⟨a, rest, -, rfl⟩ <;> rfl
      · exact (call_frame hwrite hcall).dram_eq
    refine ⟨fun t ht => ?_, by rw [hdram']; exact hdram⟩
    rw [heq] at ht
    exact (List.mem_append.mp ht).elim (htq t) (hl t)
  | featureReceive =>
    rw [featureReceive_eq]
    exact ⟨htq, hdram⟩
  | accept heq =>
    rw [heq] at htq
    refine ⟨fun t ht => htq t (List.mem_cons_of_mem _ ht), fun t ht => ?_⟩
    rcases Multiset.mem_cons.mp ht with rfl | ht
    · exact htq t List.mem_cons_self
    · exact hdram t ht
  | readReply _ hreply =>
    refine ⟨?_, fun t ht => hdram t (Multiset.mem_of_mem_erase ht)⟩
    rw [(readCompleteCallback_frame hreply).1]
    exact htq
  | writeReply => exact ⟨htq, fun t ht => hdram t (Multiset.mem_of_mem_erase ht)⟩
  | refuse => exact ⟨htq, hdram⟩
  | tick => exact ⟨htq, hdram⟩
  | again => exact ⟨htq, hdram⟩
  | exit => exact ⟨htq, hdram⟩

/-- A transaction inside DRAMsim3 can be answered at any tick. -/
theorem exists_reply (he : Equipped inp g) {s : Config} (hs : s.Reachable g)
    (hpc : s.pc = .updateCycle) {t : Transaction} (ht : t ∈ s.ctr.dram) :
    ∃ s', Step g s s' ∧ s'.pc = .updateCycle ∧ s'.ctr.dram = s.ctr.dram.erase t := by
  have howned := (owned_of_reachable he hs).2 t ht
  obtain ⟨pc, c⟩ := s
  cases hpc
  obtain ⟨a, isWrite⟩ := t
  cases isWrite with
  | true => exact ⟨_, .writeReply ht, rfl, rfl⟩
  | false =>
    rcases howned with hwrite | hge | ⟨i, hi, kind, hreg⟩
    · cases hwrite
    · exact ⟨_, .readReply ht (GraphLayout.readCompleteCallback_feature hge), rfl, rfl⟩
    · exact ⟨_, .readReply ht (he.layout.readCompleteCallback_of_inRegion hi hreg), rfl, rfl⟩

/-! ## Replies come -/

/-- A step adds to the transaction queue, or hands its front over. -/
theorem tq_step {s s' : Config} (hstep : Step g s s') :
    (∃ l, s'.ctr.fr.mem.tq = s.ctr.fr.mem.tq ++ l) ∨
      (s.pc = .consumeTransaction ∧ s'.pc = .consumeTransaction) ∧
        ∃ t rest, s.ctr.fr.mem.tq = t :: rest ∧ s'.ctr.fr.mem.tq = rest ∧
          s'.ctr.dram = t ::ₘ s.ctr.dram := by
  cases hstep with
  | @call i k c c' hcall =>
    left
    by_cases hwrite : k = .write
    · subst hwrite
      rcases call_write hcall with rfl | ⟨a, rest, -, rfl⟩
      · exact ⟨[], (List.append_nil _).symm⟩
      · exact ⟨_, rfl⟩
    · obtain ⟨l, hl⟩ := (call_frame hwrite hcall).tq_eq
      exact ⟨_, hl⟩
  | featureReceive =>
    rw [featureReceive_eq]
    exact .inl ⟨[], (List.append_nil _).symm⟩
  | accept htq => exact .inr ⟨⟨rfl, rfl⟩, _, _, htq, rfl, rfl⟩
  | readReply _ hreply =>
    refine .inl ⟨[], ?_⟩
    rw [List.append_nil]
    exact (readCompleteCallback_frame hreply).1
  | _ => exact .inl ⟨[], (List.append_nil _).symm⟩

/-- Only `FeatureReceive` takes from the feature replies. -/
theorem fq_step {s s' : Config} (hstep : Step g s s')
    (hpc : s.pc ≠ .featureReceive) : s.ctr.fr.mem.fq <+: s'.ctr.fr.mem.fq := by
  cases hstep with
  | @call i k c c' hcall =>
    by_cases hwrite : k = .write
    · subst hwrite
      rcases call_write hcall with rfl | ⟨a, rest, -, rfl⟩ <;> exact List.prefix_rfl
    · rw [(call_frame hwrite hcall).fq_eq]
  | featureReceive => exact absurd rfl hpc
  | readReply _ hreply =>
    rw [(readCompleteCallback_frame hreply).2.2]
    exact List.prefix_append _ _
  | _ => exact List.prefix_rfl

section Replies

variable {r : Run (Step g) (.init g)}

/-- The first time that DRAMsim3 takes from the queue. -/
theorem Fair.exists_accept (hfair : Fair r.st) {n : ℕ} (htq : (r.st n).ctr.fr.mem.tq ≠ []) :
    ∃ m ≥ n, ((r.st m).pc = .consumeTransaction ∧ (r.st (m + 1)).pc = .consumeTransaction) ∧
      ∀ j, n ≤ j → j < m →
        ¬ ((r.st j).pc = .consumeTransaction ∧ (r.st (j + 1)).pc = .consumeTransaction) := by
  classical
  have hex := hfair.accepts n htq
  obtain ⟨hge, hacc⟩ := Nat.find_spec hex
  exact ⟨Nat.find hex, hge, hacc, fun j hj hlt hacc' => Nat.find_min hex hlt ⟨hj, hacc'⟩⟩

/-- A step that is not an acceptance adds to the queue. -/
theorem tq_append_of_not_accept {n m : ℕ} (hnm : n ≤ m)
    (h : ∀ j, n ≤ j → j < m →
      ¬ ((r.st j).pc = .consumeTransaction ∧ (r.st (j + 1)).pc = .consumeTransaction)) :
    ∃ l, (r.st m).ctr.fr.mem.tq = (r.st n).ctr.fr.mem.tq ++ l := by
  induction m, hnm using Nat.le_induction with
  | base => exact ⟨[], (List.append_nil _).symm⟩
  | succ m hm ih =>
    obtain ⟨l, hl⟩ := ih fun j hj hlt => h j hj (by omega)
    rcases tq_step (r.next m) with ⟨l', hl'⟩ | ⟨hacc, -⟩
    · exact ⟨l ++ l', by rw [hl', hl, List.append_assoc]⟩
    · exact absurd hacc (h m hm (Nat.lt_succ_self m))

/-- What an acceptance does. -/
theorem step_accept {s s' : Config} (hstep : Step g s s') (hpc : s.pc = .consumeTransaction)
    (hpc' : s'.pc = .consumeTransaction) :
    ∃ t rest, s.ctr.fr.mem.tq = t :: rest ∧ s'.ctr.fr.mem.tq = rest ∧
      s'.ctr.dram = t ::ₘ s.ctr.dram := by
  cases hstep with
  | accept htq => exact ⟨_, _, htq, rfl, rfl⟩
  | refuse => cases hpc'
  | _ => cases hpc

/-- A transaction in the queue comes to its front and is handed over, some time. -/
theorem Fair.exists_accepted (hfair : Fair r.st) {t : Transaction} {n : ℕ}
    (ht : t ∈ (r.st n).ctr.fr.mem.tq) :
    ∃ m ≥ n, (r.st m).ctr.fr.mem.tq = t :: (r.st (m + 1)).ctr.fr.mem.tq ∧
      t ∈ (r.st (m + 1)).ctr.dram := by
  obtain ⟨pre, post, heq⟩ := List.append_of_mem ht
  clear ht
  -- by the number of transactions before it
  induction pre generalizing n post with
  | nil =>
    obtain ⟨m, hm, hacc, hbefore⟩ := hfair.exists_accept (n := n) (by rw [heq]; simp)
    obtain ⟨l, hl⟩ := tq_append_of_not_accept hm hbefore
    obtain ⟨t', rest, htq, hrest, hdram⟩ := step_accept (r.next m) hacc.1 hacc.2
    have hfront := htq
    rw [hl, heq] at hfront
    cases hfront
    exact ⟨m, hm, by rw [htq, hrest], by rw [hdram]; exact Multiset.mem_cons_self _ _⟩
  | cons u pre ih =>
    obtain ⟨m, hm, hacc, hbefore⟩ := hfair.exists_accept (n := n) (by rw [heq]; simp)
    obtain ⟨l, hl⟩ := tq_append_of_not_accept hm hbefore
    obtain ⟨t', rest, htq, hrest, -⟩ := step_accept (r.next m) hacc.1 hacc.2
    rw [hl, heq] at htq
    cases htq
    obtain ⟨m', hm', h⟩ := ih (n := m + 1) (post ++ l) (by rw [hrest]; simp)
    exact ⟨m', by omega, h⟩

/-- What is erased is known by what is left. -/
theorem erase_injective {α : Type*} [DecidableEq α] {s : Multiset α} {a b : α} (ha : a ∈ s)
    (h : s.erase a = s.erase b) : a = b := by
  by_contra hne
  have hcount := congrArg (Multiset.count a) h
  rw [Multiset.count_erase_self, Multiset.count_erase_of_ne hne] at hcount
  have := Multiset.count_pos.mpr ha
  omega

/-- The reply to a feature read comes some time. -/
theorem Fair.exists_mem_fq (hfair : Fair r.st) {a n : ℕ} (hge : g.archInfo.xwEleAddrStart ≤ a)
    (ha : ⟨a, false⟩ ∈ (r.st n).ctr.dram) : ∃ m ≥ n, a ∈ (r.st m).ctr.fr.mem.fq := by
  obtain ⟨m, hm, hpc, hmem, herase⟩ := hfair.answers n _ ha
  refine ⟨m + 1, by omega, ?_⟩
  have hstep := r.next m
  generalize r.st m = s at hstep hpc hmem herase
  generalize r.st (m + 1) = s' at hstep herase ⊢
  cases hstep with
  | readReply _ hreply =>
    cases erase_injective hmem herase.symm
    rw [(readCompleteCallback_frame hreply).2.2, if_pos hge]
    exact List.mem_append_right _ (List.mem_singleton_self a)
  | writeReply => cases erase_injective hmem herase.symm
  | tick =>
    exact absurd (congrArg Multiset.card herase) (Multiset.card_erase_lt_of_mem hmem).ne'
  | _ => cases hpc

theorem replies_kept {n m : ℕ} (hnm : n ≤ m)
    (h : ∀ j, n ≤ j → j < m → (r.st j).pc ≠ .featureReceive) :
    (r.st n).ctr.fr.mem.fq <+: (r.st m).ctr.fr.mem.fq := by
  induction m, hnm using Nat.le_induction with
  | base => exact List.prefix_rfl
  | succ m hm ih =>
    exact (ih fun j hj hlt => h j hj (by omega)).trans
      (fq_step (r.next m) (h m hm (Nat.lt_succ_self m)))

/-- A line that was asked for is among the replies that `FeatureReceive` takes, some time. -/
theorem Fair.exists_received (he : Equipped inp g) (hfair : Fair r.st) {a n : ℕ}
    (ha : a ∈ (r.st n).ctr.fr.requested) :
    ∃ m ≥ n, (r.st m).pc = .featureReceive ∧ a ∈ (r.st m).ctr.fr.mem.fq := by
  have hreply : ∀ n, a ∈ (r.st n).ctr.fr.mem.fq →
      ∃ m ≥ n, (r.st m).pc = .featureReceive ∧ a ∈ (r.st m).ctr.fr.mem.fq := by
    intro n hmem
    obtain ⟨m, hm, hpc, hbefore⟩ := exists_featureReceive r n
    exact ⟨m, hm, hpc, (replies_kept hm hbefore).subset hmem⟩
  have hdram : ∀ n, ∀ t ∈ (r.st n).ctr.dram, IsFeatureRead g t → t.address = a →
      ∃ m ≥ n, (r.st m).pc = .featureReceive ∧ a ∈ (r.st m).ctr.fr.mem.fq := by
    rintro n ⟨address, isWrite⟩ hmem ⟨hread, hge⟩ rfl
    cases hread
    obtain ⟨m, hm, hfq⟩ := hfair.exists_mem_fq hge hmem
    obtain ⟨m', hm', h⟩ := hreply m hfq
    exact ⟨m', by omega, h⟩
  have hreq := (he.pipeline (r.reachable n)).requests
  rw [← Finset.mem_val, ← hreq.inFlight_eq, inFlight, Multiset.mem_add, Multiset.mem_add,
    featureReads, featureReads, Multiset.mem_map, Multiset.mem_map] at ha
  rcases ha with (⟨t, ht, htaddr⟩ | ⟨t, ht, htaddr⟩) | ha
  · obtain ⟨hmem, hread⟩ := Multiset.mem_filter.mp ht
    obtain ⟨m, hm, -, hmem'⟩ := hfair.exists_accepted (Multiset.mem_coe.mp hmem)
    obtain ⟨m', hm', h⟩ := hdram (m + 1) t hmem' hread htaddr
    exact ⟨m', by omega, h⟩
  · obtain ⟨hmem, hread⟩ := Multiset.mem_filter.mp ht
    exact hdram n t hmem hread htaddr
  · exact hreply n (Multiset.mem_coe.mp ha)

end Replies

end Sgcn
