-- SUMMARY: `GCNInference` ends: no state of a run is stuck, and no run on a fair DRAMsim3 goes on for ever.
import Sgcn.System.Fairness
import Mathlib.Order.Filter.Finite

/-!
# Termination

Suppose a run does not end. Its work settles, and from then on the only reads that are
issued are of lines that an engine wants next. The lines that were asked for before arrive and
are gone; the last line of any later batch of replies stays in the cache until its engine
comes to it, which is progress. The queue cannot be too full for that: it holds wanted lines
only, two for every engine at most. So no line is asked for any more, and the queues run
empty, one after the other. Then nothing is left to be written, and the loop test sees it.
-/

namespace Sgcn

open FeatureReader Machine Filter

variable {inp : Input} {g : Globals}

/-! ## Idle steps -/

/-- A step that takes nothing off the work. No queue of an engine changes; the feature
reader asks for a line that an engine wants at most, and the cache changes in `FeatureReceive`
only. -/
structure Idle (g : Globals) (s s' : Config) : Prop where
  fq_eq : s'.ctr.fr.fq = s.ctr.fr.fq
  pq_eq : s'.ctr.fr.pq = s.ctr.fr.pq
  frs_eq : s'.ctr.fr.frs = s.ctr.fr.frs
  si_eq : s'.ctr.si = s.ctr.si
  requests_eq : ∀ j, (s'.ctr.gr j).requests = (s.ctr.gr j).requests
  edges_eq : ∀ j, edgesPassed g j (s'.ctr.gr j) = edgesPassed g j (s.ctr.gr j)
  cah_eq : s.pc ≠ .featureReceive → s'.ctr.fr.cah = s.ctr.fr.cah
  asks : (s'.ctr.fr.requested ⊆ s.ctr.fr.requested ∧ s'.ctr.fr.mem.tq <:+ s.ctr.fr.mem.tq) ∨
    ∃ i < g.archInfo.nOfEngine, ∃ a, Wanted g i s.ctr.fr a ∧ IsCell g.archInfo a ∧
      s'.ctr.fr.requested = insert a s.ctr.fr.requested ∧
      s'.ctr.fr.mem.tq = s.ctr.fr.mem.tq ++ [⟨a, false⟩]
  waits : ∀ i k, s.pc = .engine i k → Waits g i s.ctr s'.ctr k

/-- The replies that `FeatureReceive` takes are no longer asked for. -/
theorem mem_foldl_erase {l : List ℕ} {a : ℕ} {r : Finset ℕ} :
    a ∈ l.foldl (fun r b => r.erase b) r ↔ a ∈ r ∧ a ∉ l := by
  induction l generalizing r with
  | nil => simp
  | cons b l ih =>
    rw [List.foldl_cons, ih, Finset.mem_erase, List.mem_cons]
    tauto

/-- A step of the environment. -/
theorem Idle.of_environment {s s' : Config} (hgr : s'.ctr.gr = s.ctr.gr)
    (hsi : s'.ctr.si = s.ctr.si) {m : Memory} (hfr : s'.ctr.fr = { s.ctr.fr with mem := m })
    (htq : m.tq <:+ s.ctr.fr.mem.tq) (hpc : ∀ i k, s.pc ≠ .engine i k) :
    Idle g s s' := by
  refine ⟨by rw [hfr], by rw [hfr], by rw [hfr], hsi, fun j => by rw [hgr], fun j => by rw [hgr],
    fun _ => by rw [hfr], .inl ?_, fun i k h => absurd h (hpc i k)⟩
  rw [hfr]
  exact ⟨subset_rfl, htq⟩

/-- A step that takes nothing off the work is idle. -/
theorem idle_of_totalWork (hw : Workload inp g) {s s' : Config} (hs : s.Reachable g)
    (hstep : Step g s s') (hwork : totalWork g s'.ctr = totalWork g s.ctr) : Idle g s s' := by
  have hquiet : ∀ i k, s.pc = .engine i k → Quiet g i s.ctr s'.ctr ∧ Waits g i s.ctr s'.ctr k := by
    rcases totalWork_step hw hs hstep with hlt | ⟨-, hquiet⟩
    · omega
    · exact hquiet
  cases hstep with
  | @call i k c c' hcall =>
    obtain ⟨hq, hwait⟩ := hquiet i k rfl
    have hi := engine_lt_of_reachable hs rfl
    refine ⟨hq.fq_eq, hq.pq_eq, hq.frs_eq, hq.si_eq, hq.requests_eq, hq.edges_eq,
      fun _ => hq.cah_eq, ?_, ?_⟩
    · rcases hq.asks with ⟨hreq, htq⟩ | ⟨a, ha⟩
      · exact .inl ⟨hreq.subset, by rw [htq]⟩
      · exact .inr ⟨i, hi, a, ha⟩
    · intro i' k' hpc
      cases hpc
      exact hwait
  | featureReceive =>
    rw [featureReceive_eq]
    refine ⟨rfl, rfl, rfl, rfl, fun _ => rfl, fun _ => rfl, fun h => absurd rfl h,
      .inl ⟨fun a ha => (mem_foldl_erase.mp ha).1, List.suffix_rfl⟩, fun _ _ h => by cases h⟩
  | accept htq =>
    refine .of_environment rfl rfl rfl ?_ fun _ _ h => by cases h
    rw [htq]
    exact List.suffix_cons _ _
  | readReply _ hreply =>
    refine .of_environment rfl rfl rfl ?_ fun _ _ h => by cases h
    rw [(readCompleteCallback_frame hreply).1]
  | writeReply => exact .of_environment rfl rfl rfl List.suffix_rfl fun _ _ h => by cases h
  | refuse => exact .of_environment rfl rfl rfl List.suffix_rfl fun _ _ h => by cases h
  | tick => exact .of_environment rfl rfl rfl List.suffix_rfl fun _ _ h => by cases h
  | again => exact .of_environment rfl rfl rfl List.suffix_rfl fun _ _ h => by cases h
  | exit => exact .of_environment rfl rfl rfl List.suffix_rfl fun _ _ h => by cases h

section Run

variable {r : Run (Step g) (.init g)}

/-- From some point on all steps are idle. -/
theorem eventually_idle (hw : Workload inp g) (r : Run (Step g) (.init g)) :
    ∀ᶠ n in atTop, Idle g (r.st n) (r.st (n + 1)) := by
  have hle : ∀ n, totalWork g (r.st (n + 1)).ctr ≤ totalWork g (r.st n).ctr := by
    intro n
    rcases totalWork_step hw (r.reachable n) (r.next n) with hlt | ⟨heq, -⟩
    · exact hlt.le
    · exact heq.le
  have hsettles := eventually_eq_of_le (f := fun n => totalWork g (r.st n).ctr) (.of_forall hle)
  exact hsettles.mono fun n => idle_of_totalWork hw (r.reachable n) (r.next n)

/-! ## The lines asked for -/

theorem Idle.wanted_iff {s s' : Config} (h : Idle g s s') {i a : ℕ} :
    Wanted g i s'.ctr.fr a ↔ Wanted g i s.ctr.fr a := by
  have hsame : SameEngine i s.ctr.fr s'.ctr.fr :=
    ⟨by rw [h.frs_eq], by rw [h.pq_eq], by rw [h.fq_eq]⟩
  rw [Wanted, Wanted, hsame.fq, hsame.awaits_iff]

/-- The lines that are asked for and that no engine wants next. -/
def stale (g : Globals) (c : Controller) : Finset ℕ :=
  c.fr.requested.filter fun a => ∀ i < g.archInfo.nOfEngine, ¬ Wanted g i c.fr a

theorem mem_stale {c : Controller} {a : ℕ} : a ∈ stale g c ↔
    a ∈ c.fr.requested ∧ ∀ i < g.archInfo.nOfEngine, ¬ Wanted g i c.fr a :=
  Finset.mem_filter

theorem Idle.stale_subset {s s' : Config} (h : Idle g s s') : stale g s'.ctr ⊆ stale g s.ctr := by
  intro a ha
  obtain ⟨hreq, hnone⟩ := mem_stale.mp ha
  have hnone' : ∀ i < g.archInfo.nOfEngine, ¬ Wanted g i s.ctr.fr a :=
    fun i hi hwant => hnone i hi (h.wanted_iff.mpr hwant)
  refine mem_stale.mpr ⟨?_, hnone'⟩
  rcases h.asks with ⟨hsub, -⟩ | ⟨i, hi, b, hb, -, heq, -⟩
  · exact hsub hreq
  · rw [heq, Finset.mem_insert] at hreq
    rcases hreq with rfl | hreq
    · exact absurd hb (hnone' i hi)
    · exact hreq

/-- A line that was asked for is not, some time. -/
theorem Fair.exists_notMem (hw : Workload inp g) (hfair : Fair r.st) {a n : ℕ}
    (ha : a ∈ (r.st n).ctr.fr.requested) : ∃ m ≥ n, a ∉ (r.st m).ctr.fr.requested := by
  obtain ⟨m, hm, hpc, hmem⟩ := hfair.exists_received hw.toEquipped ha
  refine ⟨m + 1, by omega, ?_⟩
  rw [(step_featureReceive hpc (r.next m)).2, featureReceive_eq]
  exact fun h => (mem_foldl_erase.mp h).2 hmem

/-- At last only lines that an engine wants next are asked for. -/
theorem Fair.eventually_stale (hw : Workload inp g) (hfair : Fair r.st) :
    ∀ᶠ n in atTop, stale g (r.st n).ctr = ∅ := by
  refine eventually_eq_empty ((eventually_idle hw r).mono fun n h => h.stale_subset)
    (.of_forall fun n a ha => ?_)
  obtain ⟨m, hm, hgone⟩ := hfair.exists_notMem hw (mem_stale.mp ha).1
  exact ⟨m, hm, fun h => hgone (mem_stale.mp h).1⟩

/-! ## Room in the transaction queue -/

/-- The lines that engine `i` can want next. -/
def wants (g : Globals) (i : ℕ) (s : FeatureReader) : Finset ℕ :=
  ((s.fq i).head?.toList ++ (g.xToAddr (s.frs i).dst)[0]?.toList).toFinset

theorem Wanted.mem_wants {i a : ℕ} {s : FeatureReader} (h : Wanted g i s a) : a ∈ wants g i s := by
  rw [wants, List.mem_toFinset, List.mem_append, Option.mem_toList, Option.mem_toList]
  exact h.imp id Awaits.header

theorem card_wants_le (g : Globals) (i : ℕ) (s : FeatureReader) : (wants g i s).card ≤ 2 := by
  have hone : ∀ o : Option ℕ, o.toList.length ≤ 1 := fun o => by cases o <;> simp
  have := hone (s.fq i).head?
  have := hone (g.xToAddr (s.frs i).dst)[0]?
  refine (List.toFinset_card_le _).trans ?_
  rw [List.length_append]
  omega

/-- If all requests are wanted, and one wanted line is there, the requests are fewer than two for
every engine. -/
theorem requested_card_lt {s : FeatureReader} {b i : ℕ} (hi : i < g.archInfo.nOfEngine)
    (hwant : ∀ a ∈ s.requested, ∃ j < g.archInfo.nOfEngine, Wanted g j s a)
    (hb : Wanted g i s b) (hnot : b ∉ s.requested) :
    s.requested.card < 2 * g.archInfo.nOfEngine := by
  have hsub : insert b s.requested ⊆
      (Finset.range g.archInfo.nOfEngine).biUnion fun j => wants g j s := by
    intro a ha
    obtain ⟨j, hj, hwanted⟩ : ∃ j < g.archInfo.nOfEngine, Wanted g j s a := by
      rcases Finset.mem_insert.mp ha with rfl | ha
      · exact ⟨i, hi, hb⟩
      · exact hwant a ha
    exact Finset.mem_biUnion.mpr ⟨j, Finset.mem_range.mpr hj, hwanted.mem_wants⟩
  have hle := (Finset.card_le_card hsub).trans
    (Finset.card_biUnion_le_card_mul _ _ 2 fun j _ => card_wants_le g j s)
  rw [Finset.card_insert_of_notMem hnot, Finset.card_range] at hle
  omega

/-- The transactions in the queue that are no feature reads. -/
def others (g : Globals) (c : Controller) : ℕ :=
  c.fr.mem.tq.countP fun t => ¬ IsFeatureRead g t

/-- What is in the queue beside feature reads leaves it, and nothing of the kind enters it any
more. -/
theorem Fair.eventually_others (hw : Workload inp g) (hfair : Fair r.st) :
    ∀ᶠ n in atTop, others g (r.st n).ctr = 0 := by
  refine eventually_eq_zero ((eventually_idle hw r).mono fun n hn => ?_)
    (.of_forall fun n hne => ?_)
  · rcases hn.asks with ⟨-, hsuffix⟩ | ⟨i, -, a, -, hcell, -, htq⟩
    · exact hsuffix.sublist.countP_le
    · have hread : IsFeatureRead g ⟨a, false⟩ := ⟨rfl, hcell.ge⟩
      rw [others, others, htq, List.countP_append, List.countP_singleton, if_neg (by simp [hread]),
        Nat.add_zero]
  · obtain ⟨t, ht, hnot⟩ := List.countP_pos_iff.mp (Nat.pos_of_ne_zero hne)
    obtain ⟨m, hm, htq, -⟩ := hfair.exists_accepted ht
    refine ⟨m, hm, ?_⟩
    have hpos : List.countP (fun t => decide ¬ IsFeatureRead g t) [t] = 1 :=
      List.countP_singleton.trans (if_pos hnot)
    rw [others, others, htq, ← List.singleton_append, List.countP_append, hpos]
    omega

/-- A queue of feature reads is no longer than the set of requests. -/
theorem length_tq_le {c : Controller} (hreq : Outstanding g c.dram c.fr) (hnone : others g c = 0) :
    c.fr.mem.tq.length ≤ c.fr.requested.card := by
  have hall : (c.fr.mem.tq : Multiset Transaction).filter (IsFeatureRead g) = c.fr.mem.tq :=
    Multiset.filter_eq_self.mpr fun t ht => by
      have := List.countP_eq_zero.mp hnone t (Multiset.mem_coe.mp ht)
      simpa using this
  have hcard := congrArg Multiset.card hreq.inFlight_eq
  simp only [inFlight, featureReads, hall, Multiset.card_add, Multiset.card_map,
    Multiset.coe_card, Finset.card_val] at hcard
  omega

/-! ## The last reply -/

/-- The last line of a batch of replies is cached. -/
theorem holds_featureReceive {s : FeatureReader} {l : List ℕ} {b : ℕ} (hfq : s.mem.fq = l ++ [b]) :
    (s.featureReceive g).cah.Holds b := by
  rw [featureReceive_eq, hfq]
  simp only [List.foldl_append, List.foldl_cons, List.foldl_nil]
  exact ⟨Cache.findSet g.archInfo b, by simp [Cache.insert]⟩

/-- Between two calls of `FeatureReceive` the cache is as it was. -/
theorem cah_eq_of_idle {n m : ℕ} (hnm : n ≤ m)
    (hidle : ∀ j ≥ n, Idle g (r.st j) (r.st (j + 1)))
    (h : ∀ j, n ≤ j → j < m → (r.st j).pc ≠ .featureReceive) :
    (r.st m).ctr.fr.cah = (r.st n).ctr.fr.cah := by
  induction m, hnm using Nat.le_induction with
  | base => rfl
  | succ m hm ih =>
    rw [(hidle m hm).cah_eq (h m hm (Nat.lt_succ_self m)),
      ih fun j hj hlt => h j hj (by omega)]

theorem fq_eq_of_idle {n m : ℕ} (hnm : n ≤ m)
    (hidle : ∀ j ≥ n, Idle g (r.st j) (r.st (j + 1))) :
    (r.st m).ctr.fr.fq = (r.st n).ctr.fr.fq := by
  induction m, hnm using Nat.le_induction with
  | base => rfl
  | succ m hm ih => rw [(hidle m hm).fq_eq, ih]

theorem awaits_of_idle {n m : ℕ} (hnm : n ≤ m)
    (hidle : ∀ j ≥ n, Idle g (r.st j) (r.st (j + 1))) {i a : ℕ}
    (h : Awaits g i (r.st n).ctr.fr a) : Awaits g i (r.st m).ctr.fr a := by
  induction m, hnm using Nat.le_induction with
  | base => exact h
  | succ m hm ih =>
    have hidle := hidle m hm
    exact ⟨ih.headed, by rw [hidle.frs_eq]; exact ih.current, by rw [hidle.frs_eq]; exact ih.start,
      by rw [hidle.frs_eq]; exact ih.header⟩

/-- No call of its engine can wait any more for a line that is there. -/
theorem not_waits_of_holds (hw : Workload inp g) {c : Controller} (c' : Controller)
    (hpipe : Pipeline g c) {i b : ℕ} (hi : i < g.archInfo.nOfEngine)
    (hstale : stale g c = ∅) (hothers : others g c = 0) (hold : c.fr.cah.Holds b) :
    ((c.fr.fq i).head? = some b → ¬ Waits g i c c' .passFtoSIMD) ∧
      (Awaits g i c.fr b → ¬ Waits g i c c' .readNext) := by
  refine ⟨fun hfront hwait => (hwait b hfront).2 hold, fun hawait hwait => ?_⟩
  obtain ⟨k, out, hengine⟩ := hpipe.engines i
  rcases hwait with hfull | hfull | ⟨hneed, -⟩ | ⟨a, hawait', -, hmiss⟩
  · have := hengine.lines.room b hawait
    omega
  · -- the queue holds reads of wanted lines only, and `b` is none of them
    have hwant : ∀ a ∈ c.fr.requested, ∃ j < g.archInfo.nOfEngine, Wanted g j c.fr a := by
      intro a ha
      by_contra hnone
      push Not at hnone
      have hmem : a ∈ stale g c := mem_stale.mpr ⟨ha, hnone⟩
      rw [hstale] at hmem
      exact absurd hmem (Finset.notMem_empty a)
    have hnot : b ∉ c.fr.requested := fun hb => hpipe.requests.uncached b hb hold
    have hlt := requested_card_lt hi hwant (.inr hawait) hnot
    have hlen := length_tq_le hpipe.requests hothers
    have hlimit := hw.headed_le hawait.headed
    have hge : requestLimit ≤ c.fr.mem.tq.length := by
      simpa [Memory.willAcceptTransaction] using hfull
    omega
  · rw [hawait.current] at hneed
    cases hneed
  · obtain rfl : a = b := Option.some.inj (hawait'.header.symm.trans hawait.header)
    exact hmiss hold

/-- At last no line is asked for: the last line of a batch of replies would be used. -/
theorem Fair.eventually_requested (hw : Workload inp g) (hfair : Fair r.st) :
    ∀ᶠ n in atTop, (r.st n).ctr.fr.requested = ∅ := by
  obtain ⟨N, hN⟩ := eventually_atTop.mp ((eventually_idle hw r).and
    ((hfair.eventually_stale hw).and (hfair.eventually_others hw)))
  refine eventually_atTop.mpr ⟨N, fun n hn => Finset.eq_empty_of_forall_notMem fun a ha => ?_⟩
  obtain ⟨m, hm, hpc, hmem⟩ := hfair.exists_received hw.toEquipped ha
  obtain ⟨l, b, hfq⟩ : ∃ l b, (r.st m).ctr.fr.mem.fq = l ++ [b] :=
    (List.eq_nil_or_concat' _).resolve_left (List.ne_nil_of_mem hmem)
  -- the last reply is wanted by some engine
  obtain ⟨i, hi, hwant⟩ : ∃ i < g.archInfo.nOfEngine, Wanted g i (r.st m).ctr.fr b := by
    have hreq : b ∈ (r.st m).ctr.fr.requested := by
      rw [← Finset.mem_val, ← (hw.pipeline (r.reachable m)).requests.inFlight_eq, inFlight]
      refine Multiset.mem_add.mpr (.inr ?_)
      rw [hfq]
      simp
    by_contra hnone
    push Not at hnone
    have hstale : b ∈ stale g (r.st m).ctr := mem_stale.mpr ⟨hreq, hnone⟩
    rw [(hN m (hn.trans hm)).2.1] at hstale
    exact absurd hstale (Finset.notMem_empty b)
  obtain ⟨hpc', hctr⟩ := step_featureReceive hpc (r.next m)
  have hidle : ∀ j ≥ m, Idle g (r.st j) (r.st (j + 1)) := fun j hj => (hN j (by omega)).1
  have hcached : (r.st (m + 1)).ctr.fr.cah.Holds b := by
    rw [hctr]
    exact holds_featureReceive hfq
  -- it is still there when the engine comes to the call that waits for it
  have hstill : ∀ k, ∃ m' ≥ m, (r.st m').pc = .engine i k ∧ (r.st m').ctr.fr.cah.Holds b := by
    intro k
    obtain ⟨m', hm', hcall, hbefore⟩ := exists_engine_call r hpc' hi k
    refine ⟨m', by omega, hcall, ?_⟩
    rw [cah_eq_of_idle hm' (fun j hj => hidle j (by omega)) hbefore]
    exact hcached
  have hgo : ∀ m' ≥ m, (r.st m').ctr.fr.cah.Holds b → _ := fun m' hm' =>
    not_waits_of_holds hw (r.st (m' + 1)).ctr (hw.pipeline (r.reachable m')) hi
      (hN m' (by omega)).2.1 (hN m' (by omega)).2.2
  rcases hwant with hfront | hawait
  · obtain ⟨m', hm', hcall, hold⟩ := hstill .passFtoSIMD
    refine (hgo m' hm' hold).1 ?_ ((hidle m' hm').waits i .passFtoSIMD hcall)
    rw [fq_eq_of_idle hm' hidle]
    exact hfront
  · obtain ⟨m', hm', hcall, hold⟩ := hstill .readNext
    refine (hgo m' hm' hold).2 ?_ ((hidle m' hm').waits i .readNext hcall)
    exact awaits_of_idle hm' hidle hawait

/-! ## The queues -/

/-- What an idle step keeps, and a call that comes again and again sees, holds at last. -/
theorem eventually_of_call {P : Config → Prop} {i : ℕ} (hi : i < g.archInfo.nOfEngine)
    (k : EngineCall) (hkeep : ∀ᶠ n in atTop, P (r.st n) → P (r.st (n + 1)))
    (hcall : ∀ᶠ n in atTop, (r.st n).pc = .engine i k → P (r.st n)) :
    ∀ᶠ n in atTop, P (r.st n) :=
  eventually_of_stable hkeep ((frequently_engine r hi k).mp hcall)

theorem Fair.eventually_fq (hw : Workload inp g) (hfair : Fair r.st) {i : ℕ}
    (hi : i < g.archInfo.nOfEngine) : ∀ᶠ n in atTop, (r.st n).ctr.fr.fq i = [] := by
  have hidle := eventually_idle hw r
  have hreq := (tendsto_add_atTop_nat 1).eventually (hfair.eventually_requested hw)
  refine eventually_of_call (P := fun s => s.ctr.fr.fq i = []) hi .passFtoSIMD ?_ ?_
  · filter_upwards [hidle] with n hn hnil
    rw [hn.fq_eq, hnil]
  · filter_upwards [hidle, hreq] with n hn hnone hpc
    cases hfq : (r.st n).ctr.fr.fq i with
    | nil => rfl
    | cons a rest =>
      have := (hn.waits i .passFtoSIMD hpc a (by rw [hfq]; rfl)).1
      rw [hnone] at this
      exact absurd this (Finset.notMem_empty a)

/-- A fair DRAMsim3 takes everything when no line is asked for. -/
theorem Fair.eventually_tq (hw : Workload inp g) (hfair : Fair r.st) :
    ∀ᶠ n in atTop, (r.st n).ctr.fr.mem.tq = [] := by
  have hreq := (tendsto_add_atTop_nat 1).eventually (hfair.eventually_requested hw)
  have hle : ∀ᶠ n in atTop,
      (r.st (n + 1)).ctr.fr.mem.tq.length ≤ (r.st n).ctr.fr.mem.tq.length := by
    filter_upwards [eventually_idle hw r, hreq] with n hn hnone
    rcases hn.asks with ⟨-, hsuffix⟩ | ⟨i, hi, a, -, -, heq, -⟩
    · exact hsuffix.length_le
    · rw [hnone] at heq
      exact absurd heq.symm (Finset.insert_ne_empty a _)
  have hzero := eventually_eq_zero (f := fun n => (r.st n).ctr.fr.mem.tq.length) hle
    (.of_forall fun n hne => ?_)
  · exact hzero.mono fun n => List.eq_nil_of_length_eq_zero
  · obtain ⟨m, hm, hpc, hpc'⟩ := hfair.accepts n fun hnil => hne (by rw [hnil]; rfl)
    obtain ⟨t, rest, htq, hrest, -⟩ := step_accept (r.next m) hpc hpc'
    refine ⟨m, hm, ?_⟩
    rw [htq, hrest, List.length_cons]
    omega

/-- Nothing enters DRAMsim3 when the transaction queue is empty. -/
theorem dram_step {s s' : Config} (hstep : Step g s s')
    (htq : s.ctr.fr.mem.tq = []) : s'.ctr.dram.card ≤ s.ctr.dram.card := by
  cases hstep with
  | @call i k c c' hcall =>
    by_cases hwrite : k = .write
    · subst hwrite
      rcases call_write hcall with rfl | ⟨a, rest, -, rfl⟩ <;> exact le_rfl
    · rw [(call_frame hwrite hcall).dram_eq]
  | accept htq' =>
    rw [htq'] at htq
    cases htq
  | readReply => exact Multiset.card_erase_le
  | writeReply => exact Multiset.card_erase_le
  | _ => exact le_rfl

theorem Fair.eventually_dram (hw : Workload inp g) (hfair : Fair r.st) :
    ∀ᶠ n in atTop, (r.st n).ctr.dram = 0 := by
  have hle : ∀ᶠ n in atTop, (r.st (n + 1)).ctr.dram.card ≤ (r.st n).ctr.dram.card :=
    (hfair.eventually_tq hw).mono fun n htq => dram_step (r.next n) htq
  have hzero := eventually_eq_zero (f := fun n => (r.st n).ctr.dram.card) hle
    (.of_forall fun n hne => ?_)
  · exact hzero.mono fun n => Multiset.card_eq_zero.mp
  · obtain ⟨t, ht⟩ := Multiset.card_pos_iff_exists_mem.mp (Nat.pos_of_ne_zero hne)
    obtain ⟨m, hm, -, hmem, herase⟩ := hfair.answers n t ht
    refine ⟨m, hm, ?_⟩
    rw [herase]
    exact (Multiset.card_erase_lt_of_mem hmem).ne

/-! ## The graph readers -/

theorem willAccept_of_nil {m : Memory} (h : m.tq = []) : m.willAcceptTransaction = true := by
  rw [Memory.willAcceptTransaction, h]
  decide

theorem reqOver_of_requests {q q' : GraphReader} (h : q'.requests = q.requests) :
    q'.vReqOver = q.vReqOver ∧ q'.eReqOver = q.eReqOver := by
  simp only [GraphReader.requests, Prod.mk.injEq] at h
  exact h.2.2.2.2.2

theorem Fair.eventually_vReqOver (hw : Workload inp g) (hfair : Fair r.st) {i : ℕ}
    (hi : i < g.archInfo.nOfEngine) : ∀ᶠ n in atTop, ((r.st n).ctr.gr i).vReqOver = true := by
  have hidle := eventually_idle hw r
  refine eventually_of_call (P := fun s => (s.ctr.gr i).vReqOver = true) hi .vertexRequest ?_ ?_
  · filter_upwards [hidle] with n hn hover
    rw [(reqOver_of_requests (hn.requests_eq i)).1, hover]
  · filter_upwards [hidle, hfair.eventually_tq hw] with n hn htq hpc
    rcases hn.waits i .vertexRequest hpc with hover | hfull
    · exact hover
    · rw [willAccept_of_nil htq] at hfull
      cases hfull

theorem Fair.eventually_eReqOver (hw : Workload inp g) (hfair : Fair r.st) {i : ℕ}
    (hi : i < g.archInfo.nOfEngine) : ∀ᶠ n in atTop, ((r.st n).ctr.gr i).eReqOver = true := by
  have hidle := eventually_idle hw r
  refine eventually_of_call (P := fun s => (s.ctr.gr i).eReqOver = true) hi .edgeRequest ?_ ?_
  · filter_upwards [hidle] with n hn hover
    rw [(reqOver_of_requests (hn.requests_eq i)).2, hover]
  · filter_upwards [hidle, hfair.eventually_tq hw] with n hn htq hpc
    rcases hn.waits i .edgeRequest hpc with hover | hfull
    · exact hover
    · rw [willAccept_of_nil htq] at hfull
      cases hfull

/-- No reply is sorted when DRAMsim3 is empty. -/
theorem rq_step {s s' : Config} (hstep : Step g s s')
    (hdram : s.ctr.dram = 0) (i : ℕ) : s'.ctr.fr.mem.rq i <:+ s.ctr.fr.mem.rq i := by
  cases hstep with
  | @call j k c c' hcall =>
    by_cases hwrite : k = .write
    · subst hwrite
      rcases call_write hcall with rfl | ⟨a, rest, -, rfl⟩ <;> exact List.suffix_rfl
    · exact (call_frame hwrite hcall).rq_suffix i
  | featureReceive =>
    rw [featureReceive_eq]
  | readReply hmem =>
    rw [hdram] at hmem
    exact absurd hmem (Multiset.notMem_zero _)
  | _ => exact List.suffix_rfl

/-- A `GraphReceive` that takes no reply has none to take. -/
theorem EngineArrivals.rq_eq_nil {i kv ke R C V k : ℕ} {c c' : Controller}
    (hrow : (g.rowPtr i).length ≤ 2 ^ 24) (hcol : (g.colIdx i).length ≤ 2 ^ 24)
    (h : EngineArrivals g i kv ke R C V k c) (hcall : c.call g i .graphReceive = some c')
    (hlen : (c'.fr.mem.rq i).length = (c.fr.mem.rq i).length) : c.fr.mem.rq i = [] := by
  simp only [Controller.call] at hcall
  split at hcall
  · next hover =>
    -- the flag is up, so nothing is under way
    have hzero := ((h.reciOver_iff hrow hcol).mp hover).2.2
    refine List.eq_nil_iff_forall_not_mem.mpr fun kind hmem => ?_
    have hpos := List.count_pos_iff.mpr hmem
    have := hzero kind
    rw [underWay] at this
    omega
  · cases hcall
    cases hrq : c.fr.mem.rq i with
    | nil => rfl
    | cons kind rest =>
      simp only [Controller.setGr, Memory.getGraph, hrq, Function.update_self,
        List.length_cons] at hlen
      omega

theorem Fair.eventually_rq (hw : Workload inp g) (hfair : Fair r.st) {i : ℕ}
    (hi : i < g.archInfo.nOfEngine) : ∀ᶠ n in atTop, (r.st n).ctr.fr.mem.rq i = [] := by
  have hsuffix : ∀ᶠ n in atTop, (r.st (n + 1)).ctr.fr.mem.rq i <:+ (r.st n).ctr.fr.mem.rq i :=
    (hfair.eventually_dram hw).mono fun n hdram => rq_step (r.next n) hdram i
  have hsettles := eventually_eq_of_le (f := fun n => ((r.st n).ctr.fr.mem.rq i).length)
    (hsuffix.mono fun n h => h.length_le)
  refine eventually_of_call (P := fun s => s.ctr.fr.mem.rq i = []) hi .graphReceive ?_ ?_
  · filter_upwards [hsuffix] with n hn hnil
    rw [hnil] at hn
    exact List.suffix_nil.mp hn
  · filter_upwards [hsettles] with n hlen hpc
    obtain ⟨kv, ke, R, C, V, k, harr⟩ := (hw.running (r.reachable n)).arrivals i hi
    have hstep := r.next n
    generalize r.st n = s at hstep hpc hlen harr ⊢
    generalize r.st (n + 1) = s' at hstep hlen
    cases hstep with
    | call hcall =>
      cases hpc
      exact harr.rq_eq_nil (hw.row_le i hi) (hw.col_le i hi) hcall hlen
    | _ => cases hpc

theorem Fair.eventually_reciOver (hw : Workload inp g) (hfair : Fair r.st) {i : ℕ}
    (hi : i < g.archInfo.nOfEngine) : ∀ᶠ n in atTop, ((r.st n).ctr.gr i).reciOver = true := by
  filter_upwards [hfair.eventually_vReqOver hw hi, hfair.eventually_eReqOver hw hi,
    hfair.eventually_tq hw, hfair.eventually_dram hw, hfair.eventually_rq hw hi]
    with n hv he htq hdram hrq
  obtain ⟨kv, ke, R, C, V, k, harr⟩ := (hw.running (r.reachable n)).arrivals i hi
  refine (harr.reciOver_iff (hw.row_le i hi) (hw.col_le i hi)).mpr ⟨hv, he, fun kind => ?_⟩
  rw [underWay, htq, hdram, hrq]
  simp

/-- A `NextFeature` that passes on no edge when all replies are there has none to pass on. -/
theorem EngineArrivals.end_of_stream {i kv ke R C V k : ℕ} {c c' : Controller}
    (hv : ValidCsr (g.rowPtr i) (g.colIdx i)) (hedge : 0 < (g.colIdx i).length)
    (h : EngineArrivals g i kv ke R C V k c) (hover : (c.gr i).reciOver = true)
    (hcall : c.call g i .nextFeature = some c') (hsame : c'.fr = c.fr) :
    k = g.archInfo.bf * (g.colIdx i).length := by
  by_contra hne
  have hle := h.stream.cursor.le
  have harrived := h.arrived hv hover (by omega)
  obtain ⟨q, next, hnext, ⟨hk, -⟩ | ⟨-, hnot, -⟩ | ⟨-, -, rfl, -⟩⟩ := h.stream.nextFeature hv hedge
  · exact hne hk
  · exact hnot harrived
  · have hpass : ¬ (c.gr i).passOver = true := fun hpass => hne (h.passed hpass)
    simp only [Controller.call, if_neg hpass, hnext, Option.some.injEq] at hcall
    rw [← hcall] at hsame
    have hlen := congrArg (fun s => (s.pq i).length) hsame
    simp [enterFtoList, edgeAt, edgeOf] at hlen

theorem Fair.eventually_edges (hw : Workload inp g) (hfair : Fair r.st) {i : ℕ}
    (hi : i < g.archInfo.nOfEngine) : ∀ᶠ n in atTop,
      edgesPassed g i ((r.st n).ctr.gr i) = g.archInfo.bf * (g.colIdx i).length := by
  have hidle := eventually_idle hw r
  refine eventually_of_call (P := fun s => edgesPassed g i (s.ctr.gr i) =
    g.archInfo.bf * (g.colIdx i).length) hi .nextFeature ?_ ?_
  · filter_upwards [hidle] with n hn hall
    rw [hn.edges_eq, hall]
  · filter_upwards [hidle, hfair.eventually_reciOver hw hi] with n hn hover hpc
    obtain ⟨kv, ke, R, C, V, k, harr⟩ := (hw.running (r.reachable n)).arrivals i hi
    have hsame := hn.waits i .nextFeature hpc
    have hstep := r.next n
    generalize r.st n = s at hstep hpc hover harr hsame ⊢
    generalize r.st (n + 1) = s' at hstep hsame
    cases hstep with
    | call hcall =>
      cases hpc
      rw [harr.edgesPassed_eq]
      exact harr.end_of_stream (hw.valid i) (hw.edge_pos i hi) hover hcall hsame
    | _ => cases hpc

/-! ## The end -/

/-- Engine `i` has passed on all edges, and all its queues are empty. -/
structure Drained (g : Globals) (i : ℕ) (c : Controller) : Prop where
  edges : edgesPassed g i (c.gr i) = g.archInfo.bf * (g.colIdx i).length
  fq_eq : c.fr.fq i = []
  current : (c.fr.frs i).pqReadNeed = true
  pq_eq : c.fr.pq i = []
  wq_eq : (c.si i).wq = []

theorem Fair.eventually_pq (hw : Workload inp g) (hfair : Fair r.st) {i : ℕ}
    (hi : i < g.archInfo.nOfEngine) : ∀ᶠ n in atTop,
      ((r.st n).ctr.fr.frs i).pqReadNeed = true ∧ (r.st n).ctr.fr.pq i = [] := by
  have hidle := eventually_idle hw r
  refine eventually_of_call (P := fun s => (s.ctr.fr.frs i).pqReadNeed = true ∧ s.ctr.fr.pq i = [])
    hi .readNext ?_ ?_
  · filter_upwards [hidle] with n hn hnil
    rw [hn.frs_eq, hn.pq_eq]
    exact hnil
  · have hreq := (tendsto_add_atTop_nat 1).eventually (hfair.eventually_requested hw)
    filter_upwards [hidle, hreq, hfair.eventually_tq hw, hfair.eventually_fq hw hi]
      with n hn hempty htq hfq hpc
    rcases hn.waits i .readNext hpc with hfull | hfull | hnone | ⟨a, -, ha, -⟩
    · rw [hfq] at hfull
      cases hfull
    · rw [willAccept_of_nil htq] at hfull
      cases hfull
    · exact hnone
    · rw [hempty] at ha
      exact absurd ha (Finset.notMem_empty a)

theorem Fair.eventually_wq (hw : Workload inp g) (hfair : Fair r.st) {i : ℕ}
    (hi : i < g.archInfo.nOfEngine) : ∀ᶠ n in atTop, ((r.st n).ctr.si i).wq = [] := by
  have hidle := eventually_idle hw r
  refine eventually_of_call (P := fun s => (s.ctr.si i).wq = []) hi .write ?_ ?_
  · filter_upwards [hidle] with n hn hnil
    rw [hn.si_eq, hnil]
  · filter_upwards [hidle, hfair.eventually_tq hw] with n hn htq hpc
    rcases hn.waits i .write hpc with hnil | hfull
    · exact hnil
    · rw [willAccept_of_nil htq] at hfull
      cases hfull

theorem Fair.eventually_drained (hw : Workload inp g) (hfair : Fair r.st) :
    ∀ᶠ n in atTop, ∀ i < g.archInfo.nOfEngine, Drained g i (r.st n).ctr := by
  refine (eventually_all_finset (Finset.range g.archInfo.nOfEngine)).mpr ?_ |>.mono
    fun n h i hi => h i (Finset.mem_range.mpr hi)
  intro i hmem
  have hi := Finset.mem_range.mp hmem
  filter_upwards [hfair.eventually_edges hw hi, hfair.eventually_fq hw hi,
    hfair.eventually_pq hw hi, hfair.eventually_wq hw hi] with n hedges hfq hpq hwq
  exact ⟨hedges, hfq, hpq.1, hpq.2, hwq⟩

end Run

/-- A drained engine has queued its budget of writes. -/
theorem Drained.cnt_eq (he : Equipped inp g) {i : ℕ} {c : Controller} (hpipe : Pipeline g c)
    (h : Drained g i c) : (c.si i).cnt = budget g i := by
  obtain ⟨k, out, hengine⟩ := hpipe.engines i
  obtain ⟨items, hfq, -, hout⟩ := hengine.lines.queued
  have hitems : items = [] := by
    rw [h.fq_eq] at hfq
    cases items with
    | nil => rfl
    | cons it items =>
      rw [encode_cons] at hfq
      cases hfq
  have hk : k = g.archInfo.bf * (g.colIdx i).length := by
    rcases hengine.cursor with ⟨-, hcursor⟩ | ⟨hbf, -⟩
    · rw [← h.edges, edgesPassed, hcursor.pos]
    · exact absurd hbf he.bf_pos.ne'
  have hall : streamed g i k = refStream i (g.rowPtr i) (g.colIdx i) g.archInfo.bf := by
    rw [streamed, hk, ← length_refStream (he.valid i), List.take_length]
  -- nothing is queued or current, so that all results are passed on
  have hcount : out.count 0 = g.archInfo.bf * Simd.rowsOf g i := by
    rw [hitems, restTokens, if_pos h.current, h.pq_eq, hall] at hout
    simp only [List.map_nil, List.append_nil, List.flatMap_nil] at hout
    rw [hout, count_planTokens, he.toPrepared.countP_isLast]
  rw [hengine.rows.cnt_eq, hcount]
  rcases Nat.eq_zero_or_pos (Simd.rowsOf g i) with hzero | hrows
  · rw [hzero, budget, hzero, Nat.mul_zero, Nat.zero_mul]
    rfl
  · exact he.pushed_eq hrows

/-- When all is drained the counter is zero. -/
theorem totalWrite_eq_zero (hw : Workload inp g) {c : Controller} (hrun : Running g c)
    (htq : c.fr.mem.tq = []) (hdram : c.dram = 0)
    (h : ∀ i < g.archInfo.nOfEngine, Drained g i c) : c.totalWrite = 0 := by
  have hcnt : ∑ i ∈ Finset.range g.archInfo.nOfEngine, (c.si i).cnt = g.totalWrite := by
    rw [hw.totalWrite_eq.1]
    exact Finset.sum_congr rfl fun i hi =>
      (h i (Finset.mem_range.mp hi)).cnt_eq hw.toEquipped hrun.pipe
  have hwq : ∑ i ∈ Finset.range g.archInfo.nOfEngine, (c.si i).wq.length = 0 :=
    Finset.sum_eq_zero fun i hi => by rw [(h i (Finset.mem_range.mp hi)).wq_eq]; rfl
  have hcons := hrun.writes.conserved
  have htotal := hrun.writes.total
  rw [hcnt, hwq, htq, hdram] at hcons
  simp only [writes, List.countP_nil, Multiset.countP_zero, Nat.zero_add] at hcons
  omega

/-- No run on a fair DRAMsim3 goes on for ever. -/
theorem not_fair (hw : Workload inp g) (r : Run (Step g) (.init g)) : ¬ Fair r.st := by
  intro hfair
  have hend := (hfair.eventually_tq hw).and
    ((hfair.eventually_dram hw).and (hfair.eventually_drained hw))
  obtain ⟨n, hpc, htq, hdram, hdrained⟩ := ((frequently_loopTest r).and_eventually hend).exists
  have hzero := totalWrite_eq_zero hw (hw.running (r.reachable n)) htq hdram hdrained
  have hnext := pc_ne_done r (n + 1)
  have hstep := r.next n
  generalize r.st n = s at hstep hpc hzero
  generalize r.st (n + 1) = s' at hstep hnext
  cases hstep with
  | again hne => exact hne hzero
  | exit => exact hnext rfl
  | _ => cases hpc

/-- A run that has not ended goes on. -/
theorem exists_step (hw : Workload inp g) {s : Config} (hs : s.Reachable g)
    (hdone : s.pc ≠ .done) : ∃ s', Step g s s' := by
  have hrun := hw.running hs
  obtain ⟨pc, c⟩ := s
  cases pc with
  | engine i k =>
    obtain ⟨c', hcall⟩ := exists_call hw hrun (engine_lt_of_reachable hs rfl) k
    exact ⟨_, .call hcall⟩
  | featureReceive => exact ⟨_, .featureReceive⟩
  | consumeTransaction => exact ⟨_, .refuse⟩
  | updateCycle => exact ⟨_, .tick⟩
  | loopTest =>
    by_cases hzero : c.totalWrite = 0
    · exact ⟨_, .exit hzero⟩
    · exact ⟨_, .again hzero⟩
  | done => exact absurd rfl hdone

end Sgcn
