-- SUMMARY: A run reads every feature line that an edge needs, and reads it once when the cache can hold it.
import Sgcn.System.Progress

/-!
# Feature traffic

`f_ele_access` counts the feature lines that DRAMsim3 has delivered. Every line of every edge
has been asked for before it is queued, so that a whole run reads each of them at least once.
A line is asked for again when it was evicted only. If no cache set has more lines to hold
than it has ways, nothing is evicted, and each line is read exactly once.
-/

namespace Sgcn

open FeatureReader

variable {inp : Input} {g : Globals} {s s' : FeatureReader} {N R R' : Finset ℕ} {a b i j : ℕ}
  {edges : List EdgeInfo}

/-! ## The cells of the edges -/

/-- The header before the lines of a row, in the modes that have one. -/
def headerOf (g : Globals) (dst : ℕ) : List ℕ :=
  if Headed g then (g.xToAddr dst)[0]?.toList else []

/-- The cells of the table that an edge names: its header and the lines of its plan. -/
def edgeCells (g : Globals) (dst fold : ℕ) : List ℕ := headerOf g dst ++ plan g dst fold

/-- The feature lines that the edges of the engines name. -/
def needed (g : Globals) : Finset ℕ :=
  (Finset.range g.archInfo.nOfEngine).biUnion fun i =>
    ((refStream i (g.rowPtr i) (g.colIdx i) g.archInfo.bf).flatMap fun ei =>
      edgeCells g ei.dst ei.vFold).toFinset

theorem mem_needed : a ∈ needed g ↔ ∃ i < g.archInfo.nOfEngine,
    ∃ ei ∈ refStream i (g.rowPtr i) (g.colIdx i) g.archInfo.bf,
      a ∈ edgeCells g ei.dst ei.vFold := by
  simp only [needed, Finset.mem_biUnion, Finset.mem_range, List.mem_toFinset, List.mem_flatMap]

/-- No cache set has more of the lines `N` to hold than it has ways. -/
def Fits (g : Globals) (N : Finset ℕ) : Prop :=
  ∀ set, (N.filter fun a => Cache.findSet g.archInfo a = set).card ≤ g.archInfo.cacheWay

/-! ## The ledger -/

/-- `R` are the lines asked for so far, all of them among `N`. Whatever is outstanding, cached
or queued is one of them. Each has been read or is outstanding; when nothing is evicted, each
is outstanding or cached and has been asked for once. -/
structure Ledger (g : Globals) (N R : Finset ℕ) (s : FeatureReader) : Prop where
  needed : R ⊆ N
  asked : s.requested ⊆ R
  held : ∀ a, s.cah.Holds a → a ∈ R
  queued : ∀ i, ∀ a ∈ s.fq i, 1 < a → a ∈ R
  count : R.card + s.mem.fq.length ≤ s.requested.card + s.mem.fEleAccess
  once : Fits g N → (∀ a ∈ R, a ∈ s.requested ∨ s.cah.Holds a) ∧
    R.card + s.mem.fq.length = s.requested.card + s.mem.fEleAccess

theorem Ledger.init (g : Globals) (N : Finset ℕ) : Ledger g N ∅ .init where
  needed := Finset.empty_subset N
  asked := Finset.Subset.refl _
  held := by
    rintro a ⟨set, hmem⟩
    cases hmem
  queued := fun i a ha => by cases ha
  count := le_rfl
  once := fun _ => ⟨fun a ha => absurd ha (Finset.notMem_empty a), rfl⟩

/-- What the ledger depends on. The queues may lose entries. -/
theorem Ledger.congr (h : Ledger g N R s) (hreq : s'.requested = s.requested)
    (hcah : ∀ a, s'.cah.Holds a ↔ s.cah.Holds a)
    (hfq : ∀ i, ∀ a ∈ s'.fq i, 1 < a → a ∈ R)
    (hreplies : s'.mem.fq = s.mem.fq) (hacc : s'.mem.fEleAccess = s.mem.fEleAccess) :
    Ledger g N R s' where
  needed := h.needed
  asked := by rw [hreq]; exact h.asked
  held := fun a ha => h.held a ((hcah a).mp ha)
  queued := hfq
  count := by rw [hreq, hreplies, hacc]; exact h.count
  once := by
    intro hfits
    obtain ⟨hwhere, hcount⟩ := h.once hfits
    refine ⟨fun a ha => ?_, by rw [hreq, hreplies, hacc]; exact hcount⟩
    rw [hreq, hcah]
    exact hwhere a ha

/-- Replies that arrive are counted. -/
theorem Ledger.setMem (h : Ledger g N R s) {m : Memory}
    (hbalance : m.fq.length + s.mem.fEleAccess = s.mem.fq.length + m.fEleAccess) :
    Ledger g N R { s with mem := m } where
  needed := h.needed
  asked := h.asked
  held := h.held
  queued := h.queued
  count := by
    have := h.count
    dsimp only
    omega
  once := fun hfits => by
    obtain ⟨hwhere, hexact⟩ := h.once hfits
    refine ⟨hwhere, ?_⟩
    dsimp only
    omega

/-- A line that is not cached is asked for. -/
theorem Ledger.request (h : Ledger g N R s) (ha : a ∈ N) (hmiss : ¬ s.cah.Holds a) :
    Ledger g N (insert a R) (s.request a) := by
  by_cases hold : a ∈ s.requested
  · have hsame : s.request a = s := if_pos hold
    rw [hsame, Finset.insert_eq_of_mem (h.asked hold)]
    exact h
  · have hnew : s.request a = { s with
        requested := insert a s.requested
        mem := s.mem.addTransaction ⟨a, false⟩ } := if_neg hold
    rw [hnew]
    have hcard : (insert a s.requested).card = s.requested.card + 1 :=
      Finset.card_insert_of_notMem hold
    have hcount := h.count
    have hle := Finset.card_insert_le a R
    refine ⟨Finset.insert_subset ha h.needed, Finset.insert_subset_insert a h.asked,
      fun b hb => Finset.mem_insert_of_mem (h.held b hb),
      fun i b hb hlt => Finset.mem_insert_of_mem (h.queued i b hb hlt), ?_, fun hfits => ?_⟩
    · rw [hcard]
      dsimp only [Memory.addTransaction]
      omega
    · obtain ⟨hwhere, hexact⟩ := h.once hfits
      -- what was asked for is outstanding or cached, so that `a` is new
      have hfresh : a ∉ R := fun hmem => (hwhere a hmem).elim hold hmiss
      have hcard' := Finset.card_insert_of_notMem hfresh
      refine ⟨fun b hb => ?_, ?_⟩
      · rcases Finset.mem_insert.mp hb with rfl | hb
        · exact .inl (Finset.mem_insert_self _ _)
        · exact (hwhere b hb).imp Finset.mem_insert_of_mem id
      · rw [hcard, hcard']
        dsimp only [Memory.addTransaction]
        omega

/-- A line that is looked up is among those asked for. -/
theorem Ledger.fetched (h : Ledger g N R s) (ha : a ∈ N) (hfetch : Fetched a s s')
    (hfq : ∀ i, ∀ b ∈ s'.fq i, 1 < b → b = a ∨ b ∈ s.fq i) :
    ∃ R', R ⊆ R' ∧ a ∈ R' ∧ Ledger g N R' s' := by
  have hcah : ∀ b, s'.cah.Holds b ↔ s.cah.Holds b := fun b => holds_of_perm hfetch.cah
  obtain ⟨hhold, hreq, hmem⟩ | ⟨hmiss, hreq, hmem⟩ := hfetch.asks
  · refine ⟨R, subset_rfl, h.held a hhold, h.congr hreq hcah (fun i b hb hlt => ?_)
      (by rw [hmem]) (by rw [hmem])⟩
    rcases hfq i b hb hlt with rfl | hb
    · exact h.held b hhold
    · exact h.queued i b hb hlt
  · have hrequest := h.request ha hmiss
    refine ⟨insert a R, Finset.subset_insert a R, Finset.mem_insert_self a R,
      hrequest.congr hreq (fun b => ?_) (fun i b hb hlt => ?_) (by rw [hmem]) (by rw [hmem])⟩
    · rw [hcah, request_cah]
    · rcases hfq i b hb hlt with rfl | hb
      · exact Finset.mem_insert_self _ _
      · exact Finset.mem_insert_of_mem (h.queued i b hb hlt)

/-- What is queued beside the markers is queued before, or is the line that is read. -/
theorem FeatureReader.PlannedRead.mem_fq (h : PlannedRead g i a s s') (hlt : 1 < b)
    (hb : b ∈ s'.fq j) : b = a ∨ b ∈ s.fq j := by
  obtain ⟨v, hv, hfq⟩ := h.fq_eq
  rw [hfq] at hb
  by_cases hj : j = i
  · subst hj
    rw [Function.update_self] at hb
    rcases List.mem_append.mp hb with hb | hb
    · exact .inr hb
    · simp only [encode, List.flatMap_cons, List.flatMap_nil, List.append_nil,
        List.mem_cons] at hb
      rcases hb with rfl | hb
      · rcases hv with rfl | ⟨rfl, -⟩
        · exact .inl rfl
        · exact absurd hlt (lt_irrefl 1)
      · split at hb
        · rw [List.mem_singleton.mp hb] at hlt
          cases hlt
        · cases hb
  · rw [Function.update_of_ne hj] at hb
    exact .inr hb

theorem Ledger.begun {t : FeatureReader} (h : Ledger g N R s) (hbegun : s.begun i = some t) :
    Ledger g N R t := by
  obtain ⟨-, rfl⟩ | ⟨ei, rest, -, -, rfl⟩ := begun_cases hbegun
  · exact h
  · exact h.congr rfl (fun _ => Iff.rfl) h.queued rfl rfl

/-- `PassFtoSIMD` asks for lines that have been asked for before only. -/
theorem Ledger.passEffect {pass : ℤ} (h : Ledger g N R s) (heffect : PassEffect g i s pass s') :
    Ledger g N R s' := by
  cases heffect with
  | empty => exact h
  | @stall a hhead hcell hmiss =>
    have hmem : a ∈ R := h.queued i a (List.mem_of_head? hhead) hcell.one_lt
    have hrequest := h.request (h.needed hmem) hmiss
    rwa [Finset.insert_eq_of_mem hmem] at hrequest
  | @pass it rest cah hfq hok hhit hperm =>
    refine h.congr rfl (fun b => holds_of_perm hperm) (fun k b hb hlt => ?_) rfl rfl
    by_cases hk : k = i
    · subst hk
      simp only [Function.update_self] at hb
      refine h.queued k b ?_ hlt
      rw [hfq, encode_cons]
      exact List.mem_cons_of_mem _ (List.mem_append_right _ hb)
    · simp only [Function.update_of_ne hk] at hb
      exact h.queued k b hb hlt

/-- A set that has room evicts nothing. -/
theorem holds_insert {cah : Cache} (hroom : (cah.saCache (Cache.findSet g.archInfo a)).length ≠
    g.archInfo.cacheWay) (hb : b = a ∨ cah.Holds b) : (cah.insert g.archInfo a).Holds b := by
  unfold Cache.insert
  simp only [if_neg hroom]
  rcases hb with rfl | ⟨set, hmem⟩
  · exact ⟨Cache.findSet g.archInfo b, by simp⟩
  · refine ⟨set, ?_⟩
    by_cases hset : set = Cache.findSet g.archInfo a
    · subst hset
      simp [hmem]
    · simpa [Function.update_of_ne hset] using hmem

/-- There is room for a line of `N` that is not cached. -/
theorem Fits.room {cah : Cache} (hfits : Fits g N) (hcache : cah.Ok g.archInfo)
    (hsub : ∀ b, cah.Holds b → b ∈ N) (ha : a ∈ N) (hmiss : ¬ cah.Holds a) :
    (cah.saCache (Cache.findSet g.archInfo a)).length ≠ g.archInfo.cacheWay := by
  have hnodup : (a :: cah.saCache (Cache.findSet g.archInfo a)).Nodup :=
    List.nodup_cons.mpr ⟨fun hmem => hmiss ⟨_, hmem⟩, hcache.nodup _⟩
  have hle : (a :: cah.saCache (Cache.findSet g.archInfo a)).toFinset.card ≤
      (N.filter fun b => Cache.findSet g.archInfo b = Cache.findSet g.archInfo a).card := by
    refine Finset.card_le_card fun b hb => ?_
    rcases List.mem_cons.mp (List.mem_toFinset.mp hb) with rfl | hb
    · exact Finset.mem_filter.mpr ⟨ha, rfl⟩
    · exact Finset.mem_filter.mpr ⟨hsub b ⟨_, hb⟩, hcache.placed _ b hb⟩
  have hway := hfits (Cache.findSet g.archInfo a)
  rw [List.toFinset_card_of_nodup hnodup, List.length_cons] at hle
  omega

/-- A reply enters the cache. -/
theorem Ledger.receive {dram : Multiset Transaction} (hmiss : Outstanding g dram s)
    (h : Ledger g N R s) {l : List ℕ} (hfq : s.mem.fq = a :: l) :
    Ledger g N R { s with
      cah := s.cah.insert g.archInfo a
      requested := s.requested.erase a
      mem := { s.mem with fq := s.mem.fq.tail } } := by
  have hreq : a ∈ s.requested := by
    rw [← Finset.mem_val, ← hmiss.inFlight_eq, inFlight, hfq]
    exact Multiset.mem_add.mpr (.inr (by simp))
  have hcard := Finset.card_erase_add_one hreq
  have hcount := h.count
  rw [hfq, List.length_cons] at hcount
  refine ⟨h.needed, (Finset.erase_subset a _).trans h.asked, ?_, h.queued, ?_, fun hfits => ?_⟩
  · rintro b ⟨set, hb⟩
    rcases Cache.mem_insert hb with ⟨rfl, -⟩ | hb
    · exact h.asked hreq
    · exact h.held b ⟨set, hb⟩
  · simp only [hfq, List.tail_cons]
    omega
  · obtain ⟨hwhere, hexact⟩ := h.once hfits
    rw [hfq, List.length_cons] at hexact
    have hroom := hfits.room hmiss.cache (fun b hb => h.needed (h.held b hb))
      (h.needed (h.asked hreq)) (hmiss.uncached a hreq)
    refine ⟨fun b hb => ?_, ?_⟩
    · by_cases hba : b = a
      · exact .inr (holds_insert hroom (.inl hba))
      · exact (hwhere b hb).imp (fun hb => Finset.mem_erase.mpr ⟨hba, hb⟩)
          fun hb => holds_insert hroom (.inr hb)
    · simp only [hfq, List.tail_cons]
      omega

theorem Ledger.featureReceive {dram : Multiset Transaction} (hmiss : Outstanding g dram s)
    (h : Ledger g N R s) : Ledger g N R (s.featureReceive g) := by
  suffices key : ∀ (l : List ℕ) (t : FeatureReader), t.mem.fq = l → Outstanding g dram t →
      Ledger g N R t → Ledger g N R (l.foldl (fun s address =>
        { s with
          cah := s.cah.insert g.archInfo address
          requested := s.requested.erase address
          mem := { s.mem with fq := s.mem.fq.tail } }) t) from key s.mem.fq s rfl hmiss h
  intro l
  induction l with
  | nil => exact fun t _ _ ht => ht
  | cons a l ih =>
    intro t hfq hmiss ht
    exact ih _ (by simp only [hfq, List.tail_cons]) (hmiss.receive hfq) (ht.receive hmiss hfq)

/-! ## The edges that have been read -/

/-- Of the edges passed on to engine `i`, all that are not queued have been read, the current
one up to its cursor: their cells have been asked for. -/
def EngineReads (g : Globals) (i : ℕ) (edges : List EdgeInfo) (R : Finset ℕ)
    (s : FeatureReader) : Prop :=
  ∃ finished current, edges = finished ++ current ++ s.pq i ∧
    (∀ ei ∈ finished, ∀ a ∈ edgeCells g ei.dst ei.vFold, a ∈ R) ∧
    if (s.frs i).pqReadNeed then current = []
    else ∃ ei, current = [ei] ∧ ei.dst = (s.frs i).dst ∧ ei.vFold = (s.frs i).vFold ∧
      ((s.frs i).curColIdx ≠ 0 → ∀ a ∈ headerOf g ei.dst, a ∈ R) ∧
      ∀ a ∈ (plan g ei.dst ei.vFold).take (place g (s.frs i)), a ∈ R

theorem EngineReads.init (g : Globals) (i : ℕ) : EngineReads g i [] R .init :=
  ⟨[], [], rfl, fun _ hei => absurd hei List.not_mem_nil, rfl⟩

theorem EngineReads.mono (h : EngineReads g i edges R s) (hsub : R ⊆ R') :
    EngineReads g i edges R' s := by
  obtain ⟨finished, current, heq, hfinished, hcurrent⟩ := h
  refine ⟨finished, current, heq, fun ei hei a ha => hsub (hfinished ei hei a ha), ?_⟩
  split at hcurrent
  · next hneed =>
    rw [if_pos hneed]
    exact hcurrent
  · next hneed =>
    obtain ⟨ei, hei, hdst, hfold, hheader, hread⟩ := hcurrent
    rw [if_neg hneed]
    exact ⟨ei, hei, hdst, hfold, fun hcur a ha => hsub (hheader hcur a ha),
      fun a ha => hsub (hread a ha)⟩

theorem EngineReads.congr (h : EngineReads g i edges R s) (hsame : SameEngine i s s') :
    EngineReads g i edges R s' := by
  unfold EngineReads
  rw [hsame.pq, hsame.frs]
  exact h

theorem EngineReads.enterFtoList {ei : EdgeInfo} (h : EngineReads g ei.id edges R s) :
    EngineReads g ei.id (edges ++ [ei]) R (s.enterFtoList ei) := by
  obtain ⟨finished, current, heq, hfinished, hcurrent⟩ := h
  have hpq : (s.enterFtoList ei).pq ei.id = s.pq ei.id ++ [ei] := Function.update_self _ _ _
  refine ⟨finished, current, ?_, hfinished, hcurrent⟩
  rw [heq, hpq, ← List.append_assoc]

/-- The front of the queue becomes the current edge. -/
theorem EngineReads.begun {t : FeatureReader} (h : EngineReads g i edges R s)
    (hbegun : s.begun i = some t) : EngineReads g i edges R t := by
  obtain ⟨-, rfl⟩ | ⟨ei, rest, hneed, hpq, rfl⟩ := begun_cases hbegun
  · exact h
  · obtain ⟨finished, current, heq, hfinished, hcurrent⟩ := h
    rw [if_pos hneed] at hcurrent
    have hfrs : (s.consumePendingQ i ei rest).frs i = ⟨ei.isLast, ei.dst, ei.vFold, 0, false⟩ :=
      Function.update_self _ _ _
    have hrest : (s.consumePendingQ i ei rest).pq i = rest := Function.update_self _ _ _
    have hzero : place g ⟨ei.isLast, ei.dst, ei.vFold, 0, false⟩ = 0 := by
      unfold place
      split <;> rfl
    refine ⟨finished, [ei], ?_, hfinished, ?_⟩
    · rw [heq, hcurrent, hpq, hrest, List.append_nil, List.append_assoc]
      rfl
    · rw [hfrs, if_neg Bool.false_ne_true, hzero]
      exact ⟨ei, rfl, rfl, rfl, fun hcur => absurd rfl hcur, fun a ha => absurd ha List.not_mem_nil⟩

theorem mem_headerOf {dst : ℕ} (ha : a ∈ headerOf g dst) :
    Headed g ∧ (g.xToAddr dst)[0]? = some a := by
  unfold headerOf at ha
  split at ha
  · next hhead => exact ⟨hhead, Option.mem_toList.mp ha⟩
  · cases ha

/-- Reading the next line moves the cursor on. Its header is there, so that it has been asked for
as well. -/
theorem EngineReads.plannedRead (h : EngineReads g i edges R s)
    (hneed : (s.frs i).pqReadNeed = false) (hheld : ∀ b, s.cah.Holds b → b ∈ R) (hsub : R ⊆ R')
    (hmem : a ∈ R') (hread : PlannedRead g i a s s') : EngineReads g i edges R' s' := by
  obtain ⟨finished, current, heq, hfinished, hcurrent⟩ := h
  rw [if_neg (by simp [hneed])] at hcurrent
  obtain ⟨ei, rfl, hdst, hfold, hheader, htaken⟩ := hcurrent
  obtain ⟨f, hfrs, hmoved⟩ := hread.frs_eq
  have hplanned : planned g (s.frs i) = plan g ei.dst ei.vFold := by rw [planned, hdst, hfold]
  have hline := hread.line
  rw [hplanned] at hline
  have hheader' : ∀ b ∈ headerOf g ei.dst, b ∈ R' := by
    intro b hb
    by_cases hstart : (s.frs i).curColIdx = 0
    · obtain ⟨hhead, hb⟩ := mem_headerOf hb
      rw [hdst] at hb
      exact hsub (hheld b (hread.header b ⟨hhead, hneed, hstart, hb⟩))
    · exact hsub (hheader hstart b hb)
  have htaken' : ∀ b ∈ (plan g ei.dst ei.vFold).take (place g (s.frs i) + 1), b ∈ R' := by
    intro b hb
    rw [List.take_add_one, hline] at hb
    rcases List.mem_append.mp hb with hb | hb
    · exact hsub (htaken b hb)
    · rw [List.mem_singleton.mp hb]
      exact hmem
  have hfinished' : ∀ ei ∈ finished, ∀ b ∈ edgeCells g ei.dst ei.vFold, b ∈ R' :=
    fun e he b hb => hsub (hfinished e he b hb)
  unfold EngineReads
  rw [hread.pq_eq, hfrs, Function.update_self]
  cases hend : isEnd g (s.frs i) with
  | true =>
    -- the plan is complete
    refine ⟨finished ++ [ei], [], by rw [heq, List.append_nil], fun e he b hb => ?_,
      by rw [if_pos (hmoved.ended hend)]⟩
    rcases List.mem_append.mp he with he | he
    · exact hfinished' e he b hb
    · rw [List.mem_singleton.mp he] at hb
      rcases List.mem_append.mp hb with hb | hb
      · exact hheader' b hb
      · refine htaken' b ?_
        have hlen : place g (s.frs i) + 1 = (planned g (s.frs i)).length := of_decide_eq_true hend
        rwa [hlen, hplanned, List.take_length]
  | false =>
    obtain ⟨hf, hplace⟩ := hmoved.going hend
    refine ⟨finished, [ei], heq, hfinished', ?_⟩
    rw [hf, if_neg (by simp [hneed]), ← hf, hplace]
    exact ⟨ei, rfl, by rw [hf]; exact hdst, by rw [hf]; exact hfold, fun _ => hheader', htaken'⟩

/-- A finished reader has read all edges. -/
theorem EngineReads.all_read (h : EngineReads g i edges R s) (hneed : (s.frs i).pqReadNeed = true)
    (hpq : s.pq i = []) : ∀ ei ∈ edges, ∀ a ∈ edgeCells g ei.dst ei.vFold, a ∈ R := by
  obtain ⟨finished, current, heq, hfinished, hcurrent⟩ := h
  rw [if_pos hneed] at hcurrent
  rw [heq, hcurrent, hpq, List.append_nil, List.append_nil]
  exact hfinished

/-! ## A run -/

/-- The lines asked for are booked, and cover what every engine has read. -/
def TrafficInv (g : Globals) (c : Controller) : Prop :=
  ∃ R, Ledger g (needed g) R c.fr ∧ ∀ i < g.archInfo.nOfEngine,
    EngineReads g i (streamed g i (edgesPassed g i (c.gr i))) R c.fr

variable {c c' : Controller}

theorem CursorOk.edgesPassed_eq {k : ℕ} {r : GraphReader} (hbf : 0 < g.archInfo.bf)
    (h : CursorOk g i k r) : edgesPassed g i r = k := by
  rcases h with ⟨-, h⟩ | ⟨hzero, -⟩
  · exact h.pos
  · exact absurd hzero hbf.ne'

/-- A change of the memory in which every feature line that arrives is counted. -/
theorem TrafficInv.setMem (h : TrafficInv g c) (hgr : ∀ j, edgesPassed g j (c'.gr j) =
      edgesPassed g j (c.gr j)) {m : Memory} (hfr : c'.fr = { c.fr with mem := m })
    (hbalance : m.fq.length + c.fr.mem.fEleAccess = c.fr.mem.fq.length + m.fEleAccess) :
    TrafficInv g c' := by
  obtain ⟨R, hledger, hreads⟩ := h
  rw [TrafficInv, hfr]
  refine ⟨R, hledger.setMem hbalance, fun j hj => ?_⟩
  rw [hgr]
  exact (hreads j hj).congr ⟨rfl, rfl, rfl⟩

theorem edgesPassed_setGr {r : GraphReader} {m : Memory}
    (h : edgesPassed g i r = edgesPassed g i (c.gr i)) (j : ℕ) :
    edgesPassed g j ((c.setGr i r m).gr j) = edgesPassed g j (c.gr j) := by
  by_cases hj : j = i
  · subst hj
    rw [setGr_gr_self, h]
  · rw [setGr_gr_of_ne _ _ _ hj]

/-- An edge on its way is one of the stream. -/
theorem mem_needed_of_current {k : ℕ} (hi : i < g.archInfo.nOfEngine)
    (h : EngineReads g i (streamed g i k) R s) (hneed : (s.frs i).pqReadNeed = false)
    (ha : a ∈ edgeCells g (s.frs i).dst (s.frs i).vFold) : a ∈ needed g := by
  obtain ⟨finished, current, heq, -, hcurrent⟩ := h
  rw [if_neg (by simp [hneed])] at hcurrent
  obtain ⟨ei, rfl, hdst, hfold, -⟩ := hcurrent
  refine mem_needed.mpr ⟨i, hi, ei, List.mem_of_mem_take (i := k) ?_, by rwa [hdst, hfold]⟩
  rw [← streamed, heq]
  simp

theorem TrafficInv.begun {t : FeatureReader} (h : TrafficInv g c)
    (hbegun : c.fr.begun i = some t) : TrafficInv g { c with fr := t } := by
  obtain ⟨R, hledger, hreads⟩ := h
  refine ⟨R, hledger.begun hbegun, fun j hj => ?_⟩
  by_cases hji : j = i
  · subst hji
    exact (hreads j hj).begun hbegun
  · exact (hreads j hj).congr (sameEngine_begun hbegun hji)

theorem TrafficInv.readEffect {out : List ℤ} (ht : PlanTable g) (hi : i < g.archInfo.nOfEngine)
    (hplan : PlanInv g edges out i c.fr) (h : TrafficInv g c)
    (heffect : ReadEffect g i c.fr s') : TrafficInv g { c with fr := s' } := by
  cases heffect with
  | idle => exact h
  | @await t a hbegun hwait hmiss =>
    obtain ⟨R, hledger, hreads⟩ := h.begun hbegun
    have hmem : a ∈ needed g := by
      refine mem_needed_of_current hi (hreads i hi) hwait.current (List.mem_append_left _ ?_)
      rw [headerOf, if_pos hwait.headed]
      exact Option.mem_toList.mpr hwait.header
    exact ⟨insert a R, hledger.request hmem hmiss, fun j hj =>
      ((hreads j hj).mono (Finset.subset_insert a R)).congr (sameEngine_request t a j)⟩
  | @line t s' a hbegun hread =>
    obtain ⟨R, hledger, hreads⟩ := h.begun hbegun
    obtain ⟨hneed, -⟩ := begun_onPlan ht hplan.current hplan.pending hbegun
    have hmem : a ∈ needed g := mem_needed_of_current hi (hreads i hi) hneed
      (List.mem_append_right _ (List.mem_of_getElem? hread.line))
    obtain ⟨R', hsub, hmem', hledger'⟩ := hledger.fetched hmem hread.fetched
      fun j b hb hlt => hread.mem_fq hlt hb
    refine ⟨R', hledger', fun j hj => ?_⟩
    by_cases hji : j = i
    · subst hji
      exact (hreads j hj).plannedRead hneed hledger.held hsub hmem' hread
    · exact ((hreads j hj).mono hsub).congr (hread.sameEngine hji)

/-- `PassFtoSIMD` leaves the edges alone. -/
theorem PassEffect.reads {pass : ℤ} (heffect : PassEffect g i s pass s')
    (h : EngineReads g j edges R s) : EngineReads g j edges R s' := by
  have hframe : s'.pq = s.pq ∧ s'.frs = s.frs := by
    cases heffect <;> simp
  unfold EngineReads
  rw [hframe.1, hframe.2]
  exact h

theorem TrafficInv.call (he : Equipped inp g) (hpipe : Pipeline g c)
    (hi : i < g.archInfo.nOfEngine) (h : TrafficInv g c) {k : EngineCall} (hcall : c.call g i k = some c') : TrafficInv g c' := by
  obtain ⟨n, out, hengine⟩ := hpipe.engines i
  have hn := hengine.cursor.edgesPassed_eq he.bf_pos
  cases call_effect hcall with
  | skip => exact h
  | vertexRequest =>
    obtain ⟨l, hl⟩ := GraphReader.vertexRequest_mem g i (c.gr i) c.fr.mem
    exact h.setMem (edgesPassed_setGr (edgesPassed_vertexRequest g i _ _)) rfl
      (by rw [hl]; rfl)
  | edgeRequest =>
    obtain ⟨l, hl⟩ := GraphReader.edgeRequest_mem g i (c.gr i) c.fr.mem
    exact h.setMem (edgesPassed_setGr (edgesPassed_edgeRequest g i _ _)) rfl
      (by rw [hl]; rfl)
  | graphReceive =>
    refine h.setMem (edgesPassed_setGr (edgesPassed_graphReceive g i _ _)) rfl ?_
    unfold Memory.getGraph
    split <;> rfl
  | noFeature hnext =>
    rcases hengine.cursor.next he.toPrepared hnext with ⟨-, hnext'⟩ | ⟨ei, hei, -⟩
    · exact h.setMem (edgesPassed_setGr ((hnext'.edgesPassed_eq he.bf_pos).trans hn.symm)) rfl rfl
    · cases hei
  | @nextFeature r ei hnext =>
    rcases hengine.cursor.next he.toPrepared hnext with ⟨hnone, -⟩ |
      ⟨ei', hei', rfl, -, hstream, hnext'⟩
    · cases hnone
    · cases hei'
      obtain ⟨R, hledger, hreads⟩ := h
      refine ⟨R, hledger.congr rfl (fun _ => Iff.rfl) hledger.queued rfl rfl, fun j hj => ?_⟩
      by_cases hji : j = ei.id
      · subst hji
        simp only [Function.update_self, hnext'.edgesPassed_eq he.bf_pos, hstream]
        rw [← hn]
        exact (hreads ei.id hj).enterFtoList
      · simp only [Function.update_of_ne hji]
        exact (hreads j hj).congr (sameEngine_enterFtoList (Ne.symm hji))
  | readNext hfr =>
    obtain ⟨fr', hfr', heffect⟩ := readNext_effect he.table hpipe.requests.cache
      hengine.lines.current hengine.lines.pending
    rw [hfr] at hfr'
    cases hfr'
    exact h.readEffect he.table hi hengine.lines heffect
  | passFtoSIMD =>
    obtain ⟨R, hledger, hreads⟩ := h
    have heffect := (hengine.lines.passFtoSIMD hpipe.requests.cache).1
    exact ⟨R, hledger.passEffect heffect, fun j hj => heffect.reads (hreads j hj)⟩
  | write => exact h.setMem (fun _ => rfl) rfl rfl

/-- A feature line that arrives is counted. -/
theorem readCompleteCallback_balance {m m' : Memory} (h : m.readCompleteCallback g a = some m') :
    m'.fq.length + m.fEleAccess = m.fq.length + m'.fEleAccess := by
  unfold Memory.readCompleteCallback at h
  dsimp only at h
  split at h
  · split at h
    · cases h
      rfl
    · cases h
  · split at h
    · cases h
      simp only [List.length_append, List.length_singleton]
      omega
    · cases h
      rfl

theorem traffic_of_reachable (he : Equipped inp g) {s : Config} (hs : s.Reachable g) :
    TrafficInv g s.ctr := by
  refine Machine.Reachable.inv (I := fun s => TrafficInv g s.ctr) hs
    ⟨∅, .init g _, fun i _ => ?_⟩ ?_
  · have hzero : edgesPassed g i (GraphReader.init g i) = 0 := by simp [edgesPassed, GraphReader.init]
    change EngineReads g i (streamed g i (edgesPassed g i (GraphReader.init g i))) ∅ .init
    rw [hzero]
    exact .init g i
  intro t t' hreach h hstep
  have hpipe := he.pipeline hreach
  cases hstep with
  | call hcall => exact h.call he hpipe (engine_lt_of_reachable hreach rfl) hcall
  | featureReceive =>
    obtain ⟨R, hledger, hreads⟩ := h
    exact ⟨R, hledger.featureReceive hpipe.requests,
      fun i hi => (hreads i hi).congr (sameEngine_featureReceive i _)⟩
  | accept => exact h.setMem (fun _ => rfl) rfl rfl
  | readReply _ hreply =>
    exact h.setMem (fun _ => rfl) rfl (readCompleteCallback_balance hreply)
  | writeReply => exact h.setMem (fun _ => rfl) rfl rfl
  | refuse => exact h
  | tick => exact h
  | again => exact h
  | exit => exact h

/-! ## The end of a run -/

theorem Pc.start_ne_done (g : Globals) : Pc.start g ≠ .done := by
  unfold Pc.start
  split <;> intro hdone <;> cases hdone

/-- The loop is left from its test, with the counter at zero. -/
theorem step_to_done {s s' : Config} (hstep : Step g s s') (hdone : s'.pc = .done) :
    s.pc = .loopTest ∧ s.ctr.totalWrite = 0 := by
  cases hstep with
  | @call i k =>
    cases k with
    | write =>
      simp only [Pc.next] at hdone
      split at hdone <;> cases hdone
    | _ => cases hdone
  | again => exact absurd hdone (Pc.start_ne_done g)
  | exit hzero => exact ⟨rfl, hzero⟩
  | _ => cases hdone

/-- The loop goes on from its test with the counter above zero, and unchanged. -/
theorem step_loopTest {s s' : Config} (hstep : Step g s s') (hpc : s.pc = .loopTest) :
    s'.ctr = s.ctr ∧ (s'.pc = .done ↔ s.ctr.totalWrite = 0) := by
  cases hstep with
  | again hne =>
    exact ⟨rfl, fun hdone => absurd hdone (Pc.start_ne_done g), fun hzero => absurd hzero hne⟩
  | exit hzero => exact ⟨rfl, fun _ => hzero, fun _ => rfl⟩
  | _ => cases hpc

/-- The loop is left with the counter at zero. -/
theorem totalWrite_of_done {s : Config} (hs : s.Reachable g) (hpc : s.pc = .done) :
    s.ctr.totalWrite = 0 := by
  refine Machine.Reachable.inv (I := fun s => s.pc = .done → s.ctr.totalWrite = 0) hs ?_ ?_ hpc
  · intro hstart
    exact absurd hstart (Pc.start_ne_done g)
  · rintro t t' - - hstep hdone
    obtain ⟨htest, hzero⟩ := step_to_done hstep hdone
    rw [(step_loopTest hstep htest).1, hzero]

/-- At the end every engine has read and passed on all its edges. -/
theorem drained_of_done (hw : Workload inp g) {s : Config} (hs : s.Reachable g)
    (hpc : s.pc = .done) (hi : i < g.archInfo.nOfEngine) :
    edgesPassed g i (s.ctr.gr i) = g.archInfo.bf * (g.colIdx i).length ∧
      s.ctr.fr.pq i = [] ∧ (s.ctr.fr.frs i).pqReadNeed = true ∧ s.ctr.fr.fq i = [] := by
  have hrun := hw.running hs
  have hengines := hrun.pipe.of_totalWrite_zero hw hrun.writes (totalWrite_of_done hs hpc)
  obtain ⟨k, out, hengine⟩ := hrun.pipe.engines i
  obtain ⟨hk, hempty⟩ := hengine.done_of_cnt hw.toEquipped hi (hengines i hi).1
  exact ⟨(hengine.cursor.edgesPassed_eq hw.bf_pos).trans hk, hempty⟩

/-- At the end no feature line is on its way. -/
theorem requested_of_done (hw : Workload inp g) {s : Config} (hs : s.Reachable g)
    (hpc : s.pc = .done) : s.ctr.fr.requested = ∅ := by
  refine Finset.eq_empty_of_forall_notMem fun a ha => ?_
  obtain ⟨i, hi, hwait⟩ := (hw.pipeline hs).requests.waited a ha
  obtain ⟨-, -, hneed, hfq⟩ := drained_of_done hw hs hpc hi
  rcases hwait with hmem | hawait
  · rw [hfq] at hmem
    cases hmem
  · rw [hawait.current] at hneed
    cases hneed

end Sgcn
