-- SUMMARY: The shared outstanding-request set of the feature reader: every miss is in flight exactly once, and someone waits for it.
import Sgcn.Feature.Lru
import Sgcn.Feature.Stream
import Sgcn.System.Calls

/-!
# Misses

`requested` is meant to be the set of lines that are on their way from the memory.
`MissInv` says that it is, counts them, and says that no line is on its way in vain:
it is not in the cache, and some engine has it queued.
-/

namespace Sgcn

variable {g : Globals}

/-! ## The cache -/

namespace Cache

variable {arch : ArchInfo} {cah : Cache} {a b set : ℕ}

/-- Some set holds `a`. -/
def Holds (cah : Cache) (a : ℕ) : Prop := ∃ set, a ∈ cah.saCache set

/-- Every address is in the set it belongs to, at most once. -/
structure Ok (arch : ArchInfo) (cah : Cache) : Prop where
  placed : ∀ set, ∀ a ∈ cah.saCache set, findSet arch a = set
  nodup : ∀ set, (cah.saCache set).Nodup

theorem Ok.init (arch : ArchInfo) : Ok arch .init :=
  ⟨fun _ _ h => (by cases h), fun _ => List.nodup_nil⟩

theorem Ok.holds_iff (h : Ok arch cah) : cah.Holds a ↔ a ∈ cah.saCache (findSet arch a) := by
  constructor
  · rintro ⟨set, hmem⟩
    rwa [h.placed set a hmem]
  · intro hmem
    exact ⟨_, hmem⟩

theorem Ok.access_fst_iff (h : Ok arch cah) : (cah.access arch a).1 = true ↔ cah.Holds a := by
  rw [h.holds_iff, Cache.access_fst_iff]

/-- A look-up only changes the order within a set. -/
theorem access_perm (arch : ArchInfo) (cah : Cache) (a set : ℕ) :
    ((cah.access arch a).2.saCache set).Perm (cah.saCache set) := by
  unfold access
  dsimp only
  split
  · next hmem =>
    by_cases hset : set = findSet arch a
    · subst hset
      simp only [Function.update_self]
      exact (List.perm_cons_erase hmem).symm
    · simp only [Function.update_of_ne hset]
      exact List.Perm.refl _
  · exact List.Perm.refl _

theorem Ok.access (h : Ok arch cah) (a : ℕ) : Ok arch (cah.access arch a).2 where
  placed := fun set b hb => h.placed set b ((access_perm arch cah a set).mem_iff.mp hb)
  nodup := fun set => (access_perm arch cah a set).nodup_iff.mpr (h.nodup set)

/-- An insertion adds one address, and may evict others. -/
theorem mem_insert {set : ℕ} (hmem : b ∈ (cah.insert arch a).saCache set) :
    (b = a ∧ set = findSet arch a) ∨ b ∈ cah.saCache set := by
  unfold Cache.insert at hmem
  by_cases hset : set = findSet arch a
  · subst hset
    simp only [Function.update_self, List.mem_cons] at hmem
    rcases hmem with rfl | hmem
    · exact .inl ⟨rfl, rfl⟩
    · split at hmem
      · exact .inr (List.mem_of_mem_dropLast hmem)
      · exact .inr hmem
  · simp only [Function.update_of_ne hset] at hmem
    exact .inr hmem

theorem Ok.insert (h : Ok arch cah) (hnew : ¬ cah.Holds a) : Ok arch (cah.insert arch a) where
  placed := by
    intro set b hb
    rcases mem_insert hb with ⟨rfl, rfl⟩ | hb
    · rfl
    · exact h.placed set b hb
  nodup := by
    intro set
    unfold Cache.insert
    by_cases hset : set = findSet arch a
    · subst hset
      simp only [Function.update_self, List.nodup_cons]
      split
      · exact ⟨fun hmem => hnew ⟨_, List.mem_of_mem_dropLast hmem⟩,
          (h.nodup _).sublist (List.dropLast_sublist _)⟩
      · exact ⟨fun hmem => hnew ⟨_, hmem⟩, h.nodup _⟩
    · simp only [Function.update_of_ne hset]
      exact h.nodup set

end Cache

/-! ## Lines in flight -/

/-- A read whose reply goes to the feature reader. -/
def IsFeatureRead (g : Globals) (t : Transaction) : Prop :=
  t.isWrite = false ∧ g.archInfo.xwEleAddrStart ≤ t.address

instance (g : Globals) : DecidablePred (IsFeatureRead g) :=
  fun _ => inferInstanceAs (Decidable (_ ∧ _))

/-- The addresses of the feature reads among some transactions. -/
def featureReads (g : Globals) (ts : Multiset Transaction) : Multiset ℕ :=
  (ts.filter (IsFeatureRead g)).map Transaction.address

/-- The feature addresses in the transaction queue, inside DRAMsim3, or answered and
not yet taken. -/
def inFlight (g : Globals) (dram : Multiset Transaction) (m : Memory) : Multiset ℕ :=
  featureReads g m.tq + featureReads g dram + m.fq

theorem featureReads_cons_of_neg {t : Transaction} (ts : Multiset Transaction)
    (h : ¬ IsFeatureRead g t) : featureReads g (t ::ₘ ts) = featureReads g ts := by
  rw [featureReads, Multiset.filter_cons_of_neg _ h, featureReads]

theorem featureReads_cons_of_pos {t : Transaction} (ts : Multiset Transaction)
    (h : IsFeatureRead g t) : featureReads g (t ::ₘ ts) = t.address ::ₘ featureReads g ts := by
  rw [featureReads, Multiset.filter_cons_of_pos _ h, Multiset.map_cons, featureReads]

theorem featureReads_add (ts ts' : Multiset Transaction) :
    featureReads g (ts + ts') = featureReads g ts + featureReads g ts' := by
  rw [featureReads, Multiset.filter_add, Multiset.map_add, featureReads, featureReads]

theorem featureReads_erase_of_neg {t : Transaction} {ts : Multiset Transaction} (hmem : t ∈ ts)
    (h : ¬ IsFeatureRead g t) : featureReads g (ts.erase t) = featureReads g ts := by
  conv_rhs => rw [← Multiset.cons_erase hmem]
  rw [featureReads_cons_of_neg _ h]

/-- Reads of graph data and writes are not counted. -/
theorem inFlight_append {dram : Multiset Transaction} {m m' : Memory} {l : List Transaction}
    (htq : m'.tq = m.tq ++ l) (hfq : m'.fq = m.fq) (hl : ∀ t ∈ l, ¬ IsFeatureRead g t) :
    inFlight g dram m' = inFlight g dram m := by
  have hzero : featureReads g (l : Multiset Transaction) = 0 := by
    rw [featureReads, Multiset.filter_eq_nil.mpr (by simpa using hl), Multiset.map_zero]
  rw [inFlight, inFlight, htq, hfq, ← Multiset.coe_add, featureReads_add, hzero, add_zero]

/-- A requested line joins the lines in flight. -/
theorem inFlight_addReads {dram : Multiset Transaction} {m : Memory} {a : ℕ}
    (ha : g.archInfo.xwEleAddrStart ≤ a) :
    inFlight g dram (m.addReads [a]) = a ::ₘ inFlight g dram m := by
  have hone : featureReads g ([⟨a, false⟩] : List Transaction) = {a} :=
    featureReads_cons_of_pos 0 ⟨rfl, ha⟩
  have htq : (m.addReads [a]).tq = m.tq ++ [⟨a, false⟩] := rfl
  have hfq : (m.addReads [a]).fq = m.fq := rfl
  rw [inFlight, inFlight, htq, hfq, ← Multiset.coe_add, featureReads_add, hone,
    ← Multiset.singleton_add, add_comm (featureReads g m.tq), add_assoc, add_assoc, add_assoc]

/-- The outstanding requests. -/
structure MissInv (g : Globals) (dram : Multiset Transaction) (s : FeatureReader) : Prop where
  inFlight_eq : inFlight g dram s.mem = s.requested.val
  line : ∀ a ∈ s.requested, IsLine g.archInfo a
  uncached : ∀ a ∈ s.requested, ¬ s.cah.Holds a
  cache : s.cah.Ok g.archInfo
  waited : ∀ a ∈ s.requested, ∃ i < g.archInfo.nOfEngine, a ∈ s.fq i

namespace FeatureReader

variable {s s' : FeatureReader} {dram : Multiset Transaction} {a i : ℕ}

theorem request_requested (s : FeatureReader) (a : ℕ) :
    (s.request a).requested = insert a s.requested := by
  unfold request
  split
  · next hmem => rw [Finset.insert_eq_of_mem hmem]
  · rfl

@[simp] theorem request_cah (s : FeatureReader) (a : ℕ) : (s.request a).cah = s.cah := by
  unfold request
  split <;> rfl

/-- A failed look-up changes nothing. -/
theorem access_of_miss (h : s.cah.Ok g.archInfo) (hmiss : ¬ s.cah.Holds a) :
    s.access g a = (false, s) := by
  have hnot := mt h.holds_iff.mpr hmiss
  simp [access, Cache.access, hnot]

theorem access_fst_iff (h : s.cah.Ok g.archInfo) : (s.access g a).1 = true ↔ s.cah.Holds a :=
  h.access_fst_iff

end FeatureReader

namespace MissInv

open FeatureReader

variable {s s' : FeatureReader} {dram : Multiset Transaction} {a i : ℕ}

theorem init (g : Globals) : MissInv g 0 .init where
  inFlight_eq := rfl
  line := by simp [FeatureReader.init]
  uncached := by simp [FeatureReader.init]
  cache := .init _
  waited := by simp [FeatureReader.init]

/-- A change that asks for nothing new. -/
theorem keep (h : MissInv g dram s) (hreq : s'.requested = s.requested)
    (hflight : inFlight g dram s'.mem = inFlight g dram s.mem)
    (hcah : ∀ set, (s'.cah.saCache set).Perm (s.cah.saCache set))
    (hwait : ∀ a ∈ s.requested, ∃ i < g.archInfo.nOfEngine, a ∈ s'.fq i) : MissInv g dram s' where
  inFlight_eq := by rw [hflight, hreq]; exact h.inFlight_eq
  line := by rw [hreq]; exact h.line
  uncached := by
    rw [hreq]
    rintro a ha ⟨set, hmem⟩
    exact h.uncached a ha ⟨set, (hcah set).mem_iff.mp hmem⟩
  cache :=
    ⟨fun set a hmem => h.cache.placed set a ((hcah set).mem_iff.mp hmem),
      fun set => (hcah set).nodup_iff.mpr (h.cache.nodup set)⟩
  waited := by rw [hreq]; exact hwait

/-- A change that asks for a line that is not cached, with an engine that has it
queued. -/
theorem ask (h : MissInv g dram s) (hline : IsLine g.archInfo a) (hmiss : ¬ s.cah.Holds a)
    (hreq : s'.requested = (s.request a).requested) (hmem : s'.mem = (s.request a).mem)
    (hcah : s'.cah = s.cah) (hfq : ∀ j x, x ∈ s.fq j → x ∈ s'.fq j)
    (hi : i < g.archInfo.nOfEngine) (hwait : a ∈ s'.fq i) : MissInv g dram s' := by
  rw [request_requested] at hreq
  refine ⟨?_, ?_, ?_, by rw [hcah]; exact h.cache, ?_⟩
  · rw [hreq, hmem, request_mem]
    split
    · next hold => rw [Memory.addReads_nil, Finset.insert_eq_of_mem hold, h.inFlight_eq]
    · next hnew => rw [inFlight_addReads hline.ge, h.inFlight_eq, Finset.insert_val_of_notMem hnew]
  · rw [hreq]
    intro b hb
    rcases Finset.mem_insert.mp hb with rfl | hb
    · exact hline
    · exact h.line b hb
  · rw [hreq, hcah]
    intro b hb
    rcases Finset.mem_insert.mp hb with rfl | hb
    · exact hmiss
    · exact h.uncached b hb
  · rw [hreq]
    intro b hb
    rcases Finset.mem_insert.mp hb with rfl | hb
    · exact ⟨i, hi, hwait⟩
    · obtain ⟨j, hj, hmem'⟩ := h.waited b hb
      exact ⟨j, hj, hfq j b hmem'⟩

/-! ### Reading a line -/

theorem afterRead (h : MissInv g dram s) (hi : i < g.archInfo.nOfEngine)
    (hline : IsLine g.archInfo a) (isEnd : Bool) (f : FrStat) :
    MissInv g dram (s.afterRead g i a isEnd f) := by
  have hfq : ∀ j x, x ∈ s.fq j → x ∈ (s.afterRead g i a isEnd f).fq j := by
    intro j x hx
    rw [afterRead_fq]
    by_cases hj : j = i
    · subst hj
      rw [Function.update_self]
      exact List.mem_append_left _ hx
    · rwa [Function.update_of_ne hj]
  by_cases hhit : s.cah.Holds a
  · have hfetch : s.fetch g a = (s.access g a).2 := by
      rw [fetch_eq, if_pos ((access_fst_iff h.cache).mpr hhit)]
    unfold FeatureReader.afterRead at hfq ⊢
    rw [hfetch] at hfq ⊢
    refine h.keep rfl rfl (fun set => ?_) fun b hb => ?_
    · exact (Cache.access_perm _ _ _ set).trans (Cache.access_perm _ _ _ set)
    · obtain ⟨j, hj, hmem⟩ := h.waited b hb
      exact ⟨j, hj, hfq j b hmem⟩
  · -- the second look-up fails as the first did, so that the line itself is queued
    have hmiss := access_of_miss h.cache hhit
    have hfetch : s.fetch g a = s.request a := by simp [fetch_eq, hmiss]
    have hagain : (s.request a).access g a = (false, s.request a) :=
      access_of_miss (by rw [request_cah]; exact h.cache) (by rw [request_cah]; exact hhit)
    have hentry : s.entry g a = a := by simp [entry, hfetch, hagain]
    refine h.ask (i := i) hline hhit ?_ ?_ ?_ hfq hi ?_
    · simp [FeatureReader.afterRead, hfetch, hagain]
    · simp [FeatureReader.afterRead, hfetch, hagain]
    · simp [FeatureReader.afterRead, hfetch, hagain]
    · rw [afterRead_fq, Function.update_self, hentry, encode_cons]
      simp

theorem readNext {edges : List EdgeInfo} {out : List ℤ} (hmode : g.archInfo.mode = .xCmp)
    (ht : FeatureTable g) (h : MissInv g dram s) (hi : i < g.archInfo.nOfEngine)
    (hlines : LineInv g edges out i s) (hread : readNext g i s = some s') : MissInv g dram s' := by
  rcases readNext_cases hmode s i with hsame | ⟨hneed, hcur⟩ | ⟨ei, rest, hneed, hpq, hcur⟩
  · rw [hsame] at hread
    cases hread
    exact h
  · obtain ⟨a, f, hline, heq, -⟩ := readXCmp_spec ht (hlines.current hneed)
    rw [hcur, heq] at hread
    cases hread
    exact h.afterRead hi hline _ f
  · obtain ⟨hlines', hneed'⟩ := hlines.consumePendingQ ht hneed hpq
    obtain ⟨a, f, hline, heq, -⟩ := readXCmp_spec ht (hlines'.current hneed')
    rw [hcur, heq] at hread
    cases hread
    have h' : MissInv g dram (s.consumePendingQ i ei rest) :=
      h.keep rfl rfl (fun _ => List.Perm.refl _) h.waited
    exact h'.afterRead hi hline _ f

/-! ### Passing a line on -/

/-- A line that is passed on was cached, so that no request waits for it. -/
theorem passFtoSIMD {edges : List EdgeInfo} {out : List ℤ} (h : MissInv g dram s)
    (hi : i < g.archInfo.nOfEngine) (hlines : LineInv g edges out i s) :
    MissInv g dram (passFtoSIMD g i s).2 ∧
      ((passFtoSIMD g i s).1 = -1 → ∀ a, (s.fq i).head? = some a →
        a ∈ (passFtoSIMD g i s).2.requested) := by
  obtain ⟨items, hfq, hok, -⟩ := hlines.queued
  rcases passFtoSIMD_cases hfq hok with ⟨rfl, hpass⟩ |
    ⟨it, rest, rfl, ⟨hone, hmiss, hpass⟩ | ⟨hhit, hpass⟩⟩
  · rw [hpass, hfq]
    exact ⟨h, fun _ a ha => (by cases ha)⟩
  · have hline : IsLine g.archInfo it.1 := (hok it (by simp)).resolve_left hone
    have hnot : ¬ s.cah.Holds it.1 := by
      rw [← access_fst_iff h.cache, hmiss]
      decide
    have hmem : it.1 ∈ s.fq i := by
      rw [hfq, encode_cons]
      exact List.mem_cons_self
    rw [hpass, access_of_miss h.cache hnot, hfq, encode_cons, List.head?_cons]
    refine ⟨h.ask (i := i) hline hnot rfl rfl (request_cah s _) ?_ hi ?_, fun _ a ha => ?_⟩
    · intro j x hx
      rwa [request_fq]
    · rwa [request_fq]
    · cases ha
      rw [request_requested]
      exact Finset.mem_insert_self _ _
  · have hne : itemToken it ≠ -1 := by
      unfold itemToken
      split <;> decide
    rw [hpass]
    refine ⟨?_, fun heq => absurd heq hne⟩
    have hkeep : MissInv g dram (if it.1 = 1 then s else (s.access g it.1).2) := by
      split
      · exact h
      · exact h.keep rfl rfl (fun set => Cache.access_perm _ _ _ set) h.waited
    have hreq : (if it.1 = 1 then s else (s.access g it.1).2).requested = s.requested := by
      split <;> rfl
    refine hkeep.keep rfl rfl (fun _ => List.Perm.refl _) fun a ha => ?_
    rw [hreq] at ha
    obtain ⟨j, hj, hmem⟩ := h.waited a ha
    refine ⟨j, hj, ?_⟩
    by_cases hji : j = i
    · subst hji
      simp only [Function.update_self]
      rw [hfq, encode_cons] at hmem
      have hline := h.line a ha
      rcases List.mem_cons.mp hmem with rfl | hmem
      · rcases hhit with hone | hhit
        · exact absurd hone hline.one_lt.ne'
        · exact absurd ((access_fst_iff h.cache).mp hhit) (h.uncached _ ha)
      · rcases List.mem_append.mp hmem with hmem | hmem
        · split at hmem
          · exact absurd (List.mem_singleton.mp hmem) hline.ne_zero
          · cases hmem
        · exact hmem
    · simpa [Function.update_of_ne hji] using hmem

/-! ### Taking the replies -/

/-- One reply enters the cache and is no longer requested. -/
theorem receive (h : MissInv g dram s) {l : List ℕ} (hfq : s.mem.fq = a :: l) :
    MissInv g dram { s with
      cah := s.cah.insert g.archInfo a
      requested := s.requested.erase a
      mem := { s.mem with fq := s.mem.fq.tail } } := by
  have hflight := h.inFlight_eq
  have hcons : inFlight g dram s.mem = a ::ₘ inFlight g dram { s.mem with fq := l } := by
    simp only [inFlight, hfq, ← Multiset.cons_coe, Multiset.add_cons]
  have hreq : a ∈ s.requested := by
    rw [← Finset.mem_val, ← hflight, hcons]
    exact Multiset.mem_cons_self a _
  refine ⟨?_, fun b hb => h.line b (Finset.mem_of_mem_erase hb), ?_,
    h.cache.insert (h.uncached a hreq), fun b hb => h.waited b (Finset.mem_of_mem_erase hb)⟩
  · simp only [hfq, List.tail_cons, Finset.erase_val, ← hflight, hcons, Multiset.erase_cons_head]
  · rintro b hb ⟨set, hmem⟩
    rcases Cache.mem_insert hmem with ⟨rfl, -⟩ | hmem
    · exact absurd rfl (Finset.ne_of_mem_erase hb)
    · exact h.uncached b (Finset.mem_of_mem_erase hb) ⟨set, hmem⟩

theorem featureReceive (h : MissInv g dram s) : MissInv g dram (s.featureReceive g) := by
  suffices key : ∀ (l : List ℕ) (t : FeatureReader), t.mem.fq = l → MissInv g dram t →
      MissInv g dram (l.foldl (fun s address =>
        { s with
          cah := s.cah.insert g.archInfo address
          requested := s.requested.erase address
          mem := { s.mem with fq := s.mem.fq.tail } }) t) from key s.mem.fq s rfl h
  intro l
  induction l with
  | nil =>
    intro t _ ht
    exact ht
  | cons a l ih =>
    intro t hfq ht
    rw [List.foldl_cons]
    exact ih _ (by simp [hfq]) (ht.receive hfq)

end MissInv

end Sgcn
