-- SUMMARY: In every mode the feature reader turns an edge into the lines that the table plans for it, and waits for one header at most.
import Sgcn.Feature.Lookups
import Sgcn.Feature.Misses

/-!
# Plans

The modes differ in which cells of the table they read for an edge, and in whether the first
cell of a row, its header, has to be cached before. What they have in common is said here: an
edge has a plan, and a call of `ReadNext` does nothing, waits for a header, or reads the next
line of the plan (`ReadEffect`).
-/

namespace Sgcn

variable {g : Globals}

/-! ## The plan of an edge -/

/-- The rows of the table start with a header. -/
def Headed (g : Globals) : Prop := g.archInfo.mode = .csr ∨ g.archInfo.mode = .xFullCmp

instance (g : Globals) : Decidable (Headed g) := inferInstanceAs (Decidable (_ ∨ _))

/-- The lines that are queued for an edge, in this order. -/
def plan (g : Globals) (dst fold : ℕ) : List ℕ :=
  match g.archInfo.mode with
  | .xCmp => sliceLines g dst fold
  | .mat => slice (g.xToAddr dst) (fold * g.archInfo.urb)
      (min (fold * g.archInfo.urb + g.archInfo.urb) g.dataInfo.totalUrb)
  | .csr | .xFullCmp => (g.xToAddr dst).tail

/-- An address of the table: its reply goes to the feature reader, and it is no marker. -/
structure IsCell (arch : ArchInfo) (a : ℕ) : Prop where
  ge : arch.xwEleAddrStart ≤ a
  one_lt : 1 < a

/-- A table that has a plan for every edge. -/
structure PlanTable (g : Globals) : Prop where
  pos : ∀ dst < g.dataInfo.xH, ∀ fold < g.archInfo.bf, 0 < (plan g dst fold).length
  cell : ∀ dst < g.dataInfo.xH, ∀ fold < g.archInfo.bf, ∀ a ∈ plan g dst fold, IsCell g.archInfo a
  header : Headed g → ∀ dst < g.dataInfo.xH, ∃ h, (g.xToAddr dst)[0]? = some h ∧ IsCell g.archInfo h
  slices : g.archInfo.mode = .xCmp → FeatureTable g
  rows : g.archInfo.mode = .mat → ∀ dst < g.dataInfo.xH, g.dataInfo.totalUrb ≤ (g.xToAddr dst).length

theorem IsLine.isCell {arch : ArchInfo} {a : ℕ} (h : IsLine arch a) : IsCell arch a :=
  ⟨h.ge, h.one_lt⟩

theorem plan_xCmp (hmode : g.archInfo.mode = .xCmp) (dst fold : ℕ) :
    plan g dst fold = sliceLines g dst fold := by
  simp only [plan, hmode]

theorem plan_mat (hmode : g.archInfo.mode = .mat) (dst fold : ℕ) :
    plan g dst fold = slice (g.xToAddr dst) (fold * g.archInfo.urb)
      (min (fold * g.archInfo.urb + g.archInfo.urb) g.dataInfo.totalUrb) := by
  simp only [plan, hmode]

theorem plan_headed (hmode : Headed g) (dst fold : ℕ) : plan g dst fold = (g.xToAddr dst).tail := by
  rcases hmode with hmode | hmode <;> simp only [plan, hmode]

theorem not_headed_xCmp (hmode : g.archInfo.mode = .xCmp) : ¬ Headed g := by
  simp [Headed, hmode]

theorem not_headed_mat (hmode : g.archInfo.mode = .mat) : ¬ Headed g := by
  simp [Headed, hmode]

/-- The lines of a slice are its first cells. -/
theorem SliceSpec.getElem? {dst fold j : ℕ} (h : SliceSpec g dst fold)
    (hj : j < (sliceLines g dst fold).length) :
    (sliceLines g dst fold)[j]? = (g.xToAddr dst)[fold * g.archInfo.urb + j]? := by
  generalize hL : slice (g.xToAddr dst) (fold * g.archInfo.urb)
    (fold * g.archInfo.urb + g.archInfo.urb) = L
  generalize hm : (sliceLines g dst fold).length = m at hj
  have hle := h.le
  have hget : ∀ k < g.archInfo.urb, L[k]? = (g.xToAddr dst)[fold * g.archInfo.urb + k]? := by
    intro k hk
    rw [← hL, slice, Nat.add_sub_cancel_left, List.getElem?_take_of_lt hk, List.getElem?_drop]
  have hlen : L.length ≤ g.archInfo.urb := by
    rw [← hL, slice, List.length_take]
    omega
  have hlines : ∀ a ∈ L.take m, a ≠ 0 := by
    intro a ha
    obtain ⟨k, hk, rfl⟩ := List.getElem_of_mem ha
    rw [List.length_take] at hk
    obtain ⟨b, hb, hbl⟩ := h.line k (by omega)
    rw [← hget k (by omega), List.getElem?_eq_getElem (by omega)] at hb
    rw [List.getElem_take, Option.some.inj hb]
    exact hbl.ne_zero
  have hzeros : ∀ a ∈ L.drop m, a = 0 := by
    intro a ha
    obtain ⟨k, hk, rfl⟩ := List.getElem_of_mem ha
    rw [List.length_drop] at hk
    have hz := h.zero (m + k) (by omega) (by omega)
    rw [← hget _ (by omega), List.getElem?_eq_getElem (by omega)] at hz
    rw [List.getElem_drop]
    exact Option.some.inj hz
  have hfilter : sliceLines g dst fold = L.take m := by
    rw [sliceLines, hL]
    conv_lhs => rw [← List.take_append_drop m L]
    rw [List.filter_append, List.filter_eq_self.mpr fun a ha => by simpa using hlines a ha,
      List.filter_eq_nil_iff.mpr fun a ha => by simp [hzeros a ha], List.append_nil]
  rw [hfilter, List.getElem?_take_of_lt hj, hget j (by omega)]

namespace FeatureReader

variable {s s' t : FeatureReader} {a b id : ℕ} {f f' : FrStat}

/-! ## The cursor -/

/-- How many lines of its plan have been read for the current edge. -/
def place (g : Globals) (f : FrStat) : ℕ := if Headed g then f.curColIdx - 1 else f.curColIdx

/-- The lines of the plan of the current edge. -/
def planned (g : Globals) (f : FrStat) : List ℕ := plan g f.dst f.vFold

/-- The current edge is one of the table, and a line of its plan is left. -/
structure OnPlan (g : Globals) (f : FrStat) : Prop where
  dst_lt : f.dst < g.dataInfo.xH
  vFold_lt : f.vFold < g.archInfo.bf
  place_lt : place g f < (planned g f).length

/-- The next line is the last one of the plan. -/
def isEnd (g : Globals) (f : FrStat) : Bool := decide (place g f + 1 = (planned g f).length)

/-- The cursor behind the next line. -/
structure Moved (g : Globals) (f f' : FrStat) : Prop where
  ended : isEnd g f = true → f'.pqReadNeed = true
  going : isEnd g f = false → f' = { f with curColIdx := f'.curColIdx } ∧ place g f' = place g f + 1

/-- The current edge of engine `id` has the header `h` before it. -/
structure Awaits (g : Globals) (id : ℕ) (s : FeatureReader) (h : ℕ) : Prop where
  headed : Headed g
  current : (s.frs id).pqReadNeed = false
  start : (s.frs id).curColIdx = 0
  header : (g.xToAddr (s.frs id).dst)[0]? = some h

/-! ## What a call of `ReadNext` does -/

/-- `a` has been looked up, and asked for when it was not cached. The look-ups change the
order within the cache sets. -/
structure Fetched (a : ℕ) (s s' : FeatureReader) : Prop where
  cah : ∀ set, (s'.cah.saCache set).Perm (s.cah.saCache set)
  asks : (s.cah.Holds a ∧ s'.requested = s.requested ∧ s'.mem = s.mem) ∨
    (¬ s.cah.Holds a ∧ s'.requested = (s.request a).requested ∧ s'.mem = (s.request a).mem)

/-- The next line `a` of the plan of engine `id` has been fetched and queued. -/
structure PlannedRead (g : Globals) (id a : ℕ) (s s' : FeatureReader) : Prop where
  line : (planned g (s.frs id))[place g (s.frs id)]? = some a
  header : ∀ h, Awaits g id s h → s.cah.Holds h
  fetched : Fetched a s s'
  pq_eq : s'.pq = s.pq
  frs_eq : ∃ f, s'.frs = Function.update s.frs id f ∧ Moved g (s.frs id) f
  /-- A line that is cached may be queued as 1. -/
  fq_eq : ∃ v, (v = a ∨ v = 1 ∧ s.cah.Holds a) ∧ s'.fq = Function.update s.fq id
    (s.fq id ++ encode [(v, isEnd g (s.frs id) && (s.frs id).isLast)])

/-- All that `ReadNext` can do for engine `id`. -/
inductive ReadEffect (g : Globals) (id : ℕ) (s : FeatureReader) : FeatureReader → Prop where
  | idle : (s.TurnedAway id ∨ (s.frs id).pqReadNeed = true ∧ s.pq id = []) → ReadEffect g id s s
  | await {t : FeatureReader} {h : ℕ} : s.begun id = some t → Awaits g id t h →
      ¬ t.cah.Holds h → ReadEffect g id s (t.request h)
  | line {t s' : FeatureReader} {a : ℕ} : s.begun id = some t → PlannedRead g id a t s' →
      ReadEffect g id s s'

/-! ### Look-ups -/

theorem holds_of_perm {cah cah' : Cache} (h : ∀ set, (cah'.saCache set).Perm (cah.saCache set)) :
    cah'.Holds a ↔ cah.Holds a :=
  exists_congr fun set => (h set).mem_iff

theorem fetched_fetch (hc : s.cah.Ok g.archInfo) (a : ℕ) : Fetched a s (s.fetch g a) := by
  rw [fetch_eq]
  by_cases hhold : s.cah.Holds a
  · rw [if_pos ((access_fst_iff hc).mpr hhold)]
    exact ⟨Cache.access_perm _ _ _, .inl ⟨hhold, rfl, rfl⟩⟩
  · rw [access_of_miss hc hhold]
    refine ⟨fun set => ?_, .inr ⟨hhold, rfl, rfl⟩⟩
    rw [if_neg Bool.false_ne_true, request_cah]

/-- What follows leaves the cache and the memory alone. -/
theorem Fetched.congr (h : Fetched a s s') (hcah : t.cah = s'.cah)
    (hreq : t.requested = s'.requested) (hmem : t.mem = s'.mem) : Fetched a s t := by
  refine ⟨by rw [hcah]; exact h.cah, ?_⟩
  rw [hreq, hmem]
  exact h.asks

/-- Another look-up follows. -/
theorem Fetched.access (h : Fetched a s s') (b : ℕ) : Fetched a s (s'.access g b).2 :=
  ⟨fun set => (Cache.access_perm _ _ _ set).trans (h.cah set), h.asks⟩

/-- Look-ups were made before. -/
theorem Fetched.of_perm (h : Fetched a t s')
    (hperm : ∀ set, (t.cah.saCache set).Perm (s.cah.saCache set))
    (hreq : t.requested = s.requested) (hmem : t.mem = s.mem) : Fetched a s s' := by
  refine ⟨fun set => (h.cah set).trans (hperm set), ?_⟩
  have hasks := h.asks
  rwa [holds_of_perm hperm, request_requested, request_mem, hreq, hmem, ← request_requested s,
    ← request_mem s] at hasks

@[simp] theorem endEdge_cah (s : FeatureReader) (id : ℕ) (f : FrStat) :
    (s.endEdge id f).cah = s.cah := by
  unfold endEdge
  split <;> rfl

@[simp] theorem endEdge_requested (s : FeatureReader) (id : ℕ) (f : FrStat) :
    (s.endEdge id f).requested = s.requested := by
  unfold endEdge
  split <;> rfl

/-! ### Reading a line -/

/-- What `MAT` and the headed modes do with the next line: it is fetched and queued, and the
edge ends with the last line of its plan. -/
theorem plannedRead_of_fetch {f : FrStat} (hfrs : t.frs = Function.update s.frs id f)
    (hpq : t.pq = s.pq) (hfq : t.fq = s.fq) (hf : f = { s.frs id with curColIdx := f.curColIdx })
    (hplace : place g { f with curColIdx := f.curColIdx + 1 } = place g (s.frs id) + 1)
    (hline : (planned g (s.frs id))[place g (s.frs id)]? = some a)
    (hheader : ∀ h, Awaits g id s h → s.cah.Holds h) (hfetch : Fetched a s (t.fetch g a)) :
    PlannedRead g id a s (if isEnd g (s.frs id) then ((t.fetch g a).pushFq id a).endEdge id f
      else ((t.fetch g a).pushFq id a).setFrs id { f with curColIdx := f.curColIdx + 1 }) := by
  have hlast : f.isLast = (s.frs id).isLast := by rw [hf]
  cases hend : isEnd g (s.frs id) with
  | true =>
    have hread := lineRead_endEdge g t id a f
    refine ⟨hline, hheader, hfetch.congr (by simp [pushFq]) (by simp [pushFq]) (by simp [pushFq]),
      hread.pq.trans hpq, ⟨{ f with pqReadNeed := true }, ?_, fun _ => rfl, fun h => ?_⟩,
      a, .inl rfl, ?_⟩
    · rw [if_pos rfl, hread.frs, hfrs, Function.update_idem, if_pos rfl]
    · rw [hend] at h
      cases h
    · rw [if_pos rfl, hread.fq, hfq, hlast, hend, Bool.true_and]
      simp [encode]
  | false =>
    have hread := lineRead_moveOn g t id a f
    refine ⟨hline, hheader, hfetch.congr rfl rfl rfl, hread.pq.trans hpq,
      ⟨{ f with curColIdx := f.curColIdx + 1 }, ?_, fun h => ?_, fun _ => ⟨?_, hplace⟩⟩,
      a, .inl rfl, ?_⟩
    · rw [if_neg Bool.false_ne_true, hread.frs, hfrs, Function.update_idem,
        if_neg Bool.false_ne_true]
    · rw [hend] at h
      cases h
    · rw [hf]
    · rw [if_neg Bool.false_ne_true, hread.fq, hfq, hend, Bool.false_and]
      simp [encode]

theorem readXCmp_planned (ht : PlanTable g) (hmode : g.archInfo.mode = .xCmp)
    (hc : s.cah.Ok g.archInfo) (hcur : OnPlan g (s.frs id)) :
    ∃ s' a, readXCmp g id s = some s' ∧ PlannedRead g id a s s' := by
  have hplan : ∀ f, planned g f = sliceLines g f.dst f.vFold := fun f => plan_xCmp hmode _ _
  have hplace : ∀ f, place g f = f.curColIdx := fun f => if_neg (not_headed_xCmp hmode)
  have hlt := hcur.place_lt
  rw [hplan, hplace] at hlt
  have hspec := (ht.slices hmode).sliceSpec hcur.dst_lt hcur.vFold_lt
  obtain ⟨a, f, ha, -, hread, hf⟩ := readXCmp_line (ht.slices hmode)
    (⟨hcur.dst_lt, hcur.vFold_lt, hlt⟩ : CurrentOk g (s.frs id))
  have hend : isEnd g (s.frs id) =
      decide ((s.frs id).curColIdx + 1 = width g (s.frs id)) := by
    rw [isEnd, hplan, hplace]
    rfl
  refine ⟨_, a, hread, ?_, fun h hwait => absurd hwait.headed (not_headed_xCmp hmode),
    ((fetched_fetch hc a).access a).congr rfl rfl rfl, afterRead_pq _ _ _ _ _,
    ⟨f, rfl, fun h => ?_, fun h => ?_⟩, s.entry g a, ?_, ?_⟩
  · rw [hplan, hplace, hspec.getElem? hlt]
    exact ha
  · rw [hend, decide_eq_true_iff] at h
    rwa [if_pos h] at hf
  · rw [hend, decide_eq_false_iff_not] at h
    rw [if_neg h] at hf
    rw [hplace, hplace, hf]
    exact ⟨rfl, rfl⟩
  · unfold entry
    split
    · next hhit =>
      refine .inr ⟨rfl, ?_⟩
      have hcah := (fetched_fetch hc a).cah
      have hok : (s.fetch g a).cah.Ok g.archInfo :=
        ⟨fun set b hb => hc.placed set b ((hcah set).mem_iff.mp hb),
          fun set => (hcah set).nodup_iff.mpr (hc.nodup set)⟩
      exact (holds_of_perm hcah).mp ((access_fst_iff hok).mp hhit)
    · exact .inl rfl
  · rw [afterRead_fq, hend]

theorem readMat_planned (ht : PlanTable g) (hmode : g.archInfo.mode = .mat)
    (hc : s.cah.Ok g.archInfo) (hcur : OnPlan g (s.frs id)) :
    ∃ s' a, readMat g id s = some s' ∧ PlannedRead g id a s s' := by
  have hplan : ∀ f, planned g f = _ := fun f => plan_mat hmode f.dst f.vFold
  have hplace : ∀ f, place g f = f.curColIdx := fun f => if_neg (not_headed_mat hmode)
  have hrow := ht.rows hmode _ hcur.dst_lt
  generalize hlo : (s.frs id).vFold * g.archInfo.urb = lo at *
  have hlen : (planned g (s.frs id)).length =
      min (lo + g.archInfo.urb) g.dataInfo.totalUrb - lo := by
    rw [hplan, hlo, slice, List.length_take, List.length_drop]
    omega
  have hlt := hcur.place_lt
  rw [hlen, hplace] at hlt
  have hget : (planned g (s.frs id))[(s.frs id).curColIdx]? =
      (g.xToAddr (s.frs id).dst)[lo + (s.frs id).curColIdx]? := by
    rw [hplan, hlo, slice, List.getElem?_take_of_lt hlt, List.getElem?_drop]
  obtain ⟨a, ha⟩ : ∃ a, (g.xToAddr (s.frs id).dst)[lo + (s.frs id).curColIdx]? = some a :=
    ⟨_, List.getElem?_eq_getElem (by omega)⟩
  -- the slice ends at the end of the fold or of the row
  have hmore : moreColumns g (s.frs id) = !isEnd g (s.frs id) := by
    have hcast : ((s.frs id).vFold * g.archInfo.urb : ℤ) = (lo : ℤ) := by
      rw [← hlo]
      push_cast
      rfl
    rw [Bool.eq_iff_iff, moreColumns, isEnd, hlen, hplace, hcast, decide_eq_true_iff,
      Bool.not_eq_true', decide_eq_false_iff_not]
    omega
  have hread := plannedRead_of_fetch (g := g) (s := s) (t := s) (f := s.frs id)
    (Function.update_eq_self id _).symm rfl rfl rfl (by rw [hplace, hplace])
    (by rw [hplace, hget, ha]) (fun h hwait => absurd hwait.headed (not_headed_mat hmode))
    (fetched_fetch hc a)
  refine ⟨_, a, ?_, hread⟩
  simp only [readMat, returnAddress, hlo, ha, Option.bind_eq_bind, Option.bind_some, hmore]
  cases isEnd g (s.frs id) <;> rfl

/-- A headed mode waits for its header, or reads the next line behind it. -/
theorem readHeaded_planned (ht : PlanTable g) (hmode : Headed g) (hc : s.cah.Ok g.archInfo)
    (hneed : (s.frs id).pqReadNeed = false) (hcur : OnPlan g (s.frs id)) :
    (∃ h, Awaits g id s h ∧ ¬ s.cah.Holds h ∧ readHeaded g id s = some (s.request h)) ∨
      ∃ s' a, readHeaded g id s = some s' ∧ PlannedRead g id a s s' := by
  have hplan : ∀ f, planned g f = (g.xToAddr f.dst).tail := fun f => plan_headed hmode _ _
  have hplace : ∀ f, place g f = f.curColIdx - 1 := fun f => if_pos hmode
  have hlt := hcur.place_lt
  rw [hplan, hplace, List.length_tail] at hlt
  -- the line under the cursor `k`, on a reader `t` that is as `s` but for the cursor
  have hbody : ∀ (t : FeatureReader) (k : ℕ), 0 < k → k - 1 = place g (s.frs id) →
      t.frs = Function.update s.frs id { s.frs id with curColIdx := k } → t.pq = s.pq →
      t.fq = s.fq → (∀ h, Awaits g id s h → s.cah.Holds h) →
      (∀ a, Fetched a s (t.fetch g a)) →
      ∃ s' a, (g.xToAddr (s.frs id).dst)[k]? = some a ∧
        (if (k : ℤ) ≠ (g.xToAddr (s.frs id).dst).length - 1 then
          ((t.fetch g a).pushFq id a).setFrs id { s.frs id with curColIdx := k + 1 }
        else ((t.fetch g a).pushFq id a).endEdge id { s.frs id with curColIdx := k }) = s' ∧
        PlannedRead g id a s s' := by
    intro t k hk hkplace hfrs hpq hfq hheader hfetch
    rw [hplace] at hkplace
    obtain ⟨a, ha⟩ : ∃ a, (g.xToAddr (s.frs id).dst)[k]? = some a :=
      ⟨_, List.getElem?_eq_getElem (by omega)⟩
    have hread := plannedRead_of_fetch (g := g) (a := a) hfrs hpq hfq rfl
      (by rw [hplace, hplace]; dsimp only; omega)
      (by rw [hplan, hplace, List.getElem?_tail, ← hkplace, Nat.sub_add_cancel hk]; exact ha)
      hheader (hfetch a)
    refine ⟨_, a, ha, ?_, hread⟩
    have hend : isEnd g (s.frs id) = decide ((k : ℤ) = (g.xToAddr (s.frs id).dst).length - 1) := by
      rw [isEnd, hplan, hplace, List.length_tail, decide_eq_decide]
      omega
    rw [hend]
    by_cases hlast : (k : ℤ) = (g.xToAddr (s.frs id).dst).length - 1
    · rw [if_neg (not_not_intro hlast), if_pos (decide_eq_true hlast)]
    · rw [if_pos hlast, if_neg (by simpa using hlast)]
  by_cases hstart : (s.frs id).curColIdx = 0
  · obtain ⟨h, hh, -⟩ := ht.header hmode _ hcur.dst_lt
    have hwait : Awaits g id s h := ⟨hmode, hneed, hstart, hh⟩
    by_cases hhold : s.cah.Holds h
    · right
      have hhit := (access_fst_iff hc).mpr hhold
      have hok : ((s.access g h).2.setFrs id { s.frs id with curColIdx := 1 }).cah.Ok g.archInfo :=
        hc.access h
      have hfetch : ∀ a, Fetched a s
          (((s.access g h).2.setFrs id { s.frs id with curColIdx := 1 }).fetch g a) :=
        fun a => (fetched_fetch hok a).of_perm (Cache.access_perm g.archInfo s.cah h) rfl rfl
      obtain ⟨s', a, ha, hs', hread⟩ := hbody
        ((s.access g h).2.setFrs id { s.frs id with curColIdx := 1 }) 1 one_pos
        (by rw [hplace, hstart]) rfl rfl rfl
        (fun h' hwait' => by
          obtain rfl : h = h' := Option.some.inj (hh.symm.trans hwait'.header)
          exact hhold)
        hfetch
      refine ⟨s', a, ?_, hread⟩
      rw [← hs']
      simp only [readHeaded, hstart, if_true, hh, Option.bind_eq_bind, Option.bind_some, hhit,
        setFrs, Function.update_self, access_frs, ha]
      split <;> rfl
    · left
      refine ⟨h, hwait, hhold, ?_⟩
      simp [readHeaded, hstart, hh, access_of_miss hc hhold]
  · right
    obtain ⟨s', a, ha, hs', hread⟩ := hbody s (s.frs id).curColIdx (Nat.pos_of_ne_zero hstart)
      (hplace _).symm (Function.update_eq_self _ _).symm rfl rfl
      (fun h hwait => absurd hwait.start hstart) (fetched_fetch hc)
    refine ⟨s', a, ?_, hread⟩
    rw [← hs']
    simp only [readHeaded, if_neg hstart, Option.bind_eq_bind, ha, Option.bind_some]
    split <;> rfl

/-- An edge that is put in place is at the start of its plan. -/
theorem begun_onPlan (ht : PlanTable g) (hcur : (s.frs id).pqReadNeed = false → OnPlan g (s.frs id))
    (hpending : ∀ ei ∈ s.pq id, EdgeOk g ei) (hbegun : s.begun id = some t) :
    (t.frs id).pqReadNeed = false ∧ OnPlan g (t.frs id) := by
  obtain ⟨hneed, rfl⟩ | ⟨ei, rest, -, hpq, rfl⟩ := begun_cases hbegun
  · exact ⟨hneed, hcur hneed⟩
  · have hei := hpending ei (by simp [hpq])
    have hfrs : (s.consumePendingQ id ei rest).frs id = ⟨ei.isLast, ei.dst, ei.vFold, 0, false⟩ :=
      Function.update_self _ _ _
    rw [hfrs]
    refine ⟨rfl, hei.dst_lt, hei.vFold_lt, ?_⟩
    have hzero : place g ⟨ei.isLast, ei.dst, ei.vFold, 0, false⟩ = 0 := by
      unfold place
      split <;> rfl
    rw [hzero]
    exact ht.pos _ hei.dst_lt _ hei.vFold_lt

theorem begun_cah (h : s.begun id = some t) : t.cah = s.cah := by
  obtain ⟨-, rfl⟩ | ⟨ei, rest, -, -, rfl⟩ := begun_cases h <;> rfl

theorem begun_eq_none (h : s.begun id = none) :
    s.TurnedAway id ∨ (s.frs id).pqReadNeed = true ∧ s.pq id = [] := by
  unfold begun at h
  split at h
  · next hturn => exact .inl hturn
  · split at h
    · next hneed =>
      split at h
      · next hpq => exact .inr ⟨hneed, hpq⟩
      · cases h
    · cases h

/-- `ReadNext` is defined, and does one of three things. -/
theorem readNext_effect (ht : PlanTable g) (hc : s.cah.Ok g.archInfo)
    (hcur : (s.frs id).pqReadNeed = false → OnPlan g (s.frs id))
    (hpending : ∀ ei ∈ s.pq id, EdgeOk g ei) :
    ∃ s', readNext g id s = some s' ∧ ReadEffect g id s s' := by
  rw [readNext_eq]
  cases hbegun : s.begun id with
  | none => exact ⟨s, rfl, .idle (begun_eq_none hbegun)⟩
  | some t =>
    obtain ⟨hneed, hplan⟩ := begun_onPlan ht hcur hpending hbegun
    have hc' : t.cah.Ok g.archInfo := by
      rw [begun_cah hbegun]
      exact hc
    have hhead : Headed g → ∃ s', readHeaded g id t = some s' ∧ ReadEffect g id s s' := by
      intro hmode
      obtain ⟨h, hwait, hmiss, hread⟩ | ⟨s', a, hread, hline⟩ :=
        readHeaded_planned ht hmode hc' hneed hplan
      · exact ⟨_, hread, .await hbegun hwait hmiss⟩
      · exact ⟨s', hread, .line hbegun hline⟩
    rw [Option.elim_some, readMode]
    cases hmode : g.archInfo.mode with
    | xCmp =>
      obtain ⟨s', a, hread, hline⟩ := readXCmp_planned ht hmode hc' hplan
      exact ⟨s', hread, .line hbegun hline⟩
    | mat =>
      obtain ⟨s', a, hread, hline⟩ := readMat_planned ht hmode hc' hplan
      exact ⟨s', hread, .line hbegun hline⟩
    | csr => exact hhead (.inl hmode)
    | xFullCmp => exact hhead (.inr hmode)

end FeatureReader

end Sgcn
