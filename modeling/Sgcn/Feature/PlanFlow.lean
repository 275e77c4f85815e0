-- SUMMARY: In every mode the lines planned for the edges pass through the feature reader without loss, and every outstanding request is waited for.
import Sgcn.Feature.Plan

/-!
# The lines of the plans

What `Feature.Stream` and `Feature.Misses` say about `X_CMP`, for all modes. A line that is
outstanding is queued by some engine or is the header that some engine waits for.
-/

namespace Sgcn

open FeatureReader

variable {g : Globals} {s s' t : FeatureReader} {edges : List EdgeInfo} {out : List ℤ}
  {ei : EdgeInfo} {id j : ℕ}

/-! ## Results -/

/-- The results due for an edge. -/
def planTokens (g : Globals) (ei : EdgeInfo) : List ℤ :=
  lineTokens (plan g ei.dst ei.vFold).length ei.isLast

/-- The results due for the rest of the current edge. -/
def restTokens (g : Globals) (f : FrStat) : List ℤ :=
  if f.pqReadNeed then [] else (lineTokens (planned g f).length f.isLast).drop (place g f)

/-- A queue entry that is a cell of the table, or 1. -/
def CellItem (g : Globals) (it : Item) : Prop := it.1 = 1 ∨ IsCell g.archInfo it.1

theorem CellItem.ne_zero {it : Item} (h : CellItem g it) : it.1 ≠ 0 := by
  rcases h with h | h
  · omega
  · have := h.one_lt
    omega

/-- The result due for the next line, and those due after it. -/
theorem restTokens_step {f f' : FrStat} (hcur : OnPlan g f) (hneed : f.pqReadNeed = false)
    (hmoved : Moved g f f') (v : ℕ) :
    restTokens g f = itemToken (v, isEnd g f && f.isLast) :: restTokens g f' := by
  have hlt := hcur.place_lt
  rw [restTokens, if_neg (by simp [hneed])]
  cases hend : isEnd g f with
  | true =>
    rw [lineTokens_drop_last _ (of_decide_eq_true hend), restTokens, if_pos (hmoved.ended hend)]
    simp [itemToken]
  | false =>
    obtain ⟨heq, hplace⟩ := hmoved.going hend
    have hnot : place g f + 1 ≠ (planned g f).length := of_decide_eq_false hend
    have hplanned : planned g f' = planned g f := by rw [heq]; rfl
    have hlast : f'.isLast = f.isLast := by rw [heq]
    have hneed' : f'.pqReadNeed = false := by rw [heq]; exact hneed
    rw [lineTokens_drop _ (by omega), restTokens, if_neg (by simp [hneed']), hplanned, hplace, hlast]
    simp [itemToken]

/-! ## The invariant of one engine -/

/-- The results passed on (`out`) and those due for the queued lines, for the current edge and
for the queued edges make up the results due for `edges`. While a header is waited for there
is room in the queue. -/
structure PlanInv (g : Globals) (edges : List EdgeInfo) (out : List ℤ) (id : ℕ)
    (s : FeatureReader) : Prop where
  queued : ∃ items, s.fq id = encode items ∧ (∀ it ∈ items, CellItem g it) ∧
    out ++ items.map itemToken ++ restTokens g (s.frs id) ++ (s.pq id).flatMap (planTokens g) =
      edges.flatMap (planTokens g)
  current : (s.frs id).pqReadNeed = false → OnPlan g (s.frs id)
  pending : ∀ ei ∈ s.pq id, EdgeOk g ei
  room : ∀ h, Awaits g id s h → (s.fq id).length < 256

theorem PlanInv.init (g : Globals) (id : ℕ) : PlanInv g [] [] id .init :=
  ⟨⟨[], rfl, by simp, rfl⟩, fun h => (by cases h), fun _ h => (by cases h), fun _ h => by
    cases h.current⟩

theorem FeatureReader.SameEngine.awaits_iff (hsame : SameEngine id s s') {h : ℕ} :
    Awaits g id s' h ↔ Awaits g id s h := by
  constructor
  · rintro ⟨hhead, hcur, hstart, hh⟩
    rw [hsame.frs] at hcur hstart hh
    exact ⟨hhead, hcur, hstart, hh⟩
  · rintro ⟨hhead, hcur, hstart, hh⟩
    rw [← hsame.frs] at hcur hstart hh
    exact ⟨hhead, hcur, hstart, hh⟩

theorem PlanInv.congr (h : PlanInv g edges out id s) (hsame : SameEngine id s s') :
    PlanInv g edges out id s' := by
  obtain ⟨hqueued, hcurrent, hpending, hroom⟩ := h
  constructor
  · rw [hsame.fq, hsame.frs, hsame.pq]
    exact hqueued
  · rw [hsame.frs]
    exact hcurrent
  · rw [hsame.pq]
    exact hpending
  · rw [hsame.fq]
    exact fun h hwait => hroom h (hsame.awaits_iff.mp hwait)

theorem PlanInv.enterFtoList (h : PlanInv g edges out ei.id s) (hei : EdgeOk g ei) :
    PlanInv g (edges ++ [ei]) out ei.id (s.enterFtoList ei) := by
  obtain ⟨items, hfq, hok, heq⟩ := h.queued
  have hpq : (s.enterFtoList ei).pq ei.id = s.pq ei.id ++ [ei] := Function.update_self _ _ _
  refine ⟨⟨items, hfq, hok, ?_⟩, h.current, ?_, fun h' hwait => h.room h' ⟨hwait.1, hwait.2, hwait.3,
    hwait.4⟩⟩
  · rw [hpq, List.flatMap_append, List.flatMap_append, ← heq, ← List.append_assoc]
    rfl
  · rw [hpq]
    intro ei' hmem
    rcases List.mem_append.mp hmem with hmem | hmem
    · exact h.pending ei' hmem
    · rw [List.mem_singleton.mp hmem]
      exact hei

/-! ### `ReadNext` -/

/-- Putting an edge in place leaves the other engines alone. -/
theorem sameEngine_begun (h : s.begun id = some t) (hj : j ≠ id) : SameEngine j s t := by
  obtain ⟨-, rfl⟩ | ⟨ei, rest, -, -, rfl⟩ := begun_cases h
  · exact ⟨rfl, rfl, rfl⟩
  · exact ⟨Function.update_of_ne hj _ _, Function.update_of_ne hj _ _, rfl⟩

theorem sameEngine_request (s : FeatureReader) (a j : ℕ) : SameEngine j s (s.request a) :=
  ⟨by simp, by simp, by simp⟩

theorem FeatureReader.SameEngine.trans (h : SameEngine j s t) (h' : SameEngine j t s') : SameEngine j s s' :=
  ⟨h'.frs.trans h.frs, h'.pq.trans h.pq, h'.fq.trans h.fq⟩

theorem FeatureReader.PlannedRead.sameEngine {a : ℕ} (h : PlannedRead g id a s s') (hj : j ≠ id) :
    SameEngine j s s' := by
  obtain ⟨f, hfrs, -⟩ := h.frs_eq
  obtain ⟨v, -, hfq⟩ := h.fq_eq
  exact ⟨by rw [hfrs, Function.update_of_ne hj], by rw [h.pq_eq], by rw [hfq, Function.update_of_ne hj]⟩

theorem FeatureReader.ReadEffect.sameEngine (h : ReadEffect g id s s') (hj : j ≠ id) : SameEngine j s s' := by
  cases h with
  | idle => exact ⟨rfl, rfl, rfl⟩
  | await hbegun => exact (sameEngine_begun hbegun hj).trans (sameEngine_request _ _ j)
  | line hbegun hline => exact (sameEngine_begun hbegun hj).trans (hline.sameEngine hj)

theorem begun_fq (h : s.begun id = some t) : t.fq = s.fq ∧ (s.fq id).length < 256 := by
  have hroom : (s.fq id).length < 256 := by
    by_contra hfull
    have hturn : s.TurnedAway id := .inl (Nat.le_of_not_lt hfull)
    rw [begun, if_pos hturn] at h
    cases h
  obtain ⟨-, rfl⟩ | ⟨ei, rest, -, -, rfl⟩ := begun_cases h <;> exact ⟨rfl, hroom⟩

theorem PlanInv.begun (ht : PlanTable g) (h : PlanInv g edges out id s)
    (hbegun : s.begun id = some t) : PlanInv g edges out id t := by
  have hplan := begun_onPlan ht h.current h.pending hbegun
  obtain ⟨hfq', hroom⟩ := begun_fq hbegun
  obtain ⟨-, rfl⟩ | ⟨ei, rest, hneed, hpq, rfl⟩ := begun_cases hbegun
  · exact h
  · obtain ⟨items, hfq, hok, heq⟩ := h.queued
    have hfrs : (s.consumePendingQ id ei rest).frs id = ⟨ei.isLast, ei.dst, ei.vFold, 0, false⟩ :=
      Function.update_self _ _ _
    have hrest : (s.consumePendingQ id ei rest).pq id = rest := Function.update_self _ _ _
    have hzero : place g ⟨ei.isLast, ei.dst, ei.vFold, 0, false⟩ = 0 := by
      unfold place
      split <;> rfl
    refine ⟨⟨items, hfq, hok, ?_⟩, fun _ => hplan.2, ?_, fun _ _ => by rw [hfq']; exact hroom⟩
    · rw [hfrs, hrest, ← heq, hpq, restTokens, restTokens, if_pos hneed, if_neg Bool.false_ne_true,
        hzero]
      simp [planTokens, planned]
    · rw [hrest]
      exact fun ei' hmem => h.pending ei' (by rw [hpq]; exact List.mem_cons_of_mem _ hmem)

/-- Reading a line moves one result from the current edge to the queue. -/
theorem PlanInv.plannedRead {a : ℕ} (ht : PlanTable g) (h : PlanInv g edges out id s)
    (hneed : (s.frs id).pqReadNeed = false) (hread : PlannedRead g id a s s') :
    PlanInv g edges out id s' := by
  have hcur := h.current hneed
  obtain ⟨items, hfq, hok, heq⟩ := h.queued
  obtain ⟨f, hfrs, hmoved⟩ := hread.frs_eq
  obtain ⟨v, hv, hfq'⟩ := hread.fq_eq
  have hstep := restTokens_step hcur hneed hmoved v
  have hcell : IsCell g.archInfo a :=
    ht.cell _ hcur.dst_lt _ hcur.vFold_lt a (List.mem_of_getElem? hread.line)
  have hgoing : f.pqReadNeed = false → OnPlan g f ∧ 0 < place g f := by
    intro hneed'
    cases hend : isEnd g (s.frs id) with
    | true =>
      rw [hmoved.ended hend] at hneed'
      cases hneed'
    | false =>
      obtain ⟨hf, hplace⟩ := hmoved.going hend
      have hnot : place g (s.frs id) + 1 ≠ (planned g (s.frs id)).length := of_decide_eq_false hend
      have hlt := hcur.place_lt
      have hplanned : planned g f = planned g (s.frs id) := by rw [hf]; rfl
      refine ⟨⟨by rw [hf]; exact hcur.dst_lt, by rw [hf]; exact hcur.vFold_lt, ?_⟩, by omega⟩
      rw [hplanned, hplace]
      omega
  refine ⟨⟨items ++ [(v, isEnd g (s.frs id) && (s.frs id).isLast)], ?_, ?_, ?_⟩, ?_, ?_, ?_⟩
  · rw [encode_append, ← hfq, hfq', Function.update_self]
  · intro it hmem
    rcases List.mem_append.mp hmem with hmem | hmem
    · exact hok it hmem
    · rw [List.mem_singleton.mp hmem]
      rcases hv with rfl | ⟨rfl, -⟩
      · exact .inr hcell
      · exact .inl rfl
  · rw [hread.pq_eq, hfrs, Function.update_self, ← heq, List.map_append, hstep]
    simp
  · rw [hfrs, Function.update_self]
    exact fun hneed' => (hgoing hneed').1
  · rw [hread.pq_eq]
    exact h.pending
  · -- behind a line there is no header to wait for
    rintro h' ⟨hhead, hneed', hstart, -⟩
    rw [hfrs, Function.update_self] at hneed' hstart
    have hpos := (hgoing hneed').2
    rw [place, if_pos hhead, hstart] at hpos
    exact absurd hpos (lt_irrefl 0)

theorem PlanInv.readEffect (ht : PlanTable g) (h : PlanInv g edges out id s)
    (heffect : ReadEffect g id s s') : PlanInv g edges out id s' := by
  cases heffect with
  | idle => exact h
  | await hbegun => exact (h.begun ht hbegun).congr (sameEngine_request _ _ id)
  | line hbegun hline =>
    exact (h.begun ht hbegun).plannedRead ht (begun_onPlan ht h.current h.pending hbegun).1 hline

/-! ### `PassFtoSIMD` -/

/-- All that `PassFtoSIMD` can do for engine `id`: the front line is not there and is asked
for, or it is passed on. -/
inductive PassEffect (g : Globals) (id : ℕ) (s : FeatureReader) : ℤ → FeatureReader → Prop where
  | empty : s.fq id = [] → PassEffect g id s (-1) s
  | stall {a : ℕ} : (s.fq id).head? = some a → IsCell g.archInfo a → ¬ s.cah.Holds a →
      PassEffect g id s (-1) (s.request a)
  | pass {it : Item} {rest : List Item} {cah : Cache} : s.fq id = encode (it :: rest) →
      (∀ it' ∈ it :: rest, CellItem g it') → (it.1 = 1 ∨ s.cah.Holds it.1) →
      (∀ set, (cah.saCache set).Perm (s.cah.saCache set)) →
      PassEffect g id s (itemToken it)
        { s with cah := cah, fq := Function.update s.fq id (encode rest) }

theorem PassEffect.sameEngine {pass : ℤ} (h : PassEffect g id s pass s') (hj : j ≠ id) :
    SameEngine j s s' := by
  cases h with
  | empty => exact ⟨rfl, rfl, rfl⟩
  | stall => exact sameEngine_request _ _ j
  | pass => exact ⟨rfl, rfl, Function.update_of_ne hj _ _⟩

/-- A result other than `-1` is the next one due. -/
theorem PlanInv.passFtoSIMD (hc : s.cah.Ok g.archInfo) (h : PlanInv g edges out id s) :
    PassEffect g id s (passFtoSIMD g id s).1 (passFtoSIMD g id s).2 ∧
      PlanInv g edges (out ++ if (passFtoSIMD g id s).1 = -1 then [] else [(passFtoSIMD g id s).1])
        id (passFtoSIMD g id s).2 := by
  obtain ⟨items, hfq, hok, heq⟩ := h.queued
  rcases passFtoSIMD_items hfq fun it hit => (hok it hit).ne_zero with ⟨rfl, hpass⟩ |
    ⟨it, rest, rfl, ⟨hone, hmiss, hpass⟩ | ⟨hhit, hpass⟩⟩
  · rw [hpass, if_pos rfl, List.append_nil]
    exact ⟨.empty hfq, h⟩
  · have hnot : ¬ s.cah.Holds it.1 := by
      rw [← access_fst_iff hc, hmiss]
      decide
    rw [hpass, access_of_miss hc hnot, if_pos rfl, List.append_nil]
    exact ⟨.stall (by rw [hfq, encode_cons, List.head?_cons])
      ((hok it List.mem_cons_self).resolve_left hone) hnot, h.congr (sameEngine_request _ _ id)⟩
  · have hne : itemToken it ≠ -1 := by
      unfold itemToken
      split <;> decide
    rw [access_fst_iff hc] at hhit
    -- the look-up, if there is one, only changes the order within a set
    obtain ⟨cah, hperm, hstate⟩ : ∃ cah : Cache,
        (∀ set, (cah.saCache set).Perm (s.cah.saCache set)) ∧
        (if it.1 = 1 then s else (s.access g it.1).2) = { s with cah := cah } := by
      split
      · exact ⟨s.cah, fun _ => List.Perm.refl _, rfl⟩
      · exact ⟨_, Cache.access_perm g.archInfo s.cah it.1, rfl⟩
    rw [hpass, hstate, if_neg hne]
    refine ⟨.pass hfq hok hhit hperm, ⟨rest, Function.update_self _ _ _,
      fun it' hit' => hok it' (List.mem_cons_of_mem _ hit'), ?_⟩, h.current, h.pending,
      fun h' hwait => ?_⟩
    · rw [← heq]
      simp
    · have hroom := h.room h' ⟨hwait.1, hwait.2, hwait.3, hwait.4⟩
      rw [hfq, encode_cons] at hroom
      simp only [Function.update_self]
      simp only [List.length_cons, List.length_append] at hroom
      omega

/-! ## Outstanding requests -/

/-- Engine `i` has `a` queued, or waits for it as a header. -/
def WaitedBy (g : Globals) (s : FeatureReader) (a i : ℕ) : Prop := a ∈ s.fq i ∨ Awaits g i s a

/-- The outstanding requests are the feature lines in flight. None of them is cached, and some
engine waits for each. -/
structure Outstanding (g : Globals) (dram : Multiset Transaction) (s : FeatureReader) : Prop where
  inFlight_eq : inFlight g dram s.mem = s.requested.val
  cell : ∀ a ∈ s.requested, IsCell g.archInfo a
  uncached : ∀ a ∈ s.requested, ¬ s.cah.Holds a
  cache : s.cah.Ok g.archInfo
  waited : ∀ a ∈ s.requested, ∃ i < g.archInfo.nOfEngine, WaitedBy g s a i

namespace Outstanding

variable {dram dram' : Multiset Transaction} {a i : ℕ}

theorem init (g : Globals) : Outstanding g 0 .init where
  inFlight_eq := rfl
  cell := by simp [FeatureReader.init]
  uncached := by simp [FeatureReader.init]
  cache := .init _
  waited := by simp [FeatureReader.init]

theorem ok_of_perm {arch : ArchInfo} {cah cah' : Cache} (h : cah.Ok arch)
    (hperm : ∀ set, (cah'.saCache set).Perm (cah.saCache set)) : cah'.Ok arch :=
  ⟨fun set a hmem => h.placed set a ((hperm set).mem_iff.mp hmem),
    fun set => (hperm set).nodup_iff.mpr (h.nodup set)⟩

/-- A change that asks for nothing new. -/
theorem keep (h : Outstanding g dram s) (hreq : s'.requested = s.requested)
    (hflight : inFlight g dram' s'.mem = inFlight g dram s.mem)
    (hcah : ∀ set, (s'.cah.saCache set).Perm (s.cah.saCache set))
    (hwait : ∀ a ∈ s.requested, ∃ i < g.archInfo.nOfEngine, WaitedBy g s' a i) :
    Outstanding g dram' s' where
  inFlight_eq := by rw [hflight, hreq]; exact h.inFlight_eq
  cell := by rw [hreq]; exact h.cell
  uncached := by
    rw [hreq]
    exact fun a ha hhold => h.uncached a ha ((holds_of_perm hcah).mp hhold)
  cache := ok_of_perm h.cache hcah
  waited := by rw [hreq]; exact hwait

/-- A change of the engines that keeps what they wait for. -/
theorem waited_of_sameEngine (h : Outstanding g dram s) (hsame : ∀ i, SameEngine i s s') :
    ∀ a ∈ s.requested, ∃ i < g.archInfo.nOfEngine, WaitedBy g s' a i := by
  intro a ha
  obtain ⟨i, hi, hwait⟩ := h.waited a ha
  refine ⟨i, hi, hwait.imp (fun hmem => ?_) (hsame i).awaits_iff.mpr⟩
  rw [(hsame i).fq]
  exact hmem

/-- A line is looked up, and asked for when it is not cached. -/
theorem fetched (h : Outstanding g dram s) (ha : IsCell g.archInfo a) (hfetch : Fetched a s s')
    (hwait : ∀ b ∈ s.requested, ∃ i < g.archInfo.nOfEngine, WaitedBy g s' b i)
    (hnew : ¬ s.cah.Holds a → ∃ i < g.archInfo.nOfEngine, WaitedBy g s' a i) :
    Outstanding g dram s' := by
  obtain ⟨hcah, ⟨hhold, hreq, hmem⟩ | ⟨hmiss, hreq, hmem⟩⟩ := hfetch
  · exact h.keep hreq (by rw [hmem]) hcah hwait
  · rw [request_requested] at hreq
    refine ⟨?_, ?_, ?_, ok_of_perm h.cache hcah, ?_⟩
    · rw [hreq, hmem, request_mem]
      split
      · next hold => rw [Memory.addReads_nil, Finset.insert_eq_of_mem hold, h.inFlight_eq]
      · next hfresh =>
        rw [inFlight_addReads ha.ge, h.inFlight_eq, Finset.insert_val_of_notMem hfresh]
    · rw [hreq]
      intro b hb
      rcases Finset.mem_insert.mp hb with rfl | hb
      · exact ha
      · exact h.cell b hb
    · rw [hreq]
      intro b hb hhold
      rw [holds_of_perm hcah] at hhold
      rcases Finset.mem_insert.mp hb with rfl | hb
      · exact hmiss hhold
      · exact h.uncached b hb hhold
    · rw [hreq]
      intro b hb
      rcases Finset.mem_insert.mp hb with rfl | hb
      · exact hnew hmiss
      · exact hwait b hb

theorem fetched_request (hmiss : ¬ s.cah.Holds a) : Fetched a s (s.request a) :=
  ⟨fun set => by rw [request_cah], .inr ⟨hmiss, rfl, rfl⟩⟩

/-! ### `ReadNext` -/

theorem begun (h : Outstanding g dram s) (hbegun : s.begun id = some t) :
    Outstanding g dram t := by
  obtain ⟨-, rfl⟩ | ⟨ei, rest, hneed, -, rfl⟩ := begun_cases hbegun
  · exact h
  · refine h.keep rfl rfl (fun _ => List.Perm.refl _) fun a ha => ?_
    obtain ⟨i, hi, hwait⟩ := h.waited a ha
    refine ⟨i, hi, hwait.imp_right fun hawait => ?_⟩
    by_cases hid : i = id
    · -- an engine that asks for its next edge waits for no header
      subst hid
      have hcur := hawait.current
      rw [hneed] at hcur
      cases hcur
    · exact (sameEngine_begun hbegun hid).awaits_iff.mpr hawait

theorem readEffect (ht : PlanTable g) (h : Outstanding g dram s) (hi : i < g.archInfo.nOfEngine)
    (hplan : PlanInv g edges out i s) (heffect : ReadEffect g i s s') : Outstanding g dram s' := by
  cases heffect with
  | idle => exact h
  | @await t a hbegun hwait hmiss =>
    have ht' := h.begun hbegun
    have hcur := (begun_onPlan ht hplan.current hplan.pending hbegun).2
    obtain ⟨b, hb, hcell⟩ := ht.header hwait.headed _ hcur.dst_lt
    obtain rfl : b = a := Option.some.inj (hb.symm.trans hwait.header)
    have hsame : ∀ j, SameEngine j t (t.request b) := sameEngine_request t b
    exact ht'.fetched hcell (fetched_request hmiss) (ht'.waited_of_sameEngine hsame)
      fun _ => ⟨i, hi, .inr ((hsame i).awaits_iff.mpr hwait)⟩
  | @line t s' a hbegun hread =>
    have ht' := h.begun hbegun
    obtain ⟨hneed, hcur⟩ := begun_onPlan ht hplan.current hplan.pending hbegun
    have hcell : IsCell g.archInfo a :=
      ht.cell _ hcur.dst_lt _ hcur.vFold_lt a (List.mem_of_getElem? hread.line)
    obtain ⟨v, hv, hfq⟩ := hread.fq_eq
    refine ht'.fetched hcell hread.fetched (fun b hb => ?_) fun hmiss => ⟨i, hi, .inl ?_⟩
    · obtain ⟨j, hj, hwait⟩ := ht'.waited b hb
      by_cases hji : j = i
      · subst hji
        rcases hwait with hmem | hawait
        · refine ⟨j, hj, .inl ?_⟩
          rw [hfq, Function.update_self]
          exact List.mem_append_left _ hmem
        · -- the header that was waited for is there
          exact absurd (hread.header b hawait) (ht'.uncached b hb)
      · have hsame := hread.sameEngine hji
        exact ⟨j, hj, hwait.imp (fun hmem => by rw [hsame.fq]; exact hmem) hsame.awaits_iff.mpr⟩
    · obtain rfl : v = a := hv.resolve_right fun hone => hmiss hone.2
      rw [hfq, Function.update_self, encode_cons]
      simp

/-! ### `PassFtoSIMD` -/

theorem passEffect {pass : ℤ} (h : Outstanding g dram s) (hi : i < g.archInfo.nOfEngine)
    (heffect : PassEffect g i s pass s') : Outstanding g dram s' := by
  cases heffect with
  | empty => exact h
  | @stall a hhead hcell hmiss =>
    refine h.fetched hcell (fetched_request hmiss)
      (h.waited_of_sameEngine (sameEngine_request s a)) fun _ => ⟨i, hi, .inl ?_⟩
    rw [request_fq]
    exact List.mem_of_head? hhead
  | @pass it rest cah hfq hok hhit hperm =>
    refine h.keep rfl rfl hperm fun a ha => ?_
    obtain ⟨j, hj, hwait⟩ := h.waited a ha
    refine ⟨j, hj, hwait.imp (fun hmem => ?_) fun hawait => ⟨hawait.1, hawait.2, hawait.3, hawait.4⟩⟩
    by_cases hji : j = i
    · subst hji
      simp only [Function.update_self]
      rw [hfq, encode_cons] at hmem
      have hlt := (h.cell a ha).one_lt
      rcases List.mem_cons.mp hmem with rfl | hmem
      · -- the front was cached, so that no request waits for it
        rcases hhit with hone | hhold
        · omega
        · exact absurd hhold (h.uncached _ ha)
      · rcases List.mem_append.mp hmem with hmem | hmem
        · split at hmem
          · rw [List.mem_singleton.mp hmem] at hlt
            omega
          · cases hmem
        · exact hmem
    · simpa [Function.update_of_ne hji] using hmem

/-! ### Taking the replies -/

/-- One reply enters the cache and is no longer requested. -/
theorem receive (h : Outstanding g dram s) {l : List ℕ} (hfq : s.mem.fq = a :: l) :
    Outstanding g dram { s with
      cah := s.cah.insert g.archInfo a
      requested := s.requested.erase a
      mem := { s.mem with fq := s.mem.fq.tail } } := by
  have hflight := h.inFlight_eq
  have hcons : inFlight g dram s.mem = a ::ₘ inFlight g dram { s.mem with fq := l } := by
    simp only [inFlight, hfq, ← Multiset.cons_coe, Multiset.add_cons]
  have hreq : a ∈ s.requested := by
    rw [← Finset.mem_val, ← hflight, hcons]
    exact Multiset.mem_cons_self a _
  refine ⟨?_, fun b hb => h.cell b (Finset.mem_of_mem_erase hb), ?_,
    h.cache.insert (h.uncached a hreq), fun b hb => ?_⟩
  · simp only [hfq, List.tail_cons, Finset.erase_val, ← hflight, hcons, Multiset.erase_cons_head]
  · rintro b hb ⟨set, hmem⟩
    rcases Cache.mem_insert hmem with ⟨rfl, -⟩ | hmem
    · exact absurd rfl (Finset.ne_of_mem_erase hb)
    · exact h.uncached b (Finset.mem_of_mem_erase hb) ⟨set, hmem⟩
  · obtain ⟨i, hi, hwait⟩ := h.waited b (Finset.mem_of_mem_erase hb)
    exact ⟨i, hi, hwait.imp_right fun hawait => ⟨hawait.1, hawait.2, hawait.3, hawait.4⟩⟩

theorem featureReceive (h : Outstanding g dram s) : Outstanding g dram (s.featureReceive g) := by
  suffices key : ∀ (l : List ℕ) (t : FeatureReader), t.mem.fq = l → Outstanding g dram t →
      Outstanding g dram (l.foldl (fun s address =>
        { s with
          cah := s.cah.insert g.archInfo address
          requested := s.requested.erase address
          mem := { s.mem with fq := s.mem.fq.tail } }) t) from key s.mem.fq s rfl h
  intro l
  induction l with
  | nil =>
    intro t _ ht
    exact ht
  | cons a l ih =>
    intro t hfq ht
    rw [List.foldl_cons]
    exact ih _ (by simp [hfq]) (ht.receive hfq)

/-- A move of the environment that leaves the lines in flight as they are. -/
theorem environment (h : Outstanding g dram s) {m : Memory}
    (hflight : inFlight g dram' m = inFlight g dram s.mem) :
    Outstanding g dram' { s with mem := m } :=
  h.keep rfl hflight (fun _ => List.Perm.refl _)
    (h.waited_of_sameEngine fun _ => ⟨rfl, rfl, rfl⟩)

end Outstanding

end Sgcn
