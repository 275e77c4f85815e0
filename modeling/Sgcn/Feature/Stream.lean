-- SUMMARY: In `X_CMP` the feature reader turns edges into line tokens without loss, whatever the cache and the memory do.
import Sgcn.Base.Machine
import Sgcn.Layout.Prepared
import Sgcn.Model.FeatureReader

/-!
# The line stream of the feature reader

For every edge the reader passes on one result per mapped line of the edge's
slice, the last one marked when the edge ends its row. On the way the lines sit in
`fq`, where an end-of-row marker always follows a line (`encode`). Cache and
memory decide when a line is passed on, never what is passed on.
-/

namespace Sgcn

variable {g : Globals}

/-! ## Slices -/

/-- The mapped lines of a slice of the feature table. -/
def sliceLines (g : Globals) (dst fold : ℕ) : List ℕ :=
  (slice (g.xToAddr dst) (fold * g.archInfo.urb)
    (fold * g.archInfo.urb + g.archInfo.urb)).filter (· ≠ 0)

/-- The lines of a slice, as `ReturnAddress` finds them one by one. -/
structure SliceSpec (g : Globals) (dst fold : ℕ) : Prop where
  pos : 1 ≤ (sliceLines g dst fold).length
  le : (sliceLines g dst fold).length ≤ g.archInfo.urb
  line : ∀ j < (sliceLines g dst fold).length, ∃ a,
    (g.xToAddr dst)[fold * g.archInfo.urb + j]? = some a ∧ IsLine g.archInfo a
  zero : ∀ j, (sliceLines g dst fold).length ≤ j → j < g.archInfo.urb →
    (g.xToAddr dst)[fold * g.archInfo.urb + j]? = some 0
  mem : ∀ a ∈ sliceLines g dst fold, IsLine g.archInfo a

theorem IsLine.ne_zero {arch : ArchInfo} {a : ℕ} (h : IsLine arch a) : a ≠ 0 := by
  have := h.line_le
  simp only [cacheLineByte] at this
  omega

theorem IsLine.one_lt {arch : ArchInfo} {a : ℕ} (h : IsLine arch a) : 1 < a := by
  have := h.line_le
  simp only [cacheLineByte] at this
  omega

theorem FeatureTable.sliceSpec (ht : FeatureTable g) {r f : ℕ} (hr : r < g.dataInfo.xH)
    (hf : f < g.archInfo.bf) : SliceSpec g r f := by
  obtain ⟨m, hpos, hle, hline, hzero⟩ := ht.slices r hr f hf
  generalize hL : slice (g.xToAddr r) (f * g.archInfo.urb)
    (f * g.archInfo.urb + g.archInfo.urb) = L
  have hget : ∀ j < g.archInfo.urb, L[j]? = (g.xToAddr r)[f * g.archInfo.urb + j]? := by
    intro j hj
    rw [← hL, slice, Nat.add_sub_cancel_left, List.getElem?_take_of_lt hj, List.getElem?_drop]
  have hlen : L.length = g.archInfo.urb := by
    have hge : g.archInfo.urb - 1 < L.length := by
      have hlast : ∃ a, L[g.archInfo.urb - 1]? = some a := by
        rw [hget _ (by omega)]
        rcases Nat.lt_or_ge (g.archInfo.urb - 1) m with h | h
        · obtain ⟨a, ha, -⟩ := hline _ h
          exact ⟨a, ha⟩
        · exact ⟨0, hzero _ h (by omega)⟩
      obtain ⟨a, ha⟩ := hlast
      exact (List.getElem?_eq_some_iff.mp ha).1
    have hub : L.length ≤ g.archInfo.urb := by
      rw [← hL, slice, List.length_take]
      omega
    omega
  -- the lines are the first `m` cells, the rest are zeros
  have htake : ∀ a ∈ L.take m, IsLine g.archInfo a := by
    intro a ha
    obtain ⟨j, hj, rfl⟩ := List.getElem_of_mem ha
    rw [List.length_take] at hj
    obtain ⟨b, hb, hbl⟩ := hline j (by omega)
    rw [← hget j (by omega), List.getElem?_eq_getElem (by omega)] at hb
    rw [List.getElem_take, Option.some.inj hb]
    exact hbl
  have hdrop : ∀ a ∈ L.drop m, a = 0 := by
    intro a ha
    obtain ⟨j, hj, rfl⟩ := List.getElem_of_mem ha
    rw [List.length_drop] at hj
    have hz := hzero (m + j) (by omega) (by omega)
    rw [← hget _ (by omega), List.getElem?_eq_getElem (by omega)] at hz
    rw [List.getElem_drop]
    exact Option.some.inj hz
  have hfilter : sliceLines g r f = L.take m := by
    rw [sliceLines, hL]
    conv_lhs => rw [← List.take_append_drop m L]
    rw [List.filter_append, List.filter_eq_self.mpr fun a ha => by simpa using (htake a ha).ne_zero,
      List.filter_eq_nil_iff.mpr fun a ha => by simp [hdrop a ha], List.append_nil]
  have hm : (sliceLines g r f).length = m := by
    rw [hfilter, List.length_take]
    omega
  refine ⟨by omega, by omega, ?_, ?_, ?_⟩
  · rw [hm]; exact hline
  · rw [hm]; exact hzero
  · rw [hfilter]; exact htake

/-! ## Results -/

/-- One result per line, all 1 but the last, which is 0 at the end of a row. -/
def lineTokens (n : ℕ) (isLast : Bool) : List ℤ :=
  List.replicate (n - 1) 1 ++ [if isLast then 0 else 1]

/-- The results due for an edge. -/
def edgeTokens (g : Globals) (ei : EdgeInfo) : List ℤ :=
  lineTokens (sliceLines g ei.dst ei.vFold).length ei.isLast

theorem lineTokens_drop {n k : ℕ} (isLast : Bool) (hk : k + 1 < n) :
    (lineTokens n isLast).drop k = 1 :: (lineTokens n isLast).drop (k + 1) := by
  unfold lineTokens
  rw [List.drop_append_of_le_length (by simp; omega),
    List.drop_append_of_le_length (by simp; omega), List.drop_replicate, List.drop_replicate,
    show n - 1 - k = (n - 1 - (k + 1)) + 1 by omega, List.replicate_succ, List.cons_append]

theorem lineTokens_drop_last {n k : ℕ} (isLast : Bool) (hk : k + 1 = n) :
    (lineTokens n isLast).drop k = [if isLast then 0 else 1] := by
  unfold lineTokens
  rw [List.drop_append_of_le_length (by simp; omega), List.drop_replicate,
    show n - 1 - k = 0 by omega]
  rfl

/-! ## The queue of lines -/

/-- A queue entry: a line, or 1 for a line that was cached, and whether a row ends
with it. -/
abbrev Item := ℕ × Bool

/-- How items lie in `fq`: a row end is a 0 behind its line. -/
def encode (items : List Item) : List ℕ :=
  items.flatMap fun it => it.1 :: if it.2 then [0] else []

/-- What an item is passed on as. -/
def itemToken (it : Item) : ℤ := if it.2 then 0 else 1

/-- An item holds a line address or 1. -/
def ItemOk (g : Globals) (it : Item) : Prop := it.1 = 1 ∨ IsLine g.archInfo it.1

theorem ItemOk.ne_zero {it : Item} (h : ItemOk g it) : it.1 ≠ 0 := by
  rcases h with h | h
  · omega
  · exact h.ne_zero

@[simp] theorem encode_nil : encode [] = [] := rfl

theorem encode_cons (it : Item) (items : List Item) :
    encode (it :: items) = it.1 :: ((if it.2 then [0] else []) ++ encode items) := by
  simp [encode]

theorem encode_append (items items' : List Item) :
    encode (items ++ items') = encode items ++ encode items' := by
  simp [encode]

/-- No marker comes first. -/
theorem head?_encode_of_ne {items : List Item} (h : ∀ it ∈ items, it.1 ≠ 0) :
    (encode items).head? ≠ some 0 := by
  cases items with
  | nil => simp
  | cons it items =>
    rw [encode_cons, List.head?_cons]
    intro heq
    exact h it (by simp) (Option.some.inj heq)

theorem head?_encode_ne_zero {items : List Item} (h : ∀ it ∈ items, ItemOk g it) :
    (encode items).head? ≠ some 0 :=
  head?_encode_of_ne fun it hit => (h it hit).ne_zero

theorem mem_encode {items : List Item} (h : ∀ it ∈ items, ItemOk g it) {x : ℕ}
    (hx : x ∈ encode items) : x = 0 ∨ x = 1 ∨ IsLine g.archInfo x := by
  obtain ⟨it, hit, hmem⟩ := List.mem_flatMap.mp hx
  rcases List.mem_cons.mp hmem with rfl | hmem
  · exact .inr (h it hit)
  · split at hmem
    · exact .inl (List.mem_singleton.mp hmem)
    · simp at hmem

namespace FeatureReader

variable {s s' : FeatureReader} {id a : ℕ}

/-! ## What the cache and the memory leave alone -/

@[simp] theorem access_frs (s : FeatureReader) (a : ℕ) : (s.access g a).2.frs = s.frs := rfl
@[simp] theorem access_pq (s : FeatureReader) (a : ℕ) : (s.access g a).2.pq = s.pq := rfl
@[simp] theorem access_fq (s : FeatureReader) (a : ℕ) : (s.access g a).2.fq = s.fq := rfl

@[simp] theorem request_frs (s : FeatureReader) (a : ℕ) : (s.request a).frs = s.frs := by
  unfold request
  split <;> rfl

@[simp] theorem request_pq (s : FeatureReader) (a : ℕ) : (s.request a).pq = s.pq := by
  unfold request
  split <;> rfl

@[simp] theorem request_fq (s : FeatureReader) (a : ℕ) : (s.request a).fq = s.fq := by
  unfold request
  split <;> rfl

theorem fetch_eq (s : FeatureReader) (a : ℕ) :
    s.fetch g a = if (s.access g a).1 then (s.access g a).2 else (s.access g a).2.request a := rfl

@[simp] theorem fetch_frs (s : FeatureReader) (a : ℕ) : (s.fetch g a).frs = s.frs := by
  rw [fetch_eq]
  split <;> simp

@[simp] theorem fetch_pq (s : FeatureReader) (a : ℕ) : (s.fetch g a).pq = s.pq := by
  rw [fetch_eq]
  split <;> simp

@[simp] theorem fetch_fq (s : FeatureReader) (a : ℕ) : (s.fetch g a).fq = s.fq := by
  rw [fetch_eq]
  split <;> simp

/-- What `FeatureReceive` leaves: an empty reply queue, a cache with the replies
inserted in turn, and the replies no longer requested. -/
theorem featureReceive_eq (g : Globals) (s : FeatureReader) :
    s.featureReceive g =
      { s with
        cah := s.mem.fq.foldl (fun c a => c.insert g.archInfo a) s.cah
        requested := s.mem.fq.foldl (fun r a => r.erase a) s.requested
        mem := { s.mem with fq := [] } } := by
  suffices key : ∀ (l : List ℕ) (t : FeatureReader), t.mem.fq = l →
      l.foldl (fun s address =>
        { s with
          cah := s.cah.insert g.archInfo address
          requested := s.requested.erase address
          mem := { s.mem with fq := s.mem.fq.tail } }) t =
      { t with
        cah := l.foldl (fun c a => c.insert g.archInfo a) t.cah
        requested := l.foldl (fun r a => r.erase a) t.requested
        mem := { t.mem with fq := [] } } from key s.mem.fq s rfl
  intro l
  induction l with
  | nil =>
    rintro ⟨frs, pq, requested, fq, cah, mem⟩ hl
    obtain ⟨rq, mfq, tq, ga, fe, oa⟩ := mem
    cases hl
    rfl
  | cons a l ih =>
    intro t hl
    rw [List.foldl_cons, ih _ (by simp [hl])]
    rfl

/-! ## Reading one line -/

/-- The tests for another column see the end of the slice only. -/
theorem moreColumns_iff (ht : FeatureTable g) {f : FrStat} (hf : f.vFold < g.archInfo.bf)
    (hc : f.curColIdx < g.archInfo.urb) :
    moreColumns g f = true ↔ f.curColIdx + 1 < g.archInfo.urb := by
  have hmul := Nat.mul_le_mul_right g.archInfo.urb (Nat.succ_le_of_lt hf)
  rw [Nat.succ_mul, ← ht.totalUrb_eq] at hmul
  have hcast : (f.vFold * g.archInfo.urb + g.archInfo.urb : ℤ) ≤ g.dataInfo.totalUrb := by
    exact_mod_cast hmul
  unfold moreColumns
  rw [decide_eq_true_iff]
  constructor
  · rintro ⟨-, h⟩
    omega
  · intro h
    exact ⟨by omega, by omega⟩

/-- The lines of the slice that the current edge of an engine names. -/
def width (g : Globals) (f : FrStat) : ℕ := (sliceLines g f.dst f.vFold).length

/-- The current edge of an engine is one of the table, and a line of it is left. -/
structure CurrentOk (g : Globals) (f : FrStat) : Prop where
  dst_lt : f.dst < g.dataInfo.xH
  vFold_lt : f.vFold < g.archInfo.bf
  cur_lt : f.curColIdx < width g f

/-- What is queued for line `a`: 1 if it is cached, also by its own fetch. -/
def entry (g : Globals) (a : ℕ) (s : FeatureReader) : ℕ :=
  if ((s.fetch g a).access g a).1 then 1 else a

/-- What reading line `a` for engine `id` makes of the state: the line is fetched,
looked up and queued, with a row end behind it if `isEnd`, and `f` is the new
cursor. -/
def afterRead (g : Globals) (id a : ℕ) (isEnd : Bool) (f : FrStat) (s : FeatureReader) :
    FeatureReader :=
  { ((s.fetch g a).access g a).2 with
    frs := Function.update s.frs id f
    fq := Function.update s.fq id (s.fq id ++ encode [(s.entry g a, isEnd)]) }

@[simp] theorem afterRead_pq (s : FeatureReader) (id a : ℕ) (isEnd : Bool) (f : FrStat) :
    (s.afterRead g id a isEnd f).pq = s.pq := by
  simp [afterRead]

@[simp] theorem afterRead_frs (s : FeatureReader) (id a : ℕ) (isEnd : Bool) (f : FrStat) :
    (s.afterRead g id a isEnd f).frs = Function.update s.frs id f := rfl

@[simp] theorem afterRead_fq (s : FeatureReader) (id a : ℕ) (isEnd : Bool) (f : FrStat) :
    (s.afterRead g id a isEnd f).fq =
      Function.update s.fq id (s.fq id ++ encode [(s.entry g a, isEnd)]) := rfl

theorem entry_ok (hline : IsLine g.archInfo a) (isEnd : Bool) : ItemOk g (s.entry g a, isEnd) := by
  unfold ItemOk entry
  split
  · exact .inl rfl
  · exact .inr hline

theorem endEdge_afterRead (s : FeatureReader) (id a : ℕ) (f : FrStat) :
    (((s.fetch g a).access g a).2.pushFq id (s.entry g a)).endEdge id f =
      s.afterRead g id a f.isLast { f with pqReadNeed := true } := by
  unfold endEdge afterRead
  cases f.isLast
  · simp [pushFq, setFrs, encode]
  · simp [pushFq, setFrs, encode]

/-- `ReadNext` on a current edge reads its next line, and ends the edge when the
line was the last of its slice. -/
theorem readXCmp_line (ht : FeatureTable g) (hok : CurrentOk g (s.frs id)) :
    ∃ a f, returnAddress g (s.frs id).dst (s.frs id).curColIdx (s.frs id).vFold = some a ∧
      IsLine g.archInfo a ∧
      readXCmp g id s = some (s.afterRead g id a
        (decide ((s.frs id).curColIdx + 1 = width g (s.frs id)) && (s.frs id).isLast) f) ∧
      if (s.frs id).curColIdx + 1 = width g (s.frs id) then f.pqReadNeed = true
      else f = { s.frs id with curColIdx := (s.frs id).curColIdx + 1 } := by
  have hspec := ht.sliceSpec hok.dst_lt hok.vFold_lt
  have hcur := hok.cur_lt
  have hle : width g (s.frs id) ≤ g.archInfo.urb := hspec.le
  have hmore := moreColumns_iff ht hok.vFold_lt (by omega)
  obtain ⟨a, ha, hline⟩ := hspec.line _ hcur
  have hentry : s.entry g a = if ((s.fetch g a).access g a).1 then 1 else a := rfl
  simp only [readXCmp, returnAddress, ha, Option.bind_eq_bind, Option.bind_some, ← hentry]
  by_cases hlast : (s.frs id).curColIdx + 1 = width g (s.frs id)
  · -- the slice ends here: at the edge of the fold, or before an unmapped slot
    simp only [if_pos hlast, decide_eq_true hlast, Bool.true_and]
    by_cases hfold : (s.frs id).curColIdx + 1 < g.archInfo.urb
    · have hzero := hspec.zero _ hlast.ge hfold
      refine ⟨a, ⟨(s.frs id).isLast, (s.frs id).dst, (s.frs id).vFold, g.archInfo.urb - 1, true⟩,
        rfl, hline, ?_, rfl⟩
      rw [if_pos (hmore.mpr hfold), hzero]
      simp only [Option.bind_some, if_true, endEdge_afterRead]
      rfl
    · refine ⟨a, { s.frs id with pqReadNeed := true }, rfl, hline, ?_, rfl⟩
      rw [if_neg (fun h => hfold (hmore.mp h)), endEdge_afterRead]
      rfl
  · have hfold : (s.frs id).curColIdx + 1 < g.archInfo.urb := by omega
    have hnext : (s.frs id).curColIdx + 1 < width g (s.frs id) := by omega
    obtain ⟨b, hb, hbl⟩ := hspec.line _ hnext
    simp only [if_neg hlast, decide_eq_false hlast, Bool.false_and]
    refine ⟨a, _, rfl, hline, ?_, rfl⟩
    rw [if_pos (hmore.mpr hfold), hb]
    simp only [Option.bind_some, if_neg hbl.ne_zero]
    simp [afterRead, pushFq, setFrs, encode]

theorem readXCmp_spec (ht : FeatureTable g) (hok : CurrentOk g (s.frs id)) :
    ∃ a f, IsLine g.archInfo a ∧
      readXCmp g id s = some (s.afterRead g id a
        (decide ((s.frs id).curColIdx + 1 = width g (s.frs id)) && (s.frs id).isLast) f) ∧
      if (s.frs id).curColIdx + 1 = width g (s.frs id) then f.pqReadNeed = true
      else f = { s.frs id with curColIdx := (s.frs id).curColIdx + 1 } := by
  obtain ⟨a, f, -, h⟩ := readXCmp_line ht hok
  exact ⟨a, f, h⟩

/-! ## The calls -/

/-- What `ReadNext` may do: nothing, or read a line of the current edge, which is
the front of the queue when the last one was finished. -/
theorem readNext_cases (hmode : g.archInfo.mode = .xCmp) (s : FeatureReader) (id : ℕ) :
    readNext g id s = some s ∨
    ((s.frs id).pqReadNeed = false ∧ readNext g id s = readXCmp g id s) ∨
    ∃ ei rest, (s.frs id).pqReadNeed = true ∧ s.pq id = ei :: rest ∧
      readNext g id s = readXCmp g id (s.consumePendingQ id ei rest) := by
  unfold readNext readMode
  rw [hmode]
  split
  · exact .inl rfl
  · split
    · next hneed =>
      cases hpq : s.pq id with
      | nil => exact .inl rfl
      | cons ei rest => exact .inr (.inr ⟨ei, rest, hneed, rfl, rfl⟩)
    · next hneed => exact .inr (.inl ⟨by simpa using hneed, rfl⟩)

/-- What `PassFtoSIMD` may do on a queue of items: it waits, and then at most asks
for the front line, or it passes the front item on. -/
theorem passFtoSIMD_items {items : List Item} (hfq : s.fq id = encode items)
    (hok : ∀ it ∈ items, it.1 ≠ 0) :
    (items = [] ∧ passFtoSIMD g id s = (-1, s)) ∨
    ∃ it rest, items = it :: rest ∧
      ((it.1 ≠ 1 ∧ (s.access g it.1).1 = false ∧
          passFtoSIMD g id s = (-1, (s.access g it.1).2.request it.1)) ∨
        ((it.1 = 1 ∨ (s.access g it.1).1 = true) ∧ passFtoSIMD g id s =
          (itemToken it, { (if it.1 = 1 then s else (s.access g it.1).2) with
            fq := Function.update s.fq id (encode rest) }))) := by
  cases items with
  | nil =>
    refine .inl ⟨rfl, ?_⟩
    unfold passFtoSIMD
    rw [hfq]
    rfl
  | cons it rest =>
    refine .inr ⟨it, rest, rfl, ?_⟩
    have hrest : (encode rest).head? ≠ some 0 :=
      head?_encode_of_ne fun it' hit' => hok it' (List.mem_cons_of_mem _ hit')
    -- the entry behind a line is its row end, or the next line
    have hmarker : ∀ rest', (if it.2 then [0] else []) ++ encode rest = 0 :: rest' →
        itemToken it = 0 ∧ rest' = encode rest := by
      intro rest' heq
      cases hend : it.2 with
      | true =>
        rw [hend] at heq
        exact ⟨by simp [itemToken, hend], by simpa using heq.symm⟩
      | false =>
        rw [hend] at heq
        simp only [Bool.false_eq_true, if_false, List.nil_append] at heq
        simp [heq] at hrest
    have hplain : (∀ rest', (if it.2 then [0] else []) ++ encode rest ≠ 0 :: rest') →
        itemToken it = 1 ∧ (if it.2 then [0] else []) ++ encode rest = encode rest := by
      intro hne
      cases hend : it.2 with
      | true => exact absurd (by simp [hend]) (hne (encode rest))
      | false => exact ⟨by simp [itemToken, hend], by simp⟩
    unfold passFtoSIMD
    simp only [hfq, encode_cons]
    by_cases hone : it.1 = 1
    · refine .inr ⟨.inl hone, ?_⟩
      simp only [if_pos hone, if_true]
      split
      · next rest' heq =>
        obtain ⟨htoken, rfl⟩ := hmarker rest' heq
        rw [htoken]
      · next hne =>
        obtain ⟨htoken, hq⟩ := hplain hne
        rw [htoken, hq]
    · cases hhit : (s.access g it.1).1 with
      | true =>
        refine .inr ⟨.inr rfl, ?_⟩
        simp only [if_neg hone, hhit, if_true, access_fq]
        split
        · next rest' heq =>
          obtain ⟨htoken, rfl⟩ := hmarker rest' heq
          rw [htoken]
        · next hne =>
          obtain ⟨htoken, hq⟩ := hplain hne
          rw [htoken, hq]
      | false =>
        refine .inl ⟨hone, rfl, ?_⟩
        simp [hone, hhit]

theorem passFtoSIMD_cases {items : List Item} (hfq : s.fq id = encode items)
    (hok : ∀ it ∈ items, ItemOk g it) :
    (items = [] ∧ passFtoSIMD g id s = (-1, s)) ∨
    ∃ it rest, items = it :: rest ∧
      ((it.1 ≠ 1 ∧ (s.access g it.1).1 = false ∧
          passFtoSIMD g id s = (-1, (s.access g it.1).2.request it.1)) ∨
        ((it.1 = 1 ∨ (s.access g it.1).1 = true) ∧ passFtoSIMD g id s =
          (itemToken it, { (if it.1 = 1 then s else (s.access g it.1).2) with
            fq := Function.update s.fq id (encode rest) }))) :=
  passFtoSIMD_items hfq fun it hit => (hok it hit).ne_zero

/-! ## The invariant of one engine -/

/-- An edge that names a slice of the table. -/
structure EdgeOk (g : Globals) (ei : EdgeInfo) : Prop where
  dst_lt : ei.dst < g.dataInfo.xH
  vFold_lt : ei.vFold < g.archInfo.bf

/-- The results due for the rest of the current edge. -/
def currentTokens (g : Globals) (f : FrStat) : List ℤ :=
  if f.pqReadNeed then [] else (lineTokens (width g f) f.isLast).drop f.curColIdx

/-- The results passed on (`out`) and those due for the queued lines, for the
current edge and for the queued edges make up the results due for `edges`. -/
structure LineInv (g : Globals) (edges : List EdgeInfo) (out : List ℤ) (id : ℕ)
    (s : FeatureReader) : Prop where
  queued : ∃ items, s.fq id = encode items ∧ (∀ it ∈ items, ItemOk g it) ∧
    out ++ items.map itemToken ++ currentTokens g (s.frs id) ++ (s.pq id).flatMap (edgeTokens g) =
      edges.flatMap (edgeTokens g)
  current : (s.frs id).pqReadNeed = false → CurrentOk g (s.frs id)
  pending : ∀ ei ∈ s.pq id, EdgeOk g ei

/-- The state of engine `j` is the same in both. -/
structure SameEngine (j : ℕ) (s s' : FeatureReader) : Prop where
  frs : s'.frs j = s.frs j
  pq : s'.pq j = s.pq j
  fq : s'.fq j = s.fq j

variable {edges : List EdgeInfo} {out : List ℤ} {j : ℕ} {ei : EdgeInfo}

theorem LineInv.init (g : Globals) (id : ℕ) : LineInv g [] [] id .init :=
  ⟨⟨[], rfl, by simp, rfl⟩, fun h => (by cases h), fun _ h => (by cases h)⟩

theorem LineInv.congr (h : LineInv g edges out id s) (hsame : SameEngine id s s') :
    LineInv g edges out id s' := by
  obtain ⟨hqueued, hcurrent, hpending⟩ := h
  constructor
  · rw [hsame.fq, hsame.frs, hsame.pq]
    exact hqueued
  · rw [hsame.frs]
    exact hcurrent
  · rw [hsame.pq]
    exact hpending

/-! ### `EnterFtoList` -/

theorem sameEngine_enterFtoList (hne : ei.id ≠ j) : SameEngine j s (s.enterFtoList ei) :=
  ⟨rfl, Function.update_of_ne hne.symm _ _, rfl⟩

theorem LineInv.enterFtoList (h : LineInv g edges out ei.id s) (hei : EdgeOk g ei) :
    LineInv g (edges ++ [ei]) out ei.id (s.enterFtoList ei) := by
  obtain ⟨items, hfq, hok, heq⟩ := h.queued
  have hpq : (s.enterFtoList ei).pq ei.id = s.pq ei.id ++ [ei] := Function.update_self _ _ _
  refine ⟨⟨items, hfq, hok, ?_⟩, h.current, ?_⟩
  · rw [hpq, List.flatMap_append, List.flatMap_append, ← heq, ← List.append_assoc]
    rfl
  · rw [hpq]
    intro ei' hmem
    rcases List.mem_append.mp hmem with hmem | hmem
    · exact h.pending ei' hmem
    · rw [List.mem_singleton.mp hmem]
      exact hei

/-! ### `ReadNext` -/

theorem LineInv.consumePendingQ {rest : List EdgeInfo} (ht : FeatureTable g)
    (h : LineInv g edges out id s) (hneed : (s.frs id).pqReadNeed = true)
    (hpq : s.pq id = ei :: rest) :
    LineInv g edges out id (s.consumePendingQ id ei rest) ∧
      ((s.consumePendingQ id ei rest).frs id).pqReadNeed = false := by
  obtain ⟨items, hfq, hok, heq⟩ := h.queued
  have hei := h.pending ei (by simp [hpq])
  have hfrs : (s.consumePendingQ id ei rest).frs id = ⟨ei.isLast, ei.dst, ei.vFold, 0, false⟩ :=
    Function.update_self _ _ _
  have hrest : (s.consumePendingQ id ei rest).pq id = rest := Function.update_self _ _ _
  refine ⟨⟨⟨items, hfq, hok, ?_⟩, fun _ => ?_, ?_⟩, by rw [hfrs]⟩
  · rw [hfrs, hrest, ← heq, hpq, currentTokens, currentTokens, if_pos hneed]
    simp [edgeTokens, width]
  · rw [hfrs]
    exact ⟨hei.dst_lt, hei.vFold_lt, (ht.sliceSpec hei.dst_lt hei.vFold_lt).pos⟩
  · rw [hrest]
    intro ei' hmem
    exact h.pending ei' (by rw [hpq]; exact List.mem_cons_of_mem _ hmem)

/-- The result due for the line under the cursor, and those due after it. -/
theorem currentTokens_step {f f' : FrStat} (hok : CurrentOk g f) (hneed : f.pqReadNeed = false)
    (hf : if f.curColIdx + 1 = width g f then f'.pqReadNeed = true
      else f' = { f with curColIdx := f.curColIdx + 1 }) (v : ℕ) :
    currentTokens g f =
      itemToken (v, decide (f.curColIdx + 1 = width g f) && f.isLast) :: currentTokens g f' := by
  have hlt := hok.cur_lt
  rw [currentTokens, if_neg (by simp [hneed])]
  split at hf
  · next hlast =>
    rw [lineTokens_drop_last _ hlast, currentTokens, if_pos hf]
    simp [itemToken, hlast]
  · next hlast =>
    rw [lineTokens_drop _ (by omega), hf, currentTokens, if_neg (by simp [hneed])]
    have hwidth : width g { f with curColIdx := f.curColIdx + 1 } = width g f := rfl
    simp [itemToken, hlast, hwidth]

/-- Reading a line moves one result from the current edge to the queue. -/
theorem LineInv.readXCmp (ht : FeatureTable g) (h : LineInv g edges out id s)
    (hneed : (s.frs id).pqReadNeed = false) :
    ∃ s', readXCmp g id s = some s' ∧ LineInv g edges out id s' ∧
      ∀ j, j ≠ id → SameEngine j s s' := by
  have hcur := h.current hneed
  obtain ⟨items, hfq, hok, heq⟩ := h.queued
  obtain ⟨a, f, hline, hread, hf⟩ := readXCmp_spec ht hcur
  have hstep := currentTokens_step hcur hneed hf (s.entry g a)
  generalize (decide ((s.frs id).curColIdx + 1 = width g (s.frs id)) && (s.frs id).isLast) = isEnd
    at hread hstep
  refine ⟨_, hread, ⟨⟨items ++ [(s.entry g a, isEnd)], ?_, ?_, ?_⟩, ?_, ?_⟩, fun j hj => ?_⟩
  · rw [encode_append, ← hfq, afterRead_fq, Function.update_self]
  · intro it hmem
    rcases List.mem_append.mp hmem with hmem | hmem
    · exact hok it hmem
    · rw [List.mem_singleton.mp hmem]
      exact entry_ok hline _
  · rw [afterRead_pq, afterRead_frs, Function.update_self, ← heq, List.map_append, hstep]
    simp
  · rw [afterRead_frs, Function.update_self]
    intro hneed'
    split at hf
    · rw [hf] at hneed'
      cases hneed'
    · next hlast =>
      rw [hf]
      have hlt := hcur.cur_lt
      exact ⟨hcur.dst_lt, hcur.vFold_lt, by
        change (s.frs id).curColIdx + 1 < width g (s.frs id)
        omega⟩
  · rw [afterRead_pq]
    exact h.pending
  · exact ⟨by simp [hj], by simp, by simp [hj]⟩

theorem LineInv.readNext (hmode : g.archInfo.mode = .xCmp) (ht : FeatureTable g)
    (h : LineInv g edges out id s) :
    ∃ s', readNext g id s = some s' ∧ LineInv g edges out id s' ∧
      ∀ j, j ≠ id → SameEngine j s s' := by
  rcases readNext_cases hmode s id with hsame | ⟨hneed, hread⟩ | ⟨ei, rest, hneed, hpq, hread⟩
  · exact ⟨s, hsame, h, fun j _ => ⟨rfl, rfl, rfl⟩⟩
  · rw [hread]
    exact h.readXCmp ht hneed
  · obtain ⟨h', hneed'⟩ := h.consumePendingQ ht hneed hpq
    obtain ⟨s', hs', hinv, hframe⟩ := h'.readXCmp ht hneed'
    refine ⟨s', hread.trans hs', hinv, fun j hj => ?_⟩
    obtain ⟨hfrs, hpq', hfq⟩ := hframe j hj
    exact ⟨hfrs.trans (Function.update_of_ne hj _ _), hpq'.trans (Function.update_of_ne hj _ _), hfq⟩

/-! ### `FeatureReceive` and `PassFtoSIMD` -/

theorem sameEngine_featureReceive (j : ℕ) (s : FeatureReader) :
    SameEngine j s (s.featureReceive g) := by
  rw [featureReceive_eq]
  exact ⟨rfl, rfl, rfl⟩

/-- A result other than `-1` is the next one due. -/
theorem LineInv.passFtoSIMD (h : LineInv g edges out id s) :
    LineInv g edges (out ++ if (passFtoSIMD g id s).1 = -1 then [] else [(passFtoSIMD g id s).1])
        id (passFtoSIMD g id s).2 ∧
      ∀ j, j ≠ id → SameEngine j s (passFtoSIMD g id s).2 := by
  obtain ⟨items, hfq, hok, heq⟩ := h.queued
  rcases passFtoSIMD_cases hfq hok with ⟨rfl, hpass⟩ | ⟨it, rest, rfl, ⟨-, -, hpass⟩ | ⟨-, hpass⟩⟩
  · rw [hpass, if_pos rfl, List.append_nil]
    exact ⟨h, fun j _ => ⟨rfl, rfl, rfl⟩⟩
  · rw [hpass, if_pos rfl, List.append_nil]
    have hsame : ∀ j, SameEngine j s ((s.access g it.1).2.request it.1) :=
      fun j => ⟨by simp, by simp, by simp⟩
    exact ⟨h.congr (hsame id), fun j _ => hsame j⟩
  · have hne : itemToken it ≠ -1 := by
      unfold itemToken
      split <;> decide
    rw [hpass]
    generalize hto : (if it.1 = 1 then s else (s.access g it.1).2) = t
    have hfrs : t.frs = s.frs := by
      rw [← hto]
      split <;> rfl
    have hpq : t.pq = s.pq := by
      rw [← hto]
      split <;> rfl
    rw [if_neg hne]
    refine ⟨⟨⟨rest, Function.update_self _ _ _,
      fun it' hit' => hok it' (List.mem_cons_of_mem _ hit'), ?_⟩, ?_, ?_⟩,
      fun j hj => ⟨by rw [hfrs], by rw [hpq], Function.update_of_ne hj _ _⟩⟩
    · rw [hfrs, hpq, ← heq]
      simp
    · rw [hfrs]
      exact h.current
    · rw [hpq]
      exact h.pending

/-! ## Call sequences -/

/-- A call, or a move of the environment, which may put any cache and any memory
in place of those the reader points to. -/
inductive ReaderCall where
  | enterFtoList (ei : EdgeInfo)
  | readNext (id : ℕ)
  | featureReceive
  | passFtoSIMD (id : ℕ)
  | environment (cah : Cache) (mem : Memory)

/-- One call, with the result of `PassFtoSIMD` unless it is `-1`. -/
def call (g : Globals) : Machine.Call FeatureReader ReaderCall (ℕ × ℤ)
  | s, .enterFtoList ei => some (s.enterFtoList ei, [])
  | s, .readNext id => (s.readNext g id).map fun s' => (s', [])
  | s, .featureReceive => some (s.featureReceive g, [])
  | s, .passFtoSIMD id =>
    let (pass, s') := s.passFtoSIMD g id
    some (s', if pass = -1 then [] else [(id, pass)])
  | s, .environment cah mem => some ({ s with cah := cah, mem := mem }, [])

/-- The edge a call enters for engine `id`. -/
def ReaderCall.edge? (id : ℕ) : ReaderCall → Option EdgeInfo
  | .enterFtoList ei => if ei.id = id then some ei else none
  | _ => none

/-- The edges entered for engine `id`. -/
def entered (id : ℕ) (calls : List ReaderCall) : List EdgeInfo :=
  calls.filterMap (ReaderCall.edge? id)

/-- The results passed on for engine `id`. -/
def passed (id : ℕ) (results : List (ℕ × ℤ)) : List ℤ :=
  (results.filter fun r => r.1 = id).map Prod.snd

theorem entered_append (id : ℕ) (calls : List ReaderCall) (c : ReaderCall) :
    entered id (calls ++ [c]) = entered id calls ++ (c.edge? id).toList := by
  rw [entered, entered, List.filterMap_append]
  cases h : c.edge? id with
  | none => simp [h]
  | some ei => simp [h]

theorem passed_append (id j : ℕ) (pass : ℤ) (results : List (ℕ × ℤ)) :
    passed j (results ++ if pass = -1 then [] else [(id, pass)]) =
      passed j results ++ if j = id then if pass = -1 then [] else [pass] else [] := by
  unfold passed
  rw [List.filter_append, List.map_append]
  congr 1
  by_cases hj : j = id
  · rw [if_pos hj, hj]
    split <;> simp
  · rw [if_neg hj]
    split <;> simp [Ne.symm hj]

/-- The invariant of the reader: the one of every engine. -/
def ReaderInv (g : Globals) (calls : List ReaderCall) (results : List (ℕ × ℤ))
    (s : FeatureReader) : Prop :=
  ∀ id, LineInv g (entered id calls) (passed id results) id s

/-- A call enters edges of the table only. -/
def ReaderCall.Ok (g : Globals) (c : ReaderCall) : Prop :=
  ∀ ei, c = .enterFtoList ei → EdgeOk g ei

theorem readerInv_call (hmode : g.archInfo.mode = .xCmp) (ht : FeatureTable g)
    {calls : List ReaderCall} {results : List (ℕ × ℤ)} {c : ReaderCall}
    (h : ReaderInv g calls results s) (hc : c.Ok g) :
    ∃ s' o, call g s c = some (s', o) ∧ ReaderInv g (calls ++ [c]) (results ++ o) s' := by
  cases c with
  | enterFtoList ei =>
    refine ⟨_, [], rfl, fun id => ?_⟩
    rw [entered_append, List.append_nil]
    by_cases hid : ei.id = id
    · subst hid
      simpa [ReaderCall.edge?] using (h ei.id).enterFtoList (hc ei rfl)
    · simpa [ReaderCall.edge?, hid] using (h id).congr (sameEngine_enterFtoList hid)
  | readNext id =>
    obtain ⟨s', hs', hinv, hframe⟩ := (h id).readNext hmode ht
    refine ⟨s', [], by simp [call, hs'], fun j => ?_⟩
    simp only [entered_append, ReaderCall.edge?, Option.toList_none, List.append_nil]
    by_cases hj : j = id
    · rw [hj]
      exact hinv
    · exact (h j).congr (hframe j hj)
  | featureReceive =>
    refine ⟨_, [], rfl, fun id => ?_⟩
    simp only [entered_append, ReaderCall.edge?, Option.toList_none, List.append_nil]
    exact (h id).congr (sameEngine_featureReceive id s)
  | passFtoSIMD id =>
    obtain ⟨hinv, hframe⟩ := (h id).passFtoSIMD
    refine ⟨(s.passFtoSIMD g id).2, _, rfl, fun j => ?_⟩
    simp only [entered_append, ReaderCall.edge?, Option.toList_none, List.append_nil, passed_append]
    by_cases hj : j = id
    · rw [if_pos hj, hj]
      exact hinv
    · rw [if_neg hj, List.append_nil]
      exact (h j).congr (hframe j hj)
  | environment cah mem =>
    refine ⟨_, [], rfl, fun id => ?_⟩
    simp only [entered_append, ReaderCall.edge?, Option.toList_none, List.append_nil]
    exact (h id).congr ⟨rfl, rfl, rfl⟩

/-- In every interleaving of calls, and whatever the cache and the memory do, the
results passed on for an engine are a prefix of the results due for the edges
entered for it. No row end is ever at the front of a queue, and no address of the
table or of a queue is one of the two markers. -/
theorem passed_prefix_edgeTokens {inp : Input} (hmode : inp.mode = .xCmp) (hunit : 1 ≤ inp.xUnit)
    (hn : 1 ≤ inp.nOfEngine) (hg : preprocess inp = some g) (calls : List ReaderCall)
    (hedges : ∀ ei, .enterFtoList ei ∈ calls →
      ei.dst < g.dataInfo.xH ∧ ei.vFold < g.archInfo.bf) :
    ∃ s results, Machine.run (call g) .init calls = some (s, results) ∧
      ∀ id, passed id results <+: (entered id calls).flatMap (edgeTokens g) ∧
        (s.fq id).head? ≠ some 0 ∧
        (∀ x ∈ s.fq id, x = 0 ∨ x = 1 ∨ IsLine g.archInfo x ∧ 1 < x) ∧
        ∀ dst < g.dataInfo.xH, ∀ fold < g.archInfo.bf, ∀ a ∈ sliceLines g dst fold, 1 < a := by
  have hprep := preparedXCmp_of_preprocess hmode hunit hn hg
  have hok : ∀ c ∈ calls, ReaderCall.Ok g c := by
    rintro c hc ei rfl
    obtain ⟨hdst, hfold⟩ := hedges ei hc
    exact ⟨hdst, hfold⟩
  obtain ⟨s, results, hrun, hinv⟩ := Machine.run_total (I := ReaderInv g)
    (fun _ _ _ _ hI hP => readerInv_call hprep.mode_eq hprep.table hI hP)
    (fun id => LineInv.init g id) hok
  refine ⟨s, results, hrun, fun id => ?_⟩
  obtain ⟨items, hfq, hok, heq⟩ := (hinv id).queued
  refine ⟨?_, ?_, fun x hx => ?_, fun dst hdst fold hfold a ha => ?_⟩
  · rw [← heq, List.append_assoc, List.append_assoc]
    exact List.prefix_append _ _
  · rw [hfq]
    exact head?_encode_ne_zero hok
  · rw [hfq] at hx
    rcases mem_encode hok hx with h | h | h
    · exact .inl h
    · exact .inr (.inl h)
    · exact .inr (.inr ⟨h, h.one_lt⟩)
  · exact ((hprep.table.sliceSpec hdst hfold).mem a ha).one_lt

/-- An edge that ends its row, read and passed on after its line has come. -/
theorem passed_prefix_edgeTokens_threeVertices :
    ∃ g, preprocess .threeVertices = some g ∧
      let calls := [.enterFtoList ⟨0, true, 1, 0⟩, .readNext 0, .passFtoSIMD 0,
        .environment ⟨fun _ => sliceLines g 1 0⟩ .init, .passFtoSIMD 0]
      ∃ s results, Machine.run (call g) .init calls = some (s, results) ∧
        passed 0 results <+: edgeTokens g ⟨0, true, 1, 0⟩ := by
  obtain ⟨g, hg⟩ := preprocess_threeVertices
  obtain ⟨hbf, -, hxH⟩ := geometry_threeVertices hg
  obtain ⟨s, results, hrun, h⟩ := passed_prefix_edgeTokens rfl (by decide) (by decide) hg
    [.enterFtoList ⟨0, true, 1, 0⟩, .readNext 0, .passFtoSIMD 0,
      .environment ⟨fun _ => sliceLines g 1 0⟩ .init, .passFtoSIMD 0]
    (by
      intro ei hei
      obtain rfl : ei = ⟨0, true, 1, 0⟩ := by simpa using hei
      rw [hxH, hbf]
      decide)
  refine ⟨g, hg, s, results, hrun, ?_⟩
  have hpre := (h 0).1
  rwa [entered, show List.filterMap (ReaderCall.edge? 0) _ = [⟨0, true, 1, 0⟩] from rfl,
    List.flatMap_singleton] at hpre

end FeatureReader

end Sgcn
