-- SUMMARY: Which address a SIMD unit returns after any calls, and up to which count it is the exact one.
import Sgcn.Base.Machine
import Sgcn.Output.Simd

/-!
# Output addresses

`GetAddress` counts the addresses it has returned and multiplies the count by the line
size in `int` before it adds the start of the unit's outputs. The product is exact for
the first `2 ^ 25` addresses of a unit; the next one lies `2 ^ 31` bytes below the start.
-/

namespace Sgcn

namespace Simd

variable {g : Globals} {s s₀ : Simd} {out : List ℕ} {c : ℕ}

/-! ## Calls -/

/-- What the controller calls on a unit. -/
inductive SimdCall where
  | getFeature (f : ℤ)
  | write (mem : Memory)

/-- One call, with the addresses that `GetAddress` returns in it as output. -/
def call (g : Globals) : Machine.Call Simd SimdCall ℕ
  | s, .getFeature f => some (s.getFeature g f, (s.getFeature g f).wq.drop s.wq.length)
  | s, .write mem => some ((s.write mem).1, [])

theorem write_counters (s : Simd) (mem : Memory) :
    (s.write mem).1.cnt = s.cnt ∧ (s.write mem).1.axwAddrStart = s.axwAddrStart := by
  unfold write
  split
  · exact ⟨rfl, rfl⟩
  · split <;> exact ⟨rfl, rfl⟩

/-- After any calls on a new unit, the addresses returned are those of the first counts. -/
theorem returned_of_run (hcnt : s₀.cnt = 0) {calls : List SimdCall}
    (hrun : Machine.run (call g) s₀ calls = some (s, out)) :
    s.cnt = out.length ∧ out = (List.range out.length).map s₀.address := by
  suffices key : s.cnt = out.length ∧ s.axwAddrStart = s₀.axwAddrStart ∧
      out = (List.range out.length).map s₀.address from ⟨key.1, key.2.2⟩
  refine Machine.run_inv (I := fun _ os t => t.cnt = os.length ∧
    t.axwAddrStart = s₀.axwAddrStart ∧ os = (List.range os.length).map s₀.address) ?_
    ⟨hcnt, rfl, rfl⟩ hrun
  rintro is os t i t' o ⟨hlen, hstart, hos⟩ hcall
  cases i with
  | getFeature f =>
    obtain ⟨rfl, rfl⟩ := Prod.mk.inj (Option.some.inj hcall)
    obtain ⟨n, hcnt', hstart', hwq⟩ := getFeature_pushes g f t
    have haddr : t.address = s₀.address := by
      funext k
      simp only [address, hstart]
    have ho : (t.getFeature g f).wq.drop t.wq.length = (List.range' os.length n).map s₀.address := by
      rw [hwq, List.drop_left, haddr, hlen]
    rw [ho]
    refine ⟨by simp [hcnt', hlen], hstart'.trans hstart, ?_⟩
    rw [List.length_append, List.length_map, List.length_range', List.range_add, List.map_append,
      ← hos, List.range'_eq_map_range]
  | write mem =>
    obtain ⟨rfl, rfl⟩ := Prod.mk.inj (Option.some.inj hcall)
    obtain ⟨hcnt', hstart'⟩ := write_counters t mem
    rw [List.append_nil]
    exact ⟨hcnt'.trans hlen, hstart'.trans hstart, hos⟩

/-- Without calls of `Write` all addresses returned are still in the queue. -/
theorem run_getFeature (g : Globals) (id : ℕ) (fs : List ℤ) :
    Machine.run (call g) (.init g id) (fs.map .getFeature) =
      some (feed g id fs, (feed g id fs).wq) := by
  induction fs using List.reverseRecOn with
  | nil => rfl
  | append_singleton fs f ih =>
    have happ : feed g id (fs ++ [f]) = (feed g id fs).getFeature g f := by
      simp [feed, List.foldl_append]
    obtain ⟨n, -, -, hwq⟩ := getFeature_pushes g f (feed g id fs)
    rw [List.map_append, Machine.run_append_eq_some, happ]
    refine ⟨_, _, _, ih, rfl, ?_⟩
    rw [hwq, List.drop_left, List.append_nil]

/-! ## Exact addresses -/

/-- The address after `c` others: it lies `c` lines behind `first`, not below it, and above
all addresses before it. -/
structure ExactAt (first : ℕ) (out : List ℕ) (c : ℕ) : Prop where
  exact : out[c]? = some (first + cacheLineByte * c)
  ge : ∀ a, out[c]? = some a → first ≤ a
  increasing : ∀ b < c, ∀ a a', out[b]? = some a → out[c]? = some a' → a < a'

/-- The product is exact for the first `2 ^ 25` counts, and the sum as long as it fits. -/
theorem address_eq_iff (hc : c ≤ 2 ^ 31 - 1) :
    s.address c = s.axwAddrStart + cacheLineByte * c ↔
      c < 2 ^ 25 ∧ s.axwAddrStart + cacheLineByte * c < 2 ^ 64 := by
  unfold address int32 uint64
  rw [Int.bmod_def]
  simp only [cacheLineByte]
  split_ifs <;> omega

/-- In every run of a new unit, whatever is called, the address after `c` others is exact
if and only if `c` is below `2 ^ 25` and the address fits in 64 bits. -/
theorem exactAt_iff (hcnt : s₀.cnt = 0) {calls : List SimdCall}
    (hrun : Machine.run (call g) s₀ calls = some (s, out)) (hc : c < out.length)
    (hint : c ≤ 2 ^ 31 - 1) :
    ExactAt s₀.axwAddrStart out c ↔
      c < 2 ^ 25 ∧ s₀.axwAddrStart + cacheLineByte * c < 2 ^ 64 := by
  obtain ⟨-, hout⟩ := returned_of_run hcnt hrun
  have hget (b : ℕ) (hb : b < out.length) : out[b]? = some (s₀.address b) := by
    rw [hout, List.getElem?_map, List.getElem?_range (by simpa using hb)]
    rfl
  rw [← address_eq_iff (s := s₀) hint]
  constructor
  · intro h
    have hexact := h.exact
    rw [hget c hc] at hexact
    exact Option.some.inj hexact
  · intro heq
    have hfits := (address_eq_iff (s := s₀) hint).mp heq
    refine ⟨by rw [hget c hc, heq], fun a ha => ?_, fun b hb a a' ha ha' => ?_⟩
    · rw [hget c hc, heq] at ha
      rw [← Option.some.inj ha]
      exact Nat.le_add_right _ _
    · simp only [cacheLineByte] at hfits
      have hbefore : s₀.address b = s₀.axwAddrStart + cacheLineByte * b :=
        (address_eq_iff (by omega)).mpr (by simp only [cacheLineByte]; omega)
      rw [hget b (by omega), hbefore] at ha
      rw [hget c hc, heq] at ha'
      rw [← Option.some.inj ha, ← Option.some.inj ha']
      simp only [cacheLineByte]
      omega

/-! ## One line per row -/

/-- The features of three vertices fit in one line each. -/
def oneLine : Input := { Input.threeVertices with xW := 16 }

theorem preprocess_oneLine : ∃ g, preprocess oneLine = some g :=
  preprocess_isSome rfl (by decide) (by decide) size_threeVertices

/-- The units of the input write one line per row end. -/
theorem feed_oneLine (hg : preprocess oneLine = some g) (z : ℕ) :
    (feed g 0 (List.replicate z 0)).wq.length = z := by
  have hgeo := geometry_of_preprocess hg
  have hbf : g.archInfo.bf = 1 := hgeo.bf_eq.trans (ceilDiv_eq (by decide) (by decide))
  have hurb : g.archInfo.urb = 1 := hgeo.urb_eq.trans (ceilDiv_eq (by decide) (by decide))
  have hrows : rowsOf g 0 = 2 := by
    rw [rowsOf, hgeo.rows_eq]
    exact congrArg workRows engineRows_threeVertices.1
  have hwidth (f : ℕ) : width g f = 1 := by
    rw [width, if_neg (by omega), hurb]
    rfl
  have hpos : 0 < rowsOf g 0 := by omega
  obtain ⟨hinv, hlen⟩ := feed_inv hpos (List.replicate z 0)
  rw [hlen, hinv.cnt_eq, pushed]
  simp [hwidth]

theorem exactAt_oneLine : ∃ g, preprocess oneLine = some g ∧
    ExactAt (init g 0).axwAddrStart (feed g 0 [0, 0]).wq 1 := by
  obtain ⟨g, hg⟩ := preprocess_oneLine
  have hlen := feed_oneLine hg 2
  refine ⟨g, hg, (exactAt_iff rfl (run_getFeature g 0 [0, 0]) ?_ (by decide)).mpr
    ⟨by decide, ?_⟩⟩
  · rw [show [(0 : ℤ), 0] = List.replicate 2 0 from rfl, hlen]
    decide
  · have haxw := axw_le_of_size rfl hg size_threeVertices
    have hfolds : oneLine.folds = 1 := ceilDiv_eq (by decide) (by decide)
    have hlines : oneLine.foldLines = 1 := ceilDiv_eq (by decide) (by decide)
    have haH : oneLine.graph.rowPtr.length - 1 = 3 := rfl
    have hn : oneLine.nOfEngine = 2 := rfl
    rw [hfolds, hlines, haH, hn] at haxw
    simp only [init, Nat.mul_zero, Nat.zero_mul, Nat.add_zero]
    simp only [cacheLineByte] at haxw ⊢
    omega

/-- After `2 ^ 25` row ends of one line each, the next address is not the exact one. -/
theorem not_exactAt_manyRows : ∃ g, preprocess oneLine = some g ∧
    (feed g 0 (List.replicate (2 ^ 25 + 1) 0)).cnt ≤ 2 ^ 31 - 1 ∧
      ¬ ExactAt (init g 0).axwAddrStart (feed g 0 (List.replicate (2 ^ 25 + 1) 0)).wq
        (2 ^ 25) := by
  obtain ⟨g, hg⟩ := preprocess_oneLine
  have hlen := feed_oneLine hg (2 ^ 25 + 1)
  have hrun := run_getFeature g 0 (List.replicate (2 ^ 25 + 1) 0)
  refine ⟨g, hg, ?_⟩
  generalize feed g 0 (List.replicate (2 ^ 25 + 1) 0) = s at hlen hrun ⊢
  obtain ⟨hcnt, hout⟩ := returned_of_run rfl hrun
  rw [hlen] at hcnt hout
  refine ⟨by omega, fun h => ?_⟩
  have hexact := h.exact
  rw [hout, List.getElem?_map, List.getElem?_range (by decide)] at hexact
  have hfits := (address_eq_iff (by decide)).mp (Option.some.inj hexact)
  exact absurd hfits.1 (by decide)

end Simd

end Sgcn
