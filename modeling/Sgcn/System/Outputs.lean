-- SUMMARY: Which output lines the engines write in a run, and when no line is written by two of them.
import Sgcn.Partition.Work
import Sgcn.System.Completion

/-!
# Output lines

Every engine writes consecutive lines from a base of its own. The bases are
`ceil(a_h / n_of_engine)` rows apart, but the rows of an engine are dealt out in
chunks and multiplied by tiling: only when an engine has no more rows than that do
its lines end before those of the next engine begin.
-/

namespace Sgcn

variable {inp : Input} {g : Globals} {s s' : Config} {i : ℕ} {pushed : ℕ → List ℕ}

/-! ## Runs with the addresses that were pushed -/

/-- What a step pushed into the write queue of engine `i`. A write leaves the queue
at the other end. -/
def pushedBy (s s' : Config) (i : ℕ) : List ℕ := (s'.ctr.si i).wq.drop (s.ctr.si i).wq.length

/-- A run to `s` in which engine `i` has pushed the addresses `pushed i`. -/
inductive Traced (g : Globals) : Config → (ℕ → List ℕ) → Prop where
  | init : Traced g (.init g) fun _ => []
  | step {s s' : Config} {pushed : ℕ → List ℕ} : Traced g s pushed → Step g s s' →
      Traced g s' fun i => pushed i ++ pushedBy s s' i

theorem Traced.reachable (h : Traced g s pushed) : s.Reachable g := by
  induction h with
  | init => exact .refl
  | step _ hstep ih => exact .tail ih hstep

/-- The addresses due by engine `i`, in order. -/
def outputAddress (g : Globals) (i c : ℕ) : ℕ := (Simd.init g i).address c

/-- A unit that has pushed the first `cnt` of its addresses. -/
structure PushInv (g : Globals) (i : ℕ) (si : Simd) (pushed : List ℕ) : Prop where
  base_eq : si.axwAddrStart = (Simd.init g i).axwAddrStart
  pushed_eq : pushed = (List.range si.cnt).map (outputAddress g i)

/-- A step leaves the SIMD units alone, feeds one of them, or lets one write. -/
theorem step_si (hstep : Step g s s') :
    s'.ctr.si = s.ctr.si ∨
      (∃ j f, s'.ctr.si = Function.update s.ctr.si j ((s.ctr.si j).getFeature g f)) ∨
      ∃ j a rest, (s.ctr.si j).wq = a :: rest ∧
        s'.ctr.si = Function.update s.ctr.si j { s.ctr.si j with wq := rest } := by
  cases hstep with
  | @call j k c c' hcall =>
    by_cases hpass : k = .passFtoSIMD
    · subst hpass
      simp only [Controller.call, Option.some.injEq] at hcall
      subst hcall
      exact .inr (.inl ⟨j, _, rfl⟩)
    · by_cases hwrite : k = .write
      · subst hwrite
        rcases call_write hcall with rfl | ⟨a, rest, hwq, rfl⟩
        · exact .inl rfl
        · exact .inr (.inr ⟨j, a, rest, hwq, rfl⟩)
      · exact .inl (call_si hpass hwrite hcall)
  | _ => exact .inl rfl

theorem pushedBy_of_eq (h : s'.ctr.si i = s.ctr.si i) : pushedBy s s' i = [] := by
  rw [pushedBy, h, List.drop_length]

theorem PushInv.step {p : List ℕ} (h : PushInv g i (s.ctr.si i) p) (hstep : Step g s s') :
    PushInv g i (s'.ctr.si i) (p ++ pushedBy s s' i) := by
  have hkeep : s'.ctr.si i = s.ctr.si i → PushInv g i (s'.ctr.si i) (p ++ pushedBy s s' i) := by
    intro heq
    rw [pushedBy_of_eq heq, List.append_nil, heq]
    exact h
  rcases step_si hstep with heq | ⟨j, f, heq⟩ | ⟨j, a, rest, hwq, heq⟩
  · exact hkeep (by rw [heq])
  · by_cases hi : i = j
    · subst hi
      have hsi : s'.ctr.si i = (s.ctr.si i).getFeature g f := by rw [heq, Function.update_self]
      obtain ⟨n, hcnt, hbase, hwq⟩ := Simd.getFeature_pushes g f (s.ctr.si i)
      have haddr : (s.ctr.si i).address = outputAddress g i := by
        funext c
        simp only [Simd.address, outputAddress, h.base_eq]
      refine ⟨by rw [hsi, hbase, h.base_eq], ?_⟩
      rw [pushedBy, hsi, hwq, hcnt, List.drop_left, h.pushed_eq, haddr, ← List.map_append]
      congr 1
      have hrange := List.range'_append_1 (s := 0) (m := (s.ctr.si i).cnt) (n := n)
      rw [Nat.zero_add] at hrange
      rw [List.range_eq_range', List.range_eq_range', hrange]
    · exact hkeep (by rw [heq, Function.update_of_ne hi])
  · by_cases hi : i = j
    · subst hi
      have hsi : s'.ctr.si i = { s.ctr.si i with wq := rest } := by rw [heq, Function.update_self]
      have hnone : pushedBy s s' i = [] := by
        rw [pushedBy, hsi, hwq]
        simp
      rw [hnone, List.append_nil, hsi]
      exact ⟨h.base_eq, h.pushed_eq⟩
    · exact hkeep (by rw [heq, Function.update_of_ne hi])

theorem pushInv_of_traced (h : Traced g s pushed) (i : ℕ) :
    PushInv g i (s.ctr.si i) (pushed i) := by
  induction h with
  | init => exact ⟨rfl, rfl⟩
  | step _ hstep ih => exact ih.step hstep

/-! ## Blocks -/

/-- The number of rows that the bases of the engines are apart. -/
def rowsApart (g : Globals) : ℕ := ceilDiv g.dataInfo.aH g.archInfo.nOfEngine

theorem base_eq (hp : PreparedXCmp inp g) (i : ℕ) :
    (Simd.init g i).axwAddrStart =
      g.archInfo.axwAddrStart + rowsApart g * i * g.dataInfo.totalUrb * cacheLineByte := by
  simp only [Simd.init, rowsApart, hp.table.totalUrb_eq, mul_assoc]

/-- Without overflow the addresses are consecutive lines. -/
theorem outputAddress_eq {c : ℕ} (hc : c * cacheLineByte < 2 ^ 31)
    (hlt : (Simd.init g i).axwAddrStart + c * cacheLineByte < 2 ^ 64) :
    outputAddress g i c = (Simd.init g i).axwAddrStart + c * cacheLineByte := by
  generalize hbase : (Simd.init g i).axwAddrStart = base at hlt ⊢
  have hint : int32 (c * cacheLineByte) = (c * cacheLineByte : ℕ) := by
    rw [← Nat.cast_mul]
    exact int32_eq (Int.natCast_nonneg _) (by omega)
  have huint : (uint64 (base + (c * cacheLineByte : ℕ)) : ℤ) = base + (c * cacheLineByte : ℕ) :=
    uint64_eq (by omega) (by omega)
  unfold outputAddress Simd.address
  rw [hbase, hint]
  omega

/-- The output lines of the engines are apart: no run pushes an address twice, and the
block of lines of an engine ends at or before that of the next. -/
structure OutputsApart (g : Globals) : Prop where
  once : ∀ s pushed, Traced g s pushed → ∀ i < g.archInfo.nOfEngine, (pushed i).Nodup
  apart : ∀ s pushed, Traced g s pushed → ∀ i < g.archInfo.nOfEngine,
    ∀ j < g.archInfo.nOfEngine, i ≠ j → ∀ a ∈ pushed i, a ∉ pushed j
  blocks : ∀ i, i + 1 < g.archInfo.nOfEngine →
    (Simd.init g i).axwAddrStart +
        (Simd.init g i).nonzeroRow * g.dataInfo.totalUrb * cacheLineByte ≤
      (Simd.init g (i + 1)).axwAddrStart

theorem blocks_iff (hp : PreparedXCmp inp g) (i : ℕ) :
    (Simd.init g i).axwAddrStart +
        (Simd.init g i).nonzeroRow * g.dataInfo.totalUrb * cacheLineByte ≤
      (Simd.init g (i + 1)).axwAddrStart ↔
      g.dataInfo.totalUrb = 0 ∨ Simd.rowsOf g i ≤ rowsApart g := by
  rw [base_eq hp, base_eq hp]
  have hrows : (Simd.init g i).nonzeroRow = Simd.rowsOf g i := rfl
  rw [hrows, Nat.add_assoc, Nat.add_le_add_iff_left, mul_add, mul_one, add_mul, add_mul,
    Nat.add_le_add_iff_left]
  rcases Nat.eq_zero_or_pos g.dataInfo.totalUrb with hzero | hpos
  · simp [hzero]
  · rw [Nat.mul_le_mul_right_iff (by decide), Nat.mul_le_mul_right_iff hpos]
    omega

/-- The lines of engine `i` fit in an `int` product, and its addresses in 64 bits. -/
structure BlockFits (g : Globals) (i : ℕ) : Prop where
  lines : budget g i ≤ 2 ^ 25
  addresses : (Simd.init g i).axwAddrStart + budget g i * cacheLineByte ≤ 2 ^ 64

/-- What engine `i` has pushed are lines of its block. -/
theorem mem_pushed (hp : PreparedXCmp inp g) (hfits : BlockFits g i) (h : Traced g s pushed) :
    ∃ cnt ≤ budget g i,
      pushed i = (List.range cnt).map fun c => (Simd.init g i).axwAddrStart + c * cacheLineByte := by
  obtain ⟨k, out, hengine⟩ := (flow_of_reachable hp h.reachable).1 i
  have hle := hengine.cnt_le hp
  refine ⟨(s.ctr.si i).cnt, hle, ?_⟩
  rw [(pushInv_of_traced h i).pushed_eq]
  refine List.map_congr_left fun c hc => ?_
  have hlt := List.mem_range.mp hc
  have hlines := hfits.lines
  have haddr := hfits.addresses
  simp only [cacheLineByte] at haddr
  exact outputAddress_eq (by simp only [cacheLineByte]; omega) (by simp only [cacheLineByte]; omega)

theorem base_mono (hp : PreparedXCmp inp g) {j : ℕ} (hij : i ≤ j) :
    (Simd.init g i).axwAddrStart ≤ (Simd.init g j).axwAddrStart := by
  rw [base_eq hp, base_eq hp]
  gcongr

theorem outputsApart_of_blocks (hp : PreparedXCmp inp g)
    (hfits : ∀ i < g.archInfo.nOfEngine, BlockFits g i)
    (hblocks : ∀ i, i + 1 < g.archInfo.nOfEngine →
      (Simd.init g i).axwAddrStart +
          (Simd.init g i).nonzeroRow * g.dataInfo.totalUrb * cacheLineByte ≤
        (Simd.init g (i + 1)).axwAddrStart) : OutputsApart g := by
  -- of two engines, the lines of the first end before those of the second begin
  have hapart : ∀ s pushed, Traced g s pushed → ∀ i j, i < j → j < g.archInfo.nOfEngine →
      ∀ a ∈ pushed i, ∀ b ∈ pushed j, a < b := by
    intro s pushed h i j hij hj a ha b hb
    obtain ⟨n, hn, heq⟩ := mem_pushed hp (hfits i (hij.trans hj)) h
    obtain ⟨m, -, heq'⟩ := mem_pushed hp (hfits j hj) h
    rw [heq] at ha
    rw [heq'] at hb
    obtain ⟨c, hc, rfl⟩ := List.mem_map.mp ha
    obtain ⟨d, -, rfl⟩ := List.mem_map.mp hb
    have hlt := List.mem_range.mp hc
    have hend := hblocks i (by omega)
    have hmono := base_mono hp (show i + 1 ≤ j from hij)
    have hbudget : (Simd.init g i).nonzeroRow * g.dataInfo.totalUrb = budget g i := rfl
    rw [hbudget] at hend
    simp only [cacheLineByte] at hend ⊢
    omega
  refine ⟨fun s pushed h i hi => ?_, fun s pushed h i hi j hj hne a ha hb => ?_, hblocks⟩
  · obtain ⟨n, -, heq⟩ := mem_pushed hp (hfits i hi) h
    rw [heq]
    refine List.nodup_range.map fun c d hcd => ?_
    simp only [cacheLineByte] at hcd
    omega
  · rcases Nat.lt_or_gt_of_ne hne with hij | hji
    · exact lt_irrefl a (hapart s pushed h i j hij hj a ha a hb)
    · exact lt_irrefl a (hapart s pushed h j i hji hi a hb a ha)

/-- As long as no product overflows, the output lines of the engines are apart exactly
when no engine but the last has more rows with edges than the bases are apart. -/
theorem outputsApart_iff (inp : Input) (g : Globals) (hmode : inp.mode = .xCmp)
    (hunit : 1 ≤ inp.xUnit) (hn : 1 ≤ inp.nOfEngine) (hg : preprocess inp = some g)
    (hlines : ∀ i < inp.nOfEngine, workRows (inp.engineRows i) * inp.rowLines ≤ 2 ^ 25)
    (haddresses : ∀ i < inp.nOfEngine, g.archInfo.axwAddrStart +
      (ceilDiv inp.aH inp.nOfEngine * i + workRows (inp.engineRows i)) * inp.rowLines *
        cacheLineByte ≤ 2 ^ 64) :
    OutputsApart g ↔ ∀ i, i + 1 < inp.nOfEngine →
      inp.rowLines = 0 ∨ workRows (inp.engineRows i) ≤ ceilDiv inp.aH inp.nOfEngine := by
  have hp := preparedXCmp_of_preprocess hmode hunit hn hg
  have hgeo := geometry_of_preprocess hg
  have hrows : ∀ i, Simd.rowsOf g i = workRows (inp.engineRows i) := hgeo.rows_eq
  rw [← hp.nOfEngine_eq] at hlines haddresses ⊢
  have hapart : rowsApart g = ceilDiv inp.aH g.archInfo.nOfEngine := by
    rw [rowsApart, hp.aH_eq]
    rfl
  have hiff := blocks_iff hp
  simp only [hrows, hapart, hgeo.totalUrb_eq] at hiff
  constructor
  · intro h i hi
    have hblock := h.blocks i hi
    rw [hgeo.totalUrb_eq] at hblock
    exact (hiff i).mp hblock
  · intro h
    refine outputsApart_of_blocks hp (fun i hi => ⟨?_, ?_⟩) fun i hi => ?_
    · rw [budget, hrows, hgeo.totalUrb_eq]
      exact hlines i hi
    · have hend := haddresses i hi
      rw [base_eq hp, budget, hrows, hapart, hgeo.totalUrb_eq, Nat.add_assoc, ← add_mul, ← add_mul]
      exact hend
    · rw [hgeo.totalUrb_eq]
      exact (hiff i).mpr (h i hi)

/-- The small graph on two engines: the bases are two rows apart, and either engine
has one row with edges. -/
theorem outputsApart_twoEngines : ∃ g, preprocess twoEngines = some g ∧ OutputsApart g := by
  obtain ⟨g, hg⟩ := preprocess_twoEngines
  have hwork := fun i hi => (twoEngines_rows i hi).2.2.2
  have hapart : ceilDiv twoEngines.aH twoEngines.nOfEngine = 2 := ceilDiv_eq (by decide) (by decide)
  refine ⟨g, hg, (outputsApart_iff twoEngines g rfl (by decide) (by decide) hg ?_ ?_).mpr ?_⟩
  · intro i hi
    rw [hwork i hi, rowLines_twoEngines]
    decide
  · intro i hi
    have haxw := axw_le_of_size rfl hg fun i hi =>
      ⟨(twoEngines_rows i hi).2.1, (twoEngines_rows i hi).2.2.1⟩
    have hfolds : twoEngines.folds = 2 := ceilDiv_eq (by decide) (by decide)
    have hlines : twoEngines.foldLines = 1 := ceilDiv_eq (by decide) (by decide)
    have haH : twoEngines.graph.rowPtr.length - 1 = 3 := rfl
    have hn : twoEngines.nOfEngine = 2 := rfl
    rw [hfolds, hlines, haH, hn] at haxw
    have hi' : i < 2 := hi
    rw [hwork i hi, rowLines_twoEngines, hapart]
    simp only [cacheLineByte] at haxw ⊢
    omega
  · intro i hi
    rw [hwork i (by omega), hapart]
    exact .inr (by decide)

/-- Four vertices with a loop each, three of them in the first chunk. -/
def fourLoops : Input :=
  { Input.threeVertices with
    graph := ⟨[0, 1, 2, 3, 4], [0, 1, 2, 3], ⟨rfl, by decide, rfl⟩, by decide⟩
    lacWidth := 3
    xW := 16 }

/-- The first engine has three rows, but the bases are two rows apart: its last line is
the first line of the second engine. -/
theorem not_outputsApart_fourLoops :
    ∃ g, preprocess fourLoops = some g ∧ ¬ OutputsApart g ∧
      (Simd.init g 0).axwAddrStart + 2 * cacheLineByte = (Simd.init g 1).axwAddrStart := by
  have hrows : fourLoops.engineRows 0 = [[0], [1], [2]] ∧ fourLoops.engineRows 1 = [[3]] :=
    ⟨rfl, rfl⟩
  obtain ⟨g, hg⟩ : ∃ g, preprocess fourLoops = some g := by
    refine preprocess_isSome rfl (by decide) (by decide) fun i hi => ?_
    have hcases : i = 0 ∨ i = 1 := by
      have : i < 2 := hi
      omega
    rcases hcases with rfl | rfl
    · rw [hrows.1]
      decide
    · rw [hrows.2]
      decide
  have hp := preparedXCmp_of_preprocess rfl (by decide) (by decide) hg
  have hapart : rowsApart g = 2 := by
    rw [rowsApart, hp.aH_eq, hp.nOfEngine_eq]
    exact ceilDiv_eq (by decide) (by decide)
  have htotal : g.dataInfo.totalUrb = 1 := by
    have hbf : g.archInfo.bf = 1 := hp.bf_eq.trans (ceilDiv_eq (by decide) (by decide))
    have hurb : g.archInfo.urb = 1 := hp.urb_eq.trans (ceilDiv_eq (by decide) (by decide))
    rw [hp.table.totalUrb_eq, hbf, hurb]
  have hwork : Simd.rowsOf g 0 = 3 := by
    rw [Simd.rowsOf, hp.workRows_eq, hrows.1]
    rfl
  refine ⟨g, hg, fun h => ?_, ?_⟩
  · have hn : 0 + 1 < g.archInfo.nOfEngine := by
      rw [hp.nOfEngine_eq]
      decide
    have hblock := (blocks_iff hp 0).mp (h.blocks 0 hn)
    rw [htotal, hwork, hapart] at hblock
    omega
  · rw [base_eq hp, base_eq hp, hapart, htotal]
    simp

end Sgcn
