-- SUMMARY: Vertex tiling: every engine ends with the CSR of its rows, split by column and grouped by tile.
import Sgcn.Partition.Lac

/-!
# Tiling

`Tiling` splits every row of an engine by the tile its columns lie in, and lists
the pieces tile by tile. Together with `LAC` this gives every engine the CSR of
`engineRows`.
-/

namespace Sgcn

variable {k : ℕ}

/-! ## One row -/

theorem tileUnits_findIdx? (nTiles t : ℕ) :
    ((tileUnits nTiles).findIdx? fun u => decide (t < u)) = if t < nTiles then some t else none := by
  induction nTiles with
  | zero => simp [tileUnits]
  | succ n ih =>
    have happ : tileUnits (n + 1) = tileUnits n ++ [n + 1] := by
      simp [tileUnits, List.range_succ]
    rw [happ, List.findIdx?_append, ih]
    rcases Nat.lt_trichotomy t n with hlt | rfl | hgt
    · simp [hlt, Nat.lt_succ_of_lt hlt]
    · simp [tileUnits, List.findIdx?_cons]
    · simp [hgt.not_gt, (Nat.succ_le_of_lt hgt).not_gt, List.findIdx?_cons]

/-- The part of a row that lies in tile `k`. -/
def tilePart (unitV k : ℕ) (row : List ℕ) : List ℕ := row.filter fun c => c / unitV = k

/-- The edge loop appends to every tile its part of the row. -/
theorem tileEdges_foldl {nTiles unitV : ℕ} (row : List ℕ) (s : TileEdges) (hk : k < nTiles) :
    (row.foldl (TileEdges.step (tileUnits nTiles) unitV) s).edgeAcm k =
        s.edgeAcm k + (tilePart unitV k row).length ∧
      (row.foldl (TileEdges.step (tileUnits nTiles) unitV) s).eList k =
        s.eList k ++ tilePart unitV k row := by
  induction row generalizing s with
  | nil => simp [tilePart]
  | cons c row ih =>
    rw [List.foldl_cons]
    obtain ⟨hacm, hlist⟩ := ih (s.step (tileUnits nTiles) unitV c)
    rw [hacm, hlist]
    unfold TileEdges.step
    rw [tileUnits_findIdx?]
    by_cases hc : c / unitV = k
    · subst hc
      simp [hk, tilePart]
      omega
    · have hne : k ≠ c / unitV := Ne.symm hc
      by_cases hlt : c / unitV < nTiles
      · simp [hlt, Function.update_of_ne hne, tilePart, hc]
      · simp [hlt, tilePart, hc]

/-! ## All rows -/

/-- The rows of tile `k`. -/
def tileRows (unitV k : ℕ) (rows : List (List ℕ)) : List (List ℕ) := rows.map (tilePart unitV k)

/-- What the row loop has built: per tile the row lengths and the columns. -/
def TileState.Built (nTiles unitV : ℕ) (rows : List (List ℕ)) (s : TileState) : Prop :=
  ∀ k < nTiles, s.vList k = (tileRows unitV k rows).map List.length ∧
    s.eList k = (tileRows unitV k rows).flatten

theorem tileLoop_built (nTiles unitV : ℕ) (rows : List (List ℕ)) :
    (tileLoop (rowPtrOf rows) rows.flatten (tileUnits nTiles) unitV).Built nTiles unitV rows := by
  -- by induction on the number of rows read
  have key : ∀ m ≤ rows.length,
      ((List.range m).foldl (TileState.step (rowPtrOf rows) rows.flatten (tileUnits nTiles) unitV)
        ⟨fun _ => [], fun _ => []⟩).Built nTiles unitV (rows.take m) := by
    intro m
    induction m with
    | zero => intro _ k _; simp [tileRows]
    | succ m ih =>
      intro hm k hk
      obtain ⟨hv, he⟩ := ih (by omega) k hk
      rw [List.range_succ, List.foldl_append, List.foldl_cons, List.foldl_nil,
        List.take_succ_eq_append_getElem (by omega)]
      simp only [TileState.step, slice_flatten (show m < rows.length by omega)]
      rw [(tileEdges_foldl _ _ hk).1, (tileEdges_foldl _ _ hk).2, hv]
      simp only [he, tileRows, List.map_append, List.map_singleton, List.flatten_append,
        List.flatten_singleton, Nat.zero_add, and_self]
  have hfull := key rows.length le_rfl
  rw [List.take_length] at hfull
  unfold tileLoop
  rw [length_rowPtrOf, Nat.add_sub_cancel]
  exact hfull

theorem accumulate_map_length (rows : List (List ℕ)) :
    accumulate (rows.map List.length) = (rows.flatten.length, rowPtrOf rows) := by
  induction rows using List.reverseRecOn with
  | nil => rfl
  | append_singleton rows row ih =>
    unfold accumulate at ih ⊢
    rw [List.map_append, List.foldl_append, ih, rowPtrOf_concat]
    simp

theorem tileCsr_rowPtrOf (nTiles unitV : ℕ) (rows : List (List ℕ)) :
    tileCsr nTiles unitV (rowPtrOf rows) rows.flatten =
      (rowPtrOf ((List.range nTiles).flatMap fun k => tileRows unitV k rows),
        ((List.range nTiles).flatMap fun k => tileRows unitV k rows).flatten) := by
  have hbuilt := tileLoop_built nTiles unitV rows
  unfold tileCsr
  simp only [Prod.mk.injEq]
  constructor
  · have hv : (List.range nTiles).flatMap
        (tileLoop (rowPtrOf rows) rows.flatten (tileUnits nTiles) unitV).vList =
        ((List.range nTiles).flatMap fun k => tileRows unitV k rows).map List.length := by
      rw [List.map_flatMap]
      exact List.flatMap_congr fun k hk => (hbuilt k (List.mem_range.mp hk)).1
    rw [hv, accumulate_map_length]
  · have hflat : ((List.range nTiles).flatMap fun k => tileRows unitV k rows).flatten =
        (List.range nTiles).flatMap fun k => (tileRows unitV k rows).flatten := by
      simp only [List.flatMap_def, List.flatten_flatten, List.map_map]
      rfl
    rw [hflat]
    exact List.flatMap_congr fun k hk => (hbuilt k (List.mem_range.mp hk)).2

/-! ## The split -/

/-- The columns of tile `t` when `u` columns make a tile. -/
def tileCols (u t : ℕ) (row : List ℕ) : List ℕ := row.filter fun c => t * u ≤ c ∧ c < (t + 1) * u

/-- The CSR `rowPtr'`, `colIdx'` lists the rows of `rowPtr`, `colIdx` once per tile,
each time with the columns of that tile. -/
structure TileSplit (nTiles u : ℕ) (rowPtr colIdx rowPtr' colIdx' : List ℕ) : Prop where
  valid : ValidCsr rowPtr' colIdx'
  length : rowPtr'.length - 1 = nTiles * (rowPtr.length - 1)
  /-- Row `t * R + r` is the part of row `r` in tile `t`, in its order. -/
  rows : ∀ t < nTiles, ∀ r < rowPtr.length - 1,
    (csrRows rowPtr' colIdx')[t * (rowPtr.length - 1) + r]? =
      (csrRows rowPtr colIdx)[r]?.map (tileCols u t)
  /-- The parts of a row are the row, up to order. -/
  row_perm : ∀ r < rowPtr.length - 1,
    ((List.range nTiles).flatMap fun t =>
      (csrRows rowPtr' colIdx').getD (t * (rowPtr.length - 1) + r) []).Perm
        ((csrRows rowPtr colIdx).getD r [])
  /-- No edge is lost or duplicated. -/
  edges_perm : colIdx'.Perm colIdx

section Split

variable {u nTiles : ℕ} {row : List ℕ} {rows : List (List ℕ)}

/-- Dividing by the unit and comparing with its multiples is the same. -/
theorem tilePart_eq_tileCols (hu : 0 < u ∨ row = []) (t : ℕ) :
    tilePart u t row = tileCols u t row := by
  rcases hu with hu | rfl
  · refine List.filter_congr fun c _ => ?_
    rw [decide_eq_decide, Nat.div_eq_iff hu, Nat.add_mul, Nat.one_mul]
    omega
  · rfl

/-- Every column lies in one of the tiles. -/
theorem flatMap_tilePart_perm (h : ∀ c ∈ row, c / u < nTiles) :
    ((List.range nTiles).flatMap fun t => tilePart u t row).Perm row :=
  Dealing.flatMap_part_perm h

theorem flatten_tileRows (u t : ℕ) (rows : List (List ℕ)) :
    (tileRows u t rows).flatten = tilePart u t rows.flatten := by
  rw [tileRows, tilePart, List.filter_flatten]
  rfl

theorem tileCsr_split (rows : List (List ℕ)) (hu : 0 < u ∨ rows.flatten = [])
    (h : ∀ c ∈ rows.flatten, c / u < nTiles) :
    TileSplit nTiles u (rowPtrOf rows) rows.flatten
      (tileCsr nTiles u (rowPtrOf rows) rows.flatten).1
      (tileCsr nTiles u (rowPtrOf rows) rows.flatten).2 := by
  have hlen : ∀ t < nTiles, (tileRows u t rows).length = rows.length := by simp [tileRows]
  have hget (t : ℕ) (ht : t < nTiles) (r : ℕ) (hr : r < rows.length) :
      ((List.range nTiles).flatMap fun k => tileRows u k rows)[t * rows.length + r]? =
        rows[r]?.map (tilePart u t) := by
    rw [Rounds.getElem?_flatMap_range hlen ht hr, tileRows, List.getElem?_map]
  rw [tileCsr_rowPtrOf]
  refine ⟨validCsr_rowPtrOf _, ?_, ?_, ?_, ?_⟩
  · simp only [length_rowPtrOf, Nat.add_sub_cancel]
    exact Rounds.length_flatMap_range hlen
  · intro t ht r hr
    simp only [length_rowPtrOf, Nat.add_sub_cancel] at hr ⊢
    rw [csrRows_rowPtrOf, csrRows_rowPtrOf, hget t ht r hr, List.getElem?_eq_getElem hr,
      Option.map_some, Option.map_some, tilePart_eq_tileCols]
    refine hu.imp_right fun hnil => ?_
    exact List.flatten_eq_nil_iff.mp hnil _ (List.getElem_mem hr)
  · intro r hr
    simp only [length_rowPtrOf, Nat.add_sub_cancel] at hr ⊢
    rw [csrRows_rowPtrOf, csrRows_rowPtrOf]
    have hparts : (List.range nTiles).flatMap (fun t =>
        ((List.range nTiles).flatMap fun k => tileRows u k rows).getD (t * rows.length + r) []) =
          (List.range nTiles).flatMap fun t => tilePart u t rows[r] := by
      refine List.flatMap_congr fun t ht => ?_
      rw [List.getD_eq_getElem?_getD, hget t (List.mem_range.mp ht) r hr,
        List.getElem?_eq_getElem hr]
      rfl
    rw [hparts, List.getD_eq_getElem?_getD, List.getElem?_eq_getElem hr, Option.getD_some]
    exact flatMap_tilePart_perm fun c hc => h c (List.mem_flatten_of_mem (List.getElem_mem hr) hc)
  · have hflat : ((List.range nTiles).flatMap fun k => tileRows u k rows).flatten =
        (List.range nTiles).flatMap fun k => tilePart u k rows.flatten := by
      simp only [List.flatMap_def, List.flatten_flatten, List.map_map, Function.comp_def,
        flatten_tileRows]
    simp only
    rw [hflat]
    exact flatMap_tilePart_perm h

/-- The zero count of a valid CSR counts its empty rows. -/
theorem ValidCsr.zeroRows_eq {rowPtr colIdx : List ℕ} (h : ValidCsr rowPtr colIdx) :
    zeroRows rowPtr = (csrRows rowPtr colIdx).countP List.isEmpty := by
  conv_lhs => rw [← h.rowPtrOf_csrRows]
  exact zeroRows_rowPtrOf _

/-- A tile is wide enough for all columns to lie in a tile. -/
theorem div_lt_of_lt_ceil {a c : ℕ} (hn : 0 < nTiles) (hc : c < a) :
    c / ((a + nTiles - 1) / nTiles) < nTiles := by
  have hmod := Nat.mod_lt (a + nTiles - 1) hn
  have hdiv := Nat.div_add_mod (a + nTiles - 1) nTiles
  refine Nat.div_lt_of_lt_mul ?_
  rw [Nat.mul_comm]
  omega

/-- What `Tiling` stores for engine `e`. -/
theorem tiling_engine {g : Globals} (htiles : 1 < g.dataInfo.nTiles) (e : ℕ) :
    ((tiling g).rowPtr e, (tiling g).colIdx e) =
        tileCsr g.dataInfo.nTiles (ceilDiv g.dataInfo.aW g.dataInfo.nTiles)
          (g.rowPtr e) (g.colIdx e) ∧
      (tiling g).dataIndex e =
        (g.dataIndex e).setRows ((tiling g).rowPtr e) g.dataInfo.totalUrb := by
  simp [tiling, htiles]

/-- `Tiling` is a stable, lossless split of every engine's rows, and its record
counts the rows and the empty ones. -/
theorem tiling_split (g : Globals) (htiles : 1 < g.dataInfo.nTiles)
    (hsize : g.dataInfo.aW ≤ 2 ^ 24) (e : ℕ) (hv : ValidCsr (g.rowPtr e) (g.colIdx e))
    (hcol : ∀ c ∈ g.colIdx e, c < g.dataInfo.aW) :
    TileSplit g.dataInfo.nTiles ((g.dataInfo.aW + g.dataInfo.nTiles - 1) / g.dataInfo.nTiles)
        (g.rowPtr e) (g.colIdx e) ((tiling g).rowPtr e) ((tiling g).colIdx e) ∧
      ((tiling g).dataIndex e).row = (csrRows ((tiling g).rowPtr e) ((tiling g).colIdx e)).length ∧
      ((tiling g).dataIndex e).zeroRow =
        (csrRows ((tiling g).rowPtr e) ((tiling g).colIdx e)).countP List.isEmpty := by
  have hpos : 0 < g.dataInfo.nTiles := by omega
  obtain ⟨hcsr, hindex⟩ := tiling_engine htiles e
  rw [ceilDiv_eq hsize hpos] at hcsr
  have hu : 0 < (g.dataInfo.aW + g.dataInfo.nTiles - 1) / g.dataInfo.nTiles ∨ g.colIdx e = [] := by
    rcases (g.colIdx e).eq_nil_or_concat with hnil | ⟨l, c, hc⟩
    · exact .inr hnil
    · have hlt := hcol c (by simp [hc])
      exact .inl (Nat.div_pos (by omega) hpos)
  have hsplit := tileCsr_split (csrRows (g.rowPtr e) (g.colIdx e))
    (by rwa [hv.flatten_csrRows])
    (by rw [hv.flatten_csrRows]; exact fun c hc => div_lt_of_lt_ceil hpos (hcol c hc))
  rw [hv.rowPtrOf_csrRows, hv.flatten_csrRows, ← hcsr] at hsplit
  refine ⟨hsplit, ?_, ?_⟩
  · rw [hindex]
    simp [DataIndex.setRows, csrRows]
  · rw [hindex]
    exact hsplit.valid.zeroRows_eq

theorem tiling_split_threeVertices :
    let g := readData { Input.threeVertices with nTiles := 2 }
    TileSplit 2 2 [0, 2, 2, 3] [1, 2, 0] ((tiling g).rowPtr 0) ((tiling g).colIdx 0) ∧
      ((tiling g).dataIndex 0).row = (csrRows ((tiling g).rowPtr 0) ((tiling g).colIdx 0)).length ∧
      ((tiling g).dataIndex 0).zeroRow =
        (csrRows ((tiling g).rowPtr 0) ((tiling g).colIdx 0)).countP List.isEmpty :=
  tiling_split (readData { Input.threeVertices with nTiles := 2 }) (by decide) (by decide) 0
    Graph.threeVertices.valid Graph.threeVertices.col_lt

end Split

/-! ## The rows of an engine -/

/-- The unit that separates the tiles. -/
def Input.unitV (inp : Input) : ℕ := ceilDiv (inp.graph.rowPtr.length - 1) inp.nTiles

/-- The rows an engine works on. -/
def Input.engineRows (inp : Input) (e : ℕ) : List (List ℕ) :=
  if 1 < inp.nTiles then
    (List.range inp.nTiles).flatMap fun k => tileRows inp.unitV k (inp.lacRows e)
  else inp.lacRows e

/-- Every engine holds the CSR of its rows, and its record counts them. -/
theorem distribute_engine (inp : Input) (e : ℕ) :
    (distribute inp).rowPtr e = rowPtrOf (inp.engineRows e) ∧
      (distribute inp).colIdx e = (inp.engineRows e).flatten ∧
      (distribute inp).dataIndex e =
        DataIndex.setRows {} (rowPtrOf (inp.engineRows e)) (ceilDiv inp.xW cacheLineCount) := by
  obtain ⟨hptr, hcol⟩ := lac_readData inp e
  have hindex : (lac (readData inp)).dataIndex e = DataIndex.setRows {}
      ((lac (readData inp)).rowPtr e) (ceilDiv inp.xW cacheLineCount) := rfl
  unfold distribute tiling Input.engineRows
  by_cases htiles : 1 < inp.nTiles
  · have hcond : 1 < (lac (readData inp)).dataInfo.nTiles := htiles
    simp only [if_pos hcond, if_pos htiles]
    have hcsr : tileCsr (lac (readData inp)).dataInfo.nTiles
        (ceilDiv (lac (readData inp)).dataInfo.aW (lac (readData inp)).dataInfo.nTiles)
        ((lac (readData inp)).rowPtr e) ((lac (readData inp)).colIdx e) =
          tileCsr inp.nTiles inp.unitV (rowPtrOf (inp.lacRows e)) (inp.lacRows e).flatten := by
      rw [hptr, hcol]
      rfl
    rw [tileCsr_rowPtrOf] at hcsr
    rw [hcsr]
    exact ⟨rfl, rfl, by rw [hindex]; rfl⟩
  · have hcond : ¬ 1 < (lac (readData inp)).dataInfo.nTiles := htiles
    simp only [if_neg hcond, if_neg htiles]
    exact ⟨hptr, hcol, by rw [hindex, hptr]⟩

/-- Distribution and tiling leave the geometry alone. -/
theorem distribute_info (inp : Input) :
    (distribute inp).dataInfo = (readData inp).dataInfo ∧
      (distribute inp).archInfo =
        { (readData inp).archInfo with lacWidth := effLacWidth (readData inp) } := by
  unfold distribute tiling
  split <;> exact ⟨rfl, rfl⟩

end Sgcn
