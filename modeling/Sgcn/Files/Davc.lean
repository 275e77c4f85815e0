-- SUMMARY: From the edges to the cached vertices: `davc_maker.py` writes, and `ReadDAVC` reads, the destinations of every tile with the most incoming edges.
import Sgcn.Base.Blocks
import Sgcn.Base.Ranking
import Sgcn.Files.Data
import Sgcn.Model.Scripts

/-!
# The cached vertices

`davc_maker.py` divides the vertices into `t` tiles of almost the same size and takes the
first `s * 1024` destinations of every tile, those with more incoming edges first and, with as
many, the one that occurs first in the edge list. `ReadDAVC` reads back what it writes.
-/

namespace Sgcn

open Text

/-! ## The destinations -/

/-- The destinations, one for every edge. -/
def destinations (edges : List (ℕ × ℕ)) : List ℕ := edges.map Prod.snd

/-- The place of the first edge into `v`. -/
def firstEdge (edges : List (ℕ × ℕ)) (v : ℕ) : ℕ := (destinations edges).idxOf v

/-- The sources of the edges into `v`, in order. -/
def sources (edges : List (ℕ × ℕ)) (v : ℕ) : List ℕ :=
  (edges.filter fun e => e.2 = v).map Prod.fst

/-- The number of edges into `v`. -/
def inDegree (edges : List (ℕ × ℕ)) (v : ℕ) : ℕ := edges.countP fun e => e.2 = v

variable {edges : List (ℕ × ℕ)} {s t : ℕ}

theorem length_sources (v : ℕ) : (sources edges v).length = inDegree edges v := by
  rw [sources, List.length_map, inDegree, List.countP_eq_length_filter]

theorem destinations_concat (e : ℕ × ℕ) :
    destinations (edges ++ [e]) = destinations edges ++ [e.2] := by
  rw [destinations, destinations, List.map_append, List.map_singleton]

theorem sources_concat (e : ℕ × ℕ) (v : ℕ) :
    sources (edges ++ [e]) v = if e.2 = v then sources edges v ++ [e.1] else sources edges v := by
  unfold sources
  split <;> simp [*]

theorem firstEdge_concat {v : ℕ} (h : v ∈ destinations edges) (e : ℕ × ℕ) :
    firstEdge (edges ++ [e]) v = firstEdge edges v := by
  rw [firstEdge, destinations_concat, List.idxOf_append_of_mem h, firstEdge]

theorem firstEdge_lt {v : ℕ} (h : v ∈ destinations edges) : firstEdge edges v < edges.length := by
  have hlt := List.idxOf_lt_length_of_mem h
  rwa [destinations, List.length_map] at hlt

theorem firstEdge_concat_self {e : ℕ × ℕ} (h : e.2 ∉ destinations edges) :
    firstEdge (edges ++ [e]) e.2 = edges.length := by
  rw [firstEdge, destinations_concat, List.idxOf_append_of_notMem h, List.idxOf_cons_self,
    destinations, List.length_map, Nat.add_zero]

/-- The keys of the dictionary: every destination once, in the order in which they occur. -/
def keys (edges : List (ℕ × ℕ)) : List ℕ :=
  edges.foldl (fun ks e => if e.2 ∈ ks then ks else ks ++ [e.2]) []

theorem keys_concat (e : ℕ × ℕ) :
    keys (edges ++ [e]) = if e.2 ∈ keys edges then keys edges else keys edges ++ [e.2] := by
  rw [keys, List.foldl_append]
  rfl

theorem mem_keys {v : ℕ} : v ∈ keys edges ↔ v ∈ destinations edges := by
  induction edges using List.reverseRecOn with
  | nil => rfl
  | append_singleton edges e ih =>
    rw [keys_concat, destinations_concat, List.mem_append, List.mem_singleton]
    split
    · next hknown =>
      constructor
      · intro hv
        exact .inl (ih.mp hv)
      · rintro (hv | rfl)
        · exact ih.mpr hv
        · exact hknown
    · rw [List.mem_append, List.mem_singleton, ih]

theorem pairwise_keys : (keys edges).Pairwise fun v w => firstEdge edges v < firstEdge edges w := by
  induction edges using List.reverseRecOn with
  | nil => exact List.Pairwise.nil
  | append_singleton edges e ih =>
    have hkept : (keys edges).Pairwise fun v w =>
        firstEdge (edges ++ [e]) v < firstEdge (edges ++ [e]) w := by
      refine ih.imp_of_mem fun {v w} hv hw hlt => ?_
      rw [firstEdge_concat (mem_keys.mp hv), firstEdge_concat (mem_keys.mp hw)]
      exact hlt
    rw [keys_concat]
    split
    · exact hkept
    · next hnew =>
      refine List.pairwise_append.mpr ⟨hkept, List.pairwise_singleton _ _, fun v hv w hw => ?_⟩
      rw [List.mem_singleton.mp hw, firstEdge_concat (mem_keys.mp hv),
        firstEdge_concat_self (mt mem_keys.mpr hnew)]
      exact firstEdge_lt (mem_keys.mp hv)

theorem nodup_keys : (keys edges).Nodup :=
  pairwise_keys.imp fun {v w} hlt heq => by simp [heq] at hlt

/-- The dictionary holds all sources of every destination. -/
theorem totGDict_eq : totGDict edges = (keys edges).map fun v => (v, sources edges v) := by
  induction edges using List.reverseRecOn with
  | nil => rfl
  | append_singleton edges e ih =>
    have hstep : totGDict (edges ++ [e]) = (totGDict edges).addEdge e.1 e.2 := by
      rw [totGDict, List.foldl_append]
      rfl
    have hany : ((keys edges).map fun v => (v, sources edges v)).any (fun p => p.1 = e.2) =
        decide (e.2 ∈ keys edges) := by
      rw [Bool.eq_iff_iff]
      simp
    rw [hstep, ih, GDict.addEdge, hany, keys_concat]
    by_cases hknown : e.2 ∈ keys edges
    · rw [if_pos (decide_eq_true hknown), if_pos hknown, List.map_map]
      refine List.map_congr_left fun v _ => ?_
      rw [Function.comp_apply, sources_concat]
      by_cases heq : v = e.2
      · rw [if_pos heq, if_pos heq.symm]
      · rw [if_neg heq, if_neg (Ne.symm heq)]
    · have hnil : sources edges e.2 = [] := by
        rw [sources, List.map_eq_nil_iff, List.filter_eq_nil_iff]
        intro e' he' heq
        exact hknown (mem_keys.mpr (List.mem_map.mpr ⟨e', he', of_decide_eq_true heq⟩))
      rw [if_neg (by simpa using hknown), if_neg hknown, List.map_append, List.map_singleton,
        sources_concat, if_pos rfl, hnil, List.nil_append]
      congr 1
      refine List.map_congr_left fun v hv => ?_
      rw [sources_concat, if_neg fun heq : e.2 = v => hknown (heq ▸ hv)]

/-! ## The tiles -/

theorem maxIdx_concat (e : ℕ × ℕ) :
    maxIdx (edges ++ [e]) = max (max (maxIdx edges - 1) e.1) e.2 + 1 := by
  rw [maxIdx, List.foldl_append]
  simp only [List.foldl_cons, List.foldl_nil, maxIdx, Nat.add_sub_cancel]
  grind

/-- Every destination is below `max_idx`. -/
theorem lt_maxIdx {v : ℕ} (hv : v ∈ destinations edges) : v < maxIdx edges := by
  induction edges using List.reverseRecOn with
  | nil => cases hv
  | append_singleton edges e ih =>
    rw [destinations_concat, List.mem_append, List.mem_singleton] at hv
    rw [maxIdx_concat]
    rcases hv with hv | rfl
    · have hlt := ih hv
      omega
    · omega

theorem maxIdx_le {n : ℕ} (hn : 0 < n) (h : ∀ e ∈ edges, e.1 < n ∧ e.2 < n) :
    maxIdx edges ≤ n := by
  induction edges using List.reverseRecOn with
  | nil => exact hn
  | append_singleton edges e ih =>
    have hle := ih fun e' he' => h e' (List.mem_append_left [e] he')
    have he := h e (List.mem_append_right edges List.mem_cons_self)
    rw [maxIdx_concat]
    omega

/-- The first index of tile `k` of `t` tiles of `n` vertices. -/
def tileStart (n t k : ℕ) : ℕ := k * (n / t) + min k (n % t)

/-- Vertex `v` lies in tile `k`. -/
def InTile (n t k v : ℕ) : Prop := tileStart n t k ≤ v ∧ v < tileStart n t (k + 1)

instance (n t k v : ℕ) : Decidable (InTile n t k v) := inferInstanceAs (Decidable (_ ∧ _))

/-- The size of tile `k`. -/
def tileSize (n t k : ℕ) : ℕ := n / t + if k < n % t then 1 else 0

theorem start_tileSize (n t k : ℕ) : Blocks.start (tileSize n t) k = tileStart n t k := by
  induction k with
  | zero => simp [tileStart]
  | succ k ih =>
    rw [Blocks.start_succ, ih, tileStart, tileStart, tileSize, Nat.succ_mul]
    split <;> omega

theorem tileStart_self (n : ℕ) {t : ℕ} (ht : 0 < t) : tileStart n t t = n := by
  rw [tileStart, Nat.min_eq_right (Nat.mod_lt n ht).le]
  exact Nat.div_add_mod n t

theorem foldl_modify_succ (q t r : ℕ) (hr : r ≤ t) :
    (List.range r).foldl (fun l i => l.modify i (· + 1)) (List.replicate t q) =
      (List.range t).map fun i => q + if i < r then 1 else 0 := by
  induction r with
  | zero => simp
  | succ r ih =>
    rw [List.range_succ, List.foldl_append, ih (by omega)]
    refine List.ext_getElem (by simp) fun i hi hi' => ?_
    simp only [List.foldl_cons, List.foldl_nil, List.getElem_modify, List.getElem_map,
      List.getElem_range]
    grind

theorem vtSizes_eq {n t : ℕ} (hn : n < 2 ^ 53) (ht : 0 < t) :
    vtSizes n t = (List.range t).map (tileSize n t) := by
  rw [vtSizes, Fp.div, Fp.floor_round_div (by decide) hn,
    foldl_modify_succ _ _ _ (Nat.mod_lt n ht).le]
  rfl

theorem foldl_accumulate (size : ℕ → ℕ) (t m : ℕ) (hm : m < t) :
    (List.range' 1 m).foldl (fun l i => l.modify i (· + l.getD (i - 1) 0))
        ((List.range t).map size) =
      (List.range t).map fun i => if i ≤ m then Blocks.start size (i + 1) else size i := by
  induction m with
  | zero =>
    refine List.map_congr_left fun i _ => ?_
    split
    · next hi =>
      rw [Nat.le_zero.mp hi, Blocks.start_succ, Blocks.start_zero, Nat.zero_add]
    · rfl
  | succ m ih =>
    rw [List.range'_concat, List.foldl_append, ih (by omega)]
    refine List.ext_getElem (by simp) fun i hi hi' => ?_
    have hprev : ((List.range t).map fun i =>
        if i ≤ m then Blocks.start size (i + 1) else size i).getD (1 + 1 * m - 1) 0 =
          Blocks.start size (m + 1) := by
      rw [List.getD_eq_getElem?_getD, List.getElem?_eq_getElem (by simp; omega)]
      simp
    simp only [List.foldl_cons, List.foldl_nil, hprev, List.getElem_modify, List.getElem_map,
      List.getElem_range]
    rcases Nat.lt_trichotomy i (m + 1) with hlt | rfl | hgt
    · rw [if_neg (by omega), if_pos (by omega), if_pos (by omega)]
    · rw [if_pos (by omega), if_neg (by omega), if_pos le_rfl,
        Blocks.start_succ (m + 1), Nat.add_comm]
    · rw [if_neg (by omega), if_neg (by omega), if_neg (by omega)]

/-- The end indices of the tiles. -/
theorem vtPartialIdx_eq {n t : ℕ} (hn : n < 2 ^ 53) (ht : 0 < t) :
    vtPartialIdx n t = (List.range t).map fun i => tileStart n t (i + 1) := by
  unfold vtPartialIdx
  split
  · next hone => simp [hone, tileStart_self n Nat.one_pos]
  · rw [vtSizes_eq hn ht, foldl_accumulate _ t (t - 1) (by omega)]
    refine List.map_congr_left fun i hi => ?_
    rw [if_pos (by have := List.mem_range.mp hi; omega), start_tileSize]

/-- A destination goes to the tile that it lies in. -/
theorem vtIdx_eq_some_iff {n t k v : ℕ} (hn : n < 2 ^ 53) (ht : 0 < t) :
    vtIdx (vtPartialIdx n t) v = some k ↔ k < t ∧ InTile n t k v := by
  have hmono : Monotone (tileStart n t) := by
    have hstart : Blocks.start (tileSize n t) = tileStart n t := funext (start_tileSize n t)
    rw [← hstart]
    exact Blocks.start_mono
  rw [vtIdx, vtPartialIdx_eq hn ht, List.findIdx?_eq_some_iff_getElem]
  simp only [List.length_map, List.length_range, List.getElem_map, List.getElem_range,
    decide_eq_true_eq, not_lt]
  constructor
  · rintro ⟨hk, hlt, hfirst⟩
    refine ⟨hk, ?_, hlt⟩
    cases k with
    | zero => simp [tileStart]
    | succ k => exact hfirst k (Nat.lt_succ_self k)
  · rintro ⟨hk, hle, hlt⟩
    exact ⟨hk, hlt, fun j hj => (hmono hj).trans hle⟩

/-! ## The choice -/

/-- Destination `w` is taken before `v`: more edges lead to it, or as many and the first of
them comes earlier. -/
def Outranks (edges : List (ℕ × ℕ)) (w v : ℕ) : Prop :=
  inDegree edges v < inDegree edges w ∨
    inDegree edges w = inDegree edges v ∧ firstEdge edges w < firstEdge edges v

instance (edges : List (ℕ × ℕ)) : DecidableRel (Outranks edges) :=
  fun _ _ => inferInstanceAs (Decidable (_ ∨ _))

/-- The destinations in tile `k`. -/
def tileDestinations (edges : List (ℕ × ℕ)) (t k : ℕ) : Finset ℕ :=
  (destinations edges).toFinset.filter (InTile (maxIdx edges) t k)

/-- Destination `v` is chosen: fewer than `s * 1024` destinations of its tile outrank it. -/
def Chosen (edges : List (ℕ × ℕ)) (s t v : ℕ) : Prop :=
  ∃ k < t, v ∈ tileDestinations edges t k ∧
    ((tileDestinations edges t k).filter fun w => Outranks edges w v).card < s * 1024

/-- The keys of tile `k`. -/
def tileKeys (edges : List (ℕ × ℕ)) (t k : ℕ) : List ℕ :=
  (keys edges).filter fun v => InTile (maxIdx edges) t k v

theorem nodup_tileKeys (k : ℕ) : (tileKeys edges t k).Nodup := nodup_keys.filter _

theorem toFinset_tileKeys (k : ℕ) : (tileKeys edges t k).toFinset = tileDestinations edges t k := by
  ext v
  simp [tileKeys, tileDestinations, mem_keys]

theorem gDict_eq (hids : maxIdx edges < 2 ^ 53) {k : ℕ} (hk : k < t) :
    gDict (vtPartialIdx (maxIdx edges) t) (totGDict edges) k =
      (tileKeys edges t k).map fun v => (v, sources edges v) := by
  rw [gDict, totGDict_eq, List.filter_map, tileKeys]
  congr 1
  refine List.filter_congr fun v _ => ?_
  rw [Function.comp_apply, decide_eq_decide, vtIdx_eq_some_iff hids (by omega)]
  exact and_iff_right hk

/-- The sort only looks at the number of sources. -/
theorem sortedDict_map (ks : List ℕ) (n : ℕ) :
    sortedDict (ks.map fun v => (v, sources edges v)) n =
      (ks.mergeSort fun v w => decide (inDegree edges w ≤ inDegree edges v)).take n := by
  have hsort : (ks.mergeSort fun v w => decide (inDegree edges w ≤ inDegree edges v)).map
      (fun v => (v, sources edges v)) = (ks.map fun v => (v, sources edges v)).mergeSort
        fun p q => decide (q.2.length ≤ p.2.length) := by
    refine List.map_mergeSort fun v _ w _ => ?_
    rw [length_sources, length_sources]
  rw [sortedDict, ← hsort, ← List.map_take, List.map_map]
  exact List.map_id _

/-- Of the keys those are taken that fewer than `n` outrank. -/
theorem mem_sortedDict_map {ks : List ℕ}
    (hks : ks.Pairwise fun v w => firstEdge edges v < firstEdge edges w) (n v : ℕ) :
    v ∈ sortedDict (ks.map fun v => (v, sources edges v)) n ↔
      v ∈ ks ∧ ks.countP (fun w => decide (Outranks edges w v)) < n := by
  have htrans : ∀ a b c : ℕ, decide (inDegree edges b ≤ inDegree edges a) →
      decide (inDegree edges c ≤ inDegree edges b) →
      decide (inDegree edges c ≤ inDegree edges a) := by
    simp only [decide_eq_true_iff]
    omega
  have htotal : ∀ a b : ℕ, decide (inDegree edges b ≤ inDegree edges a) ||
      decide (inDegree edges a ≤ inDegree edges b) := by
    simp only [Bool.or_eq_true, decide_eq_true_iff]
    omega
  have hbefore : ∀ w, Ranking.Before (fun v w => decide (inDegree edges w ≤ inDegree edges v))
      (firstEdge edges) w v ↔ Outranks edges w v := by
    intro w
    unfold Ranking.Before Outranks
    rw [decide_eq_false_iff_not, decide_eq_true_iff]
    omega
  rw [sortedDict_map]
  constructor
  · intro hv
    have hmem : v ∈ ks := List.mem_mergeSort.mp (List.mem_of_mem_take hv)
    refine ⟨hmem, ?_⟩
    have hrank := (Ranking.mem_take_mergeSort htrans htotal hks hmem n).mp hv
    simpa only [hbefore] using hrank
  · rintro ⟨hmem, hrank⟩
    refine (Ranking.mem_take_mergeSort htrans htotal hks hmem n).mpr ?_
    simpa only [hbefore] using hrank

/-- What is taken of tile `k`. -/
def tileElements (edges : List (ℕ × ℕ)) (s t k : ℕ) : List ℕ :=
  sortedDict ((tileKeys edges t k).map fun v => (v, sources edges v)) (s * 1024)

theorem mem_tileElements (k v : ℕ) : v ∈ tileElements edges s t k ↔
    v ∈ tileDestinations edges t k ∧
      ((tileDestinations edges t k).filter fun w => Outranks edges w v).card < s * 1024 := by
  have hkeys : (tileKeys edges t k).Pairwise fun v w =>
      firstEdge edges v < firstEdge edges w := pairwise_keys.filter _
  have hfilter : (tileDestinations edges t k).filter (fun w => Outranks edges w v) =
      ((tileKeys edges t k).filter fun w => decide (Outranks edges w v)).toFinset := by
    rw [← toFinset_tileKeys]
    ext w
    simp
  rw [tileElements, mem_sortedDict_map hkeys, hfilter,
    List.toFinset_card_of_nodup ((nodup_tileKeys k).filter _), ← List.countP_eq_length_filter,
    ← toFinset_tileKeys, List.mem_toFinset]

/-- Of a tile so many are taken as there is room for. -/
theorem length_tileElements (k : ℕ) : (tileElements edges s t k).length =
    min (s * 1024) (tileDestinations edges t k).card := by
  rw [tileElements, sortedDict_map, List.length_take, List.length_mergeSort, ← toFinset_tileKeys,
    List.toFinset_card_of_nodup (nodup_tileKeys k)]

theorem nodup_tileElements (k : ℕ) : (tileElements edges s t k).Nodup := by
  rw [tileElements, sortedDict_map]
  exact ((List.mergeSort_perm _ _).nodup_iff.mpr (nodup_tileKeys k)).sublist
    (List.take_sublist _ _)

theorem sortedElements_eq (hids : maxIdx edges < 2 ^ 53) :
    sortedElements edges s t = (List.range t).flatMap (tileElements edges s t) := by
  refine List.flatMap_congr fun k hk => ?_
  rw [gDict_eq hids (List.mem_range.mp hk), tileElements]

/-- What is written is what is chosen. -/
theorem mem_sortedElements (hids : maxIdx edges < 2 ^ 53) (v : ℕ) :
    v ∈ sortedElements edges s t ↔ Chosen edges s t v := by
  rw [sortedElements_eq hids, List.mem_flatMap]
  refine exists_congr fun k => ?_
  rw [List.mem_range, mem_tileElements]

/-- No vertex lies in two tiles. -/
theorem inTile_unique {n t j k v : ℕ} (hj : InTile n t j v) (hk : InTile n t k v) : j = k := by
  unfold InTile at hj hk
  simp only [← start_tileSize] at hj hk
  exact Blocks.block_unique _ hj hk

/-- Every destination lies in a tile. -/
theorem existsUnique_inTile {v : ℕ} (hv : v ∈ destinations edges) (ht : 0 < t) :
    ∃! k, k < t ∧ InTile (maxIdx edges) t k v := by
  have hend : v < Blocks.start (tileSize (maxIdx edges) t) t := by
    rw [start_tileSize, tileStart_self _ ht]
    exact lt_maxIdx hv
  obtain ⟨k, hk, hblock⟩ := Blocks.exists_block _ hend
  rw [start_tileSize, start_tileSize] at hblock
  exact ⟨k, ⟨hk, hblock⟩, fun j hj => inTile_unique hj.2 hblock⟩

theorem nodup_sortedElements (hids : maxIdx edges < 2 ^ 53) :
    (sortedElements edges s t).Nodup := by
  rw [sortedElements_eq hids, List.nodup_flatMap]
  refine ⟨fun k _ => nodup_tileElements k, ?_⟩
  refine List.nodup_range.imp fun {j k} hne v hvj hvk => hne ?_
  have hmem : ∀ i, v ∈ tileElements edges s t i → InTile (maxIdx edges) t i v := fun i hv =>
    (Finset.mem_filter.mp ((mem_tileElements i v).mp hv).1).2
  exact inTile_unique (hmem j hvj) (hmem k hvk)

/-- Of every tile so many are taken as there is room for. -/
theorem length_sortedElements (hids : maxIdx edges < 2 ^ 53) :
    (sortedElements edges s t).length =
      ∑ k ∈ Finset.range t, min (s * 1024) (tileDestinations edges t k).card := by
  rw [sortedElements_eq hids, List.length_flatMap]
  simp only [length_tileElements]
  rfl

/-! ## The file -/

theorem flatMap_decimal (l : List ℕ) :
    l.flatMap (fun e => decimal e ++ [' ']) = lineText true (toInts l) := by
  rw [lineText, if_pos rfl, toInts, List.map_map, List.flatMap_map]
  rfl

end Sgcn
