-- SUMMARY: The feature cache is least-recently-used: each set holds its most recently touched addresses, over every call sequence.
import Sgcn.Base.Machine
import Sgcn.Base.Recency
import Sgcn.Model.Memory

/-!
# LRU

A touch is an `Insert`, or an `Access` that found the address. After any sequence
of calls a set of the cache is the top of the recency stack of the touches that
map to it.
-/

namespace Sgcn

namespace Cache

/-! ## Call sequences -/

/-- The two calls of the class. -/
inductive CacheCall where
  | access (address : ℕ)
  | insert (address : ℕ)
  deriving DecidableEq, Repr

/-- The argument of a call. -/
def CacheCall.address : CacheCall → ℕ
  | .access address => address
  | .insert address => address

/-- What a call leaves of the cache. -/
def apply (arch : ArchInfo) (c : Cache) : CacheCall → Cache
  | .access address => (c.access arch address).2
  | .insert address => c.insert arch address

/-- One call, with the address it touches as output. A cached address is never
inserted. -/
def call (arch : ArchInfo) : Machine.Call Cache CacheCall ℕ
  | c, .access address =>
    some (c.apply arch (.access address), if (c.access arch address).1 then [address] else [])
  | c, .insert address =>
    if address ∈ c.saCache (findSet arch address) then none
    else some (c.apply arch (.insert address), [address])

/-- The `cache_way` most recently touched addresses of a set, newest first. -/
def recent (arch : ArchInfo) (touched : List ℕ) (set : ℕ) : List ℕ :=
  (Recency.stack (touched.reverse.filter fun a => findSet arch a = set)).take arch.cacheWay

/-- The cache after the touches `touched`. -/
structure IsLru (arch : ArchInfo) (touched : List ℕ) (c : Cache) : Prop where
  /-- Each set holds its most recent addresses, in order. -/
  content : ∀ set, c.saCache set = recent arch touched set
  /-- `Access` succeeds on these and no others. -/
  access_iff : ∀ a, (c.access arch a).1 = true ↔ a ∈ recent arch touched (findSet arch a)
  /-- No set is over-full, and only the `cache_set` sets of the array are used. -/
  bounded : ∀ set, (c.saCache set).length ≤ arch.cacheWay
  inRange : ∀ set, arch.cacheSet ≤ set → c.saCache set = []
  /-- An address is stored once, in its set. -/
  nodup : ∀ set, (c.saCache set).Nodup
  placed : ∀ set, ∀ a ∈ c.saCache set, findSet arch a = set
  /-- The next call changes one set only. -/
  frame : ∀ op set, set ≠ findSet arch op.address → (c.apply arch op).saCache set = c.saCache set

variable {arch : ArchInfo} {c c' : Cache} {a set : ℕ} {touched : List ℕ}

theorem findSet_lt (hset : 0 < arch.cacheSet) (a : ℕ) : findSet arch a < arch.cacheSet :=
  Nat.mod_lt _ hset

/-! ## One call -/

/-- A touch of `a` concerns the set of `a` only. -/
theorem recent_append_of_ne (hne : set ≠ findSet arch a) :
    recent arch (touched ++ [a]) set = recent arch touched set := by
  simp [recent, Ne.symm hne]

theorem recent_append_of_mem (hmem : a ∈ recent arch touched (findSet arch a)) :
    recent arch (touched ++ [a]) (findSet arch a) =
      a :: (recent arch touched (findSet arch a)).erase a := by
  simpa [recent] using Recency.take_stack_of_mem hmem

theorem recent_append_of_not_mem (hway : 0 < arch.cacheWay)
    (hmem : a ∉ recent arch touched (findSet arch a)) :
    recent arch (touched ++ [a]) (findSet arch a) =
      a :: if (recent arch touched (findSet arch a)).length = arch.cacheWay
        then (recent arch touched (findSet arch a)).dropLast
        else recent arch touched (findSet arch a) := by
  simpa [recent] using Recency.take_stack_of_not_mem hway hmem

theorem access_saCache_of_ne (hne : set ≠ findSet arch a) :
    (c.access arch a).2.saCache set = c.saCache set := by
  unfold access
  dsimp only
  split
  · exact Function.update_of_ne hne _ _
  · rfl

theorem insert_saCache_of_ne (hne : set ≠ findSet arch a) :
    (c.insert arch a).saCache set = c.saCache set :=
  Function.update_of_ne hne _ _

theorem access_fst_iff : (c.access arch a).1 = true ↔ a ∈ c.saCache (findSet arch a) := by
  unfold access
  dsimp only
  split
  next hmem => simp [hmem]
  next hmem => simp [hmem]

/-- A call changes the set of its argument only. -/
theorem apply_saCache_of_ne {op : CacheCall} (hne : set ≠ findSet arch op.address) :
    (c.apply arch op).saCache set = c.saCache set := by
  cases op with
  | access a => exact access_saCache_of_ne hne
  | insert a => exact insert_saCache_of_ne hne

/-- One call keeps each set at its most recent touches. -/
theorem call_content (hway : 0 < arch.cacheWay) {op : CacheCall} {o : List ℕ}
    (h : ∀ set, c.saCache set = recent arch touched set)
    (hcall : call arch c op = some (c', o)) (set : ℕ) :
    c'.saCache set = recent arch (touched ++ o) set := by
  cases op with
  | access a =>
    obtain ⟨rfl, rfl⟩ : c.apply arch (.access a) = c' ∧
        (if (c.access arch a).1 then [a] else []) = o := by
      simpa [call] using hcall
    by_cases hmem : a ∈ c.saCache (findSet arch a)
    · rw [if_pos (access_fst_iff.mpr hmem)]
      by_cases hset : set = findSet arch a
      · subst hset
        have hrecent := hmem
        rw [h] at hrecent
        rw [recent_append_of_mem hrecent]
        simp [apply, access, hmem, ← h]
      · rw [recent_append_of_ne hset]
        exact (access_saCache_of_ne hset).trans (h set)
    · rw [if_neg (by rwa [access_fst_iff]), List.append_nil]
      simp [apply, access, hmem, ← h]
  | insert a =>
    by_cases hmem : a ∈ c.saCache (findSet arch a)
    · simp [call, hmem] at hcall
    · obtain ⟨rfl, rfl⟩ : c.apply arch (.insert a) = c' ∧ [a] = o := by
        simpa [call, hmem] using hcall
      by_cases hset : set = findSet arch a
      · subst hset
        have hrecent := hmem
        rw [h] at hrecent
        rw [recent_append_of_not_mem hway hrecent]
        simp [apply, Cache.insert, ← h]
      · rw [recent_append_of_ne hset]
        exact (insert_saCache_of_ne hset).trans (h set)

/-! ## Every call sequence -/

theorem mem_recent (hmem : a ∈ recent arch touched set) : findSet arch a = set := by
  have hstack := List.mem_of_mem_take hmem
  rw [Recency.stack, List.mem_eraseDups] at hstack
  simpa using (List.mem_filter.mp hstack).2

/-- What follows from the content of the sets alone. -/
theorem isLru_of_content (hset : 0 < arch.cacheSet)
    (h : ∀ set, c.saCache set = recent arch touched set) : IsLru arch touched c where
  content := h
  access_iff := fun a => by rw [access_fst_iff, h]
  bounded := by
    intro set
    rw [h, recent, List.length_take]
    exact Nat.min_le_left _ _
  inRange := by
    intro set hle
    rw [h, List.eq_nil_iff_forall_not_mem]
    intro a hmem
    have := findSet_lt hset a
    rw [mem_recent hmem] at this
    omega
  nodup := by
    intro set
    rw [h]
    exact (Recency.nodup_stack _).sublist (List.take_sublist _ _)
  placed := by
    intro set a hmem
    rw [h] at hmem
    exact mem_recent hmem
  frame := fun _ _ hne => apply_saCache_of_ne hne

/-- From the empty cache, every sequence of calls that inserts no cached address
leaves in each set exactly the `cache_way` most recently touched addresses that
map to it. -/
theorem isLru_of_run (hset : 0 < arch.cacheSet) (hway : 0 < arch.cacheWay)
    (ops : List CacheCall) (hrun : Machine.run (call arch) .init ops = some (c, touched)) :
    IsLru arch touched c := by
  refine isLru_of_content hset ?_
  refine Machine.run_inv (I := fun _ os c => ∀ set, c.saCache set = recent arch os set) ?_ ?_ hrun
  · intro _ os t op t' o hI hcall set
    exact call_content hway hI hcall set
  · intro set
    simp [init, recent]

/-- Two sets of two ways. The hit on line 0 saves it from the eviction by line 4;
line 1 lies in the other set. -/
theorem isLru_of_run_twoWays :
    ∃ arch : ArchInfo, arch.cacheSet = 2 ∧ arch.cacheWay = 2 ∧ ∃ c touched,
      Machine.run (call arch) .init
        [.insert 0, .insert 128, .access 0, .insert 64, .access 256, .insert 256] =
          some (c, touched) ∧
      touched = [0, 128, 0, 64, 256] ∧ c.saCache 0 = [256, 0] ∧ IsLru arch touched c := by
  refine ⟨⟨1, 2, 2, 1, 1, 1, 32, .xCmp, .gcn, 0, 0, 0, 0, 0⟩, rfl, rfl, _, _, rfl, rfl, rfl, ?_⟩
  exact isLru_of_run (by decide) (by decide)
    [.insert 0, .insert 128, .access 0, .insert 64, .access 256, .insert 256] rfl

end Cache

end Sgcn
