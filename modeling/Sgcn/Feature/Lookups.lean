-- SUMMARY: The table look-ups of `ReadNext`, what one read does to its engine, and the frame of every other call.
import Sgcn.Feature.Stream

/-!
# Look-ups

`ReadNext` looks at one or two cells of `x_to_addr`, and nothing checks their
columns. `lookups` names these cells; a call is undefined exactly when one of them
lies outside its row. `LineRead` is what a call that enters a line does in the modes
that enter addresses as they are.
-/

namespace Sgcn

variable {g : Globals}

namespace FeatureReader

variable {s s' : FeatureReader} {id a : ℕ} {f : FrStat}

/-! ## The cells of a call -/

/-- The edge as it is when a line of its row is read in the modes with a header: a
cached header is stepped over, and without one the call waits. -/
def headed (g : Globals) (id : ℕ) (s : FeatureReader) : Option FrStat :=
  if (s.frs id).curColIdx = 0 then
    (g.xToAddr (s.frs id).dst)[0]?.bind fun header =>
      if (s.access g header).1 then some { s.frs id with curColIdx := 1 } else none
  else some (s.frs id)

/-- The cells that the branch of the mode looks at, as row and column. -/
def modeLookups (g : Globals) (id : ℕ) (s : FeatureReader) : List (ℕ × ℕ) :=
  let f := s.frs id
  let col := f.vFold * g.archInfo.urb + f.curColIdx
  match g.archInfo.mode with
  | .xCmp => (f.dst, col) :: if moreColumns g f then [(f.dst, col + 1)] else []
  | .mat => [(f.dst, col)]
  | .csr | .xFullCmp =>
    (if f.curColIdx = 0 then [(f.dst, 0)] else []) ++
      (headed g id s).toList.map fun f => (f.dst, f.curColIdx)

/-- The guard of `ReadNext`. -/
def TurnedAway (s : FeatureReader) (id : ℕ) : Prop :=
  256 ≤ (s.fq id).length ∨ ¬ s.mem.willAcceptTransaction

instance (s : FeatureReader) (id : ℕ) : Decidable (s.TurnedAway id) :=
  inferInstanceAs (Decidable (_ ∨ _))

/-- The reader with an edge in place for engine `id`, unless the call returns before. -/
def begun (s : FeatureReader) (id : ℕ) : Option FeatureReader :=
  if s.TurnedAway id then none
  else if (s.frs id).pqReadNeed then
    match s.pq id with
    | [] => none
    | ei :: rest => some (s.consumePendingQ id ei rest)
  else some s

/-- The cells that `ReadNext` looks at. -/
def lookups (g : Globals) (id : ℕ) (s : FeatureReader) : List (ℕ × ℕ) :=
  (s.begun id).elim [] (modeLookups g id)

theorem readNext_eq (g : Globals) (id : ℕ) (s : FeatureReader) :
    readNext g id s = (s.begun id).elim (some s) (readMode g id) := by
  unfold readNext begun
  by_cases hguard : 256 ≤ (s.fq id).length ∨ ¬ s.mem.willAcceptTransaction
  · rw [if_pos hguard, if_pos (c := s.TurnedAway id) hguard, Option.elim_none]
  · rw [if_neg hguard, if_neg (c := s.TurnedAway id) hguard]
    cases hneed : (s.frs id).pqReadNeed with
    | true => cases hpq : s.pq id <;> simp
    | false => simp

/-- Where a call comes to the table, it works on the current edge, or on the next one
of the queue from its first column on. -/
theorem begun_cases {t : FeatureReader} (h : s.begun id = some t) :
    ((s.frs id).pqReadNeed = false ∧ t = s) ∨
      ∃ ei rest, (s.frs id).pqReadNeed = true ∧ s.pq id = ei :: rest ∧
        t = s.consumePendingQ id ei rest := by
  unfold begun at h
  split at h
  · cases h
  · cases hneed : (s.frs id).pqReadNeed with
    | true =>
      cases hpq : s.pq id with
      | nil => simp [hneed, hpq] at h
      | cons ei rest =>
        obtain rfl : s.consumePendingQ id ei rest = t := by simpa [hneed, hpq] using h
        exact .inr ⟨ei, rest, rfl, rfl, rfl⟩
    | false =>
      obtain rfl : s = t := by simpa [hneed] using h
      exact .inl ⟨rfl, rfl⟩

/-- The first edge of a fresh reader is looked up by the next read, whatever is cached. -/
theorem lookups_first (g : Globals) (ei : EdgeInfo) (cah : Cache) :
    lookups g ei.id { init.enterFtoList ei with cah := cah } =
      modeLookups g ei.id ({ init.enterFtoList ei with cah := cah }.consumePendingQ ei.id ei []) := by
  have haccept : Memory.init.willAcceptTransaction = true := rfl
  simp [lookups, begun, TurnedAway, haccept, enterFtoList, init]

/-! ## One line -/

/-- The engine enters the line `a` for the edge `f`, and moves on or ends the edge. -/
structure LineRead (id a : ℕ) (f : FrStat) (isEnd : Bool) (s s' : FeatureReader) : Prop where
  frs : s'.frs = Function.update s.frs id
    (if isEnd then { f with pqReadNeed := true } else { f with curColIdx := f.curColIdx + 1 })
  pq : s'.pq = s.pq
  fq : s'.fq = Function.update s.fq id
    (s.fq id ++ a :: if isEnd && f.isLast then [0] else [])

theorem lineRead_moveOn (g : Globals) (s : FeatureReader) (id a : ℕ) (f : FrStat) :
    LineRead id a f false s
      (((s.fetch g a).pushFq id a).setFrs id { f with curColIdx := f.curColIdx + 1 }) where
  frs := by simp [setFrs, pushFq]
  pq := by simp [setFrs, pushFq]
  fq := by simp [setFrs, pushFq]

theorem lineRead_endEdge (g : Globals) (s : FeatureReader) (id a : ℕ) (f : FrStat) :
    LineRead id a f true s (((s.fetch g a).pushFq id a).endEdge id f) := by
  unfold endEdge
  cases hlast : f.isLast with
  | false => exact ⟨by simp [setFrs, pushFq, hlast], by simp [setFrs, pushFq],
      by simp [setFrs, pushFq, hlast]⟩
  | true => exact ⟨by simp [setFrs, pushFq, hlast], by simp [setFrs, pushFq],
      by simp [setFrs, pushFq, hlast]⟩

/-- The `MAT` branch. -/
theorem readMat_spec
    (ha : (g.xToAddr (s.frs id).dst)[(s.frs id).vFold * g.archInfo.urb + (s.frs id).curColIdx]? =
      some a) :
    ∃ s', readMat g id s = some s' ∧ LineRead id a (s.frs id) (!moreColumns g (s.frs id)) s s' := by
  unfold readMat returnAddress
  cases hmore : moreColumns g (s.frs id) with
  | false => exact ⟨_, by simp [ha, hmore], lineRead_endEdge g s id a _⟩
  | true => exact ⟨_, by simp [ha, hmore], lineRead_moveOn g s id a _⟩

/-- The header is not cached: it is requested, and the engine stays as it is. -/
theorem readHeaded_waits {header : ℕ} (hcur : (s.frs id).curColIdx = 0)
    (hheader : (g.xToAddr (s.frs id).dst)[0]? = some header)
    (hmiss : (s.access g header).1 = false) :
    ∃ s', readHeaded g id s = some s' ∧ s'.frs = s.frs ∧ s'.pq = s.pq ∧ s'.fq = s.fq := by
  refine ⟨(s.access g header).2.request header, ?_, by simp, by simp, by simp⟩
  simp [readHeaded, hcur, hheader, hmiss]

/-- A line of a row behind its header. -/
theorem readHeaded_line (hf : headed g id s = some f)
    (ha : (g.xToAddr (s.frs id).dst)[f.curColIdx]? = some a) :
    ∃ s', readHeaded g id s = some s' ∧
      LineRead id a f (decide (f.curColIdx + 1 = (g.xToAddr (s.frs id).dst).length)) s s' := by
  -- the body of the branch, on any reader that agrees with `s` on the engines
  have hbody (t : FeatureReader) (hfrs : t.frs = Function.update s.frs id f) (hpq : t.pq = s.pq)
      (hfq : t.fq = s.fq) : ∃ s', (if (f.curColIdx : ℤ) ≠ (g.xToAddr (s.frs id).dst).length - 1 then
          some (((t.fetch g a).pushFq id a).setFrs id { f with curColIdx := f.curColIdx + 1 })
        else some (((t.fetch g a).pushFq id a).endEdge id f)) = some s' ∧
      LineRead id a f (decide (f.curColIdx + 1 = (g.xToAddr (s.frs id).dst).length)) s s' := by
    by_cases hlast : f.curColIdx + 1 = (g.xToAddr (s.frs id).dst).length
    · have hread := lineRead_endEdge g t id a f
      rw [if_neg (by omega), decide_eq_true hlast]
      exact ⟨_, rfl, by rw [hread.frs, hfrs, Function.update_idem], by rw [hread.pq, hpq],
        by rw [hread.fq, hfq]⟩
    · have hread := lineRead_moveOn g t id a f
      rw [if_pos (by omega), decide_eq_false hlast]
      exact ⟨_, rfl, by rw [hread.frs, hfrs, Function.update_idem], by rw [hread.pq, hpq],
        by rw [hread.fq, hfq]⟩
  unfold headed at hf
  split at hf
  next hcur =>
    obtain ⟨header, hheader, hhit⟩ := Option.bind_eq_some_iff.mp hf
    split at hhit
    next hhit' =>
      obtain rfl := Option.some.inj hhit
      obtain ⟨s', hs', hread⟩ := hbody ((s.access g header).2.setFrs id
        { s.frs id with curColIdx := 1 }) (by simp [setFrs]) (by simp [setFrs]) (by simp [setFrs])
      refine ⟨s', ?_, hread⟩
      simpa [readHeaded, hcur, hheader, hhit', setFrs, ha] using hs'
    next => cases hhit
  next hcur =>
    obtain rfl := Option.some.inj hf
    obtain ⟨s', hs', hread⟩ := hbody s (by simp) rfl rfl
    refine ⟨s', ?_, hread⟩
    simpa [readHeaded, hcur, ha] using hs'

/-! ## Undefined calls -/

/-- A cell outside its row. -/
def Outside (g : Globals) (p : ℕ × ℕ) : Prop := (g.xToAddr p.1).length ≤ p.2

theorem readXCmp_eq_none_iff (hmode : g.archInfo.mode = .xCmp) :
    readXCmp g id s = none ↔ ∃ p ∈ modeLookups g id s, Outside g p := by
  simp only [modeLookups, hmode, Outside, List.mem_cons]
  cases hfirst : returnAddress g (s.frs id).dst (s.frs id).curColIdx (s.frs id).vFold with
  | none =>
    refine iff_of_true (by simp [readXCmp, hfirst]) ⟨_, .inl rfl, ?_⟩
    simpa [returnAddress] using hfirst
  | some a =>
    have hlt := (List.getElem?_eq_some_iff.mp hfirst).1
    by_cases hmore : moreColumns g (s.frs id) = true
    · cases hnext : returnAddress g (s.frs id).dst ((s.frs id).curColIdx + 1) (s.frs id).vFold with
      | none =>
        refine iff_of_true (by simp [readXCmp, hfirst, hmore, hnext])
          ⟨((s.frs id).dst, (s.frs id).vFold * g.archInfo.urb + (s.frs id).curColIdx + 1),
            .inr (by simp [hmore]), ?_⟩
        simpa [returnAddress, Nat.add_assoc] using hnext
      | some b =>
        have hlt' := (List.getElem?_eq_some_iff.mp hnext).1
        refine iff_of_false ?_ ?_
        · simp only [readXCmp, hfirst, hmore, hnext]
          simp only [Option.bind_eq_bind, Option.bind_some, if_true]
          split <;> simp
        · rw [if_pos hmore]
          rintro ⟨p, rfl | hp, hout⟩
          · exact absurd hout (by simpa using hlt)
          · obtain rfl := List.mem_singleton.mp hp
            simp only at hout
            omega
    · refine iff_of_false (by simp [readXCmp, hfirst, hmore]) ?_
      rw [if_neg hmore]
      rintro ⟨p, rfl | hp, hout⟩
      · exact absurd hout (by simpa using hlt)
      · cases hp

theorem readMat_eq_none_iff (hmode : g.archInfo.mode = .mat) :
    readMat g id s = none ↔ ∃ p ∈ modeLookups g id s, Outside g p := by
  simp only [modeLookups, hmode, Outside, List.mem_singleton, exists_eq_left]
  cases ha : (g.xToAddr (s.frs id).dst)[(s.frs id).vFold * g.archInfo.urb +
      (s.frs id).curColIdx]? with
  | none => exact iff_of_true (by simp [readMat, returnAddress, ha]) (by simpa using ha)
  | some a =>
    obtain ⟨s', hs', -⟩ := readMat_spec ha
    have hlt := (List.getElem?_eq_some_iff.mp ha).1
    exact iff_of_false (by simp [hs']) (by omega)

theorem readHeaded_eq_none_iff (hmode : g.archInfo.mode = .csr ∨ g.archInfo.mode = .xFullCmp) :
    readHeaded g id s = none ↔ ∃ p ∈ modeLookups g id s, Outside g p := by
  have hlookups : modeLookups g id s =
      (if (s.frs id).curColIdx = 0 then [((s.frs id).dst, 0)] else []) ++
        (headed g id s).toList.map fun f => (f.dst, f.curColIdx) := by
    rcases hmode with hmode | hmode <;> simp only [modeLookups, hmode]
  rw [hlookups]
  by_cases hcur : (s.frs id).curColIdx = 0
  · cases hheader : (g.xToAddr (s.frs id).dst)[0]? with
    | none =>
      refine iff_of_true (by simp [readHeaded, hcur, hheader]) ⟨((s.frs id).dst, 0), ?_, ?_⟩
      · simp [hcur]
      · simpa [Outside] using hheader
    | some header =>
      have hlt := (List.getElem?_eq_some_iff.mp hheader).1
      cases hhit : (s.access g header).1 with
      | false =>
        obtain ⟨s', hs', -⟩ := readHeaded_waits hcur hheader hhit
        have hhead : headed g id s = none := by simp [headed, hcur, hheader, hhit]
        refine iff_of_false (by simp [hs']) ?_
        simp only [hcur, hhead, Outside, if_true]
        simpa using List.ne_nil_of_length_pos hlt
      | true =>
        have hhead : headed g id s = some { s.frs id with curColIdx := 1 } := by
          simp [headed, hcur, hheader, hhit]
        cases hline : (g.xToAddr (s.frs id).dst)[1]? with
        | none =>
          refine iff_of_true (by simp [readHeaded, hcur, hheader, hhit, setFrs, hline])
            ⟨((s.frs id).dst, 1), by simp [hhead], ?_⟩
          simpa [Outside] using hline
        | some a =>
          obtain ⟨s', hs', -⟩ := readHeaded_line hhead hline
          have hlt' := (List.getElem?_eq_some_iff.mp hline).1
          refine iff_of_false (by simp [hs']) ?_
          simp only [hcur, hhead, Outside, if_true]
          simpa using ⟨List.ne_nil_of_length_pos hlt, hlt'⟩
  · have hhead : headed g id s = some (s.frs id) := by simp [headed, hcur]
    cases hline : (g.xToAddr (s.frs id).dst)[(s.frs id).curColIdx]? with
    | none =>
      refine iff_of_true (by simp [readHeaded, hcur, hline])
        ⟨((s.frs id).dst, (s.frs id).curColIdx), by simp [hhead], ?_⟩
      simpa [Outside] using hline
    | some a =>
      obtain ⟨s', hs', -⟩ := readHeaded_line hhead hline
      have hlt := (List.getElem?_eq_some_iff.mp hline).1
      refine iff_of_false (by simp [hs']) ?_
      simp only [hcur, hhead, Outside, if_false]
      simpa using hlt

/-- A call of `ReadNext` is undefined exactly when it looks at a cell outside its row. -/
theorem readNext_eq_none_iff (g : Globals) (id : ℕ) (s : FeatureReader) :
    readNext g id s = none ↔ ∃ p ∈ lookups g id s, Outside g p := by
  rw [readNext_eq, lookups]
  cases s.begun id with
  | none => simp
  | some t =>
    simp only [Option.elim_some]
    unfold readMode
    cases hmode : g.archInfo.mode with
    | xCmp => exact readXCmp_eq_none_iff hmode
    | mat => exact readMat_eq_none_iff hmode
    | csr => exact readHeaded_eq_none_iff (.inl hmode)
    | xFullCmp => exact readHeaded_eq_none_iff (.inr hmode)

/-! ## Call sequences -/

theorem passFtoSIMD_edges (g : Globals) (id : ℕ) (s : FeatureReader) :
    (s.passFtoSIMD g id).2.frs = s.frs ∧ (s.passFtoSIMD g id).2.pq = s.pq := by
  unfold passFtoSIMD
  split
  · exact ⟨rfl, rfl⟩
  next next rest hfq =>
    dsimp only
    split
    · simp only [if_true]
      split <;> exact ⟨rfl, rfl⟩
    · split
      · split <;> exact ⟨rfl, rfl⟩
      · exact ⟨by simp, by simp⟩

/-- The engine that a call reads for. -/
def ReaderCall.read? : ReaderCall → Option ℕ
  | .readNext id => some id
  | _ => none

/-- All that a call does to the edges: it enters one, it reads, or it leaves them alone. -/
theorem call_cases {c : ReaderCall} {o : List (ℕ × ℤ)} (h : call g s c = some (s', o)) :
    (∃ ei, c = .enterFtoList ei ∧ s' = s.enterFtoList ei) ∨
      (∃ id, c = .readNext id ∧ readNext g id s = some s') ∨
      (c.read? = none ∧ (∀ id, c.edge? id = none) ∧ s'.frs = s.frs ∧ s'.pq = s.pq) := by
  cases c with
  | enterFtoList ei =>
    obtain ⟨rfl, -⟩ : s.enterFtoList ei = s' ∧ [] = o := by simpa [call] using h
    exact .inl ⟨ei, rfl, rfl⟩
  | readNext id =>
    obtain ⟨t, ht, heq⟩ := Option.map_eq_some_iff.mp h
    obtain ⟨rfl, -⟩ := Prod.mk.inj heq
    exact .inr (.inl ⟨id, rfl, ht⟩)
  | featureReceive =>
    obtain ⟨rfl, -⟩ : s.featureReceive g = s' ∧ [] = o := by simpa [call] using h
    have hsame := fun j => sameEngine_featureReceive (g := g) j s
    exact .inr (.inr ⟨rfl, fun _ => rfl, funext fun j => (hsame j).frs,
      funext fun j => (hsame j).pq⟩)
  | passFtoSIMD id =>
    obtain ⟨rfl, -⟩ : (s.passFtoSIMD g id).2 = s' ∧ _ = o := by simpa [call] using h
    exact .inr (.inr ⟨rfl, fun _ => rfl, passFtoSIMD_edges g id s⟩)
  | environment cah mem =>
    obtain ⟨rfl, -⟩ : ({ s with cah := cah, mem := mem } : FeatureReader) = s' ∧ [] = o := by
      simpa [call] using h
    exact .inr (.inr ⟨rfl, fun _ => rfl, rfl, rfl⟩)

/-- One call, with the cells it looks at and the engine it looks for as output. -/
def lookupCall (g : Globals) : Machine.Call FeatureReader ReaderCall (ℕ × ℕ × ℕ) :=
  fun s c => (call g s c).map fun r =>
    (r.1, c.read?.elim [] fun id => (lookups g id s).map (Prod.mk id))

/-- The cells that were looked at for engine `id`. -/
def lookedUp (id : ℕ) (log : List (ℕ × ℕ × ℕ)) : List (ℕ × ℕ) :=
  (log.filter fun r => r.1 = id).map Prod.snd

theorem lookedUp_append (id j : ℕ) (log : List (ℕ × ℕ × ℕ)) (cells : List (ℕ × ℕ)) :
    lookedUp j (log ++ cells.map (Prod.mk id)) =
      lookedUp j log ++ if j = id then cells else [] := by
  unfold lookedUp
  rw [List.filter_append, List.map_append]
  congr 1
  by_cases hj : j = id
  · subst hj
    simp [List.filter_map, Function.comp_def]
  · simp [hj, List.filter_map, Function.comp_def, Ne.symm hj]

end FeatureReader

end Sgcn
