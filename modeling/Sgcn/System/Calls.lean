-- SUMMARY: What the calls of the main loop touch, unit by unit.
import Sgcn.Feature.Stream
import Sgcn.Graph.Cursor
import Sgcn.Graph.Requests
import Sgcn.Model.Controller

/-!
# Calls

What the calls of `GCNInference` do is said once, by `CallEffect`; the invariants of a run
go by its cases. All calls but `Write` only add reads to the transaction queue, and only
`PassFtoSIMD` and `Write` touch a SIMD unit.
-/

namespace Sgcn

variable {g : Globals} {c c' : Controller} {i : ℕ}

/-! ## Memory -/

theorem GraphReader.vertexRequest_mem (g : Globals) (i : ℕ) (r : GraphReader) (m : Memory) :
    ∃ l, (r.vertexRequest g i m).2 = m.addReads l := by
  rw [vertexRequest_eq]
  split
  · exact ⟨_, rfl⟩
  · exact ⟨[], (m.addReads_nil).symm⟩

theorem GraphReader.edgeRequest_mem (g : Globals) (i : ℕ) (r : GraphReader) (m : Memory) :
    ∃ l, (r.edgeRequest g i m).2 = m.addReads l := by
  rw [edgeRequest_eq]
  split
  · exact ⟨_, rfl⟩
  · exact ⟨[], (m.addReads_nil).symm⟩

namespace FeatureReader

variable {s s' : FeatureReader} {a : ℕ}

theorem request_mem (s : FeatureReader) (a : ℕ) :
    (s.request a).mem = s.mem.addReads (if a ∈ s.requested then [] else [a]) := by
  unfold request
  split
  · exact (s.mem.addReads_nil).symm
  · rfl

theorem fetch_mem (s : FeatureReader) (a : ℕ) :
    ∃ l, l.length ≤ 1 ∧ (s.fetch g a).mem = s.mem.addReads l := by
  rw [fetch_eq]
  split
  · exact ⟨[], by simp, (s.mem.addReads_nil).symm⟩
  · refine ⟨_, ?_, request_mem _ a⟩
    split <;> simp

@[simp] theorem endEdge_mem (s : FeatureReader) (i : ℕ) (f : FrStat) :
    (s.endEdge i f).mem = s.mem := by
  unfold endEdge
  split <;> rfl

theorem readXCmp_mem (h : readXCmp g i s = some s') :
    ∃ l, l.length ≤ 1 ∧ s'.mem = s.mem.addReads l := by
  unfold readXCmp at h
  obtain ⟨a, -, h⟩ := Option.bind_eq_some_iff.mp h
  obtain ⟨l, hlen, hl⟩ := fetch_mem (g := g) s a
  refine ⟨l, hlen, ?_⟩
  rw [← hl]
  dsimp only at h
  split at h
  · obtain ⟨next, -, h⟩ := Option.bind_eq_some_iff.mp h
    split at h
    · cases h
      rw [endEdge_mem]
      rfl
    · cases h
      rfl
  · cases h
    rw [endEdge_mem]
    rfl

theorem readMat_mem (h : readMat g i s = some s') :
    ∃ l, l.length ≤ 1 ∧ s'.mem = s.mem.addReads l := by
  unfold readMat at h
  obtain ⟨a, -, h⟩ := Option.bind_eq_some_iff.mp h
  obtain ⟨l, hlen, hl⟩ := fetch_mem (g := g) s a
  refine ⟨l, hlen, ?_⟩
  rw [← hl]
  dsimp only at h
  split at h
  · cases h
    rfl
  · cases h
    rw [endEdge_mem]
    rfl

theorem readHeaded_mem (h : readHeaded g i s = some s') :
    ∃ l, l.length ≤ 1 ∧ s'.mem = s.mem.addReads l := by
  -- the line behind the header, on a reader with the same memory
  have hbody : ∀ t : FeatureReader, t.mem = s.mem →
      ((g.xToAddr (s.frs i).dst)[(t.frs i).curColIdx]?.bind fun a =>
        if ((t.frs i).curColIdx : ℤ) ≠ (g.xToAddr (s.frs i).dst).length - 1 then
          some (((t.fetch g a).pushFq i a).setFrs i
            { t.frs i with curColIdx := (t.frs i).curColIdx + 1 })
        else some (((t.fetch g a).pushFq i a).endEdge i (t.frs i))) = some s' →
      ∃ l, l.length ≤ 1 ∧ s'.mem = s.mem.addReads l := by
    intro t hmem hread
    obtain ⟨a, -, hread⟩ := Option.bind_eq_some_iff.mp hread
    obtain ⟨l, hlen, hl⟩ := fetch_mem (g := g) t a
    refine ⟨l, hlen, ?_⟩
    rw [← hmem, ← hl]
    split at hread
    · cases hread
      rfl
    · cases hread
      rw [endEdge_mem]
      rfl
  unfold readHeaded at h
  dsimp only at h
  split at h
  · obtain ⟨header, -, h⟩ := Option.bind_eq_some_iff.mp h
    split at h
    · exact hbody ((s.access g header).2.setFrs i { (s.access g header).2.frs i with curColIdx := 1 })
        rfl h
    · cases h
      refine ⟨_, ?_, request_mem _ header⟩
      split <;> simp
  · exact hbody s rfl h

theorem readNext_mem (h : readNext g i s = some s') :
    ∃ l, l.length ≤ 1 ∧ s'.mem = s.mem.addReads l := by
  have hmode : ∀ t : FeatureReader, readMode g i t = some s' →
      ∃ l, l.length ≤ 1 ∧ s'.mem = t.mem.addReads l := by
    intro t hread
    unfold readMode at hread
    split at hread
    · exact readXCmp_mem hread
    · exact readMat_mem hread
    · exact readHeaded_mem hread
    · exact readHeaded_mem hread
  unfold readNext at h
  split at h
  · cases h
    exact ⟨[], by simp, (s.mem.addReads_nil).symm⟩
  · split at h
    · split at h
      · cases h
        exact ⟨[], by simp, (s.mem.addReads_nil).symm⟩
      · next ei rest _ => exact hmode (s.consumePendingQ i ei rest) h
    · exact hmode s h

theorem passFtoSIMD_mem (g : Globals) (i : ℕ) (s : FeatureReader) :
    ∃ l, (s.passFtoSIMD g i).2.mem = s.mem.addReads l := by
  unfold passFtoSIMD
  split
  · exact ⟨[], (s.mem.addReads_nil).symm⟩
  · next next rest _ =>
    have hmem : (if next = 1 then (true, s) else s.access g next).2.mem = s.mem := by
      split <;> rfl
    generalize (if next = 1 then (true, s) else s.access g next) = t at hmem
    dsimp only
    rw [← hmem]
    split
    · refine ⟨[], ?_⟩
      rw [Memory.addReads_nil]
      split <;> rfl
    · exact ⟨_, request_mem _ next⟩

end FeatureReader

/-- A reply is sorted into one of the reply queues. -/
theorem readCompleteCallback_frame {m m' : Memory} {address : ℕ}
    (h : m.readCompleteCallback g address = some m') :
    m'.tq = m.tq ∧ m'.oAccess = m.oAccess ∧
      m'.fq = m.fq ++ if g.archInfo.xwEleAddrStart ≤ address then [address] else [] := by
  unfold Memory.readCompleteCallback at h
  dsimp only at h
  split at h
  · next hgraph =>
    split at h
    · cases h
      exact ⟨rfl, rfl, by simp [hgraph.2]⟩
    · cases h
  · split at h
    · next hge =>
      cases h
      exact ⟨rfl, rfl, by simp [hge]⟩
    · next hlt =>
      cases h
      exact ⟨rfl, rfl, by simp [hlt]⟩

/-! ## Calls for an engine -/

/-- What a call for engine `i` does: its unit's part, or nothing when the guard around it or
the unit itself has nothing to do. -/
inductive CallEffect (g : Globals) (i : ℕ) (c : Controller) : EngineCall → Controller → Prop where
  | skip (k : EngineCall) : CallEffect g i c k c
  | vertexRequest : CallEffect g i c .vertexRequest
      (c.setGr i ((c.gr i).vertexRequest g i c.fr.mem).1 ((c.gr i).vertexRequest g i c.fr.mem).2)
  | edgeRequest : CallEffect g i c .edgeRequest
      (c.setGr i ((c.gr i).edgeRequest g i c.fr.mem).1 ((c.gr i).edgeRequest g i c.fr.mem).2)
  | graphReceive : CallEffect g i c .graphReceive
      (c.setGr i ((c.gr i).graphReceive g i (c.fr.mem.getGraph i).1) (c.fr.mem.getGraph i).2)
  | noFeature {r : GraphReader} : (c.gr i).nextFeature g i = some (r, none) →
      CallEffect g i c .nextFeature (c.setGr i r c.fr.mem)
  | nextFeature {r : GraphReader} {ei : EdgeInfo} : (c.gr i).nextFeature g i = some (r, some ei) →
      CallEffect g i c .nextFeature
        { c with gr := Function.update c.gr i r, fr := c.fr.enterFtoList ei }
  | readNext {fr : FeatureReader} : c.fr.readNext g i = some fr →
      CallEffect g i c .readNext { c with fr := fr }
  | passFtoSIMD : CallEffect g i c .passFtoSIMD
      { c with
        fr := (c.fr.passFtoSIMD g i).2
        si := Function.update c.si i ((c.si i).getFeature g (c.fr.passFtoSIMD g i).1) }
  | write {a : ℕ} {rest : List ℕ} : (c.si i).wq = a :: rest →
      c.fr.mem.willAcceptTransaction = true →
      CallEffect g i c .write
        { c with
          si := Function.update c.si i { c.si i with wq := rest }
          fr := { c.fr with mem := c.fr.mem.addTransaction ⟨a, true⟩ } }

theorem call_effect {k : EngineCall} (hcall : c.call g i k = some c') : CallEffect g i c k c' := by
  cases k with
  | vertexRequest =>
    simp only [Controller.call] at hcall
    split at hcall <;> cases hcall
    · exact .skip _
    · exact .vertexRequest
  | edgeRequest =>
    simp only [Controller.call] at hcall
    split at hcall <;> cases hcall
    · exact .skip _
    · exact .edgeRequest
  | graphReceive =>
    simp only [Controller.call] at hcall
    split at hcall <;> cases hcall
    · exact .skip _
    · exact .graphReceive
  | nextFeature =>
    simp only [Controller.call] at hcall
    split at hcall
    · cases hcall
      exact .skip _
    · split at hcall
      · cases hcall
      · next r hnext =>
        cases hcall
        exact .noFeature hnext
      · next r ei hnext =>
        cases hcall
        exact .nextFeature hnext
  | readNext =>
    simp only [Controller.call, Option.map_eq_some_iff] at hcall
    obtain ⟨fr, hfr, rfl⟩ := hcall
    exact .readNext hfr
  | passFtoSIMD =>
    simp only [Controller.call, Option.some.injEq] at hcall
    subst hcall
    exact .passFtoSIMD
  | write =>
    -- a unit that does not write is put back as it was
    have hsame : { c with si := Function.update c.si i (c.si i) } = c := by
      rw [Function.update_eq_self]
    simp only [Controller.call, Option.some.injEq, Simd.write] at hcall
    subst hcall
    split
    · rw [hsame]
      exact .skip _
    · next a rest hwq =>
      split
      · next hacc => exact .write hwq hacc
      · rw [hsame]
        exact .skip _

/-- What every call but `Write` does outside the units. -/
structure CallFrame (c c' : Controller) : Prop where
  dram_eq : c'.dram = c.dram
  totalWrite_eq : c'.totalWrite = c.totalWrite
  tq_eq : ∃ l : List ℕ, c'.fr.mem.tq = c.fr.mem.tq ++ l.map fun a => ⟨a, false⟩
  fq_eq : c'.fr.mem.fq = c.fr.mem.fq
  oAccess_eq : c'.fr.mem.oAccess = c.fr.mem.oAccess
  rq_suffix : ∀ j, c'.fr.mem.rq j <:+ c.fr.mem.rq j

theorem CallFrame.refl (c : Controller) : CallFrame c c :=
  ⟨rfl, rfl, ⟨[], by simp⟩, rfl, rfl, fun _ => List.suffix_rfl⟩

theorem CallFrame.of_addReads (hdram : c'.dram = c.dram) (htotal : c'.totalWrite = c.totalWrite)
    (hmem : ∃ l, c'.fr.mem = c.fr.mem.addReads l) : CallFrame c c' := by
  obtain ⟨l, hl⟩ := hmem
  refine ⟨hdram, htotal, ⟨l, by rw [hl]; rfl⟩, by rw [hl]; rfl, by rw [hl]; rfl, fun j => ?_⟩
  rw [hl]
  exact List.suffix_rfl

theorem call_frame {call : EngineCall} (hne : call ≠ .write)
    (hcall : c.call g i call = some c') : CallFrame c c' := by
  cases call_effect hcall with
  | skip => exact .refl c
  | vertexRequest => exact .of_addReads rfl rfl (GraphReader.vertexRequest_mem g i _ _)
  | edgeRequest => exact .of_addReads rfl rfl (GraphReader.edgeRequest_mem g i _ _)
  | graphReceive =>
    refine ⟨rfl, rfl, ⟨[], ?_⟩, ?_, ?_, fun j => ?_⟩
    all_goals simp only [Controller.setGr, Memory.getGraph]
    · split <;> simp
    · split <;> rfl
    · split <;> rfl
    · split
      · exact List.suffix_rfl
      · next head rest hrq =>
        by_cases hj : j = i
        · subst hj
          simp [hrq]
        · simp [hj]
  | noFeature => exact ⟨rfl, rfl, ⟨[], by simp [Controller.setGr]⟩, rfl, rfl, fun _ => List.suffix_rfl⟩
  | nextFeature =>
    exact ⟨rfl, rfl, ⟨[], by simp [FeatureReader.enterFtoList]⟩, rfl, rfl, fun _ => List.suffix_rfl⟩
  | readNext hfr =>
    obtain ⟨l, -, hl⟩ := FeatureReader.readNext_mem hfr
    exact .of_addReads rfl rfl ⟨l, hl⟩
  | passFtoSIMD => exact .of_addReads rfl rfl (FeatureReader.passFtoSIMD_mem g i c.fr)
  | write => exact absurd rfl hne

/-- `Write` hands the front of the queue to the memory, or nothing. -/
theorem call_write (hcall : c.call g i .write = some c') :
    c' = c ∨ ∃ a rest, (c.si i).wq = a :: rest ∧
      c' = { c with
        si := Function.update c.si i { c.si i with wq := rest }
        fr := { c.fr with mem := c.fr.mem.addTransaction ⟨a, true⟩ } } := by
  cases call_effect hcall with
  | skip => exact .inl rfl
  | write hwq => exact .inr ⟨_, _, hwq, rfl⟩

/-- Only `PassFtoSIMD` and `Write` touch a SIMD unit. -/
theorem call_si {call : EngineCall} (hpass : call ≠ .passFtoSIMD) (hwrite : call ≠ .write)
    (hcall : c.call g i call = some c') : c'.si = c.si := by
  cases call_effect hcall with
  | passFtoSIMD => exact absurd rfl hpass
  | write => exact absurd rfl hwrite
  | _ => rfl

end Sgcn
