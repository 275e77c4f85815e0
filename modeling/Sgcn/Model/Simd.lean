-- SUMMARY: The output side of one engine (`simd.cc`).
import Sgcn.Model.Memory

/-!
# The SIMD unit

A SIMD unit turns end-of-row markers into output addresses and hands the writes
to the memory one by one.
-/

namespace Sgcn

/-- `SIMD_STAT` and the write queue of one unit. -/
structure Simd where
  axwAddrStart : ℕ
  nonzeroRow : ℕ
  curRowIdx : ℕ
  curBf : ℕ
  writeUrb : ℤ
  cnt : ℕ
  wq : List ℕ

namespace Simd

/-- `SIMD::SIMD`. -/
def init (g : Globals) (id : ℕ) : Simd where
  axwAddrStart := g.archInfo.axwAddrStart +
    ceilDiv g.dataInfo.aH g.archInfo.nOfEngine * id * g.archInfo.bf * g.archInfo.urb *
      cacheLineByte
  nonzeroRow := (g.dataIndex id).row - (g.dataIndex id).zeroRow
  curRowIdx := 0
  curBf := 1
  writeUrb := g.archInfo.urb
  cnt := 0
  wq := []

/-- The address `SIMD::GetAddress` returns when `cnt` addresses went before. The
product is an `int`. -/
def address (s : Simd) (cnt : ℕ) : ℕ := uint64 (s.axwAddrStart + int32 (cnt * cacheLineByte))

/-- One iteration of the push loop: `GetAddress` and `wq.push`. -/
def push (s : Simd) : Simd :=
  { s with wq := s.wq ++ [s.address s.cnt], cnt := s.cnt + 1 }

/-- `n` iterations of the push loop. -/
def pushes : ℕ → Simd → Simd
  | 0, s => s
  | n + 1, s => pushes n s.push

/-- `SIMD::GetFeature`. A write width that is not positive pushes nothing. -/
def getFeature (g : Globals) (f : ℤ) (s : Simd) : Simd :=
  if f = 0 then
    let s := pushes s.writeUrb.toNat s
    let s := { s with curRowIdx := s.curRowIdx + 1 }
    if s.curRowIdx = s.nonzeroRow then
      let s := { s with curRowIdx := 0, curBf := s.curBf + 1 }
      if s.curBf = g.archInfo.bf then
        { s with writeUrb := g.dataInfo.totalUrb - g.archInfo.urb * (g.archInfo.bf - 1) }
      else s
    else s
  else s

/-- `SIMD::Write`. -/
def write (s : Simd) (m : Memory) : Simd × Memory :=
  match s.wq with
  | [] => (s, m)
  | address :: rest =>
    if m.willAcceptTransaction then
      ({ s with wq := rest }, m.addTransaction ⟨address, true⟩)
    else (s, m)

end Simd

end Sgcn
