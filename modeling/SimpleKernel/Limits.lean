import SimpleKernel.Library.ByteMemory

/-! Shared constants and the rounding helper of the i386 port. -/

namespace SimpleKernel

open ByteMemory

abbrev pageSize : Word := 4096

abbrev kb : Word := 1024

abbrev mb : Word := kb * 1024

abbrev gb : Word := mb * 1024

abbrev null : Addr := 0

theorem pageSize_toNat : pageSize.toNat = 4096 := rfl

theorem eight_toNat : BitVec.toNat (8 : Word) = 8 := rfl

def divCeil (a b : Word) : Word :=
  (a + b - 1) / b

/-- Rounding up is exact as long as the sum it forms does not wrap. -/
theorem divCeil_toNat {a b : Word} (positive : 0 < b.toNat)
    (bounded : a.toNat + b.toNat ≤ 2 ^ 32)
    : (divCeil a b).toNat = (a.toNat + b.toNat - 1) / b.toNat := by
  have sum : (a + b - 1).toNat = a.toNat + b.toNat - 1 := by bv_omega
  rw [divCeil, BitVec.toNat_udiv, sum]

end SimpleKernel
