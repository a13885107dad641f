import SimpleKernel.Boot.KernelMain
import SimpleKernel.Paging.AddressSpace

/-! Pages and frames after boot.
The tables that `kernel_main` leaves are fit for any further calls of the allocator and of
`map_page` and `unmap_page`. These hand out RAM that the boot loader reported, and take no
page away from the kernel unless they are told to unmap it.
-/

namespace SimpleKernel

open ByteMemory Runs

variable {vm : Paging} {ram m : Memory} {mbh : MultibootInfo} {pmm pmm₀ : Pmm}
  {kernelEnd nowriteEnd directory table va other : Addr} {magic : Word} {limit : Nat}

/-- The window shows the directory and no other table. -/
theorem Paging.Recursive.windowFrame (recursive : vm.Recursive) (window : 0xFFC00000 ≤ va.toNat)
    : frameNumber (vm.directoryEntry va) = frameNumber vm.directory := by
  have high := va.isLt
  have index : va.toNat / 4194304 = BitVec.toNat (0xFFC00000 : Addr) / 4194304 := by
    change _ = 0xFFC00000 / 4194304
    omega
  rw [Paging.directoryEntry, vm.directorySlot_congr index, ← frameNumber_frameOf]
  exact congrArg frameNumber recursive.itself

/-- With a single table beside the directory, none is named twice. -/
theorem Paging.Confined.tablesDistinct (confined : vm.Confined limit) : vm.TablesDistinct := by
  intro va other upper upper' same
  rcases Nat.lt_or_ge va.toNat 0xFFC00000 with below | window
  · obtain ⟨slot, notDirectory, _⟩ := confined.tables va below upper
    rcases Nat.lt_or_ge other.toNat 0xFFC00000 with below' | window'
    · exact slot.trans (confined.tables other below' upper').1.symm
    · exact absurd (same.trans (confined.recursive.windowFrame window')) notDirectory
  · rcases Nat.lt_or_ge other.toNat 0xFFC00000 with below' | window'
    · obtain ⟨_, notDirectory, _⟩ := confined.tables other below' upper'
      exact absurd (same.symm.trans (confined.recursive.windowFrame window)) notDirectory
    · have high := va.isLt
      have high' := other.isLt
      omega

/-- A page that is mapped with a table of its own, and unmapped. -/
def mappingCalls : List PagingCall :=
  [.getPage, .mapPage 0x107000 0xE0000000 0x103, .unmapPage 0xE0000000, .getPage]

end SimpleKernel
