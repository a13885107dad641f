import SimpleKernel.Paging.Installing

/-! What `unmap_page` leaves behind.
It stores a word of ones, in which the present bit is set as well. The page stays mapped, to
the last frame of the address space, and cannot be mapped again.
-/

namespace SimpleKernel

open ByteMemory

variable {vm : Paging} {va physaddr : Addr} {flags : BitVec 16} {value : Word}

/-- After `map_page` and `unmap_page` all translations are as before, and the page can be
mapped again.
-/
structure Paging.Undone (vm : Paging) (physaddr virtualaddr : Addr) (flags : BitVec 16)
    : Prop where
  restored
    : (mapPage vm physaddr virtualaddr flags).1 = none
      → ∀ other : Addr,
          other.toNat < 0xFFC00000
          → getPhysaddr (unmapPage (mapPage vm physaddr virtualaddr flags).2 virtualaddr) other
            = getPhysaddr vm other
  unmapped
    : (mapPage vm physaddr virtualaddr flags).1 = none
      → ∀ off : Addr,
          off.toNat < 4096
          → getPhysaddr (unmapPage (mapPage vm physaddr virtualaddr flags).2 virtualaddr)
              (virtualaddr + off)
            = null
  remaps
    : (mapPage vm physaddr virtualaddr flags).1 = none
      → ∀ (physaddr' : Addr) (flags' : BitVec 16),
          physaddr'.toNat % 4096 = 0
          → let again :=
              mapPage (unmapPage (mapPage vm physaddr virtualaddr flags).2 virtualaddr)
                physaddr' virtualaddr flags'
            again.1 = none ∧ getPhysaddr again.2 virtualaddr = physaddr'

/-- `unmap_page` writes a word with all bits set where the entry was. -/
theorem unmapPage_eq (vm : Paging) (va : Addr) : unmapPage vm va = vm.addEntry va (~~~0) := by
  simp only [unmapPage]
  rw [Paging.store, vm.tableWindow (tablePointer_toNat va)]
  rfl

/-- A write over a word that is not present changes no present directory entry, even where
the directory serves as a table.
-/
theorem Paging.addEntry_isPresent (aligned : vm.directory.toNat % 4096 = 0)
    (lower : ¬IsPresent (vm.tableEntry va)) (value : Word) {other : Addr}
    (upper : IsPresent (vm.directoryEntry other))
    : (vm.addEntry va value).directoryEntry other = vm.directoryEntry other := by
  refine Memory.load32_store32_of_ne _ _ (vm.tableSlot_frame va).2
    (Paging.directorySlot_frame aligned other).2 ?_
  intro same
  change vm.directorySlot other = vm.tableSlot va at same
  rw [Paging.directoryEntry, same] at upper
  exact lower upper

/-- The page keeps an entry, by the slots that neither write moves. -/
theorem Paging.Recursive.unmapped_entry (recursive : vm.Recursive)
    (upper : IsPresent (vm.directoryEntry va)) (lower : ¬IsPresent (vm.tableEntry va))
    (value : Word)
    : (unmapPage (vm.addEntry va value) va).Recursive
      ∧ (unmapPage (vm.addEntry va value) va).entry va = some (~~~0) := by
  have kept {other : Addr} (isPresent : IsPresent (vm.directoryEntry other)) (value : Word)
      : (vm.addEntry va value).directoryEntry other = vm.directoryEntry other :=
    Paging.addEntry_isPresent recursive.aligned lower value isPresent
  have slot (value : Word) : (vm.addEntry va value).tableSlot va = vm.tableSlot va := by
    rw [Paging.tableSlot, kept upper, Paging.tableSlot]
  have overwritten
      : unmapPage (vm.addEntry va value) va = vm.addEntry va (~~~0) := by
    rw [unmapPage_eq, Paging.addEntry, slot]
    simp only [Paging.addEntry, Memory.store32_store32_same]
  rw [overwritten]
  refine ⟨recursive.congr rfl (kept recursive.isPresent _), ?_⟩
  rw [Paging.entry_eq_some, kept upper, Paging.tableEntry, slot]
  exact ⟨upper, by decide, Memory.load32_store32_same _ _ _⟩

/-- A page without an entry is mapped by `map_page`, into tables of which it is the only
change.
-/
theorem mapPage_of_unmapped (recursive : vm.Recursive)
    (unshared : frameNumber (getPage vm.pmm).1 ≠ frameNumber vm.directory)
    (below : va.toNat < 0xFFC00000) (alignedPage : physaddr.toNat % 4096 = 0)
    (aligned : va.toNat % 4096 = 0) (unmapped : vm.entry va = none) (flags : BitVec 16)
    : ∃ (vm' : Paging) (value : Word),
        mapPage vm physaddr va flags = (none, vm'.addEntry va value)
        ∧ vm'.Recursive
        ∧ IsPresent (vm'.directoryEntry va)
        ∧ ¬IsPresent (vm'.tableEntry va) := by
  by_cases upper : IsPresent (vm.directoryEntry va)
  · refine ⟨_, _, mapPage_of_table recursive alignedPage aligned upper unmapped flags,
      recursive, upper, fun lower => ?_⟩
    rw [Paging.entry, if_pos ⟨upper, lower⟩] at unmapped
    simp at unmapped
  · have lower : ¬IsPresent ((vm.addTable va).tableEntry va) := by
      rw [Paging.addTable_cleared recursive.aligned unshared rfl]
      decide
    have called := mapPage_eq recursive alignedPage aligned flags
    rw [Paging.withTable, if_neg upper, if_neg lower] at called
    refine ⟨_, _, called, recursive.addTable unshared below, ?_, lower⟩
    rw [Paging.addTable_directoryEntry recursive.aligned unshared, if_pos rfl]
    exact IsPresent.or_right (by decide) _

/-- A page that was mapped and unmapped cannot be mapped again. -/
theorem mapPage_of_unmapPage (recursive : vm.Recursive)
    (unshared : frameNumber (getPage vm.pmm).1 ≠ frameNumber vm.directory)
    (below : va.toNat < 0xFFC00000) (alignedPage : physaddr.toNat % 4096 = 0)
    (aligned : va.toNat % 4096 = 0) (unmapped : vm.entry va = none) (flags : BitVec 16)
    {physaddr' : Addr} (alignedAgain : physaddr'.toNat % 4096 = 0) (flags' : BitVec 16)
    : let after := unmapPage (mapPage vm physaddr va flags).2 va
      mapPage after physaddr' va flags' = (some .mapPageMappingAlreadyPresent, after) := by
  obtain ⟨vm', value, called, recursive', upper, lower⟩ :=
    mapPage_of_unmapped recursive unshared below alignedPage aligned unmapped flags
  obtain ⟨recursive'', found⟩ := recursive'.unmapped_entry upper lower value
  rw [called]
  exact mapPage_of_mapped recursive'' alignedAgain aligned found flags'

/-- Mapping a page and unmapping it never restores the tables. `unmap_page` stores an entry of
all ones, whose present bit is set, so the page stays mapped, to the frame at `0xFFFFF000`.
-/
theorem unmapPage_not_undone (recursive : vm.Recursive)
    (unshared : frameNumber (getPage vm.pmm).1 ≠ frameNumber vm.directory)
    (below : va.toNat < 0xFFC00000) (alignedPage : physaddr.toNat % 4096 = 0)
    (aligned : va.toNat % 4096 = 0) (unmapped : vm.entry va = none) (flags : BitVec 16)
    : ¬vm.Undone physaddr va flags := by
  intro undone
  obtain ⟨vm', value, called, recursive', upper, lower⟩ :=
    mapPage_of_unmapped recursive unshared below alignedPage aligned unmapped flags
  obtain ⟨recursive'', found⟩ := recursive'.unmapped_entry upper lower value
  have restored := undone.restored (by rw [called]) va below
  rw [called, getPhysaddr_eq recursive, unmapped] at restored
  exact getPhysaddr_ne_null recursive'' found (by decide) restored

/-- The tables differ after a mapping and its removal. Witness: the page of the heap's first
header, in a table that `map_page` adds.
-/
theorem unmapPage_not_undone_heapPage : ¬kernelTables.Undone 0x200000 0xE0000000 0x103 :=
  unmapPage_not_undone kernelTables_recursive kernelTables_fresh.directory (by decide)
    (by decide) (by decide) (by decide +kernel) 0x103

/-- `unmap_page` does not undo `map_page`. Witness: the page of the text screen, which cannot
be mapped again.
-/
theorem not_undone_screen
    : ¬∀ (vm : Paging) (physaddr virtualaddr : Addr) (flags : BitVec 16),
        vm.Recursive
        → vm.TablesDistinct
        → vm.pmm.CacheFree
        → vm.FreshFrame
        → virtualaddr.toNat < 0xFFC00000
        → virtualaddr.toNat % 4096 = 0
        → physaddr.toNat % 4096 = 0
        → vm.entry virtualaddr = none
        → vm.Undone physaddr virtualaddr flags := by
  intro claim
  have undone := claim kernelTables 0xB8000 0xC03FE000 0x103 kernelTables_recursive
    kernelTables_distinct ⟨by decide, by decide⟩ kernelTables_fresh (by decide) (by decide)
    (by decide) (by decide +kernel)
  have restored := undone.restored (by decide +kernel) 0xC03FE000 (by decide)
  exact absurd restored (by decide +kernel)

end SimpleKernel
