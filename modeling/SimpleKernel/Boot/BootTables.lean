import SimpleKernel.Boot.Setup
import SimpleKernel.Paging.Installing

/-! The page tables that `boot.S` builds before it turns paging on.
One table maps the pages of the kernel, read-only up to the end of its code. It is entered
in slots 0 and 768, and slot 0 is cleared once the kernel runs at its virtual address.
-/

namespace SimpleKernel

open ByteMemory

variable {vm : Paging} {kernelEnd nowriteEnd directory table : Addr} {m : Memory}

/-- The loop at label 1, with the counter of `loop`. The comparisons are signed. -/
def enterKernelPages (nowriteEnd kernelEnd : Addr) : Nat → Addr → Addr → Memory → Memory
  | 0, _, _, m => m
  | rounds + 1, esi, edi, m =>
      if esi.slt kernelStart then
        enterKernelPages nowriteEnd kernelEnd rounds (esi + 4096) (edi + 4) m
      else if !esi.slt kernelEnd then m
      else
        let flags : Word := if !esi.slt nowriteEnd then 0x103 else 0x101
        enterKernelPages nowriteEnd kernelEnd rounds (esi + 4096) (edi + 4)
          (m.store32 edi (esi ||| flags))

/-- The tables when the kernel is entered. The loop at label 5 ends before its first store.
-/
def bootPaging (directory table nowriteEnd kernelEnd : Addr) (m : Memory) (pmm : Pmm)
    : Paging where
  directory := directory
  phys :=
    (enterKernelPages nowriteEnd kernelEnd 1023 0 table m)
      |>.store32 directory (table + 0x3)
      |>.store32 (directory + 768 * 4) (table + 0x3)
      |>.store32 (directory + 1023 * 4) (directory ||| 0x3)
      |>.store32 directory 0
  pmm := pmm

/-- A physical address in one of the kernel's pages. -/
def InKernel (kernelEnd x : Addr) : Prop :=
  0x100000 ≤ x.toNat ∧ x.toNat < 0x100000 + 4096 * (kernelPageCount kernelEnd).toNat

/-- One table maps the kernel's pages, and nothing else, at `0xC0000000` plus their address. -/
structure MapsKernel (kernelEnd : Addr) (vm : Paging) : Prop where
  recursive : vm.Recursive
  distinct : vm.TablesDistinct
  table : IsPresent (vm.directoryEntry 0xC0000000)
  kernel : ∀ x, InKernel kernelEnd x → getPhysaddr vm (0xC0000000 + x) = x
  nothingElse
    : ∀ x : Addr,
        x.toNat < 0x400000 → ¬InKernel kernelEnd x → vm.entry (0xC0000000 + x) = none

/-- What the table holds at index `j` after the loop. -/
def bootEntry (nowriteEnd : Addr) (j : Nat) : Word :=
  let page := BitVec.ofNat 32 (4096 * j)
  page ||| if !page.slt nowriteEnd then 0x103 else 0x101

/-- An entry of the boot table is present, as bit 0 is set in both of its forms. -/
theorem bootEntry_isPresent (nowriteEnd : Addr) (j : Nat)
    : IsPresent (bootEntry nowriteEnd j) := by
  refine IsPresent.or_right ?_ _
  split <;> decide

/-- It names the page it was made for: the flags lie below the frame. -/
theorem frameOf_bootEntry (nowriteEnd : Addr) (j : Nat)
    : frameOf (bootEntry nowriteEnd j) = BitVec.ofNat 32 (4096 * j) := by
  refine frameOf_or (by bv_omega) ?_
  split <;> decide

/-- The first four MiB behind 0xC0000000 are the pages of one table. -/
theorem kernelSlot {x : Addr} (small : x.toNat < 0x400000)
    : (0xC0000000 + x).toNat / 4194304 = 768
      ∧ (0xC0000000 + x).toNat / 4096 % 1024 = x.toNat / 4096 := by
  have sum : (0xC0000000 + x).toNat = 0xC0000000 + x.toNat := by bv_omega
  omega

/-- The entry of a page of that table leads to the address itself. -/
theorem bootEntry_translates (nowriteEnd : Addr) {x : Addr} (small : x.toNat < 0x400000)
    : frameOf (bootEntry nowriteEnd (x.toNat / 4096))
        ||| (0xC0000000 + x &&& 0b111111111111#32)
      = x := by
  rw [frameOf_bootEntry]
  have offset : (0xC0000000 + x &&& 0b111111111111#32).toNat = x.toNat % 4096 := by
    rw [pageOffset_toNat]
    bv_omega
  apply BitVec.eq_of_toNat_eq
  rw [Masks.toNat_or_low 12 (by bv_omega) (by omega), offset]
  bv_omega

/-- The loop of `boot.S` compares with signed jumps, which agree with the unsigned order on
addresses below 2 GiB.
-/
theorem slt_iff {a b : Addr} (smallA : a.toNat < 2 ^ 31) (smallB : b.toNat < 2 ^ 31)
    : a.slt b = true ↔ a.toNat < b.toNat := by
  have first := BitVec.toInt_eq_toNat_of_lt (x := a) (by omega)
  have second := BitVec.toInt_eq_toNat_of_lt (x := b) (by omega)
  rw [BitVec.slt_iff_toInt_lt, first, second]
  omega

/-- The loop from index `n` on enters the kernel's pages. By induction on the rounds. -/
theorem enterKernelPages_slot (nowriteEnd : Addr) (alignedTable : table.toNat % 4096 = 0)
    (stop : kernelEnd.toNat ≤ 0x40000000) (rounds n : Nat) (m : Memory)
    (inside : n + rounds ≤ 1024) {j : Nat} (small : j < 1024)
    : (enterKernelPages nowriteEnd kernelEnd rounds (BitVec.ofNat 32 (4096 * n))
          (table + BitVec.ofNat 32 (4 * n)) m).load32 (table + BitVec.ofNat 32 (4 * j))
      = if n ≤ j ∧ j < n + rounds ∧ 256 ≤ j ∧ 4096 * j < kernelEnd.toNat then
          bootEntry nowriteEnd j
        else m.load32 (table + BitVec.ofNat 32 (4 * j)) := by
  induction rounds generalizing n m with
  | zero =>
      rw [if_neg (by omega)]
      rfl
  | succ rounds ih =>
      have esi : BitVec.ofNat 32 (4096 * n) + 4096 = BitVec.ofNat 32 (4096 * (n + 1)) := by
        bv_omega
      have edi
          : table + BitVec.ofNat 32 (4 * n) + 4 = table + BitVec.ofNat 32 (4 * (n + 1)) := by
        bv_omega
      have position : (BitVec.ofNat 32 (4096 * n)).toNat = 4096 * n := by bv_omega
      have before := slt_iff (a := BitVec.ofNat 32 (4096 * n)) (b := kernelStart) (by omega)
        (by decide)
      have past := slt_iff (a := BitVec.ofNat 32 (4096 * n)) (b := kernelEnd) (by omega)
        (by omega)
      rw [position] at before past
      rw [enterKernelPages, esi, edi]
      split
      · next skipped =>
        rw [ih (n + 1) m (by omega)]
        have low := before.mp skipped
        rw [show BitVec.toNat kernelStart = 0x100000 from rfl] at low
        exact if_congr (by omega) rfl rfl
      · next reached =>
        have low : 0x100000 ≤ 4096 * n := by
          have ge := mt before.mpr reached
          rw [show BitVec.toNat kernelStart = 0x100000 from rfl] at ge
          omega
        split
        · next done =>
          have high : kernelEnd.toNat ≤ 4096 * n := by
            have ge := mt past.mpr (by simpa using done)
            omega
          exact (if_neg (by omega)).symm
        · next inside =>
          have high : 4096 * n < kernelEnd.toNat := past.mp (by simpa using inside)
          refine (ih (n + 1)
            (m.store32 (table + BitVec.ofNat 32 (4 * n)) (bootEntry nowriteEnd n))
            (by omega)).trans ?_
          by_cases same : j = n
          · subst same
            rw [if_neg (by omega), if_pos (by omega)]
            exact Memory.load32_store32_same _ _ _
          · rw [Memory.load32_store32_of_ne _ _ (by bv_omega) (by bv_omega) (by bv_omega)]
            exact if_congr (by omega) rfl rfl

/-- Words outside the table stay. -/
theorem enterKernelPages_outside (nowriteEnd kernelEnd : Addr)
    (alignedTable : table.toNat % 4096 = 0) (rounds n : Nat) (m : Memory)
    (inside : n + rounds ≤ 1024)
    {slot : Addr} (alignedSlot : slot.toNat % 4 = 0)
    (outside : frameNumber slot ≠ frameNumber table) (esi : Addr)
    : (enterKernelPages nowriteEnd kernelEnd rounds esi
          (table + BitVec.ofNat 32 (4 * n)) m).load32 slot
      = m.load32 slot := by
  induction rounds generalizing n m esi with
  | zero => rfl
  | succ rounds ih =>
      have edi
          : table + BitVec.ofNat 32 (4 * n) + 4 = table + BitVec.ofNat 32 (4 * (n + 1)) := by
        bv_omega
      have ne : slot ≠ table + BitVec.ofNat 32 (4 * n) := by
        intro same
        rw [same] at outside
        simp only [frameNumber] at outside
        bv_omega
      rw [enterKernelPages, edi]
      split
      · exact ih (n + 1) m (by omega) _
      · split
        · rfl
        · exact (ih (n + 1) _ (by omega) _).trans
            (Memory.load32_store32_of_ne _ _ (by bv_omega) alignedSlot ne)

/-- Two frames, cleared by the loader, for the directory and the table. -/
structure ClearedTables (directory table : Addr) (m : Memory) : Prop where
  alignedDirectory : directory.toNat % 4096 = 0
  alignedTable : table.toNat % 4096 = 0
  apart : frameNumber table ≠ frameNumber directory
  directory : ∀ x : Addr, frameNumber x = frameNumber directory → m x = 0
  table : ∀ x : Addr, frameNumber x = frameNumber table → m x = 0

/-- An aligned word in a frame of zeros. -/
theorem load32_of_zeros {slot : Addr} (aligned : slot.toNat % 4 = 0)
    (zeros : ∀ x : Addr, frameNumber x = frameNumber slot → m x = 0)
    : m.load32 slot = 0 := by
  have byte (k : Addr) (small : k.toNat < 4) : m (slot + k) = 0 := by
    apply zeros
    simp only [frameNumber]
    bv_omega
  simp only [Memory.load32, byte 3 (by decide), byte 2 (by decide), byte 1 (by decide),
    zeros slot rfl]
  rfl

/-- The addition in `boot.S` sets the flag bits, because the table is page-aligned. -/
theorem ClearedTables.table_or (cleared : ClearedTables directory table m)
    : table + 0x3 = table ||| 0x3 := by
  apply BitVec.eq_of_toNat_eq
  have alignedTable := cleared.alignedTable
  rw [Masks.toNat_or_low 12 alignedTable (by decide)]
  bv_omega

section Boot

variable (cleared : ClearedTables directory table m) (nowriteEnd kernelEnd : Addr) (pmm : Pmm)
include cleared

/-- The directory behind `boot.S`: the kernel's table in slot 768, the directory itself in the
last one, and nothing elsewhere once the identity mapping is taken back.
-/
theorem bootPaging_directoryEntry (va : Addr)
    : (bootPaging directory table nowriteEnd kernelEnd m pmm).directoryEntry va
      = if va.toNat / 4194304 = 0 then 0
        else if va.toNat / 4194304 = 1023 then directory ||| 0x3
        else if va.toNat / 4194304 = 768 then table + 0x3
        else 0 := by
  have aligned := cleared.alignedDirectory
  have outside {slot : Addr} (alignedSlot : slot.toNat % 4 = 0)
      (frame : frameNumber slot = frameNumber directory)
      : (enterKernelPages nowriteEnd kernelEnd 1023 0 table m).load32 slot = 0 := by
    have kept := enterKernelPages_outside nowriteEnd kernelEnd cleared.alignedTable 1023 0 m
      (by decide) alignedSlot (by rw [frame]; exact cleared.apart.symm) 0
    rw [Nat.mul_zero, BitVec.ofNat_eq_ofNat, BitVec.add_zero] at kept
    exact kept.trans (load32_of_zeros alignedSlot
      (fun x same => cleared.directory x (same.trans frame)))
  rw [bootPaging]
  generalize enterKernelPages nowriteEnd kernelEnd 1023 0 table m = filled at outside ⊢
  let built : Paging := ⟨directory, filled, pmm⟩
  -- the four stores are at the slots of these addresses
  have stores
      : ⟨directory,
            ((((filled.store32 directory (table + 0x3)).store32 (directory + 768 * 4)
              (table + 0x3)).store32 (directory + 1023 * 4) (directory ||| 0x3)).store32
                directory 0),
            pmm⟩
        = (((built.setDirectoryEntry 0 (table + 0x3)).setDirectoryEntry 0xC0000000
            (table + 0x3)).setDirectoryEntry 0xFFC00000 (directory ||| 0x3)).setDirectoryEntry
              0 0 := by
    simp only [Paging.setDirectoryEntry, Paging.directorySlot, built]
    rw [show directory + 4#32 * ((0 : Addr) >>> 22) = directory from BitVec.add_zero directory]
    rfl
  have alignedBuilt : built.directory.toNat % 4096 = 0 := aligned
  obtain ⟨frame, alignedSlot⟩ := Paging.directorySlot_frame alignedBuilt va
  have untouched : built.directoryEntry va = 0 := outside alignedSlot frame
  rw [stores, Paging.setDirectoryEntry_directoryEntry aligned,
    Paging.setDirectoryEntry_directoryEntry aligned,
    Paging.setDirectoryEntry_directoryEntry aligned,
    Paging.setDirectoryEntry_directoryEntry aligned, untouched,
    show BitVec.toNat (0 : Addr) / 4194304 = 0 from rfl,
    show BitVec.toNat (0xFFC00000 : Addr) / 4194304 = 1023 from rfl,
    show BitVec.toNat (0xC0000000 : Addr) / 4194304 = 768 from rfl]
  grind

/-- Only slots 768 and 1023 are present. -/
theorem bootPaging_named {va : Addr}
    (isPresent
      : IsPresent
          ((bootPaging directory table nowriteEnd kernelEnd m pmm).directoryEntry va))
    : va.toNat / 4194304 = 1023
        ∧ frameNumber
            ((bootPaging directory table nowriteEnd kernelEnd m pmm).directoryEntry va)
          = frameNumber directory
      ∨ va.toNat / 4194304 = 768
        ∧ frameNumber
            ((bootPaging directory table nowriteEnd kernelEnd m pmm).directoryEntry va)
          = frameNumber table := by
  rw [bootPaging_directoryEntry cleared] at isPresent ⊢
  split
  · next slot =>
    rw [if_pos slot] at isPresent
    exact absurd rfl isPresent
  · next first =>
    rw [if_neg first] at isPresent
    split
    · next slot =>
      rw [← frameNumber_frameOf, frameOf_or cleared.alignedDirectory (by decide)]
      exact Or.inl ⟨slot, rfl⟩
    · next second =>
      rw [if_neg second] at isPresent
      split
      · next slot =>
        rw [cleared.table_or, ← frameNumber_frameOf,
          frameOf_or cleared.alignedTable (by decide)]
        exact Or.inr ⟨slot, rfl⟩
      · next third =>
        rw [if_neg third] at isPresent
        exact absurd rfl isPresent

/-- The table behind `boot.S` maps the pages from 1 MiB to the end of the kernel, and nothing
else.
-/
theorem bootPaging_tableEntry (stop : kernelEnd.toNat ≤ 0x3FF000) {va : Addr}
    (slot : va.toNat / 4194304 = 768)
    : (bootPaging directory table nowriteEnd kernelEnd m pmm).tableEntry va
      = if 256 ≤ va.toNat / 4096 % 1024 ∧ 4096 * (va.toNat / 4096 % 1024) < kernelEnd.toNat then
          bootEntry nowriteEnd (va.toNat / 4096 % 1024)
        else 0 := by
  have alignedTable := cleared.alignedTable
  have alignedDirectory := cleared.alignedDirectory
  have apart := cleared.apart
  have upper := bootPaging_directoryEntry cleared nowriteEnd kernelEnd pmm va
  rw [if_neg (by omega), if_neg (by omega), if_pos slot] at upper
  have named : frameOf (table + 0x3) = table := by
    rw [cleared.table_or, frameOf_or alignedTable (by decide)]
  have position
      : (bootPaging directory table nowriteEnd kernelEnd m pmm).tableSlot va
        = table + BitVec.ofNat 32 (4 * (va.toNat / 4096 % 1024)) := by
    apply BitVec.eq_of_toNat_eq
    rw [Paging.tableSlot_toNat, upper, named]
    bv_omega
  have index : va.toNat / 4096 % 1024 < 1024 := Nat.mod_lt _ (by decide)
  rw [Paging.tableEntry, position]
  generalize va.toNat / 4096 % 1024 = j at index ⊢
  have entered := enterKernelPages_slot nowriteEnd alignedTable
    (show kernelEnd.toNat ≤ 0x40000000 by omega) 1023 0 m (by decide) index
  have zero : m.load32 (table + BitVec.ofNat 32 (4 * j)) = 0 := by
    refine load32_of_zeros (by bv_omega) (fun x same => cleared.table x (same.trans ?_))
    simp only [frameNumber]
    bv_omega
  rw [Nat.mul_zero, BitVec.add_zero, zero] at entered
  -- the stores to the directory are in another frame
  have word : (table + BitVec.ofNat 32 (4 * j)).toNat % 4 = 0 := by bv_omega
  have other {slot : Addr} (offset : (slot - directory).toNat < 4096)
      : table + BitVec.ofNat 32 (4 * j) ≠ slot := by
    intro same
    subst same
    simp only [frameNumber] at apart
    bv_omega
  rw [bootPaging, Memory.load32_store32_of_ne _ _ (by omega) word (other (by simp)),
    Memory.load32_store32_of_ne _ _ (by bv_omega) word (other (by bv_omega)),
    Memory.load32_store32_of_ne _ _ (by bv_omega) word (other (by bv_omega)),
    Memory.load32_store32_of_ne _ _ (by omega) word (other (by simp))]
  refine entered.trans (if_congr ?_ rfl rfl)
  omega

/-- The tables of `boot.S` map the kernel's pages and nothing else. -/
theorem bootPaging_mapsKernel (image : KernelImage kernelEnd)
    (stop : kernelEnd.toNat ≤ 0x3FF000)
    : MapsKernel kernelEnd (bootPaging directory table nowriteEnd kernelEnd m pmm) := by
  have directoryEntry := bootPaging_directoryEntry cleared nowriteEnd kernelEnd pmm
  have tableEntry (va : Addr) (slot : va.toNat / 4194304 = 768) :=
    bootPaging_tableEntry cleared nowriteEnd kernelEnd pmm stop slot
  have named (va : Addr) := @bootPaging_named _ _ _ cleared nowriteEnd kernelEnd pmm va
  have placed : (bootPaging directory table nowriteEnd kernelEnd m pmm).directory = directory :=
    rfl
  generalize bootPaging directory table nowriteEnd kernelEnd m pmm = vm
    at directoryEntry tableEntry named placed ⊢
  have pages := image.kernelPageCount
  have isTable : IsPresent (table + 0x3) := by
    rw [cleared.table_or]
    exact IsPresent.or_right (by decide) _
  have isDirectory : IsPresent (directory ||| 0x3) := IsPresent.or_right (by decide) _
  have directoryFrame : frameOf (directory ||| 0x3) = directory :=
    frameOf_or cleared.alignedDirectory (by decide)
  have last : vm.directoryEntry 0xFFC00000 = directory ||| 0x3 := directoryEntry 0xFFC00000
  have upper {x : Addr} (small : x.toNat < 0x400000)
      : vm.directoryEntry (0xC0000000 + x) = table + 0x3 := by
    have slot := (kernelSlot small).1
    rw [directoryEntry, if_neg (by omega), if_neg (by omega), if_pos slot]
  have recursive : vm.Recursive := by
    refine ⟨by rw [placed]; exact cleared.alignedDirectory, ?_, ?_⟩
    · rw [last]
      exact isDirectory
    · rw [last, placed, directoryFrame]
  refine {
    recursive := recursive
    distinct := fun va other one two same => ?_
    table := ?_
    kernel := fun x inside => ?_
    nothingElse := fun x small outside => ?_
  }
  · have apart := cleared.apart
    rcases named va one with first | first
    · rcases named other two with second | second
      · rw [first.1, second.1]
      · omega
    · rcases named other two with second | second
      · omega
      · rw [first.1, second.1]
  · rw [show vm.directoryEntry 0xC0000000 = table + 0x3 from directoryEntry 0xC0000000]
    exact isTable
  · have small : x.toNat < 0x400000 := by
      have stop := inside.2
      omega
    have slot := kernelSlot small
    have mapped : vm.tableEntry (0xC0000000 + x) = bootEntry nowriteEnd (x.toNat / 4096) := by
      rw [tableEntry _ slot.1, slot.2, if_pos]
      have low := inside.1
      have high := inside.2
      omega
    have found := Paging.entry_eq_some.mpr
      ⟨(upper small).symm ▸ isTable, bootEntry_isPresent nowriteEnd _, mapped⟩
    rw [getPhysaddr_eq recursive, found]
    exact bootEntry_translates nowriteEnd small
  · have slot := kernelSlot small
    have unmapped : vm.tableEntry (0xC0000000 + x) = 0 := by
      rw [tableEntry _ slot.1, slot.2, if_neg]
      intro inside
      exact outside ⟨by omega, by omega⟩
    refine if_neg fun both => ?_
    rw [unmapped] at both
    exact both.2 rfl

end Boot

end SimpleKernel
