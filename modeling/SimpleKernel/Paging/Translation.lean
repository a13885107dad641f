import SimpleKernel.Paging.Tables

/-! Translation through the recursive slot.
As long as slot 1023 of the directory names the directory itself, the window addresses that
the source forms reach the directory entry and the table entry of the address in question.
-/

namespace SimpleKernel

open ByteMemory

variable {vm : Paging} {va : Addr}

def frameOf (entry : Word) : Addr :=
  entry &&& ~~~0b111111111111#32

def IsPresent (entry : Word) : Prop :=
  entry &&& 1 ≠ 0

instance (entry : Word) : Decidable (IsPresent entry) :=
  inferInstanceAs (Decidable (_ ≠ _))

/-- The frame of an entry is its upper 20 bits. -/
theorem frameOf_toNat (entry : Word) : (frameOf entry).toNat = entry.toNat / 4096 * 4096 :=
  Masks.toNat_and_high entry 12 (by decide)

theorem frameOf_aligned (entry : Word) : (frameOf entry).toNat % 4096 = 0 := by
  rw [frameOf_toNat]
  omega

/-- The flags do not count for the frame number. -/
theorem frameNumber_frameOf (entry : Word)
    : frameNumber (frameOf entry) = frameNumber entry := by
  rw [frameNumber, frameOf_toNat, frameNumber]
  omega

/-- An entry made of an aligned frame and flags names that frame. -/
theorem frameOf_or {page flags : Word} (aligned : page.toNat % 4096 = 0)
    (small : flags.toNat < 4096)
    : frameOf (page ||| flags) = page := by
  apply BitVec.eq_of_toNat_eq
  rw [frameOf_toNat, Masks.toNat_or_low 12 aligned small]
  omega

/-- The present flag is bit 0. -/
theorem isPresent_iff (entry : Word) : IsPresent entry ↔ entry.getLsbD 0 = true := by
  have bit := Masks.and_bit_ne_zero entry (show 0 < 32 by decide)
  rw [← bit, bne_iff_ne]
  rfl

/-- It stays set in a disjunction. -/
theorem IsPresent.or_right {flags : Word} (isPresent : IsPresent flags) (page : Word)
    : IsPresent (page ||| flags) := by
  rw [isPresent_iff] at isPresent ⊢
  rw [BitVec.getLsbD_or, isPresent, Bool.or_true]

theorem pageOffset_toNat (va : Addr) : (va &&& 0b111111111111#32).toNat = va.toNat % 4096 :=
  Masks.toNat_and_low va 12 (by decide)

/-- The table index of an address: bits 12 to 21. -/
theorem tableIndex_toNat (va : Addr)
    : (va >>> 12 &&& 0b1111111111#32).toNat = va.toNat / 4096 % 1024 := by
  have field := Masks.toNat_and_low (va >>> 12) 10 (by decide)
  rw [show 2 ^ 10 - 1 = 1023 from rfl, show 2 ^ 10 = 1024 from rfl] at field
  rw [show (0b1111111111#32 : Word) = BitVec.ofNat 32 1023 from rfl, field,
    BitVec.toNat_ushiftRight, Nat.shiftRight_eq_div_pow]

/-- The slot of an address in the directory stands for 4 MiB. -/
theorem directoryIndex_toNat (va : Addr) : (va >>> 22).toNat = va.toNat / 4194304 := by
  rw [BitVec.toNat_ushiftRight, Nat.shiftRight_eq_div_pow]

-----------------------------------------------------------------------------------------
-- Slots
-----------------------------------------------------------------------------------------

/-- The physical address of the directory entry of `va`. -/
def Paging.directorySlot (vm : Paging) (va : Addr) : Addr :=
  vm.directory + 4#32 * (va >>> 22)

def Paging.directoryEntry (vm : Paging) (va : Addr) : Word :=
  vm.phys.load32 (vm.directorySlot va)

/-- The physical address of the table entry of `va`. -/
def Paging.tableSlot (vm : Paging) (va : Addr) : Addr :=
  frameOf (vm.directoryEntry va) + 4#32 * (va >>> 12 &&& 0b1111111111#32)

def Paging.tableEntry (vm : Paging) (va : Addr) : Word :=
  vm.phys.load32 (vm.tableSlot va)

/-- The entry that maps the page of `va`, if both levels are present. -/
def Paging.entry (vm : Paging) (va : Addr) : Option Word :=
  if IsPresent (vm.directoryEntry va) ∧ IsPresent (vm.tableEntry va) then
    some (vm.tableEntry va)
  else none

/-- A page has an entry if both levels are present. -/
theorem Paging.entry_eq_some {entry : Word}
    : vm.entry va = some entry
      ↔ IsPresent (vm.directoryEntry va) ∧ IsPresent entry ∧ vm.tableEntry va = entry := by
  rw [Paging.entry]
  constructor
  · intro found
    split at found
    · next both =>
      obtain rfl := Option.some.inj found
      exact ⟨both.1, both.2, rfl⟩
    · simp at found
  · rintro ⟨upper, lower, rfl⟩
    rw [if_pos ⟨upper, lower⟩]

/-- Slot 1023 maps the directory itself. -/
structure Paging.Recursive (vm : Paging) : Prop where
  aligned : vm.directory.toNat % 4096 = 0
  isPresent : IsPresent (vm.directoryEntry 0xFFC00000)
  itself : frameOf (vm.directoryEntry 0xFFC00000) = vm.directory

/-- What keeps the directory and its last entry keeps the directory mapped. -/
theorem Paging.Recursive.congr {vm' : Paging} (recursive : vm.Recursive)
    (directory : vm'.directory = vm.directory)
    (last : vm'.directoryEntry 0xFFC00000 = vm.directoryEntry 0xFFC00000)
    : vm'.Recursive where
  aligned := by
    rw [directory]
    exact recursive.aligned
  isPresent := by
    rw [last]
    exact recursive.isPresent
  itself := by
    rw [last, directory]
    exact recursive.itself

/-- Where the slot of an address lies in the directory, without a wrap. -/
theorem Paging.directorySlot_toNat (aligned : vm.directory.toNat % 4096 = 0) (va : Addr)
    : (vm.directorySlot va).toNat = vm.directory.toNat + 4 * (va.toNat / 4194304) := by
  simp only [Paging.directorySlot]
  bv_omega

/-- Addresses with the same directory index share a directory entry. -/
theorem Paging.directorySlot_congr (vm : Paging) {other : Addr}
    (same : other.toNat / 4194304 = va.toNat / 4194304)
    : vm.directorySlot other = vm.directorySlot va := by
  have index : other >>> 22 = va >>> 22 := by
    apply BitVec.eq_of_toNat_eq
    rw [directoryIndex_toNat, directoryIndex_toNat, same]
  rw [Paging.directorySlot, index, Paging.directorySlot]

/-- Where its entry lies in the table. -/
theorem Paging.tableSlot_toNat (vm : Paging) (va : Addr)
    : (vm.tableSlot va).toNat
      = (frameOf (vm.directoryEntry va)).toNat + 4 * (va.toNat / 4096 % 1024) := by
  have index := tableIndex_toNat va
  have aligned := frameOf_aligned (vm.directoryEntry va)
  simp only [Paging.tableSlot]
  bv_omega

/-- Addresses of one page share their entry. -/
theorem Paging.entry_congr (vm : Paging) {other : Addr}
    (same : other.toNat / 4096 = va.toNat / 4096)
    : vm.entry other = vm.entry va := by
  have index : other.toNat / 4194304 = va.toNat / 4194304 := by omega
  have directory : vm.directoryEntry other = vm.directoryEntry va := by
    rw [Paging.directoryEntry, vm.directorySlot_congr index, Paging.directoryEntry]
  have table : vm.tableSlot other = vm.tableSlot va := by
    apply BitVec.eq_of_toNat_eq
    rw [Paging.tableSlot_toNat, Paging.tableSlot_toNat, directory, same]
  rw [Paging.entry, directory, Paging.tableEntry, table, Paging.entry, Paging.tableEntry]

/-- The recursive window shows the frame named by the directory entry that its page index
selects.
-/
theorem Paging.recursiveAddr_toNat (vm : Paging) (va : Addr)
    : (vm.recursiveAddr va).toNat
      = (frameOf (vm.phys.load32 (vm.directory + 4#32 * (va >>> 12 &&& 0b1111111111#32)))).toNat
        + va.toNat % 4096 := by
  have offset := pageOffset_toNat va
  rw [Paging.recursiveAddr, ← offset]
  refine Masks.toNat_or_low 12 (frameOf_aligned _) ?_
  rw [offset]
  exact Nat.mod_lt _ (by decide)

/-- A window address selects the directory entry of `va` by its page index. -/
theorem Paging.recursiveAddr_eq (va : Addr) {window slot : Addr}
    (page : window.toNat / 4096 % 1024 = va.toNat / 4194304)
    (same : slot.toNat = (frameOf (vm.directoryEntry va)).toNat + window.toNat % 4096)
    : vm.recursiveAddr window = slot := by
  have index : window >>> 12 &&& 0b1111111111#32 = va >>> 22 := by
    apply BitVec.eq_of_toNat_eq
    rw [tableIndex_toNat, directoryIndex_toNat, page]
  apply BitVec.eq_of_toNat_eq
  rw [vm.recursiveAddr_toNat, index, same]
  rfl

/-- `0xFFFFF000 | pdindex << 2` is the directory entry of `va`. -/
theorem Paging.Recursive.directoryWindow (recursive : vm.Recursive) (va : Addr)
    : vm.recursiveAddr (0xFFFFF000#32 ||| va >>> 22 <<< 2) = vm.directorySlot va := by
  have index := directoryIndex_toNat va
  have shifted : (va >>> 22 <<< 2).toNat = 4 * (va.toNat / 4194304) := by
    rw [BitVec.toNat_shiftLeft, index, Nat.shiftLeft_eq]
    omega
  have window
      : (0xFFFFF000#32 ||| va >>> 22 <<< 2).toNat
        = 0xFFFFF000 + 4 * (va.toNat / 4194304) := by
    rw [Masks.toNat_or_low 12 (by decide) (by omega), shifted]
    rfl
  have last : (0xFFC00000 : Addr).toNat = 0xFFC00000 := rfl
  refine Paging.recursiveAddr_eq 0xFFC00000 ?_ ?_
  · rw [window, last]
    omega
  · rw [recursive.itself, window, Paging.directorySlot_toNat recursive.aligned]
    omega

/-- A window address in table `va / 2 ^ 22`, at the entry of `va`. -/
theorem Paging.tableWindow (vm : Paging) {window : Addr}
    (named
      : window.toNat
        = 0xFFC00000 + 4096 * (va.toNat / 4194304) + 4 * (va.toNat / 4096 % 1024))
    : vm.recursiveAddr window = vm.tableSlot va := by
  refine Paging.recursiveAddr_eq va (by omega) ?_
  rw [Paging.tableSlot_toNat]
  omega

/-- `0xFFC00000 | pdindex << 12 | ptindex << 2`, as `get_physaddr` writes it. -/
theorem tableWindow_toNat (va : Addr)
    : (0xFFC00000#32 ||| va >>> 22 <<< 12
        ||| (va >>> 12 &&& 0b1111111111#32) <<< 2).toNat
      = 0xFFC00000 + 4096 * (va.toNat / 4194304) + 4 * (va.toNat / 4096 % 1024) := by
  have high : (va >>> 22 <<< 12).toNat = 4096 * (va.toNat / 4194304) := by
    rw [BitVec.toNat_shiftLeft, directoryIndex_toNat, Nat.shiftLeft_eq]
    omega
  have low
      : ((va >>> 12 &&& 0b1111111111#32) <<< 2).toNat = 4 * (va.toNat / 4096 % 1024) := by
    rw [BitVec.toNat_shiftLeft, tableIndex_toNat, Nat.shiftLeft_eq]
    omega
  have table
      : (0xFFC00000#32 ||| va >>> 22 <<< 12).toNat
        = 0xFFC00000 + 4096 * (va.toNat / 4194304) := by
    rw [Masks.toNat_or_low 22 (by decide) (by omega), high]
    rfl
  rw [Masks.toNat_or_low 12 (by omega) (by omega), table, low]

/-- `((uint32_t*)0xFFC00000) + (0x400 * pdindex) + ptindex`, as `map_page` writes it. -/
theorem tablePointer_toNat (va : Addr)
    : (0xFFC00000#32 + 4#32 * (0x400#32 * (va >>> 22))
        + 4#32 * (va >>> 12 &&& 0b1111111111#32)).toNat
      = 0xFFC00000 + 4096 * (va.toNat / 4194304) + 4 * (va.toNat / 4096 % 1024) := by
  have low := tableIndex_toNat va
  bv_omega

/-- The start of a table in the window is the frame of its directory entry. -/
theorem Paging.tablePage (vm : Paging) (va : Addr)
    : vm.recursiveAddr (0xFFC00000#32 + 4#32 * (0x400#32 * (va >>> 22)))
      = frameOf (vm.directoryEntry va) := by
  have window
      : (0xFFC00000#32 + 4#32 * (0x400#32 * (va >>> 22))).toNat
        = 0xFFC00000 + 4096 * (va.toNat / 4194304) := by
    bv_omega
  refine Paging.recursiveAddr_eq va ?_ ?_
  · rw [window]
    omega
  · rw [window]
    omega

-----------------------------------------------------------------------------------------
-- Translation
-----------------------------------------------------------------------------------------

/-- `get_physaddr` adds the offset to the frame of the entry, and answers NULL without one. -/
theorem getPhysaddr_eq (recursive : vm.Recursive) (va : Addr)
    : getPhysaddr vm va
      = match vm.entry va with
        | some entry => frameOf entry ||| va &&& 0b111111111111#32
        | none => null := by
  have directory : vm.load (0xFFFFF000#32 ||| va >>> 22 <<< 2) = vm.directoryEntry va := by
    rw [Paging.load, recursive.directoryWindow va]
    rfl
  have table
      : vm.load (0xFFC00000#32 ||| va >>> 22 <<< 12
          ||| (va >>> 12 &&& 0b1111111111#32) <<< 2)
        = vm.tableEntry va := by
    rw [Paging.load, vm.tableWindow (tableWindow_toNat va)]
    rfl
  simp only [getPhysaddr, directory, table]
  by_cases upper : vm.directoryEntry va &&& 1 = 0
  · rw [if_pos upper, Paging.entry, if_neg fun both => both.1 upper]
  · rw [if_neg upper]
    by_cases lower : vm.tableEntry va &&& 1 = 0
    · rw [if_pos lower, Paging.entry, if_neg fun both => both.2 lower]
    · rw [if_neg lower, Paging.entry, if_pos ⟨upper, lower⟩]
      rfl

/-- An entry that names a frame other than frame 0 translates to a non-NULL address. -/
theorem getPhysaddr_ne_null (recursive : vm.Recursive) {entry : Word}
    (found : vm.entry va = some entry) (backed : frameOf entry ≠ 0)
    : getPhysaddr vm va ≠ null := by
  rw [getPhysaddr_eq recursive, found]
  intro zero
  have sum := Masks.toNat_or_low 12 (frameOf_aligned entry)
    (y := va &&& 0b111111111111#32)
    (by rw [pageOffset_toNat]; exact Nat.mod_lt _ (by decide))
  have none : (frameOf entry ||| va &&& 0b111111111111#32).toNat = 0 :=
    congrArg BitVec.toNat zero
  apply backed
  apply BitVec.eq_of_toNat_eq
  show (frameOf entry).toNat = 0
  omega

end SimpleKernel
