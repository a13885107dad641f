import SimpleKernel.Paging.Mapping

/-! The translations that `map_page` installs.
Boot enters one table in slots 0 and 768, and a write through either slot is then seen
through both. Where no frame is named twice, a call that succeeds adds the translation of
one page, and every other call changes nothing.
-/

namespace SimpleKernel

open ByteMemory

variable {vm vm' : Paging} {va other physaddr : Addr} {flags : BitVec 16} {value : Word}

/-- No two present directory entries name the same frame. Slot 1023 names the directory, so
no other present entry does.
-/
def Paging.TablesDistinct (vm : Paging) : Prop :=
  ∀ va other : Addr,
    IsPresent (vm.directoryEntry va)
    → IsPresent (vm.directoryEntry other)
    → frameNumber (vm.directoryEntry va) = frameNumber (vm.directoryEntry other)
    → va.toNat / 4194304 = other.toNat / 4194304

/-- A call installs the translation of one page, or fails and changes nothing. -/
structure Paging.InstallsOne (vm : Paging) (physaddr virtualaddr : Addr) (flags : BitVec 16)
    : Prop where
  succeeds_iff
    : (mapPage vm physaddr virtualaddr flags).1 = none
      ↔ physaddr.toNat % 4096 = 0
        ∧ virtualaddr.toNat % 4096 = 0
        ∧ vm.entry virtualaddr = none
  failed
    : (mapPage vm physaddr virtualaddr flags).1 ≠ none
      → (mapPage vm physaddr virtualaddr flags).2 = vm
  page
    : (mapPage vm physaddr virtualaddr flags).1 = none
      → ∀ off : Addr,
          off.toNat < 4096
          → getPhysaddr (mapPage vm physaddr virtualaddr flags).2 (virtualaddr + off)
            = physaddr + off
  others
    : (mapPage vm physaddr virtualaddr flags).1 = none
      → ∀ other : Addr,
          other.toNat < 0xFFC00000
          → other.toNat / 4096 ≠ virtualaddr.toNat / 4096
          → getPhysaddr (mapPage vm physaddr virtualaddr flags).2 other
            = getPhysaddr vm other

/-- A page without a table has no entry. -/
theorem Paging.entry_of_absent (absent : ¬IsPresent (vm.directoryEntry va))
    : vm.entry va = none :=
  if_neg fun both => absent both.1

/-- A translation depends on the entry only. -/
theorem getPhysaddr_congr (recursive : vm.Recursive) (recursive' : vm'.Recursive)
    (same : vm'.entry va = vm.entry va)
    : getPhysaddr vm' va = getPhysaddr vm va := by
  rw [getPhysaddr_eq recursive', same, getPhysaddr_eq recursive]

/-- All addresses of a mapped page translate to the frame of its entry. -/
theorem getPhysaddr_page (recursive : vm.Recursive) (aligned : va.toNat % 4096 = 0)
    (found : vm.entry va = some value) {off : Addr} (inside : off.toNat < 4096)
    : getPhysaddr vm (va + off) = frameOf value + off := by
  have offset : (va + off).toNat % 4096 = off.toNat := by bv_omega
  have samePage : (va + off).toNat / 4096 = va.toNat / 4096 := by bv_omega
  rw [getPhysaddr_eq recursive, vm.entry_congr samePage, found]
  have low : (va + off &&& 0b111111111111#32).toNat = off.toNat := by
    rw [pageOffset_toNat, offset]
  have frame := frameOf_aligned value
  have sum := Masks.toNat_or_low 12 frame (y := va + off &&& 0b111111111111#32) (by omega)
  apply BitVec.eq_of_toNat_eq
  rw [sum, low, BitVec.toNat_add]
  omega

/-- No table below the window is the directory, because the last slot names that. -/
theorem Paging.TablesDistinct.notDirectory (distinct : vm.TablesDistinct)
    (recursive : vm.Recursive) (below : va.toNat < 0xFFC00000)
    (isPresent : IsPresent (vm.directoryEntry va))
    : frameNumber (vm.directoryEntry va) ≠ frameNumber vm.directory := by
  intro same
  have last : frameNumber vm.directory = frameNumber (vm.directoryEntry 0xFFC00000) :=
    (congrArg frameNumber recursive.itself).symm.trans (frameNumber_frameOf _)
  have index := distinct va 0xFFC00000 isPresent recursive.isPresent (same.trans last)
  rw [show BitVec.toNat (0xFFC00000 : Addr) = 0xFFC00000 from rfl] at index
  omega

/-- An entry in a table does not touch the directory. -/
theorem Paging.Recursive.addEntry (recursive : vm.Recursive)
    (table : frameNumber (vm.directoryEntry va) ≠ frameNumber vm.directory) (value : Word)
    : (vm.addEntry va value).Recursive :=
  recursive.congr rfl (Paging.addEntry_directoryEntry recursive.aligned table value _)

/-- Two pages share an entry only through a table that is named twice. -/
theorem Paging.TablesDistinct.tableSlot_ne (distinct : vm.TablesDistinct)
    (upper : IsPresent (vm.directoryEntry va))
    (upperOther : IsPresent (vm.directoryEntry other))
    (ne : other.toNat / 4096 ≠ va.toNat / 4096)
    : vm.tableSlot other ≠ vm.tableSlot va := by
  intro same
  have frames : frameNumber (vm.directoryEntry other) = frameNumber (vm.directoryEntry va) := by
    rw [← (vm.tableSlot_frame other).1, same, (vm.tableSlot_frame va).1]
  have index := distinct other va upperOther upper frames
  have first := vm.tableSlot_toNat other
  have second := vm.tableSlot_toNat va
  rw [Paging.directoryEntry, vm.directorySlot_congr index] at first
  rw [Paging.directoryEntry] at second
  rw [same] at first
  omega

/-- It names no table. -/
theorem Paging.TablesDistinct.addEntry (distinct : vm.TablesDistinct)
    (aligned : vm.directory.toNat % 4096 = 0)
    (table : frameNumber (vm.directoryEntry va) ≠ frameNumber vm.directory) (value : Word)
    : (vm.addEntry va value).TablesDistinct := by
  intro first second
  rw [Paging.addEntry_directoryEntry aligned table, Paging.addEntry_directoryEntry aligned table]
  exact distinct first second

/-- It changes the entry of its own page only, since no two slots share a table. -/
theorem Paging.TablesDistinct.addEntry_others (distinct : vm.TablesDistinct)
    (recursive : vm.Recursive) (below : va.toNat < 0xFFC00000)
    (upper : IsPresent (vm.directoryEntry va)) (value : Word)
    (ne : other.toNat / 4096 ≠ va.toNat / 4096)
    : (vm.addEntry va value).entry other = vm.entry other := by
  have aligned := recursive.aligned
  have table := distinct.notDirectory recursive below upper
  by_cases upperOther : IsPresent (vm.directoryEntry other)
  · rw [Paging.entry, Paging.addEntry_directoryEntry aligned table,
      Paging.addEntry_tableEntry aligned table,
      if_neg (distinct.tableSlot_ne upper upperOther ne), Paging.entry]
  · rw [Paging.entry_of_absent upperOther, Paging.entry_of_absent]
    rw [Paging.addEntry_directoryEntry aligned table]
    exact upperOther

-----------------------------------------------------------------------------------------
-- A table for the page
-----------------------------------------------------------------------------------------

/-- `vm'` has a table for `va` and translates as `vm` does. -/
structure Paging.Prepared (vm vm' : Paging) (va : Addr) : Prop where
  recursive : vm'.Recursive
  distinct : vm'.TablesDistinct
  upper : IsPresent (vm'.directoryEntry va)
  entry : ∀ other : Addr, other.toNat < 0xFFC00000 → vm'.entry other = vm.entry other

/-- A new table leaves the last slot of the directory alone. -/
theorem Paging.Recursive.addTable (recursive : vm.Recursive)
    (unshared : frameNumber (getPage vm.pmm).1 ≠ frameNumber vm.directory)
    (below : va.toNat < 0xFFC00000)
    : (vm.addTable va).Recursive := by
  have last : ¬(0xFFC00000 : Addr).toNat / 4194304 = va.toNat / 4194304 := by
    rw [show (0xFFC00000 : Addr).toNat = 0xFFC00000 from rfl]
    omega
  have directoryEntry := Paging.addTable_directoryEntry recursive.aligned unshared va 0xFFC00000
  rw [if_neg last] at directoryEntry
  exact recursive.congr rfl directoryEntry

/-- No directory entry named the frame that becomes the table. -/
theorem Paging.FreshFrame.unnamed (fresh : vm.FreshFrame) (recursive : vm.Recursive)
    (isPresent : IsPresent (vm.directoryEntry other))
    : frameNumber (vm.directoryEntry other) ≠ frameNumber (getPage vm.pmm).1 := by
  by_cases inside : other.toNat < 0xFFC00000
  · exact fresh.tables other inside isPresent
  · have small := other.isLt
    have last : other.toNat / 4194304 = (0xFFC00000 : Addr).toNat / 4194304 := by
      rw [show (0xFFC00000 : Addr).toNat = 0xFFC00000 from rfl]
      omega
    rw [Paging.directoryEntry, vm.directorySlot_congr last]
    change frameNumber (vm.directoryEntry 0xFFC00000) ≠ _
    rw [← frameNumber_frameOf, recursive.itself]
    exact fresh.directory.symm

section Table

variable (recursive : vm.Recursive) (distinct : vm.TablesDistinct) (fresh : vm.FreshFrame)
include recursive distinct fresh

/-- A table in a frame that no slot names is a further one. -/
theorem Paging.TablesDistinct.addTable : (vm.addTable va).TablesDistinct := by
  have named : frameNumber ((getPage vm.pmm).1 ||| 0x3) = frameNumber (getPage vm.pmm).1 := by
    rw [← frameNumber_frameOf, frameOf_or (getPage_aligned vm.pmm) (by decide)]
  intro first second upperFirst upperSecond same
  simp only [Paging.addTable_directoryEntry recursive.aligned fresh.directory]
    at upperFirst upperSecond same
  split at same
  · next one =>
    split at same
    · next two => rw [one, two]
    · next two =>
      rw [if_neg two] at upperSecond
      exact absurd (same.symm.trans named) (fresh.unnamed recursive upperSecond)
  · next one =>
    rw [if_neg one] at upperFirst
    split at same
    · exact absurd (same.trans named) (fresh.unnamed recursive upperFirst)
    · next two =>
      rw [if_neg two] at upperSecond
      exact distinct first second upperFirst upperSecond same

/-- The 1024 pages of the new table stay unmapped, and no other table changes. -/
theorem Paging.TablesDistinct.addTable_entry (absent : ¬IsPresent (vm.directoryEntry va))
    (belowOther : other.toNat < 0xFFC00000)
    : (vm.addTable va).entry other = vm.entry other := by
  have aligned := recursive.aligned
  have directoryEntry := Paging.addTable_directoryEntry aligned fresh.directory va other
  by_cases same : other.toNat / 4194304 = va.toNat / 4194304
  · have cleared := Paging.addTable_cleared aligned fresh.directory same
    have before : ¬IsPresent (vm.directoryEntry other) := by
      rw [Paging.directoryEntry, vm.directorySlot_congr same]
      exact absent
    rw [Paging.entry_of_absent before, Paging.entry, cleared]
    exact if_neg fun both => both.2 rfl
  · rw [if_neg same] at directoryEntry
    by_cases upper : IsPresent (vm.directoryEntry other)
    · rw [Paging.entry, directoryEntry,
        Paging.addTable_tableEntry aligned fresh belowOther upper
          (distinct.notDirectory recursive belowOther upper) same,
        Paging.entry]
    · rw [Paging.entry_of_absent upper, Paging.entry_of_absent]
      rw [directoryEntry]
      exact upper

end Table

/-- A table is there or is made; making one takes a frame that no entry names. -/
theorem Paging.TablesDistinct.withTable (recursive : vm.Recursive)
    (distinct : vm.TablesDistinct)
    (fresh : ¬IsPresent (vm.directoryEntry va) → vm.FreshFrame)
    (below : va.toNat < 0xFFC00000)
    : vm.Prepared (vm.withTable va) va := by
  rw [Paging.withTable]
  split
  · next upper => exact ⟨recursive, distinct, upper, fun _ _ => rfl⟩
  · next absent =>
    have fresh := fresh absent
    refine {
      recursive := recursive.addTable fresh.directory below
      distinct := distinct.addTable recursive fresh
      upper := ?_
      entry := fun other => distinct.addTable_entry recursive fresh absent
    }
    rw [Paging.addTable_directoryEntry recursive.aligned fresh.directory, if_pos rfl]
    exact IsPresent.or_right (by decide) _

/-- Unaligned addresses are refused before anything is written. -/
theorem mapPage_unaligned
    (unaligned : ¬(physaddr.toNat % 4096 = 0 ∧ va.toNat % 4096 = 0)) (flags : BitVec 16)
    : (mapPage vm physaddr va flags).1 ≠ none ∧ (mapPage vm physaddr va flags).2 = vm := by
  rw [mapPage]
  split
  · exact ⟨by simp, rfl⟩
  · next alignedPage =>
    rw [if_pos]
    · exact ⟨by simp, rfl⟩
    · intro aligned
      exact unaligned ⟨mod_pageSize_eq_zero_iff.mp (not_not.mp alignedPage),
        mod_pageSize_eq_zero_iff.mp aligned⟩

/-- A page that is mapped stays as it is. -/
theorem mapPage_of_mapped (recursive : vm.Recursive) (alignedPage : physaddr.toNat % 4096 = 0)
    (aligned : va.toNat % 4096 = 0) (mapped : vm.entry va = some value) (flags : BitVec 16)
    : mapPage vm physaddr va flags = (some .mapPageMappingAlreadyPresent, vm) := by
  obtain ⟨upper, isPresent, found⟩ := Paging.entry_eq_some.mp mapped
  have table : vm.withTable va = vm := if_pos upper
  rw [mapPage_eq recursive alignedPage aligned, table, found, if_pos isPresent]

/-- Where the page has a table, one entry is written. -/
theorem mapPage_of_table (recursive : vm.Recursive) (alignedPage : physaddr.toNat % 4096 = 0)
    (aligned : va.toNat % 4096 = 0) (upper : IsPresent (vm.directoryEntry va))
    (unmapped : vm.entry va = none) (flags : BitVec 16)
    : mapPage vm physaddr va flags
      = (none,
          vm.addEntry va (physaddr ||| flags.setWidth 32 &&& 0b111111111111#32 ||| 1)) := by
  have table : vm.withTable va = vm := if_pos upper
  have lower : ¬IsPresent (vm.tableEntry va) := by
    intro lower
    rw [Paging.entry, if_pos ⟨upper, lower⟩] at unmapped
    simp at unmapped
  rw [mapPage_eq recursive alignedPage aligned, table, if_neg lower]

/-- With every frame named at most once, a call installs one translation or changes nothing.
-/
theorem mapPage_installsOne (recursive : vm.Recursive) (distinct : vm.TablesDistinct)
    (fresh : vm.FreshFrame) (below : va.toNat < 0xFFC00000) (physaddr : Addr)
    (flags : BitVec 16)
    : vm.InstallsOne physaddr va flags := by
  by_cases aligned : physaddr.toNat % 4096 = 0 ∧ va.toNat % 4096 = 0
  · have prepared := distinct.withTable recursive (fun _ => fresh) below
    have missing := prepared.entry va below
    by_cases lower : IsPresent ((vm.withTable va).tableEntry va)
    · have mapped := Paging.entry_eq_some.mpr ⟨prepared.upper, lower, rfl⟩
      rw [missing] at mapped
      have called := mapPage_of_mapped recursive aligned.1 aligned.2 mapped flags
      refine {
        succeeds_iff := ?_
        failed := fun _ => by rw [called]
        page := fun succeeded => absurd succeeded (by rw [called]; simp)
        others := fun succeeded => absurd succeeded (by rw [called]; simp)
      }
      rw [called, mapped]
      simp
    · have called := mapPage_eq recursive aligned.1 aligned.2 flags
      rw [if_neg lower] at called
      have table := prepared.distinct.notDirectory prepared.recursive below prepared.upper
      have recursive' := prepared.recursive.addEntry table
        (physaddr ||| flags.setWidth 32 &&& 0b111111111111#32 ||| 1)
      have absent : vm.entry va = none := by
        rw [← missing]
        exact if_neg fun both => lower both.2
      refine {
        succeeds_iff := ⟨fun _ => ⟨aligned.1, aligned.2, absent⟩, fun _ => by rw [called]⟩
        failed := fun failed => absurd (by rw [called]) failed
        page := fun _ off inside => ?_
        others := fun _ other belowOther ne => ?_
      }
      · have mapped := Paging.addEntry_entry prepared.recursive.aligned table prepared.upper
          (isPresent_pageEntry physaddr flags)
        rw [called, getPhysaddr_page recursive' aligned.2 mapped inside,
          frameOf_pageEntry aligned.1]
      · rw [called]
        exact getPhysaddr_congr recursive recursive' ((prepared.distinct.addEntry_others
          prepared.recursive below prepared.upper _ ne).trans (prepared.entry other belowOther))
  · obtain ⟨failed, same⟩ := mapPage_unaligned aligned flags
    exact {
      succeeds_iff := ⟨fun succeeded => absurd succeeded failed,
        fun facts => absurd ⟨facts.1, facts.2.1⟩ aligned⟩
      failed := fun _ => same
      page := fun succeeded => absurd succeeded failed
      others := fun succeeded => absurd succeeded failed
    }

-----------------------------------------------------------------------------------------
-- The tables that boot sets up
-----------------------------------------------------------------------------------------

/-- An allocator that hands out frame `0x108` next. -/
def smallPmm : Pmm where
  bitmap := 0x10A000
  size := 0x100
  nextIndex := 0x21
  nextOffset := 0
  freePages := 0x6F8
  setUp := false
  bytes := fun i => if i.toNat < 0x21 then 0xFF else 0

/-- The directory maps itself, and slot 768 names a table. -/
def kernelTables : Paging :=
  (Paging.setDirectoryEntry ⟨0x105000, fun _ => 0, smallPmm⟩ 0xFFC00000 0x105003)
    |>.setDirectoryEntry 0xC0000000 0x106003

/-- Slot 0 names the table of slot 768, as it does until paging is on. -/
def aliasedTables : Paging :=
  kernelTables.setDirectoryEntry 0 0x106003

/-- Two slots are present, and each names its own frame. -/
theorem kernelTables_frame (isPresent : IsPresent (kernelTables.directoryEntry va))
    : va.toNat / 4194304 = 768 ∧ frameNumber (kernelTables.directoryEntry va) = 0x106
      ∨ va.toNat / 4194304 = 1023 ∧ frameNumber (kernelTables.directoryEntry va) = 0x105 := by
  rw [kernelTables, Paging.setDirectoryEntry_directoryEntry rfl,
    Paging.setDirectoryEntry_directoryEntry rfl] at isPresent ⊢
  split
  · next slot => exact Or.inl ⟨slot, by decide⟩
  · next notKernel =>
    rw [if_neg notKernel] at isPresent
    split
    · next slot => exact Or.inr ⟨slot, by decide⟩
    · next notLast =>
      rw [if_neg notLast] at isPresent
      simp [Paging.directoryEntry, Memory.load32, IsPresent] at isPresent

theorem aliasedTables_frame (isPresent : IsPresent (aliasedTables.directoryEntry va))
    : frameNumber (aliasedTables.directoryEntry va) ≤ 0x106 := by
  rw [aliasedTables, Paging.setDirectoryEntry_directoryEntry rfl] at isPresent ⊢
  split
  · decide
  · next notFirst =>
    rw [if_neg notFirst] at isPresent
    rcases kernelTables_frame isPresent with slot | slot
    · omega
    · omega

theorem kernelTables_recursive : kernelTables.Recursive :=
  ⟨rfl, by decide +kernel, by decide +kernel⟩

/-- Hence no frame is named twice. -/
theorem kernelTables_distinct : kernelTables.TablesDistinct := by
  intro va other upper upperOther same
  have frame := kernelTables_frame upper
  have frameOther := kernelTables_frame upperOther
  omega

theorem kernelTables_fresh : kernelTables.FreshFrame := by
  refine ⟨by decide +kernel, fun va below isPresent => ?_⟩
  have frame := kernelTables_frame isPresent
  rw [show frameNumber (getPage kernelTables.pmm).1 = 0x108 by decide +kernel]
  omega

/-- One mapping is added and none is lost. Witness: the page of the text screen, which the
kernel maps first, in a table that is there already.
-/
theorem mapPage_installsOne_screen
    : kernelTables.InstallsOne 0xB8000 0xC03FE000 0x103 :=
  mapPage_installsOne kernelTables_recursive kernelTables_distinct kernelTables_fresh (by decide)
    0xB8000 0x103

/-- With one table in slots 0 and 768, mapping a page of the kernel's half maps another page
too.
-/
theorem not_installsOne_aliased
    : ¬∀ (vm : Paging) (physaddr virtualaddr : Addr) (flags : BitVec 16),
        vm.Recursive
        → vm.pmm.CacheFree
        → vm.FreshFrame
        → virtualaddr.toNat < 0xFFC00000
        → vm.InstallsOne physaddr virtualaddr flags := by
  intro claim
  have fresh : aliasedTables.FreshFrame := by
    refine ⟨by decide +kernel, fun va below isPresent => ?_⟩
    have frame := aliasedTables_frame isPresent
    rw [show frameNumber (getPage aliasedTables.pmm).1 = 0x108 by decide +kernel]
    omega
  have installs := claim aliasedTables 0xB8000 0xC03FE000 0x103
    ⟨rfl, by decide +kernel, by decide +kernel⟩ ⟨by decide, by decide⟩ fresh (by decide)
  have other := installs.others (by decide +kernel) 0x3FE000 (by decide) (by decide)
  exact absurd other (by decide +kernel)

end SimpleKernel
