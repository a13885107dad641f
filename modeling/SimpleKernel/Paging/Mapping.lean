import SimpleKernel.Frames.Ownership
import SimpleKernel.Paging.Translation

/-! Extending the page tables.
`map_page` writes only words whose present bit is clear and clears only frames that were
free, so that every page that is mapped stays mapped to the same frame.
-/

namespace SimpleKernel

open ByteMemory

variable {pmm pmm' pmm'' : Pmm} {vm vm' vm'' : Paging} {va : Addr}

/-- The cached frame is free while any frame is, and every free frame has an address. -/
structure Pmm.Ready (pmm : Pmm) : Prop where
  offset : pmm.nextOffset.toNat < 8
  addressable : pmm.Addressable
  cache : pmm.HasFree → pmm.CacheFree

/-- What requests alone do: no frame becomes free. -/
structure Pmm.Draws (pmm pmm' : Pmm) : Prop where
  ready : pmm'.Ready
  free : ∀ k, pmm'.Free k → pmm.Free k

theorem Pmm.Ready.refl (ready : pmm.Ready) : pmm.Draws pmm := ⟨ready, fun _ free => free⟩

theorem Pmm.Draws.trans (first : pmm.Draws pmm') (second : pmm'.Draws pmm'')
    : pmm.Draws pmm'' :=
  ⟨second.ready, fun k free => first.free k (second.free k free)⟩

/-- A frame that is left was there before. -/
theorem Pmm.Draws.hasFree (draws : pmm.Draws pmm') (left : pmm'.HasFree) : pmm.HasFree := by
  obtain ⟨k, free⟩ := left
  exact ⟨k, draws.free k free⟩

/-- A request draws a frame and leaves the allocator ready, as its cache moves to a free frame
if there is one.
-/
theorem Pmm.Ready.getPage (ready : pmm.Ready) : pmm.Draws (SimpleKernel.getPage pmm).2 := by
  have kept (k : Nat) (free : (SimpleKernel.getPage pmm).2.Free k) : pmm.Free k := by
    have bits := getPage_bit ready.offset free.lt
    rw [free.2] at bits
    exact ⟨free.1, (Bool.or_eq_false_iff.mp bits.symm).1⟩
  refine ⟨{
    offset := ?_
    addressable := fun k free => ready.addressable k (kept k free)
    cache := getPage_cacheFree pmm
  }, kept⟩
  rcases getPage_cache pmm with cache | ⟨_, same, _⟩
  · exact cache.offset
  · rw [same]
    exact ready.offset

/-- While a frame is free, `get_page` returns an aligned free frame and takes it. -/
structure Fresh (pmm : Pmm) (page : Addr) : Prop where
  aligned : page.toNat % 4096 = 0
  before : pmm.Free (frameNumber page)
  after : ¬(getPage pmm).2.Free (frameNumber page)

/-- The frame that is handed out was free and is not any more. -/
theorem Pmm.Ready.fresh (ready : pmm.Ready) (left : pmm.HasFree)
    : Fresh pmm (SimpleKernel.getPage pmm).1 := by
  have cache := ready.cache left
  have frame := getPage_frameNumber (ready.addressable _ cache.free)
  refine ⟨getPage_aligned pmm, by rw [frame]; exact cache.free, ?_⟩
  rw [frame, getPage_free cache]
  exact fun free => free.2 rfl

/-- A mapping with a fresh frame draws one frame for the page, and at most one more for its
table.
-/
theorem mapFreshPage_draws (vm : Paging) (va : Addr) (flags : BitVec 16)
    (ready : vm.pmm.Ready)
    : vm.pmm.Draws (mapFreshPage vm va flags).pmm := by
  have once := ready.getPage
  have twice := once.trans once.ready.getPage
  simp only [mapFreshPage, mapPage]
  split
  · exact once
  · split
    · exact once
    · split <;> split <;> first | exact once | exact twice

/-- No free frame holds the directory or a table, and none is frame 0. -/
structure Paging.Sound (vm : Paging) : Prop where
  recursive : vm.Recursive
  ready : vm.pmm.Ready
  zero : ¬vm.pmm.Free 0
  directory : ¬vm.pmm.Free (frameNumber vm.directory)
  tables
    : ∀ va : Addr,
        va.toNat < 0xFFC00000
        → IsPresent (vm.directoryEntry va)
        → frameNumber (vm.directoryEntry va) ≠ frameNumber vm.directory
          ∧ ¬vm.pmm.Free (frameNumber (vm.directoryEntry va))

/-- Below the window every mapped page keeps its entry, and new entries name frames other
than frame 0.
-/
structure Paging.Extends (vm vm' : Paging) : Prop where
  sound : vm'.Sound
  kept
    : ∀ (va : Addr) (entry : Word),
        va.toNat < 0xFFC00000 → vm.entry va = some entry → vm'.entry va = some entry
  fresh
    : ∀ (va : Addr) (entry : Word),
        va.toNat < 0xFFC00000
        → vm'.entry va = some entry
        → vm.entry va = some entry ∨ frameOf entry ≠ 0

theorem Paging.Sound.refl (sound : vm.Sound) : vm.Extends vm :=
  ⟨sound, fun _ _ _ found => found, fun _ _ _ found => Or.inl found⟩

theorem Paging.Extends.trans (first : vm.Extends vm') (second : vm'.Extends vm'')
    : vm.Extends vm'' where
  sound := second.sound
  kept va entry below found := second.kept va entry below (first.kept va entry below found)
  fresh va entry below found := by
    rcases second.fresh va entry below found with earlier | fresh
    · exact first.fresh va entry below earlier
    · exact Or.inr fresh

/-- Taking frames changes no entry. -/
theorem Paging.Sound.draw (sound : vm.Sound) (draws : vm.pmm.Draws pmm')
    : vm.Extends { vm with pmm := pmm' } where
  sound := {
    recursive := sound.recursive.congr rfl rfl
    ready := draws.ready
    zero := fun free => sound.zero (draws.free _ free)
    directory := fun free => sound.directory (draws.free _ free)
    tables := fun va below isPresent =>
      (sound.tables va below isPresent).imp_right (fun taken free => taken (draws.free _ free))
  }
  kept _ _ _ found := found
  fresh _ _ _ found := Or.inl found

-----------------------------------------------------------------------------------------
-- A new entry
-----------------------------------------------------------------------------------------

def Paging.addEntry (vm : Paging) (va : Addr) (value : Word) : Paging :=
  { vm with phys := vm.phys.store32 (vm.tableSlot va) value }

/-- The slots of the directory lie in its frame. -/
theorem Paging.directorySlot_frame (aligned : vm.directory.toNat % 4096 = 0) (va : Addr)
    : frameNumber (vm.directorySlot va) = frameNumber vm.directory
      ∧ (vm.directorySlot va).toNat % 4 = 0 := by
  have slot := Paging.directorySlot_toNat aligned va
  simp only [frameNumber]
  omega

/-- Those of a table lie in the frame that the directory names. -/
theorem Paging.tableSlot_frame (vm : Paging) (va : Addr)
    : frameNumber (vm.tableSlot va) = frameNumber (vm.directoryEntry va)
      ∧ (vm.tableSlot va).toNat % 4 = 0 := by
  have slot := vm.tableSlot_toNat va
  rw [frameOf_toNat] at slot
  simp only [frameNumber]
  omega

/-- A table that is not the directory can be written without changing the directory. -/
theorem Paging.addEntry_directoryEntry (aligned : vm.directory.toNat % 4096 = 0)
    (table : frameNumber (vm.directoryEntry va) ≠ frameNumber vm.directory) (value : Word)
    (other : Addr)
    : (vm.addEntry va value).directoryEntry other = vm.directoryEntry other := by
  obtain ⟨directoryFrame, directoryAligned⟩ := Paging.directorySlot_frame aligned other
  obtain ⟨tableFrame, tableAligned⟩ := vm.tableSlot_frame va
  refine Memory.load32_store32_of_ne _ _ tableAligned directoryAligned ?_
  intro same
  exact table (by rw [← tableFrame, ← directoryFrame]; exact congrArg frameNumber same.symm)

/-- An entry that is written is read back, and no other slot changes. -/
theorem Paging.addEntry_tableEntry (aligned : vm.directory.toNat % 4096 = 0)
    (table : frameNumber (vm.directoryEntry va) ≠ frameNumber vm.directory) (value : Word)
    (other : Addr)
    : (vm.addEntry va value).tableEntry other
      = if vm.tableSlot other = vm.tableSlot va then value else vm.tableEntry other := by
  have slot : (vm.addEntry va value).tableSlot other = vm.tableSlot other := by
    rw [Paging.tableSlot, Paging.addEntry_directoryEntry aligned table]
    rfl
  rw [Paging.tableEntry, slot]
  split
  · next same =>
    rw [same]
    exact Memory.load32_store32_same _ _ _
  · next ne =>
    exact Memory.load32_store32_of_ne _ _ (vm.tableSlot_frame va).2
      (vm.tableSlot_frame other).2 ne

/-- A word that maps nothing is replaced by one that maps a frame other than frame 0. -/
theorem Paging.Sound.addEntry (sound : vm.Sound) (below : va.toNat < 0xFFC00000)
    (upper : IsPresent (vm.directoryEntry va)) (lower : ¬IsPresent (vm.tableEntry va))
    {value : Word} (frame : frameOf value ≠ 0)
    : vm.Extends (vm.addEntry va value) := by
  have aligned := sound.recursive.aligned
  have table := (sound.tables va below upper).1
  have directoryEntry := Paging.addEntry_directoryEntry aligned table value
  have tableEntry := Paging.addEntry_tableEntry aligned table value
  refine {
    sound := {
      recursive := sound.recursive.congr rfl (directoryEntry _)
      ready := sound.ready
      zero := sound.zero
      directory := sound.directory
      tables := fun other => ?_
    }
    kept := fun other entry _ found => ?_
    fresh := fun other entry _ found => ?_
  }
  · rw [directoryEntry]
    exact sound.tables other
  · obtain ⟨isPresent, mapped, found⟩ := Paging.entry_eq_some.mp found
    -- a word shared with `va` would not be present
    have ne : vm.tableSlot other ≠ vm.tableSlot va := by
      intro same
      rw [Paging.tableEntry, same] at found
      rw [← found] at mapped
      exact lower mapped
    rw [Paging.entry_eq_some, directoryEntry, tableEntry, if_neg ne]
    exact ⟨isPresent, mapped, found⟩
  · obtain ⟨isPresent, mapped, found⟩ := Paging.entry_eq_some.mp found
    rw [directoryEntry] at isPresent
    rw [tableEntry] at found
    split at found
    · exact Or.inr (found ▸ frame)
    · exact Or.inl (Paging.entry_eq_some.mpr ⟨isPresent, mapped, found⟩)

/-- A present entry in a table maps its page. -/
theorem Paging.addEntry_entry (aligned : vm.directory.toNat % 4096 = 0)
    (table : frameNumber (vm.directoryEntry va) ≠ frameNumber vm.directory)
    (upper : IsPresent (vm.directoryEntry va)) {value : Word} (isPresent : IsPresent value)
    : (vm.addEntry va value).entry va = some value := by
  rw [Paging.entry_eq_some, Paging.addEntry_directoryEntry aligned table,
    Paging.addEntry_tableEntry aligned table, if_pos rfl]
  exact ⟨upper, isPresent, rfl⟩

-----------------------------------------------------------------------------------------
-- A new table
-----------------------------------------------------------------------------------------

def Paging.setDirectoryEntry (vm : Paging) (va : Addr) (value : Word) : Paging :=
  { vm with phys := vm.phys.store32 (vm.directorySlot va) value }

/-- A fresh frame, cleared and entered in the directory. -/
def Paging.addTable (vm : Paging) (va : Addr) : Paging :=
  let page := (getPage vm.pmm).1
  {
    vm with
    phys := (vm.phys.store32 (vm.directorySlot va) (page ||| 0x3)).fill page 0 4096
    pmm := (getPage vm.pmm).2
  }

/-- Words outside a cleared frame. -/
theorem load32_fill_frame (m : Memory) {page slot : Addr} (alignedPage : page.toNat % 4096 = 0)
    (alignedSlot : slot.toNat % 4 = 0) (ne : frameNumber slot ≠ frameNumber page)
    : (m.fill page 0 4096).load32 slot = m.load32 slot := by
  simp only [frameNumber] at ne
  exact m.load32_fill_of_outside 0 (by bv_omega) (by bv_omega)

/-- The frame that `get_page` hands out next holds neither the directory nor a table. -/
structure Paging.FreshFrame (vm : Paging) : Prop where
  directory : frameNumber (getPage vm.pmm).1 ≠ frameNumber vm.directory
  tables
    : ∀ va : Addr,
        va.toNat < 0xFFC00000
        → IsPresent (vm.directoryEntry va)
        → frameNumber (vm.directoryEntry va) ≠ frameNumber (getPage vm.pmm).1

/-- A frame that is drawn is neither the directory nor a table, because those are in use. -/
theorem Paging.Sound.freshFrame (sound : vm.Sound) (left : vm.pmm.HasFree)
    : vm.FreshFrame := by
  have page := sound.ready.fresh left
  exact {
    directory := fun same => sound.directory (same ▸ page.before)
    tables := fun va below isPresent same =>
      (sound.tables va below isPresent).2 (same ▸ page.before)
  }

/-- A slot of the directory is written and no other. -/
theorem Paging.setDirectoryEntry_directoryEntry (aligned : vm.directory.toNat % 4096 = 0)
    (va : Addr) (value : Word) (other : Addr)
    : (vm.setDirectoryEntry va value).directoryEntry other
      = if other.toNat / 4194304 = va.toNat / 4194304 then value
        else vm.directoryEntry other := by
  have position := Paging.directorySlot_toNat aligned other
  have written := Paging.directorySlot_toNat aligned va
  change (vm.phys.store32 (vm.directorySlot va) value).load32 (vm.directorySlot other) = _
  split
  · next same =>
    rw [vm.directorySlot_congr same]
    exact Memory.load32_store32_same _ _ _
  · next ne =>
    refine Memory.load32_store32_of_ne _ _ (Paging.directorySlot_frame aligned va).2
      (Paging.directorySlot_frame aligned other).2 ?_
    intro same
    have equal := congrArg BitVec.toNat same
    omega

/-- The new table is entered in the directory; clearing it does not reach the directory, which
is another frame.
-/
theorem Paging.addTable_directoryEntry (aligned : vm.directory.toNat % 4096 = 0)
    (unshared : frameNumber (getPage vm.pmm).1 ≠ frameNumber vm.directory) (va other : Addr)
    : (vm.addTable va).directoryEntry other
      = if other.toNat / 4194304 = va.toNat / 4194304 then (getPage vm.pmm).1 ||| 0x3
        else vm.directoryEntry other := by
  obtain ⟨frame, alignedSlot⟩ := Paging.directorySlot_frame aligned other
  have outside : frameNumber (vm.directorySlot other) ≠ frameNumber (getPage vm.pmm).1 := by
    rw [frame]
    exact unshared.symm
  rw [← Paging.setDirectoryEntry_directoryEntry aligned]
  exact load32_fill_frame _ (getPage_aligned vm.pmm) alignedSlot outside

/-- The new table maps nothing. -/
theorem Paging.addTable_cleared (aligned : vm.directory.toNat % 4096 = 0)
    (unshared : frameNumber (getPage vm.pmm).1 ≠ frameNumber vm.directory) {other : Addr}
    (same : other.toNat / 4194304 = va.toNat / 4194304)
    : (vm.addTable va).tableEntry other = 0 := by
  have upper := Paging.addTable_directoryEntry aligned unshared va other
  rw [if_pos same] at upper
  have slot := (vm.addTable va).tableSlot_toNat other
  have alignedPage := getPage_aligned vm.pmm
  rw [upper, frameOf_or alignedPage (by decide)] at slot
  refine Memory.load32_fill_zero _ ?_ (by decide)
  generalize (vm.addTable va).tableSlot other = position at slot ⊢
  generalize (getPage vm.pmm).1 = start at slot alignedPage ⊢
  bv_omega

/-- Tables of other directory entries are in neither of the two frames written. -/
theorem Paging.addTable_tableEntry (aligned : vm.directory.toNat % 4096 = 0)
    (fresh : vm.FreshFrame) {other : Addr} (below : other.toNat < 0xFFC00000)
    (isPresent : IsPresent (vm.directoryEntry other))
    (notDirectory : frameNumber (vm.directoryEntry other) ≠ frameNumber vm.directory)
    (ne : other.toNat / 4194304 ≠ va.toNat / 4194304)
    : (vm.addTable va).tableEntry other = vm.tableEntry other := by
  obtain ⟨frame, alignedSlot⟩ := vm.tableSlot_frame other
  obtain ⟨directoryFrame, alignedDirectory⟩ := Paging.directorySlot_frame aligned va
  have upper := Paging.addTable_directoryEntry aligned fresh.directory va other
  rw [if_neg ne] at upper
  have slot : (vm.addTable va).tableSlot other = vm.tableSlot other := by
    rw [Paging.tableSlot, upper, Paging.tableSlot]
  have outside : frameNumber (vm.tableSlot other) ≠ frameNumber (getPage vm.pmm).1 := by
    rw [frame]
    exact fresh.tables other below isPresent
  rw [Paging.tableEntry, slot]
  change ((vm.phys.store32 (vm.directorySlot va) ((getPage vm.pmm).1 ||| 0x3)).fill
    (getPage vm.pmm).1 0 4096).load32 (vm.tableSlot other) = _
  rw [load32_fill_frame _ (getPage_aligned vm.pmm) alignedSlot outside]
  refine Memory.load32_store32_of_ne _ _ alignedDirectory alignedSlot ?_
  intro same
  rw [same, directoryFrame] at frame
  exact notDirectory frame.symm

/-- No page was mapped through the new table, and none is. -/
theorem Paging.Sound.addTable (sound : vm.Sound) (left : vm.pmm.HasFree)
    (below : va.toNat < 0xFFC00000) (upper : ¬IsPresent (vm.directoryEntry va))
    : vm.Extends (vm.addTable va) := by
  have aligned := sound.recursive.aligned
  have page := sound.ready.fresh left
  have draws := sound.ready.getPage
  have fresh := sound.freshFrame left
  have directoryEntry := Paging.addTable_directoryEntry aligned fresh.directory va
  have last : ¬(0xFFC00000 : Addr).toNat / 4194304 = va.toNat / 4194304 := by
    rw [show (0xFFC00000 : Addr).toNat = 0xFFC00000 from rfl]
    omega
  have index {other : Addr} (isPresent : IsPresent (vm.directoryEntry other))
      : other.toNat / 4194304 ≠ va.toNat / 4194304 := by
    intro same
    rw [Paging.directoryEntry, vm.directorySlot_congr same] at isPresent
    exact upper isPresent
  refine {
    sound := {
      recursive := sound.recursive.congr rfl (by rw [directoryEntry, if_neg last])
      ready := draws.ready
      zero := fun free => sound.zero (draws.free _ free)
      directory := fun free => sound.directory (draws.free _ free)
      tables := fun other inside isPresent => ?_
    }
    kept := fun other entry inside found => ?_
    fresh := fun other entry inside found => ?_
  }
  · rw [directoryEntry] at isPresent ⊢
    split at isPresent
    · next same =>
      rw [if_pos same, ← frameNumber_frameOf, frameOf_or page.aligned (by decide)]
      exact ⟨fresh.directory, page.after⟩
    · next ne =>
      rw [if_neg ne]
      exact (sound.tables other inside isPresent).imp_right
        (fun taken free => taken (draws.free _ free))
  · obtain ⟨isPresent, mapped, found⟩ := Paging.entry_eq_some.mp found
    rw [Paging.entry_eq_some, directoryEntry, if_neg (index isPresent),
      Paging.addTable_tableEntry aligned fresh inside isPresent
        (sound.tables other inside isPresent).1 (index isPresent)]
    exact ⟨isPresent, mapped, found⟩
  · obtain ⟨isPresent, mapped, found⟩ := Paging.entry_eq_some.mp found
    by_cases same : other.toNat / 4194304 = va.toNat / 4194304
    · rw [Paging.addTable_cleared aligned fresh.directory same] at found
      rw [← found] at mapped
      exact absurd rfl mapped
    · rw [directoryEntry, if_neg same] at isPresent
      rw [Paging.addTable_tableEntry aligned fresh inside isPresent
        (sound.tables other inside isPresent).1 same] at found
      exact Or.inl (Paging.entry_eq_some.mpr ⟨isPresent, mapped, found⟩)

-----------------------------------------------------------------------------------------
-- Mapping a page
-----------------------------------------------------------------------------------------

/-- The tables with one for `va`. -/
def Paging.withTable (vm : Paging) (va : Addr) : Paging :=
  if IsPresent (vm.directoryEntry va) then vm else vm.addTable va

/-- What `map_page` does for a directory entry that is not present. -/
theorem Paging.Recursive.createTable (recursive : vm.Recursive) (va : Addr)
    : (Paging.store { vm with pmm := (getPage vm.pmm).2 }
        (0xFFFFF000#32 ||| va >>> 22 <<< 2)
        ((getPage vm.pmm).1 ||| 0x3)).zeroPage
          (0xFFC00000#32 + 4#32 * (0x400#32 * (va >>> 22)))
      = vm.addTable va := by
  have store
      : Paging.store { vm with pmm := (getPage vm.pmm).2 }
          (0xFFFFF000#32 ||| va >>> 22 <<< 2)
          ((getPage vm.pmm).1 ||| 0x3)
        = {
          vm with
          phys := vm.phys.store32 (vm.directorySlot va) ((getPage vm.pmm).1 ||| 0x3)
          pmm := (getPage vm.pmm).2
        } := by
    rw [← recursive.directoryWindow va]
    rfl
  rw [store, Paging.zeroPage, Paging.tablePage, Paging.directoryEntry]
  have entered := vm.phys.load32_store32_same (vm.directorySlot va)
    ((getPage vm.pmm).1 ||| 0x3)
  change { vm with
    phys := (vm.phys.store32 (vm.directorySlot va) ((getPage vm.pmm).1 ||| 0x3)).fill
      (frameOf ((vm.phys.store32 (vm.directorySlot va) ((getPage vm.pmm).1 ||| 0x3)).load32
        (vm.directorySlot va)))
      0 4096
    pmm := (getPage vm.pmm).2 } = _
  rw [entered, frameOf_or (getPage_aligned vm.pmm) (by decide)]
  rfl

/-- The alignment test of `map_page`. -/
theorem mod_pageSize_eq_zero_iff {a : Addr} : a % pageSize = 0 ↔ a.toNat % 4096 = 0 := by
  rw [← BitVec.toNat_inj, BitVec.toNat_umod]
  rfl

/-- The flags stay below the frame. -/
theorem pageFlags_lt (flags : BitVec 16)
    : (flags.setWidth 32 &&& 0b111111111111#32 ||| 1).toNat < 4096 := by
  rw [BitVec.toNat_or, pageOffset_toNat]
  have field := Nat.mod_lt (flags.setWidth 32).toNat (show 0 < 4096 by decide)
  exact Nat.or_lt_two_pow (n := 12) field (by decide)

/-- The entry that `map_page` writes names the page it was given. -/
theorem frameOf_pageEntry {page : Addr} (aligned : page.toNat % 4096 = 0) (flags : BitVec 16)
    : frameOf (page ||| flags.setWidth 32 &&& 0b111111111111#32 ||| 1) = page := by
  rw [BitVec.or_assoc]
  exact frameOf_or aligned (pageFlags_lt flags)

/-- The entry that `map_page` writes is present, whatever the flags. -/
theorem isPresent_pageEntry (page : Addr) (flags : BitVec 16)
    : IsPresent (page ||| flags.setWidth 32 &&& 0b111111111111#32 ||| 1) :=
  (show IsPresent 1 by decide).or_right _

/-- `map_page` on aligned addresses, read off the slots it reaches through the window. -/
theorem mapPage_eq (recursive : vm.Recursive) {page : Addr}
    (alignedPage : page.toNat % 4096 = 0) (aligned : va.toNat % 4096 = 0)
    (flags : BitVec 16)
    : mapPage vm page va flags
      = if IsPresent ((vm.withTable va).tableEntry va) then
          (some .mapPageMappingAlreadyPresent, vm.withTable va)
        else
          (none,
            (vm.withTable va).addEntry va
              (page ||| flags.setWidth 32 &&& 0b111111111111#32 ||| 1)) := by
  have directory : vm.load (0xFFFFF000#32 ||| va >>> 22 <<< 2) = vm.directoryEntry va := by
    rw [Paging.load, recursive.directoryWindow va]
    rfl
  have slot (vm : Paging)
      : vm.recursiveAddr (0xFFC00000#32 + 4#32 * (0x400#32 * (va >>> 22))
          + 4#32 * (va >>> 12 &&& 0b1111111111#32))
        = vm.tableSlot va :=
    vm.tableWindow (tablePointer_toNat va)
  have table : (if vm.directoryEntry va &&& 1 = 0 then vm.addTable va else vm)
      = vm.withTable va := by
    rw [Paging.withTable]
    by_cases upper : vm.directoryEntry va &&& 1 = 0
    · rw [if_pos upper]
      exact (if_neg (fun isPresent => isPresent upper)).symm
    · rw [if_neg upper]
      exact (if_pos upper).symm
  simp only [mapPage, mod_pageSize_eq_zero_iff.mpr alignedPage,
    mod_pageSize_eq_zero_iff.mpr aligned, ne_eq, not_true_eq_false, if_false, directory,
    recursive.createTable va, table]
  rw [Paging.load, Paging.store, slot]
  rfl

/-- A table for the page is there, or a free frame is taken for it. -/
theorem Paging.Sound.withTable (sound : vm.Sound) (below : va.toNat < 0xFFC00000)
    (left : (vm.withTable va).pmm.HasFree)
    : vm.Extends (vm.withTable va) ∧ IsPresent ((vm.withTable va).directoryEntry va) := by
  by_cases upper : IsPresent (vm.directoryEntry va)
  · rw [Paging.withTable, if_pos upper]
    exact ⟨sound.refl, upper⟩
  · rw [Paging.withTable, if_neg upper] at left ⊢
    have free := sound.ready.getPage.hasFree left
    refine ⟨sound.addTable free below upper, ?_⟩
    rw [Paging.addTable_directoryEntry sound.recursive.aligned
      (sound.freshFrame free).directory, if_pos rfl]
    exact IsPresent.or_right (by decide) _

/-- As long as frames are left, a mapping with a fresh frame maps the page and keeps all
others.
-/
theorem Paging.Sound.mapFreshPage (sound : vm.Sound) (aligned : va.toNat % 4096 = 0)
    (below : va.toNat < 0xFFC00000) (flags : BitVec 16)
    (left : (SimpleKernel.mapFreshPage vm va flags).pmm.HasFree)
    : vm.Extends (SimpleKernel.mapFreshPage vm va flags)
      ∧ ∃ entry, (SimpleKernel.mapFreshPage vm va flags).entry va = some entry := by
  have page := sound.ready.fresh ((mapFreshPage_draws vm va flags sound.ready).hasFree left)
  have drawn := sound.draw sound.ready.getPage
  have mapped := mapPage_eq drawn.sound.recursive page.aligned aligned flags
  simp only [SimpleKernel.mapFreshPage, mapped] at left ⊢
  have tableLeft
      : (Paging.withTable { vm with pmm := (getPage vm.pmm).2 } va).pmm.HasFree := by
    split at left <;> exact left
  obtain ⟨tabled, upper⟩ := drawn.sound.withTable below tableLeft
  have extended := drawn.trans tabled
  split
  · next lower => exact ⟨extended, _, Paging.entry_eq_some.mpr ⟨upper, lower, rfl⟩⟩
  · next lower =>
    have frame
        : frameOf ((getPage vm.pmm).1 ||| flags.setWidth 32 &&& 0b111111111111#32 ||| 1)
          ≠ 0 := by
      rw [frameOf_pageEntry page.aligned]
      intro zero
      have free := page.before
      rw [zero] at free
      exact sound.zero free
    exact ⟨extended.trans (tabled.sound.addEntry below upper lower frame), _,
      Paging.addEntry_entry tabled.sound.recursive.aligned
        (tabled.sound.tables va below upper).1 upper (isPresent_pageEntry _ flags)⟩

end SimpleKernel
