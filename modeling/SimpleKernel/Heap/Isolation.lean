import SimpleKernel.Heap.Backing
import SimpleKernel.Paging.Installing

/-! The pages of the heap have frames of their own.
A page of the heap is mapped to a frame that was free, so no other page shows it and it
holds no part of the page tables. Stores through the tables then change the byte they
address and nothing else, which is what a flat memory does.
-/

namespace SimpleKernel

open ByteMemory Runs

variable {vm vm' vm'' : Paging} {va other : Addr} {entry value : Word} {pmm' : Pmm} {frame : Nat}
  {flags : BitVec 16}

/-- A frame that holds neither the directory nor a table, and to which no page is mapped. -/
structure Paging.Unnamed (vm : Paging) (frame : Nat) : Prop where
  notDirectory : frame ≠ frameNumber vm.directory
  notTable
    : ∀ va : Addr,
        va.toNat < 0xFFC00000
        → IsPresent (vm.directoryEntry va)
        → frame ≠ frameNumber (vm.directoryEntry va)
  unmapped
    : ∀ (va : Addr) (entry : Word),
        va.toNat < 0xFFC00000 → vm.entry va = some entry → frame ≠ frameNumber entry

/-- Every page of the heap has a frame of its own, and no frame in use is free. -/
structure Paging.Isolates (vm : Paging) : Prop where
  backs : vm.BacksHeap
  taken
    : ∀ (va : Addr) (entry : Word),
        va.toNat < 0xFFC00000
        → vm.entry va = some entry
        → ¬vm.pmm.Free (frameNumber entry)
  tables
    : ∀ va other : Addr,
        InHeap va
        → other.toNat < 0xFFC00000
        → IsPresent (vm.directoryEntry va)
        → IsPresent (vm.directoryEntry other)
        → frameNumber (vm.directoryEntry va) = frameNumber (vm.directoryEntry other)
        → va.toNat / 4194304 = other.toNat / 4194304
  notDirectory
    : ∀ (va : Addr) (entry : Word),
        InHeap va → vm.entry va = some entry → frameNumber entry ≠ frameNumber vm.directory
  notTable
    : ∀ (va other : Addr) (entry : Word),
        InHeap va
        → vm.entry va = some entry
        → other.toNat < 0xFFC00000
        → IsPresent (vm.directoryEntry other)
        → frameNumber entry ≠ frameNumber (vm.directoryEntry other)
  apart
    : ∀ (va other : Addr) (entry entry' : Word),
        InHeap va
        → other.toNat < 0xFFC00000
        → vm.entry va = some entry
        → vm.entry other = some entry'
        → frameNumber entry = frameNumber entry'
        → va.toNat / 4096 = other.toNat / 4096

/-- Pages of the heap were mapped to frames that had been free, and nothing else changed. -/
structure Paging.Enlarges (vm vm' : Paging) : Prop where
  isolates : vm'.Isolates
  free : ∀ k, vm'.pmm.Free k → vm.pmm.Free k
  kept
    : ∀ (va : Addr) (entry : Word),
        va.toNat < 0xFFC00000 → vm.entry va = some entry → vm'.entry va = some entry
  source
    : ∀ (va : Addr) (entry : Word),
        va.toNat < 0xFFC00000
        → vm'.entry va = some entry
        → vm.entry va = some entry ∨ InHeap va ∧ vm.pmm.Free (frameNumber entry)

/-- Nothing changes hands where nothing changes. -/
theorem Paging.Isolates.refl (isolates : vm.Isolates) : vm.Enlarges vm :=
  ⟨isolates, fun _ free => free, fun _ _ _ found => found, fun _ _ _ found => .inl found⟩

theorem Paging.Enlarges.trans (first : vm.Enlarges vm') (second : vm'.Enlarges vm'')
    : vm.Enlarges vm'' where
  isolates := second.isolates
  free k free := first.free k (second.free k free)
  kept va entry below found := second.kept va entry below (first.kept va entry below found)
  source va entry below found := by
    rcases second.source va entry below found with earlier | ⟨inHeap, free⟩
    · exact first.source va entry below earlier
    · exact .inr ⟨inHeap, first.free _ free⟩

/-- A free frame is named nowhere. -/
theorem Paging.Isolates.unnamed (isolates : vm.Isolates) (free : vm.pmm.Free frame)
    : vm.Unnamed frame where
  notDirectory := by
    rintro rfl
    exact isolates.backs.sound.directory free
  notTable va below isPresent := by
    rintro rfl
    exact (isolates.backs.sound.tables va below isPresent).2 free
  unmapped va entry below found := by
    rintro rfl
    exact isolates.taken va entry below found free

/-- Taking frames changes no table. -/
theorem Paging.Isolates.draw (isolates : vm.Isolates) (draws : vm.pmm.Draws pmm')
    : vm.Enlarges { vm with pmm := pmm' } where
  isolates := {
    backs := (isolates.backs.extends (isolates.backs.sound.draw draws)).backs
    taken := fun va entry below found free =>
      isolates.taken va entry below found (draws.free _ free)
    tables := isolates.tables
    notDirectory := isolates.notDirectory
    notTable := isolates.notTable
    apart := isolates.apart
  }
  free := draws.free
  kept _ _ _ found := found
  source _ _ _ found := .inl found

-----------------------------------------------------------------------------------------
-- A new table
-----------------------------------------------------------------------------------------

section Table

variable (sound : vm.Sound) (left : vm.pmm.HasFree) (absent : ¬IsPresent (vm.directoryEntry va))
include sound left absent

/-- A new table changes no translation. -/
theorem Paging.Sound.addTable_entry (below : va.toNat < 0xFFC00000)
    (belowOther : other.toNat < 0xFFC00000)
    : (vm.addTable va).entry other = vm.entry other := by
  have aligned := sound.recursive.aligned
  have fresh := sound.freshFrame left
  cases found : vm.entry other with
  | some entry => exact (sound.addTable left below absent).kept other entry belowOther found
  | none =>
      cases added : (vm.addTable va).entry other with
      | none => rfl
      | some entry =>
          obtain ⟨upper, lower, table⟩ := Paging.entry_eq_some.mp added
          rw [Paging.addTable_directoryEntry aligned fresh.directory] at upper
          split at upper
          · next same =>
            rw [Paging.addTable_cleared aligned fresh.directory same] at table
            rw [← table] at lower
            exact absurd rfl lower
          · next ne =>
            rw [Paging.addTable_tableEntry aligned fresh belowOther upper
              (sound.tables other belowOther upper).1 ne] at table
            rw [Paging.entry_eq_some.mpr ⟨upper, lower, table⟩] at found
            cases found

omit absent in
/-- A present entry is the new one, or an old one that has not changed. -/
theorem Paging.Sound.addTable_named
    (upper : IsPresent ((vm.addTable va).directoryEntry other))
    : other.toNat / 4194304 = va.toNat / 4194304
        ∧ frameNumber ((vm.addTable va).directoryEntry other) = frameNumber (getPage vm.pmm).1
      ∨ IsPresent (vm.directoryEntry other)
        ∧ frameNumber ((vm.addTable va).directoryEntry other)
          = frameNumber (vm.directoryEntry other) := by
  rw [Paging.addTable_directoryEntry sound.recursive.aligned (sound.freshFrame left).directory]
    at upper ⊢
  split at upper
  · next same =>
    rw [if_pos same, ← frameNumber_frameOf, frameOf_or (getPage_aligned vm.pmm) (by decide)]
    exact .inl ⟨same, rfl⟩
  · next ne =>
    rw [if_neg ne]
    exact .inr ⟨upper, rfl⟩

/-- A new table names no frame, and only its own is named anew. -/
theorem Paging.Unnamed.addTable (unnamed : vm.Unnamed frame)
    (other : frame ≠ frameNumber (getPage vm.pmm).1) (below : va.toNat < 0xFFC00000)
    : (vm.addTable va).Unnamed frame where
  notDirectory := unnamed.notDirectory
  notTable address inside upper := by
    rcases sound.addTable_named left upper with ⟨_, same⟩ | ⟨old, same⟩
    · rw [same]
      exact other
    · rw [same]
      exact unnamed.notTable address inside old
  unmapped address entry inside found := by
    rw [sound.addTable_entry left absent below inside] at found
    exact unnamed.unmapped address entry inside found

end Table

/-- A table in a free frame is shared with no other directory entry. -/
theorem Paging.Isolates.addTable (isolates : vm.Isolates) (left : vm.pmm.HasFree)
    (below : va.toNat < 0xFFC00000) (absent : ¬IsPresent (vm.directoryEntry va))
    : (vm.addTable va).Isolates := by
  have sound := isolates.backs.sound
  have fresh := isolates.unnamed (sound.ready.fresh left).before
  have draws := sound.ready.getPage
  have entries {other : Addr} (inside : other.toNat < 0xFFC00000)
      : (vm.addTable va).entry other = vm.entry other :=
    sound.addTable_entry left absent below inside
  refine {
    backs := (isolates.backs.extends (sound.addTable left below absent)).backs
    taken := fun address entry inside found free => ?_
    tables := fun first second inHeap inside upper upper' same => ?_
    notDirectory := fun address entry inHeap found => ?_
    notTable := fun address other entry inHeap found inside upper => ?_
    apart := fun first second entry entry' inHeap inside found found' same => ?_
  }
  · rw [entries inside] at found
    exact isolates.taken address entry inside found (draws.free _ free)
  · rcases sound.addTable_named left upper with ⟨index, named⟩ | ⟨old, named⟩
    · rcases sound.addTable_named left upper' with ⟨index', _⟩ | ⟨old', named'⟩
      · rw [index, index']
      · rw [named, named'] at same
        exact absurd same (fresh.notTable second inside old')
    · rcases sound.addTable_named left upper' with ⟨_, named'⟩ | ⟨old', named'⟩
      · rw [named, named'] at same
        exact absurd same.symm (fresh.notTable first inHeap.2 old)
      · rw [named, named'] at same
        exact isolates.tables first second inHeap inside old old' same
  · rw [entries inHeap.2] at found
    exact isolates.notDirectory address entry inHeap found
  · rw [entries inHeap.2] at found
    rcases sound.addTable_named left upper with ⟨_, named⟩ | ⟨old, named⟩
    · rw [named]
      exact (fresh.unmapped address entry inHeap.2 found).symm
    · rw [named]
      exact isolates.notTable address other entry inHeap found inside old
  · rw [entries inHeap.2] at found
    rw [entries inside] at found'
    exact isolates.apart first second entry entry' inHeap inside found found' same

-----------------------------------------------------------------------------------------
-- A new page
-----------------------------------------------------------------------------------------

/-- A page of the heap shares its table entry with no other page. -/
theorem Paging.Isolates.tableSlot_ne (isolates : vm.Isolates) (inHeap : InHeap va)
    (below : other.toNat < 0xFFC00000) (upper : IsPresent (vm.directoryEntry va))
    (upperOther : IsPresent (vm.directoryEntry other))
    (ne : other.toNat / 4096 ≠ va.toNat / 4096)
    : vm.tableSlot other ≠ vm.tableSlot va := by
  intro same
  have frames : frameNumber (vm.directoryEntry va) = frameNumber (vm.directoryEntry other) := by
    rw [← (vm.tableSlot_frame other).1, same, (vm.tableSlot_frame va).1]
  have index := isolates.tables va other inHeap below upper upperOther frames
  have first := vm.tableSlot_toNat other
  have second := vm.tableSlot_toNat va
  rw [Paging.directoryEntry, vm.directorySlot_congr index.symm] at first
  rw [Paging.directoryEntry] at second
  rw [same] at first
  omega

/-- A new entry maps its own page and changes no other. -/
theorem Paging.Isolates.addEntry_entry (isolates : vm.Isolates) (inHeap : InHeap va)
    (upper : IsPresent (vm.directoryEntry va)) (isPresent : IsPresent value)
    (below : other.toNat < 0xFFC00000)
    : (vm.addEntry va value).entry other
      = if other.toNat / 4096 = va.toNat / 4096 then some value else vm.entry other := by
  have sound := isolates.backs.sound
  have table := (sound.tables va inHeap.2 upper).1
  split
  · next same =>
    rw [Paging.entry_congr _ same]
    exact Paging.addEntry_entry sound.recursive.aligned table upper isPresent
  · next ne =>
    rw [Paging.entry, Paging.addEntry_directoryEntry sound.recursive.aligned table,
      Paging.addEntry_tableEntry sound.recursive.aligned table, Paging.entry]
    by_cases upperOther : IsPresent (vm.directoryEntry other)
    · rw [if_neg (isolates.tableSlot_ne inHeap below upper upperOther ne)]
    · rw [if_neg (fun both => upperOther both.1), if_neg (fun both => upperOther both.1)]

/-- Mapping a page of the heap to an unnamed frame that is in use keeps the pages apart. -/
theorem Paging.Isolates.addEntry (isolates : vm.Isolates) (inHeap : InHeap va)
    (upper : IsPresent (vm.directoryEntry va)) (lower : ¬IsPresent (vm.tableEntry va))
    (isPresent : IsPresent value) (notZero : frameOf value ≠ 0)
    (unnamed : vm.Unnamed (frameNumber value)) (inUse : ¬vm.pmm.Free (frameNumber value))
    : (vm.addEntry va value).Isolates := by
  have sound := isolates.backs.sound
  have table := (sound.tables va inHeap.2 upper).1
  have directory := Paging.addEntry_directoryEntry sound.recursive.aligned table value
  have entries {other : Addr} (below : other.toNat < 0xFFC00000) :=
    isolates.addEntry_entry inHeap upper isPresent below
  refine {
    backs := (isolates.backs.extends (sound.addEntry inHeap.2 upper lower notZero)).backs
    taken := fun address entry inside found => ?_
    tables := fun first second => ?_
    notDirectory := fun address entry inside found => ?_
    notTable := fun address other entry inside found below upperOther => ?_
    apart := fun first second entry entry' inside below found found' same => ?_
  }
  · rw [entries inside] at found
    split at found
    · obtain rfl := Option.some.inj found
      exact inUse
    · exact isolates.taken address entry inside found
  · rw [directory, directory]
    exact isolates.tables first second
  · rw [entries inside.2] at found
    split at found
    · obtain rfl := Option.some.inj found
      exact unnamed.notDirectory
    · exact isolates.notDirectory address entry inside found
  · rw [directory] at upperOther ⊢
    rw [entries inside.2] at found
    split at found
    · obtain rfl := Option.some.inj found
      exact unnamed.notTable other below upperOther
    · exact isolates.notTable address other entry inside found below upperOther
  · rw [entries inside.2] at found
    rw [entries below] at found'
    split at found
    · next here =>
      obtain rfl := Option.some.inj found
      split at found'
      · next there => rw [here, there]
      · exact absurd same (unnamed.unmapped second entry' below found')
    · split at found'
      · obtain rfl := Option.some.inj found'
        exact absurd same.symm (unnamed.unmapped first entry inside.2 found)
      · exact isolates.apart first second entry entry' inside below found found' same

/-- The entry of a page comes to name an unnamed frame, or stays. -/
theorem Paging.Isolates.addEntry_enlarges (isolates : vm.Isolates) (inHeap : InHeap va)
    (upper : IsPresent (vm.directoryEntry va)) (lower : ¬IsPresent (vm.tableEntry va))
    (isPresent : IsPresent value) (added : (vm.addEntry va value).Isolates)
    {start : Paging} (earlier : start.Enlarges vm) (fresh : start.pmm.Free (frameNumber value))
    : start.Enlarges (vm.addEntry va value) where
  isolates := added
  free k free := earlier.free k free
  kept address entry below found := by
    have kept := earlier.kept address entry below found
    rw [isolates.addEntry_entry inHeap upper isPresent below, if_neg]
    · exact kept
    · intro same
      rw [vm.entry_congr same] at kept
      exact lower ((Paging.entry_eq_some.mp kept).2.2 ▸ (Paging.entry_eq_some.mp kept).2.1)
  source address entry below found := by
    rw [isolates.addEntry_entry inHeap upper isPresent below] at found
    split at found
    · next same =>
      obtain rfl := Option.some.inj found
      refine .inr ⟨?_, fresh⟩
      simp only [InHeap] at inHeap ⊢
      omega
    · exact earlier.source address entry below found

/-- Making a table, where one is missing, changes no page. -/
theorem Paging.Isolates.withTable_entry (isolates : vm.Isolates) (inHeap : InHeap va)
    (left : (vm.withTable va).pmm.HasFree) (below : other.toNat < 0xFFC00000)
    : (vm.withTable va).entry other = vm.entry other := by
  have sound := isolates.backs.sound
  by_cases upper : IsPresent (vm.directoryEntry va)
  · rw [Paging.withTable, if_pos upper]
  · rw [Paging.withTable, if_neg upper] at left ⊢
    exact sound.addTable_entry (sound.ready.getPage.hasFree left) upper inHeap.2 below

/-- A table for a heap page takes a free frame, so that heap frames stay apart. -/
theorem Paging.Isolates.withTable (isolates : vm.Isolates) (inHeap : InHeap va)
    (left : (vm.withTable va).pmm.HasFree)
    : vm.Enlarges (vm.withTable va) := by
  have sound := isolates.backs.sound
  have entries {other : Addr} (below : other.toNat < 0xFFC00000) :=
    isolates.withTable_entry inHeap left below
  refine {
    isolates := ?_
    free := ?_
    kept := fun address entry below found => (entries below).trans found
    source := fun address entry below found => .inl ((entries below).symm.trans found)
  }
  · by_cases upper : IsPresent (vm.directoryEntry va)
    · rwa [Paging.withTable, if_pos upper]
    · rw [Paging.withTable, if_neg upper] at left ⊢
      exact isolates.addTable (sound.ready.getPage.hasFree left) inHeap.2 upper
  · rw [Paging.withTable]
    split
    · exact fun _ free => free
    · exact sound.ready.getPage.free

/-- A frame in use that is named nowhere stays so. -/
theorem Paging.Isolates.withTable_unnamed (isolates : vm.Isolates) (inHeap : InHeap va)
    (left : (vm.withTable va).pmm.HasFree) (unnamed : vm.Unnamed frame)
    (inUse : ¬vm.pmm.Free frame)
    : (vm.withTable va).Unnamed frame := by
  have sound := isolates.backs.sound
  by_cases upper : IsPresent (vm.directoryEntry va)
  · rwa [Paging.withTable, if_pos upper]
  · rw [Paging.withTable, if_neg upper] at left ⊢
    have before := sound.ready.getPage.hasFree left
    refine unnamed.addTable sound before upper ?_ inHeap.2
    rintro rfl
    exact inUse (sound.ready.fresh before).before

/-- As long as frames are left, mapping a page of the heap with a fresh frame keeps the pages
apart.
-/
theorem Paging.Isolates.mapFreshPage (isolates : vm.Isolates) (aligned : va.toNat % 4096 = 0)
    (inHeap : InHeap va) (flags : BitVec 16)
    (left : (SimpleKernel.mapFreshPage vm va flags).pmm.HasFree)
    : vm.Enlarges (SimpleKernel.mapFreshPage vm va flags) := by
  have sound := isolates.backs.sound
  have before := (mapFreshPage_draws vm va flags sound.ready).hasFree left
  have page := sound.ready.fresh before
  have drawn := isolates.draw sound.ready.getPage
  have unnamed : Paging.Unnamed { vm with pmm := (getPage vm.pmm).2 }
      (frameNumber (getPage vm.pmm).1) :=
    have named := isolates.unnamed page.before
    ⟨named.notDirectory, named.notTable, named.unmapped⟩
  have mapped := mapPage_eq drawn.isolates.backs.sound.recursive page.aligned aligned flags
  simp only [SimpleKernel.mapFreshPage, mapped] at left ⊢
  have tableLeft
      : (Paging.withTable { vm with pmm := (getPage vm.pmm).2 } va).pmm.HasFree := by
    split at left <;> exact left
  have tabled := drawn.isolates.withTable inHeap tableLeft
  have unnamed := drawn.isolates.withTable_unnamed inHeap tableLeft unnamed page.after
  have inUse := fun free => page.after (tabled.free _ free)
  have upper := (drawn.isolates.backs.sound.withTable inHeap.2 tableLeft).2
  have earlier := drawn.trans tabled
  split
  · exact earlier
  · next lower =>
    have frame := frameOf_pageEntry page.aligned flags
    have isPresent := isPresent_pageEntry (getPage vm.pmm).1 flags
    have named
        : frameNumber ((getPage vm.pmm).1 ||| flags.setWidth 32 &&& 0b111111111111#32 ||| 1)
          = frameNumber (getPage vm.pmm).1 := by
      rw [← frameNumber_frameOf, frame]
    have notZero
        : frameOf ((getPage vm.pmm).1 ||| flags.setWidth 32 &&& 0b111111111111#32 ||| 1)
          ≠ 0 := by
      rw [frame]
      intro zero
      have free := page.before
      rw [zero] at free
      exact sound.zero free
    rw [← named] at unnamed inUse
    have added := tabled.isolates.addEntry inHeap upper lower isPresent notZero unnamed inUse
    refine tabled.isolates.addEntry_enlarges inHeap upper lower isPresent added earlier ?_
    rw [named]
    exact page.before

/-- The mapping loop keeps the pages apart, by induction on its rounds. -/
theorem mapMissingPages_enlarges {rounds : Nat} {p endPage : Addr}
    (below : endPage.toNat < 0xFFC00000) (aligned : p.toNat % 4096 = 0)
    (low : 0xE0000000 ≤ p.toNat) (isolates : vm.Isolates)
    (mapped : mapMissingPages flags endPage rounds p vm = some vm') (left : vm'.pmm.HasFree)
    : vm.Enlarges vm' := by
  induction rounds generalizing p vm with
  | zero => simp [mapMissingPages] at mapped
  | succ rounds ih =>
      rw [mapMissingPages] at mapped
      split at mapped
      · next inside =>
        have small : p.toNat ≤ endPage.toNat := inside
        have next : (p + pageSize).toNat = p.toNat + 4096 := by bv_omega
        split at mapped
        · have draws := mapFreshPage_draws vm p flags isolates.backs.sound.ready
          have leftHere := (mapMissingPages_draws draws.ready mapped).hasFree left
          have here := isolates.mapFreshPage aligned ⟨low, by omega⟩ flags leftHere
          exact here.trans (ih (by omega) (by omega) here.isolates mapped)
        · exact ih (by omega) (by omega) isolates mapped
      · obtain rfl := Option.some.inj mapped
        exact isolates.refl

-----------------------------------------------------------------------------------------
-- The heap in physical memory
-----------------------------------------------------------------------------------------

/-- The byte that the tables show at an address. -/
def Paging.readByte (vm : Paging) (va : Addr) : Byte :=
  vm.phys (getPhysaddr vm va)

/-- A store through the tables. -/
def Paging.writeByte (vm : Paging) (va : Addr) (value : Byte) : Paging :=
  { vm with phys := vm.phys.store8 (getPhysaddr vm va) value }

/-- A translation shows the frame of the entry and the offset in the page. -/
theorem getPhysaddr_frame (recursive : vm.Recursive) (found : vm.entry va = some entry)
    : frameNumber (getPhysaddr vm va) = frameNumber entry
      ∧ (getPhysaddr vm va).toNat % 4096 = va.toNat % 4096 := by
  rw [getPhysaddr_eq recursive, found]
  have offset := pageOffset_toNat va
  have position := Masks.toNat_or_low 12 (frameOf_aligned entry)
    (y := va &&& 0b111111111111#32) (by omega)
  have frame := frameOf_toNat entry
  simp only [frameNumber]
  omega

/-- Two addresses that show the same byte are the same, if one of them is in the heap. -/
theorem Paging.Isolates.getPhysaddr_inj (isolates : vm.Isolates) {entry' : Word}
    (inHeap : InHeap va) (below : other.toNat < 0xFFC00000) (found : vm.entry va = some entry)
    (found' : vm.entry other = some entry') (same : getPhysaddr vm va = getPhysaddr vm other)
    : va = other := by
  have recursive := isolates.backs.sound.recursive
  obtain ⟨frame, offset⟩ := getPhysaddr_frame recursive found
  obtain ⟨frame', offset'⟩ := getPhysaddr_frame recursive found'
  rw [← same] at frame' offset'
  have page := isolates.apart va other entry entry' inHeap below found found'
    (frame.symm.trans frame')
  exact BitVec.eq_of_toNat_eq (by omega)

/-- A byte stored in one frame changes no word of another. -/
theorem load32_store8_frame (m : Memory) {slot target : Addr} (aligned : slot.toNat % 4 = 0)
    (ne : frameNumber slot ≠ frameNumber target) (value : Byte)
    : (m.store8 target value).load32 slot = m.load32 slot := by
  simp only [frameNumber] at ne
  refine Memory.load32_congr (fun x near => Memory.store8_of_ne _ _ ?_)
  rintro rfl
  bv_omega

section Store

variable (isolates : vm.Isolates) (inHeap : InHeap va) (found : vm.entry va = some entry)
  (value : Byte)
include isolates inHeap found

/-- A byte stored to a heap page does not reach the directory, which lies in another frame. -/
theorem Paging.Isolates.writeByte_directoryEntry (other : Addr)
    : (vm.writeByte va value).directoryEntry other = vm.directoryEntry other := by
  have recursive := isolates.backs.sound.recursive
  obtain ⟨frame, aligned⟩ := Paging.directorySlot_frame recursive.aligned other
  refine load32_store8_frame vm.phys aligned ?_ value
  rw [frame, (getPhysaddr_frame recursive found).1]
  exact (isolates.notDirectory va entry inHeap found).symm

/-- Nor does it reach a table. -/
theorem Paging.Isolates.writeByte_entry (below : other.toNat < 0xFFC00000)
    : (vm.writeByte va value).entry other = vm.entry other := by
  have recursive := isolates.backs.sound.recursive
  have directory := isolates.writeByte_directoryEntry inHeap found value
  by_cases upper : IsPresent (vm.directoryEntry other)
  · obtain ⟨frame, aligned⟩ := vm.tableSlot_frame other
    have table : (vm.writeByte va value).tableEntry other = vm.tableEntry other := by
      rw [Paging.tableEntry, Paging.tableSlot, directory, ← Paging.tableSlot]
      refine load32_store8_frame vm.phys aligned ?_ value
      rw [frame, (getPhysaddr_frame recursive found).1]
      exact (isolates.notTable va other entry inHeap found below upper).symm
    rw [Paging.entry, directory, table, Paging.entry]
  · rw [Paging.entry_of_absent upper, Paging.entry_of_absent]
    rwa [directory]

/-- A store to a page of the heap changes no translation, and of what can be read only the
byte it addresses.
-/
theorem Paging.Isolates.writeByte
    : (∀ other : Addr,
        other.toNat < 0xFFC00000
        → getPhysaddr (vm.writeByte va value) other = getPhysaddr vm other)
      ∧ ∀ (other : Addr) (entry' : Word),
          other.toNat < 0xFFC00000
          → vm.entry other = some entry'
          → (vm.writeByte va value).readByte other
            = if other = va then value else vm.readByte other := by
  have recursive := isolates.backs.sound.recursive
  have recursive' : (vm.writeByte va value).Recursive :=
    recursive.congr rfl (isolates.writeByte_directoryEntry inHeap found value _)
  have translation {other : Addr} (below : other.toNat < 0xFFC00000) :=
    getPhysaddr_congr recursive recursive' (isolates.writeByte_entry inHeap found value below)
  refine ⟨fun other below => translation below, fun other entry' below found' => ?_⟩
  rw [Paging.readByte, translation below]
  split
  · next same =>
    rw [same]
    exact Memory.store8_same vm.phys _ value
  · next ne =>
    refine Memory.store8_of_ne vm.phys value (fun same => ne ?_)
    exact (isolates.getPhysaddr_inj inHeap below found found' same.symm).symm

end Store

-----------------------------------------------------------------------------------------
-- Runs
-----------------------------------------------------------------------------------------

variable {s s' : HeapSession} {k k' : Kernel} {areas areas' : List Addr} {a q : Addr}
  {need : Nat} {call : HeapCall}

/-- An allocation maps fresh frames only. -/
theorem Granted.enlarges (granted : Granted k k' areas areas' a q need)
    (isolates : k.paging.Isolates) (left : k'.paging.pmm.HasFree)
    : k.paging.Enlarges k'.paging := by
  rcases granted.backs with ⟨_, same⟩ | ⟨flags, startPage, endPage, mapped, aligned, low, _, _, top⟩
  · rw [same]
    exact isolates.refl
  · exact mapMissingPages_enlarges top aligned low isolates mapped left

/-- A call changes the page tables only by an allocation. -/
theorem HeapSession.Sound.step_paging (sound : s.Sound areas)
    (enabled : heapMachine.enabled s call) (executed : heapMachine.exec s call = some s')
    : s'.kernel.paging = s.kernel.paging
      ∨ ∃ k' areas' a q need,
          Granted s.kernel k' areas areas' a q need ∧ s'.kernel.paging = k'.paging := by
  cases sound.step_cases enabled executed with
  | unchanged same => exact .inl (by rw [same])
  | granted granted _ same =>
      exact .inr ⟨_, _, _, _, _, granted, by rw [same, HeapSession.grant_kernel]⟩
  | released _ _ same => exact .inl (by rw [same])
  | moved _ granted _ _ same =>
      exact .inr ⟨_, _, _, _, _, granted, by rw [same, HeapSession.grant_kernel]⟩
  | wrote _ _ _ _ same => exact .inl (by rw [same])

/-- What allocations keep of the page tables while frames are left holds in every run. -/
theorem heapRun_paging (Holds : Paging → Prop)
    (allocates
      : ∀ {k k' areas areas' a q need},
          Granted k k' areas areas' a q need
          → k'.paging.pmm.HasFree
          → Holds k.paging
          → Holds k'.paging)
    (fresh : k.heapRan = false) (ready : (initHeap k).paging.pmm.Ready)
    (initially : (initHeap k).paging.pmm.HasFree → Holds (initHeap k).paging)
    (run : heapMachine.Reaches (Releases ChainSafe) ⟨initHeap k, []⟩ s)
    (left : s.kernel.paging.pmm.HasFree)
    : Holds s.kernel.paging := by
  have invariant
      : (∃ areas, s.Sound areas)
        ∧ s.kernel.paging.pmm.Ready
        ∧ (s.kernel.paging.pmm.HasFree → Holds s.kernel.paging) := by
    refine run.invariant ⟨⟨_, .initial fresh⟩, ready, initially⟩ ?_
    rintro s s' call ⟨⟨areas, sound⟩, ready, holds⟩ enabled guarded executed
    refine ⟨sound.step enabled guarded executed, ?_⟩
    rcases sound.step_paging enabled executed with same | ⟨_, _, _, _, _, granted, same⟩
    · rw [same]
      exact ⟨ready, holds⟩
    · have draws := granted.draws ready
      rw [same]
      exact ⟨draws.ready, fun left => allocates granted left (holds (draws.hasFree left))⟩
  exact invariant.2.2 left

/-- `init_heap` maps two pages to fresh frames. -/
theorem initHeap_paging (fresh : k.heapRan = false)
    : (initHeap k).paging = mapFreshPage (mapFreshPage k.paging heapStart 0x3) 0xFFBFF000 0x3 := by
  rw [initHeap, fresh]
  rfl

/-- `init_heap` draws frames for two pages and their tables. -/
theorem initHeap_draws (fresh : k.heapRan = false) (ready : k.paging.pmm.Ready)
    : (mapFreshPage k.paging heapStart 0x3).pmm.Draws (initHeap k).paging.pmm := by
  have first := mapFreshPage_draws k.paging heapStart 0x3 ready
  rw [initHeap_paging fresh]
  exact mapFreshPage_draws _ 0xFFBFF000 0x3 first.ready

/-- `init_heap` maps the first and the last page of the heap to frames of their own. -/
theorem Paging.Isolates.initHeap (isolates : k.paging.Isolates) (fresh : k.heapRan = false)
    (left : (SimpleKernel.initHeap k).paging.pmm.HasFree)
    : k.paging.Enlarges (SimpleKernel.initHeap k).paging := by
  have draws := initHeap_draws fresh isolates.backs.sound.ready
  have low : InHeap heapStart := ⟨by decide, by decide⟩
  have last : InHeap 0xFFBFF000 := ⟨by decide, by decide⟩
  have one := isolates.mapFreshPage (by decide) low 0x3 (draws.hasFree left)
  rw [initHeap_paging fresh] at left ⊢
  exact one.trans (one.isolates.mapFreshPage (by decide) last 0x3 left)

/-- A run has mapped pages of the heap only, as long as frames are left. -/
theorem Paging.Isolates.of_run (isolates : k.paging.Isolates) (fresh : k.heapRan = false)
    (run : heapMachine.Reaches (Releases ChainSafe) ⟨SimpleKernel.initHeap k, []⟩ s)
    (left : s.kernel.paging.pmm.HasFree)
    : k.paging.Enlarges s.kernel.paging :=
  heapRun_paging k.paging.Enlarges
    (fun granted left earlier => earlier.trans (granted.enlarges earlier.isolates left)) fresh
    (initHeap_draws fresh isolates.backs.sound.ready).ready (isolates.initHeap fresh) run left

/-- Below the heap nothing has been mapped or unmapped. -/
theorem Paging.Enlarges.below_heap (enlarges : vm.Enlarges vm') (below : va.toNat < 0xE0000000)
    : vm'.entry va = vm.entry va := by
  cases found : vm.entry va with
  | some entry => exact enlarges.kept va entry (by omega) found
  | none =>
      cases found' : vm'.entry va with
      | none => rfl
      | some entry =>
          rcases enlarges.source va entry (by omega) found' with earlier | ⟨inHeap, _⟩
          · rw [found] at earlier
            exact earlier.symm
          · have low := inHeap.1
            omega

/-- As long as frames are left in a run whose releases keep the chain, the heap has mapped
only pages of its own, to frames that were free. A store through the page tables to one of
them changes no translation, and of all that any page shows only the byte it addresses.
-/
theorem heapRun_isolated (fresh : k.heapRan = false) (isolates : k.paging.Isolates)
    (run : heapMachine.Reaches (Releases ChainSafe) ⟨initHeap k, []⟩ s)
    (left : s.kernel.paging.pmm.HasFree)
    : let vm := s.kernel.paging
      (∀ va : Addr, va.toNat < 0xE0000000 → vm.entry va = k.paging.entry va)
      ∧ (∀ (va : Addr) (entry : Word),
        InHeap va
        → vm.entry va = some entry
        → k.paging.entry va = some entry ∨ k.paging.pmm.Free (frameNumber entry))
      ∧ ∀ (va : Addr) (value : Byte),
          InHeap va
          → vm.Mapped va
          → (∀ other : Addr,
              other.toNat < 0xFFC00000
              → getPhysaddr (vm.writeByte va value) other = getPhysaddr vm other)
            ∧ ∀ (other : Addr) (entry : Word),
                other.toNat < 0xFFC00000
                → vm.entry other = some entry
                → (vm.writeByte va value).readByte other
                  = if other = va then value else vm.readByte other := by
  have enlarges := isolates.of_run fresh run left
  refine ⟨fun va below => enlarges.below_heap below, fun va entry inHeap found => ?_,
    fun va value inHeap mapped => ?_⟩
  · exact (enlarges.source va entry inHeap.2 found).imp_right And.right
  · obtain ⟨entry, found⟩ := (enlarges.isolates.backs.mapped_iff inHeap).mp mapped
    exact enlarges.isolates.writeByte inHeap found value

/-- Tables without heap pages keep their frames apart. -/
theorem bareKernel_isolates : bareKernel.paging.Isolates := by
  have nothing {va : Addr} {entry : Word} (below : va.toNat < 0xFFC00000)
      (found : bareKernel.paging.entry va = some entry)
      : False := by
    have upper := (Paging.entry_eq_some.mp found).1
    rw [bareKernel_directoryEntry below] at upper
    exact upper rfl
  refine {
    backs := bareKernel_backsHeap
    taken := fun _ _ below found => (nothing below found).elim
    tables := fun va other inHeap _ upper _ _ => ?_
    notDirectory := fun _ _ inHeap found => (nothing inHeap.2 found).elim
    notTable := fun _ _ _ inHeap found => (nothing inHeap.2 found).elim
    apart := fun _ _ _ _ inHeap _ found => (nothing inHeap.2 found).elim
  }
  rw [bareKernel_directoryEntry inHeap.2] at upper
  exact absurd rfl upper

/-- A byte of the first block, stored and read back through the tables, and one of another
page.
-/
theorem heapRun_isolated_reuse
    : ∃ s : HeapSession,
        s.live.length = 3
        ∧ (s.kernel.paging.writeByte 0xE0000038 7).readByte 0xE0000038 = 7
        ∧ (s.kernel.paging.writeByte 0xE0000038 7).readByte 0xE0001000
          = s.kernel.paging.readByte 0xE0001000 := by
  have replayed
      : (heapMachine.replay (Releases ChainSafe) reuseCalls ⟨initHeap bareKernel, []⟩).map
          (fun s =>
            (s.live.length,
              decide (s.kernel.paging.pmm.Free 0x700),
              decide (s.kernel.paging.Mapped 0xE0000038),
              decide (s.kernel.paging.Mapped 0xE0001000)))
        = some (3, true, true, true) := by
    decide +kernel
  obtain ⟨s, reached, facts⟩ := Option.map_eq_some_iff.mp replayed
  obtain ⟨count, facts⟩ := Prod.mk.inj facts
  obtain ⟨free, facts⟩ := Prod.mk.inj facts
  obtain ⟨here, there⟩ := Prod.mk.inj facts
  have run := Machine.Reaches.refl.replay reached
  have left : s.kernel.paging.pmm.HasFree := ⟨0x700, of_decide_eq_true free⟩
  have inside : InHeap 0xE0000038 := ⟨by decide, by decide⟩
  have insideOther : InHeap 0xE0001000 := ⟨by decide, by decide⟩
  have backs := (bareKernel_isolates.of_run rfl run left).isolates.backs
  obtain ⟨_, found⟩ := (backs.mapped_iff inside).mp (of_decide_eq_true here)
  obtain ⟨_, foundOther⟩ := (backs.mapped_iff insideOther).mp (of_decide_eq_true there)
  have stores := (heapRun_isolated rfl bareKernel_isolates run left).2.2
  have apart := (stores 0xE0000038 7 inside (of_decide_eq_true here)).2
  exact ⟨s, count, (apart _ _ inside.2 found).trans (if_pos rfl),
    (apart _ _ insideOther.2 foundOther).trans (if_neg (by decide))⟩

end SimpleKernel
