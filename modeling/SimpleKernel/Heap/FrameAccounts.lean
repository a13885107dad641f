import SimpleKernel.Heap.Isolation

/-! No frame is lost.
Every frame that was free when the heap started is still free, or backs one page of the heap,
or holds one of the heap's tables.
-/

namespace SimpleKernel

open ByteMemory Runs

variable {vm vm' vm'' : Paging} {va other : Addr} {entry : Word} {pmm : Pmm} {frame : Nat}
  {flags : BitVec 16}

def Paging.BacksPage (vm : Paging) (frame : Nat) : Prop :=
  ∃ va entry, InHeap va ∧ vm.entry va = some entry ∧ frameNumber entry = frame

def Paging.HoldsTable (vm : Paging) (frame : Nat) : Prop :=
  ∃ va,
    InHeap va
    ∧ IsPresent (vm.directoryEntry va)
    ∧ frameNumber (vm.directoryEntry va) = frame

/-- Every frame taken backs a page or holds a table of the heap, and those of the heap stay.
-/
structure Paging.Accounts (vm vm' : Paging) : Prop where
  enlarges : vm.Enlarges vm'
  directory
    : ∀ va : Addr,
        InHeap va
        → IsPresent (vm.directoryEntry va)
        → vm'.directoryEntry va = vm.directoryEntry va
  taken
    : ∀ k, vm.pmm.Free k → vm'.pmm.Free k ∨ vm'.BacksPage k ∨ vm'.HoldsTable k
  table : ∀ k, vm'.HoldsTable k → vm.HoldsTable k ∨ vm.pmm.Free k

/-- A frame that backs a page goes on doing so, as no entry is lost. -/
theorem Paging.Enlarges.backsPage (enlarges : vm.Enlarges vm') (backs : vm.BacksPage frame)
    : vm'.BacksPage frame := by
  obtain ⟨va, entry, inHeap, found, same⟩ := backs
  exact ⟨va, entry, inHeap, enlarges.kept va entry inHeap.2 found, same⟩

/-- A frame that holds a table goes on doing so. -/
theorem Paging.Accounts.holdsTable (accounts : vm.Accounts vm') (holds : vm.HoldsTable frame)
    : vm'.HoldsTable frame := by
  obtain ⟨va, inHeap, upper, same⟩ := holds
  have kept := accounts.directory va inHeap upper
  exact ⟨va, inHeap, kept.symm ▸ upper, kept.symm ▸ same⟩

/-- Nothing is drawn where nothing changes. -/
theorem Paging.Isolates.accounts_refl (isolates : vm.Isolates) : vm.Accounts vm :=
  ⟨isolates.refl, fun _ _ _ => rfl, fun _ free => .inl free, fun _ holds => .inl holds⟩

theorem Paging.Accounts.trans (first : vm.Accounts vm') (second : vm'.Accounts vm'')
    : vm.Accounts vm'' where
  enlarges := first.enlarges.trans second.enlarges
  directory va inHeap upper := by
    have kept := first.directory va inHeap upper
    exact (second.directory va inHeap (kept.symm ▸ upper)).trans kept
  taken k free := by
    rcases first.taken k free with left | backs | holds
    · exact second.taken k left
    · exact .inr (.inl (second.enlarges.backsPage backs))
    · exact .inr (.inr (second.holdsTable holds))
  table k holds := by
    rcases second.table k holds with earlier | free
    · exact first.table k earlier
    · exact .inr (first.enlarges.free k free)

-----------------------------------------------------------------------------------------
-- Mapping a page
-----------------------------------------------------------------------------------------

/-- A request takes the frame it hands out and no other. -/
theorem Pmm.Ready.getPage_other (ready : pmm.Ready) (free : pmm.Free frame)
    (ne : frame ≠ frameNumber (SimpleKernel.getPage pmm).1)
    : (SimpleKernel.getPage pmm).2.Free frame := by
  have cache := ready.cache ⟨frame, free⟩
  rw [getPage_frameNumber (ready.addressable _ cache.free)] at ne
  exact (getPage_free cache).mpr ⟨free, ne⟩

/-- A new table of the heap is in the frame taken for it. -/
theorem Paging.Isolates.withTable_accounts (isolates : vm.Isolates) (inHeap : InHeap va)
    (left : (vm.withTable va).pmm.HasFree)
    : vm.Accounts (vm.withTable va) := by
  have sound := isolates.backs.sound
  have enlarges := isolates.withTable inHeap left
  by_cases upper : IsPresent (vm.directoryEntry va)
  · rw [Paging.withTable, if_pos upper]
    exact isolates.accounts_refl
  · rw [Paging.withTable, if_neg upper] at left enlarges ⊢
    have before := sound.ready.getPage.hasFree left
    have directory := Paging.addTable_directoryEntry sound.recursive.aligned
      (sound.freshFrame before).directory va
    refine {
      enlarges := enlarges
      directory := fun other inside present => ?_
      taken := fun k free => ?_
      table := fun k holds => ?_
    }
    · rw [directory, if_neg]
      intro same
      rw [Paging.directoryEntry, vm.directorySlot_congr same] at present
      exact upper present
    · by_cases same : k = frameNumber (getPage vm.pmm).1
      · refine .inr (.inr ⟨va, inHeap, ?_, ?_⟩)
        · rw [directory, if_pos rfl]
          exact IsPresent.or_right (by decide) _
        · rw [directory, if_pos rfl, same, ← frameNumber_frameOf,
            frameOf_or (getPage_aligned vm.pmm) (by decide)]
      · exact .inl (sound.ready.getPage_other free same)
    · obtain ⟨other, inside, present, rfl⟩ := holds
      rcases sound.addTable_named before present with ⟨_, named⟩ | ⟨old, named⟩
      · rw [named]
        exact .inr (sound.ready.fresh before).before
      · rw [named]
        exact .inl ⟨other, inside, old, rfl⟩

/-- An unmapped page of the heap takes the frame it is mapped to, and one for its table. No
other page changes.
-/
theorem Paging.Isolates.mapFreshPage_accounts (isolates : vm.Isolates)
    (aligned : va.toNat % 4096 = 0) (inHeap : InHeap va) (unmapped : vm.entry va = none)
    (flags : BitVec 16) (left : (SimpleKernel.mapFreshPage vm va flags).pmm.HasFree)
    : vm.Accounts (SimpleKernel.mapFreshPage vm va flags)
      ∧ ∀ other : Addr,
          other.toNat < 0xFFC00000
          → other.toNat / 4096 ≠ va.toNat / 4096
          → (SimpleKernel.mapFreshPage vm va flags).entry other = vm.entry other := by
  have enlarges := isolates.mapFreshPage aligned inHeap flags left
  have sound := isolates.backs.sound
  have page := sound.ready.fresh ((mapFreshPage_draws vm va flags sound.ready).hasFree left)
  have drawn := isolates.draw sound.ready.getPage
  have mapped := mapPage_eq drawn.isolates.backs.sound.recursive page.aligned aligned flags
  simp only [SimpleKernel.mapFreshPage, mapped] at left enlarges ⊢
  have tableLeft
      : (Paging.withTable { vm with pmm := (getPage vm.pmm).2 } va).pmm.HasFree := by
    split at left <;> exact left
  have tabled := drawn.isolates.withTable_accounts inHeap tableLeft
  have upper := (drawn.isolates.backs.sound.withTable inHeap.2 tableLeft).2
  have entries {other : Addr} (below : other.toNat < 0xFFC00000) :=
    drawn.isolates.withTable_entry inHeap tableLeft below
  have lower
      : ¬IsPresent
          ((Paging.withTable { vm with pmm := (getPage vm.pmm).2 } va).tableEntry va) := by
    intro lower
    have found := Paging.entry_eq_some.mpr ⟨upper, lower, rfl⟩
    rw [entries inHeap.2] at found
    exact absurd (unmapped.symm.trans found) (by simp)
  rw [if_neg lower] at enlarges ⊢
  have isPresent := isPresent_pageEntry (getPage vm.pmm).1 flags
  have named
      : frameNumber ((getPage vm.pmm).1 ||| flags.setWidth 32 &&& 0b111111111111#32 ||| 1)
        = frameNumber (getPage vm.pmm).1 := by
    rw [← frameNumber_frameOf, frameOf_pageEntry page.aligned]
  generalize (getPage vm.pmm).1 ||| flags.setWidth 32 &&& 0b111111111111#32 ||| 1 = value
    at enlarges isPresent named ⊢
  have isolates' := tabled.enlarges.isolates
  have table := (isolates'.backs.sound.tables va inHeap.2 upper).1
  have directory := Paging.addEntry_directoryEntry
    isolates'.backs.sound.recursive.aligned table value
  have added {other : Addr} (below : other.toNat < 0xFFC00000) :=
    (isolates'.addEntry_entry inHeap upper isPresent below).trans
      (congrArg (ite _ (some value)) (entries below))
  refine ⟨{
    enlarges := enlarges
    directory := fun other inside present =>
      (directory other).trans (tabled.directory other inside present)
    taken := fun k free => ?_
    table := fun k holds => ?_
  }, fun other below ne => (added below).trans (if_neg ne)⟩
  · by_cases same : k = frameNumber (getPage vm.pmm).1
    · have backs := (added inHeap.2).trans (if_pos rfl)
      exact .inr (.inl ⟨va, value, inHeap, backs, named.trans same.symm⟩)
    · rcases tabled.taken k (sound.ready.getPage_other free same) with left | backs | holds
      · exact .inl left
      · obtain ⟨other, entry, inside, found, frame⟩ := backs
        rw [entries inside.2] at found
        exact .inr (.inl (enlarges.backsPage ⟨other, entry, inside, found, frame⟩))
      · obtain ⟨other, inside, present, frame⟩ := holds
        rw [← directory other] at present frame
        exact .inr (.inr ⟨other, inside, present, frame⟩)
  · obtain ⟨other, inside, present, frame⟩ := holds
    rw [directory other] at present frame
    rcases tabled.table k ⟨other, inside, present, frame⟩ with earlier | free
    · exact .inl earlier
    · exact .inr (sound.ready.getPage.free k free)

/-- The mapping loop takes the frames of the pages it maps, by induction on its rounds. -/
theorem mapMissingPages_accounts {rounds : Nat} {p endPage : Addr}
    (below : endPage.toNat < 0xFFC00000) (aligned : p.toNat % 4096 = 0)
    (low : 0xE0000000 ≤ p.toNat) (isolates : vm.Isolates)
    (mapped : mapMissingPages flags endPage rounds p vm = some vm') (left : vm'.pmm.HasFree)
    : vm.Accounts vm' := by
  induction rounds generalizing p vm with
  | zero => simp [mapMissingPages] at mapped
  | succ rounds ih =>
      rw [mapMissingPages] at mapped
      split at mapped
      · next inside =>
        have small : p.toNat ≤ endPage.toNat := inside
        have next : (p + pageSize).toNat = p.toNat + 4096 := by bv_omega
        have inHeap : InHeap p := ⟨low, by omega⟩
        split at mapped
        · next missing =>
          have draws := mapFreshPage_draws vm p flags isolates.backs.sound.ready
          have leftHere := (mapMissingPages_draws draws.ready mapped).hasFree left
          have unmapped : vm.entry p = none := by
            cases found : vm.entry p with
            | none => rfl
            | some entry =>
                exact absurd missing ((isolates.backs.mapped_iff inHeap).mpr ⟨entry, found⟩)
          have here := (isolates.mapFreshPage_accounts aligned inHeap unmapped flags leftHere).1
          exact here.trans (ih (by omega) (by omega) here.enlarges.isolates mapped)
        · exact ih (by omega) (by omega) isolates mapped
      · obtain rfl := Option.some.inj mapped
        exact isolates.accounts_refl

-----------------------------------------------------------------------------------------
-- Runs
-----------------------------------------------------------------------------------------

variable {s s' : HeapSession} {k k' : Kernel} {areas areas' : List Addr} {a q : Addr}
  {need : Nat} {call : HeapCall} {start : Paging}

/-- An allocation accounts for the frames it draws: each backs a page or holds a table. By the
mapping loop.
-/
theorem Granted.accounts (granted : Granted k k' areas areas' a q need)
    (isolates : k.paging.Isolates) (left : k'.paging.pmm.HasFree)
    : k.paging.Accounts k'.paging := by
  rcases granted.backs with ⟨_, same⟩ | ⟨flags, startPage, endPage, mapped, aligned, low, _, _, top⟩
  · rw [same]
    exact isolates.accounts_refl
  · exact mapMissingPages_accounts top aligned low isolates mapped left

/-- `init_heap` takes the frames of its two pages and of their tables. -/
theorem Paging.Isolates.initHeap_accounts (isolates : k.paging.Isolates)
    (fresh : k.heapRan = false) (bare : ∀ va, InHeap va → k.paging.entry va = none)
    (left : (SimpleKernel.initHeap k).paging.pmm.HasFree)
    : k.paging.Accounts (SimpleKernel.initHeap k).paging := by
  have draws := initHeap_draws fresh isolates.backs.sound.ready
  have low : InHeap heapStart := ⟨by decide, by decide⟩
  have last : InHeap 0xFFBFF000 := ⟨by decide, by decide⟩
  obtain ⟨one, others⟩ := isolates.mapFreshPage_accounts (by decide) low (bare _ low) 0x3
    (draws.hasFree left)
  have unmapped := (others 0xFFBFF000 (by decide) (by decide)).trans (bare _ last)
  rw [initHeap_paging fresh] at left ⊢
  exact one.trans
    (one.enlarges.isolates.mapFreshPage_accounts (by decide) last unmapped 0x3 left).1

/-- The frames that were free: each is still free, or backs one page of the heap, or holds one
of its tables.
-/
structure Paging.Partitions (vm : Paging) (pmm : Pmm) : Prop where
  covers : ∀ k, pmm.Free k ↔ vm.pmm.Free k ∨ vm.BacksPage k ∨ vm.HoldsTable k
  notFree : ∀ k, vm.BacksPage k ∨ vm.HoldsTable k → ¬vm.pmm.Free k
  apart : ∀ k, vm.BacksPage k → ¬vm.HoldsTable k
  page
    : ∀ (va other : Addr) (entry entry' : Word),
        InHeap va
        → InHeap other
        → vm.entry va = some entry
        → vm.entry other = some entry'
        → frameNumber entry = frameNumber entry'
        → va.toNat / 4096 = other.toNat / 4096
  table
    : ∀ va other : Addr,
        InHeap va
        → InHeap other
        → IsPresent (vm.directoryEntry va)
        → IsPresent (vm.directoryEntry other)
        → frameNumber (vm.directoryEntry va) = frameNumber (vm.directoryEntry other)
        → va.toNat / 4194304 = other.toNat / 4194304

/-- With no heap table at the start the accounts are a partition of the frames that were free.
-/
theorem Paging.Accounts.partitions (accounts : vm.Accounts vm')
    (bare : ∀ va, InHeap va → ¬IsPresent (vm.directoryEntry va))
    : vm'.Partitions vm.pmm := by
  have enlarges := accounts.enlarges
  have isolates := enlarges.isolates
  refine {
    covers := fun k => ⟨accounts.taken k, ?_⟩
    notFree := ?_
    apart := ?_
    page := fun va other entry entry' inHeap inside =>
      isolates.apart va other entry entry' inHeap inside.2
    table := fun va other inHeap inside => isolates.tables va other inHeap inside.2
  }
  · rintro (free | ⟨va, entry, inHeap, found, rfl⟩ | holds)
    · exact enlarges.free k free
    · rcases enlarges.source va entry inHeap.2 found with earlier | ⟨_, free⟩
      · exact absurd (Paging.entry_eq_some.mp earlier).1 (bare va inHeap)
      · exact free
    · rcases accounts.table k holds with ⟨va, inHeap, upper, _⟩ | free
      · exact absurd upper (bare va inHeap)
      · exact free
  · rintro k (⟨va, entry, inHeap, found, rfl⟩ | ⟨va, inHeap, upper, rfl⟩)
    · exact isolates.taken va entry inHeap.2 found
    · exact (isolates.backs.sound.tables va inHeap.2 upper).2
  · rintro k ⟨va, entry, inHeap, found, rfl⟩ ⟨other, inside, upper, same⟩
    exact isolates.notTable va other entry inHeap found inside.2 upper same.symm

/-- No frame is lost: in every run of a heap that starts without tables, as long as frames are
left, those that were free at the start are the free ones and those of the heap.
-/
theorem heapRun_partitions (fresh : k.heapRan = false) (isolates : k.paging.Isolates)
    (bare : ∀ va, InHeap va → ¬IsPresent (k.paging.directoryEntry va))
    (run : heapMachine.Reaches (Releases ChainSafe) ⟨initHeap k, []⟩ s)
    (left : s.kernel.paging.pmm.HasFree)
    : s.kernel.paging.Partitions k.paging.pmm := by
  have unmapped (va : Addr) (inHeap : InHeap va) : k.paging.entry va = none :=
    Paging.entry_of_absent (bare va inHeap)
  have accounts := heapRun_paging k.paging.Accounts
    (fun granted left earlier => earlier.trans (granted.accounts earlier.enlarges.isolates left))
    fresh (initHeap_draws fresh isolates.backs.sound.ready).ready
    (isolates.initHeap_accounts fresh unmapped) run left
  exact accounts.partitions bare

/-- The frames are partitioned behind a run. Witness: three live blocks, and a frame that is
left.
-/
theorem heapRun_partitions_reuse
    : ∃ s : HeapSession,
        s.live.length = 3 ∧ s.kernel.paging.Partitions bareKernel.paging.pmm := by
  have replayed
      : (heapMachine.replay (Releases ChainSafe) reuseCalls ⟨initHeap bareKernel, []⟩).map
          (fun s => (s.live.length, decide (s.kernel.paging.pmm.Free 0x700)))
        = some (3, true) := by
    decide +kernel
  obtain ⟨s, reached, facts⟩ := Option.map_eq_some_iff.mp replayed
  obtain ⟨count, free⟩ := Prod.mk.inj facts
  have run : heapMachine.Reaches (Releases ChainSafe) ⟨initHeap bareKernel, []⟩ s :=
    Machine.Reaches.refl.replay reached
  have bare (va : Addr) (inHeap : InHeap va)
      : ¬IsPresent (bareKernel.paging.directoryEntry va) := by
    rw [bareKernel_directoryEntry inHeap.2]
    decide
  exact ⟨s, count, heapRun_partitions rfl bareKernel_isolates bare run
    ⟨0x700, of_decide_eq_true free⟩⟩

end SimpleKernel
