import SimpleKernel.Library.Runs
import SimpleKernel.Paging.Unmapping

/-! The address space over runs.
`map_page` and `unmap_page` implement a map from pages to entries: a page is entered once,
and `unmap_page` replaces its entry by a word that is never taken out again. In between the
frames that `get_page` hands out may come and go.
-/

namespace SimpleKernel

open ByteMemory Runs

variable {vm vm' vm'' : Paging} {va other page physaddr virtualaddr : Addr} {pmm : Pmm}
  {value : Word} {flags : BitVec 16}

-----------------------------------------------------------------------------------------
-- What the tables are for
-----------------------------------------------------------------------------------------

inductive PagingCall
  | getPage
  | freePage (physaddr : Addr)
  | mapPage (physaddr virtualaddr : Addr) (flags : BitVec 16)
  | unmapPage (virtualaddr : Addr)

/-- The entry of every page, by its number. -/
abbrev AddressSpace := Nat → Option Word

def AddressSpace.translate (space : AddressSpace) (va : Addr) : Addr :=
  match space (va.toNat / 4096) with
  | some entry => frameOf entry ||| va &&& 0b111111111111#32
  | none => null

/-- The error of `map_page`: addresses inside a page, or a page that has an entry. -/
def AddressSpace.refuses (space : AddressSpace) (physaddr virtualaddr : Addr)
    : Option PageErrors :=
  if physaddr.toNat % 4096 ≠ 0 then some .mapPagePhysaddrUnaligned
  else if virtualaddr.toNat % 4096 ≠ 0 then some .mapPageVirtualaddrUnaligned
  else if space (virtualaddr.toNat / 4096) ≠ none then some .mapPageMappingAlreadyPresent
  else none

/-- A page without an entry is entered; a page that is unmapped shows the last frame. -/
def AddressSpace.call (space : AddressSpace) : PagingCall → AddressSpace
  | .getPage => space
  | .freePage _ => space
  | .mapPage physaddr virtualaddr flags =>
      if space.refuses physaddr virtualaddr = none then
        Function.update space (virtualaddr.toNat / 4096)
          (some (physaddr ||| flags.setWidth 32 &&& 0b111111111111#32 ||| 1))
      else space
  | .unmapPage virtualaddr => Function.update space (virtualaddr.toNat / 4096) (some (~~~0))

/-- The entries that the tables hold. -/
def Paging.space (vm : Paging) : AddressSpace :=
  fun number => vm.entry (BitVec.ofNat 32 (4096 * number))

/-- Below the window the tables hold the entries of `space`. -/
def Paging.Holds (vm : Paging) (space : AddressSpace) : Prop :=
  ∀ va : Addr, va.toNat < 0xFFC00000 → vm.entry va = space (va.toNat / 4096)

/-- The tables hold the entries read off them, as addresses of one page share theirs. -/
theorem Paging.holds_space (vm : Paging) : vm.Holds vm.space := by
  intro va _
  refine vm.entry_congr ?_
  rw [BitVec.toNat_ofNat]
  omega

/-- So they translate as these entries do. -/
theorem Paging.Holds.translate {space : AddressSpace} (holds : vm.Holds space)
    (recursive : vm.Recursive) (below : va.toNat < 0xFFC00000)
    : getPhysaddr vm va = space.translate va := by
  rw [getPhysaddr_eq recursive, holds va below]
  rfl

-----------------------------------------------------------------------------------------
-- Frames in the hands of callers
-----------------------------------------------------------------------------------------

/-- The frame is in use, and neither the directory nor a table lies there. -/
structure Paging.Lent (vm : Paging) (page : Addr) : Prop where
  aligned : page.toNat % 4096 = 0
  notZero : frameNumber page ≠ 0
  inside : frameNumber page < 8 * vm.pmm.size.toNat
  taken : ¬vm.pmm.Free (frameNumber page)
  notDirectory : frameNumber page ≠ frameNumber vm.directory
  notTable
    : ∀ va : Addr,
        va.toNat < 0xFFC00000
        → IsPresent (vm.directoryEntry va)
        → frameNumber (vm.directoryEntry va) ≠ frameNumber page

/-- The tables stay sound and every frame that was handed out stays apart from them. No frame
comes back.
-/
structure Paging.Keeps (vm vm' : Paging) : Prop where
  sound : vm'.Sound
  distinct : vm'.TablesDistinct
  lent : ∀ page, vm.Lent page → vm'.Lent page
  free : ∀ k, vm'.pmm.Free k → vm.pmm.Free k

theorem Paging.Keeps.trans (first : vm.Keeps vm') (second : vm'.Keeps vm'')
    : vm.Keeps vm'' :=
  ⟨second.sound, second.distinct, fun page lent => second.lent page (first.lent page lent),
    fun k free => first.free k (second.free k free)⟩

/-- The call of `map_page` gets as far as drawing a frame for a table. -/
def Paging.MapDraws (vm : Paging) (physaddr virtualaddr : Addr) : Prop :=
  physaddr.toNat % 4096 = 0
  ∧ virtualaddr.toNat % 4096 = 0
  ∧ ¬IsPresent (vm.directoryEntry virtualaddr)

instance (vm : Paging) (physaddr virtualaddr : Addr)
    : Decidable (vm.MapDraws physaddr virtualaddr) :=
  inferInstanceAs (Decidable (_ ∧ _ ∧ _))

section Calls

variable (sound : vm.Sound) (distinct : vm.TablesDistinct)
include sound distinct

/-- Nothing changes hands where nothing changes. -/
theorem Paging.Sound.keeps : vm.Keeps vm :=
  ⟨sound, distinct, fun _ lent => lent, fun _ free => free⟩

/-- Writing a word of a table moves no table. -/
theorem Paging.Sound.addEntry_keeps (below : va.toNat < 0xFFC00000)
    (upper : IsPresent (vm.directoryEntry va)) (value : Word)
    : vm.Keeps (vm.addEntry va value) := by
  have aligned := sound.recursive.aligned
  have table := (sound.tables va below upper).1
  have directoryEntry := Paging.addEntry_directoryEntry aligned table value
  refine {
    sound := {
      recursive := sound.recursive.addEntry table value
      ready := sound.ready
      zero := sound.zero
      directory := sound.directory
      tables := fun other => ?_
    }
    distinct := distinct.addEntry aligned table value
    lent := fun page lent =>
      ⟨lent.aligned, lent.notZero, lent.inside, lent.taken, lent.notDirectory, fun other => ?_⟩
    free := fun _ free => free
  }
  · rw [directoryEntry]
    exact sound.tables other
  · rw [directoryEntry]
    exact lent.notTable other

/-- It changes the entry of its own page only. -/
theorem Paging.Sound.addEntry_holds {space : AddressSpace} (below : va.toNat < 0xFFC00000)
    (upper : IsPresent (vm.directoryEntry va)) (isPresent : IsPresent value)
    (holds : vm.Holds space)
    : (vm.addEntry va value).Holds
        (Function.update space (va.toNat / 4096) (some value)) := by
  intro other inside
  have table := (sound.tables va below upper).1
  by_cases same : other.toNat / 4096 = va.toNat / 4096
  · rw [same, Function.update_self, Paging.entry_congr _ same]
    exact Paging.addEntry_entry sound.recursive.aligned table upper isPresent
  · rw [Function.update_of_ne same, distinct.addEntry_others sound.recursive below upper _ same]
    exact holds other inside

/-- A new table takes a free frame, which was lent to nobody. -/
theorem Paging.Sound.withTable_keeps
    (left : ¬IsPresent (vm.directoryEntry va) → vm.pmm.HasFree)
    (below : va.toNat < 0xFFC00000)
    : vm.Keeps (vm.withTable va) := by
  rw [Paging.withTable]
  split
  · exact sound.keeps distinct
  · next absent =>
    have left := left absent
    have fresh := sound.freshFrame left
    have taken := sound.ready.fresh left
    refine {
      sound := (sound.addTable left below absent).sound
      distinct := distinct.addTable sound.recursive fresh
      lent := fun page lent => {
        aligned := lent.aligned
        notZero := lent.notZero
        inside := lent.inside
        taken := fun free => lent.taken (sound.ready.getPage.free _ free)
        notDirectory := lent.notDirectory
        notTable := fun other inside upper => ?_
      }
      free := sound.ready.getPage.free
    }
    rw [Paging.addTable_directoryEntry sound.recursive.aligned fresh.directory] at upper ⊢
    split at upper
    · next same =>
      rw [if_pos same, ← frameNumber_frameOf, frameOf_or taken.aligned (by decide)]
      intro named
      exact lent.taken (named ▸ taken.before)
    · next ne =>
      rw [if_neg ne]
      exact lent.notTable other inside upper

/-- `map_page` answers and enters what the abstract address space does. A frame is needed
only where it makes a table.
-/
theorem Paging.Sound.mapPage_call {space : AddressSpace}
    (left : vm.MapDraws physaddr virtualaddr → vm.pmm.HasFree)
    (below : virtualaddr.toNat < 0xFFC00000) (holds : vm.Holds space)
    : (mapPage vm physaddr virtualaddr flags).1 = space.refuses physaddr virtualaddr
      ∧ vm.Keeps (mapPage vm physaddr virtualaddr flags).2
      ∧ (mapPage vm physaddr virtualaddr flags).2.Holds
          (space.call (.mapPage physaddr virtualaddr flags)) := by
  have recursive := sound.recursive
  rw [AddressSpace.call, AddressSpace.refuses]
  by_cases alignedPage : physaddr.toNat % 4096 = 0
  · by_cases aligned : virtualaddr.toNat % 4096 = 0
    · rw [if_neg (not_not.mpr alignedPage), if_neg (not_not.mpr aligned),
        ← holds virtualaddr below]
      cases found : vm.entry virtualaddr with
      | some entry =>
          rw [mapPage_of_mapped recursive alignedPage aligned found]
          exact ⟨rfl, sound.keeps distinct, holds⟩
      | none =>
          have left (absent : ¬IsPresent (vm.directoryEntry virtualaddr)) : vm.pmm.HasFree :=
            left ⟨alignedPage, aligned, absent⟩
          have tabled := sound.withTable_keeps distinct left below
          have prepared :=
            distinct.withTable recursive (fun absent => sound.freshFrame (left absent)) below
          have missing := prepared.entry virtualaddr below
          have lower : ¬IsPresent ((vm.withTable virtualaddr).tableEntry virtualaddr) := by
            intro lower
            rw [Paging.entry_eq_some.mpr ⟨prepared.upper, lower, rfl⟩, found] at missing
            cases missing
          have same : (vm.withTable virtualaddr).Holds space := fun other inside =>
            (prepared.entry other inside).trans (holds other inside)
          rw [mapPage_eq recursive alignedPage aligned, if_neg lower]
          exact ⟨rfl,
            tabled.trans (tabled.sound.addEntry_keeps tabled.distinct below prepared.upper _),
            tabled.sound.addEntry_holds tabled.distinct below prepared.upper
              (isPresent_pageEntry physaddr flags) same⟩
    · rw [if_neg (not_not.mpr alignedPage), if_pos aligned, mapPage,
        if_neg (not_not.mpr (mod_pageSize_eq_zero_iff.mpr alignedPage)),
        if_pos (mt mod_pageSize_eq_zero_iff.mp aligned)]
      exact ⟨rfl, sound.keeps distinct, holds⟩
  · rw [if_pos alignedPage, mapPage, if_pos (mt mod_pageSize_eq_zero_iff.mp alignedPage)]
    exact ⟨rfl, sound.keeps distinct, holds⟩

/-- `get_page` lends a frame that was lent to nobody. -/
theorem Paging.Sound.getPage_lent (left : vm.pmm.HasFree)
    : vm.Keeps { vm with pmm := (getPage vm.pmm).2 }
      ∧ Paging.Lent { vm with pmm := (getPage vm.pmm).2 } (getPage vm.pmm).1
      ∧ ¬vm.Lent (getPage vm.pmm).1 := by
  have draws := sound.ready.getPage
  have taken := sound.ready.fresh left
  have fresh := sound.freshFrame left
  refine ⟨⟨(sound.draw draws).sound, distinct, fun page lent => ?_, draws.free⟩, ?_,
    fun lent => ?_⟩
  · exact ⟨lent.aligned, lent.notZero, lent.inside, fun free => lent.taken (draws.free _ free),
      lent.notDirectory, lent.notTable⟩
  · exact {
      aligned := taken.aligned
      notZero := fun zero => sound.zero (zero ▸ taken.before)
      inside := taken.before.1
      taken := taken.after
      notDirectory := fresh.directory
      notTable := fresh.tables
    }
  · exact lent.taken taken.before

end Calls

/-- A frame that is returned is free, and nothing else changes. -/
theorem freePage_free (inside : frameNumber page < 8 * pmm.size.toNat) {k : Nat}
    : (freePage pmm page).Free k ↔ pmm.Free k ∨ k = frameNumber page := by
  have small : frameNumber page < 2 ^ 20 := frameNumber_lt page
  by_cases same : k = frameNumber page
  · refine iff_of_true ⟨same ▸ inside, ?_⟩ (.inr same)
    rw [freePage_bit _ _ (by omega), same]
    simp
  · rw [or_iff_left same]
    refine and_congr_right (fun bounded => ?_)
    have size := pmm.size.isLt
    rw [freePage_bit _ _ (by omega)]
    simp [same]

/-- `free_page` takes a lent frame back, and leaves the others lent. -/
theorem Paging.Sound.freePage_lent (sound : vm.Sound) (lent : vm.Lent page)
    : Paging.Sound { vm with pmm := freePage vm.pmm page }
      ∧ ∀ other,
          vm.Lent other
          → other ≠ page
          → Paging.Lent { vm with pmm := freePage vm.pmm page } other := by
  have free {k : Nat} := freePage_free (k := k) lent.inside
  refine ⟨{
    recursive := sound.recursive.congr rfl rfl
    ready := {
      offset := by
        rw [freePage_nextOffset]
        exact Nat.mod_lt _ (by decide)
      addressable := fun k after => ?_
      cache := fun _ => ⟨?_, ?_⟩
    }
    zero := fun after => ?_
    directory := fun after => ?_
    tables := fun va below upper => ?_
  }, fun other lentOther ne => ?_⟩
  · rcases free.mp after with before | rfl
    · exact sound.ready.addressable k before
    · exact frameNumber_lt page
  · rw [freePage_nextOffset]
    exact Nat.mod_lt _ (by decide)
  · rw [freePage_cached]
    exact free.mpr (.inr rfl)
  · rcases free.mp after with before | same
    · exact sound.zero before
    · exact lent.notZero same.symm
  · rcases free.mp after with before | same
    · exact sound.directory before
    · exact lent.notDirectory same.symm
  · refine (sound.tables va below upper).imp_right (fun taken after => ?_)
    rcases free.mp after with before | same
    · exact taken before
    · exact lent.notTable va below upper same
  · refine ⟨lentOther.aligned, lentOther.notZero, lentOther.inside, fun after => ?_,
      lentOther.notDirectory, lentOther.notTable⟩
    rcases free.mp after with before | same
    · exact lentOther.taken before
    · exact ne (address_eq_of_frameNumber lentOther.aligned lent.aligned same)

-----------------------------------------------------------------------------------------
-- Runs
-----------------------------------------------------------------------------------------

/-- The tables and the frames that `get_page` has handed out. -/
structure PagingSession where
  paging : Paging
  held : List Addr

def PagingSession.exec (s : PagingSession) : PagingCall → PagingSession
  | .getPage =>
      let (page, pmm) := SimpleKernel.getPage s.paging.pmm
      ⟨{ s.paging with pmm := pmm }, page :: s.held⟩
  | .freePage physaddr =>
      ⟨{ s.paging with pmm := SimpleKernel.freePage s.paging.pmm physaddr },
        s.held.erase physaddr⟩
  | .mapPage physaddr virtualaddr flags =>
      { s with paging := (SimpleKernel.mapPage s.paging physaddr virtualaddr flags).2 }
  | .unmapPage virtualaddr => { s with paging := SimpleKernel.unmapPage s.paging virtualaddr }

/-- Frames come back only from those who hold them, calls stay below the window, and a page is
unmapped only if it has a table: otherwise the store of `unmap_page` faults.
-/
def pagingMachine : Machine PagingSession PagingCall where
  enabled s
    | .getPage => True
    | .freePage physaddr => physaddr ∈ s.held
    | .mapPage _ virtualaddr _ => virtualaddr.toNat < 0xFFC00000
    | .unmapPage virtualaddr =>
        virtualaddr.toNat < 0xFFC00000
        ∧ IsPresent (s.paging.directoryEntry virtualaddr)
  exec s call := some (s.exec call)

/-- What draws a frame finds one. -/
def FrameLeft (s : PagingSession) : PagingCall → Prop
  | .getPage => s.paging.pmm.HasFree
  | .freePage _ => True
  | .mapPage physaddr virtualaddr _ =>
      s.paging.MapDraws physaddr virtualaddr → s.paging.pmm.HasFree
  | .unmapPage _ => True

instance (s : PagingSession) (call : PagingCall) : Decidable (pagingMachine.enabled s call) :=
  match call with
  | .getPage => inferInstanceAs (Decidable True)
  | .freePage physaddr => inferInstanceAs (Decidable (physaddr ∈ s.held))
  | .mapPage _ virtualaddr _ => inferInstanceAs (Decidable (virtualaddr.toNat < 0xFFC00000))
  | .unmapPage virtualaddr =>
      inferInstanceAs
        (Decidable
          (virtualaddr.toNat < 0xFFC00000
          ∧ IsPresent (s.paging.directoryEntry virtualaddr)))

instance (pmm : Pmm) : Decidable pmm.HasFree :=
  if free : pmm.Free pmm.cached then isTrue ⟨pmm.cached, free⟩
  else
    decidable_of_iff (∃ k, k < 8 * pmm.size.toNat ∧ pmm.Free k)
      ⟨fun ⟨k, _, free⟩ => ⟨k, free⟩, fun ⟨k, free⟩ => ⟨k, free.1, free⟩⟩

instance (s : PagingSession) (call : PagingCall) : Decidable (FrameLeft s call) :=
  match call with
  | .getPage => inferInstanceAs (Decidable s.paging.pmm.HasFree)
  | .freePage _ => inferInstanceAs (Decidable True)
  | .mapPage physaddr virtualaddr _ =>
      inferInstanceAs
        (Decidable (s.paging.MapDraws physaddr virtualaddr → s.paging.pmm.HasFree))
  | .unmapPage _ => inferInstanceAs (Decidable True)

/-- The frames held are all different, and apart from the tables. -/
structure PagingSession.Ordered (s : PagingSession) : Prop where
  sound : s.paging.Sound
  distinct : s.paging.TablesDistinct
  unique : s.held.Nodup
  lent : ∀ page ∈ s.held, s.paging.Lent page

/-- The session is ordered and its tables hold the abstract entries. -/
structure PagingSession.Implements (s : PagingSession) (space : AddressSpace) : Prop where
  ordered : s.Ordered
  holds : s.paging.Holds space

/-- Frames that are held stay apart under calls that keep the tables sound. -/
theorem PagingSession.Ordered.keeps {s : PagingSession} (ordered : s.Ordered)
    (keeps : s.paging.Keeps vm)
    : PagingSession.Ordered { s with paging := vm } :=
  ⟨keeps.sound, keeps.distinct, ordered.unique,
    fun page member => keeps.lent page (ordered.lent page member)⟩

/-- Every call is a call of the abstract address space. -/
theorem PagingSession.Implements.exec {s : PagingSession} {space : AddressSpace}
    (implements : s.Implements space) {call : PagingCall}
    (enabled : pagingMachine.enabled s call) (left : FrameLeft s call)
    : (s.exec call).Implements (space.call call) := by
  obtain ⟨ordered, holds⟩ := implements
  have sound := ordered.sound
  cases call with
  | getPage =>
      obtain ⟨keeps, lent, new⟩ := sound.getPage_lent ordered.distinct left
      refine ⟨⟨keeps.sound, keeps.distinct, ?_, fun page member => ?_⟩, holds⟩
      · exact List.nodup_cons.mpr ⟨fun member => new (ordered.lent _ member), ordered.unique⟩
      · rcases List.mem_cons.mp member with rfl | earlier
        · exact lent
        · exact keeps.lent page (ordered.lent page earlier)
  | freePage physaddr =>
      obtain ⟨sound, others⟩ := sound.freePage_lent (ordered.lent physaddr enabled)
      refine ⟨⟨sound, ordered.distinct, ordered.unique.erase physaddr,
        fun page member => ?_⟩, holds⟩
      obtain ⟨ne, earlier⟩ := ordered.unique.mem_erase_iff.mp member
      exact others page (ordered.lent page earlier) ne
  | mapPage physaddr virtualaddr flags =>
      obtain ⟨_, keeps, holds⟩ := sound.mapPage_call ordered.distinct left enabled holds
      exact ⟨ordered.keeps keeps, holds⟩
  | unmapPage virtualaddr =>
      obtain ⟨below, upper⟩ := enabled
      rw [PagingSession.exec, unmapPage_eq]
      exact ⟨ordered.keeps (sound.addEntry_keeps ordered.distinct below upper _),
        sound.addEntry_holds ordered.distinct below upper (by decide) holds⟩

/-- The free frames and those handed out were free at the start. -/
structure PagingSession.DrawnFrom (s : PagingSession) (pmm : Pmm) : Prop where
  free : ∀ k, s.paging.pmm.Free k → pmm.Free k
  held : ∀ page ∈ s.held, pmm.Free (frameNumber page)

/-- No call makes a frame free that was not free at the start, or held since. -/
theorem PagingSession.DrawnFrom.exec {s : PagingSession} (drawn : s.DrawnFrom pmm)
    (ordered : s.Ordered) {call : PagingCall} (enabled : pagingMachine.enabled s call)
    (left : FrameLeft s call)
    : (s.exec call).DrawnFrom pmm := by
  have sound := ordered.sound
  cases call with
  | getPage =>
      have draws := sound.ready.getPage
      have taken := sound.ready.fresh left
      refine ⟨fun k free => drawn.free k (draws.free k free), fun page member => ?_⟩
      rcases List.mem_cons.mp member with rfl | earlier
      · exact drawn.free _ taken.before
      · exact drawn.held page earlier
  | freePage physaddr =>
      have lent := ordered.lent physaddr enabled
      refine ⟨fun k free => ?_, fun page member => drawn.held page (List.mem_of_mem_erase member)⟩
      rcases (freePage_free lent.inside).mp free with before | rfl
      · exact drawn.free k before
      · exact drawn.held physaddr enabled
  | mapPage physaddr virtualaddr flags =>
      obtain ⟨_, keeps, _⟩ :=
        sound.mapPage_call ordered.distinct left enabled s.paging.holds_space
      exact ⟨fun k free => drawn.free k (keeps.free k free), drawn.held⟩
  | unmapPage virtualaddr =>
      rw [PagingSession.exec, unmapPage_eq]
      exact ⟨drawn.free, drawn.held⟩

/-- What a whole list of calls implements, and where its frames are from. -/
theorem pagingReplay_implements (sound : vm.Sound) (distinct : vm.TablesDistinct)
    {calls : List PagingCall} {s : PagingSession}
    (replayed : pagingMachine.replay FrameLeft calls ⟨vm, []⟩ = some s)
    : s.Implements (calls.foldl AddressSpace.call vm.space) ∧ s.DrawnFrom vm.pmm := by
  have initially : PagingSession.Implements ⟨vm, []⟩ vm.space :=
    ⟨⟨sound, distinct, List.nodup_nil, by simp⟩, vm.holds_space⟩
  have drawn : PagingSession.DrawnFrom ⟨vm, []⟩ vm.pmm := ⟨fun _ free => free, by simp⟩
  refine Machine.replay_follows
    (R := fun s space => s.Implements space ∧ s.DrawnFrom vm.pmm)
    (fun ⟨implements, drawn⟩ enabled left returned => ?_) ⟨initially, drawn⟩ replayed
  obtain rfl := Option.some.inj returned
  exact ⟨implements.exec enabled left, drawn.exec implements.ordered enabled left⟩

/-- No call unmaps the page. -/
def Spares (calls : List PagingCall) (va : Addr) : Prop :=
  ∀ other, .unmapPage other ∈ calls → other.toNat / 4096 ≠ va.toNat / 4096

/-- An entry stays as long as its page is spared. -/
theorem AddressSpace.call_kept {space : AddressSpace} {entry : Word}
    (found : space (va.toNat / 4096) = some entry) {call : PagingCall}
    (spared : ∀ other, call = .unmapPage other → other.toNat / 4096 ≠ va.toNat / 4096)
    : space.call call (va.toNat / 4096) = some entry := by
  cases call with
  | getPage => exact found
  | freePage _ => exact found
  | mapPage physaddr virtualaddr flags =>
      rw [AddressSpace.call]
      split
      · next entered =>
        refine (Function.update_of_ne (fun same => ?_) _ _).trans found
        rw [AddressSpace.refuses, ← same, found] at entered
        split_ifs at entered with _ _ absent
        exact absent (Option.some_ne_none entry)
      · exact found
  | unmapPage other =>
      exact (Function.update_of_ne (spared other rfl).symm _ _).trans found

/-- The same for a list of calls, by induction on it. -/
theorem AddressSpace.calls_kept {space : AddressSpace} {entry : Word}
    {calls : List PagingCall} (found : space (va.toNat / 4096) = some entry)
    (spared : Spares calls va)
    : calls.foldl AddressSpace.call space (va.toNat / 4096) = some entry := by
  induction calls generalizing space with
  | nil => exact found
  | cons call rest ih =>
      refine ih (AddressSpace.call_kept found (fun other same => ?_)) (fun other later => ?_)
      · exact spared other (same ▸ List.mem_cons_self)
      · exact spared other (List.mem_cons_of_mem _ later)

/-- These tables are sound: the frames of the directory and of the table are in use. -/
theorem kernelTables_sound : kernelTables.Sound := by
  refine {
    recursive := kernelTables_recursive
    ready := ⟨by decide, fun k free => ?_, fun _ => ⟨by decide, by decide⟩⟩
    zero := by decide
    directory := by decide
    tables := fun va below upper => ?_
  }
  · have inside : k < 8 * 0x100 := free.1
    omega
  · rcases kernelTables_frame upper with ⟨_, frame⟩ | ⟨slot, _⟩
    · rw [frame]
      decide
    · omega

end SimpleKernel
