import SimpleKernel.Boot.Placement

/-! Only real RAM is free after setup, or not.
A page below 4 GiB is released under its own frame number. The address of a page above
4 GiB loses its upper half when it is cast to a pointer, and its number is that of another
frame.
-/

namespace SimpleKernel

open ByteMemory

variable {mmap : List MmapEntry} {kernelEnd : Addr} {ram : Memory} {magic : Word}
  {mbh : MultibootInfo} {pmm : Pmm} {e f : MmapEntry} {i k x : Nat}

/-- No byte belongs to both entries. -/
def MmapEntry.Apart (e f : MmapEntry) : Prop :=
  ∀ x, ¬(e.Holds x ∧ f.Holds x)

instance : Std.Symm MmapEntry.Apart :=
  ⟨fun _ _ apart x both => apart x ⟨both.2, both.1⟩⟩

/-- Entries one behind the other share no byte. -/
theorem MmapEntry.Apart.of_le (before : e.addr.toNat + e.length.toNat ≤ f.addr.toNat)
    : e.Apart f := by
  rintro x ⟨inside, other⟩
  simp only [MmapEntry.Holds] at inside other
  omega

/-- Entries on page boundaries, none of which overlaps another. -/
structure AlignedMap (mmap : List MmapEntry) : Prop where
  aligned : ∀ e ∈ mmap, e.addr.toNat % 4096 = 0
  bounded : ∀ e ∈ mmap, e.addr.toNat + e.length.toNat ≤ 2 ^ 64
  disjoint : mmap.Pairwise MmapEntry.Apart

/-- Frame `k` lies wholly inside an available entry. -/
def FrameAvailable (mmap : List MmapEntry) (k : Nat) : Prop :=
  ∃ e ∈ mmap,
    e.type = memAvailable
    ∧ e.addr.toNat ≤ 4096 * k
    ∧ 4096 * k + 4096 ≤ e.addr.toNat + e.length.toNat

instance (mmap : List MmapEntry) (k : Nat) : Decidable (FrameAvailable mmap k) :=
  inferInstanceAs (Decidable (∃ e ∈ mmap, _))

/-- Frame `k` is unreserved RAM that neither the kernel nor the bitmap occupies. -/
structure UnreservedRam (mmap : List MmapEntry) (kernelEnd : Addr) (pmm : Pmm) (k : Nat)
    : Prop where
  available : FrameAvailable mmap k
  unreserved
    : ∀ e ∈ mmap,
        e.type ≠ memAvailable → ∀ x, 4096 * k ≤ x → x < 4096 * k + 4096 → ¬e.Holds x
  high : 0x100000 ≤ 4096 * k
  outsideKernel : 4096 * k + 4096 ≤ 0x100000 ∨ kernelEnd.toNat ≤ 4096 * k
  outsideBitmap
    : 4096 * k + 4096 ≤ pmm.bitmap.toNat ∨ pmm.bitmap.toNat + pmm.size.toNat ≤ 4096 * k

/-- No page above 4 GiB has, modulo 4 GiB, the frame number of a frame that the bitmap
covers behind the kernel and the bitmap's own pages, unless that frame is available too.
-/
def NoAliases (kernelEnd : Addr) (mmap : List MmapEntry) : Prop :=
  ∀ e ∈ mmap,
    e.type = memAvailable
    → ∀ i < (sanitizeAvailable mmap e).npages.toNat,
        2 ^ 32 ≤ e.addr.toNat + 4096 * i
        → (e.addr.toNat + 4096 * i) % 2 ^ 32 / 4096
            < 256 + (bootCombinedPageCount kernelEnd mmap).toNat
          ∨ 8 * (bootBitmapSize mmap).toNat ≤ (e.addr.toNat + 4096 * i) % 2 ^ 32 / 4096
          ∨ FrameAvailable mmap ((e.addr.toNat + 4096 * i) % 2 ^ 32 / 4096)

/-- One bit for each frame up to the end of the last available entry, in whole bytes. The
number of frames loses what does not fit into 32 bits.
-/
def truncatedBitmapBytes (mmap : List MmapEntry) : Nat :=
  (lastStop mmap / 4096 % 2 ^ 32 + 7) % 2 ^ 32 / 8

section Map

variable (map : AlignedMap mmap)
include map

/-- Frames of available entries hold no reserved byte. -/
theorem AlignedMap.unreserved (available : FrameAvailable mmap k) (member : f ∈ mmap)
    (reserved : f.type ≠ memAvailable) (low : 4096 * k ≤ x) (high : x < 4096 * k + 4096)
    : ¬f.Holds x := by
  obtain ⟨e, listed, type, start, stop⟩ := available
  have ne : e ≠ f := by
    rintro rfl
    exact reserved type
  exact fun holds => map.disjoint.forall listed member ne x ⟨⟨by omega, by omega⟩, holds⟩

/-- A page of a sanitized entry lies in the entry. -/
theorem AlignedMap.page_inside (member : e ∈ mmap)
    (inside : i < (sanitizeAvailable mmap e).npages.toNat)
    : (sanitizeAvailable mmap e).addr = e.addr
      ∧ 4096 * i + 4096 ≤ e.length.toNat := by
  obtain ⟨addr, shorter⟩ := sanitizeAvailable_aligned mmap (map.aligned e member)
    (map.bounded e member)
  rw [MmapEntry.npages_toNat] at inside
  exact ⟨addr, by omega⟩

/-- A bit of the bitmap is clear for the pages of available entries, by their truncated
addresses.
-/
theorem AlignedMap.free_iff (ram : Memory) (image : KernelImage kernelEnd)
    : (bootPmm ram kernelEnd mmap).Free k
      ↔ k < 8 * (bootBitmapSize mmap).toNat
        ∧ 256 + (bootCombinedPageCount kernelEnd mmap).toNat ≤ k
        ∧ ∃ e ∈ mmap,
            e.type = memAvailable
            ∧ ∃ i < (sanitizeAvailable mmap e).npages.toNat,
                (e.addr.toNat + 4096 * i) % 2 ^ 32 / 4096 = k := by
  have combined := image.bootCombinedEnd mmap
  rw [bootPmm_free_iff, List.mem_map]
  refine and_congr_right (fun _ => ?_)
  constructor
  · rintro ⟨page, member, frame⟩
    obtain ⟨⟨e, listed, type, i, inside, rfl⟩, cleared⟩ := mem_bootPages.mp member
    have bounds := isCleared_iff_toNat.mp cleared
    rw [frameNumber, MmapEntry.pageAddr_toNat, (map.page_inside listed inside).1] at frame
    rw [MmapEntry.pageAddr_toNat, (map.page_inside listed inside).1] at bounds
    exact ⟨by omega, e, listed, type, i, inside, frame⟩
  · rintro ⟨low, e, listed, type, i, inside, frame⟩
    refine ⟨(sanitizeAvailable mmap e).pageAddr (BitVec.ofNat 32 i),
      mem_bootPages.mpr ⟨⟨e, listed, type, i, inside, rfl⟩, ?_⟩, ?_⟩
    · rw [isCleared_iff_toNat, MmapEntry.pageAddr_toNat, (map.page_inside listed inside).1]
      omega
    · rw [frameNumber, MmapEntry.pageAddr_toNat, (map.page_inside listed inside).1, frame]

end Map

/-- Where no entry reaches the end of the 64-bit addresses, the size of the bitmap follows from
the stop of the last available entry.
-/
theorem AlignedMap.bootBitmapSize (map : AlignedMap mmap)
    (below : ∀ e ∈ mmap, e.addr.toNat + e.length.toNat < 2 ^ 64)
    : (bootBitmapSize mmap).toNat = truncatedBitmapBytes mmap := by
  have frames : lastFrames mmap = lastStop mmap / 4096 := by
    rw [lastFrames, lastAvailable_eq, lastStop]
    cases last : (mmap.filter MmapEntry.IsAvailable).getLast? with
    | none => simp
    | some e =>
        obtain ⟨member, type⟩ := List.mem_filter.mp (List.mem_of_getLast? last)
        obtain ⟨addr, stop⟩ := sanitizeAvailable_onPage mmap (MmapEntry.isAvailable_iff.mp type)
          (below e member) (map.aligned e member)
        have inside := (MmapEntry.le_stop_iff.mp (le_refl (e.stop mmap))).1
        have bounded := below e member
        simp only [Option.map_some, Option.elim_some]
        rw [BitVec.toNat_add, addr]
        omega
  rw [bootBitmapSize_toNat, frames, truncatedBitmapBytes]

/-- The condition can be read off the map: its parts that setup computes follow from where the
available entries stop.
-/
theorem AlignedMap.noAliases_iff (map : AlignedMap mmap)
    (below : ∀ e ∈ mmap, e.addr.toNat + e.length.toNat < 2 ^ 64)
    (image : KernelImage kernelEnd)
    : NoAliases kernelEnd mmap
      ↔ ∀ e ∈ mmap,
          e.type = memAvailable
          → ∀ i < (e.stop mmap - e.addr.toNat) / 4096 % 2 ^ 32,
              2 ^ 32 ≤ e.addr.toNat + 4096 * i
              → (e.addr.toNat + 4096 * i) % 2 ^ 32 / 4096
                  < 256
                    + ((kernelEnd.toNat - 0x100000 + 4095) / 4096
                      + (truncatedBitmapBytes mmap + 4095) / 4096)
                ∨ 8 * truncatedBitmapBytes mmap ≤ (e.addr.toNat + 4096 * i) % 2 ^ 32 / 4096
                ∨ FrameAvailable mmap ((e.addr.toNat + 4096 * i) % 2 ^ 32 / 4096) := by
  rw [NoAliases, image.bootCombinedPageCount, map.bootBitmapSize below]
  refine forall₃_congr (fun e member available => ?_)
  obtain ⟨_, stop⟩ := sanitizeAvailable_onPage mmap available (below e member)
    (map.aligned e member)
  have count
      : (sanitizeAvailable mmap e).npages.toNat
        = (e.stop mmap - e.addr.toNat) / 4096 % 2 ^ 32 := by
    rw [MmapEntry.npages_toNat, ← stop, Nat.add_sub_cancel_left]
  rw [count]

/-- Every clear bit stands for unreserved RAM exactly when no page above 4 GiB aliases a
frame that is not.
-/
theorem setup_unreservedRam_iff (image : KernelImage kernelEnd) (map : AlignedMap mbh.mmap)
    (installed : initFrameAllocator ram kernelEnd magic mbh = .installed pmm)
    : (∀ k, pmm.Free k → UnreservedRam mbh.mmap kernelEnd pmm k)
      ↔ NoAliases kernelEnd mbh.mmap := by
  obtain rfl := eq_bootPmm installed
  have combined := image.bootCombinedPageCount mbh.mmap
  constructor
  · intro unreserved e listed type i inside _
    by_contra aliased
    simp only [not_or, Nat.not_lt, Nat.not_le] at aliased
    have free := (map.free_iff ram image).mpr
      ⟨aliased.2.1, aliased.1, e, listed, type, i, inside, rfl⟩
    exact aliased.2.2 (unreserved _ free).available
  · intro noAliases k free
    obtain ⟨covered, low, e, listed, type, i, inside, frame⟩ := (map.free_iff ram image).mp free
    obtain ⟨_, whole⟩ := map.page_inside listed inside
    have aligned := map.aligned e listed
    have available : FrameAvailable mbh.mmap k := by
      by_cases wide : 2 ^ 32 ≤ e.addr.toNat + 4096 * i
      · have outcome := noAliases e listed type i inside wide
        rw [frame] at outcome
        rcases outcome with window | beyond | available
        · omega
        · omega
        · exact available
      · rw [Nat.mod_eq_of_lt (Nat.not_le.mp wide)] at frame
        exact ⟨e, listed, type, by omega, by omega⟩
    have bitmap := image.bitmap mbh.mmap ram
    refine {
      available := available
      unreserved := fun f member reserved x start stop =>
        map.unreserved available member reserved start stop
      high := by omega
      outsideKernel := Or.inr (by omega)
      outsideBitmap := Or.inr ?_
    }
    rw [bootPmm_size, bitmap]
    omega

/-- Half a megabyte behind the first. -/
def lowRam : MmapEntry :=
  ⟨0x100000, 0x80000, memAvailable⟩

/-- A page above 4 GiB that aliases one of `lowRam`. -/
def mirroredMap : List MmapEntry :=
  [lowRam, ⟨0x100110000, 0x1000, memAvailable⟩]

/-- A page above 4 GiB that aliases a reserved one. -/
def aliasingMap : List MmapEntry :=
  [lowRam, ⟨0xFEC00000, 0x1000, 2⟩, ⟨0x1FEC00000, 0x1000, memAvailable⟩]

theorem image_fourPages : KernelImage 0x104000 :=
  ⟨by decide, by decide⟩

/-- Sorted entries need no look at their bytes. -/
theorem AlignedMap.of_sorted (aligned : ∀ e ∈ mmap, e.addr.toNat % 4096 = 0)
    (bounded : ∀ e ∈ mmap, e.addr.toNat + e.length.toNat ≤ 2 ^ 64)
    (sorted : mmap.Pairwise (fun e f => e.addr.toNat + e.length.toNat ≤ f.addr.toNat))
    : AlignedMap mmap :=
  ⟨aligned, bounded, sorted.imp MmapEntry.Apart.of_le⟩

/-- The page above 4 GiB has the frame number of a page of `lowRam`, which is available too. -/
theorem mirroredMap_noAliases : NoAliases 0x104000 mirroredMap := by
  intro e member _ i inside wide
  rcases List.mem_cons.mp member with rfl | last
  · rw [show (sanitizeAvailable mirroredMap lowRam).npages.toNat = 128 by decide +kernel] at inside
    rw [show lowRam.addr.toNat = 0x100000 from rfl] at wide
    omega
  · obtain rfl := List.mem_singleton.mp last
    rw [show (sanitizeAvailable mirroredMap
      ⟨0x100110000, 0x1000, memAvailable⟩).npages.toNat = 1 by decide +kernel] at inside
    obtain rfl := Nat.lt_one_iff.mp inside
    exact Or.inr (Or.inr (by decide +kernel))

/-- Setup installs a bitmap for this map, by evaluation. -/
theorem installed_mirroredMap
    : initFrameAllocator (fun _ => 0) 0x104000 multibootMagic ⟨0x40, mirroredMap⟩
      = .installed (bootPmm (fun _ => 0) 0x104000 mirroredMap) := by
  rw [initFrameAllocator_eq]
  rfl

/-- Behind setup every clear bit stands for RAM. Witness: frame `0x130` of `lowRam`, although
an address above 4 GiB is cut to one of its pages.
-/
theorem setup_unreservedRam_mirroredMap
    : (bootPmm (fun _ => 0) 0x104000 mirroredMap).Free 0x130
      ∧ UnreservedRam mirroredMap 0x104000 (bootPmm (fun _ => 0) 0x104000 mirroredMap)
        0x130 := by
  have free : (bootPmm (fun _ => 0) 0x104000 mirroredMap).Free 0x130 := by decide +kernel
  have unreserved := (setup_unreservedRam_iff image_fourPages
    (.of_sorted (by decide) (by decide) (by decide)) installed_mirroredMap).mpr
    mirroredMap_noAliases
  exact ⟨free, unreserved 0x130 free⟩

/-- A page above 4 GiB is released at its address modulo 2^32. Counterexample: an available
page at 0x1FEC00000 frees the reserved frame 0xFEC00.
-/
theorem not_unreservedRam_aliasingMap
    : ¬∀ (ram : Memory) (kernelEnd : Addr) (magic : Word) (mbh : MultibootInfo) (pmm : Pmm),
        KernelImage kernelEnd
        → AlignedMap mbh.mmap
        → initFrameAllocator ram kernelEnd magic mbh = .installed pmm
        → ∀ k, pmm.Free k → UnreservedRam mbh.mmap kernelEnd pmm k := by
  intro claim
  have free : (bootPmm (fun _ => 0) 0x104000 aliasingMap).Free 0xFEC00 := by decide +kernel
  have unreserved := claim (fun _ => 0) 0x104000 multibootMagic ⟨0x40, aliasingMap⟩ _
    image_fourPages (.of_sorted (by decide) (by decide) (by decide))
    (initFrameAllocator_eq _ _ _ _) 0xFEC00 free
  exact absurd unreserved.available (by decide +kernel)

end SimpleKernel
