import SimpleKernel.Frames.ManagedMemory

/-! What one allocator call does to the bits and to the cached frame.
`get_page` sets the cached frame's bit and rescans from the first byte; `free_page` clears
one bit and caches its frame.
-/

namespace SimpleKernel

open ByteMemory

/-- A byte with a clear bit has its lowest clear bit found, by running all byte values. -/
theorem firstZeroInByte_spec
    : ∀ b : Byte,
        b ≠ 0xFF
        → (firstZeroInByte b).toNat < 8
          ∧ b.getLsbD (firstZeroInByte b).toNat = false
          ∧ ∀ j < (firstZeroInByte b).toNat, b.getLsbD j = true := by
  decide +kernel

/-- The rescan either stops at the first byte with a clear bit, or runs over full bytes
only and leaves the offset alone. By induction on the remaining iterations.
-/
theorem scanBitmap_spec (bytes : Memory) (rounds : Nat) (i : Word) (o : Byte)
    (bounded : i.toNat + rounds < 2 ^ 32)
    : let found := scanBitmap bytes rounds i o
      (∀ j, i.toNat ≤ j → j < found.1.toNat → bytes (BitVec.ofNat 32 j) = 0xFF)
      ∧ ((found.1.toNat < i.toNat + rounds
          ∧ bytes found.1 ≠ 0xFF
          ∧ found.2 = firstZeroInByte (bytes found.1))
        ∨ (found.1.toNat = i.toNat + rounds ∧ found.2 = o)) := by
  induction rounds generalizing i with
  | zero =>
      refine ⟨?_, Or.inr ⟨rfl, rfl⟩⟩
      intro j low high
      simp only [scanBitmap] at high
      omega
  | succ rounds ih =>
      by_cases full : bytes i = 0xFF
      · have next : (i + 1).toNat = i.toNat + 1 := by bv_omega
        have rest := ih (i + 1) (by omega)
        simp only [scanBitmap, full, ne_eq, not_true_eq_false, if_false]
        rw [next, show i.toNat + 1 + rounds = i.toNat + (rounds + 1) by omega] at rest
        refine ⟨?_, rest.2⟩
        intro j low high
        rcases Nat.eq_or_lt_of_le low with same | later
        · rw [← same, BitVec.ofNat_toNat, BitVec.setWidth_eq, full]
        · exact rest.1 j (by omega) high
      · simp only [scanBitmap, ne_eq, full, not_false_eq_true, if_true]
        refine ⟨fun j low high => ?_, Or.inl ⟨by omega, trivial, trivial⟩⟩
        omega

/-- Every bitmap index the rescan reads is one of its iterations. -/
theorem scanReads_bound (bytes : Memory) (rounds : Nat) (i : Word)
    (bounded : i.toNat + rounds < 2 ^ 32)
    : ∀ index ∈ scanReads bytes rounds i, index.toNat < i.toNat + rounds := by
  induction rounds generalizing i with
  | zero => simp [scanReads]
  | succ rounds ih =>
      intro index member
      have next : (i + 1).toNat = i.toNat + 1 := by bv_omega
      rw [scanReads] at member
      rcases List.mem_cons.mp member with rfl | later
      · omega
      · split at later
        · simp at later
        · have below := ih (i + 1) (by omega) index later
          omega

/-- The bits of a full byte are set, which is why the search may skip it. -/
theorem Pmm.bit_of_full {pmm : Pmm} {k : Nat}
    (full : pmm.bytes (BitVec.ofNat 32 (k / 8)) = 0xFF)
    : pmm.bit k = true := by
  have inside : k % 8 < 8 := Nat.mod_lt _ (by decide)
  rw [Pmm.bit, full, show (0xFF : Byte) = BitVec.allOnes 8 from rfl, BitVec.getLsbD_allOnes]
  exact decide_eq_true inside

/-- The bit of a frame in a memory where one byte was replaced. -/
theorem bit_store8 (bytes : Memory) {index : Word} {k : Nat} (value : Byte)
    (bounded : k < 2 ^ 35)
    : (bytes.store8 index value (BitVec.ofNat 32 (k / 8))).getLsbD (k % 8)
      = if k / 8 = index.toNat then value.getLsbD (k % 8)
        else (bytes (BitVec.ofNat 32 (k / 8))).getLsbD (k % 8) := by
  by_cases same : k / 8 = index.toNat
  · rw [same, BitVec.ofNat_toNat, BitVec.setWidth_eq, Memory.store8_same, if_pos rfl]
  · rw [Memory.store8_of_ne _ _ (by bv_omega), if_neg same]

/-- `get_page` sets the cached frame's bit and no other. -/
theorem getPage_bit {pmm : Pmm} (offset : pmm.nextOffset.toNat < 8) {k : Nat}
    (bounded : k < 2 ^ 35)
    : (getPage pmm).2.bit k = (pmm.bit k || decide (k = pmm.cached)) := by
  simp only [getPage, Pmm.bit, Pmm.cached, bit_store8 _ _ bounded]
  split
  · next same =>
    rw [Masks.getLsbD_or_bit _ offset, same, BitVec.ofNat_toNat, BitVec.setWidth_eq]
    congr 2
    exact propext ⟨fun bit => by omega, fun frame => by omega⟩
  · next other =>
    have different : ¬k = 8 * pmm.nextIndex.toNat + pmm.nextOffset.toNat := by omega
    simp [different]

@[simp] theorem getPage_size (pmm : Pmm) : (getPage pmm).2.size = pmm.size := rfl

@[simp] theorem getPage_freePages (pmm : Pmm)
    : (getPage pmm).2.freePages = pmm.freePages :=
  rfl

/-- A request answers with the cached frame. -/
theorem getPage_page (pmm : Pmm)
    : (getPage pmm).1 = offsetsToPhysaddr pmm.nextIndex pmm.nextOffset :=
  rfl

/-- A clear bit read at the cached position makes the cached frame free. -/
theorem Pmm.CacheFree.of_clear {pmm : Pmm} (offset : pmm.nextOffset.toNat < 8)
    (inside : pmm.nextIndex.toNat < pmm.size.toNat)
    (clear : (pmm.bytes pmm.nextIndex).getLsbD pmm.nextOffset.toNat = false)
    : pmm.CacheFree := by
  have index : pmm.cached / 8 = pmm.nextIndex.toNat := by
    simp only [Pmm.cached]
    omega
  have bit : pmm.cached % 8 = pmm.nextOffset.toNat := by
    simp only [Pmm.cached]
    omega
  refine ⟨offset, by simp only [Pmm.cached]; omega, ?_⟩
  rwa [Pmm.bit, index, bit, BitVec.ofNat_toNat, BitVec.setWidth_eq]

/-- After `get_page` the cache names a free frame, or no frame is free and the cached
index has run past the last byte.
-/
theorem getPage_cache (pmm : Pmm)
    : (getPage pmm).2.CacheFree
      ∨ ((getPage pmm).2.nextIndex = pmm.size
        ∧ (getPage pmm).2.nextOffset = pmm.nextOffset
        ∧ ¬(getPage pmm).2.HasFree) := by
  let bytes := (getPage pmm).2.bytes
  have found := scanBitmap_spec bytes pmm.size.toNat 0 pmm.nextOffset
    (by have small := pmm.size.isLt; simpa using small)
  simp only [BitVec.ofNat_eq_ofNat, BitVec.toNat_ofNat, Nat.zero_mod,
    Nat.zero_le, true_implies, Nat.zero_add] at found
  obtain ⟨full, ⟨inside, notFull, found⟩ | ⟨past, kept⟩⟩ := found
  · have zero := firstZeroInByte_spec _ notFull
    rw [← found] at zero
    exact Or.inl (.of_clear zero.1 inside zero.2.1)
  · refine Or.inr ⟨BitVec.eq_of_toNat_eq past, kept, ?_⟩
    rintro ⟨k, inside, clear⟩
    rw [getPage_size] at inside
    have set : (getPage pmm).2.bit k = true := Pmm.bit_of_full (full (k / 8) (by omega))
    rw [set] at clear
    exact Bool.noConfusion clear

/-- `free_page` clears the bit of the frame that holds the address and no other. -/
theorem freePage_bit (pmm : Pmm) (physaddr : Addr) {k : Nat} (bounded : k < 2 ^ 35)
    : (freePage pmm physaddr).bit k
      = (pmm.bit k && !decide (k = frameNumber physaddr)) := by
  have inside : frameNumber physaddr % 8 < 8 := Nat.mod_lt _ (by decide)
  have index : (physaddrToOffsets physaddr).1.toNat = frameNumber physaddr / 8 := by
    rw [physaddrToOffsets_fst, BitVec.toNat_ofNat, frameNumber]
    omega
  simp only [freePage, Pmm.bit, bit_store8 _ _ bounded, index, physaddrToOffsets_snd]
  split
  · next same =>
    rw [Masks.getLsbD_and_not_bit _ inside, same, ← physaddrToOffsets_fst]
    congr 3
    exact propext ⟨fun bit => by omega, fun frame => by omega⟩
  · next other =>
    have different : ¬k = frameNumber physaddr := by
      intro same
      exact other (by rw [same])
    simp [different]

@[simp] theorem freePage_size (pmm : Pmm) (physaddr : Addr)
    : (freePage pmm physaddr).size = pmm.size :=
  rfl

/-- The cache then leads to the frame returned: its bit offset is the remainder by eight. -/
theorem freePage_nextOffset (pmm : Pmm) (physaddr : Addr)
    : (freePage pmm physaddr).nextOffset.toNat = frameNumber physaddr % 8 := by
  simp only [freePage, BitVec.toNat_setWidth, physaddrToOffsets_snd]
  omega

/-- A frame that is returned becomes the cached one. -/
theorem freePage_cached (pmm : Pmm) (physaddr : Addr)
    : (freePage pmm physaddr).cached = frameNumber physaddr := by
  have index : (freePage pmm physaddr).nextIndex.toNat = frameNumber physaddr / 8 := by
    change (physaddrToOffsets physaddr).1.toNat = _
    rw [physaddrToOffsets_fst, BitVec.toNat_ofNat, frameNumber]
    omega
  rw [Pmm.cached, index, freePage_nextOffset]
  omega

end SimpleKernel
