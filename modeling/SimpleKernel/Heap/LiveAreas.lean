import SimpleKernel.Heap.Refinement

/-! The used areas are the live blocks.
Nothing leaks as long as releases keep the chain. When they also find the area before them,
the live blocks determine every area, so two kernels with the same live blocks grant the
same pointers whatever their histories were.
-/

namespace SimpleKernel

open ByteMemory Segments AreaLists Runs

variable {s s' s₁ s₂ : HeapSession} {k k' k₁ k₂ : Kernel} {live : List LiveBlock}
  {areas areas' : List Addr} {a q x : Addr} {b : LiveBlock} {m m' : Memory} {call : HeapCall}
  {need : Nat}

/-- A block as an area: its header, and the payload up to its end. -/
def LiveBlock.area (b : LiveBlock) : Area where
  address := b.header.toNat
  payload := b.stop.toNat - (b.header.toNat + 8)
  used := true

/-- Every used area of a sound session is held by a client. -/
structure HeapSession.Accounted (s : HeapSession) (areas : List Addr) : Prop where
  sound : s.Sound areas
  held : ∀ x ∈ areas, getAreaUsed s.kernel.mem x = true → ∃ b ∈ s.live, b.header = x

/-- A new block adds its own used area, and all others stay. -/
theorem HeapSession.Accounted.granted (accounted : HeapSession.Accounted ⟨k, live⟩ areas)
    (granted : Granted k k' areas areas' a q need)
    : HeapSession.Accounted (HeapSession.grant live (q + headerSize, k')) areas' := by
  refine ⟨accounted.sound.granted granted, fun x listed used => ?_⟩
  rw [HeapSession.grant_kernel] at used
  rw [HeapSession.grant, if_neg (granted.carved.wf.ptr_ne_null granted.carved.head)]
  rcases (granted.carved.used x listed).mp used with ⟨rfl, _⟩ | ⟨old, inUse⟩
  · exact ⟨_, List.mem_cons_self, BitVec.add_sub_cancel x headerSize⟩
  · obtain ⟨b, member, header⟩ := accounted.held x old inUse
    exact ⟨b, List.mem_cons_of_mem _ member, header⟩

/-- A release takes the used area of its block away, merged or not. -/
theorem HeapSession.Accounted.release (accounted : HeapSession.Accounted ⟨k, live⟩ areas)
    (member : b ∈ live) (safe : ChainSafe k.mem b.header)
    : ∃ areas',
        HeapSession.Accounted
          ⟨{ k with mem := kfree k.mem b.ptr }, live.filter (fun c => c.ptr ≠ b.ptr)⟩
          areas' := by
  obtain ⟨areas', sound'⟩ := accounted.sound.release member safe
  have released := accounted.sound.kfree_released member
  have listed := accounted.sound.listed b member
  obtain ⟨areas₁, wf₁, members⟩ :=
    released.exists_wellFormed accounted.sound.wf listed safe.1 safe.2
  refine ⟨areas', sound', fun x inside used => ?_⟩
  rw [wf₁.unique sound'.wf] at members
  have old := ((members x).mp inside).1
  rw [released.used x (accounted.sound.wf.aligned old)] at used
  split at used
  · cases used
  · next other =>
    obtain ⟨c, held, rfl⟩ := accounted.held x old used
    refine ⟨c, List.mem_filter.mpr ⟨held, decide_eq_true (fun same => other ?_)⟩, rfl⟩
    exact LiveBlock.header_eq_iff.mpr same

/-- Bytes stored in a block change no mark. -/
theorem HeapSession.Accounted.payload (accounted : s.Accounted areas) (member : b ∈ s.live)
    {mem : Memory} (only : PayloadOnly s.kernel.mem mem b.header)
    : HeapSession.Accounted ⟨{ s.kernel with mem := mem }, s.live⟩ areas := by
  refine ⟨accounted.sound.payload member only, fun x listed used => ?_⟩
  rw [only.used accounted.sound.wf (accounted.sound.listed b member) (.inl listed)] at used
  exact accounted.held x listed used

/-- A reallocation that moves adds one used area and takes the other away. By the two steps it
is made of.
-/
theorem HeapSession.Accounted.moved (accounted : s.Accounted areas) (member : b ∈ s.live)
    (granted : Granted s.kernel k' areas areas' a q need) (safe : ChainSafe k'.mem b.header)
    : ∃ areas'',
        HeapSession.Accounted
          (HeapSession.grant (s.without b.ptr)
            (q + headerSize, { k' with mem := kfree k'.mem b.ptr }))
          areas'' := by
  have copied := accounted.granted granted
  rw [HeapSession.grant, if_neg (granted.carved.wf.ptr_ne_null granted.carved.head),
    BitVec.add_sub_cancel] at copied
  rw [accounted.sound.moved_eq member granted safe]
  exact copied.release (List.mem_cons_of_mem _ member) safe

/-- Every call whose releases keep the chain keeps the account. -/
theorem HeapSession.Accounted.step (accounted : s.Accounted areas)
    (enabled : heapMachine.enabled s call) (safe : Releases ChainSafe s call)
    (executed : heapMachine.exec s call = some s')
    : ∃ areas', s'.Accounted areas' := by
  cases accounted.sound.step_cases enabled executed with
  | unchanged same =>
      rw [same]
      exact ⟨areas, accounted⟩
  | granted granted _ same =>
      rw [same]
      exact ⟨_, accounted.granted granted⟩
  | released member release same =>
      rw [same]
      exact accounted.release member (safe.of_release release)
  | moved member granted _ release same =>
      rw [same]
      exact accounted.moved member granted (safe.of_release release)
  | wrote member low high _ same =>
      rw [same]
      exact ⟨areas, accounted.payload member (accounted.sound.payloadOnly member low high _)⟩

/-- The used areas are those of the live blocks in every state of a run. -/
theorem HeapSession.Accounted.of_run (fresh : k.heapRan = false)
    (run : heapMachine.Reaches (Releases ChainSafe) ⟨initHeap k, []⟩ s)
    : ∃ areas, s.Accounted areas := by
  refine run.invariant ⟨[heapStart], .initial fresh, fun x listed used => ?_⟩ ?_
  · obtain rfl := List.mem_singleton.mp listed
    rw [getAreaUsed_initHeap fresh] at used
    cases used
  · intro s s' call earlier enabled guarded executed
    obtain ⟨areas, accounted⟩ := earlier
    exact accounted.step enabled guarded executed

-----------------------------------------------------------------------------------------
-- The areas of a session
-----------------------------------------------------------------------------------------

/-- The areas of a chain lie end to end, by induction on it. -/
theorem areaList_tiles (segment : AreaSegment m a areas q)
    : Tiles 8 a.toNat (areaList m areas) q.toNat := by
  induction areas generalizing a with
  | nil => exact congrArg BitVec.toNat segment
  | cons x rest ih =>
      obtain ⟨rfl, ahead, tail⟩ := segment
      refine ⟨rfl, ?_⟩
      have start : x.toNat + 8 + (areaAt m x).payload = (getNextAddress m x).toNat :=
        Nat.add_sub_cancel' ahead
      rw [start]
      exact ih tail

/-- The chain shows a live block with the size it was handed out with. -/
theorem HeapSession.Sound.area_eq (sound : s.Sound areas) (member : b ∈ s.live)
    : areaAt s.kernel.mem b.header = b.area := by
  rw [areaAt, SimpleKernel.payload, sound.stop b member, sound.used b member, LiveBlock.area]

/-- The used areas of an accounted session are its live blocks. -/
theorem HeapSession.Accounted.mem_heapAreas_iff (accounted : s.Accounted areas) {area : Area}
    (used : area.used = true)
    : area ∈ heapAreas s.kernel.mem ↔ ∃ b ∈ s.live, b.area = area := by
  rw [accounted.sound.wf.heapAreas_eq]
  constructor
  · intro member
    obtain ⟨x, listed, rfl⟩ := List.mem_map.mp member
    obtain ⟨b, held, rfl⟩ := accounted.held x listed used
    exact ⟨b, held, (accounted.sound.area_eq held).symm⟩
  · rintro ⟨b, held, rfl⟩
    exact List.mem_map.mpr ⟨b.header, accounted.sound.listed b held, accounted.sound.area_eq held⟩

/-- In a run whose releases keep the chain nothing leaks: the areas fill the heap, and the
used ones are the live blocks.
-/
theorem heapRun_accounted (fresh : k.heapRan = false)
    (run : heapMachine.Reaches (Releases ChainSafe) ⟨initHeap k, []⟩ s)
    : Tiles 8 0xE0000000 (heapAreas s.kernel.mem) 0xFFBFFFF8
      ∧ ∀ area,
          area.used = true
          → (area ∈ heapAreas s.kernel.mem ↔ ∃ b ∈ s.live, b.area = area) := by
  obtain ⟨areas, accounted⟩ := HeapSession.Accounted.of_run fresh run
  refine ⟨?_, fun area used => accounted.mem_heapAreas_iff used⟩
  rw [accounted.sound.wf.heapAreas_eq]
  exact areaList_tiles accounted.sound.wf.chain

/-- The areas tile the heap behind a run. Witness: three live blocks, one of them in a place
that was used before.
-/
theorem heapRun_accounted_reuse
    : ∃ s : HeapSession,
        s.live.length = 3 ∧ Tiles 8 0xE0000000 (heapAreas s.kernel.mem) 0xFFBFFFF8 := by
  have replayed
      : (heapMachine.replay (Releases ChainSafe) reuseCalls ⟨initHeap bareKernel, []⟩).map
          (fun s => s.live.length)
        = some 3 := by
    decide +kernel
  obtain ⟨s, reached, count⟩ := Option.map_eq_some_iff.mp replayed
  have run : heapMachine.Reaches (Releases ChainSafe) ⟨initHeap bareKernel, []⟩ s :=
    Machine.Reaches.refl.replay reached
  exact ⟨s, count, (heapRun_accounted rfl run).1⟩

-----------------------------------------------------------------------------------------
-- The live blocks determine the heap
-----------------------------------------------------------------------------------------

/-- Pointers are told apart by what they return. -/
theorem returned_inj {ptr ptr' : Addr} (same : returned ptr = returned ptr') : ptr = ptr' := by
  rw [returned, returned] at same
  split at same <;> split at same
  · simp_all
  · cases same
  · cases same
  · exact BitVec.eq_of_toNat_eq (Option.some.inj same)

/-- A call releases a block on a well-formed chain. -/
theorem HeapSession.Sound.release_wellFormed (sound : s.Sound areas)
    (enabled : heapMachine.enabled s call) {release : Memory × Addr}
    (found : s.release call = some release)
    : ∃ areas', WellFormed release.1 areas' := by
  cases call with
  | kfree ptr =>
      rw [HeapSession.release] at found
      split at found
      · cases found
      · obtain rfl := Option.some.inj found
        exact ⟨areas, sound.wf⟩
  | krealloc ptr size =>
      have small : size.toNat ≤ 2 ^ 29 := enabled.2
      rw [HeapSession.release] at found
      split at found
      · cases found
      · next moves =>
        have smaller : (getAreaSize s.kernel.mem (ptr - headerSize)).toNat < size.toNat :=
          Nat.not_le.mp (fun enough => moves (.inr (.inr enough)))
        split at found
        · cases found
        · next new k' copied =>
          have copies := sound.wf.kreallocCopy_allocates (by omega) smaller
          rw [copied] at copies
          split at found
          · cases found
          · next notNull =>
            obtain rfl := Option.some.inj found
            rcases copies with unchanged | ⟨_, areas', a, q, same, granted, _⟩
            · exact absurd (Prod.mk.inj (Option.some.inj unchanged)).1 notNull
            · obtain ⟨rfl, rfl⟩ := Prod.mk.inj (Option.some.inj same)
              exact ⟨areas', granted.carved.wf⟩
  | kmalloc _ => cases found
  | kcalloc _ _ => cases found
  | kpagealloc _ => cases found
  | write _ _ => cases found

/-- A release that keeps the heap coalesced keeps the chain. -/
theorem HeapSession.Sound.chainSafe (sound : s.Sound areas)
    (enabled : heapMachine.enabled s call) (safe : Releases CoalesceSafe s call)
    : Releases ChainSafe s call := by
  intro release found
  obtain ⟨areas', wf⟩ := sound.release_wellFormed enabled found
  exact (safe release found).chainSafe wf

/-- A coalesced session with every used area held. -/
structure HeapSession.Tidy (s : HeapSession) : Prop where
  accounted : ∃ areas, s.Accounted areas
  coalesced : Coalesced s.kernel.mem

/-- All three invariants hold in every state of such a run. -/
theorem HeapSession.Tidy.of_run (fresh : k.heapRan = false)
    (run : heapMachine.Reaches (Releases CoalesceSafe) ⟨initHeap k, []⟩ s)
    : s.Tidy := by
  refine run.invariant ⟨⟨[heapStart], .initial fresh, fun x listed used => ?_⟩,
    (HeapSession.SoundCoalesced.initial fresh).2⟩ ?_
  · obtain rfl := List.mem_singleton.mp listed
    rw [getAreaUsed_initHeap fresh] at used
    cases used
  · intro s s' call tidy enabled guarded executed
    obtain ⟨areas, accounted⟩ := tidy.accounted
    have earlier : s.SoundCoalesced := ⟨⟨areas, accounted.sound⟩, tidy.coalesced⟩
    exact ⟨accounted.step enabled (accounted.sound.chainSafe enabled guarded) executed,
      (earlier.step enabled guarded executed).2⟩

/-- The areas of two tidy sessions with the same live blocks are the same. -/
theorem HeapSession.Tidy.heapAreas_eq (tidy₁ : s₁.Tidy) (tidy₂ : s₂.Tidy)
    (same : ∀ b, b ∈ s₁.live ↔ b ∈ s₂.live)
    : heapAreas s₁.kernel.mem = heapAreas s₂.kernel.mem := by
  obtain ⟨areas₁, accounted₁⟩ := tidy₁.accounted
  obtain ⟨areas₂, accounted₂⟩ := tidy₂.accounted
  have wf₁ := accounted₁.sound.wf
  have wf₂ := accounted₂.sound.wf
  have apart₁ := wf₁.coalesced_iff.mp tidy₁.coalesced
  have apart₂ := wf₂.coalesced_iff.mp tidy₂.coalesced
  rw [wf₁.heapAreas_eq, wf₂.heapAreas_eq]
  refine (areaList_tiles wf₁.chain).unique (by decide) (areaList_tiles wf₂.chain) apart₁ apart₂ ?_
  intro area used
  rw [← wf₁.heapAreas_eq, ← wf₂.heapAreas_eq, accounted₁.mem_heapAreas_iff used,
    accounted₂.mem_heapAreas_iff used]
  simp only [same]

/-- An allocation returns, be it NULL. -/
theorem Allocates.returns {whole : Option Addr} {result : Option (Addr × Kernel)}
    (allocates : Allocates k areas need whole result)
    : ∃ ptr k', result = some (ptr, k') := by
  rcases allocates with same | ⟨k', _, _, q, same, _⟩
  · exact ⟨_, _, same⟩
  · exact ⟨_, _, same⟩

/-- Every allocating call of a sound session returns. -/
theorem HeapSession.Sound.reply_returns (sound : s.Sound areas)
    (enabled : heapMachine.enabled s call)
    : (∃ ptr k', s.reply call = some (ptr, k')) ∨ ∀ s' : HeapSession, s'.reply call = none := by
  cases call with
  | kmalloc size =>
      have small : size.toNat ≤ 2 ^ 29 := enabled
      exact .inl (sound.wf.kmalloc_allocates (by omega)).returns
  | kcalloc nmemb size =>
      have small : nmemb.toNat * size.toNat ≤ 2 ^ 29 := enabled
      exact .inl (sound.wf.kcalloc_allocates (by omega)).returns
  | krealloc ptr size =>
      have small : size.toNat ≤ 2 ^ 29 := enabled.2
      rw [HeapSession.reply, krealloc]
      split
      · exact .inl ⟨_, _, rfl⟩
      · split
        · exact .inl (sound.wf.kmalloc_allocates (by omega)).returns
        · split
          · exact .inl ⟨_, _, rfl⟩
          · next large =>
            obtain ⟨new, k', copied⟩ := (sound.wf.kreallocCopy_allocates (by omega)
              (Nat.not_le.mp large)).returns
            rw [copied]
            dsimp only
            split <;> exact .inl ⟨_, _, rfl⟩
  | kpagealloc n =>
      have small : n.toNat ≤ 2 ^ 17 := enabled
      exact .inl (sound.wf.kpagealloc_allocates (by omega)).returns
  | kfree _ => exact .inr (fun _ => rfl)
  | write _ _ => exact .inr (fun _ => rfl)

/-- What the clients may call depends on the live blocks alone. -/
theorem HeapSession.enabled_congr (same : ∀ b, b ∈ s₁.live ↔ b ∈ s₂.live)
    (enabled : heapMachine.enabled s₁ call)
    : heapMachine.enabled s₂ call := by
  have holds {ptr : Addr} (held : s₁.Holds ptr) : s₂.Holds ptr := by
    rcases held with rfl | ⟨b, member, rfl⟩
    · exact .inl rfl
    · exact .inr ⟨b, (same b).mp member, rfl⟩
  cases call with
  | kmalloc _ => exact enabled
  | kcalloc _ _ => exact enabled
  | krealloc _ _ => exact ⟨holds enabled.1, enabled.2⟩
  | kpagealloc _ => exact enabled
  | kfree _ => exact holds enabled
  | write _ _ =>
      obtain ⟨b, member, inside⟩ := enabled
      exact ⟨b, (same b).mp member, inside⟩

/-- When every block has been released the heap is one free area again, because an empty list
of blocks is also that of the heap before its first request.
-/
theorem heapRun_emptied (fresh : k.heapRan = false)
    (run : heapMachine.Reaches (Releases CoalesceSafe) ⟨initHeap k, []⟩ s)
    (empty : s.live = [])
    : heapAreas s.kernel.mem = initialAreas := by
  have tidy := HeapSession.Tidy.of_run fresh run
  have initially : HeapSession.Tidy ⟨initHeap k, []⟩ := .of_run fresh .refl
  have same (b : LiveBlock) : b ∈ s.live ↔ b ∈ ([] : List LiveBlock) := by rw [empty]
  exact (tidy.heapAreas_eq initially same).trans (heapAreas_initHeap fresh)

/-- Released blocks leave the heap as `init_heap` set it up. Witness: three blocks, released in
the order of their allocation.
-/
theorem heapRun_emptied_threeBlocks
    : ∃ s : HeapSession, s.live = [] ∧ heapAreas s.kernel.mem = initialAreas := by
  have replayed
      : (heapMachine.replay (Releases CoalesceSafe)
            [
              .kmalloc 40, .kmalloc 8, .kpagealloc 1, .kfree 0xE0000008, .kfree 0xE0000038,
              .kfree 0xE0001000
            ]
            ⟨initHeap bareKernel, []⟩).map
          HeapSession.live
        = some [] := by
    decide +kernel
  obtain ⟨s, reached, empty⟩ := Option.map_eq_some_iff.mp replayed
  exact ⟨s, empty, heapRun_emptied rfl (Machine.Reaches.refl.replay reached) empty⟩

end SimpleKernel
