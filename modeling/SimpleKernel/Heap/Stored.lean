import SimpleKernel.Heap.Refinement
import SimpleKernel.Library.KnownBytes

/-! What blocks hold over runs.
The bytes that clients store in their blocks, those that `kcalloc` clears and those that
`krealloc` moves are known until the block is released, and memory holds every known byte.
-/

namespace SimpleKernel

open ByteMemory Segments AreaLists Runs

-----------------------------------------------------------------------------------------
-- The calls on known bytes
-----------------------------------------------------------------------------------------

/-- The areas of a heap and what is known of their payloads. -/
structure HeapStore where
  areas : List Area
  known : Known

/-- The size of the block at `ptr`. -/
def HeapStore.extent (store : HeapStore) (ptr : Addr) : Nat :=
  payloadAt (ptr.toNat - 8) store.areas

/-- What is known behind a call: `kmalloc` and `kpagealloc` leave the block as they find it. -/
def HeapStore.bytes (store : HeapStore) : HeapCall → Known
  | .kmalloc _ => store.known
  | .kcalloc nmemb size =>
      match (AreaHeap.call store.areas (.kcalloc nmemb size)).1 with
      | none => store.known
      | some new => store.known.fill (BitVec.ofNat 32 new) 0 (nmemb.toNat * size.toNat)
  | .krealloc ptr size =>
      match (AreaHeap.call store.areas (.krealloc ptr size)).1 with
      | none => store.known
      | some new =>
          if ptr = null ∨ BitVec.ofNat 32 new = ptr then store.known
          else
            (store.known.copy (BitVec.ofNat 32 new) ptr (store.extent ptr)).forget ptr
              (store.extent ptr)
  | .kpagealloc _ => store.known
  | .kfree ptr => if ptr = null then store.known else store.known.forget ptr (store.extent ptr)
  | .write address value => store.known.store address value

def HeapStore.call (store : HeapStore) (call : HeapCall) : HeapStore where
  areas := (AreaHeap.call store.areas call).2
  known := store.bytes call

/-- The heap behind `init_heap`, in which nothing is known. -/
def HeapStore.initial : HeapStore where
  areas := initialAreas
  known := fun _ => none

/-- `kcalloc` makes the bytes of its block known to be zero. -/
theorem HeapStore.bytes_kcalloc {store : HeapStore} {nmemb size : Word} {new : Addr}
    (reply : returned new = (AreaHeap.call store.areas (.kcalloc nmemb size)).1)
    : store.bytes (.kcalloc nmemb size)
      = if new = null then store.known
        else store.known.fill new 0 (nmemb.toNat * size.toNat) := by
  rw [HeapStore.bytes, ← reply, returned]
  by_cases failed : new = null
  · rw [if_pos failed, if_pos failed]
  · rw [if_neg failed, if_neg failed]
    simp only [BitVec.ofNat_toNat, BitVec.setWidth_eq]

/-- A reallocation that moves carries the known bytes over and forgets those of the old block.
-/
theorem HeapStore.bytes_krealloc {store : HeapStore} {ptr new : Addr} {size : Word}
    (reply : returned new = (AreaHeap.call store.areas (.krealloc ptr size)).1)
    : store.bytes (.krealloc ptr size)
      = if new = null ∨ ptr = null ∨ new = ptr then store.known
        else
          (store.known.copy new ptr (store.extent ptr)).forget ptr (store.extent ptr) := by
  rw [HeapStore.bytes, ← reply, returned]
  by_cases failed : new = null
  · rw [if_pos failed, if_pos (.inl failed)]
  · rw [if_neg failed]
    simp only [BitVec.ofNat_toNat, BitVec.setWidth_eq, failed, false_or]

-----------------------------------------------------------------------------------------
-- What blocks keep
-----------------------------------------------------------------------------------------

/-- The byte lies in a live block. -/
def HeapSession.Owns (s : HeapSession) (x : Addr) : Prop :=
  ∃ b ∈ s.live, b.ptr ≤ x ∧ x < b.stop

variable {m m' : Memory} {areas areas' : List Addr} {a q ptr new x : Addr} {k k' : Kernel}
  {nmemb size : Word} {need : Nat} {whole : Option Addr} {s s' : HeapSession} {call : HeapCall}
  {b : LiveBlock}

/-- A back link that names the area before the released one lies in no used area. -/
theorem CoalesceSafe.payloadSafe (safe : CoalesceSafe m a) (wf : WellFormed m areas)
    : PayloadSafe m a := by
  refine ⟨safe.chainSafe wf, fun onRoot x listed used both => ?_⟩
  have before := (safe.2.2 onRoot).1
  have free := onRoot.2
  rw [wf.chainAreas_eq] at listed before
  have ne : x ≠ getPrevAddress m a := by
    rintro rfl
    rw [used] at free
    cases free
  obtain ⟨low, high⟩ := both
  rw [BitVec.lt_def] at low high
  have bounds := wf.bounds before
  rcases wf.apart listed before ne with apart | apart <;> omega

/-- A call that allocates, or returns NULL, keeps the bytes of all live blocks. -/
theorem HeapSession.Sound.allocated_keeps (sound : s.Sound areas)
    (outcome : Allocates s.kernel areas need whole (some (new, k'))) (owned : s.Owns x)
    : (HeapSession.grant s.live (new, k')).kernel.mem x = s.kernel.mem x
      ∧ (HeapSession.grant s.live (new, k')).Owns x := by
  obtain ⟨b, member, low, high⟩ := owned
  rcases outcome with unchanged | ⟨_, _, _, _, granted, taken, _⟩
  · obtain ⟨rfl, rfl⟩ := Prod.mk.inj (Option.some.inj unchanged)
    exact ⟨rfl, b, member, low, high⟩
  · obtain ⟨rfl, rfl⟩ := Prod.mk.inj (Option.some.inj granted)
    rw [HeapSession.grant, if_neg (taken.carved.wf.ptr_ne_null taken.carved.head)]
    exact ⟨sound.granted_payload taken member low high, b, List.mem_cons_of_mem _ member, low,
      high⟩

/-- The block that was granted holds what was asked for. -/
theorem Granted.owns (granted : Granted k k' areas areas' a q need) (live : List LiveBlock)
    (near : (x - (q + headerSize)).toNat < need)
    : (HeapSession.grant live (q + headerSize, k')).Owns x := by
  have wf := granted.carved.wf
  have bounds := wf.bounds granted.carved.head
  have ends := wf.payload_le granted.carved.head
  have room := granted.room
  rw [HeapSession.grant, if_neg (wf.ptr_ne_null granted.carved.head)]
  refine ⟨_, List.mem_cons_self, ?_⟩
  simp only [BitVec.add_sub_cancel]
  bv_omega

/-- The bytes of a block that `kcalloc` returns are zero. -/
theorem kcalloc_cleared (called : kcalloc k nmemb size = some (ptr, k')) (notNull : ptr ≠ null)
    (near : (x - ptr).toNat < (nmemb * size).toNat)
    : k'.mem x = 0 := by
  rw [kcalloc] at called
  split at called
  · obtain ⟨rfl, _⟩ := Prod.mk.inj (Option.some.inj called)
    exact absurd rfl notNull
  · split at called
    · obtain ⟨rfl, _⟩ := Prod.mk.inj (Option.some.inj called)
      exact absurd rfl notNull
    · split at called
      · cases called
      · split at called
        · next failed =>
          obtain ⟨rfl, _⟩ := Prod.mk.inj (Option.some.inj called)
          exact absurd failed notNull
        · obtain ⟨rfl, rfl⟩ := Prod.mk.inj (Option.some.inj called)
          change memset _ _ 0 _ x = 0
          rw [memset_eq_fill]
          exact Memory.fill_of_inside _ _ near

section Blocks

variable (sound : s.Sound areas) (member : b ∈ s.live)
include sound member

/-- A pointer lies behind its header, without a wrap. -/
theorem HeapSession.Sound.ptr_toNat : b.ptr.toNat = b.header.toNat + 8 := by
  have bounds := sound.wf.bounds (sound.listed b member)
  rw [LiveBlock.header] at bounds ⊢
  bv_omega

/-- The extent of a live block is its payload. -/
theorem HeapSession.Sound.extent_eq (known : Known)
    : HeapStore.extent ⟨heapAreas s.kernel.mem, known⟩ b.ptr
      = SimpleKernel.payload s.kernel.mem b.header := by
  rw [HeapStore.extent, sound.payloadAt_eq member, sound.wf.areaSize (sound.listed b member)]

/-- The bytes of a live block are those its extent counts. -/
theorem HeapSession.Sound.near_iff
    : (x - b.ptr).toNat < SimpleKernel.payload s.kernel.mem b.header
      ↔ b.ptr ≤ x ∧ x < b.stop := by
  have bounds := sound.wf.bounds (sound.listed b member)
  have ends := sound.wf.payload_le (sound.listed b member)
  have position := sound.ptr_toNat member
  rw [sound.stop b member] at bounds ends
  constructor
  · intro near
    bv_omega
  · rintro ⟨low, high⟩
    bv_omega

/-- A release keeps the bytes outside its block. -/
theorem HeapSession.Sound.released_keeps (safe : CoalesceSafe s.kernel.mem b.header)
    (owned : s.Owns x) (far : SimpleKernel.payload s.kernel.mem b.header ≤ (x - b.ptr).toNat)
    : kfree s.kernel.mem b.ptr x = s.kernel.mem x
      ∧ HeapSession.Owns ⟨{ s.kernel with mem := kfree s.kernel.mem b.ptr }, s.without b.ptr⟩
          x := by
  obtain ⟨c, listed, low, high⟩ := owned
  have other : c.ptr ≠ b.ptr := by
    intro same
    have near := (sound.near_iff listed).mpr ⟨low, high⟩
    have header : c.header = b.header := LiveBlock.header_eq_iff.mpr same
    rw [header, same] at near
    omega
  refine ⟨sound.release_payload member (safe.payloadSafe sound.wf) listed low high,
    c, ?_, low, high⟩
  exact List.mem_filter.mpr ⟨listed, decide_eq_true other⟩

end Blocks

-----------------------------------------------------------------------------------------
-- Steps
-----------------------------------------------------------------------------------------

/-- The session follows the areas of the store, and its blocks hold what is known. -/
structure HeapSession.Stores (s : HeapSession) (store : HeapStore) : Prop where
  follows : s.Follows store.areas
  holds : s.kernel.mem.Holds s.Owns store.known

/-- Nothing is known of a fresh heap. -/
theorem HeapSession.Stores.initial (fresh : k.heapRan = false)
    : HeapSession.Stores ⟨initHeap k, []⟩ .initial :=
  ⟨⟨.initial fresh, heapAreas_initHeap fresh⟩, .nothing⟩

section Steps

variable {known : Known} (sound : s.Sound areas) (holds : s.kernel.mem.Holds s.Owns known)
include sound holds

/-- What `kmalloc` grants is left as it is found. -/
theorem HeapSession.Sound.kmalloc_holds (small : size.toNat ≤ 2 ^ 29)
    (called : kmalloc s.kernel size = some (ptr, k'))
    : (HeapSession.grant s.live (ptr, k')).kernel.mem.Holds
        (HeapSession.grant s.live (ptr, k')).Owns known := by
  have outcome := sound.wf.kmalloc_allocates (show size.toNat + 15 < 2 ^ 32 by omega)
  rw [called] at outcome
  exact holds.kept (fun x owned => sound.allocated_keeps outcome owned)

/-- Memory holds what is known behind `kcalloc`, the zeros included. -/
theorem HeapSession.Sound.kcalloc_holds (coalesced : Coalesced s.kernel.mem)
    (small : nmemb.toNat * size.toNat ≤ 2 ^ 29)
    (called : kcalloc s.kernel nmemb size = some (ptr, k'))
    : (HeapSession.grant s.live (ptr, k')).kernel.mem.Holds
        (HeapSession.grant s.live (ptr, k')).Owns
        (HeapStore.bytes ⟨heapAreas s.kernel.mem, known⟩ (.kcalloc nmemb size)) := by
  have outcome :=
    sound.wf.kcalloc_allocates (show nmemb.toNat * size.toNat + 15 < 2 ^ 32 by omega)
  have enabled : heapMachine.enabled s (.kcalloc nmemb size) := small
  have reply := sound.reply_eq coalesced enabled called
  have total : (nmemb * size).toNat = nmemb.toNat * size.toNat :=
    BitVec.toNat_mul_of_lt (by omega)
  rw [called] at outcome
  have kept (x) (owned : s.Owns x) := sound.allocated_keeps outcome owned
  rw [HeapStore.bytes_kcalloc reply]
  split
  · exact holds.kept kept
  · next notNull =>
    refine holds.fill (fun x near => ?_) kept
    rcases outcome with unchanged | ⟨_, _, _, _, granted, taken, _⟩
    · exact absurd (Prod.mk.inj (Option.some.inj unchanged)).1 notNull
    · rw [HeapSession.grant_kernel]
      refine ⟨kcalloc_cleared called notNull (by rwa [total]), ?_⟩
      obtain ⟨rfl, rfl⟩ := Prod.mk.inj (Option.some.inj granted)
      exact taken.owns s.live near

/-- A block that moves takes what is known of it along. -/
theorem HeapSession.Sound.moved_holds (member : b ∈ s.live)
    (copied : Copied s.kernel k' areas areas' b.header q need)
    (smaller : SimpleKernel.payload s.kernel.mem b.header < need)
    (safe : CoalesceSafe k'.mem b.header)
    : let moved := { k' with mem := kfree k'.mem b.ptr }
      let extent := SimpleKernel.payload s.kernel.mem b.header
      moved.mem.Holds (HeapSession.grant (s.without b.ptr) (q + headerSize, moved)).Owns
        ((known.copy (q + headerSize) b.ptr extent).forget b.ptr extent) := by
  have granted := copied.granted
  have live := sound.wf.live_iff.mpr ⟨sound.listed b member, sound.used b member⟩
  have extent := (granted.keepsLive sound.wf live).2.payload_eq
  have chainSafe := safe.chainSafe granted.carved.wf
  have between := sound.granted granted
  have outcome
      : Allocates s.kernel areas need (some q) (some (q + headerSize, k')) :=
    .inr ⟨k', areas', q, q, rfl, granted, fun _ => rfl⟩
  have start : b.header + headerSize = b.ptr := BitVec.sub_add_cancel _ _
  have kept (x) (owned : s.Owns x)
      : k'.mem x = s.kernel.mem x
        ∧ (HeapSession.grant s.live (q + headerSize, k')).Owns x := by
    have kept := sound.allocated_keeps outcome owned
    rwa [HeapSession.grant_kernel] at kept
  have copies (x : Addr)
      (near : (x - (q + headerSize)).toNat < SimpleKernel.payload s.kernel.mem b.header)
      : k'.mem x = s.kernel.mem (b.ptr + (x - (q + headerSize)))
        ∧ (HeapSession.grant s.live (q + headerSize, k')).Owns x := by
    have data := copied.data _ near
    rw [BitVec.add_comm (q + headerSize), BitVec.sub_add_cancel, start] at data
    exact ⟨data, granted.owns s.live (by omega)⟩
  -- first the copy to the new block, then the release of the old one
  refine (holds.copy copies kept).forget (fun x owned far => ?_)
  rw [sound.moved_eq member granted chainSafe]
  rw [HeapSession.grant, if_neg (granted.carved.wf.ptr_ne_null granted.carved.head),
    BitVec.add_sub_cancel] at between owned
  exact between.released_keeps (List.mem_cons_of_mem _ member) safe owned (by rwa [extent])

/-- A reallocation leaves its block alone, allocates like `kmalloc`, or moves the block. -/
theorem HeapSession.Sound.krealloc_holds (coalesced : Coalesced s.kernel.mem)
    (enabled : heapMachine.enabled s (.krealloc ptr size))
    (safe : Releases CoalesceSafe s (.krealloc ptr size))
    (executed : heapMachine.exec s (.krealloc ptr size) = some s')
    : s'.kernel.mem.Holds s'.Owns
        (HeapStore.bytes ⟨heapAreas s.kernel.mem, known⟩ (.krealloc ptr size)) := by
  obtain ⟨held, small⟩ := enabled
  simp only [heapMachine, HeapSession.exec] at executed
  split at executed
  · cases executed
  · next new k' called =>
    have reply := (sound.krealloc_serves coalesced held small called).1
    rw [HeapStore.bytes_krealloc reply]
    rcases krealloc_cases called
      with ⟨same, rfl⟩ | ⟨rfl, allocated⟩ | ⟨moves, moved, copied, outcome⟩
    · rw [if_pos (same.imp_right And.left)] at executed
      obtain rfl := Option.some.inj executed
      rw [if_pos (same.imp_right (fun inPlace => .inr inPlace.1))]
      exact holds
    · have grants : s' = HeapSession.grant s.live (new, k') := by
        rw [sound.without_null] at executed
        split at executed
        · next failed =>
          rw [HeapSession.grant, if_pos (or_self_iff.mp failed)]
          exact (Option.some.inj executed).symm
        · exact (Option.some.inj executed).symm
      rw [if_pos (.inr (.inl rfl)), grants]
      exact sound.kmalloc_holds holds small allocated
    · obtain ⟨b, member, rfl⟩ :=
        held.resolve_left (fun none => moves (.inr (.inl none)))
      have live := sound.wf.live_iff.mpr ⟨sound.listed b member, sound.used b member⟩
      have notNull := sound.ptr_ne_null member
      have start : b.header + headerSize = b.ptr := BitVec.sub_add_cancel _ _
      have smaller : SimpleKernel.payload s.kernel.mem b.header < size.toNat := by
        have small : ¬size.toNat ≤ (getAreaSize s.kernel.mem b.header).toNat :=
          fun enough => moves (.inr (.inr enough))
        rw [sound.wf.areaSize (sound.listed b member)] at small
        omega
      have copies := sound.wf.kreallocCopy_copied live smaller (by omega)
      rw [start, copied] at copies
      rcases copies with failed | ⟨_, areas', q, grants, copies⟩
      · obtain ⟨rfl, rfl⟩ := Prod.mk.inj (Option.some.inj failed)
        obtain ⟨_, rfl⟩ := outcome.resolve_right (fun moved => moved.1 rfl)
        rw [if_pos (.inl rfl)] at executed ⊢
        obtain rfl := Option.some.inj executed
        exact holds
      · obtain ⟨rfl, rfl⟩ := Prod.mk.inj (Option.some.inj grants)
        have granted := copies.granted
        have newNotNull := granted.carved.wf.ptr_ne_null granted.carved.head
        have fresh := sound.granted_ne granted member
        obtain ⟨_, rfl⟩ := outcome.resolve_left (fun failed => newNotNull failed.1)
        have release := HeapSession.release_krealloc moves copied newNotNull
        rw [if_neg (not_or.mpr ⟨newNotNull, fresh⟩)] at executed
        obtain rfl := Option.some.inj executed
        rw [if_neg (not_or.mpr ⟨newNotNull, not_or.mpr ⟨notNull, fresh⟩⟩),
          HeapSession.grant_kernel, sound.extent_eq member]
        exact sound.moved_holds holds member copies smaller (safe.of_release release)

end Steps

/-- Every call whose release is safe does to the known bytes what the store does. -/
theorem HeapSession.Stores.step {store : HeapStore} (stores : s.Stores store)
    (enabled : heapMachine.enabled s call) (safe : Releases CoalesceSafe s call)
    (executed : heapMachine.exec s call = some s')
    : s'.Stores (store.call call) := by
  obtain ⟨follows, holds⟩ := stores
  refine ⟨follows.step enabled safe executed, ?_⟩
  obtain ⟨⟨⟨areas, sound⟩, coalesced⟩, same⟩ := follows
  obtain ⟨_, known⟩ := store
  obtain rfl : heapAreas s.kernel.mem = _ := same
  change s'.kernel.mem.Holds s'.Owns (HeapStore.bytes _ call)
  cases call with
  | kmalloc size =>
      obtain ⟨⟨ptr, k'⟩, called, rfl⟩ := Option.map_eq_some_iff.mp executed
      exact sound.kmalloc_holds holds enabled called
  | kcalloc nmemb size =>
      obtain ⟨⟨ptr, k'⟩, called, rfl⟩ := Option.map_eq_some_iff.mp executed
      exact sound.kcalloc_holds holds coalesced enabled called
  | krealloc ptr size => exact sound.krealloc_holds holds coalesced enabled safe executed
  | kpagealloc n =>
      obtain ⟨⟨ptr, k'⟩, called, rfl⟩ := Option.map_eq_some_iff.mp executed
      have small : n.toNat ≤ 2 ^ 17 := enabled
      have outcome := sound.wf.kpagealloc_allocates (show n.toNat * 4096 < 2 ^ 32 by omega)
      rw [called] at outcome
      exact holds.kept (fun x owned => sound.allocated_keeps outcome owned)
  | kfree ptr =>
      obtain rfl := Option.some.inj executed
      rw [HeapStore.bytes]
      rcases enabled with rfl | ⟨b, member, rfl⟩
      · rw [if_pos rfl, sound.without_null, kfree, if_pos rfl]
        exact holds
      · have notNull := sound.ptr_ne_null member
        have release : s.release (.kfree b.ptr) = some (s.kernel.mem, b.ptr) := by
          simp only [HeapSession.release, if_neg notNull]
        rw [if_neg notNull, sound.extent_eq member]
        exact holds.forget (fun x owned far =>
          sound.released_keeps member (safe.of_release release) owned far)
  | write address value =>
      obtain rfl := Option.some.inj executed
      exact holds.store enabled

/-- After every list of calls whose releases are safe, memory holds every byte that was
stored, cleared or moved and not released since, and a live block lies there.
-/
theorem heapReplay_stores (fresh : k.heapRan = false) {calls : List HeapCall}
    (replayed
      : heapMachine.replay (Releases CoalesceSafe) calls ⟨initHeap k, []⟩ = some s)
    {x : Addr} {value : Byte}
    (known : (calls.foldl HeapStore.call .initial).known x = some value)
    : s.kernel.mem x = value ∧ ∃ b ∈ s.live, b.ptr ≤ x ∧ x < b.stop := by
  have initially : HeapSession.Stores ⟨initHeap k, []⟩ .initial := .initial fresh
  have stores := Machine.replay_follows HeapSession.Stores.step initially replayed
  exact stores.holds x value known

/-- What was stored in a block is read from it later. Witness: a byte of the first block, after
a reallocation has moved that block.
-/
theorem heapReplay_stores_reuse
    : ∃ s : HeapSession,
        heapMachine.replay (Releases CoalesceSafe) reuseCalls ⟨initHeap bareKernel, []⟩ = some s
        ∧ s.kernel.mem 0xE0000048 = 7 := by
  have replayed
      : (heapMachine.replay (Releases CoalesceSafe) reuseCalls ⟨initHeap bareKernel, []⟩).isSome
        = true := by
    decide +kernel
  obtain ⟨s, reached⟩ := Option.isSome_iff_exists.mp replayed
  have known : (reuseCalls.foldl HeapStore.call .initial).known 0xE0000048 = some 7 := by
    decide +kernel
  exact ⟨s, reached, (heapReplay_stores rfl reached known).1⟩

end SimpleKernel
