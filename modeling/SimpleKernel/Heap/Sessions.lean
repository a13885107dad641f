import SimpleKernel.Heap.Blocks
import SimpleKernel.Library.Runs

/-! Sessions of the kernel heap.
A session pairs the kernel with the blocks its clients hold, each with the end it had when
it was handed out. Clients release and resize only blocks they hold, and write only inside
their payloads.
-/

namespace SimpleKernel

open ByteMemory Runs

structure LiveBlock where
  ptr : Addr
  /-- Where the block ended when it was handed out. -/
  stop : Addr
  deriving DecidableEq

def LiveBlock.header (b : LiveBlock) : Addr :=
  b.ptr - headerSize

structure HeapSession where
  kernel : Kernel
  live : List LiveBlock

inductive HeapCall
  | kmalloc (size : Word)
  | kcalloc (nmemb size : Word)
  | krealloc (ptr : Addr) (size : Word)
  | kpagealloc (n : Word)
  | kfree (ptr : Addr)
  /-- A client stores one byte. -/
  | write (address : Addr) (value : Byte)

/-- The pointer a call returned joins the live blocks, unless it is NULL. -/
def HeapSession.grant (live : List LiveBlock) : Addr × Kernel → HeapSession
  | (ptr, k) =>
      if ptr = null then ⟨k, live⟩
      else ⟨k, ⟨ptr, getNextAddress k.mem (ptr - headerSize)⟩ :: live⟩

def HeapSession.without (s : HeapSession) (ptr : Addr) : List LiveBlock :=
  s.live.filter (fun b => b.ptr ≠ ptr)

def HeapSession.exec (s : HeapSession) : HeapCall → Option HeapSession
  | .kmalloc size => (SimpleKernel.kmalloc s.kernel size).map (grant s.live)
  | .kcalloc nmemb size => (SimpleKernel.kcalloc s.kernel nmemb size).map (grant s.live)
  | .krealloc ptr size =>
      match SimpleKernel.krealloc s.kernel ptr size with
      | none => none
      | some (new, k) =>
          if new = null ∨ new = ptr then some ⟨k, s.live⟩
          else some (grant (s.without ptr) (new, k))
  | .kpagealloc n => (SimpleKernel.kpagealloc s.kernel n).map (grant s.live)
  | .kfree ptr =>
      some
        ⟨{ s.kernel with mem := SimpleKernel.kfree s.kernel.mem ptr }, s.without ptr⟩
  | .write address value =>
      some ⟨{ s.kernel with mem := s.kernel.mem.store8 address value }, s.live⟩

/-- A live block or NULL. -/
def HeapSession.Holds (s : HeapSession) (ptr : Addr) : Prop :=
  ptr = null ∨ ∃ b ∈ s.live, b.ptr = ptr

instance (s : HeapSession) (ptr : Addr) : Decidable (s.Holds ptr) :=
  inferInstanceAs (Decidable (_ ∨ _))

/-- Requests of at most 2^29 bytes or 2^17 pages, on blocks and bytes the clients hold. -/
def HeapSession.Enabled (s : HeapSession) : HeapCall → Prop
  | .kmalloc size => size.toNat ≤ 2 ^ 29
  | .kcalloc nmemb size => nmemb.toNat * size.toNat ≤ 2 ^ 29
  | .krealloc ptr size => s.Holds ptr ∧ size.toNat ≤ 2 ^ 29
  | .kpagealloc n => n.toNat ≤ 2 ^ 17
  | .kfree ptr => s.Holds ptr
  | .write address _ => ∃ b ∈ s.live, b.ptr ≤ address ∧ address < b.stop

def heapMachine : Machine HeapSession HeapCall where
  enabled := HeapSession.Enabled
  exec := HeapSession.exec

instance (s : HeapSession) (call : HeapCall) : Decidable (heapMachine.enabled s call) :=
  match call with
  | .kmalloc size => inferInstanceAs (Decidable (size.toNat ≤ 2 ^ 29))
  | .kcalloc nmemb size => inferInstanceAs (Decidable (nmemb.toNat * size.toNat ≤ 2 ^ 29))
  | .krealloc ptr size => inferInstanceAs (Decidable (s.Holds ptr ∧ size.toNat ≤ 2 ^ 29))
  | .kpagealloc n => inferInstanceAs (Decidable (n.toNat ≤ 2 ^ 17))
  | .kfree ptr => inferInstanceAs (Decidable (s.Holds ptr))
  | .write address _ =>
      inferInstanceAs (Decidable (∃ b ∈ s.live, b.ptr ≤ address ∧ address < b.stop))

/-- The memory in which a call reaches `kfree`, and the pointer it passes. A reallocation
that moves its block does so after the copy.
-/
def HeapSession.release (s : HeapSession) : HeapCall → Option (Memory × Addr)
  | .kfree ptr => if ptr = null then none else some (s.kernel.mem, ptr)
  | .krealloc ptr size =>
      if size = 0 ∨ ptr = null ∨ getAreaSize s.kernel.mem (ptr - headerSize) ≥ size then none
      else
        match kreallocCopy s.kernel ptr size with
        | none => none
        | some (new, k) => if new = null then none else some (k.mem, ptr)
  | _ => none

/-- A condition on the memory and the header of every release of a call. -/
def Releases (safe : Memory → Addr → Prop) (s : HeapSession) (call : HeapCall) : Prop :=
  ∀ release ∈ s.release call, safe release.1 (release.2 - headerSize)

instance (safe : Memory → Addr → Prop) [∀ m a, Decidable (safe m a)] (s : HeapSession)
    (call : HeapCall)
    : Decidable (Releases safe s call) :=
  match found : s.release call with
  | none => isTrue (fun release member => by simp [found] at member)
  | some release =>
      decidable_of_iff (safe release.1 (release.2 - headerSize))
        (by simp [Releases, found])

/-- The condition on releases, at the one that a call makes. -/
theorem Releases.of_release {safe : Memory → Addr → Prop} {s : HeapSession} {call : HeapCall}
    (releases : Releases safe s call) {m : Memory} {b : LiveBlock}
    (release : s.release call = some (m, b.ptr))
    : safe m b.header :=
  releases (m, b.ptr) release

/-- The area at `a` does not border `heap_end`, and its back link can be followed. -/
def ChainSafe (m : Memory) (a : Addr) : Prop :=
  getNextAddress m a ≠ heapEnd ∧ BackLinkSafe m a

instance (m : Memory) (a : Addr) : Decidable (ChainSafe m a) :=
  inferInstanceAs (Decidable (_ ∧ _))

/-- Runs without a guard. -/
def AnyCall (_ : HeapSession) (_ : HeapCall) : Prop :=
  True

instance (s : HeapSession) (call : HeapCall) : Decidable (AnyCall s call) :=
  inferInstanceAs (Decidable True)

/-- A kernel before its first allocation: the directory maps itself and nothing else. -/
def bareKernel : Kernel where
  mem := fun _ => 0
  paging := {
    directory := 0x105000
    phys := Memory.store32 (fun _ => 0) 0x105FFC 0x105003
    pmm := {
      bitmap := 0xC0010000
      size := 0x100
      nextIndex := 0x21
      nextOffset := 0
      freePages := 0x6F8
      setUp := true
      bytes := fun i => if i.toNat < 0x21 then 0xFF else 0
    }
  }
  heapRan := false

-----------------------------------------------------------------------------------------
-- What holds in every state of a run
-----------------------------------------------------------------------------------------

/-- Every live block is a used area of a well-formed chain that still ends where it did. -/
structure HeapSession.Sound (s : HeapSession) (areas : List Addr) : Prop where
  wf : WellFormed s.kernel.mem areas
  listed : ∀ b ∈ s.live, b.header ∈ areas
  used : ∀ b ∈ s.live, getAreaUsed s.kernel.mem b.header = true
  stop : ∀ b ∈ s.live, getNextAddress s.kernel.mem b.header = b.stop
  distinct : s.live.Pairwise (fun b c => b.ptr ≠ c.ptr)

variable {s s' : HeapSession} {k k' : Kernel} {live : List LiveBlock}
  {areas areas' : List Addr} {b c : LiveBlock} {ptr : Addr}

@[simp] theorem HeapSession.grant_kernel : (HeapSession.grant live (ptr, k)).kernel = k := by
  rw [HeapSession.grant]
  split <;> rfl

/-- Blocks with one header are handed out by one pointer. -/
theorem LiveBlock.header_eq_iff : b.header = c.header ↔ b.ptr = c.ptr := by
  simp only [LiveBlock.header]
  constructor
  · intro same
    bv_omega
  · intro same
    rw [same]

/-- No block is handed out as NULL. -/
theorem HeapSession.Sound.ptr_ne_null (sound : s.Sound areas) (member : b ∈ s.live)
    : b.ptr ≠ null := by
  have notNull := sound.wf.ptr_ne_null (sound.listed b member)
  rwa [LiveBlock.header, BitVec.sub_add_cancel] at notNull

/-- A granted block joins the live ones, which the allocation left untouched. -/
theorem HeapSession.Sound.granted (sound : HeapSession.Sound ⟨k, live⟩ areas) {a q : Addr}
    {need : Nat} (granted : Granted k k' areas areas' a q need)
    : HeapSession.Sound (HeapSession.grant live (q + headerSize, k')) areas' := by
  have carved := granted.carved
  have head := carved.head
  have keeps (b) (member : b ∈ live) :=
    carved.keeps sound.wf granted.source granted.free (sound.listed b member)
      (sound.used b member)
  rw [HeapSession.grant, if_neg (carved.wf.ptr_ne_null head)]
  refine {
    wf := carved.wf
    listed := ?_
    used := ?_
    stop := ?_
    distinct := List.pairwise_cons.mpr ⟨fun b member same => ?_, sound.distinct⟩
  }
  · intro b member
    rcases List.mem_cons.mp member with rfl | old
    · simpa [LiveBlock.header] using head
    · exact (keeps b old).1
  · intro b member
    rcases List.mem_cons.mp member with rfl | old
    · simpa [LiveBlock.header] using (carved.used q head).mpr (Or.inl ⟨rfl, rfl⟩)
    · exact (keeps b old).2.1
  · intro b member
    rcases List.mem_cons.mp member with rfl | old
    · rfl
    · exact (keeps b old).2.2.1.trans (sound.stop b old)
  · refine carved.fresh sound.wf granted.source granted.free (sound.listed b member)
      (sound.used b member) ?_
    rw [LiveBlock.header, ← same, BitVec.add_sub_cancel]

/-- A release of a held block on a well-formed chain. -/
theorem HeapSession.Sound.kfree_released (sound : HeapSession.Sound ⟨k, live⟩ areas)
    (member : b ∈ live)
    : Released k.mem (kfree k.mem b.ptr) b.header :=
  sound.wf.kfree_released (sound.listed b member) rfl (sound.used b member)

/-- A safe release keeps every other live block. -/
theorem HeapSession.Sound.release (sound : HeapSession.Sound ⟨k, live⟩ areas)
    (member : b ∈ live) (safe : ChainSafe k.mem b.header)
    : ∃ areas',
        HeapSession.Sound
          ⟨{ k with mem := kfree k.mem b.ptr }, live.filter (fun c => c.ptr ≠ b.ptr)⟩
          areas' := by
  have released := sound.kfree_released member
  have listed := sound.listed b member
  obtain ⟨areas', wf', members⟩ :=
    released.exists_wellFormed sound.wf listed safe.1 safe.2
  have other {c} (inside : c ∈ live.filter (fun c => c.ptr ≠ b.ptr))
      : c ∈ live ∧ c.header ≠ b.header := by
    obtain ⟨old, ne⟩ := List.mem_filter.mp inside
    exact ⟨old, fun same => of_decide_eq_true ne (LiveBlock.header_eq_iff.mp same)⟩
  have kept {c} (inside : c ∈ live.filter (fun c => c.ptr ≠ b.ptr)) :=
    released.kept sound.wf listed safe.1 safe.2
      (sound.listed c (other inside).1) (sound.used c (other inside).1) (other inside).2
      members
  refine ⟨areas', {
    wf := wf'
    listed := fun c inside => (kept inside).1
    used := fun c inside => ?_
    stop := fun c inside => (kept inside).2.trans (sound.stop c (other inside).1)
    distinct := sound.distinct.filter _
  }⟩
  have aligned := sound.wf.aligned (sound.listed c (other inside).1)
  rw [released.used c.header aligned, if_neg (other inside).2]
  exact sound.used c (other inside).1

/-- A client's byte in the payload of its own block. -/
theorem HeapSession.Sound.payloadOnly (sound : s.Sound areas) (member : b ∈ s.live)
    {address : Addr} (low : b.ptr ≤ address) (high : address < b.stop) (value : Byte)
    : PayloadOnly s.kernel.mem (s.kernel.mem.store8 address value) b.header := by
  have bounds := sound.wf.bounds (sound.listed b member)
  have stop := sound.stop b member
  intro y beyond
  refine Memory.store8_of_ne _ _ ?_
  rintro rfl
  rw [stop] at beyond
  simp only [LiveBlock.header] at beyond bounds
  bv_omega

/-- A client may store what it likes in its block. -/
theorem HeapSession.Sound.payload (sound : s.Sound areas) (member : b ∈ s.live)
    {mem : Memory} (only : PayloadOnly s.kernel.mem mem b.header)
    : HeapSession.Sound ⟨{ s.kernel with mem := mem }, s.live⟩ areas where
  wf := only.wellFormed sound.wf (sound.listed b member)
  listed := sound.listed
  used c inside := by
    rw [only.used sound.wf (sound.listed b member) (Or.inl (sound.listed c inside))]
    exact sound.used c inside
  stop c inside := by
    rw [only.next sound.wf (sound.listed b member) (Or.inl (sound.listed c inside))]
    exact sound.stop c inside
  distinct := sound.distinct

/-- `krealloc` leaves its block alone, allocates like `kmalloc`, or moves the block. -/
theorem krealloc_cases {new size : Word} (returned : krealloc k ptr size = some (new, k'))
    : (new = null ∨ new = ptr ∧ getAreaSize k.mem (ptr - headerSize) ≥ size) ∧ k' = k
      ∨ ptr = null ∧ kmalloc k size = some (new, k')
      ∨ ¬(size = 0 ∨ ptr = null ∨ getAreaSize k.mem (ptr - headerSize) ≥ size)
        ∧ ∃ moved,
            kreallocCopy k ptr size = some (new, moved)
            ∧ (new = null ∧ k' = moved
              ∨ new ≠ null ∧ k' = { moved with mem := kfree moved.mem ptr }) := by
  rw [krealloc] at returned
  split at returned
  · obtain ⟨rfl, rfl⟩ := Prod.mk.inj (Option.some.inj returned)
    exact Or.inl ⟨Or.inl rfl, rfl⟩
  · next positive =>
    split at returned
    · next fresh => exact Or.inr (Or.inl ⟨fresh, returned⟩)
    · next notNull =>
      split at returned
      · next enough =>
        obtain ⟨rfl, rfl⟩ := Prod.mk.inj (Option.some.inj returned)
        exact Or.inl ⟨Or.inr ⟨rfl, enough⟩, rfl⟩
      · next small =>
        refine Or.inr (Or.inr ⟨by simp only [positive, notNull, small, or_self,
          not_false_eq_true], ?_⟩)
        split at returned
        · simp at returned
        · next new' moved copied =>
          split at returned
          · next failed =>
            obtain ⟨rfl, rfl⟩ := Prod.mk.inj (Option.some.inj returned)
            exact ⟨moved, by rw [copied, failed], Or.inl ⟨rfl, rfl⟩⟩
          · next granted =>
            obtain ⟨rfl, rfl⟩ := Prod.mk.inj (Option.some.inj returned)
            exact ⟨moved, copied, Or.inr ⟨granted, rfl⟩⟩

/-- A reallocation that moves its block releases it in the state after the copy. -/
theorem HeapSession.release_krealloc {new size : Word}
    (moves : ¬(size = 0 ∨ ptr = null ∨ getAreaSize s.kernel.mem (ptr - headerSize) ≥ size))
    (copied : kreallocCopy s.kernel ptr size = some (new, k')) (granted : new ≠ null)
    : s.release (.krealloc ptr size) = some (k'.mem, ptr) := by
  simp only [HeapSession.release, if_neg moves, copied, if_neg granted]

/-- No live block has the pointer NULL. -/
theorem HeapSession.Sound.without_null (sound : s.Sound areas) : s.without null = s.live :=
  List.filter_eq_self.mpr (fun _ member => decide_eq_true (sound.ptr_ne_null member))

/-- A block granted next to the live ones has a pointer of its own. -/
theorem HeapSession.Sound.granted_ne (sound : s.Sound areas) {a q : Addr} {need : Nat}
    (granted : Granted s.kernel k' areas areas' a q need) (member : b ∈ s.live)
    : q + headerSize ≠ b.ptr := by
  have joined := sound.granted granted
  rw [HeapSession.grant, if_neg (granted.carved.wf.ptr_ne_null granted.carved.head)] at joined
  exact (List.pairwise_cons.mp joined.distinct).1 b member

/-- The area that a call takes up to its end, if it takes one so. -/
def HeapSession.whole (s : HeapSession) : HeapCall → Option Addr
  | .kmalloc size => kmallocWhole s.kernel.mem size
  | .kcalloc nmemb size => kmallocWhole s.kernel.mem (nmemb * size)
  | .krealloc ptr size =>
      if ptr ≠ null ∧ getAreaSize s.kernel.mem (ptr - headerSize) ≥ size then none
      else kmallocWhole s.kernel.mem size
  | .kpagealloc n => kpageallocWhole s.kernel.mem n
  | _ => none

/-- What a call of a sound session can do. -/
inductive HeapSession.Step (s : HeapSession) (areas : List Addr) (call : HeapCall)
    (s' : HeapSession)
    : Prop
  | unchanged (same : s' = s)
  | granted {k' : Kernel} {areas' : List Addr} {a q : Addr} {need : Nat}
    (granted : Granted s.kernel k' areas areas' a q need)
    (takes : getNextAddress k'.mem q = getNextAddress s.kernel.mem a → s.whole call = some a)
    (same : s' = HeapSession.grant s.live (q + headerSize, k'))
  | released {b : LiveBlock} (member : b ∈ s.live)
    (release : s.release call = some (s.kernel.mem, b.ptr))
    (same : s' = ⟨{ s.kernel with mem := kfree s.kernel.mem b.ptr }, s.without b.ptr⟩)
  | moved {b : LiveBlock} {k' : Kernel} {areas' : List Addr} {a q : Addr} {need : Nat}
    (member : b ∈ s.live) (granted : Granted s.kernel k' areas areas' a q need)
    (takes : getNextAddress k'.mem q = getNextAddress s.kernel.mem a → s.whole call = some a)
    (release : s.release call = some (k'.mem, b.ptr))
    (same
      : s'
        = HeapSession.grant (s.without b.ptr)
          (q + headerSize, { k' with mem := kfree k'.mem b.ptr }))
  | wrote {b : LiveBlock} {address : Addr} {value : Byte} (member : b ∈ s.live)
    (low : b.ptr ≤ address) (high : address < b.stop) (write : call = .write address value)
    (same
      : s' = ⟨{ s.kernel with mem := s.kernel.mem.store8 address value }, s.live⟩)

/-- An allocation leaves the session unchanged, or grants a block. -/
theorem HeapSession.Step.of_allocates {need : Nat} {call : HeapCall} {new : Addr}
    (outcome : Allocates s.kernel areas need (s.whole call) (some (new, k')))
    (same : s' = HeapSession.grant s.live (new, k'))
    : s.Step areas call s' := by
  rcases outcome with unchanged | ⟨_, areas', a, q, returned, granted, takes⟩
  · obtain ⟨rfl, rfl⟩ := Prod.mk.inj (Option.some.inj unchanged)
    exact .unchanged same
  · obtain ⟨rfl, rfl⟩ := Prod.mk.inj (Option.some.inj returned)
    exact .granted granted takes same

/-- `krealloc` allocates, leaves a block that is large enough, or moves it. -/
theorem HeapSession.Sound.krealloc_step (sound : s.Sound areas) {size : Word}
    (holds : s.Holds ptr) (small : size.toNat ≤ 2 ^ 29)
    (returned : heapMachine.exec s (.krealloc ptr size) = some s')
    : s.Step areas (.krealloc ptr size) s' := by
  simp only [heapMachine, HeapSession.exec] at returned
  split at returned
  · simp at returned
  · next new k' called =>
    rcases krealloc_cases called
      with ⟨same, rfl⟩ | ⟨rfl, allocated⟩ | ⟨moves, moved, copied, outcome⟩
    · rw [if_pos (same.imp_right And.left)] at returned
      exact .unchanged (Option.some.inj returned).symm
    · have outcome := sound.wf.kmalloc_allocates (show size.toNat + 15 < 2 ^ 32 by omega)
      rw [allocated] at outcome
      refine .of_allocates (by simpa [HeapSession.whole] using outcome) ?_
      rw [sound.without_null] at returned
      split at returned
      · next failed =>
        rw [HeapSession.grant, if_pos (or_self_iff.mp failed)]
        exact (Option.some.inj returned).symm
      · exact (Option.some.inj returned).symm
    · have smaller : (getAreaSize s.kernel.mem (ptr - headerSize)).toNat < size.toNat := by
        have left : ¬getAreaSize s.kernel.mem (ptr - headerSize) ≥ size :=
          fun enough => moves (Or.inr (Or.inr enough))
        bv_omega
      have copies := sound.wf.kreallocCopy_allocates (by omega) smaller
      rw [copied] at copies
      have whole : s.whole (.krealloc ptr size) = kmallocWhole s.kernel.mem size :=
        if_neg (fun inPlace => moves (Or.inr (Or.inr inPlace.2)))
      rw [← whole] at copies
      rcases outcome with ⟨rfl, rfl⟩ | ⟨notNull, rfl⟩
      · refine .of_allocates copies ?_
        rw [if_pos (Or.inl rfl)] at returned
        exact (Option.some.inj returned).symm
      · obtain ⟨b, member, rfl⟩ :=
          holds.resolve_left (fun none => moves (Or.inr (Or.inl none)))
        have release := HeapSession.release_krealloc moves copied notNull
        rcases copies with unchanged | ⟨_, areas', a, q, same, granted, takes⟩
        · exact absurd (Prod.mk.inj (Option.some.inj unchanged)).1 notNull
        · obtain ⟨rfl, rfl⟩ := Prod.mk.inj (Option.some.inj same)
          rw [if_neg (not_or.mpr ⟨notNull, sound.granted_ne granted member⟩)] at returned
          exact .moved member granted takes release (Option.some.inj returned).symm

/-- Every call of a sound session is one of these steps. -/
theorem HeapSession.Sound.step_cases (sound : s.Sound areas) {call : HeapCall}
    (enabled : heapMachine.enabled s call) (returned : heapMachine.exec s call = some s')
    : s.Step areas call s' := by
  cases call with
  | kmalloc size =>
      obtain ⟨⟨ptr, k'⟩, called, same⟩ := Option.map_eq_some_iff.mp returned
      have small : size.toNat ≤ 2 ^ 29 := enabled
      have outcome := sound.wf.kmalloc_allocates (show size.toNat + 15 < 2 ^ 32 by omega)
      rw [called] at outcome
      exact .of_allocates outcome same.symm
  | kcalloc nmemb size =>
      obtain ⟨⟨ptr, k'⟩, called, same⟩ := Option.map_eq_some_iff.mp returned
      have small : nmemb.toNat * size.toNat ≤ 2 ^ 29 := enabled
      have outcome := sound.wf.kcalloc_allocates
        (show nmemb.toNat * size.toNat + 15 < 2 ^ 32 by omega)
      rw [called] at outcome
      exact .of_allocates outcome same.symm
  | krealloc ptr size => exact sound.krealloc_step enabled.1 enabled.2 returned
  | kpagealloc n =>
      obtain ⟨⟨ptr, k'⟩, called, same⟩ := Option.map_eq_some_iff.mp returned
      have small : n.toNat ≤ 2 ^ 17 := enabled
      have outcome := sound.wf.kpagealloc_allocates (show n.toNat * 4096 < 2 ^ 32 by omega)
      rw [called] at outcome
      exact .of_allocates outcome same.symm
  | kfree ptr =>
      have same := (Option.some.inj returned).symm
      rcases enabled with rfl | ⟨b, member, rfl⟩
      · rw [sound.without_null, kfree, if_pos rfl] at same
        exact .unchanged same
      · have notNull := sound.ptr_ne_null member
        exact .released member (by simp only [HeapSession.release, if_neg notNull]) same
  | write address value =>
      obtain ⟨b, member, low, high⟩ := enabled
      exact .wrote member low high rfl (Option.some.inj returned).symm

/-- A moved block is the granted one, next to the live ones without the released one. -/
theorem HeapSession.Sound.moved_eq (sound : s.Sound areas) (member : b ∈ s.live) {a q : Addr}
    {need : Nat} (granted : Granted s.kernel k' areas areas' a q need)
    (safe : ChainSafe k'.mem b.header)
    : HeapSession.grant (s.without b.ptr)
        (q + headerSize, { k' with mem := kfree k'.mem b.ptr })
      = ⟨
        { k' with mem := kfree k'.mem b.ptr },
        (⟨q + headerSize, getNextAddress k'.mem q⟩ :: s.live).filter
          (fun c => c.ptr ≠ b.ptr)
      ⟩ := by
  have notNull := granted.carved.wf.ptr_ne_null granted.carved.head
  have other := sound.granted_ne granted member
  have copied := sound.granted granted
  rw [HeapSession.grant, if_neg notNull] at copied
  simp only [BitVec.add_sub_cancel] at copied
  obtain ⟨areas'', released⟩ := copied.release (List.mem_cons_of_mem _ member) safe
  rw [List.filter_cons_of_pos (by simpa using other)] at released ⊢
  have stop := released.stop _ List.mem_cons_self
  simp only [LiveBlock.header, BitVec.add_sub_cancel] at stop
  rw [HeapSession.grant, if_neg notNull, BitVec.add_sub_cancel, stop]
  rfl

/-- A move is an allocation and a release. -/
theorem HeapSession.Sound.moved (sound : s.Sound areas) (member : b ∈ s.live) {a q : Addr}
    {need : Nat} (granted : Granted s.kernel k' areas areas' a q need)
    (safe : ChainSafe k'.mem b.header)
    : ∃ areas'',
        HeapSession.Sound
          (HeapSession.grant (s.without b.ptr)
            (q + headerSize, { k' with mem := kfree k'.mem b.ptr }))
          areas'' := by
  have copied := sound.granted granted
  rw [HeapSession.grant, if_neg (granted.carved.wf.ptr_ne_null granted.carved.head),
    BitVec.add_sub_cancel] at copied
  rw [sound.moved_eq member granted safe]
  exact copied.release (List.mem_cons_of_mem _ member) safe

/-- Every call whose releases are safe keeps the session sound. -/
theorem HeapSession.Sound.step (sound : s.Sound areas) {call : HeapCall}
    (enabled : heapMachine.enabled s call) (safe : Releases ChainSafe s call)
    (returned : heapMachine.exec s call = some s')
    : ∃ areas', s'.Sound areas' := by
  cases sound.step_cases enabled returned with
  | unchanged same =>
      rw [same]
      exact ⟨areas, sound⟩
  | granted granted _ same =>
      rw [same]
      exact ⟨_, sound.granted granted⟩
  | released member release same =>
      rw [same]
      exact sound.release member (safe.of_release release)
  | moved member granted _ release same =>
      rw [same]
      exact sound.moved member granted (safe.of_release release)
  | wrote member low high _ same =>
      rw [same]
      exact ⟨areas, sound.payload member (sound.payloadOnly member low high _)⟩

/-- `init_heap` makes the whole heap one free area. -/
theorem initHeap_wellFormed (fresh : k.heapRan = false)
    : WellFormed (initHeap k).mem [heapStart] := by
  -- `heap_start` as the simplifier writes it
  have start : Aligned 0xE0000000#32 := rfl
  have ne : 0xE0000000#32 ≠ heapEnd := by decide
  have next : getNextAddress (initHeap k).mem heapStart = heapEnd := by
    simp [initHeap, fresh, start, ne]
  refine ⟨⟨rfl, by rw [next]; decide, next⟩, ?_, by simp [initHeap, fresh]⟩
  intro a member
  obtain rfl := List.mem_singleton.mp member
  simp [initHeap, fresh, start, ne]

/-- The fresh heap is sound: one free area, no live block. -/
theorem HeapSession.Sound.initial (fresh : k.heapRan = false)
    : HeapSession.Sound ⟨initHeap k, []⟩ [heapStart] where
  wf := initHeap_wellFormed fresh
  listed := by simp
  used := by simp
  stop := by simp
  distinct := List.Pairwise.nil

/-- Every state of a run whose releases are safe is sound. -/
theorem HeapSession.Sound.of_run (fresh : k.heapRan = false)
    (run : heapMachine.Reaches (Releases ChainSafe) ⟨initHeap k, []⟩ s)
    : ∃ areas, s.Sound areas := by
  refine run.invariant ?_ ?_
  · exact ⟨_, .initial fresh⟩
  · intro s s' call earlier enabled guarded returned
    obtain ⟨areas, sound⟩ := earlier
    exact sound.step enabled guarded returned

end SimpleKernel
