import SimpleKernel.Heap.Stored
import SimpleKernel.Terminal.Console

/-! One memory for the heap and the terminal.
Strings are built in blocks of the heap and printed from there, and both the allocator and the
terminal write to the memory that they share. Neither gets in the way of the other: in any
order of their calls the heap is what its own calls make of it, and the screen shows what was
printed.
-/

namespace SimpleKernel

open ByteMemory AreaLists Runs TextLayout

-----------------------------------------------------------------------------------------
-- What heap calls write
-----------------------------------------------------------------------------------------

variable {m m' mem : Memory} {areas : List Addr} {a x literal : Addr} {s s' : HeapSession}
  {k : Kernel} {t t' : Terminal} {text : Text}

/-- No byte outside the heap belongs to a header. -/
theorem outsideHeader_of_outside (outside : ¬InHeap x)
    (low : 0xE0000000 ≤ a.toNat) (high : a.toNat ≤ 0xFFBFFFF8)
    : OutsideHeader x a := by
  rw [InHeap] at outside
  rw [OutsideHeader]
  bv_omega

theorem WellFormed.outsideHeader (wf : WellFormed m areas) (listed : a ∈ areas ∨ a = heapEnd)
    (outside : ¬InHeap x)
    : OutsideHeader x a := by
  rcases listed with listed | rfl
  · have bounds := wf.bounds listed
    exact outsideHeader_of_outside outside bounds.1 (by omega)
  · exact outsideHeader_of_outside outside (by decide) (by decide)

/-- `init_heap` writes two headers of the heap. -/
theorem initHeap_outside (fresh : k.heapRan = false) (outside : ¬InHeap x)
    : (initHeap k).mem x = k.mem x := by
  -- `heap_start` as the simplifier writes it
  have first : OutsideHeader x 0xE0000000#32 :=
    outsideHeader_of_outside outside (by decide) (by decide)
  have last : OutsideHeader x heapEnd :=
    outsideHeader_of_outside outside (by decide) (by decide)
  simp [initHeap, fresh, first, last]

/-- A release with a right back link writes headers of the heap. -/
theorem Released.outside (released : Released m m' a) (wf : WellFormed m areas)
    (listed : a ∈ areas) (safe : CoalesceSafe m a) (outside : ¬InHeap x)
    : m' x = m x := by
  refine released.bytes x (wf.outsideHeader (.inl listed) outside)
    (wf.outsideHeader (.inl ?_) outside) (wf.outsideHeader (wf.next_mem listed) outside)
    (wf.outsideHeader (wf.mergeTarget_mem listed safe.1) outside)
  rw [mergeNode]
  split
  · next onRoot => exact wf.chainAreas_eq ▸ (safe.2.2 onRoot).1
  · exact listed

/-- An allocation writes headers of the heap. -/
theorem Granted.outside {k' : Kernel} {areas' : List Addr} {q : Addr} {need : Nat}
    (granted : Granted k k' areas areas' a q need) (wf : WellFormed k.mem areas)
    (outside : ¬InHeap x)
    : k'.mem x = k.mem x := by
  have bounds := wf.bounds granted.source
  refine granted.carved.bytes x ?_ (wf.outsideHeader (wf.next_mem granted.source) outside)
  rw [InHeap] at outside
  omega

/-- The calls of the heap write nothing outside it. -/
theorem HeapSession.Sound.exec_outside (sound : s.Sound areas) {call : HeapCall}
    (enabled : heapMachine.enabled s call) (safe : Releases CoalesceSafe s call)
    (executed : heapMachine.exec s call = some s') (outside : ¬InHeap x)
    : s'.kernel.mem x = s.kernel.mem x := by
  cases sound.step_cases enabled executed with
  | unchanged same => rw [same]
  | granted granted _ same =>
      rw [same, HeapSession.grant_kernel]
      exact granted.outside sound.wf outside
  | released member release same =>
      rw [same]
      exact (sound.kfree_released member).outside sound.wf (sound.listed _ member)
        (safe.of_release release) outside
  | @moved b k' _ _ q _ member granted _ release same =>
      have between := sound.granted granted
      rw [HeapSession.grant, if_neg (granted.carved.wf.ptr_ne_null granted.carved.head)]
        at between
      have old := List.mem_cons_of_mem
        ⟨q + headerSize, getNextAddress k'.mem (q + headerSize - headerSize)⟩ member
      rw [same, HeapSession.grant_kernel]
      calc
        kfree k'.mem b.ptr x
        _ = k'.mem x :=
          (between.kfree_released old).outside between.wf (between.listed b old)
            (safe.of_release release) outside
        _ = s.kernel.mem x := granted.outside sound.wf outside
  | @wrote b address value member low high _ same =>
      rw [same]
      have bounds := sound.wf.bounds (sound.listed b member)
      have position := sound.ptr_toNat member
      rw [sound.stop b member] at bounds
      refine Memory.store8_of_ne _ _ ?_
      rintro rfl
      rw [InHeap] at outside
      bv_omega

-----------------------------------------------------------------------------------------
-- What the terminal writes
-----------------------------------------------------------------------------------------

section Redrawn

variable (agrees : ∀ x, InHeap x → m' x = m x)
include agrees

section Chain

variable (wf : WellFormed m areas)
include wf

/-- The headers of the heap depend on its bytes only. -/
theorem WellFormed.areaNext_redrawn (listed : a ∈ areas ∨ a = heapEnd)
    : areaNext m' a = areaNext m a := by
  refine Memory.load32_congr (fun x near => agrees x ?_)
  rw [InHeap]
  rcases listed with listed | rfl
  · have bounds := wf.bounds listed
    bv_omega
  · bv_omega

theorem WellFormed.next_redrawn (listed : a ∈ areas)
    : getNextAddress m' a = getNextAddress m a := by
  rw [getNextAddress, wf.areaNext_redrawn agrees (.inl listed), getNextAddress]

theorem WellFormed.used_redrawn (listed : a ∈ areas)
    : getAreaUsed m' a = getAreaUsed m a := by
  rw [getAreaUsed, wf.areaNext_redrawn agrees (.inl listed), getAreaUsed]

/-- Drawing on the screen does not change the chain. -/
theorem WellFormed.redrawn : WellFormed m' areas := by
  have epsilon {a : Addr} (listed : a ∈ areas ∨ a = heapEnd)
      : getAreaEpsilon m' a = getAreaEpsilon m a := by
    rw [getAreaEpsilon, wf.areaNext_redrawn agrees listed, getAreaEpsilon]
  exact wf.congr (fun a listed => wf.next_redrawn agrees listed)
    (fun a listed => epsilon (.inl listed)) (epsilon (.inr rfl))

/-- Nor does it change what is free. -/
theorem WellFormed.coalesced_redrawn (coalesced : Coalesced m) : Coalesced m' := by
  rw [Coalesced, wf.chainAreas_eq] at coalesced
  rw [Coalesced, (wf.redrawn agrees).chainAreas_eq]
  intro a listed inside
  rw [wf.next_redrawn agrees listed] at inside ⊢
  rw [wf.used_redrawn agrees listed, wf.used_redrawn agrees inside]
  exact coalesced a listed inside

/-- So the areas stay. -/
theorem WellFormed.heapAreas_redrawn : heapAreas m' = heapAreas m := by
  rw [(wf.redrawn agrees).heapAreas_eq, wf.heapAreas_eq]
  exact List.map_congr_left (fun a listed =>
    areaAt_congr (wf.next_redrawn agrees listed) (wf.used_redrawn agrees listed))

end Chain

end Redrawn

/-- A session whose memory changed outside the heap stores what it did. -/
theorem HeapSession.Stores.redrawn {store : HeapStore} (stores : s.Stores store)
    (agrees : ∀ x, InHeap x → m x = s.kernel.mem x)
    : HeapSession.Stores ⟨{ s.kernel with mem := m }, s.live⟩ store := by
  obtain ⟨⟨⟨⟨areas, sound⟩, coalesced⟩, same⟩, holds⟩ := stores
  have wf := sound.wf
  have sound'
      : HeapSession.Sound ⟨{ s.kernel with mem := m }, s.live⟩ areas := {
    wf := wf.redrawn agrees
    listed := sound.listed
    used := fun b member =>
      (wf.used_redrawn agrees (sound.listed b member)).trans (sound.used b member)
    stop := fun b member =>
      (wf.next_redrawn agrees (sound.listed b member)).trans (sound.stop b member)
    distinct := sound.distinct
  }
  refine ⟨⟨⟨⟨areas, sound'⟩, wf.coalesced_redrawn agrees coalesced⟩,
    (wf.heapAreas_redrawn agrees).trans same⟩, holds.kept (fun x owned => ?_)⟩
  obtain ⟨b, member, low, high⟩ := owned
  have bounds := wf.bounds (sound.listed b member)
  have position := sound.ptr_toNat member
  rw [sound.stop b member] at bounds
  refine ⟨agrees x ?_, b, member, low, high⟩
  rw [InHeap]
  bv_omega

/-- The screen shows the same if its bytes are the same. -/
theorem Terminal.Tracks.redrawn (tracks : t.Tracks mem text)
    (same : ∀ x, ¬OutsideScreen x → m x = t.mem x)
    : Terminal.Tracks { t with mem := m } m text := by
  obtain ⟨window, bounds, _⟩ := tracks
  refine ⟨{
    buffer := window.buffer
    color := window.color
    row := window.row
    column := window.column
    narrow := window.narrow
    cells := fun y low x left => ?_
  }, ⟨bounds.inside, bounds.row, bounds.column⟩, fun _ _ => rfl⟩
  have shown := window.cells y low x left
  have index : (BitVec.ofNat 32 (80 * y + x)).toNat = 80 * y + x := by
    rw [BitVec.toNat_ofNat]
    omega
  have cell
      : Terminal.entry { t with mem := m } (80 * y + x) = t.entry (80 * y + x) := by
    rw [Terminal.entry, Terminal.entry, window.buffer]
    generalize BitVec.ofNat 32 (80 * y + x) = i at index
    refine Memory.load16_congr (same _ ?_) (same _ ?_)
    · rw [OutsideScreen]
      bv_omega
    · rw [OutsideScreen]
      bv_omega
  rwa [cell]

-----------------------------------------------------------------------------------------
-- Sessions of both
-----------------------------------------------------------------------------------------

/-- A session of the heap, and the terminal's variables. The memory is that of the heap. -/
structure SharedSession where
  heap : HeapSession
  terminal : Terminal

/-- The terminal in the memory of the heap. -/
def SharedSession.screen (s : SharedSession) : Terminal :=
  { s.terminal with mem := s.heap.kernel.mem }

inductive SharedCall
  | heap (call : HeapCall)
  /-- A call of the terminal, with what it prints. -/
  | console (call : ConsoleCall) (printed : List Byte)

def SharedSession.exec (literal : Addr) (s : SharedSession) : SharedCall → Option SharedSession
  | .heap call => (heapMachine.exec s.heap call).map (fun heap => ⟨heap, s.terminal⟩)
  | .console call _ =>
      (call.exec literal s.screen).map (fun t =>
        ⟨{ s.heap with kernel := { s.heap.kernel with mem := t.mem } }, t⟩)

/-- A call of the terminal prints what memory holds for it when it is made. -/
def sharedMachine (literal : Addr) : Machine SharedSession SharedCall where
  enabled s
    | .heap call => heapMachine.enabled s.heap call
    | .console call printed => Prints s.heap.kernel.mem literal call printed
  exec := SharedSession.exec literal

def SharedReleases (s : SharedSession) : SharedCall → Prop
  | .heap call => Releases CoalesceSafe s.heap call
  | .console _ _ => True

/-- What the calls are for: a store of blocks, and a text. -/
structure SharedStore where
  heap : HeapStore
  text : Text

/-- A heap call changes the store, and one of the terminal the text. -/
def SharedStore.call (store : SharedStore) : SharedCall → SharedStore
  | .heap call => { store with heap := store.heap.call call }
  | .console call printed => { store with text := call.extend store.text printed }

/-- Blocks and screen are those of the store, and no other byte of `mem` has changed. -/
structure SharedSession.Implements (s : SharedSession) (mem : Memory) (store : SharedStore)
    : Prop where
  stores : s.heap.Stores store.heap
  tracks : s.screen.Tracks s.heap.kernel.mem store.text
  elsewhere : ∀ x, OutsideScreen x → ¬InHeap x → s.heap.kernel.mem x = mem x

/-- A string outside the screen and the heap. -/
structure FixedString (m : Memory) (str : Addr) (chars : List Byte) : Prop where
  off : OffscreenString m str chars
  outside : ∀ n ≤ chars.length, ¬InHeap (str + BitVec.ofNat 32 n)

variable {store : SharedStore} {session session' : SharedSession} {shared : SharedCall}

/-- It reads the same in every state. -/
theorem SharedSession.Implements.fixed (implements : session.Implements mem store)
    {chars : List Byte} (fixed : FixedString mem literal chars)
    : OffscreenString session.heap.kernel.mem literal chars where
  string := fixed.off.string.congr (fun n le =>
    implements.elsewhere _ (fixed.off.outside n le) (fixed.outside n le))
  outside := fixed.off.outside

/-- The screen lies below the heap. -/
theorem outsideScreen_of_inHeap (inHeap : InHeap x) : OutsideScreen x := by
  rw [InHeap] at inHeap
  rw [OutsideScreen]
  bv_omega

/-- Each call does to the store what it is for. -/
theorem SharedSession.Implements.step (implements : session.Implements mem store)
    (format : FixedString mem literal [percent, letterS, 0x0A])
    (enabled : (sharedMachine literal).enabled session shared)
    (safe : SharedReleases session shared)
    (executed : (sharedMachine literal).exec session shared = some session')
    : session'.Implements mem (store.call shared) := by
  obtain ⟨stores, tracks, elsewhere⟩ := id implements
  cases shared with
  | heap call =>
      obtain ⟨heap, called, rfl⟩ := Option.map_eq_some_iff.mp executed
      obtain ⟨areas, sound⟩ := stores.follows.1.1
      have outside {x : Addr} (beyond : ¬InHeap x)
          : heap.kernel.mem x = session.heap.kernel.mem x :=
        sound.exec_outside enabled safe called beyond
      refine ⟨stores.step enabled safe called, ?_, fun x off beyond => ?_⟩
      · exact tracks.redrawn (fun x shown => outside (mt outsideScreen_of_inHeap shown))
      · exact (outside beyond).trans (elsewhere x off beyond)
  | console call printed =>
      obtain ⟨t, called, rfl⟩ := Option.map_eq_some_iff.mp executed
      obtain ⟨t', drawn, shows⟩ := Prints.exec enabled (implements.fixed format) tracks
      obtain rfl := Option.some.inj (called.symm.trans drawn)
      have outside := shows.outside
      refine ⟨stores.redrawn (fun x inHeap => outside x (outsideScreen_of_inHeap inHeap)), ?_,
        fun x off beyond => (outside x off).trans (elsewhere x off beyond)⟩
      exact shows.redrawn (fun _ _ => rfl)

/-- The kernel behind `init_heap`, with the terminal as it is then. What it shows was printed
before, the line of `init_heap` itself included, which `initHeap` leaves out.
-/
def sharedStart (vm : Paging) (t : Terminal) : SharedSession :=
  ⟨⟨initHeap ⟨t.mem, vm, false⟩, []⟩, t⟩

/-- Behind `init_heap` the heap is fresh and the screen shows what was printed. -/
theorem SharedSession.Implements.initial (tracks : t.Tracks mem text) (vm : Paging)
    : (sharedStart vm t).Implements t.mem ⟨.initial, text⟩ where
  stores := .initial rfl
  tracks := tracks.redrawn (fun _ shown =>
    initHeap_outside (k := ⟨t.mem, vm, false⟩) rfl (mt outsideScreen_of_inHeap shown))
  elsewhere _ _ beyond := initHeap_outside (k := ⟨t.mem, vm, false⟩) rfl beyond

/-- In every order of heap calls and terminal calls, the pointers, the areas and the known
bytes are what the heap calls alone make of them, the screen shows what was printed, and no
byte outside the heap and the screen changes. A terminal call that finds its strings returns.
-/
theorem sharedTrace_implements (tracks : t.Tracks mem text) {vm : Paging}
    (format : FixedString t.mem literal [percent, letterS, 0x0A]) {calls : List SharedCall}
    (trace
      : (sharedMachine literal).Trace SharedReleases (sharedStart vm t) calls session)
    : let store := calls.foldl SharedStore.call ⟨.initial, text⟩
      heapAreas session.heap.kernel.mem = store.heap.areas
      ∧ (∀ x value, store.heap.known x = some value → session.heap.kernel.mem x = value)
      ∧ session.screen.Shows store.text
      ∧ session.screen.InBounds
      ∧ (∀ x, OutsideScreen x → ¬InHeap x → session.heap.kernel.mem x = t.mem x)
      ∧ (∀ call ptr k,
        heapMachine.enabled session.heap call
        → session.heap.reply call = some (ptr, k)
        → returned ptr = (AreaHeap.call store.heap.areas call).1)
      ∧ ∀ call printed,
          Prints session.heap.kernel.mem literal call printed
          → ∃ t', call.exec literal session.screen = some t' := by
  have initially := SharedSession.Implements.initial tracks vm
  have implements := trace.follows (R := fun session store => session.Implements t.mem store)
    (fun implements enabled safe executed => implements.step format enabled safe executed)
    initially
  have shown := implements.tracks
  obtain ⟨⟨⟨⟨areas, sound⟩, coalesced⟩, same⟩, holds⟩ := implements.stores
  refine ⟨same, fun x value known => (holds x value known).1, shown.window.shows shown.bounds,
    shown.bounds, implements.elsewhere, fun call ptr k enabled reply => ?_,
    fun call printed prints => ?_⟩
  · rw [← same]
    exact sound.reply_eq coalesced enabled reply
  · obtain ⟨t', drawn, _⟩ := prints.exec (implements.fixed format) shown
    exact ⟨t', drawn⟩

/-- Heap calls alone are a trace of both. -/
theorem sharedTrace_of_heap (t : Terminal) {calls : List HeapCall}
    (replayed : heapMachine.replay (Releases CoalesceSafe) calls s = some s')
    : (sharedMachine literal).Trace SharedReleases ⟨s, t⟩ (calls.map .heap) ⟨s', t⟩ := by
  have part {s s' : HeapSession} {call : HeapCall} (enabled : heapMachine.enabled s call)
      (safe : Releases CoalesceSafe s call) (executed : heapMachine.exec s call = some s')
      : (sharedMachine literal).enabled ⟨s, t⟩ (.heap call)
        ∧ SharedReleases ⟨s, t⟩ (.heap call)
        ∧ (sharedMachine literal).exec ⟨s, t⟩ (.heap call) = some ⟨s', t⟩ :=
    ⟨enabled, safe, Option.map_eq_some_iff.mpr ⟨s', executed, rfl⟩⟩
  exact Machine.Trace.of_replay (fun heap => SharedSession.mk heap t) SharedCall.heap part replayed

/-- A blank screen in front of the strings. -/
def greetingScreen : Terminal where
  row := 0
  column := 0
  color := vgaEntryColor .lightGrey .black
  buffer := vgaMemory
  mem := fun x => if (x - vgaMemory).toNat < 4000 then 0x20 else greetingMemory x
  written := []

/-- A blank screen tracks the empty text. -/
theorem greetingScreen_tracks : greetingScreen.Tracks greetingMemory .initial := by
  refine ⟨{
    buffer := rfl
    color := rfl
    row := rfl
    column := rfl
    narrow := by simp [Text.initial, Layout.empty]
    cells := fun y low x left => ?_
  }, ⟨by simp [greetingScreen, Terminal.Inside], by decide, by decide⟩, fun x off => ?_⟩
  · have index : (BitVec.ofNat 32 (80 * y + x)).toNat = 80 * y + x := by
      rw [BitVec.toNat_ofNat]
      omega
    have nothing : Text.initial.layout.textAt (Text.initial.layout.top 25 + y) x = none := by
      cases y with
      | zero => rfl
      | succ y => exact Layout.textAt_beyond (by simp [Text.initial, Layout.empty, Layout.top])
    rw [nothing, Terminal.entry]
    generalize BitVec.ofNat 32 (80 * y + x) = i at index
    have glyph : greetingScreen.mem (vgaMemory + 2 * i) = 0x20 := if_pos (by bv_omega)
    have color : greetingScreen.mem (vgaMemory + 2 * i + 1) = 0x20 := if_pos (by bv_omega)
    change entryGlyph (greetingScreen.mem (vgaMemory + 2 * i + 1)
      ++ greetingScreen.mem (vgaMemory + 2 * i)) = 0x20
    rw [glyph, color]
    rfl
  · exact if_neg (Nat.not_lt.mpr off)

/-- A string of two characters, stored in a block. -/
def stringCalls : List HeapCall :=
  [.kmalloc 3, .write 0xE0000008 0x48, .write 0xE0000009 0x69, .write 0xE000000A 0]

/-- The string is printed from its block. Witness: the bytes stored are still in it when
`puts` reads them.
-/
theorem sharedTrace_implements_greeting
    : ∃ session : SharedSession,
        (sharedMachine 0x1000).Trace SharedReleases
          (sharedStart bareKernel.paging greetingScreen)
          (stringCalls.map .heap ++ [.console (.puts 0xE0000008) [0x48, 0x69, 0x0A]]) session
        ∧ session.screen.Shows ([0x48, 0x69, 0x0A].foldl Text.putchar .initial) := by
  have format : FixedString greetingScreen.mem 0x1000 [percent, letterS, 0x0A] := by
    refine ⟨⟨greetingMemory_format.congr greetingScreen_tracks.agrees,
      greetingMemory_format.outside⟩, fun n le inHeap => ?_⟩
    rw [InHeap] at inHeap
    simp only [List.length_cons, List.length_nil] at le
    bv_omega
  have replayed
      : (heapMachine.replay (Releases CoalesceSafe) stringCalls
          (sharedStart bareKernel.paging greetingScreen).heap).map
          (fun s =>
            (s.kernel.mem 0xE0000008, s.kernel.mem 0xE0000009, s.kernel.mem 0xE000000A))
        = some (0x48, 0x69, 0) := by
    decide +kernel
  obtain ⟨s, reached, bytes⟩ := Option.map_eq_some_iff.mp replayed
  simp only [Prod.mk.injEq] at bytes
  obtain ⟨first, second, last⟩ := bytes
  have string : OffscreenString s.kernel.mem 0xE0000008 [0x48, 0x69] := by
    refine ⟨.cons first (by decide) (.cons second (by decide) (.nil last)), fun n le => ?_⟩
    refine outsideScreen_of_inHeap ?_
    rw [InHeap]
    simp only [List.length_cons, List.length_nil] at le
    bv_omega
  have stored
      : (sharedMachine 0x1000).Trace SharedReleases
          (sharedStart bareKernel.paging greetingScreen) (stringCalls.map .heap)
          ⟨s, greetingScreen⟩ :=
    sharedTrace_of_heap greetingScreen reached
  have prints : Prints s.kernel.mem 0x1000 (.puts 0xE0000008) [0x48, 0x69, 0x0A] :=
    .puts string (by decide)
  obtain ⟨t, drawn⟩ :=
    (sharedTrace_implements greetingScreen_tracks format stored).2.2.2.2.2.2 _ _ prints
  have line
      : (sharedMachine 0x1000).Trace SharedReleases ⟨s, greetingScreen⟩
          [.console (.puts 0xE0000008) [0x48, 0x69, 0x0A]]
          ⟨⟨{ s.kernel with mem := t.mem }, s.live⟩, t⟩ :=
    .cons prints trivial (Option.map_eq_some_iff.mpr ⟨t, drawn, rfl⟩) .nil
  have printed := stored.append line
  exact ⟨_, printed, (sharedTrace_implements greetingScreen_tracks format printed).2.2.1⟩

end SimpleKernel
