import SimpleKernel.Heap.Allocator
import SimpleKernel.Paging.Mapping

/-! The pages of the heap.
The mapping loops of the allocators ask `get_physaddr` which pages are missing. They map
these and keep the others, as long as frames are left.
-/

namespace SimpleKernel

open ByteMemory

variable {vm vm' vm'' : Paging} {va other : Addr} {flags : BitVec 16} {endPage : Addr}

/-- An address between `heap_start` and the recursive window. -/
def InHeap (va : Addr) : Prop :=
  0xE0000000 ≤ va.toNat ∧ va.toNat < 0xFFC00000

def Paging.Mapped (vm : Paging) (va : Addr) : Prop :=
  getPhysaddr vm va ≠ null

instance (vm : Paging) (va : Addr) : Decidable (vm.Mapped va) :=
  inferInstanceAs (Decidable (_ ≠ _))

/-- `get_physaddr` finds every address of the page of `va`. -/
def Paging.PageMapped (vm : Paging) (va : Addr) : Prop :=
  ∀ other : Addr, other.toNat / 4096 = va.toNat / 4096 → vm.Mapped other

/-- Sound tables that map no page of the heap to frame 0. -/
structure Paging.BacksHeap (vm : Paging) : Prop where
  sound : vm.Sound
  frames : ∀ va entry, InHeap va → vm.entry va = some entry → frameOf entry ≠ 0

/-- Pages of the heap stay mapped. -/
structure Paging.Grows (vm vm' : Paging) : Prop where
  backs : vm'.BacksHeap
  kept : ∀ va, InHeap va → vm.Mapped va → vm'.Mapped va

/-- A heap page is mapped, for `get_physaddr`, if it has an entry: no entry names frame 0. -/
theorem Paging.BacksHeap.mapped_iff (backs : vm.BacksHeap) (inside : InHeap va)
    : vm.Mapped va ↔ ∃ entry, vm.entry va = some entry := by
  constructor
  · intro mapped
    rw [Paging.Mapped, getPhysaddr_eq backs.sound.recursive] at mapped
    cases found : vm.entry va with
    | none => exact absurd (by rw [found]) mapped
    | some entry => exact ⟨entry, rfl⟩
  · rintro ⟨entry, found⟩
    exact getPhysaddr_ne_null backs.sound.recursive found (backs.frames va entry inside found)

/-- The addresses of a page are mapped alike. -/
theorem Paging.BacksHeap.samePage (backs : vm.BacksHeap) (inside : InHeap va)
    (same : other.toNat / 4096 = va.toNat / 4096) (mapped : vm.Mapped va)
    : vm.Mapped other := by
  have insideOther : InHeap other := by
    simp only [InHeap] at inside ⊢
    omega
  rw [backs.mapped_iff insideOther, vm.entry_congr same]
  exact (backs.mapped_iff inside).mp mapped

/-- Nothing is lost where nothing changes. -/
theorem Paging.BacksHeap.refl (backs : vm.BacksHeap) : vm.Grows vm :=
  ⟨backs, fun _ _ mapped => mapped⟩

theorem Paging.Grows.trans (first : vm.Grows vm') (second : vm'.Grows vm'')
    : vm.Grows vm'' :=
  ⟨second.backs, fun va inside mapped => second.kept va inside (first.kept va inside mapped)⟩

/-- Tables that keep their entries and add pages from free frames still back the heap. -/
theorem Paging.BacksHeap.extends (backs : vm.BacksHeap) (extended : vm.Extends vm')
    : vm.Grows vm' := by
  have backs' : vm'.BacksHeap := by
    refine ⟨extended.sound, fun va entry inside found => ?_⟩
    rcases extended.fresh va entry inside.2 found with earlier | fresh
    · exact backs.frames va entry inside earlier
    · exact fresh
  refine ⟨backs', fun va inside mapped => ?_⟩
  obtain ⟨entry, found⟩ := (backs.mapped_iff inside).mp mapped
  exact (backs'.mapped_iff inside).mpr ⟨entry, extended.kept va entry inside.2 found⟩

/-- A heap page that is mapped to a fresh frame is backed, as long as frames are left behind
it.
-/
theorem Paging.BacksHeap.mapFreshPage (backs : vm.BacksHeap) (aligned : va.toNat % 4096 = 0)
    (inside : InHeap va) (flags : BitVec 16)
    (left : (SimpleKernel.mapFreshPage vm va flags).pmm.HasFree)
    : vm.Grows (SimpleKernel.mapFreshPage vm va flags)
      ∧ (SimpleKernel.mapFreshPage vm va flags).Mapped va := by
  obtain ⟨extended, found⟩ := backs.sound.mapFreshPage aligned inside.2 flags left
  have grows := backs.extends extended
  exact ⟨grows, (grows.backs.mapped_iff inside).mpr found⟩

/-- By induction on the rounds, each of which draws frames for at most one page. -/
theorem mapMissingPages_draws {rounds : Nat} {p : Addr} (ready : vm.pmm.Ready)
    (mapped : mapMissingPages flags endPage rounds p vm = some vm')
    : vm.pmm.Draws vm'.pmm := by
  induction rounds generalizing p vm with
  | zero => simp [mapMissingPages] at mapped
  | succ rounds ih =>
      rw [mapMissingPages] at mapped
      split at mapped
      · split at mapped
        · have draws := mapFreshPage_draws vm p flags ready
          exact draws.trans (ih draws.ready mapped)
        · exact ih ready mapped
      · rw [← Option.some.inj mapped]
        exact ready.refl

/-- The loop leaves every page from `p` to `endPage` mapped. By induction on the rounds:
each maps one page, and the later ones keep it.
-/
theorem mapMissingPages_grows {rounds : Nat} {p : Addr} (below : endPage.toNat < 0xFFC00000)
    (aligned : p.toNat % 4096 = 0) (low : 0xE0000000 ≤ p.toNat) (backs : vm.BacksHeap)
    (mapped : mapMissingPages flags endPage rounds p vm = some vm')
    (left : vm'.pmm.HasFree)
    : vm.Grows vm'
      ∧ ∀ va : Addr,
          p.toNat ≤ va.toNat → va.toNat / 4096 * 4096 ≤ endPage.toNat → vm'.Mapped va := by
  induction rounds generalizing p vm with
  | zero => simp [mapMissingPages] at mapped
  | succ rounds ih =>
      rw [mapMissingPages] at mapped
      split at mapped
      · next inside =>
        have small : p.toNat ≤ endPage.toNat := inside
        have next : (p + pageSize).toNat = p.toNat + 4096 := by bv_omega
        have insideHeap : InHeap p := ⟨low, by omega⟩
        obtain ⟨mid, grows, here, rest⟩ : ∃ mid : Paging,
            vm.Grows mid
            ∧ mid.Mapped p
            ∧ mapMissingPages flags endPage rounds (p + pageSize) mid = some vm' := by
          split at mapped
          · next missing =>
            have draws := mapFreshPage_draws vm p flags backs.sound.ready
            have fresh := backs.mapFreshPage aligned insideHeap flags
              ((mapMissingPages_draws draws.ready mapped).hasFree left)
            exact ⟨_, fresh.1, fresh.2, mapped⟩
          · next present => exact ⟨vm, backs.refl, present, mapped⟩
        obtain ⟨later, reached⟩ := ih (by omega) (by omega) grows.backs rest
        refine ⟨grows.trans later, fun va start stop => ?_⟩
        by_cases page : va.toNat < p.toNat + 4096
        · exact later.backs.samePage insideHeap (by omega) (later.kept p insideHeap here)
        · exact reached va (by omega) stop
      · next past =>
        obtain rfl := Option.some.inj mapped
        have large : ¬p.toNat ≤ endPage.toNat := past
        exact ⟨backs.refl, fun va start stop => by omega⟩

end SimpleKernel
