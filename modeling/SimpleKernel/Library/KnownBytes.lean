import SimpleKernel.Library.ByteMemory

/-! What is known of a memory.
A partial memory holds the bytes whose values are certain. Its operations are those of
memories, and one by which bytes are no longer known. The rules say what a memory must have
done for the known bytes to stay in it, inside a region that may change with every step.
-/

namespace ByteMemory

abbrev Known := Addr → Option Byte

def Known.store (known : Known) (a : Addr) (value : Byte) : Known :=
  fun x => if x = a then some value else known x

def Known.fill (known : Known) (a : Addr) (value : Byte) (count : Nat) : Known :=
  fun x => if (x - a).toNat < count then some value else known x

def Known.forget (known : Known) (a : Addr) (count : Nat) : Known :=
  fun x => if (x - a).toNat < count then none else known x

def Known.copy (known : Known) (dest src : Addr) (count : Nat) : Known :=
  fun x => if (x - dest).toNat < count then known (src + (x - dest)) else known x

/-- The memory holds every known byte, and they all lie inside the region. -/
def Memory.Holds (m : Memory) (inside : Addr → Prop) (known : Known) : Prop :=
  ∀ x value, known x = some value → m x = value ∧ inside x

variable {m m' : Memory} {inside inside' : Addr → Prop} {known : Known} {a dest src : Addr}
  {value : Byte} {count : Nat}

/-- Nothing has to hold where nothing is known. -/
theorem Memory.Holds.nothing : m.Holds inside (fun _ => none) :=
  fun _ _ found => nomatch found

section Rules

variable (holds : m.Holds inside known)
include holds

/-- What keeps the bytes of the region keeps the known ones. -/
theorem Memory.Holds.kept (kept : ∀ x, inside x → m' x = m x ∧ inside' x)
    : m'.Holds inside' known := by
  intro x value found
  obtain ⟨same, here⟩ := holds x value found
  obtain ⟨unchanged, there⟩ := kept x here
  exact ⟨unchanged.trans same, there⟩

/-- A byte that is stored is known. -/
theorem Memory.Holds.store (here : inside a)
    : (m.store8 a value).Holds inside (known.store a value) := by
  intro x byte found
  rw [Known.store] at found
  split at found
  · next same =>
    obtain rfl := Option.some.inj found
    rw [same]
    exact ⟨m.store8_same a value, here⟩
  · next ne =>
    rw [m.store8_of_ne value ne]
    exact holds x byte found

/-- So is a block that is filled, if the bytes known before stay. -/
theorem Memory.Holds.fill (filled : ∀ x, (x - a).toNat < count → m' x = value ∧ inside' x)
    (kept : ∀ x, inside x → m' x = m x ∧ inside' x)
    : m'.Holds inside' (known.fill a value count) := by
  intro x byte found
  rw [Known.fill] at found
  split at found
  · next near =>
    obtain rfl := Option.some.inj found
    exact filled x near
  · exact holds.kept kept x byte found

/-- Only the bytes that stay known need to stay. -/
theorem Memory.Holds.forget
    (kept : ∀ x, inside x → count ≤ (x - a).toNat → m' x = m x ∧ inside' x)
    : m'.Holds inside' (known.forget a count) := by
  intro x byte found
  rw [Known.forget] at found
  split at found
  · cases found
  · next far =>
    obtain ⟨same, here⟩ := holds x byte found
    obtain ⟨unchanged, there⟩ := kept x here (Nat.not_lt.mp far)
    exact ⟨unchanged.trans same, there⟩

/-- What is known of the source is known of the destination. -/
theorem Memory.Holds.copy
    (copied : ∀ x, (x - dest).toNat < count → m' x = m (src + (x - dest)) ∧ inside' x)
    (kept : ∀ x, inside x → m' x = m x ∧ inside' x)
    : m'.Holds inside' (known.copy dest src count) := by
  intro x byte found
  rw [Known.copy] at found
  split at found
  · next near =>
    obtain ⟨same, there⟩ := copied x near
    exact ⟨same.trans (holds _ byte found).1, there⟩
  · exact holds.kept kept x byte found

end Rules

end ByteMemory
