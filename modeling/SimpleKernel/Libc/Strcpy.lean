import SimpleKernel.Libc.Strings

/-! `strcpy`, which copies upwards and looks for the end while it copies.
A copy that starts behind the first character of the string, and not behind its end, writes
over the terminator before the search gets there, and never ends. The `restrict` of `dest`
leaves it to the callers that this does not happen.
-/

namespace SimpleKernel

open ByteMemory

/-- The loop of `strcpy` from index `i` on. -/
def strcpyFrom (dest src : Addr) : Nat → Word → Memory → Option Memory
  | 0, _, _ => none
  | rounds + 1, i, m =>
      if m (src + i) ≠ 0 then
        strcpyFrom dest src rounds (i + 1) (m.store8 (dest + i) (m (src + i)))
      else some (m.store8 (dest + i) 0)

def strcpy (m : Memory) (dest src : Addr) : Option Memory :=
  strcpyFrom dest src stringRounds 0 m

/-- The copy starts inside the string, or at its terminator. -/
def CatchesUp (dest src : Addr) (length : Nat) : Prop :=
  0 < (dest - src).toNat ∧ (dest - src).toNat ≤ length

variable {m : Memory} {dest src : Addr} {chars : List Byte}

/-- Otherwise the loop copies what is left at once, by induction on it. -/
theorem strcpyFrom_eq_copy {i : Word} (string : CString m (src + i) chars) (rounds : Nat)
    (enough : chars.length < rounds) (behind : (src - dest).toNat + chars.length + 1 ≤ 2 ^ 32)
    : strcpyFrom dest src rounds i m
      = some (m.copy (dest + i) (src + i) (chars.length + 1)) := by
  induction chars generalizing i m rounds with
  | nil =>
      obtain ⟨rounds, rfl⟩ := Nat.exists_eq_succ_of_ne_zero (Nat.ne_zero_of_lt enough)
      have apart : src + i - (dest + i) = src - dest := by bv_omega
      have one
          : (m.store8 (dest + i) (m (src + i))).copy (dest + i + 1) (src + i + 1) 0
            = m.copy (dest + i) (src + i) 1 :=
        m.copy_first (by rw [apart]; simpa using behind)
      cases string with
      | nil terminator =>
          rw [Memory.copy_zero, terminator] at one
          rw [strcpyFrom, if_neg (by simp [terminator]), one]
          rfl
  | cons char tail ih =>
      obtain ⟨rounds, rfl⟩ := Nat.exists_eq_succ_of_ne_zero (Nat.ne_zero_of_lt enough)
      have apart : src + i - (dest + i) = src - dest := by bv_omega
      rw [List.length_cons] at behind enough
      cases string with
      | cons here text later =>
          -- the store is at none of the characters that are left
          have rest : CString (m.store8 (dest + i) (m (src + i))) (src + (i + 1)) tail := by
            rw [← BitVec.add_assoc]
            refine later.congr (fun n le => m.store8_of_ne _ ?_)
            bv_omega
          have whole
              : (m.store8 (dest + i) (m (src + i))).copy (dest + i + 1) (src + i + 1)
                  (tail.length + 1)
                = m.copy (dest + i) (src + i) (tail.length + 1 + 1) :=
            m.copy_first (by rw [apart]; omega)
          rw [BitVec.add_assoc dest, BitVec.add_assoc src] at whole
          rw [strcpyFrom, if_pos (by rwa [here]), ih rest rounds (by omega) (by omega), whole]
          rfl

/-- A copy that catches up reads only what it wrote, which is never NUL. By induction on the
rounds: the bytes that have been read or written, and the gap between, are not NUL.
-/
theorem strcpyFrom_diverges (rounds i : Nat)
    (written : ∀ x : Addr, (x - src).toNat < i + (dest - src).toNat → m x ≠ 0)
    (gap : 0 < (dest - src).toNat)
    : strcpyFrom dest src rounds (BitVec.ofNat 32 i) m = none := by
  induction rounds generalizing i m with
  | zero => rfl
  | succ rounds ih =>
      have here : m (src + BitVec.ofNat 32 i) ≠ 0 := by
        apply written
        rw [add_sub_cancel_left, BitVec.toNat_ofNat]
        have small := Nat.mod_le i (2 ^ 32)
        omega
      have next : BitVec.ofNat 32 i + 1 = BitVec.ofNat 32 (i + 1) := (BitVec.ofNat_add i 1).symm
      rw [strcpyFrom, if_pos here, next]
      refine ih (i + 1) (fun x near => ?_)
      by_cases same : x = dest + BitVec.ofNat 32 i
      · rw [same, Memory.store8_same]
        exact here
      · rw [m.store8_of_ne _ same]
        apply written
        by_contra far
        refine same (BitVec.eq_of_toNat_eq ?_)
        bv_omega

/-- A string does not differ from itself. -/
theorem firstDifference_self (chars : List Byte) : firstDifference chars chars = none := by
  induction chars with
  | nil => rfl
  | cons char rest ih => rw [firstDifference, if_pos rfl, ih]

/-- `strcpy` copies the string, and writes nothing else, exactly if the copy does not catch up
with it. Otherwise it never ends.
-/
theorem strcpy_exact (string : CString m src chars) (dest : Addr)
    : (CatchesUp dest src chars.length → ∀ rounds, strcpyFrom dest src rounds 0 m = none)
      ∧ (¬CatchesUp dest src chars.length
        → ∃ m',
            strcpy m dest src = some m'
            ∧ CString m' dest chars
            ∧ (∀ x : Addr, chars.length < (x - dest).toNat → m' x = m x)
            ∧ (chars.length < (src - dest).toNat → strcmp m' dest src = some 0)) := by
  have length := string.length_lt
  constructor
  · rintro ⟨gap, inside⟩ rounds
    refine strcpyFrom_diverges rounds 0 (fun x near => ?_) gap
    have text := string.text (i := (x - src).toNat) (by omega)
    rwa [BitVec.ofNat_toNat, BitVec.setWidth_eq, BitVec.add_comm, BitVec.sub_add_cancel] at text
  · intro apart
    have behind : (src - dest).toNat + chars.length + 1 ≤ 2 ^ 32 := by
      rw [CatchesUp] at apart
      bv_omega
    have start : CString m (src + 0) chars := by simpa using string
    have copied := strcpyFrom_eq_copy start stringRounds length behind
    rw [BitVec.ofNat_eq_ofNat, BitVec.add_zero, BitVec.add_zero] at copied
    have copy : CString (m.copy dest src (chars.length + 1)) dest chars := by
      refine string.congr (fun n le => ?_)
      have index : (dest + BitVec.ofNat 32 n - dest).toNat = n := by bv_omega
      rw [m.copy_of_inside (by omega), add_sub_cancel_left]
    refine ⟨_, copied, copy, fun x outside => m.copy_of_outside outside, fun separate => ?_⟩
    have kept : CString (m.copy dest src (chars.length + 1)) src chars :=
      string.congr (fun n le => m.copy_of_outside (by bv_omega))
    rw [copy.strcmp_eq kept, firstDifference_self]

/-- The string `"ab"`. -/
def abMemory : Memory
  | 0x1000 => 0x61
  | 0x1001 => 0x62
  | _ => 0

/-- A copy returns unless it writes into the string it still has to read. Witness: a copy of
`ab` behind the string compares equal, and one over its second character never ends.
-/
theorem strcpy_exact_ab
    : (∃ m', strcpy abMemory 0x1003 0x1000 = some m' ∧ strcmp m' 0x1003 0x1000 = some 0)
      ∧ ∀ rounds, strcpyFrom 0x1001 0x1000 rounds 0 abMemory = none := by
  have string : CString abMemory 0x1000 [0x61, 0x62] :=
    .cons rfl (by decide) (.cons rfl (by decide) (.nil rfl))
  obtain ⟨m', copied, _, _, equal⟩ :=
    (strcpy_exact string 0x1003).2 (fun catches => absurd catches.2 (by decide))
  exact ⟨⟨m', copied, equal (by decide)⟩, (strcpy_exact string 0x1001).1 ⟨by decide, by decide⟩⟩

end SimpleKernel
