import Mathlib

/-! Ascending segments of a linked structure.
`Segment size pos next a l b` follows `next` from `a` through exactly the nodes of `l` and
stops at `b`; each node occupies `size` units at its position, and the next node lies
beyond it. The lemmas read only the links of the listed nodes, so a segment moves to any
other link function that agrees on them.
-/

namespace Segments

variable {α : Type*} {size : Nat} {pos : α → Nat} {next next' : α → α}

def Segment (size : Nat) (pos : α → Nat) (next : α → α) : α → List α → α → Prop
  | a, [], b => a = b
  | a, x :: rest, b =>
      x = a ∧ pos a + size ≤ pos (next a) ∧ Segment size pos next (next a) rest b

@[simp] theorem segment_nil {a b : α} : Segment size pos next a [] b ↔ a = b := Iff.rfl

theorem segment_cons {a x b : α} {rest : List α}
    : Segment size pos next a (x :: rest) b
      ↔ x = a ∧ pos a + size ≤ pos (next a) ∧ Segment size pos next (next a) rest b :=
  Iff.rfl

/-- Segments compose at a common end, by induction on the first list. -/
theorem segment_append {a c : α} {l₁ l₂ : List α}
    : Segment size pos next a (l₁ ++ l₂) c
      ↔ ∃ b, Segment size pos next a l₁ b ∧ Segment size pos next b l₂ c := by
  induction l₁ generalizing a with
  | nil => simp
  | cons x rest ih =>
      simp only [List.cons_append, segment_cons, ih]
      constructor
      · rintro ⟨same, ahead, b, left, right⟩
        exact ⟨b, ⟨same, ahead, left⟩, right⟩
      · rintro ⟨b, ⟨same, ahead, left⟩, right⟩
        exact ⟨same, ahead, b, left, right⟩

/-- A node in the middle splits its segment in two around itself. -/
theorem segment_middle {a x c : α} {l₁ l₂ : List α}
    : Segment size pos next a (l₁ ++ x :: l₂) c
      ↔ Segment size pos next a l₁ x
        ∧ pos x + size ≤ pos (next x)
        ∧ Segment size pos next (next x) l₂ c := by
  rw [segment_append]
  constructor
  · rintro ⟨b, left, rfl, ahead, right⟩
    exact ⟨left, ahead, right⟩
  · rintro ⟨left, ahead, right⟩
    exact ⟨x, left, rfl, ahead, right⟩

theorem Segment.head {a b x : α} {rest : List α}
    (h : Segment size pos next a (x :: rest) b)
    : x = a :=
  h.1

/-- Only the links of the listed nodes matter. -/
theorem Segment.congr {a b : α} {l : List α} (h : Segment size pos next a l b)
    (same : ∀ x ∈ l, next' x = next x)
    : Segment size pos next' a l b := by
  induction l generalizing a with
  | nil => exact h
  | cons x rest ih =>
      obtain ⟨rfl, ahead, tail⟩ := h
      have link := same x (by simp)
      refine ⟨rfl, by rwa [link], ?_⟩
      rw [link]
      exact ih tail (fun y member => same y (by simp [member]))

-----------------------------------------------------------------------------------------
-- Positions ascend
-----------------------------------------------------------------------------------------

/-- A segment goes upwards. -/
theorem Segment.le {a b : α} {l : List α} (h : Segment size pos next a l b)
    : pos a ≤ pos b := by
  induction l generalizing a with
  | nil => exact (congrArg pos h).le
  | cons x rest ih =>
      obtain ⟨_, ahead, tail⟩ := h
      have later := ih tail
      omega

/-- A listed node and its successor both lie within the segment. -/
theorem Segment.bounds {a b x : α} {l : List α} (h : Segment size pos next a l b)
    (member : x ∈ l)
    : pos a ≤ pos x ∧ pos x + size ≤ pos (next x) ∧ pos (next x) ≤ pos b := by
  obtain ⟨l₁, l₂, rfl⟩ := List.append_of_mem member
  obtain ⟨left, ahead, right⟩ := segment_middle.mp h
  exact ⟨left.le, ahead, right.le⟩

/-- Each element ends before the next one starts, by induction on the segment. -/
theorem Segment.pairwise {a b : α} {l : List α} (h : Segment size pos next a l b)
    : l.Pairwise (fun x y => pos (next x) ≤ pos y) := by
  induction l generalizing a with
  | nil => exact List.Pairwise.nil
  | cons x rest ih =>
      obtain ⟨rfl, _, tail⟩ := h
      exact List.Pairwise.cons (fun y member => (tail.bounds member).1) (ih tail)

/-- Of two different listed nodes one ends before the other starts. -/
theorem Segment.apart {a b x y : α} {l : List α} (h : Segment size pos next a l b)
    (left : x ∈ l) (right : y ∈ l) (ne : x ≠ y)
    : pos (next x) ≤ pos y ∨ pos (next y) ≤ pos x := by
  induction l generalizing a with
  | nil => simp at left
  | cons z rest ih =>
      obtain ⟨rfl, _, tail⟩ := h
      rcases List.mem_cons.mp left with rfl | leftLater
      · rcases List.mem_cons.mp right with rfl | rightLater
        · exact absurd rfl ne
        · exact Or.inl (tail.bounds rightLater).1
      · rcases List.mem_cons.mp right with rfl | rightLater
        · exact Or.inr (tail.bounds leftLater).1
        · exact ih tail leftLater rightLater

/-- It has no more elements than fit, which bounds every walk over it. -/
theorem Segment.length_le {a b : α} {l : List α} (h : Segment size pos next a l b)
    : l.length * size + pos a ≤ pos b := by
  induction l generalizing a with
  | nil => simpa using (congrArg pos h).le
  | cons x rest ih =>
      obtain ⟨_, ahead, tail⟩ := h
      have later := ih tail
      simp only [List.length_cons, Nat.succ_mul]
      omega

/-- Every listed node but the first is the successor of a listed one. -/
theorem Segment.predecessor {a b x : α} {l : List α} (h : Segment size pos next a l b)
    (member : x ∈ l)
    : x = a ∨ ∃ y ∈ l, next y = x := by
  induction l generalizing a with
  | nil => simp at member
  | cons y rest ih =>
      obtain ⟨rfl, _, tail⟩ := h
      rcases List.mem_cons.mp member with rfl | later
      · exact Or.inl rfl
      · rcases ih tail later with rfl | ⟨z, inside, link⟩
        · exact Or.inr ⟨y, by simp, rfl⟩
        · exact Or.inr ⟨z, by simp [inside], link⟩

/-- Two segments from one node pass through the same nodes until one of them ends. -/
theorem Segment.passes {a b x : α} {l l' : List α} (h : Segment size pos next a l x)
    (h' : Segment size pos next a l' b) (open' : b ∉ l)
    : x ∈ l' ∨ x = b := by
  induction l generalizing a l' with
  | nil =>
      obtain rfl : a = x := h
      cases l' with
      | nil => exact Or.inr h'
      | cons y rest => exact Or.inl (by simp [h'.head])
  | cons y rest ih =>
      obtain ⟨rfl, _, tail⟩ := h
      cases l' with
      | nil =>
          obtain rfl : y = b := h'
          simp at open'
      | cons z rest' =>
          obtain ⟨rfl, _, tail'⟩ := h'
          have later := ih tail tail' (fun inside => open' (by simp [inside]))
          exact later.imp_left (fun inside => by simp [inside])

/-- A later node or the end splits what follows a node. -/
theorem Segment.reach {a b t : α} {l : List α} (h : Segment size pos next a l b)
    (later : t ∈ l ∨ t = b)
    : ∃ skipped rest,
        l = skipped ++ rest
        ∧ Segment size pos next a skipped t
        ∧ Segment size pos next t rest b := by
  rcases later with member | rfl
  · obtain ⟨l₁, l₂, rfl⟩ := List.append_of_mem member
    obtain ⟨left, ahead, right⟩ := segment_middle.mp h
    exact ⟨l₁, t :: l₂, rfl, left, rfl, ahead, right⟩
  · exact ⟨l, [], by simp, h, rfl⟩

/-- A node linked to a later one leaves out what lies between. -/
theorem Segment.bypass {a b n t : α} {l₁ skipped rest : List α}
    (left : Segment size pos next a l₁ n) (ahead : pos n + size ≤ pos (next n))
    (middle : Segment size pos next (next n) skipped t) (tail : Segment size pos next t rest b)
    (link : next' n = t) (others : ∀ x, x ∈ l₁ ∨ x ∈ rest → next' x = next x)
    : Segment size pos next' a (l₁ ++ n :: rest) b := by
  have gap := middle.le
  refine segment_middle.mpr ⟨?_, ?_, ?_⟩
  · exact left.congr (fun x member => others x (Or.inl member))
  · rw [link]
    omega
  · rw [link]
    exact tail.congr (fun x member => others x (Or.inr member))

variable (positive : 0 < size)
include positive

/-- No node is listed twice, since positions strictly ascend. -/
theorem Segment.nodup {a b : α} {l : List α} (h : Segment size pos next a l b)
    : l.Nodup := by
  induction l generalizing a with
  | nil => exact List.nodup_nil
  | cons x rest ih =>
      obtain ⟨rfl, ahead, tail⟩ := h
      refine List.nodup_cons.mpr ⟨fun member => ?_, ih tail⟩
      have later := (tail.bounds member).1
      omega

/-- It does not contain its end. -/
theorem Segment.end_not_mem {a b : α} {l : List α} (h : Segment size pos next a l b)
    : b ∉ l := by
  intro member
  obtain ⟨_, ahead, within⟩ := h.bounds member
  omega

/-- The nodes before and behind a node are other nodes. -/
theorem Segment.ne_middle {a b x y : α} {l₁ l₂ : List α}
    (h : Segment size pos next a (l₁ ++ x :: l₂) b) (member : y ∈ l₁ ∨ y ∈ l₂)
    : y ≠ x := by
  have unique := h.nodup positive
  rintro rfl
  rcases member with early | late
  · exact List.disjoint_of_nodup_append unique early (by simp)
  · exact (List.nodup_cons.mp (List.nodup_append.mp unique).2.1).1 late

/-- A relation of the listed neighbours is one of the listed nodes and their successors. -/
theorem Segment.isChain_iff {R : α → α → Prop} {a b : α} {l : List α}
    (h : Segment size pos next a l b)
    : l.IsChain R ↔ ∀ x ∈ l, next x ∈ l → R x (next x) := by
  induction l generalizing a with
  | nil => simp
  | cons x rest ih =>
      have later := h
      obtain ⟨rfl, ahead, tail⟩ := h
      cases rest with
      | nil =>
          obtain rfl : next x = b := tail
          have apart : next x ≠ x := fun same => by
            rw [same] at ahead
            omega
          simp [apart]
      | cons y rest =>
          have head := tail.head
          subst head
          rw [List.isChain_cons_cons, ih tail]
          constructor
          · rintro ⟨first, others⟩ z member inside
            rcases List.mem_cons.mp member with rfl | member
            · exact first
            · refine others z member ((List.mem_cons.mp inside).resolve_left ?_)
              intro back
              have bounds := tail.bounds member
              rw [back] at bounds
              omega
          · intro related
            refine ⟨related x (by simp) (by simp), fun z member inside => ?_⟩
            exact related z (List.mem_cons_of_mem x member) (List.mem_cons_of_mem x inside)

/-- Following the links from one node towards one end visits one list. -/
theorem Segment.unique {a b : α} {l l' : List α} (h : Segment size pos next a l b)
    (h' : Segment size pos next a l' b)
    : l = l' := by
  induction l generalizing a l' with
  | nil =>
      cases l' with
      | nil => rfl
      | cons x rest =>
          obtain rfl : a = b := h
          obtain rfl := h'.head
          exact absurd (by simp) (h'.end_not_mem positive)
  | cons x rest ih =>
      obtain ⟨rfl, ahead, tail⟩ := h
      cases l' with
      | nil =>
          obtain rfl : x = b := h'
          have later := tail.le
          omega
      | cons y rest' =>
          obtain ⟨rfl, _, tail'⟩ := h'
          rw [ih tail tail']

/-- When the link of one node is moved ahead, the nodes it skips leave the segment and the
others stay.
-/
theorem Segment.skip {a b n t : α} {l : List α} (h : Segment size pos next a l b)
    (node : n ∈ l) (later : t ∈ l ∨ t = b) (ahead : pos n < pos t) (link : next' n = t)
    (others : ∀ x ∈ l, x ≠ n → next' x = next x)
    : ∃ l',
        Segment size pos next' a l' b
        ∧ ∀ x, x ∈ l' ↔ x ∈ l ∧ (pos x ≤ pos n ∨ pos t ≤ pos x) := by
  obtain ⟨l₁, l₂, rfl⟩ := List.append_of_mem node
  have ne {x} (member : x ∈ l₁ ∨ x ∈ l₂) : x ≠ n := h.ne_middle positive member
  obtain ⟨left, room, right⟩ := segment_middle.mp h
  have behind : t ∈ l₂ ∨ t = b := by
    rcases later with member | sentinel
    · rcases List.mem_append.mp member with early | late
      · have before := left.bounds early
        omega
      · rcases List.mem_cons.mp late with rfl | late
        · omega
        · exact Or.inl late
    · exact Or.inr sentinel
  obtain ⟨skipped, rest, rfl, middle, tail⟩ := right.reach behind
  have kept (x) (member : x ∈ l₁ ∨ x ∈ rest) : next' x = next x := by
    rcases member with early | late
    · exact others x (by simp [early]) (ne (Or.inl early))
    · exact others x (by simp [late]) (ne (Or.inr (by simp [late])))
  refine ⟨l₁ ++ n :: rest, left.bypass room middle tail link kept, ?_⟩
  · intro x
    simp only [List.mem_append, List.mem_cons]
    constructor
    · rintro (early | rfl | late)
      · have before := left.bounds early
        exact ⟨Or.inl early, Or.inl (by omega)⟩
      · exact ⟨Or.inr (Or.inl rfl), Or.inl le_rfl⟩
      · exact ⟨Or.inr (Or.inr (Or.inr late)), Or.inr (tail.bounds late).1⟩
    · rintro ⟨early | rfl | between | late, position⟩
      · exact Or.inl early
      · exact Or.inr (Or.inl rfl)
      · have inside := middle.bounds between
        omega
      · exact Or.inr (Or.inr late)

end Segments
