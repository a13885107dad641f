import SimpleKernel.Library.AreaLists

/-! Merging of adjacent free areas.
Every maximal group of adjacent free areas becomes one area, whose payload takes in the
headers between them. Areas released one after the other, with a merge after each, end as
they do when all are released first and merged once.
-/

namespace AreaLists

variable {header : Nat} {area next : Area} {areas before after : List Area}
  {address first second : Nat}

/-- The area that two adjacent ones become. -/
def Area.absorb (header : Nat) (area next : Area) : Area :=
  { area with payload := area.payload + header + next.payload }

/-- An area put before a list, merged with the head of the list if both are free. -/
def join (header : Nat) (area : Area) : List Area → List Area
  | [] => [area]
  | next :: rest =>
      if area.used = false ∧ next.used = false then area.absorb header next :: rest
      else area :: next :: rest

def coalesce (header : Nat) : List Area → List Area
  | [] => []
  | area :: rest => join header area (coalesce header rest)

/-- Of two neighbours one is used. -/
def Apart (areas : List Area) : Prop :=
  areas.IsChain (fun area next => area.used = true ∨ next.used = true)

def Area.release (address : Nat) (area : Area) : Area :=
  if area.address = address then { area with used := false } else area

/-- The areas at an address set free. -/
def releaseAt (address : Nat) (areas : List Area) : List Area :=
  areas.map (Area.release address)

@[simp] theorem Area.release_address : (area.release address).address = area.address := by
  rw [release]
  split <;> rfl

/-- A release marks the area at its address and no other. -/
theorem Area.release_of_ne (ne : area.address ≠ address) : area.release address = area :=
  if_neg ne

/-- Three free areas become one, whichever two merge first. -/
theorem join_join (free : area.used = false) (freeNext : next.used = false)
    : join header area (join header next areas)
      = join header (area.absorb header next) areas := by
  cases areas with
  | nil => simp [join, free, freeNext]
  | cons other rest =>
      cases used : other.used with
      | true => simp [join, free, freeNext, used]
      | false => simp [join, free, freeNext, used, Area.absorb, Nat.add_assoc]

/-- Merging two neighbours beforehand makes no difference. -/
theorem coalesce_absorb (free : area.used = false) (freeNext : next.used = false)
    : coalesce header (before ++ area.absorb header next :: after)
      = coalesce header (before ++ area :: next :: after) := by
  induction before with
  | nil => exact (join_join free freeNext).symm
  | cons other rest ih =>
      simp only [List.cons_append, coalesce]
      rw [ih]

/-- The same for a whole group, by induction on it. -/
theorem coalesce_absorbAll {group : List Area} (free : area.used = false)
    (freeGroup : ∀ other ∈ group, other.used = false)
    : coalesce header (before ++ group.foldl (Area.absorb header) area :: after)
      = coalesce header (before ++ area :: (group ++ after)) := by
  induction group generalizing area with
  | nil => rfl
  | cons next rest ih =>
      have freeMerged : (area.absorb header next).used = false := free
      have later := ih freeMerged (fun other member => freeGroup other (by simp [member]))
      exact later.trans (coalesce_absorb free (freeGroup next (by simp)))

/-- Nothing is joined where no two free areas are neighbours, by induction on the list. -/
theorem join_apart (apart : Apart areas) : Apart (join header area areas) := by
  cases areas with
  | nil => exact List.IsChain.singleton area
  | cons next rest =>
      rw [join]
      split
      · next both =>
        cases rest with
        | nil => exact List.IsChain.singleton _
        | cons other rest =>
            obtain ⟨pair, tail⟩ := List.isChain_cons_cons.mp apart
            have used := pair.resolve_left (by simp [both.2])
            exact List.isChain_cons_cons.mpr ⟨Or.inr used, tail⟩
      · next notBoth =>
        refine List.isChain_cons_cons.mpr ⟨?_, apart⟩
        by_contra neither
        exact notBoth (by simpa using neither)

/-- No two neighbours of a merged list are both free, so every group has been merged. -/
theorem coalesce_apart : Apart (coalesce header areas) := by
  induction areas with
  | nil => exact List.IsChain.nil
  | cons area rest ih => exact join_apart ih

/-- Such a list is coalesced already. -/
theorem coalesce_eq_self (apart : Apart areas) : coalesce header areas = areas := by
  induction areas with
  | nil => rfl
  | cons area rest ih =>
      rw [coalesce, ih (List.IsChain.of_cons apart)]
      cases rest with
      | nil => rfl
      | cons next rest =>
          have pair := (List.isChain_cons_cons.mp apart).1
          rw [join, if_neg]
          rintro ⟨free, freeNext⟩
          simp [free, freeNext] at pair

/-- Merging invents no area: each is where one was before, and as free as it. -/
theorem mem_coalesce (member : area ∈ coalesce header areas)
    : ∃ source ∈ areas, source.address = area.address ∧ source.used = area.used := by
  induction areas with
  | nil => simp [coalesce] at member
  | cons head rest ih =>
      have earlier (inside : area ∈ coalesce header rest)
          : ∃ source ∈ head :: rest,
              source.address = area.address ∧ source.used = area.used := by
        obtain ⟨source, listed, same⟩ := ih inside
        exact ⟨source, List.mem_cons_of_mem head listed, same⟩
      rw [coalesce] at member
      cases merged : coalesce header rest with
      | nil =>
          rw [merged] at member
          obtain rfl := List.mem_singleton.mp member
          exact ⟨area, by simp⟩
      | cons next tail =>
          rw [merged, join] at member
          rw [merged] at earlier
          split at member
          · rcases List.mem_cons.mp member with rfl | inside
            · exact ⟨head, by simp, rfl, rfl⟩
            · exact earlier (List.mem_cons_of_mem next inside)
          · rcases List.mem_cons.mp member with rfl | inside
            · exact ⟨area, by simp⟩
            · exact earlier inside

-----------------------------------------------------------------------------------------
-- Releases
-----------------------------------------------------------------------------------------

/-- The order of two marks does not matter. -/
theorem releaseAt_comm
    : releaseAt first (releaseAt second areas) = releaseAt second (releaseAt first areas) := by
  simp only [releaseAt, List.map_map]
  refine List.map_congr_left (fun area _ => ?_)
  simp only [Function.comp, Area.release]
  split <;> split <;> simp_all

/-- A release of used areas passes a merge: the merge it passes joins free ones only. -/
theorem coalesce_releaseAt_join
    (usedArea : area.address = address → area.used = true)
    (usedAll : ∀ other ∈ areas, other.address = address → other.used = true)
    : coalesce header (releaseAt address (join header area areas))
      = join header (area.release address) (coalesce header (releaseAt address areas)) := by
  cases areas with
  | nil => rfl
  | cons next rest =>
      rw [join]
      split
      · next both =>
        obtain ⟨free, freeNext⟩ := both
        have ne : area.address ≠ address := fun same => by simp [usedArea same] at free
        have neNext : next.address ≠ address :=
          fun same => by simp [usedAll next (by simp) same] at freeNext
        have neMerged : (area.absorb header next).address ≠ address := ne
        simp only [releaseAt, List.map_cons, coalesce, Area.release_of_ne ne,
          Area.release_of_ne neNext, Area.release_of_ne neMerged]
        exact (join_join free freeNext).symm
      · rfl

/-- Merging before a release of used areas makes no difference to what is left after it. -/
theorem coalesce_releaseAt_coalesce
    (usedAll : ∀ other ∈ areas, other.address = address → other.used = true)
    : coalesce header (releaseAt address (coalesce header areas))
      = coalesce header (releaseAt address areas) := by
  induction areas with
  | nil => rfl
  | cons area rest ih =>
      have usedRest (other) (member : other ∈ rest) := usedAll other (by simp [member])
      rw [coalesce, coalesce_releaseAt_join (usedAll area (by simp)), ih usedRest]
      · rfl
      · intro other member same
        obtain ⟨source, listed, sameAddress, sameUsed⟩ := mem_coalesce member
        rw [← sameUsed]
        exact usedRest source listed (by rw [sameAddress, same])

end AreaLists
