import Mathlib.Data.List.MinMax
import SimpleKernel.Library.AreaMerging

/-! A heap as a list of areas that follow one another without gaps.
Requests and releases are functions of the list. When no two free neighbours are left
apart, the used areas alone determine the list, so a heap has no state that its clients
cannot see.
-/

namespace AreaLists

variable {header low high : Nat} {area block : Area} {areas areas' : List Area}

/-- The areas follow one another without gaps from `low` to `high`. -/
def Tiles (header : Nat) : Nat → List Area → Nat → Prop
  | low, [], high => low = high
  | low, area :: rest, high =>
      area.address = low ∧ Tiles header (low + header + area.payload) rest high

/-- Tiles go upwards. -/
theorem Tiles.le (tiles : Tiles header low areas high) : low ≤ high := by
  induction areas generalizing low with
  | nil => exact Nat.le_of_eq tiles
  | cons area rest ih =>
      have behind := ih tiles.2
      omega

/-- Every area lies inside, its header included. -/
theorem Tiles.bounds (tiles : Tiles header low areas high) (member : area ∈ areas)
    : low ≤ area.address ∧ area.address + header + area.payload ≤ high := by
  induction areas generalizing low with
  | nil => cases member
  | cons first rest ih =>
      obtain ⟨start, behind⟩ := tiles
      rcases List.mem_cons.mp member with rfl | later
      · exact ⟨Nat.le_of_eq start.symm, start ▸ behind.le⟩
      · have inside := ih behind later
        exact ⟨by omega, inside.2⟩

/-- No area starts inside another one. -/
theorem Tiles.first_or_behind {first : Area} {rest : List Area}
    (tiles : Tiles header low (first :: rest) high) (member : area ∈ first :: rest)
    : area = first ∨ low + header + first.payload ≤ area.address :=
  (List.mem_cons.mp member).imp_right (fun later => (tiles.2.bounds later).1)

/-- Areas are their three fields. -/
theorem Area.eq_of_fields (address : area.address = block.address)
    (payload : area.payload = block.payload) (used : area.used = block.used)
    : area = block := by
  cases area
  cases block
  exact (Area.mk.injEq ..).mpr ⟨address, payload, used⟩

section Unique

variable (positive : 0 < header)
include positive

/-- The first areas of two heaps agree when the first of one of them is used. -/
theorem Tiles.first_eq_of_used {first first' : Area} {rest rest' : List Area}
    (tiles : Tiles header low (first :: rest) high)
    (tiles' : Tiles header low (first' :: rest') high)
    (used : first.used = true)
    (same : first.used = true → first ∈ first :: rest → first ∈ first' :: rest')
    : first = first' := by
  refine (tiles'.first_or_behind (same used List.mem_cons_self)).resolve_right (fun behind => ?_)
  have start := tiles.1
  omega

/-- A free area reaches to the next used one, so it reaches as far in another heap with
the same used areas.
-/
theorem Tiles.payload_le {first first' : Area} {rest rest' : List Area}
    (tiles : Tiles header low (first :: rest) high)
    (tiles' : Tiles header low (first' :: rest') high) (free : first.used = false)
    (apart : Apart (first :: rest))
    (same : ∀ area, area.used = true → area ∈ first :: rest → area ∈ first' :: rest')
    : first'.payload ≤ first.payload := by
  cases rest with
  | nil =>
      have ends : low + header + first.payload = high := tiles.2
      have inside := tiles'.2.le
      omega
  | cons next rest =>
      have used : next.used = true :=
        ((List.isChain_cons_cons.mp apart).1).resolve_left (by simp [free])
      have start := tiles.2.1
      rcases tiles'.first_or_behind (same next used (by simp)) with rfl | behind
      · have start' := tiles'.1
        omega
      · omega

/-- Two tilings with the same used areas and no free neighbours begin with the same area. A
free first area reaches up to the first used one in both.
-/
theorem Tiles.first_eq {first first' : Area} {rest rest' : List Area}
    (tiles : Tiles header low (first :: rest) high)
    (tiles' : Tiles header low (first' :: rest') high) (apart : Apart (first :: rest))
    (apart' : Apart (first' :: rest'))
    (same : ∀ area, area.used = true → (area ∈ first :: rest ↔ area ∈ first' :: rest'))
    : first = first' := by
  cases used : first.used with
  | true => exact tiles.first_eq_of_used positive tiles' used (fun used => (same first used).mp)
  | false =>
      cases used' : first'.used with
      | true =>
          exact (tiles'.first_eq_of_used positive tiles used'
            (fun used => (same first' used).mpr)).symm
      | false =>
          have below := tiles.payload_le positive tiles' used apart
            (fun area inUse => (same area inUse).mp)
          have above := tiles'.payload_le positive tiles used' apart'
            (fun area inUse => (same area inUse).mpr)
          exact Area.eq_of_fields (tiles.1.trans tiles'.1.symm) (Nat.le_antisymm above below)
            (used.trans used'.symm)

/-- Behind equal first areas the used areas are the same too, as none of them is the first.
-/
theorem Tiles.mem_rest {first : Area} {rest rest' : List Area}
    (tiles : Tiles header low (first :: rest) high)
    (same : area ∈ first :: rest → area ∈ first :: rest') (member : area ∈ rest)
    : area ∈ rest' := by
  have inside := (tiles.2.bounds member).1
  have start := tiles.1
  refine (List.mem_cons.mp (same (List.mem_cons_of_mem _ member))).resolve_left ?_
  rintro rfl
  omega

/-- Two heaps between the same addresses are equal if the same areas are used and neither
leaves free neighbours apart. By induction on both.
-/
theorem Tiles.unique (tiles : Tiles header low areas high)
    (tiles' : Tiles header low areas' high) (apart : Apart areas) (apart' : Apart areas')
    (same : ∀ area, area.used = true → (area ∈ areas ↔ area ∈ areas'))
    : areas = areas' := by
  induction areas generalizing low areas' with
  | nil =>
      cases areas' with
      | nil => rfl
      | cons first' rest' =>
          have ends : low = high := tiles
          have inside := tiles'.2.le
          omega
  | cons first rest ih =>
      cases areas' with
      | nil =>
          have ends : low = high := tiles'
          have inside := tiles.2.le
          omega
      | cons first' rest' =>
          obtain rfl := tiles.first_eq positive tiles' apart apart' same
          have behind := ih tiles.2 tiles'.2 apart.of_cons apart'.of_cons
            (fun area used =>
              ⟨tiles.mem_rest positive (same area used).mp,
                tiles'.mem_rest positive (same area used).mpr⟩)
          rw [behind]

end Unique

-----------------------------------------------------------------------------------------
-- Requests
-----------------------------------------------------------------------------------------

/-- The lowest of the smallest areas that fit is replaced by its pieces. The reply is where
the payload of the used piece starts.
-/
def serve (header : Nat) (Fits : Area → Prop) [DecidablePred Fits]
    (pieces : Area → List Area) (areas : List Area)
    : Option Nat × List Area :=
  match (areas.filter (fun area => Fits area)).argmin Area.payload with
  | none => (none, areas)
  | some area =>
      (
        ((pieces area).find? Area.used).map (fun block => block.address + header),
        areas.flatMap (fun other => if other = area then pieces area else [other])
      )

instance (request : Nat) : DecidablePred (Area.Fits request) :=
  fun _ => inferInstanceAs (Decidable (_ ∧ _))

instance (header page count : Nat) : DecidablePred (Area.FitsPages header page count) :=
  fun _ => inferInstanceAs (Decidable (_ ∧ _))

/-- The payload of the area at an address. -/
def payloadAt (address : Nat) (areas : List Area) : Nat :=
  ((areas.find? (fun area => area.address = address)).map Area.payload).getD 0

section Serve

variable {Fits : Area → Prop} [DecidablePred Fits] {pieces : Area → List Area}

/-- A request that nothing fits changes nothing. -/
theorem serve_none (nothing : (areas.filter (fun area => Fits area)).argmin Area.payload = none)
    : serve header Fits pieces areas = (none, areas) := by
  rw [serve, nothing]

/-- A replacement leaves lists without the area alone, by induction on them. -/
theorem flatMap_replace (absent : area ∉ areas)
    : areas.flatMap (fun other => if other = area then pieces area else [other]) = areas := by
  induction areas with
  | nil => rfl
  | cons first rest ih =>
      obtain ⟨ne, later⟩ := List.ne_and_not_mem_of_not_mem_cons absent
      rw [List.flatMap_cons, if_neg (Ne.symm ne), ih later]
      rfl

/-- The pieces take the place of the area. -/
theorem serve_some {before after : List Area}
    (best : ((before ++ area :: after).filter (fun area => Fits area)).argmin Area.payload
      = some area)
    (left : area ∉ before) (right : area ∉ after)
    : serve header Fits pieces (before ++ area :: after)
      = (((pieces area).find? Area.used).map (fun block => block.address + header),
        before ++ pieces area ++ after) := by
  simp only [serve, best, List.flatMap_append, List.flatMap_cons, if_true]
  rw [flatMap_replace left, flatMap_replace right, List.append_assoc]

end Serve

/-- The choice of a minimum commutes with a map. -/
theorem argAux_map {α β : Type*} (f : α → β) (key : β → Nat) (best : Option α) (a : α)
    : List.argAux (fun b c => key b < key c) (best.map f) (f a)
      = (List.argAux (fun b c => key (f b) < key (f c)) best a).map f := by
  cases best with
  | none => rfl
  | some b =>
      simp only [List.argAux, Option.map_some]
      split <;> rfl

/-- The first minimum of a mapped list comes from that of the list. -/
theorem argmin_map {α β : Type*} (f : α → β) (key : β → Nat) (l : List α)
    : (l.map f).argmin key = (l.argmin (key ∘ f)).map f := by
  have scan (best : Option α)
      : (l.map f).foldl (List.argAux fun b c => key b < key c) (best.map f)
        = (l.foldl (List.argAux fun b c => key (f b) < key (f c)) best).map f := by
    induction l generalizing best with
    | nil => rfl
    | cons a rest ih =>
        simp only [List.map_cons, List.foldl_cons]
        rw [argAux_map, ih]
  exact scan none

end AreaLists
