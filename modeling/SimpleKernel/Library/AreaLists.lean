import Mathlib.Data.List.Basic

/-! Best-fit splitting of a list of memory areas.
Every area is a header followed by its payload. A request is served from the lowest free
area of minimal payload among those larger than it; what the request leaves of that area
becomes a free area of its own when it holds more than two headers.
-/

namespace AreaLists

structure Area where
  /-- Where the header starts. -/
  address : Nat
  payload : Nat
  used : Bool
  deriving DecidableEq

def Area.Fits (request : Nat) (area : Area) : Prop :=
  area.used = false ∧ request < area.payload

/-- The lowest area of minimal payload among those that fit. -/
structure Area.Best (Fits : Area → Prop) (areas : List Area) (area : Area) : Prop where
  fits : Fits area
  minimal : ∀ other ∈ areas, Fits other → area.payload ≤ other.payload
  lowest
    : ∀ other ∈ areas,
        Fits other → other.payload = area.payload → area.address ≤ other.address

/-- What takes the place of an area that serves a request. The request counts the header
behind the block it is carved into.
-/
def Area.split (header request : Nat) (area : Area) : List Area :=
  if 2 * header < area.payload - request then
    [
      ⟨area.address, request - header, true⟩,
      ⟨area.address + request, area.payload - request, false⟩
    ]
  else [{ area with used := true }]

/-- One request: the address of the payload it is given, if any, and the list after it. -/
inductive BestFitSplit (header request : Nat)
    : List Area → Option Nat → List Area → Prop
  | full {areas} (nothing : ∀ area ∈ areas, ¬area.Fits request)
    : BestFitSplit header request areas none areas
  | taken {before area after} (best : area.Best (Area.Fits request) (before ++ area :: after))
    : BestFitSplit header request (before ++ area :: after) (some (area.address + header))
        (before ++ area.split header request ++ after)

variable {header request page count : Nat} {areas areas' : List Area} {result : Option Nat}
  {area : Area}

/-- A request fails exactly when no free area is larger than it. -/
theorem BestFitSplit.eq_none_iff (step : BestFitSplit header request areas result areas')
    : result = none ↔ ∀ area ∈ areas, ¬area.Fits request := by
  cases step with
  | full nothing => simpa using nothing
  | taken best =>
      constructor
      · intro failed
        cases failed
      · intro nothing
        exact absurd best.fits (nothing _ (by simp))

-----------------------------------------------------------------------------------------
-- Page-aligned requests
-----------------------------------------------------------------------------------------

/-- The first page boundary above the start of an area. -/
def Area.pageAbove (page : Nat) (area : Area) : Nat :=
  area.address / page * page + page

/-- The pages, what lies between the start of the area and the first of them, and a header
behind the last.
-/
def Area.pageNeed (header page count : Nat) (area : Area) : Nat :=
  count * page + (area.pageAbove page - area.address) + header

/-- An area whose own header does not end at the page boundary needs one that does. -/
def Area.FitsPages (header page count : Nat) (area : Area) : Prop :=
  area.used = false
  ∧ area.pageNeed header page count
      + (if area.address + header = area.pageAbove page then 0 else header)
    < area.payload

/-- What takes the place of an area that serves `count` pages: what lies before them, the
block, and what it leaves behind them.
-/
def Area.splitPages (header page count : Nat) (area : Area) : List Area :=
  let start := area.pageAbove page
  let stop := area.address + header + area.payload
  (if area.address + header = start then []
    else [⟨area.address, start - 2 * header - area.address, false⟩])
  ++ if 2 * header < area.payload - area.pageNeed header page count then
      [
        ⟨start - header, count * page, true⟩,
        ⟨start + count * page, stop - (start + count * page + header), false⟩
      ]
    else [⟨start - header, stop - start, true⟩]

/-- One request for pages: the first of them, if any, and the list after it. -/
inductive PageSplit (header page count : Nat)
    : List Area → Option Nat → List Area → Prop
  | full {areas : List Area} (nothing : ∀ area ∈ areas, ¬area.FitsPages header page count)
    : PageSplit header page count areas none areas
  | taken {before after : List Area} {area : Area}
      (best : area.Best (Area.FitsPages header page count) (before ++ area :: after))
    : PageSplit header page count (before ++ area :: after) (some (area.pageAbove page))
        (before ++ area.splitPages header page count ++ after)

/-- A request of pages fails exactly when it fits nowhere. -/
theorem PageSplit.eq_none_iff (step : PageSplit header page count areas result areas')
    : result = none ↔ ∀ area ∈ areas, ¬area.FitsPages header page count := by
  cases step with
  | full nothing => simpa using nothing
  | taken best =>
      constructor
      · intro failed
        cases failed
      · intro nothing
        exact absurd best.fits (nothing _ (by simp))

/-- Pages start at page boundaries. -/
theorem PageSplit.aligned (step : PageSplit header page count areas result areas')
    : ∀ start ∈ result, page ∣ start := by
  cases step with
  | full => simp
  | taken best =>
      intro start chosen
      obtain rfl := Option.mem_some_iff.mp chosen
      exact (Nat.dvd_add_iff_left (Nat.dvd_refl page)).mp (Nat.dvd_mul_left _ _)

/-- An area that fits yields a used one in front of a page, with room for what was asked. -/
theorem Area.FitsPages.block (fits : area.FitsPages header page count)
    : ∃ room,
        count * page ≤ room
        ∧ ⟨area.pageAbove page - header, room, true⟩ ∈ area.splitPages header page count := by
  have need := fits.2
  simp only [Area.pageNeed] at need
  simp only [Area.splitPages, List.mem_append]
  by_cases split : 2 * header < area.payload - area.pageNeed header page count
  · exact ⟨count * page, Nat.le_refl _, Or.inr (by simp [split])⟩
  · refine ⟨area.address + header + area.payload - area.pageAbove page, ?_,
      Or.inr (by simp [split])⟩
    omega

/-- The block of a page request holds its pages. -/
theorem PageSplit.block (step : PageSplit header page count areas result areas')
    : ∀ start ∈ result,
        ∃ room, count * page ≤ room ∧ ⟨start - header, room, true⟩ ∈ areas' := by
  cases step with
  | full => simp
  | @taken before after area best =>
      intro start chosen
      obtain rfl := Option.mem_some_iff.mp chosen
      obtain ⟨room, enough, member⟩ := best.fits.block
      exact ⟨room, enough, by simp [member]⟩

end AreaLists
