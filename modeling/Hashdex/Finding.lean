import Hashdex.Coord

/-!
# Findings

What one backend had to say about one coordinate: the record that travels from a source through the
observation store into the walk.
-/

namespace Hashdex

structure Claim where
  statement : String
  url : Option String
  deriving DecidableEq

/-- Where a witness says the bytes live inside a published archive. -/
structure Archive where
  scheme : String
  digest : String
  path : String
  name : String
  url : Option String
  deriving DecidableEq

structure Finding where
  backend : String
  claims : List Claim
  /-- Coordinates co-observed for the same bytes, as the witness spelled them. -/
  coords : List String
  archive : Option Archive
  deriving DecidableEq

/-- The coordinates a finding states: the spellings that parse. -/
def Finding.stated (f : Finding) : List Coord := f.coords.filterMap Coord.parse

/-- The finding itself names the coordinate. -/
def Finding.States (f : Finding) (c : Coord) : Prop := c ∈ f.stated

instance (f : Finding) (c : Coord) : Decidable (f.States c) :=
  inferInstanceAs (Decidable (c ∈ f.stated))

/-- A spelling the display form produced is stated. -/
theorem Finding.states_of_display {f : Finding} {c : Coord} (h : c.display ∈ f.coords) :
    f.States c :=
  List.mem_filterMap.mpr ⟨c.display, h, Coord.parse_display c⟩

end Hashdex
