/-
  Lox.Distances — the table of distances: for a reference's slot, how many environments
  lie between the use and the environment that holds its declaration.

  A reference without an entry is a global one. A table may also be given from outside;
  a negative distance in it hops over nothing.
-/

import Std.Data.TreeMap

namespace Lox

abbrev Distances := Std.TreeMap Int Int

namespace Distances

/-- The entries of the second table over those of the first. -/
def merge (old new : Distances) : Distances := new.foldl (fun table slot d => table.insert slot d) old

def ofList (entries : List (Int × Int)) : Distances :=
  entries.foldl (fun table (slot, d) => table.insert slot d) ∅

/-- How many environments a distance hops over. -/
def hops (d : Int) : Nat := d.toNat

end Distances

end Lox
