import Std.Data.TreeSet

/-!
Names, sets of names, and how to find an unused name. Names are ordered by code
points, which is the order of their UTF-8 bytes.
-/
namespace LambdaTyping

abbrev NameSet := Std.TreeSet String

namespace NameSet

def ofNames (xs : List String) : NameSet := Std.TreeSet.ofList xs

@[simp] theorem mem_ofNames {x : String} {xs : List String} : x ∈ ofNames xs ↔ x ∈ xs := by
  simp [ofNames]

/-- The names of a list in ascending order, each once. -/
def sorted (xs : List String) : List String := (ofNames xs).toList

@[simp] theorem mem_sorted {x : String} {xs : List String} : x ∈ sorted xs ↔ x ∈ xs := by
  simp [sorted]

end NameSet

namespace Name

/-- `x`, `x1`, `x2`, and so on. -/
def numbered (x : String) : Nat → String
  | 0 => x
  | n + 1 => x ++ (n + 1).repr

/-- `A` to `Z`, then `A1` to `Z1`, and so on. -/
def lettered (i : Nat) : String := numbered (Char.ofNat (65 + i % 26)).toString (i / 26)

/-- The first of at most `tries` further candidates from `i` on that is not in use. -/
def firstUnusedWithin (used : NameSet) (candidate : Nat → String) : Nat → Nat → Nat
  | 0, i => i
  | tries + 1, i =>
    if candidate i ∈ used then firstUnusedWithin used candidate tries (i + 1) else i

/-- The first index from `i` on whose candidate is not in use. The number of used names bounds the
number of candidates to look at, for a sequence that repeats none. -/
def firstUnused (used : NameSet) (candidate : Nat → String) (i : Nat) : Nat :=
  firstUnusedWithin used candidate used.size i

/-- The name itself, or the name with the smallest number that makes it unused. -/
def unusedLike (used : NameSet) (x : String) : String :=
  numbered x (firstUnused used (numbered x) 0)

end Name

end LambdaTyping
