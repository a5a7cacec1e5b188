/-!
# Commit requests
-/

namespace PageTree

/-- A request to commit. -/
structure Commit where
  /-- The store is closing; this is its last commit. -/
  closed : Bool
  /-- Commit even if there is nothing to write. -/
  forced : Bool
  /-- Move on to a new zone first. -/
  shifted : Bool
  deriving DecidableEq, Repr, Inhabited

namespace Commit

/-- A plain commit. -/
def plain : Commit := ⟨false, false, false⟩

/-- A commit even if there is nothing to write. -/
def force : Commit := ⟨false, true, false⟩

/-- The request that asks for all that either asks for. -/
def merged (a b : Commit) : Commit :=
  ⟨a.closed || b.closed, a.forced || b.forced, a.shifted || b.shifted⟩

/-- The request that letters ask for, one for each flag. -/
def ofLetters (letters : String) : Commit :=
  ⟨letters.contains 'c', letters.contains 'f', letters.contains 's'⟩

/-- The letters of a request, in the order of its flags. -/
def letters (c : Commit) : String :=
  (if c.closed then "c" else "") ++ (if c.forced then "f" else "") ++
    (if c.shifted then "s" else "")

/-- The request described. -/
def describe (c : Commit) : String :=
  "Commit \x7b closed: " ++ toString c.closed ++ ", forced: " ++ toString c.forced ++
    ", shifted: " ++ toString c.shifted ++ " \x7d"

theorem merged_comm (a b : Commit) : a.merged b = b.merged a := by
  simp [merged, Bool.or_comm]

end Commit
end PageTree
