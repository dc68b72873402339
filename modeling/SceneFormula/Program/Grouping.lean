import SceneFormula.Program.Basic

/-!
# Grouping fetches

Fetches from one actor are moved together.  Actors keep the order in which they first appear, and
fetches from one actor keep their order, whatever records they read.
-/

namespace SceneFormula

/-- Fetches from the actor `target`, in order. -/
structure FetchGroup where
  target : String
  fetches : List Fetch

namespace FetchGroup

/-- Adds a fetch to the group of its actor; a new actor's group comes last. -/
def insert (f : Fetch) : List FetchGroup → List FetchGroup
  | [] => [⟨f.record.target, [f]⟩]
  | g :: gs =>
    if g.target = f.record.target then { g with fetches := g.fetches ++ [f] } :: gs
    else g :: insert f gs

/-- The groups of a list of fetches. -/
def ofFetches (fs : List Fetch) : List FetchGroup := fs.foldl (fun gs f => insert f gs) []

end FetchGroup

/-- The fetches with those from one actor side by side. -/
def groupFetches (fs : List Fetch) : List Fetch :=
  (FetchGroup.ofFetches fs).flatMap FetchGroup.fetches

/-- The program with its fetches grouped. -/
def Program.grouped (p : Program) : Program := { p with fetches := groupFetches p.fetches }

end SceneFormula
