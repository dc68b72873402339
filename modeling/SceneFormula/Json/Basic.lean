/-!
# JSON values

Numbers are left open: what the library writes has whole numbers only, while what it reads may have
any.  The members of an object keep the order in which they stand.
-/

namespace SceneFormula

inductive Json (ν : Type) where
  | null
  | bool (value : Bool)
  | number (x : ν)
  | string (s : String)
  | array (items : List (Json ν))
  | object (members : List (String × Json ν))

namespace Json

variable {ν μ : Type}

mutual

/-- Replaces every number. -/
def mapNumbers (f : ν → μ) : Json ν → Json μ
  | null => null
  | bool b => bool b
  | number x => number (f x)
  | string s => string s
  | array items => array (mapItems f items)
  | object members => object (mapMembers f members)

def mapItems (f : ν → μ) : List (Json ν) → List (Json μ)
  | [] => []
  | j :: js => j.mapNumbers f :: mapItems f js

def mapMembers (f : ν → μ) : List (String × Json ν) → List (String × Json μ)
  | [] => []
  | (key, j) :: ms => (key, j.mapNumbers f) :: mapMembers f ms

end

/-! ### Members in order of their keys -/

/-- Puts a member in its place among members in order of their keys; it replaces one of its key. -/
def insertMember (key : String) (j : Json ν) : List (String × Json ν) → List (String × Json ν)
  | [] => [(key, j)]
  | (k, i) :: ms =>
    if key < k then (key, j) :: (k, i) :: ms
    else if key = k then (key, j) :: ms
    else (k, i) :: insertMember key j ms

mutual

/-- The value with the members of every object in order of their keys.  Of several members of one
key the last one stays. -/
def sorted : Json ν → Json ν
  | array items => array (sortedItems items)
  | object members => object (sortedMembers members [])
  | j => j

def sortedItems : List (Json ν) → List (Json ν)
  | [] => []
  | j :: js => j.sorted :: sortedItems js

def sortedMembers : List (String × Json ν) → List (String × Json ν) → List (String × Json ν)
  | [], placed => placed
  | (key, j) :: ms, placed => sortedMembers ms (insertMember key j.sorted placed)

end

end Json

end SceneFormula
