import Reflow.Graph.DepthFirst

/-!
# Dominators

A node dominates another when every path from the root to the other visits it.
-/

namespace Reflow

/-- The parents of the places of an order, as far as they are known. The first place is its own parent. -/
abbrev Parents := List (Option Nat)

namespace Parents

def parent? (parents : Parents) (i : Nat) : Option Nat :=
  parents[i]?.join

def meetWithin (parents : Parents) : Nat → Nat → Nat → Nat
  | 0, i, _ => i
  | fuel + 1, i, j =>
    if i = j then i
    else if j < i then parents.meetWithin fuel ((parents.parent? i).getD 0) j
    else parents.meetWithin fuel i ((parents.parent? j).getD 0)

def meet (parents : Parents) (i j : Nat) : Nat :=
  parents.meetWithin (i + j) i j

def meetAll? (parents : Parents) (places : List Nat) : Option Nat :=
  places.foldl (fun found i =>
    if (parents.parent? i).isNone then found else some (found.elim i (parents.meet i))) none

def revise (parents : Parents) (i : Nat) (before : List Nat) : Parents :=
  match parents.meetAll? before with
  | none => parents
  | some d => parents.set i (some d)

def round (into : List (List Nat)) (parents : Parents) : Parents :=
  ((into.drop 1).zipIdx 1).foldl (fun parents entry => parents.revise entry.2 entry.1) parents

def settle (into : List (List Nat)) : Nat → Parents → Parents
  | 0, parents => parents
  | fuel + 1, parents =>
    let next := parents.round into
    if next = parents then parents else settle into fuel next

def start (places : Nat) : Parents :=
  some 0 :: List.replicate (places - 1) none

/-- Each round settles the places behind one more edge that leads back, which bounds the rounds. -/
def ofEdges (into : List (List Nat)) : Parents :=
  settle into into.length (start into.length)

end Parents

namespace Digraph

variable {α : Type} [DecidableEq α] (g : Digraph α)

def entering (order : List α) : List (List Nat) :=
  order.map fun b => order.zipIdx.filterMap fun entry => if b ∈ g.succs entry.1 then some entry.2 else none

def immediateDominators (root : α) : List (α × α) :=
  let order := (g.search root).order
  let parents := Parents.ofEdges (g.entering order)
  (order.zipIdx.drop 1).filterMap fun entry =>
    ((parents.parent? entry.2).bind fun place => order[place]?).map fun d => (entry.1, d)

end Digraph

end Reflow
