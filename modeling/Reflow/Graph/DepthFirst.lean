import Reflow.Graph.Basic

/-!
# Depth-first search

A search from a root gives the reverse post order of the nodes it reaches, and the feedback edges: those that lead
back to a node still under way.
-/

namespace Reflow

structure Search (α : Type) where
  seen : List α := []
  order : List α := []
  feedback : List (α × α) := []

inductive Turn (α : Type) where
  | enter (a : α)
  | leave (a : α)

namespace Digraph

variable {α : Type} [DecidableEq α] (g : Digraph α)

def followEdge (visit : α → Search α → Search α) (path : List α) (a : α) (s : Search α) (b : α) :
    Search α :=
  if b ∈ s.seen then
    if b ∈ path ∧ (a, b) ∉ s.feedback then { s with feedback := (a, b) :: s.feedback } else s
  else visit b s

/-- Every node is entered at most once, which bounds the depth; `path` are the nodes under way. -/
def visitWithin : Nat → List α → α → Search α → Search α
  | 0, _, _, s => s
  | fuel + 1, path, a, s =>
    let entered := { s with seen := a :: s.seen }
    let followed := (g.succs a).foldl (followEdge (visitWithin fuel (a :: path)) (a :: path) a) entered
    { followed with order := a :: followed.order }

def search (root : α) : Search α :=
  g.visitWithin (g.nodes.length + 1) [] root {}

def unwindWithin : Nat → List (Turn α) → List α → List α → List α
  | 0, _, _, order => order
  | _ + 1, [], _, order => order
  | fuel + 1, .leave a :: stack, seen, order => unwindWithin fuel stack seen (a :: order)
  | fuel + 1, .enter a :: stack, seen, order =>
    if a ∈ seen then unwindWithin fuel stack seen order
    else unwindWithin fuel ((g.succs a).map .enter ++ .leave a :: stack) (a :: seen) order

/-- Every node is left at most once and every edge followed at most once, which bounds the turns. -/
def reversePostOrder (root : α) : List α :=
  g.unwindWithin (1 + g.nodes.length + g.edgeCount) [.enter root] [] []

end Digraph

end Reflow
