/-!
# Directed graphs

A directed graph is a list of nodes and a successor list for each.
-/

namespace Reflow

/-- A directed graph; successor lists may repeat a node. -/
structure Digraph (α : Type) where
  nodes : List α
  succs : α → List α

def Digraph.edgeCount {α : Type} (g : Digraph α) : Nat :=
  (g.nodes.flatMap g.succs).length

end Reflow
