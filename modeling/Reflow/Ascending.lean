/-!
# Ascending lists

Finite sets as strictly ascending lists, for answers that list their members in order.
-/

namespace Reflow.Ascending

variable {α : Type}

def insert (lt : α → α → Bool) (a : α) : List α → List α
  | [] => [a]
  | b :: rest =>
    if lt a b then a :: b :: rest
    else if lt b a then b :: insert lt a rest
    else b :: rest

def ofList (lt : α → α → Bool) (as : List α) : List α :=
  as.foldr (insert lt) []

def ltPair (a b : Nat × Nat) : Bool :=
  a.1 < b.1 || (a.1 == b.1 && a.2 < b.2)

def nats (ns : List Nat) : List Nat :=
  ofList (fun a b => a < b) ns

def pairs (ps : List (Nat × Nat)) : List (Nat × Nat) :=
  ofList ltPair ps

end Reflow.Ascending
