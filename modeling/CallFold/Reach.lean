import CallFold.BitSet

/-!
# Reachable indices

The indices below a bound that can be reached from some roots along an edge relation, found by a
depth-first search. Every index is expanded once; the search ends because each expansion leaves
fewer indices unmarked, and between two expansions the list of pending ones gets shorter.
-/

namespace CallFold

/-- Marks everything that is reachable from the pending indices, expanding only unmarked ones. -/
def search (next : Nat → List Nat) (marked : BitSet) (pending : List Nat) : BitSet :=
  match pending with
  | [] => marked
  | i :: rest =>
    match _h : marked.insert i with
    | (true, marked') => search next marked' (next i ++ rest)
    | (false, _) => search next marked rest
termination_by (marked.absent, pending.length)
decreasing_by
  · exact Prod.Lex.left _ _ (BitSet.absent_insert_lt _h)
  · exact Prod.Lex.right _ (by simp)

/-- The indices below `bound` that are reachable from the roots; those beyond it are passed over. -/
def reachable (bound : Nat) (next : Nat → List Nat) (roots : List Nat) : BitSet :=
  search next (BitSet.empty bound) roots

end CallFold
