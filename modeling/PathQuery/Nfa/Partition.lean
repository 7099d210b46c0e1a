import PathQuery.Nfa.Basic

/-!
# Nfa/Partition — blocks of states, split by where arcs lead

A `Partition` puts each state of an automaton into one of its numbered blocks and lists the blocks
that wait to be used as splitters. A splitter tells states apart by whether an arc with some label
leads from them into it. When a block falls into two halves, it is enough for the smaller one to
become a splitter, unless the block waits already: then both halves do. `Partition.refine` takes up
one splitter after another.
-/

namespace PathQuery.Nfa

/-- The labels of an automaton's arcs other than empty moves, in ascending order. -/
def alphabet (A : Nfa) : List Nat := Ascending.ofList (A.arcs.filterMap (·.label))

/-- The states from which an arc with a label leads into some states. -/
def sources (A : Nfa) (states : List Nat) (label : Nat) : List Nat :=
  A.arcs.filterMap fun a =>
    if a.label = some label ∧ a.dst ∈ states then some a.src else none

/-- States in numbered blocks. -/
structure Partition where
  /-- The block of each state. -/
  blockOf : List Nat
  /-- The number of blocks. -/
  size : Nat
  /-- The blocks that wait to be used as splitters, the next one first. -/
  waiting : List Nat

namespace Partition

/-- The states of a block, in ascending order. -/
def members (P : Partition) (block : Nat) : List Nat :=
  (List.range P.blockOf.length).filter fun q => P.blockOf[q]? == some block

/-- The final ones of `n` states and the others, as far as there are any. -/
def finalBlocks (n : Nat) (final : List Nat) : List (List Nat) :=
  ([true, false].map fun isFinal =>
    (List.range n).filter fun q => decide (q ∈ final) == isFinal).filter fun block => !block.isEmpty

/-- The partition of `n` states into the final ones and the others. All blocks wait. -/
def ofFinal (n : Nat) (final : List Nat) : Partition :=
  let blocks := finalBlocks n final
  { blockOf := (List.range n).map fun q => blocks.findIdx fun block => decide (q ∈ block)
    size := blocks.length
    waiting := (List.range blocks.length).reverse }

/-- Moves the marked states of a block into a new block, unless all states of the block are
marked. -/
def split (marked : List Nat) (P : Partition) (block : Nat) : Partition :=
  let moved := (P.members block).filter fun q => decide (q ∈ marked)
  let kept := (P.members block).filter fun q => decide (q ∉ marked)
  if kept.isEmpty then P
  else
    { blockOf := P.blockOf.zipIdx.map fun (b, q) =>
        if b = block ∧ q ∈ marked then P.size else b
      size := P.size + 1
      waiting :=
        (if block ∉ P.waiting ∧ kept.length ≤ moved.length then block else P.size) :: P.waiting }

/-- Splits each block by whether an arc with a label leads into the splitter. -/
def splitOn (A : Nfa) (splitter : List Nat) (P : Partition) (label : Nat) : Partition :=
  let marked := A.sources splitter label
  (Ascending.ofList (marked.filterMap (P.blockOf[·]?))).foldl (split marked) P

/-- Splits each block by whether arcs lead into the splitter, one label after another. The splitter
stays what it was, also where it is split itself. -/
def splitBy (A : Nfa) (splitter : List Nat) (P : Partition) : Partition :=
  A.alphabet.foldl (splitOn A splitter) P

/-- Takes up the waiting blocks as splitters, at most the given number of them. -/
def refine (A : Nfa) : Nat → Partition → Partition
  | 0, P => P
  | bound + 1, P =>
    match P.waiting with
    | [] => P
    | block :: waiting => refine A bound ({ P with waiting }.splitBy A (P.members block))

end Partition

/-- The partition that is left when no splitter waits any more. -/
def partition (A : Nfa) : Partition :=
  (Partition.ofFinal A.numStates A.final).refine A A.numStates

end PathQuery.Nfa
