import FiberMachine.Heap.Partition
import FiberMachine.Heap.Reference

/-!
# Garbage collection

A collection marks every block that can be reached from the roots through references and then
releases the allocated blocks without a mark. The roots are the unassigned object, the registered
contexts and the protected addresses. The unmarked blocks are gathered before the first of them is
released, because merging changes headers that the walk has yet to read.
-/

namespace FiberMachine.Heap

/-- Mark the blocks on a worklist and all that they refer to. The most recently found block is
handled first. -/
def markAll : Nat → List Addr → HeapM Unit
  | 0, _ | _ + 1, [] => pure ()
  | n + 1, addr :: rest => do
    if ← isMarked addr then
      markAll n rest
    else
      setMark addr true
      let found ← children addr
      markAll n (found.reverse ++ rest)

/-- Steps that marking can take: every word is marked at most once and holds fewer references than
the arena has words. -/
def markBound (h : Heap) : Nat := (h.capacity + 1) * (h.capacity + 1)

/-- Mark everything that can be reached from `root`. -/
def mark (root : Addr) : HeapM Unit := do
  markAll (← get).markBound [root]

/-- The addresses from which a collection starts. -/
def roots (h : Heap) : List Addr := unassigned :: h.contexts ++ h.temporaries.toList

/-- Clear the marks of the given allocated blocks and answer those that had none. -/
def unmark : List Block → HeapM (List Block)
  | [] => pure []
  | b :: rest => do
    if b.marked then
      setMark b.addr false
      unmark rest
    else
      return b :: (← unmark rest)

/-- Release every allocated block that cannot be reached from the roots. -/
def collect : HeapM Unit := do
  (← get).roots.forM mark
  let dead ← unmark ((← get).blocks.filter (!·.free))
  let words := Block.total dead
  dead.forM fun b => release b.addr
  modify fun h => { h with stats :=
    { collections := h.stats.collections + 1
      blocksFreed := h.stats.blocksFreed + dead.length
      wordsFreed := h.stats.wordsFreed + words } }
  let h ← get
  note .debug fun _ =>
    s!"gc #{h.stats.collections}: freed {dead.length} blocks ({words} words), "
      ++ s!"{h.freeWords} words free"

end FiberMachine.Heap
