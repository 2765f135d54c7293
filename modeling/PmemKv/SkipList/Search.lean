import PmemKv.SkipList.Insert

/-!
# Searches in an inline skip list

The source functions `FindGreaterOrEqual`, `FindLessThan`, `FindLast` and `Contains`, as programs
over the link words.  All of them read `max_height_` once and then walk down from the highest level
in use; the comparison with the last node that stopped the walk on a higher level is not repeated.
-/

namespace PmemKv

open AtomicProg AtomicProg.Prog

namespace InlineSkipList

variable {Key DecodedKey Node : Type} [DecidableEq Node] (L : InlineSkipList Key DecodedKey Node)

/-- The comparison of `FindGreaterOrEqual` with the next node. -/
def compareNext (key : DecodedKey) (nxt lastBigger : Option Node) : ℤ :=
  match nxt with
  | none => 1
  | some n => if nxt = lastBigger then 1 else L.cmp.compareDecoded (L.key n) key

/-- The loop of `FindGreaterOrEqual`. -/
def findGreaterOrEqualLoop (key : DecodedKey) :
    ℕ → ℕ → Node → Option Node → ListProg Node (Option Node)
  | 0, _, _, _ => .exhausted
  | fuel + 1, level, x, lastBigger => do
    let nxt ← next x level
    check (L.isSorted x nxt)
    check (x = L.head || L.keyIsAfterNode key (some x))
    let cmp := L.compareNext key nxt lastBigger
    if cmp = 0 || (0 < cmp && level = 0) then
      pure nxt
    else if cmp < 0 then
      match nxt with
      | some n => findGreaterOrEqualLoop key fuel level n lastBigger
      | none => .fault
    else findGreaterOrEqualLoop key fuel (level - 1) x nxt

/-- `FindGreaterOrEqual`. -/
def findGreaterOrEqual (fuel : ℕ) (key : Key) : ListProg Node (Option Node) := do
  let maxHeight ← getMaxHeight
  L.findGreaterOrEqualLoop (L.cmp.decodeKey key) fuel (maxHeight - 1) L.head none

/-- The loop of `FindLessThan`; the array `prev` may be absent. -/
def findLessThanLoop (key : DecodedKey) (bottomLevel : ℕ) :
    ℕ → ℕ → Node → Option Node → Option (ℕ → Node) →
      ListProg Node (Node × Option (ℕ → Node))
  | 0, _, _, _, _ => .exhausted
  | fuel + 1, level, x, lastNotAfter, prev => do
    let nxt ← next x level
    check (L.isSorted x nxt)
    check (x = L.head || L.keyIsAfterNode key (some x))
    if nxt ≠ lastNotAfter && L.keyIsAfterNode key nxt then
      match nxt with
      | some n => findLessThanLoop key bottomLevel fuel level n lastNotAfter prev
      | none => .fault
    else
      let prev := prev.map fun prev => Function.update prev level x
      if level = bottomLevel then pure (x, prev)
      else findLessThanLoop key bottomLevel fuel (level - 1) x nxt prev

/-- `FindLessThan(key, prev, root, top_level, bottom_level)`. -/
def findLessThanFrom (fuel : ℕ) (key : Key) (prev : Option (ℕ → Node)) (root : Node)
    (topLevel bottomLevel : ℕ) : ListProg Node (Node × Option (ℕ → Node)) := do
  check (bottomLevel < topLevel)
  L.findLessThanLoop (L.cmp.decodeKey key) bottomLevel fuel (topLevel - 1) root none prev

/-- `FindLessThan(key, prev)`. -/
def findLessThan (fuel : ℕ) (key : Key) (prev : Option (ℕ → Node)) :
    ListProg Node (Node × Option (ℕ → Node)) := do
  let maxHeight ← getMaxHeight
  L.findLessThanFrom fuel key prev L.head maxHeight 0

/-- The loop of `FindLast`. -/
def findLastLoop : ℕ → ℕ → Node → ListProg Node Node
  | 0, _, _ => .exhausted
  | fuel + 1, level, x => do
    let nxt ← next x level
    match nxt with
    | none => if level = 0 then pure x else findLastLoop fuel (level - 1) x
    | some n => findLastLoop fuel level n

/-- `FindLast`. -/
def findLast (fuel : ℕ) : ListProg Node Node := do
  let maxHeight ← getMaxHeight
  findLastLoop fuel (maxHeight - 1) L.head

/-- `Contains`. -/
def contains (fuel : ℕ) (key : Key) : ListProg Node Bool := do
  let x ← L.findGreaterOrEqual fuel key
  pure (x.any fun n => L.cmp.compare key (L.key n) = 0)

end InlineSkipList

end PmemKv
