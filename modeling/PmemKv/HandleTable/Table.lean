import PmemKv.Basic
import Mathlib.Logic.Function.Basic

/-!
# The handle table of the cache

The source functions of `HandleTable`: `FindPointer`, `Lookup`, `Insert`, `Remove`, `Resize` and the
constructor.  A `LRUHandle**` is a `Cell`: a slot of `list_` or the field `next_hash` of a handle.
`TableState` holds the handles and the table; `length_`, `elems_` and the counters of `Resize` are
32-bit words.  Every loop carries a fuel, and a call that stops without returning says why.

Of a handle only the fields that the table reads are kept; the others belong to the list of the LRU
cache, which the table does not touch.
-/

namespace PmemKv

/-- Why a call stopped without returning. -/
inductive Stop : Type
  /-- An assertion was violated or memory was accessed that is not there. -/
  | fault
  /-- The fuel of a loop ran out. -/
  | exhausted
  deriving DecidableEq

/-- `Slice::operator==`: equal sizes, and `memcmp` finds no difference. -/
def sliceEq (a b : Bytes) : Bool := b.length == a.length && a.take b.length == b.take b.length

lemma sliceEq_iff {a b : Bytes} : sliceEq a b = true ↔ a = b := by
  rw [sliceEq, Bool.and_eq_true, beq_iff_eq, beq_iff_eq]
  constructor
  · rintro ⟨hlen, htake⟩
    rwa [List.take_length, hlen, List.take_length] at htake
  · rintro rfl
    exact ⟨rfl, rfl⟩

/-- An `LRUHandle`; `H` is the type of the addresses of handles. -/
structure LRUHandle (H : Type) where
  /-- The bytes at `key_data`, `key_length` of them. -/
  keyData : Bytes
  /-- `hash`. -/
  hash : UInt32
  /-- `next_hash`. -/
  nextHash : Option H
  /-- `next`. -/
  next : Option H

/-- A word that holds the address of a handle. -/
inductive Cell (H : Type) : Type
  /-- `&list_[i]`. -/
  | bucket (i : ℕ)
  /-- `&h->next_hash`. -/
  | nextHash (h : H)
  deriving DecidableEq

/-- The handles in memory, and the fields of the table. -/
structure TableState (H : Type) where
  /-- The handles. -/
  handles : H → LRUHandle H
  /-- `list_`. -/
  list : ℕ → Option H
  /-- `length_`. -/
  length : ℕ
  /-- `elems_`. -/
  elems : ℕ

/-- `hash & (length - 1)`. -/
def bucketIndex (hash : UInt32) (length : ℕ) : ℕ :=
  hash.toNat &&& toUInt32 (length + 2 ^ 32 - 1)

namespace TableState

variable {H : Type} [DecidableEq H]

/-- The handle stored in a cell. -/
def get (s : TableState H) : Cell H → Option H
  | .bucket i => s.list i
  | .nextHash h => (s.handles h).nextHash

/-- A cell with a handle stored in it. -/
def set (s : TableState H) : Cell H → Option H → TableState H
  | .bucket i, v => { s with list := Function.update s.list i v }
  | .nextHash h, v =>
    { s with handles := Function.update s.handles h { s.handles h with nextHash := v } }

/-- `*ptr`, where `list_` has `length_` slots. -/
def load (s : TableState H) : Cell H → Except Stop (Option H)
  | .bucket i => if i < s.length then .ok (s.list i) else .error .fault
  | .nextHash h => .ok (s.handles h).nextHash

/-- `*ptr = v`. -/
def store (s : TableState H) (ptr : Cell H) (v : Option H) : Except Stop (TableState H) :=
  match ptr with
  | .bucket i => if i < s.length then .ok (s.set ptr v) else .error .fault
  | .nextHash _ => .ok (s.set ptr v)

/-- `LRUHandle::key`, which asserts `next != this`. -/
def key (s : TableState H) (h : H) : Except Stop Bytes :=
  if (s.handles h).next = some h then .error .fault else .ok (s.handles h).keyData

/-- The loop of `FindPointer`. -/
def findLoop (s : TableState H) (key : Bytes) (hash : UInt32) : ℕ → Cell H → Except Stop (Cell H)
  | 0, _ => .error .exhausted
  | fuel + 1, ptr => do
    match ← s.load ptr with
    | none => pure ptr
    | some h =>
      if (s.handles h).hash ≠ hash then findLoop s key hash fuel (.nextHash h)
      else
        let k ← s.key h
        if !sliceEq key k then findLoop s key hash fuel (.nextHash h) else pure ptr

/-- `FindPointer`. -/
def findPointer (s : TableState H) (fuel : ℕ) (key : Bytes) (hash : UInt32) :
    Except Stop (Cell H) :=
  s.findLoop key hash fuel (.bucket (bucketIndex hash s.length))

/-- `Lookup`. -/
def lookup (s : TableState H) (fuel : ℕ) (key : Bytes) (hash : UInt32) :
    Except Stop (Option H) := do
  let ptr ← s.findPointer fuel key hash
  s.load ptr

/-! ## `Resize` -/

/-- `while (new_length < elems_) new_length *= 2`. -/
def newLength (elems : ℕ) : ℕ → ℕ → Except Stop ℕ
  | 0, _ => .error .exhausted
  | fuel + 1, n => if n < elems then newLength elems fuel (toUInt32 (n * 2)) else .ok n

/-- The handles, the new array and the counter while `Resize` runs. -/
structure Rehash (H : Type) where
  /-- The handles. -/
  handles : H → LRUHandle H
  /-- `new_list`. -/
  newList : ℕ → Option H
  /-- `count`. -/
  count : ℕ

/-- The inner loop of `Resize`: every handle of an old chain is put in front of its new chain. -/
def moveChain (newLength : ℕ) : ℕ → Option H → Rehash H → Except Stop (Rehash H)
  | 0, _, _ => .error .exhausted
  | _ + 1, none, r => .ok r
  | fuel + 1, some h, r =>
    let next := (r.handles h).nextHash
    let i := bucketIndex (r.handles h).hash newLength
    if i < newLength then
      moveChain newLength fuel next
        { handles := Function.update r.handles h { r.handles h with nextHash := r.newList i }
          newList := Function.update r.newList i (some h)
          count := toUInt32 (r.count + 1) }
    else .error .fault

/-- The outer loop of `Resize`, over the first `n` slots from the slot `i` on. -/
def moveBuckets (list : ℕ → Option H) (newLength fuel : ℕ) :
    ℕ → ℕ → Rehash H → Except Stop (Rehash H)
  | 0, _, r => .ok r
  | n + 1, i, r => do
    let r ← moveChain newLength fuel (list i) r
    moveBuckets list newLength fuel n (i + 1) r

/-- `Resize`. -/
def resize (s : TableState H) (fuel : ℕ) : Except Stop (TableState H) := do
  let n ← newLength s.elems fuel 4
  let r ← moveBuckets s.list n fuel s.length 0 ⟨s.handles, fun _ => none, 0⟩
  if s.elems = r.count then pure ⟨r.handles, r.newList, n, s.elems⟩ else .error .fault

/-- The constructor; `handles` is the memory it finds. -/
def construct (fuel : ℕ) (handles : H → LRUHandle H) : Except Stop (TableState H) :=
  resize ⟨handles, fun _ => none, 0, 0⟩ fuel

/-! ## `Insert` and `Remove` -/

/-- `Insert`. -/
def insert (s : TableState H) (fuel : ℕ) (h : H) : Except Stop (Option H × TableState H) := do
  let k ← s.key h
  let ptr ← s.findPointer fuel k (s.handles h).hash
  let old ← s.load ptr
  let s := s.set (.nextHash h) (old.bind fun o => (s.handles o).nextHash)
  let s ← s.store ptr (some h)
  if old = none then
    let s := { s with elems := toUInt32 (s.elems + 1) }
    if s.length < s.elems then do
      let s ← s.resize fuel
      pure (old, s)
    else pure (old, s)
  else pure (old, s)

/-- `Remove`. -/
def remove (s : TableState H) (fuel : ℕ) (key : Bytes) (hash : UInt32) :
    Except Stop (Option H × TableState H) := do
  let ptr ← s.findPointer fuel key hash
  match ← s.load ptr with
  | none => pure (none, s)
  | some h => do
    let s ← s.store ptr (s.handles h).nextHash
    pure (some h, { s with elems := toUInt32 (s.elems + 2 ^ 32 - 1) })

end TableState

end PmemKv
