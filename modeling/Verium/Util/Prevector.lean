import Mathlib.Algebra.Group.Nat.Defs
import Mathlib.Logic.Function.Basic
import Verium.Lib.Memory

/-!
`prevector` of `prevector.h`, with its default types: `_size` is a `uint32_t` and a position an
`int32_t`. The storage is a block of cells, inline or on the heap, and memory is always available.
The code tells the two apart by `_size` alone; the model also knows which of them the union holds,
so that taking the one for the other is an error.

A `prevector` is a drop-in replacement for a vector, but not for every argument. A value that
refers to an element of the vector itself is read after the elements have moved, and from
`2 ^ 31` elements on positions are negative.
-/

namespace Verium

open Lib

variable {α : Type}

/-- `direct_or_indirect`. The `capacity` beside the pointer is the length of its block. -/
inductive Prevector.Storage (α : Type)
  | direct (cells : List (Option α))
  | indirect (cells : List (Option α))

structure Prevector (α : Type) where
  /-- `_size` -/
  sizeField : Nat
  union : Prevector.Storage α

namespace Prevector

inductive Stop
  /-- One storage is taken for the other. -/
  | confused
  /-- A position that is negative as a `difference_type`. -/
  | position
  | outside
  | uninitialized
  /-- A reference into storage that `change_capacity` has replaced. -/
  | dangling
deriving DecidableEq, Repr

/-- A `const T&`: a value from elsewhere, or a reference to the element at an index. -/
inductive Arg (α : Type)
  | value (a : α)
  | element (i : Nat)

/-- The calls on one vector; an iterator of it is its position, a range from elsewhere is a list. -/
inductive Op (α : Type)
  | assign (n : Nat) (value : Arg α)
  | assignRange (range : List α)
  | resize (newSize : Nat)
  | reserve (newCapacity : Nat)
  | shrinkToFit
  | insert (pos : Nat) (value : Arg α)
  | insertN (pos count : Nat) (value : Arg α)
  | insertRange (pos : Nat) (range : List α)
  | erase (pos : Nat)
  | eraseRange (first last : Nat)
  | pushBack (value : Arg α)
  | popBack

inductive Command (α : Type)
  | call (i : Nat) (op : Op α)
  | copyConstruct (i other : Nat)
  | copyAssign (i other : Nat)
  | moveConstruct (i other : Nat)
  | moveAssign (i other : Nat)
  | swap (i other : Nat)

def Storage.cells : Storage α → List (Option α)
  | direct cells => cells
  | indirect cells => cells

def Storage.withCells : Storage α → List (Option α) → Storage α
  | direct _, cells => direct cells
  | indirect _, cells => indirect cells

def Storage.isDirect : Storage α → Bool
  | direct _ => true
  | indirect _ => false

/-- A `size_type` after an addition. -/
def wrap (n : Nat) : Nat :=
  n % 2 ^ 32

section Code

variable (N : Nat) (v : Prevector α)

def new : Prevector α :=
  ⟨0, .direct (List.replicate N none)⟩

def isDirect : Bool :=
  v.sizeField ≤ N

def size : Nat :=
  if v.isDirect N then v.sizeField else v.sizeField - N - 1

/-- `item_ptr`, as a position in the cells of the union. -/
def itemPtr (pos : Nat) : Except Stop Nat :=
  if v.isDirect N ≠ v.union.isDirect then .error .confused
  else if pos < 2 ^ 31 then .ok pos
  else .error .position

def capacity : Except Stop Nat :=
  if v.isDirect N then .ok N
  else if v.union.isDirect then .error .confused
  else .ok v.union.cells.length

/-- The source of the `memcpy` of `change_capacity`. -/
def stored : Except Stop (List (Option α)) := do
  let src ← v.itemPtr N 0
  load .outside v.union.cells src (v.size N)

def changeCapacity (newCapacity : Nat) : Except Stop (Prevector α) := do
  if newCapacity ≤ N then
    if v.isDirect N then return v
    let cells ← store .outside (List.replicate N none) 0 (← v.stored N)
    return ⟨v.sizeField - (N + 1), .direct cells⟩
  else if v.isDirect N then
    let cells ← store .outside (List.replicate newCapacity none) 0 (← v.stored N)
    return ⟨wrap (v.sizeField + (N + 1)), .indirect cells⟩
  else
    -- `realloc` keeps what fits
    let indirect ← v.itemPtr N 0
    let kept := (v.union.cells.drop indirect).take newCapacity
    return { v with union := .indirect (kept ++ List.replicate (newCapacity - kept.length) none) }

def reserve (newCapacity : Nat) : Except Stop (Prevector α) := do
  if (← v.capacity N) < newCapacity then v.changeCapacity N newCapacity else return v

/-- `fill` at a pointer into the storage. -/
def fill (ptr : Nat) (range : List α) : Except Stop (Prevector α) := do
  let cells ← store .outside v.union.cells ptr (range.map some)
  return { v with union := v.union.withCells cells }

def eraseRange (first last : Nat) : Except Stop (Prevector α) := do
  let endp ← v.itemPtr N (v.size N)
  let cells ← memmove .outside v.union.cells first last (endp - last)
  return ⟨wrap (v.sizeField + 2 ^ 32 - (last - first)), v.union.withCells cells⟩

def resize [Inhabited α] (newSize : Nat) : Except Stop (Prevector α) := do
  let curSize := v.size N
  if curSize = newSize then return v
  if newSize < curSize then
    let first ← v.itemPtr N newSize
    v.eraseRange N first curSize
  else
    let v ← v.reserve N newSize
    let ptr ← v.itemPtr N curSize
    let v ← v.fill ptr (List.replicate (newSize - curSize) default)
    return { v with sizeField := wrap (v.sizeField + (newSize - curSize)) }

/-- The body that `assign` and the constructors have in common, once the vector is empty and has
the capacity. -/
def fillEmpty (range : List α) : Except Stop (Prevector α) := do
  let v := { v with sizeField := wrap (v.sizeField + range.length) }
  let ptr ← v.itemPtr N 0
  v.fill ptr range

/-- The start of both forms of `assign`: the vector is emptied and has the capacity. Returns
whether the storage was replaced too. -/
def clearFor [Inhabited α] (n : Nat) : Except Stop (Prevector α × Bool) := do
  let v ← v.resize N 0
  if (← v.capacity N) < n then return (← v.changeCapacity N n, true) else return (v, false)

/-- `assign` of a range. -/
def assign [Inhabited α] (range : List α) : Except Stop (Prevector α) := do
  let (v, _) ← v.clearFor N range.length
  v.fillEmpty N range

/-- The growth of the calls that add elements, and whether the storage was replaced. -/
def grow (newSize : Nat) : Except Stop (Prevector α × Bool) := do
  if (← v.capacity N) < newSize then
    return (← v.changeCapacity N (wrap (newSize + newSize / 2)), true)
  else return (v, false)

/-- The body that the forms of `insert` have in common: the elements from `p` on are moved away
by `count`. Returns the pointer to the gap too. -/
def openGap (p count : Nat) : Except Stop (Prevector α × Bool × Nat) := do
  let (v, replaced) ← v.grow N (wrap (v.size N + count))
  let ptr ← v.itemPtr N p
  let cells ← memmove .outside v.union.cells (ptr + count) ptr (v.size N - p)
  return (⟨wrap (v.sizeField + count), v.union.withCells cells⟩, replaced, ptr)

/-- What a reference gives when it is read. -/
def Arg.read (replaced : Bool) : Arg α → Except Stop α
  | .value a => .ok a
  | .element i =>
      if replaced then .error .dangling
      else match v.union.cells[i]? with
        | some (some a) => .ok a
        | some none => .error .uninitialized
        | none => .error .outside

/-- `assign` of copies. -/
def assignN [Inhabited α] (n : Nat) (value : Arg α) : Except Stop (Prevector α) := do
  let (v, replaced) ← v.clearFor N n
  v.fillEmpty N (List.replicate n (← value.read v replaced))

def insertN (pos count : Nat) (value : Arg α) : Except Stop (Prevector α) := do
  let (v, replaced, _) ← v.openGap N pos count
  let ptr ← v.itemPtr N pos
  v.fill ptr (List.replicate count (← value.read v replaced))

def insert (pos : Nat) (value : Arg α) : Except Stop (Prevector α) := do
  let (v, replaced, ptr) ← v.openGap N pos 1
  v.fill ptr [← value.read v replaced]

def insertRange (pos : Nat) (range : List α) : Except Stop (Prevector α) := do
  let (v, _, ptr) ← v.openGap N pos range.length
  v.fill ptr range

def pushBack (value : Arg α) : Except Stop (Prevector α) := do
  let (v, replaced) ← v.grow N (wrap (v.size N + 1))
  let ptr ← v.itemPtr N (v.size N)
  let v ← v.fill ptr [← value.read v replaced]
  return { v with sizeField := wrap (v.sizeField + 1) }

def popBack : Except Stop (Prevector α) := do
  let last ← v.itemPtr N (v.size N)
  v.eraseRange N (last - 1) last

/-- The elements from `begin()` to `end()`. -/
def items : Except Stop (List α) := do
  let last ← v.itemPtr N (v.size N)
  let cells ← load .outside v.union.cells 0 last
  cells.mapM fun
    | some a => .ok a
    | none => .error .uninitialized

/-- The constructor from a range, and the copy constructor. -/
def ofRange (range : List α) : Except Stop (Prevector α) := do
  let v ← (new N).changeCapacity N range.length
  v.fillEmpty N range

def Op.apply [Inhabited α] : Op α → Except Stop (Prevector α)
  | assign n value => v.assignN N n value
  | assignRange range => v.assign N range
  | resize newSize => v.resize N newSize
  | reserve newCapacity => v.reserve N newCapacity
  | shrinkToFit => v.changeCapacity N (v.size N)
  | insert pos value => v.insert N pos value
  | insertN pos count value => v.insertN N pos count value
  | insertRange pos range => v.insertRange N pos range
  | erase pos => v.eraseRange N pos (pos + 1)
  | eraseRange first last => v.eraseRange N first last
  | pushBack value => v.pushBack N value
  | popBack => v.popBack N

def Command.apply [Inhabited α] (vs : Nat → Prevector α) :
    Command α → Except Stop (Nat → Prevector α)
  | call i op => do return Function.update vs i (← op.apply N (vs i))
  | copyConstruct i other => do return Function.update vs i (← ofRange N (← (vs other).items N))
  | copyAssign i other =>
      if other = i then .ok vs
      else do return Function.update vs i (← (vs i).assign N (← (vs other).items N))
  | moveConstruct i other => .ok (Function.update (Function.update vs other (new N)) i (vs other))
  | moveAssign i other | swap i other =>
      .ok (Function.update (Function.update vs other (vs i)) i (vs other))

end Code

/-- The value of an argument for a plain list. -/
def Arg.onList (xs : List α) : Arg α → Option α
  | value a => some a
  | element i => xs[i]?

/-- The same call on a plain list, `none` if its arguments are not allowed. -/
def Op.onList [Inhabited α] (xs : List α) : Op α → Option (List α)
  | assign n value => (value.onList xs).map (List.replicate n)
  | assignRange range => some range
  | resize newSize => some (xs.take newSize ++ List.replicate (newSize - xs.length) default)
  | reserve _ | shrinkToFit => some xs
  | insert pos value =>
      if pos ≤ xs.length then
        (value.onList xs).map fun a => xs.take pos ++ a :: xs.drop pos
      else none
  | insertN pos count value =>
      if pos ≤ xs.length then
        (value.onList xs).map fun a => xs.take pos ++ (List.replicate count a ++ xs.drop pos)
      else none
  | insertRange pos range =>
      if pos ≤ xs.length then some (xs.take pos ++ (range ++ xs.drop pos)) else none
  | erase pos => if pos < xs.length then some (xs.eraseIdx pos) else none
  | eraseRange first last =>
      if first ≤ last ∧ last ≤ xs.length then some (xs.take first ++ xs.drop last) else none
  | pushBack value => (value.onList xs).map fun a => xs ++ [a]
  | popBack => if xs = [] then none else some xs.dropLast

def Command.onLists [Inhabited α] (lists : Nat → List α) :
    Command α → Option (Nat → List α)
  | call i op => (op.onList (lists i)).map (Function.update lists i)
  | copyConstruct i other | copyAssign i other => some (Function.update lists i (lists other))
  | moveConstruct i other =>
      some (Function.update (Function.update lists other []) i (lists other))
  | moveAssign i other | swap i other =>
      some (Function.update (Function.update lists other (lists i)) i (lists other))

/-- No argument is a reference to an element of the vector. -/
def Op.ByValue : Op α → Prop
  | assign _ (.element _) | insert _ (.element _) | insertN _ _ (.element _)
  | pushBack (.element _) => False
  | _ => True

def Command.ByValue : Command α → Prop
  | call _ op => op.ByValue
  | _ => True

/-- Positions in the list fit a `difference_type`, and its length beside the offset a
`size_type`. -/
def Small (N : Nat) (xs : List α) : Prop :=
  xs.length < 2 ^ 31 ∧ xs.length + N + 1 < 2 ^ 32

end Prevector

end Verium
