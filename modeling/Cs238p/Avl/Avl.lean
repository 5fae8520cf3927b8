/-
  Cs238p.Avl.Avl — the word store (`project-3/avl.c`): a counted AVL tree whose nodes and
  words are blocks of the storage class memory, so that everything it keeps is bytes there.

  A `struct node` takes 40 bytes (depth, count, item, left, right), a `struct state` 24
  (items, unique, root). Reading a field of `NULL` stops the run, and so does a block that
  ends outside the mapping; an allocation answers `NULL` when `fails` says so. Recursions
  and loops run on `fuel`.
-/
import Cs238p.Avl.Words

namespace Cs238p.Avl

open ByteMemory Scm

/-! ## Records in memory -/

/-- `int`. -/
def toInt32 (v : Nat) : Int := (BitVec.ofNat 32 v).toInt

def ofInt32 (d : Int) : Nat := (BitVec.ofInt 32 d).toNat

/-- `++` of an `uint64_t`. -/
def next (n : Nat) : Nat := (n + 1) % 2 ^ 64

/-- `--` of an `uint64_t`. -/
def prev (n : Nat) : Nat := (n + (2 ^ 64 - 1)) % 2 ^ 64

@[ext] structure Node where
  depth : Int
  count : Nat
  item : Nat
  left : Nat
  right : Nat

@[ext] structure State where
  items : Nat
  unique : Nat
  root : Nat

def nodeAt (m : Mem) (p : Nat) : Node :=
  ⟨toInt32 (m.load p 4), m.load (p + 8) 8, m.load (p + 16) 8, m.load (p + 24) 8, m.load (p + 32) 8⟩

def setDepth (m : Mem) (p : Nat) (d : Int) : Mem := m.store p 4 (ofInt32 d)

def setCount (m : Mem) (p c : Nat) : Mem := m.store (p + 8) 8 c

def setItem (m : Mem) (p str : Nat) : Mem := m.store (p + 16) 8 str

def setLeft (m : Mem) (p q : Nat) : Mem := m.store (p + 24) 8 q

def setRight (m : Mem) (p q : Nat) : Mem := m.store (p + 32) 8 q

def stateAt (m : Mem) (p : Nat) : State := ⟨m.load p 8, m.load (p + 8) 8, m.load (p + 16) 8⟩

def setItems (m : Mem) (p n : Nat) : Mem := m.store p 8 n

def setUnique (m : Mem) (p n : Nat) : Mem := m.store (p + 8) 8 n

def setRoot (m : Mem) (p q : Nat) : Mem := m.store (p + 16) 8 q

/-- The node behind a pointer. -/
def deref (m : Mem) (p : Nat) : Except Stop Node := if p = 0 then .error .null else .ok (nodeAt m p)

/-! ## Rotations -/

def delta (m : Mem) (node : Nat) : Int := if node ≠ 0 then (nodeAt m node).depth else -1

def balance (m : Mem) (node : Nat) : Except Stop Int := do
  let node ← deref m node
  return delta m node.left - delta m node.right

def depth (m : Mem) (a b : Nat) : Int := if delta m a > delta m b then delta m a + 1 else delta m b + 1

def rotateRight (m : Mem) (node : Nat) : Except Stop (Nat × Mem) := do
  let root := (← deref m node).left
  let m := setLeft m node (← deref m root).right
  let m := setRight m root node
  let m := setDepth m node (depth m (nodeAt m node).left (nodeAt m node).right)
  let m := setDepth m root (depth m (nodeAt m root).left node)
  return (root, m)

def rotateLeft (m : Mem) (node : Nat) : Except Stop (Nat × Mem) := do
  let root := (← deref m node).right
  let m := setRight m node (← deref m root).left
  let m := setLeft m root node
  let m := setDepth m node (depth m (nodeAt m node).left (nodeAt m node).right)
  let m := setDepth m root (depth m (nodeAt m root).right node)
  return (root, m)

def rotateLeftRight (m : Mem) (node : Nat) : Except Stop (Nat × Mem) := do
  let (left, m) ← rotateLeft m (← deref m node).left
  rotateRight (setLeft m node left) node

def rotateRightLeft (m : Mem) (node : Nat) : Except Stop (Nat × Mem) := do
  let (right, m) ← rotateRight m (← deref m node).right
  rotateLeft (setRight m node right) node

/-- The end of `delete`: the depth of `root`, and its balance (there the double rotations
    are written out). -/
def rebalance (m : Mem) (root : Nat) : Except Stop (Nat × Mem) := do
  let node ← deref m root
  let m := setDepth m root (depth m node.left node.right)
  let balancefactor ← balance m root
  if balancefactor > 1 then
    if 0 ≤ (← balance m node.left) then rotateRight m root else rotateLeftRight m root
  else if balancefactor < -1 then
    if (← balance m node.right) ≤ 0 then rotateLeft m root else rotateRightLeft m root
  else return (root, m)

/-! ## The store -/

structure AvlSt where
  scm : ScmSt
  /-- The pointer to the `struct state`. -/
  state : Nat
  /-- Which of the next allocations fail. -/
  fails : List Bool

namespace AvlSt

def mem (s : AvlSt) : Mem := s.scm.mem

def put (s : AvlSt) (m : Mem) : AvlSt := { s with scm := { s.scm with mem := m } }

/-- The string at a pointer. -/
def strAt (s : AvlSt) (p : Nat) : Except Stop (List UInt8) := if p = 0 then .error .null else .ok (cstr s.scm p)

end AvlSt

/-- An allocation of `n` bytes: it fails, or answers what the region does. -/
def allocate (s : AvlSt) (n : Nat) (r : Except Stop (Nat × ScmSt)) : Except Stop (Nat × AvlSt) :=
  if s.fails.headD false = true then .ok (0, { s with fails := s.fails.tail })
  else do
    let (p, scm) ← r
    if vmStart + scm.size < p + n then .error .fault
    else return (p, { s with scm := scm, fails := s.fails.tail })

def malloc (s : AvlSt) (n : Nat) : Except Stop (Nat × AvlSt) := allocate s n (scmMalloc s.scm n)

def strdup (s : AvlSt) (str : List UInt8) : Except Stop (Nat × AvlSt) :=
  allocate s (str.length + 1) (.ok (scmStrdup s.scm str))

def free (s : AvlSt) (p : Nat) : Except Stop AvlSt := do
  let scm ← scmFree s.scm p
  return { s with scm := scm }

/-! ## Insertion -/

/-- `++root->count` and `++avl->state->items`. -/
def bump (s : AvlSt) (root : Nat) : AvlSt :=
  let s := s.put (setCount s.mem root (next (nodeAt s.mem root).count))
  s.put (setItems s.mem s.state (next (stateAt s.mem s.state).items))

/-- `update` of no tree. -/
def newNode (s : AvlSt) (item : List UInt8) : Except Stop (Nat × AvlSt) := do
  let (root, s) ← malloc s 40
  if root = 0 then return (0, s)
  else do
    let s := s.put (s.mem.write root (List.replicate 40 0))
    let (str, s) ← strdup s item
    let s := s.put (setItem s.mem root str)
    if str = 0 then return (0, s)
    else
      let s := bump s root
      return (root, s.put (setUnique s.mem s.state (next (stateAt s.mem s.state).unique)))

/-- `update` after it went to the left. -/
def fixLeft (s : AvlSt) (root : Nat) (item : List UInt8) : Except Stop (Nat × AvlSt) := do
  if 1 < (← balance s.mem root).natAbs then do
    let left ← deref s.mem (nodeAt s.mem root).left
    let (root, m) ←
      if strcmp item (← s.strAt left.item) < 0 then rotateRight s.mem root else rotateLeftRight s.mem root
    return (root, s.put m)
  else return (root, s)

/-- `update` after it went to the right. -/
def fixRight (s : AvlSt) (root : Nat) (item : List UInt8) : Except Stop (Nat × AvlSt) := do
  if 1 < (← balance s.mem root).natAbs then do
    let right ← deref s.mem (nodeAt s.mem root).right
    let (root, m) ←
      if 0 < strcmp item (← s.strAt right.item) then rotateLeft s.mem root else rotateRightLeft s.mem root
    return (root, s.put m)
  else return (root, s)

/-- The last line of `update`: the depth of the node that is now the root. -/
def stamp (s : AvlSt) (root : Nat) : AvlSt :=
  let node := nodeAt s.mem root
  s.put (setDepth s.mem root (depth s.mem node.left node.right))

def update : Nat → AvlSt → Nat → List UInt8 → Except Stop (Nat × AvlSt)
  | 0, _, _, _ => .error .fuel
  | fuel + 1, s, root, item =>
    if root = 0 then newNode s item
    else do
      let node := nodeAt s.mem root
      let d := strcmp item (← s.strAt node.item)
      let (root, s) ←
        if d = 0 then pure (root, bump s root)
        else if d < 0 then do
          let (left, s) ← update fuel s node.left item
          fixLeft (s.put (setLeft s.mem root left)) root item
        else do
          let (right, s) ← update fuel s node.right item
          fixRight (s.put (setRight s.mem root right)) root item
      return (root, stamp s root)

/-! ## Deletion -/

/-- A string argument: the caller's, or in the region. -/
inductive Str where
  | client (bytes : List UInt8)
  | region (p : Nat)

def Str.get (s : AvlSt) : Str → Except Stop (List UInt8)
  | .client bytes => .ok bytes
  | .region p => s.strAt p

def findMin (m : Mem) : Nat → Nat → Except Stop Nat
  | 0, _ => .error .fuel
  | fuel + 1, node => do
    let left := (← deref m node).left
    if left = 0 then return node else findMin m fuel left

/-- The blocks of a node that goes. -/
def discard (s : AvlSt) (root : Nat) : Except Stop AvlSt := do
  let s ← free s (nodeAt s.mem root).item
  free s root

/-- `root` takes the word and the count of `temp`, whose count becomes 1. -/
def takeOver (s : AvlSt) (root temp : Nat) : Except Stop AvlSt := do
  let old := (nodeAt s.mem root).item
  let (str, s) ← strdup s (← s.strAt (nodeAt s.mem temp).item)
  let s := s.put (setItem s.mem root str)
  let s := s.put (setCount s.mem root (nodeAt s.mem temp).count)
  let s ← free s old
  return s.put (setCount s.mem temp 1)

/-- The end of `delete`, in a store. -/
def restore (s : AvlSt) (root : Nat) : Except Stop (Nat × AvlSt) := do
  let (root, m) ← rebalance s.mem root
  return (root, s.put m)

def delete : Nat → AvlSt → Nat → Str → Except Stop (Nat × AvlSt)
  | 0, _, _, _ => .error .fuel
  | fuel + 1, s, root, item =>
    if root = 0 then pure (0, s)
    else do
      let node := nodeAt s.mem root
      let cmp := strcmp (← item.get s) (← s.strAt node.item)
      if cmp < 0 then do
        let (left, s) ← delete fuel s node.left item
        restore (s.put (setLeft s.mem root left)) root
      else if cmp > 0 then do
        let (right, s) ← delete fuel s node.right item
        restore (s.put (setRight s.mem root right)) root
      else if node.count > 1 then restore (s.put (setCount s.mem root (node.count - 1))) root
      else if node.left = 0 then return (node.right, ← discard s root)
      else if node.right = 0 then return (node.left, ← discard s root)
      else do
        let temp ← findMin s.mem fuel node.right
        let s ← takeOver s root temp
        let (right, s) ← delete fuel s node.right (.region (nodeAt s.mem temp).item)
        restore (s.put (setRight s.mem root right)) root

/-! ## The calls -/

/-- `avl_open`; `none` is `NULL`. -/
def avlOpen (size : Nat) (h : vmStart + size < 2 ^ 64) (file : Mem) (truncate : Bool) (fails : List Bool) :
    Except Stop (Option AvlSt) := do
  let s : AvlSt := ⟨scmOpen size h file truncate, 0, fails⟩
  if scmUtilized s.scm ≠ 0 then return some { s with state := scmMbase s.scm }
  else do
    let (state, s) ← malloc s 24
    if state = 0 then return none
    else do
      let s := s.put (s.mem.write state (List.replicate 24 0))
      if state = scmMbase s.scm then return some { s with state := state } else .error .assert

/-- `avl_close`, answering the file. -/
def avlClose (s : AvlSt) : Mem := scmClose s.scm

def avlInsert (fuel : Nat) (s : AvlSt) (item : List UInt8) : Except Stop (Int × AvlSt) :=
  if item = [] then .error .assert
  else do
    let (root, s) ← update fuel s (stateAt s.mem s.state).root item
    if root = 0 then return (-1, s) else return (0, s.put (setRoot s.mem s.state root))

/-- The loop of `avl_exists`. -/
def lookup (s : AvlSt) (item : List UInt8) : Nat → Nat → Except Stop Nat
  | 0, _ => .error .fuel
  | fuel + 1, node =>
    if node = 0 then pure 0
    else do
      let d := strcmp item (← s.strAt (nodeAt s.mem node).item)
      if d = 0 then return (nodeAt s.mem node).count
      else lookup s item fuel (if 0 > d then (nodeAt s.mem node).left else (nodeAt s.mem node).right)

def avlExists (fuel : Nat) (s : AvlSt) (item : List UInt8) : Except Stop Nat :=
  if item = [] then .error .assert else lookup s item fuel (stateAt s.mem s.state).root

/-- The counters in `avl_delete`, before the tree: `--avl->state->items`, and
    `--avl->state->unique` with the last occurrence. -/
def uncount (s : AvlSt) (count : Int) : AvlSt :=
  let s := s.put (setItems s.mem s.state (prev (stateAt s.mem s.state).items))
  if count = 1 then s.put (setUnique s.mem s.state (prev (stateAt s.mem s.state).unique)) else s

/-- `avl_delete`; `count` is an `int`. -/
def avlDelete (fuel : Nat) (s : AvlSt) (item : List UInt8) : Except Stop (Int × AvlSt) :=
  if item = [] then .error .assert
  else do
    let count := toInt32 (← avlExists fuel s item)
    if count = 0 then .error .assert
    else do
      let s := uncount s count
      let (root, s) ← delete fuel s (stateAt s.mem s.state).root (.client item)
      return (0, s.put (setRoot s.mem s.state root))

def traverse (s : AvlSt) : Nat → Nat → Except Stop (List (List UInt8 × Nat))
  | 0, _ => .error .fuel
  | fuel + 1, node =>
    if node = 0 then pure []
    else do
      let left ← traverse s fuel (nodeAt s.mem node).left
      let item ← s.strAt (nodeAt s.mem node).item
      let right ← traverse s fuel (nodeAt s.mem node).right
      return left ++ (item, (nodeAt s.mem node).count) :: right

/-- `avl_traverse`: the calls of the callback, in order. -/
def avlTraverse (fuel : Nat) (s : AvlSt) : Except Stop (List (List UInt8 × Nat)) :=
  traverse s fuel (stateAt s.mem s.state).root

def avlItems (s : AvlSt) : Nat := (stateAt s.mem s.state).items

def avlUnique (s : AvlSt) : Nat := (stateAt s.mem s.state).unique

def avlScmUtilized (s : AvlSt) : Nat := scmUtilized s.scm

def avlScmCapacity (s : AvlSt) : Nat := scmCapacity s.scm

end Cs238p.Avl
