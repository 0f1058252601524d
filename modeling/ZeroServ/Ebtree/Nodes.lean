import Mathlib.Logic.Function.Basic
import Mathlib.Data.BitVec

/-!
# The nodes of an elastic binary tree in memory

`ebtree/ebtree.h`, `ebtree/eb32tree.h` and `eb32tree.c`, on the memory itself: an entry (`struct eb32_node`) has a
leaf part, `leaf_p`, and a node part, `node_p`, `bit` and the two branches; the pointers are tagged in their lowest
bit. The memory has one map for each field. A function gives `none` where the C code would follow a NULL pointer or
read a field that the root of a tree does not have, and where the fuel of one of its loops runs out.
-/

namespace ZeroServ.Ebtree

/-- Where a `struct eb_root` is: the root of the tree, or the branches at the beginning of an entry. -/
inductive Addr where
  | top
  | node (i : Nat)
  deriving DecidableEq, Repr

/-- `eb_troot_t *`: NULL or the address of an `eb_root`, and the lowest bit. -/
structure Troot where
  root : Option Addr
  tag : Bool
  deriving DecidableEq, Repr

/-- `NULL` -/
def null : Troot := ⟨none, false⟩

/-- `EB_LEFT` -/
abbrev ebLeft : Bool := false

/-- `EB_RGHT` -/
abbrev ebRght : Bool := true

/-- `EB_LEAF` -/
abbrev ebLeaf : Bool := false

/-- `EB_NODE` -/
abbrev ebNode : Bool := true

/-- `eb_dotag` -/
def ebDotag (root : Addr) (tag : Bool) : Troot := ⟨some root, tag⟩

/-- `container_of`: the entry whose branches a pointer leads to. -/
def Troot.entry (t : Troot) : Option Nat :=
  match t.root with
  | some (.node i) => some i
  | _ => none

@[simp] theorem ebDotag_root (root : Addr) (tag : Bool) : (ebDotag root tag).root = some root := rfl

@[simp] theorem ebDotag_tag (root : Addr) (tag : Bool) : (ebDotag root tag).tag = tag := rfl

@[simp] theorem ebDotag_entry (i : Nat) (tag : Bool) : (ebDotag (.node i) tag).entry = some i := rfl

/-- The fields of the entries, and the branches of the root. -/
structure Mem where
  b : Addr → Bool → Troot
  nodeP : Nat → Troot
  leafP : Nat → Troot
  bit : Nat → Int
  key : Nat → BitVec 32

namespace Mem

variable (m : Mem)

def setB (a : Addr) (side : Bool) (t : Troot) : Mem :=
  { m with b := Function.update m.b a (Function.update (m.b a) side t) }

def setNodeP (i : Nat) (t : Troot) : Mem := { m with nodeP := Function.update m.nodeP i t }

def setLeafP (i : Nat) (t : Troot) : Mem := { m with leafP := Function.update m.leafP i t }

def setBit (i : Nat) (bit : Int) : Mem := { m with bit := Function.update m.bit i bit }

/-- The pointer to its parent in what a branch leads to: a leaf's or a node's. -/
def setUp (branch : Bool) (i : Nat) (t : Troot) : Mem := if branch = ebLeaf then m.setLeafP i t else m.setNodeP i t

section fields

variable (a a' : Addr) (side side' branch : Bool) (t : Troot) (i j : Nat) (bit : Int)

@[simp] theorem setB_b : (m.setB a side t).b a' side' = if a' = a ∧ side' = side then t else m.b a' side' := by
  unfold setB
  by_cases ha : a' = a
  · subst ha
    by_cases hs : side' = side <;> simp [hs]
  · simp [ha]

@[simp] theorem setB_nodeP : (m.setB a side t).nodeP = m.nodeP := rfl

@[simp] theorem setB_leafP : (m.setB a side t).leafP = m.leafP := rfl

@[simp] theorem setB_bit : (m.setB a side t).bit = m.bit := rfl

@[simp] theorem setB_key : (m.setB a side t).key = m.key := rfl

@[simp] theorem setNodeP_b : (m.setNodeP i t).b = m.b := rfl

@[simp] theorem setNodeP_nodeP : (m.setNodeP i t).nodeP j = if j = i then t else m.nodeP j := Function.update_apply ..

@[simp] theorem setNodeP_leafP : (m.setNodeP i t).leafP = m.leafP := rfl

@[simp] theorem setNodeP_bit : (m.setNodeP i t).bit = m.bit := rfl

@[simp] theorem setNodeP_key : (m.setNodeP i t).key = m.key := rfl

@[simp] theorem setLeafP_b : (m.setLeafP i t).b = m.b := rfl

@[simp] theorem setLeafP_nodeP : (m.setLeafP i t).nodeP = m.nodeP := rfl

@[simp] theorem setLeafP_leafP : (m.setLeafP i t).leafP j = if j = i then t else m.leafP j := Function.update_apply ..

@[simp] theorem setLeafP_bit : (m.setLeafP i t).bit = m.bit := rfl

@[simp] theorem setLeafP_key : (m.setLeafP i t).key = m.key := rfl

@[simp] theorem setBit_b : (m.setBit i bit).b = m.b := rfl

@[simp] theorem setBit_nodeP : (m.setBit i bit).nodeP = m.nodeP := rfl

@[simp] theorem setBit_leafP : (m.setBit i bit).leafP = m.leafP := rfl

@[simp] theorem setBit_bit : (m.setBit i bit).bit j = if j = i then bit else m.bit j := Function.update_apply ..

@[simp] theorem setBit_key : (m.setBit i bit).key = m.key := rfl

@[simp] theorem setUp_b : (m.setUp branch i t).b = m.b := by
  unfold setUp
  split <;> rfl

@[simp] theorem setUp_nodeP : (m.setUp branch i t).nodeP j = if branch = ebNode ∧ j = i then t else m.nodeP j := by
  cases branch <;> simp [setUp]

@[simp] theorem setUp_leafP : (m.setUp branch i t).leafP j = if branch = ebLeaf ∧ j = i then t else m.leafP j := by
  cases branch <;> simp [setUp]

@[simp] theorem setUp_bit : (m.setUp branch i t).bit = m.bit := by
  unfold setUp
  split <;> rfl

@[simp] theorem setUp_key : (m.setUp branch i t).key = m.key := by
  unfold setUp
  split <;> rfl

end fields

end Mem

/-- An empty tree, and entries that are in no tree. -/
def Mem.init (key : Nat → BitVec 32) : Mem :=
  { b := fun _ _ => null, nodeP := fun _ => null, leafP := fun _ => null, bit := fun _ => 0, key }

/-! ## Walks -/

/-- `eb_walk_down` -/
def ebWalkDown (m : Mem) : Nat → Troot → Bool → Option (Option Nat)
  | 0, _, _ => none
  | n + 1, start, side =>
    if start.tag = ebNode then start.root.bind fun a => ebWalkDown m n (m.b a side) side
    else if start.root = none then some none
    else start.entry.map some

/-- `eb_first` -/
def ebFirst (m : Mem) (fuel : Nat) : Option (Option Nat) := ebWalkDown m fuel (m.b .top ebLeft) ebLeft

/-- Up from a right branch, as far as a left one: the loop of `eb_next` and the last one of `eb32_lookup_ge`. -/
def ebUp (m : Mem) : Nat → Troot → Option Addr
  | 0, _ => none
  | n + 1, t => if t.tag ≠ ebLeft then t.entry.bind fun i => ebUp m n (m.nodeP i) else t.root

/-- The first leaf after what hangs below a pointer to a parent: the end of `eb_next` and of `eb32_lookup_ge`. -/
def ebAfter (m : Mem) (fuel : Nat) (t : Troot) : Option (Option Nat) := do
  let a ← ebUp m fuel t
  let t := m.b a ebRght
  if t.root = none then some none else ebWalkDown m fuel t ebLeft

/-- `eb_next` -/
def ebNext (m : Mem) (fuel : Nat) (i : Nat) : Option (Option Nat) := ebAfter m fuel (m.leafP i)

/-- The first loop of `eb32_lookup_ge`, and what follows where it stops. -/
def lookupGeLoop (m : Mem) (fuel : Nat) (x : BitVec 32) : Nat → Troot → Option (Option Nat)
  | 0, _ => none
  | n + 1, troot => do
    let node ← troot.entry
    if troot.tag = ebLeaf then
      if x ≤ m.key node then some (some node) else ebAfter m fuel (m.leafP node)
    else if m.bit node < 0 then
      -- the top of a tree of duplicates
      if x ≤ m.key node then ebWalkDown m fuel (m.b (.node node) ebLeft) ebLeft else ebAfter m fuel (m.nodeP node)
    else if 2 ≤ ((x ^^^ m.key node) >>> (m.bit node).toNat).toNat then
      -- no more common bits
      if x >>> (m.bit node).toNat < m.key node >>> (m.bit node).toNat then
        ebWalkDown m fuel (m.b (.node node) ebLeft) ebLeft
      else ebAfter m fuel (m.nodeP node)
    else lookupGeLoop m fuel x n (m.b (.node node) (x.getLsbD (m.bit node).toNat))

/-- `eb32_lookup_ge` -/
def eb32LookupGe (m : Mem) (fuel : Nat) (x : BitVec 32) : Option (Option Nat) :=
  if m.b .top ebLeft = null then some none else lookupGeLoop m fuel x fuel (m.b .top ebLeft)

/-! ## Insertion -/

/-- The loop of `__eb_insert_dup`: the node whose right branch is a leaf, and `sub`. -/
def dupHead (m : Mem) : Nat → Nat → Nat → Option (Nat × Nat)
  | 0, _, _ => none
  | n + 1, head, sub =>
    if (m.b (.node head) ebRght).tag ≠ ebLeaf then
      (m.b (.node head) ebRght).entry.bind fun next =>
        dupHead m n next (if m.bit head + 1 < m.bit next then next else sub)
    else some (head, sub)

/-- The first branch of `__eb_insert_dup`: the new node between `head` and the leaf `sub` on its right. -/
def dupLeaf (m : Mem) (head sub new : Nat) : Mem :=
  let m := m.setB (.node head) ebRght (ebDotag (.node new) ebNode)
  let m := m.setNodeP new (m.leafP sub)
  let m := m.setLeafP new (ebDotag (.node new) ebRght)
  let m := m.setLeafP sub (ebDotag (.node new) ebLeft)
  let m := m.setB (.node new) ebLeft (ebDotag (.node sub) ebLeaf)
  m.setB (.node new) ebRght (ebDotag (.node new) ebLeaf)

/-- The second branch: the new node between `head` and the node `sub`. -/
def dupNode (m : Mem) (head : Addr) (side : Bool) (sub new : Nat) : Mem :=
  let m := m.setB head side (ebDotag (.node new) ebNode)
  let m := m.setNodeP new (m.nodeP sub)
  let m := m.setLeafP new (ebDotag (.node new) ebRght)
  let m := m.setNodeP sub (ebDotag (.node new) ebLeft)
  let m := m.setB (.node new) ebLeft (ebDotag (.node sub) ebNode)
  m.setB (.node new) ebRght (ebDotag (.node new) ebLeaf)

/-- `__eb_insert_dup` -/
def ebInsertDup (m : Mem) (fuel : Nat) (sub new : Nat) : Option Mem := do
  let (head, sub) ← dupHead m fuel sub sub
  if m.bit head < -1 then
    -- a hole exists just before the leaf
    let sub ← (m.b (.node head) ebRght).entry
    pure (dupLeaf (m.setBit new (-1)) head sub new)
  else
    let head ← (m.nodeP sub).root
    pure (dupNode (m.setBit new (m.bit sub - 1)) head (m.nodeP sub).tag sub new)

/-- `flsnz` -/
def flsnz (x : BitVec 32) : Nat := Nat.log2 x.toNat + 1

/-- The descent of `__eb32_insert`: `root` and `side` where it stops. -/
def insertDown (m : Mem) (newkey : BitVec 32) : Nat → Addr → Bool → Option (Addr × Bool)
  | 0, _, _ => none
  | n + 1, root, side => do
    let old ← (m.b root side).entry
    if (m.b root side).tag = ebLeaf then some (root, side)
    else if m.bit old < 0 ∨ 2 ≤ ((newkey ^^^ m.key old) >>> (m.bit old).toNat).toNat then some (root, side)
    else insertDown m newkey n (.node old) (newkey.getLsbD (m.bit old).toNat)

/-- The end of `__eb32_insert`: the new node between `root` and `old`. -/
def insertAbove (m : Mem) (root : Addr) (side : Bool) (troot : Troot) (old new : Nat) : Mem :=
  let m :=
    if m.key old ≤ m.key new then
      let m := m.setB (.node new) ebLeft troot
      let m := m.setB (.node new) ebRght (ebDotag (.node new) ebLeaf)
      let m := m.setLeafP new (ebDotag (.node new) ebRght)
      m.setUp troot.tag old (ebDotag (.node new) ebLeft)
    else
      let m := m.setB (.node new) ebLeft (ebDotag (.node new) ebLeaf)
      let m := m.setB (.node new) ebRght troot
      let m := m.setLeafP new (ebDotag (.node new) ebLeft)
      m.setUp troot.tag old (ebDotag (.node new) ebRght)
  m.setB root side (ebDotag (.node new) ebNode)

/-- `__eb32_insert`: the memory, and the entry that is returned. -/
def eb32Insert (m : Mem) (fuel : Nat) (new : Nat) : Option (Mem × Nat) :=
  if m.b .top ebLeft = null then
    let m := m.setB .top ebLeft (ebDotag (.node new) ebLeaf)
    let m := m.setLeafP new (ebDotag .top ebLeft)
    some (m.setNodeP new null, new)
  else do
    let rootRight := m.b .top ebRght
    let (root, side) ← insertDown m (m.key new) fuel .top ebLeft
    let troot := m.b root side
    let old ← troot.entry
    let m := m.setNodeP new (if troot.tag = ebLeaf then m.leafP old else m.nodeP old)
    let m := m.setBit new (flsnz (m.key new ^^^ m.key old) - 1)
    if m.key new = m.key old then
      let m := m.setBit new (-1)
      if rootRight.tag then pure (m, old)
      else if troot.tag ≠ ebLeaf then
        let m ← ebInsertDup m fuel old new
        pure (m, new)
      else pure (insertAbove m root side troot old new, new)
    else pure (insertAbove m root side troot old new, new)

/-! ## Deletion -/

/-- The child on one side of a node gets it as its parent. -/
def adopt (m : Mem) (parent : Nat) (side : Bool) : Option Mem := do
  let child ← (m.b (.node parent) side).entry
  pure (m.setUp (m.b (.node parent) side).tag child (ebDotag (.node parent) side))

/-- The part of `__eb_delete` that puts the sibling in the place of the parent, and marks the parent's node unused. -/
def liftSibling (m : Mem) (parent : Nat) (pside : Bool) : Option Mem := do
  let gpside := (m.nodeP parent).tag
  let gparent ← (m.nodeP parent).root
  let m := m.setB gparent gpside (m.b (.node parent) !pside)
  let sibling ← (m.b gparent gpside).entry
  let m := m.setUp (m.b gparent gpside).tag sibling (ebDotag gparent gpside)
  pure (m.setNodeP parent null)

/-- The part that puts the parent's node, which is free now, in the place of the node of the entry. -/
def takeOver (m : Mem) (parent node : Nat) : Option Mem := do
  let m := m.setNodeP parent (m.nodeP node)
  let m := m.setB (.node parent) ebLeft (m.b (.node node) ebLeft)
  let m := m.setB (.node parent) ebRght (m.b (.node node) ebRght)
  let m := m.setBit parent (m.bit node)
  let gparent ← (m.nodeP parent).root
  let m := m.setB gparent (m.nodeP parent).tag (ebDotag (.node parent) ebNode)
  let m ← adopt m parent ebLeft
  adopt m parent ebRght

/-- `__eb_delete` -/
def ebDelete (m : Mem) (node : Nat) : Option Mem :=
  if m.leafP node = null then some m
  else do
    let pside := (m.leafP node).tag
    let parent ← (m.leafP node).root
    if (m.b parent ebRght).root = none then
      -- just below the root
      let m := m.setB parent ebLeft null
      pure (m.setLeafP node null)
    else
      let parent ← (m.leafP node).entry
      let m ← liftSibling m parent pside
      if m.nodeP node = null then pure (m.setLeafP node null)
      else
        let m ← takeOver m parent node
        pure (m.setLeafP node null)

end ZeroServ.Ebtree
