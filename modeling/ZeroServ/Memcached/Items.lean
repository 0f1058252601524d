import Mathlib.Logic.Function.Basic
import ZeroServ.Lib.CInt
import ZeroServ.Lib.Decimal
import ZeroServ.Lib.Heap

/-!
# The item store of the memcached handler

The statics of `assoc.c` and `items.c`, the statistics they keep, and their functions on a heap of items, with
`do_store_item` of `memcached.c`. A function that reads or writes through a pointer fails with `Fault.corrupt` where
nothing is allocated, as it does where an assertion of the source fails; only the assertion on the size of a linked
item has a fault of its own. A walk along a hash chain may take as many steps as there are items, and fails when it
takes more.

What comes from outside is a parameter: the clock (`now`), whether `calloc` grants the larger table, and what
`zmalloc` returns, with the bytes it finds there. `nkey`, `nsuffix` and `nbytes` are the lengths of the bytes they
count.
-/

namespace ZeroServ.Mc

open CString Decimal

/-- An address of an item. -/
abbrev Ptr := Nat

/-- How a run of the store ends: at `assert(it->nbytes < (1024 * 1024))`, or in a state the code takes not to be. -/
inductive Fault where
  | tooLarge | corrupt
  deriving DecidableEq, Repr

/-- `struct _stritem`, with the key, the suffix and the data that follow it in memory; the flags are the bits of
`it_flags`. -/
structure Item where
  next : Option Ptr
  prev : Option Ptr
  hNext : Option Ptr
  time : UInt32
  exptime : UInt32
  /-- an `unsigned short` -/
  refcount : Nat
  linked : Bool
  deleted : Bool
  key : List UInt8
  suffix : List UInt8
  data : List UInt8
  deriving DecidableEq, Repr

namespace Item

def nkey (x : Item) : Nat := x.key.length
def nsuffix (x : Item) : Nat := x.suffix.length
def nbytes (x : Item) : Nat := x.data.length

/-- `ITEM_ntotal`; the struct has 56 bytes. -/
def ntotal (x : Item) : Nat := 56 + x.nkey + 1 + x.nsuffix + x.nbytes

end Item

/-- The statics of `items.c`: the list of the linked items, the latest first. -/
structure Lru where
  heads : Option Ptr
  tails : Option Ptr
  sizes : UInt32

/-- The statics of `assoc.c`. -/
structure Assoc where
  hashpower : Nat
  primaryHashtable : Nat → Option Ptr
  oldHashtable : Nat → Option Ptr
  hashItems : UInt32
  expanding : Bool
  expandBucket : Nat

/-- What `struct stats` counts of the items. -/
structure Stats where
  currItems : UInt32
  totalItems : UInt32
  currBytes : UInt64

structure Store where
  heap : Heap Item
  lru : Lru
  assoc : Assoc
  stats : Stats
  /-- `settings.oldest_live` -/
  oldestLive : UInt32

/-- The store when the handler registers itself (`item_init`, `assoc_init`). -/
def Store.init : Store where
  heap := { cells := [] }
  lru := { heads := none, tails := none, sizes := 0 }
  assoc :=
    { hashpower := 16, primaryHashtable := fun _ => none, oldHashtable := fun _ => none, hashItems := 0,
      expanding := false,
      expandBucket := 0 }
  stats := { currItems := 0, totalItems := 0, currBytes := 0 }
  oldestLive := 0

/-- `assert` -/
def check (b : Bool) : Except Fault Unit := if b then .ok () else .error .corrupt

namespace Store

variable (s : Store)

/-- The item a pointer points at. -/
def deref (p : Ptr) : Except Fault Item :=
  match s.heap.get p with
  | some x => .ok x
  | none => .error .corrupt

def modify (p : Ptr) (f : Item → Item) : Store := { s with heap := s.heap.modify p f }

/-- Write through a pointer. -/
def write (p : Ptr) (f : Item → Item) : Except Fault Store := do
  let _ ← s.deref p
  pure (s.modify p f)

/-- Write through a pointer unless it is NULL. -/
def writeAt : Option Ptr → (Item → Item) → Except Fault Store
  | some p, f => s.write p f
  | none, _ => pure s

end Store

/-! ## `assoc.c` -/

section assoc

variable (hash : List UInt8 → UInt32)

def hashsize (n : Nat) : Nat := 2 ^ n

/-- A bucket of one of the two tables. -/
inductive Slot where
  | primary (bucket : Nat)
  | old (bucket : Nat)
  deriving DecidableEq, Repr

/-- The bucket a key belongs to: the one of the old table while an expansion has not moved it. -/
def Assoc.slot (a : Assoc) (key : List UInt8) : Slot :=
  let hv := (hash key).toNat
  let oldbucket := hv % hashsize (a.hashpower - 1)
  if a.expanding && a.expandBucket ≤ oldbucket then .old oldbucket else .primary (hv % hashsize a.hashpower)

def Assoc.head (a : Assoc) : Slot → Option Ptr
  | .primary b => a.primaryHashtable b
  | .old b => a.oldHashtable b

def Assoc.setHead (a : Assoc) (p : Option Ptr) : Slot → Assoc
  | .primary b => { a with primaryHashtable := Function.update a.primaryHashtable b p }
  | .old b => { a with oldHashtable := Function.update a.oldHashtable b p }

/-- The walk of `assoc_find` and `_hashitem_before` along a chain, up to the item with the key: the item before it
and itself. -/
def seek (s : Store) (key : List UInt8) : Nat → Option Ptr → Option Ptr → Except Fault (Option Ptr × Option Ptr)
  | _, before, none => .ok (before, none)
  | 0, _, some _ => .error .corrupt
  | n + 1, before, some p => do
    let x ← s.deref p
    if x.key = key then pure (before, some p) else seek s key n (some p) x.hNext

/-- `_hashitem_before` -/
def hashitemBefore (s : Store) (key : List UInt8) : Except Fault (Option Ptr × Option Ptr) :=
  seek s key s.heap.count none (s.assoc.head (s.assoc.slot hash key))

/-- `assoc_find` -/
def assocFind (s : Store) (key : List UInt8) : Except Fault (Option Ptr) := do
  let r ← hashitemBefore hash s key
  pure r.2

/-- The loop of `do_assoc_move_next_bucket` along a chain of the old table. -/
def moveChain (s : Store) : Nat → Option Ptr → Except Fault Store
  | _, none => .ok s
  | 0, some _ => .error .corrupt
  | n + 1, some p => do
    let x ← s.deref p
    let bucket := (hash x.key).toNat % hashsize s.assoc.hashpower
    let s ← s.write p fun y => { y with hNext := s.assoc.primaryHashtable bucket }
    moveChain { s with assoc := s.assoc.setHead (some p) (.primary bucket) } n x.hNext

/-- `do_assoc_move_next_bucket` -/
def doAssocMoveNextBucket (s : Store) : Except Fault Store :=
  if s.assoc.expanding then do
    let s ← moveChain hash s s.heap.count (s.assoc.oldHashtable s.assoc.expandBucket)
    let a := s.assoc.setHead none (.old s.assoc.expandBucket)
    let bucket := a.expandBucket + 1
    pure { s with assoc := { a with expandBucket := bucket, expanding := bucket ≠ hashsize (a.hashpower - 1) } }
  else pure s

/-- `assoc_expand`; `granted` says whether `calloc` gives the larger table. -/
def assocExpand (s : Store) (granted : Bool) : Except Fault Store :=
  let a := { s.assoc with oldHashtable := s.assoc.primaryHashtable }
  if granted then
    doAssocMoveNextBucket hash
      { s with
        assoc :=
          { a with
            hashpower := a.hashpower + 1, primaryHashtable := fun _ => none, expanding := true, expandBucket := 0 } }
  else pure { s with assoc := a }

/-- `assoc_insert` -/
def assocInsert (s : Store) (it : Ptr) (granted : Bool) : Except Fault Store := do
  let x ← s.deref it
  let b := s.assoc.slot hash x.key
  let s ← s.write it fun y => { y with hNext := s.assoc.head b }
  let a := s.assoc.setHead (some it) b
  let a := { a with hashItems := a.hashItems + 1 }
  let s := { s with assoc := a }
  if !a.expanding && a.hashItems.toNat > hashsize a.hashpower * 3 / 2 then assocExpand hash s granted else pure s

/-- `assoc_delete` -/
def assocDelete (s : Store) (key : List UInt8) : Except Fault Store := do
  let r ← hashitemBefore hash s key
  match r with
  | (_, none) => .error .corrupt
  | (before, some p) =>
    let x ← s.deref p
    let s := { s with assoc := { s.assoc with hashItems := s.assoc.hashItems - 1 } }
    let s ← s.write p fun y => { y with hNext := none }
    match before with
    | some q => s.write q fun y => { y with hNext := x.hNext }
    | none => pure { s with assoc := s.assoc.setHead x.hNext (s.assoc.slot hash key) }

end assoc

/-! ## `items.c` -/

section items

variable (hash : List UInt8 → UInt32)

def ITEM_UPDATE_INTERVAL : UInt32 := 60

/-- The suffix `item_make_header` prints: " %d %d\r\n", no longer than its buffer of 40 bytes. -/
def itemSuffix (flags : Int) (nbytes : Nat) : List UInt8 :=
  32 :: (intText flags ++ 32 :: (intText (nbytes - 2) ++ [13, 10]))

/-- `do_item_alloc`, where `mem` is what `zmalloc` returned in the end and `found` what the memory holds. A count of
bytes beyond the `int` it is given as has wrapped to a negative one, for which `zmalloc` is asked for more than it
has. -/
def doItemAlloc (s : Store) (key : List UInt8) (flags : Int) (exptime : UInt32) (nbytes : Nat) (mem : Option Ptr)
    (found : Nat → UInt8) : Store × Option Ptr :=
  match if nbytes < 2 ^ 31 then mem else none with
  | none => (s, none)
  | some p =>
    let x : Item :=
      { next := none, prev := none, hNext := none, time := 0, exptime, refcount := 1, linked := false,
        deleted := false, key,
        suffix := itemSuffix flags nbytes, data := (List.range nbytes).map found }
    ({ s with heap := s.heap.alloc p x }, some p)

/-- `item_free` -/
def itemFree (s : Store) (it : Ptr) : Except Fault Store := do
  let x ← s.deref it
  check !x.linked
  check (x.refcount = 0)
  pure { s with heap := s.heap.free it }

/-- `item_link_q` -/
def itemLinkQ (s : Store) (it : Ptr) : Except Fault Store := do
  check (s.lru.heads ≠ some it)
  check (s.lru.heads.isSome = s.lru.tails.isSome)
  let s ← s.write it fun y => { y with prev := none, next := s.lru.heads }
  let s ← s.writeAt s.lru.heads fun y => { y with prev := some it }
  pure { s with lru := { heads := some it, tails := s.lru.tails.or (some it), sizes := s.lru.sizes + 1 } }

/-- `item_unlink_q` -/
def itemUnlinkQ (s : Store) (it : Ptr) : Except Fault Store := do
  let x ← s.deref it
  check (s.lru.heads = some it → x.prev = none)
  check (s.lru.tails = some it → x.next = none)
  check (x.next ≠ some it)
  check (x.prev ≠ some it)
  let lru : Lru :=
    { heads := if s.lru.heads = some it then x.next else s.lru.heads
      tails := if s.lru.tails = some it then x.prev else s.lru.tails
      sizes := s.lru.sizes - 1 }
  let s ← s.writeAt x.next fun y => { y with prev := x.prev }
  let s ← s.writeAt x.prev fun y => { y with next := x.next }
  pure { s with lru }

/-- `do_item_link` -/
def doItemLink (s : Store) (it : Ptr) (now : UInt32) (granted : Bool) : Except Fault Store := do
  let x ← s.deref it
  if x.nbytes < 1024 * 1024 then
    let s ← s.write it fun y => { y with linked := true, time := now }
    let s ← assocInsert hash s it granted
    let stats : Stats :=
      { currBytes := s.stats.currBytes + UInt64.ofNat x.ntotal, currItems := s.stats.currItems + 1,
        totalItems := s.stats.totalItems + 1 }
    itemLinkQ { s with stats } it
  else .error .tooLarge

/-- `do_item_unlink` -/
def doItemUnlink (s : Store) (it : Ptr) : Except Fault Store := do
  let x ← s.deref it
  if x.linked then
    let s ← s.write it fun y => { y with linked := false }
    let stats :=
      { s.stats with
        currBytes := s.stats.currBytes - UInt64.ofNat x.ntotal, currItems := s.stats.currItems - 1 }
    let s ← assocDelete hash { s with stats } x.key
    let s ← itemUnlinkQ s it
    if x.refcount = 0 then itemFree s it else pure s
  else pure s

/-- `do_item_remove` -/
def doItemRemove (s : Store) (it : Ptr) : Except Fault Store := do
  let x ← s.deref it
  let refcount := x.refcount - 1
  let s ← s.write it fun y => { y with refcount }
  check (!x.deleted || refcount ≠ 0)
  if refcount = 0 && !x.linked then itemFree s it else pure s

/-- `do_item_update` -/
def doItemUpdate (s : Store) (it : Ptr) (now : UInt32) : Except Fault Store := do
  let x ← s.deref it
  if x.time < now - ITEM_UPDATE_INTERVAL && x.linked then
    let s ← itemUnlinkQ s it
    let s ← s.write it fun y => { y with time := now }
    itemLinkQ s it
  else pure s

/-- `do_item_replace` -/
def doItemReplace (s : Store) (it newIt : Ptr) (now : UInt32) (granted : Bool) : Except Fault Store := do
  let s ← doItemUnlink hash s it
  doItemLink hash s newIt now granted

/-- One more reference to an item. -/
def Store.refer (s : Store) (it : Ptr) : Except Fault Store :=
  s.write it fun y => { y with refcount := (y.refcount + 1) % 65536 }

/-- `do_item_get_notedeleted`: the item and `delete_locked`. The lock of a deleted item is never over
(`item_delete_lock_over`). -/
def doItemGetNotedeleted (s : Store) (key : List UInt8) (now : UInt32) : Except Fault (Store × Option Ptr × Bool) := do
  match ← assocFind hash s key with
  | none => pure (s, none, false)
  | some it =>
    let x ← s.deref it
    if x.deleted then pure (s, none, true)
    else if s.oldestLive ≠ 0 && s.oldestLive ≤ now && x.time ≤ s.oldestLive then
      pure (← doItemUnlink hash s it, none, false)
    else if x.exptime ≠ 0 && x.exptime ≤ now then pure (← doItemUnlink hash s it, none, false)
    else pure (← s.refer it, some it, false)

/-- `item_get` -/
def itemGet (s : Store) (key : List UInt8) (now : UInt32) : Except Fault (Store × Option Ptr) := do
  let (s, it, _) ← doItemGetNotedeleted hash s key now
  pure (s, it)

/-- `do_item_get_nocheck` -/
def doItemGetNocheck (s : Store) (key : List UInt8) : Except Fault (Store × Option Ptr) := do
  match ← assocFind hash s key with
  | none => pure (s, none)
  | some it => pure (← s.refer it, some it)

end items

/-! ## `do_store_item` -/

/-- The update commands, `NREAD_ADD` to `NREAD_PREPEND`; none passes `NREAD_CAS`. -/
inductive Comm where
  | add | set | replace | append | prepend
  deriving DecidableEq, Repr

/-- Bytes copied to an offset of an item's data. -/
def memcpyData (data : List UInt8) (ofs : Nat) (src : List UInt8) : Except Fault (List UInt8) :=
  if ofs + src.length ≤ data.length then .ok (data.take ofs ++ src ++ data.drop (ofs + src.length)) else .error .corrupt

/-- What the outside gives an update: the clock, the grant of a larger table, and the memory of the item that an
`append` or a `prepend` makes. -/
structure Env where
  now : UInt32
  granted : Bool
  mem : Option Ptr
  found : Nat → UInt8

section store

variable (hash : List UInt8 → UInt32)

/-- The item that `append` and `prepend` make of an item and the old one with its key; `none` when there is no
memory. -/
def joinItems (s : Store) (it oldIt : Ptr) (comm : Comm) (env : Env) : Except Fault (Store × Option Ptr) := do
  let x ← s.deref it
  let old ← s.deref oldIt
  let flags := CInt.int32 (strtol old.suffix)
  match doItemAlloc s x.key flags old.exptime (x.nbytes + old.nbytes - 2) env.mem env.found with
  | (s, none) => pure (s, none)
  | (s, some newIt) =>
    let new ← s.deref newIt
    let fst := if comm = .append then old else x
    let snd := if comm = .append then x else old
    let data ← memcpyData new.data 0 fst.data
    let data ← memcpyData data (fst.nbytes - 2) snd.data
    pure (← s.write newIt fun y => { y with data }, some newIt)

/-- `if (old_it != NULL) do_item_remove(old_it)` -/
def release (s : Store) : Option Ptr → Except Fault Store
  | some p => doItemRemove s p
  | none => pure s

/-- The end of `do_store_item` for an item that is stored: it replaces the old one, the hidden one where that is
delete-locked. -/
def linkOver (s : Store) (it : Ptr) (key : List UInt8) (oldIt : Option Ptr) (deleteLocked : Bool) (env : Env) :
    Except Fault Store := do
  let (s, oldIt) ← if deleteLocked then doItemGetNocheck hash s key else pure (s, oldIt)
  let s ←
    match oldIt with
    | some p => doItemReplace hash s p it env.now env.granted
    | none => doItemLink hash s it env.now env.granted
  release s oldIt

/-- `do_store_item`: whether the item was stored. -/
def doStoreItem (s : Store) (it : Ptr) (comm : Comm) (env : Env) : Except Fault (Store × Bool) := do
  let x ← s.deref it
  let (s, oldIt, deleteLocked) ← doItemGetNotedeleted hash s x.key env.now
  match comm, oldIt with
  | .add, some p =>
    let s ← doItemUpdate s p env.now
    pure (← doItemRemove s p, false)
  | .replace, none | .append, none | .prepend, none => pure (s, false)
  | _, _ =>
    if deleteLocked && comm ≠ .set then pure (← release s oldIt, false)
    else
      match comm, oldIt with
      | .append, some p | .prepend, some p =>
        match ← joinItems s it p comm env with
        | (s, none) => pure (← doItemRemove s p, false)
        | (s, some newIt) =>
          let s ← linkOver hash s newIt x.key oldIt deleteLocked env
          pure (← doItemRemove s newIt, true)
      | _, _ => pure (← linkOver hash s it x.key oldIt deleteLocked env, true)

end store

end ZeroServ.Mc
