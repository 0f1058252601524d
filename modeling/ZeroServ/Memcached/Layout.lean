import ZeroServ.Memcached.Commands
import ZeroServ.Memcached.StoreItem

/-!
# The layout of an item

`do_item_alloc` byte by byte: the sizes pass through the `uint8_t` parameter and fields, the suffix through a buffer
of 40 bytes, and the macros of `items.h` place what follows the struct. `item_laid_out`: for every key that a command
may have, all flags and every length, the block has the size that `ITEM_ntotal` counts, and the struct, the key with
its NUL, the suffix and the data fill it one after the other. So the bytes behind the struct are those that `Item`
has as lists.
-/

namespace ZeroServ.Mc.Layout

open CString Decimal

/-- `sizeof (item)`, where `end` begins. -/
def ITEM_SIZE : Nat := 56

/-- What `do_item_alloc` allocated: all its bytes, and the counts in the struct at their start. -/
structure Block where
  nkey : UInt8
  nsuffix : UInt8
  nbytes : Int
  mem : Mem

namespace Block

def ITEM_key (_ : Block) : Nat := ITEM_SIZE

variable (it : Block)

def ITEM_suffix : Nat := ITEM_SIZE + it.nkey.toNat + 1
def ITEM_data : Nat := ITEM_SIZE + it.nkey.toNat + 1 + it.nsuffix.toNat

/-- `ITEM_ntotal`, a `size_t`. -/
def ITEM_ntotal : Nat := CInt.sizeT (ITEM_SIZE + it.nkey.toNat + 1 + it.nsuffix.toNat + it.nbytes)

/-- `n` bytes from an offset on. -/
def bytes (ofs n : Nat) : List UInt8 := (it.mem.drop ofs).take n

/-- `strcpy` and `memcpy` to an offset, within the block. -/
def copy (ofs : Nat) (bs : List UInt8) : Option Block :=
  if ofs + bs.length ≤ it.mem.length then some { it with mem := memcpy it.mem ofs bs } else none

end Block

/-- `item_make_header`: its 40 bytes of suffix, `found` before, the length of the suffix, and the size it returns. -/
def itemMakeHeader (nkey : UInt8) (flags nbytes : Int) (found : Mem) : Mem × UInt8 × Nat :=
  let text := 32 :: (intText flags ++ 32 :: (intText (nbytes - 2) ++ crlf))
  let nsuffix := UInt8.ofNat text.length
  (memcpy found 0 (text.take 39 ++ [0]), nsuffix, CInt.sizeT (ITEM_SIZE + nkey.toNat + nsuffix.toNat + nbytes))

/-- `do_item_alloc`, where there is memory, with what it finds there and on the stack; `none` where it writes
outside. -/
def doItemAlloc (key : Mem) (nkey : Nat) (flags nbytes : Int) (found : Nat → UInt8) (stack : Mem) : Option Block := do
  let (suffix, nsuffix, ntotal) := itemMakeHeader (UInt8.ofNat (nkey + 1)) flags nbytes stack
  let it : Block := { nkey := UInt8.ofNat nkey, nsuffix := found 38, nbytes, mem := (List.range ntotal).map found }
  let it ← it.copy it.ITEM_key (cstr key ++ [0])
  let it ← it.copy it.ITEM_suffix (suffix.take nsuffix.toNat)
  pure { it with nsuffix }

/-- The struct, the key with its NUL, the suffix and the data fill the block one after the other. -/
structure LaidOut (key suffix data : List UInt8) (it : Block) : Prop where
  size : it.mem.length = it.ITEM_ntotal
  nkey : it.nkey.toNat = key.length
  nsuffix : it.nsuffix.toNat = suffix.length
  nbytes : it.nbytes = data.length
  suffixAt : it.ITEM_suffix = it.ITEM_key + (key ++ [0]).length
  dataAt : it.ITEM_data = it.ITEM_suffix + suffix.length
  ends : it.ITEM_data + data.length = it.ITEM_ntotal
  keyBytes : it.bytes it.ITEM_key (it.nkey.toNat + 1) = key ++ [0]
  suffixBytes : it.bytes it.ITEM_suffix it.nsuffix.toNat = suffix
  dataBytes : it.bytes it.ITEM_data it.nbytes.toNat = data
  /-- what `process_get_command` sends -/
  sent : it.bytes it.ITEM_suffix (it.nsuffix.toNat + it.nbytes.toNat) = suffix ++ data

variable {key suffix data : List UInt8} {flags nbytes : Int} {found : Nat → UInt8} {stack : Mem} {it : Block}

/-- A block that is a struct and what follows it. -/
theorem laidOut_of_mem {struct : List UInt8} (hmem : it.mem = struct ++ (key ++ [0]) ++ suffix ++ data)
    (hstruct : struct.length = ITEM_SIZE)
    (hkey : it.nkey.toNat = key.length) (hsuffix : it.nsuffix.toNat = suffix.length) (hdata : it.nbytes = data.length)
    (hlen : data.length < 2 ^ 31) : LaidOut key suffix data it := by
  have hk := it.nkey.toNat_lt
  have hs := it.nsuffix.toNat_lt
  have htotal : it.ITEM_ntotal = ITEM_SIZE + key.length + 1 + suffix.length + data.length := by
    rw [Block.ITEM_ntotal, hdata, hkey, hsuffix, CInt.sizeT_of_nonneg (by omega) (by simp only [ITEM_SIZE]; omega)]
    omega
  have hsuffixAt : it.ITEM_suffix = (struct ++ (key ++ [0])).length := by
    rw [Block.ITEM_suffix, hkey, List.length_append, List.length_append, hstruct, List.length_singleton, Nat.add_assoc]
  have hdataAt : it.ITEM_data = (struct ++ (key ++ [0]) ++ suffix).length := by
    rw [List.length_append, ← hsuffixAt, Block.ITEM_suffix, Block.ITEM_data, hsuffix]
  have hbytes : it.nbytes.toNat = data.length := by rw [hdata, Int.toNat_natCast]
  refine ⟨?_, hkey, hsuffix, hdata, ?_, ?_, ?_, ?_, ?_, ?_, ?_⟩
  · rw [htotal, hmem]
    simp only [List.length_append, hstruct, List.length_singleton, Nat.add_assoc]
  · rw [hsuffixAt, List.length_append, hstruct, Block.ITEM_key]
  · rw [hdataAt, hsuffixAt]
    exact List.length_append
  · rw [htotal, hdataAt]
    simp only [List.length_append, hstruct, List.length_singleton, Nat.add_assoc]
  · rw [Block.bytes, Block.ITEM_key, hmem, List.append_assoc, List.append_assoc, ← hstruct, List.drop_left, hkey]
    exact List.take_left' (by simp)
  · rw [Block.bytes, hsuffixAt, hmem, List.append_assoc (struct ++ (key ++ [0])), List.drop_left, hsuffix,
      List.take_left]
  · rw [Block.bytes, hdataAt, hmem, List.drop_left, hbytes, List.take_length]
  · rw [Block.bytes, hsuffixAt, hmem, List.append_assoc (struct ++ (key ++ [0])), List.drop_left, hsuffix, hbytes]
    exact List.take_of_length_le (by simp)

/-! ## Allocation -/

/-- The suffix leaves room in its 40 bytes, for all flags and every length. -/
theorem length_itemSuffix_le (hflo : -2 ^ 31 ≤ flags) (hfhi : flags < 2 ^ 31) {n : Nat} (hn : n < 2 ^ 31) :
    (itemSuffix flags n).length ≤ 26 := by
  have hflags := length_intText_le hflo hfhi
  have hlen : (intText (n - 2)).length ≤ 11 := length_intText_le (by omega) (by omega)
  simp only [itemSuffix, List.length_cons, List.length_append, List.length_nil]
  omega

/-- What `item_make_header` makes: the suffix is whole, its length is not truncated, and the size is that of the
struct and what follows it. -/
theorem itemMakeHeader_eq (stack : Mem) (nkey : UInt8) (hflo : -2 ^ 31 ≤ flags) (hfhi : flags < 2 ^ 31)
    (hlo : 2 ≤ nbytes) (hhi : nbytes < 2 ^ 31) :
    ∃ buf nsuffix, itemMakeHeader nkey flags nbytes stack =
        (buf, nsuffix, ITEM_SIZE + nkey.toNat + (itemSuffix flags nbytes.toNat).length + nbytes.toNat) ∧
      nsuffix.toNat = (itemSuffix flags nbytes.toNat).length ∧
      buf.take nsuffix.toNat = itemSuffix flags nbytes.toNat := by
  have htext : 32 :: (intText flags ++ 32 :: (intText (nbytes - 2) ++ crlf)) = itemSuffix flags nbytes.toNat := by
    rw [itemSuffix, Int.toNat_of_nonneg (by omega)]
    rfl
  have hle := length_itemSuffix_le hflo hfhi (n := nbytes.toNat) (by omega)
  have hns : (UInt8.ofNat (itemSuffix flags nbytes.toNat).length).toNat = (itemSuffix flags nbytes.toNat).length := by
    rw [UInt8.toNat_ofNat', Nat.mod_eq_of_lt (by omega)]
  have hk := nkey.toNat_lt
  refine ⟨memcpy stack 0 (itemSuffix flags nbytes.toNat ++ [0]), UInt8.ofNat (itemSuffix flags nbytes.toNat).length,
    ?_, hns, ?_⟩
  · rw [itemMakeHeader, htext, List.take_of_length_le (by omega), hns,
      CInt.sizeT_of_nonneg (by omega) (by simp only [ITEM_SIZE]; omega)]
    congr 2
    omega
  · rw [hns, memcpy, List.take_zero, List.nil_append, List.append_assoc, List.take_left]

/-- Bytes behind what was written so far. -/
theorem copy_append (bs : List UInt8) {a t : List UInt8} {ofs : Nat} (hmem : it.mem = a ++ t) (hofs : ofs = a.length)
    (hle : bs.length ≤ t.length) :
    it.copy ofs bs = some { it with mem := a ++ bs ++ t.drop bs.length } := by
  have hfit : ofs + bs.length ≤ it.mem.length := by
    rw [hmem, hofs, List.length_append]
    omega
  rw [Block.copy, if_pos hfit, hmem, hofs, memcpy_append]

/-- The bytes found in memory, from an offset on. -/
theorem range_map_add (f : Nat → UInt8) (a b : Nat) :
    (List.range (a + b)).map f = (List.range a).map f ++ (List.range b).map fun i => f (a + i) := by
  rw [List.range_add, List.map_append, List.map_map]
  rfl

/-- The block that `do_item_alloc` leaves: behind the struct the key with its NUL, the suffix, and what it found in
place of the data. -/
theorem doItemAlloc_eq (found : Nat → UInt8) (stack rest : Mem) (hlen : key.length ≤ KEY_MAX_LENGTH)
    (h0 : (0 : UInt8) ∉ key) (hflo : -2 ^ 31 ≤ flags)
    (hfhi : flags < 2 ^ 31) (hlo : 2 ≤ nbytes) (hhi : nbytes < 2 ^ 31) :
    ∃ it, doItemAlloc (key ++ 0 :: rest) key.length flags nbytes found stack = some it ∧
      it.mem = (List.range ITEM_SIZE).map found ++ (key ++ [0]) ++ itemSuffix flags nbytes.toNat ++
        (List.range nbytes.toNat).map (fun i => found (it.ITEM_data + i)) ∧
      it.nkey.toNat = key.length ∧ it.nsuffix.toNat = (itemSuffix flags nbytes.toNat).length ∧ it.nbytes = nbytes := by
  obtain ⟨buf, nsuffix, hhead, hns, hbuf⟩ :=
    itemMakeHeader_eq stack (UInt8.ofNat (key.length + 1)) hflo hfhi hlo hhi
  have hmax : key.length ≤ 250 := hlen
  have hkey : (UInt8.ofNat key.length).toNat = key.length := by rw [UInt8.toNat_ofNat', Nat.mod_eq_of_lt (by omega)]
  have hkey' : (UInt8.ofNat (key.length + 1)).toNat = key.length + 1 := by
    rw [UInt8.toNat_ofNat', Nat.mod_eq_of_lt (by omega)]
  generalize hsuf : itemSuffix flags nbytes.toNat = suffix at *
  -- the memory as it was found, cut where the writes will be
  have hmem : (List.range (ITEM_SIZE + (UInt8.ofNat (key.length + 1)).toNat + suffix.length + nbytes.toNat)).map found =
      (List.range ITEM_SIZE).map found ++ ((List.range (key.length + 1)).map (fun i => found (ITEM_SIZE + i)) ++
        ((List.range suffix.length).map (fun i => found (ITEM_SIZE + (key.length + 1) + i)) ++
          (List.range nbytes.toNat).map fun i => found (ITEM_SIZE + (key.length + 1) + suffix.length + i))) := by
    rw [hkey', range_map_add, range_map_add, range_map_add, List.append_assoc, List.append_assoc]
  have hdata : ∀ i, found (ITEM_SIZE + (key.length + 1) + suffix.length + i) =
      found (ITEM_SIZE + (UInt8.ofNat key.length).toNat + 1 + nsuffix.toNat + i) := fun i => by
    rw [hkey, hns, Nat.add_assoc ITEM_SIZE key.length 1]
  simp only [hdata] at hmem
  have hstruct : ((List.range ITEM_SIZE).map found).length = ITEM_SIZE := by simp
  have hkeyRoom : ((List.range (key.length + 1)).map fun i => found (ITEM_SIZE + i)).length =
    (key ++ [0]).length := by simp
  have hsufRoom : ((List.range suffix.length).map fun i => found (ITEM_SIZE + (key.length + 1) + i)).length =
    suffix.length := by simp
  generalize (List.range ITEM_SIZE).map found = struct at hmem hstruct ⊢
  generalize (List.range (key.length + 1)).map (fun i => found (ITEM_SIZE + i)) = keyRoom at hmem hkeyRoom
  generalize (List.range suffix.length).map (fun i => found (ITEM_SIZE + (key.length + 1) + i)) =
    sufRoom at hmem hsufRoom
  generalize hdataRoom : (List.range nbytes.toNat).map (fun i => found
    (ITEM_SIZE + (UInt8.ofNat key.length).toNat + 1 + nsuffix.toNat + i)) = dataRoom at hmem
  have hcopyKey : (Block.mk (UInt8.ofNat key.length) (found 38) nbytes
      (struct ++ (keyRoom ++ (sufRoom ++ dataRoom)))).copy ITEM_SIZE
      (key ++ [0]) = some ⟨UInt8.ofNat key.length, found 38, nbytes,
      struct ++ (key ++ [0]) ++ (sufRoom ++ dataRoom)⟩ := by
    rw [copy_append _ rfl hstruct.symm (by simp only [List.length_append] at hkeyRoom ⊢; omega), ← hkeyRoom,
      List.drop_left]
  have hcopySuffix : (Block.mk (UInt8.ofNat key.length) (found 38) nbytes
      (struct ++ (key ++ [0]) ++ (sufRoom ++ dataRoom))).copy (ITEM_SIZE + key.length + 1) suffix =
        some ⟨UInt8.ofNat key.length, found 38, nbytes, struct ++ (key ++ [0]) ++ suffix ++ dataRoom⟩ := by
    rw [copy_append _ rfl (by simp [hstruct, Nat.add_assoc]) (by simp only [List.length_append]; omega), ← hsufRoom,
      List.drop_left]
  refine ⟨⟨UInt8.ofNat key.length, nsuffix, nbytes, struct ++ (key ++ [0]) ++ suffix ++ dataRoom⟩, ?_, ?_,
    hkey, hns, rfl⟩
  · rw [doItemAlloc, hhead]
    dsimp only [Block.ITEM_key, Block.ITEM_suffix]
    rw [hmem, cstr_append_nul h0, hcopyKey]
    change (Block.copy _ (ITEM_SIZE + (UInt8.ofNat key.length).toNat + 1) (buf.take nsuffix.toNat) >>= _) = _
    rw [hkey, hbuf, hcopySuffix]
    rfl
  · rw [← hdataRoom]
    rfl

/-- For every key a command may have, all flags and every length: the allocation has the size of `ITEM_ntotal`, and
the struct, the key with its NUL, the suffix " flags length" and the data fill it in this order, before the data are
copied there and afterwards. -/
theorem item_laid_out (key rest : List UInt8) (flags nbytes : Int) (found : Nat → UInt8) (stack : Mem)
    (hlen : key.length ≤ KEY_MAX_LENGTH) (h0 : (0 : UInt8) ∉ key) (hflo : -2 ^ 31 ≤ flags) (hfhi : flags < 2 ^ 31)
    (hlo : 2 ≤ nbytes) (hhi : nbytes < 2 ^ 31) :
    ∃ it x, doItemAlloc (key ++ 0 :: rest) key.length flags nbytes found stack = some it ∧
      x = newItem key flags 0 nbytes.toNat (fun i => found (it.ITEM_data + i)) ∧ it.ITEM_ntotal = x.ntotal ∧
      LaidOut x.key x.suffix x.data it ∧
      ∀ data : List UInt8, data.length = nbytes →
        ∃ it', it.copy it.ITEM_data data = some it' ∧ LaidOut x.key x.suffix data it' := by
  obtain ⟨it, hrun, hmem, hkey, hsuffix, hbytes⟩ := doItemAlloc_eq found stack rest hlen h0 hflo hfhi hlo hhi
  have hstruct : ((List.range ITEM_SIZE).map found).length = ITEM_SIZE := by simp
  have hroom : ((List.range nbytes.toNat).map fun i => found (it.ITEM_data + i)).length = nbytes := by
    rw [List.length_map, List.length_range, Int.toNat_of_nonneg (by omega)]
  have hlaid : LaidOut key (itemSuffix flags nbytes.toNat)
      ((List.range nbytes.toNat).map fun i => found (it.ITEM_data + i)) it :=
    laidOut_of_mem hmem hstruct hkey hsuffix (by rw [hbytes, hroom]) (by simp; omega)
  refine ⟨it, _, hrun, rfl, ?_, hlaid, ?_⟩
  · rw [← hlaid.ends, hlaid.dataAt, hlaid.suffixAt]
    simp only [Item.ntotal, Item.nkey, Item.nsuffix, Item.nbytes, newItem, Block.ITEM_key, ITEM_SIZE,
      List.length_append, List.length_singleton]
    omega
  · intro data hdata
    have hofs : it.ITEM_data = ((List.range ITEM_SIZE).map found ++ (key ++ [0]) ++
        itemSuffix flags nbytes.toNat).length := by
      simp only [hlaid.dataAt, hlaid.suffixAt, Block.ITEM_key, List.length_append, hstruct]
    have hcopy := copy_append data hmem hofs (by omega)
    refine ⟨_, hcopy, laidOut_of_mem ?_ hstruct hkey hsuffix (by rw [hdata]; exact hbytes) (by omega)⟩
    dsimp only
    rw [List.drop_of_length_le (by omega), List.append_nil]
    rfl

/-- A key of three bytes, flags 7 and a value of one byte. -/
theorem item_laid_out_small :
    ∃ it x, doItemAlloc (lit "abc" ++ [0]) 3 7 3 (fun _ => 0) [] = some it ∧
      x = newItem (lit "abc") 7 0 3 (fun _ => 0) ∧ it.ITEM_ntotal = x.ntotal ∧ LaidOut x.key x.suffix x.data it ∧
      ∀ data : List UInt8, (data.length : Int) = 3 →
      ∃ it', it.copy it.ITEM_data data = some it' ∧ LaidOut x.key x.suffix data it' :=
  item_laid_out (lit "abc") [] 7 3 (fun _ => 0) [] (by decide) (by decide) (by decide) (by decide)
    (by decide) (by decide)

end ZeroServ.Mc.Layout
