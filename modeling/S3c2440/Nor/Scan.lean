import S3c2440.Nor.Chip
import S3c2440.Console.Hex

/-!
# Scanning the NOR flash

`do_scan_nor_flash` of `bare_board/code/I2c/20200510_IIC/nor_flash.c` asks the chip who it is and
what it consists of, and prints where each of its blocks begins.

## The chip

Its ids are read after three writes, and its CFI table after one; F0h makes it give out its words
again. The table has, from 2Ch on, how many regions there are, and for each of them four bytes: how
many blocks it has, less one, and how large they are, in units of 256 bytes, the lower byte first
each time. What else there is in it (the text at 10h, the exponent of the size at 27h) may be
anything.

An `int` is a word here; none of those that are compared gets to `2 ^ 31`. A shift takes the low
byte of its count, and gives 0 from 32 on, as on this machine.

## What is proved

* `printBlocks_eq`, `printRegions_eq` — what the two loops print, from any address on.
* `scan_lists` — a scan prints the beginnings of the blocks, one behind the other.
-/

namespace S3c2440.Nor.Cfi

open Console

/-! ### The chip -/

/-- An erase block region. -/
structure Region where
  /-- How many blocks there are, less one. -/
  blocks : BitVec 16
  /-- The size of each, in units of 256 bytes. -/
  size : BitVec 16

/-- How many blocks there are. -/
def Region.count (r : Region) : ℕ := 1 + r.blocks.toNat

/-- The size of each of them. -/
def Region.blockSize (r : Region) : ℕ := 256 * r.size.toNat

/-- The four bytes. -/
def Region.bytes (r : Region) : List (BitVec 8) :=
  [r.blocks.setWidth 8, r.blocks.extractLsb' 8 8, r.size.setWidth 8, r.size.extractLsb' 8 8]

/-- The sizes of the blocks of some regions, one after the other. -/
def sizesOf (rs : List Region) : List ℕ :=
  rs.flatMap fun r => List.replicate r.count r.blockSize

/-- The CFI table. -/
structure Table where
  /-- The regions. -/
  regions : List Region
  /-- There is one. -/
  ne_nil : regions ≠ []
  /-- Their number is a byte. -/
  length_lt : regions.length < 2 ^ 8
  /-- There are less than `2 ^ 31` bytes in them. -/
  sum_lt : (sizesOf regions).sum < 2 ^ 31

/-- What is up to the chip. -/
structure Device where
  /-- Its words. -/
  words : BitVec 32 → BitVec 16
  /-- What it says it is. -/
  ids : BitVec 32 → BitVec 16
  /-- Its table. -/
  table : Table
  /-- What else can be read with the table. -/
  other : BitVec 32 → BitVec 16

/-- What the chip gives out. -/
inductive Mode where
  /-- Its words. -/
  | array
  /-- Its words; it has got AAh. -/
  | unlocking
  /-- Its words; it has got 55h. -/
  | unlocked
  /-- What it says it is. -/
  | autoselect
  /-- The table. -/
  | cfi
  deriving DecidableEq

/-- A write to the chip's address `offset`. -/
def Mode.write (mode : Mode) (offset : BitVec 32) (val : BitVec 16) : Mode :=
  match mode with
  | .array =>
    if offset = 0x555 ∧ val = 0xaa then .unlocking
    else if offset = 0x55 ∧ val = 0x98 then .cfi
    else .array
  | .unlocking => if offset = 0x2aa ∧ val = 0x55 then .unlocked else .array
  | .unlocked => if offset = 0x555 ∧ val = 0x90 then .autoselect else .array
  | .autoselect => if val = 0xf0 then .array else .autoselect
  | .cfi => if val = 0xf0 then .array else .cfi

/-- The table at the chip's address `offset`. -/
def Device.query (d : Device) (offset : BitVec 32) : BitVec 16 :=
  if offset = 0x2c then BitVec.ofNat 16 d.table.regions.length
  else if 0x2d ≤ offset.toNat then
    match (d.table.regions.flatMap Region.bytes)[offset.toNat - 0x2d]? with
    | some b => b.setWidth 16
    | none => d.other offset
  else d.other offset

/-- A read of the chip's address `offset`. -/
def Device.read (d : Device) (mode : Mode) (offset : BitVec 32) : BitVec 16 :=
  match mode with
  | .autoselect => d.ids offset
  | .cfi => d.query offset
  | _ => d.words offset

/-! ### The code -/

/-- `nor_write_word`. -/
def norWriteWord (mode : Mode) (base offset val : BitVec 32) : Mode :=
  mode.write (wordOffset (base + offset <<< 1)) (val.setWidth 16)

/-- `nor_cmd`. -/
def norCmd (mode : Mode) (offset cmd : BitVec 32) : Mode :=
  norWriteWord mode norFlashBase offset cmd

variable (d : Device)

/-- `nor_read_word`. -/
def norReadWord (mode : Mode) (base offset : BitVec 32) : BitVec 32 :=
  (d.read mode (wordOffset (base + offset <<< 1))).setWidth 32

/-- `nor_dat`. -/
def norDat (mode : Mode) (offset : BitVec 32) : BitVec 32 := norReadWord d mode norFlashBase offset

/-- The serial line, `block_addr` and `cnt`. -/
structure Scan where
  /-- The serial line. -/
  uart : Uart
  /-- `block_addr`. -/
  blockAddr : BitVec 32
  /-- `cnt`. -/
  cnt : ℕ

/-- The body of the inner loop. -/
def printBlock (blockSize : BitVec 32) (s : Scan) : Option Scan :=
  let u := putchar (printHex s.uart s.blockAddr) (ch ' ')
  let cnt := s.cnt + 1
  let blockAddr := s.blockAddr + blockSize
  if cnt % 5 = 0 then (u.printf "\n\r" []).map fun u => ⟨u, blockAddr, cnt⟩
  else some ⟨u, blockAddr, cnt⟩

/-- The inner loop, for `j` blocks. -/
def printBlocks (blockSize : BitVec 32) : ℕ → Scan → Option Scan
  | 0, s => some s
  | j + 1, s => (printBlock blockSize s).bind (printBlocks blockSize j)

/-- The outer loop, for `i` regions from `regionInfoBase` on. -/
def printRegions (mode : Mode) : ℕ → BitVec 32 → Scan → Option Scan
  | 0, _, s => some s
  | i + 1, regionInfoBase, s =>
    let blocks := 1#32 + norDat d mode regionInfoBase + norDat d mode (regionInfoBase + 1) <<< 8
    let blockSize :=
      256#32 * (norDat d mode (regionInfoBase + 2) + norDat d mode (regionInfoBase + 3) <<< 8)
    (printBlocks blockSize blocks.toNat s).bind (printRegions mode i (regionInfoBase + 4))

/-- `do_scan_nor_flash`. -/
def doScanNorFlash (u : Uart) (mode : Mode) : Option (Uart × Mode) := do
  let mode := norCmd mode 0x555 0xaa
  let mode := norCmd mode 0x2aa 0x55
  let mode := norCmd mode 0x555 0x90
  let vendor := norDat d mode 0
  let device := norDat d mode 1
  let mode := norCmd mode 0 0xf0
  let mode := norCmd mode 0x55 0x98
  let str := [(norDat d mode 0x10).setWidth 8, (norDat d mode 0x11).setWidth 8,
    (norDat d mode 0x12).setWidth 8]
  let u ← u.printf "str = %s\n\r" [.str str]
  let size := 1#32 <<< (norDat d mode 0x27 &&& 0xff)
  let u ← u.printf "vendor id = 0x%x, device id = 0x%x, nor size = 0x%x, %dM\n\r"
    [.word vendor, .word device, .word size, .word (size / (1024 * 1024))]
  let regions := norDat d mode 0x2c
  let u ← u.printf "Block/Sector start Address:\n\r" []
  let s ← printRegions d mode regions.toNat 0x2d ⟨u, 0, 0⟩
  let u ← s.uart.printf "\n\r" []
  return (u, norCmd mode 0 0xf0)

/-! ### The table -/

variable {d} {r : Region} {rs : List Region}

theorem wordOffset_base {o : BitVec 32} (h : o.toNat < 2 ^ 31) :
    wordOffset (norFlashBase + o <<< 1) = o := by
  apply BitVec.eq_of_toNat_eq
  rw [wordOffset, norFlashBase, show ∀ x : BitVec 32, 0 + x = x from BitVec.zero_add,
    BitVec.toNat_ushiftRight, BitVec.toNat_shiftLeft, Nat.shiftLeft_eq, Nat.shiftRight_eq_div_pow]
  omega

/-- A byte of the regions. -/
theorem norDat_table {o : ℕ} {b : BitVec 8} (ho : o < 2 ^ 30)
    (h : (d.table.regions.flatMap Region.bytes)[o]? = some b) :
    norDat d .cfi (BitVec.ofNat 32 (0x2d + o)) = (b.setWidth 16).setWidth 32 := by
  have hoffset : (BitVec.ofNat 32 (0x2d + o)).toNat = 0x2d + o := by
    rw [BitVec.toNat_ofNat]
    omega
  have hne : BitVec.ofNat 32 (0x2d + o) ≠ 0x2c := fun he => by
    have hnat : (BitVec.ofNat 32 (0x2d + o)).toNat = 0x2c := congrArg BitVec.toNat he
    omega
  rw [norDat, norReadWord, wordOffset_base (by omega), Device.read, Device.query, if_neg hne,
    if_pos (by omega), hoffset, Nat.add_sub_cancel_left, h]

/-- The two bytes of a number, put together again. -/
theorem two_bytes (v : BitVec 16) :
    ((v.setWidth 8).setWidth 16).setWidth 32 + ((v.extractLsb' 8 8).setWidth 16).setWidth 32 <<< 8 =
      v.setWidth 32 := by
  have hv := v.isLt
  apply BitVec.eq_of_toNat_eq
  simp only [BitVec.toNat_add, BitVec.toNat_setWidth, BitVec.toNat_shiftLeft,
    BitVec.extractLsb'_toNat, Nat.shiftLeft_eq, Nat.shiftRight_eq_div_pow]
  omega

theorem length_flatMap_bytes (rs : List Region) :
    (rs.flatMap Region.bytes).length = 4 * rs.length := by
  induction rs with
  | nil => rfl
  | cons r rs ih =>
    rw [List.flatMap_cons, List.length_append, ih, List.length_cons, Nat.mul_succ, Nat.add_comm]
    rfl

/-- Where the bytes of the next region are. -/
def infoBase (done : List Region) : BitVec 32 := BitVec.ofNat 32 (0x2d + 4 * done.length)

theorem infoBase_concat (done : List Region) (r : Region) :
    infoBase (done ++ [r]) = infoBase done + 4 := by
  rw [infoBase, infoBase, List.length_append, List.length_singleton, Nat.mul_succ, ← Nat.add_assoc,
    BitVec.ofNat_add]
  rfl

/-- A byte of a region, with `done` before it. -/
theorem norDat_region {done : List Region} (h : d.table.regions = done ++ r :: rs) (k : ℕ)
    {b : BitVec 8} (hb : r.bytes[k]? = some b) :
    norDat d .cfi (infoBase done + BitVec.ofNat 32 k) = (b.setWidth 16).setWidth 32 := by
  have hk : k < 4 := (List.getElem?_eq_some_iff.mp hb).1
  have hlen := d.table.length_lt
  rw [h, List.length_append] at hlen
  rw [infoBase, ← BitVec.ofNat_add, Nat.add_assoc]
  refine norDat_table (by omega) ?_
  have hdone := length_flatMap_bytes done
  rw [h, List.flatMap_append, List.flatMap_cons, List.getElem?_append_right (by omega), hdone,
    Nat.add_sub_cancel_left, List.getElem?_append_left hk, hb]

/-- How many blocks the region has, as it is read. -/
theorem blocks_eq {done : List Region} (h : d.table.regions = done ++ r :: rs) :
    (1#32 + norDat d .cfi (infoBase done) + norDat d .cfi (infoBase done + 1) <<< 8).toNat =
      r.count := by
  have h₀ := norDat_region h 0 rfl
  have h₁ := norDat_region h 1 rfl
  rw [show ∀ x : BitVec 32, x + BitVec.ofNat 32 0 = x from BitVec.add_zero] at h₀
  have hlt := r.blocks.isLt
  rw [h₀, show (1 : BitVec 32) = BitVec.ofNat 32 1 from rfl, h₁, BitVec.add_assoc, two_bytes,
    BitVec.toNat_add, BitVec.toNat_setWidth, BitVec.toNat_ofNat, Region.count]
  omega

/-- The size of each of them, as it is read. -/
theorem blockSize_eq {done : List Region} (h : d.table.regions = done ++ r :: rs) :
    256#32 * (norDat d .cfi (infoBase done + 2) + norDat d .cfi (infoBase done + 3) <<< 8) =
      BitVec.ofNat 32 r.blockSize := by
  have h₂ := norDat_region h 2 rfl
  have h₃ := norDat_region h 3 rfl
  rw [show (2 : BitVec 32) = BitVec.ofNat 32 2 from rfl, h₂,
    show (3 : BitVec 32) = BitVec.ofNat 32 3 from rfl, h₃, two_bytes, Region.blockSize,
    BitVec.ofNat_mul, BitVec.ofNat_toNat]

/-! ### The blocks -/

/-- Where blocks of these sizes begin, one behind the other from `a` on. -/
def addresses : BitVec 32 → List ℕ → List (BitVec 32)
  | _, [] => []
  | a, z :: zs => a :: addresses (a + BitVec.ofNat 32 z) zs

/-- What is printed of them, after `cnt` others: an end of line after each fifth. -/
def listing : ℕ → List (BitVec 32) → List (BitVec 8)
  | _, [] => []
  | cnt, a :: as =>
    hexText a ++ (ch ' ' :: if (cnt + 1) % 5 = 0 then text "\n\r" else []) ++ listing (cnt + 1) as

/-- After a block of size `z`. -/
def Scan.printed (s : Scan) (z : ℕ) : Scan where
  uart := { s.uart with output := s.uart.output ++ (hexText s.blockAddr ++
    (ch ' ' :: if (s.cnt + 1) % 5 = 0 then text "\n\r" else [])) }
  blockAddr := s.blockAddr + BitVec.ofNat 32 z
  cnt := s.cnt + 1

theorem printBlock_eq (s : Scan) (z : ℕ) :
    printBlock (BitVec.ofNat 32 z) s = some (s.printed z) := by
  have hplain : ∀ c ∈ text "\n\r", c ≠ ch '%' := forall_text (by decide)
  rw [printBlock, Scan.printed, printHex_eq]
  split
  · rw [Uart.printf_plain _ _ hplain]
    simp only [putchar, List.append_assoc, List.singleton_append, Option.map_some]
  · simp only [putchar, List.append_assoc]

/-- The blocks of a region. -/
theorem printBlocks_eq (s : Scan) (z j : ℕ) : printBlocks (BitVec.ofNat 32 z) j s =
    some ((List.replicate j z).foldl Scan.printed s) := by
  induction j generalizing s with
  | zero => rfl
  | succ j ih =>
    rw [printBlocks, printBlock_eq, Option.bind_some, ih]
    rfl

/-- The blocks of the regions that are left. -/
theorem printRegions_eq {done : List Region} (h : d.table.regions = done ++ rs) (s : Scan) :
    printRegions d .cfi rs.length (infoBase done) s =
      some ((sizesOf rs).foldl Scan.printed s) := by
  induction rs generalizing done s with
  | nil => rfl
  | cons r rs ih =>
    have hrest : d.table.regions = (done ++ [r]) ++ rs := by
      rw [h, List.append_assoc]
      rfl
    have hnext := ih hrest
    rw [infoBase_concat] at hnext
    rw [List.length_cons, printRegions, blocks_eq h, blockSize_eq h, printBlocks_eq,
      Option.bind_some, hnext, sizesOf, sizesOf, List.flatMap_cons, List.foldl_append]

/-- What has been printed. -/
theorem uart_foldl_printed (zs : List ℕ) (s : Scan) : (zs.foldl Scan.printed s).uart =
    { s.uart with
      output := s.uart.output ++ listing s.cnt (addresses s.blockAddr zs) } := by
  induction zs generalizing s with
  | nil =>
    rw [addresses, listing, List.append_nil]
    rfl
  | cons z zs ih =>
    rw [List.foldl_cons, ih, addresses, listing, Scan.printed]
    simp only [List.append_assoc]

/-! ### Where they begin -/

/-- The addresses of blocks of these sizes: as many as there are blocks, the first of them 0, each
as far from the next as the block is large, and the last one that far from the end. -/
structure Tiles (sizes : List ℕ) (addrs : List (BitVec 32)) : Prop where
  length : addrs.length = sizes.length
  first : addrs.head? = some 0
  next : ∀ k a b z, addrs[k]? = some a → addrs[k + 1]? = some b → sizes[k]? = some z →
    b.toNat = a.toNat + z
  last : ∀ a z, addrs.getLast? = some a → sizes.getLast? = some z → a.toNat + z = sizes.sum

variable {zs : List ℕ} {a b : BitVec 32} {k : ℕ}

theorem length_addresses (a : BitVec 32) (zs : List ℕ) : (addresses a zs).length = zs.length := by
  induction zs generalizing a with
  | nil => rfl
  | cons z zs ih => rw [addresses, List.length_cons, List.length_cons, ih]

/-- Behind all the blocks before. -/
theorem toNat_addresses (h : a.toNat + zs.sum < 2 ^ 32) (hb : (addresses a zs)[k]? = some b) :
    b.toNat = a.toNat + (zs.take k).sum := by
  induction zs generalizing a k with
  | nil => cases hb
  | cons z zs ih =>
    rw [List.sum_cons] at h
    cases k with
    | zero =>
      cases hb
      rfl
    | succ k =>
      have hnext : (a + BitVec.ofNat 32 z).toNat = a.toNat + z := by
        rw [BitVec.toNat_add, BitVec.toNat_ofNat]
        omega
      rw [ih (by omega) hb, hnext, List.take_succ_cons, List.sum_cons, Nat.add_assoc]

theorem sum_take_succ {z : ℕ} (hz : zs[k]? = some z) :
    (zs.take (k + 1)).sum = (zs.take k).sum + z := by
  rw [List.take_add_one, hz, List.sum_append, Option.toList_some, List.sum_singleton]

theorem tiles_addresses (hne : zs ≠ []) (h : zs.sum < 2 ^ 31) : Tiles zs (addresses 0 zs) := by
  have hnat : ∀ k b, (addresses 0 zs)[k]? = some b → b.toNat = (zs.take k).sum := fun k b hb =>
    (toNat_addresses (by show 0 + _ < _; omega) hb).trans (Nat.zero_add _)
  have hlen := length_addresses 0 zs
  refine ⟨hlen, ?_, fun k a b z ha hb hz => ?_, fun a z ha hz => ?_⟩
  · obtain ⟨z, zs, rfl⟩ := List.exists_cons_of_ne_nil hne
    rfl
  · rw [hnat k a ha, hnat (k + 1) b hb, sum_take_succ hz]
  · rw [List.getLast?_eq_getElem?] at ha hz
    have hpos := List.length_pos_of_ne_nil hne
    rw [hnat _ a ha, hlen, ← sum_take_succ hz, Nat.sub_add_cancel hpos, List.take_length]

theorem sizesOf_ne_nil (h : rs ≠ []) : sizesOf rs ≠ [] := by
  obtain ⟨r, rs, rfl⟩ := List.exists_cons_of_ne_nil h
  have hcount : r.count = r.blocks.toNat + 1 := Nat.add_comm 1 _
  rw [sizesOf, List.flatMap_cons, hcount, List.replicate_succ]
  exact List.cons_ne_nil _ _

/-! ### The whole scan -/

/-- A word as `%x` or `%d` prints it. -/
def wordText (base : Base) (v : BitVec 32) : List (BitVec 8) :=
  numberText base.val (ch ' ') 0 v.toInt

/-- The ids and the size. -/
def idsText (vendor device size : BitVec 32) : List (BitVec 8) :=
  text "vendor id = 0x" ++ wordText .sixteen vendor ++ (text ", device id = 0x" ++
    wordText .sixteen device ++ (text ", nor size = 0x" ++ wordText .sixteen size ++
      (text ", " ++ wordText .ten (size / (1024 * 1024)) ++ text "M\n\r")))

theorem uart_printf_ok (u : Uart) {fmt : String} {ap : List Arg} {s : List (BitVec 8)}
    (h : printf fmt ap = .ok s) : u.printf fmt ap = some { u with output := u.output ++ s } := by
  rw [Uart.printf, h]

theorem printf_ids (vendor device size : BitVec 32) :
    printf "vendor id = 0x%x, device id = 0x%x, nor size = 0x%x, %dM\n\r"
        [.word vendor, .word device, .word size, .word (size / (1024 * 1024))] =
      .ok (idsText vendor device size) := by
  have hfmt : text "vendor id = 0x%x, device id = 0x%x, nor size = 0x%x, %dM\n\r" =
      text "vendor id = 0x" ++ ch '%' :: ch 'x' :: (text ", device id = 0x" ++ ch '%' :: ch 'x' ::
        (text ", nor size = 0x" ++ ch '%' :: ch 'x' :: (text ", " ++ ch '%' :: ch 'd' ::
          text "M\n\r"))) := rfl
  have hx : ∀ {pre} post, (∀ c ∈ pre, c ≠ ch '%') → ∀ v ap,
      myVprintf (pre ++ ch '%' :: ch 'x' :: post) (.word v :: ap) =
        (myVprintf post ap).map (pre ++ wordText .sixteen v ++ ·) := fun _ hpre =>
    myVprintf_word .sixteen hpre (fun _ _ _ => rfl) (by decide) rfl
  have hd : ∀ {pre} post, (∀ c ∈ pre, c ≠ ch '%') → ∀ v ap,
      myVprintf (pre ++ ch '%' :: ch 'd' :: post) (.word v :: ap) =
        (myVprintf post ap).map (pre ++ wordText .ten v ++ ·) := fun _ hpre =>
    myVprintf_word .ten hpre (fun _ _ _ => rfl) (by decide) rfl
  have hend : myVprintf (text "M\n\r") [] = .ok (text "M\n\r") :=
    printf_plain [] (forall_text (by decide))
  rw [printf, hfmt, hx _ (forall_text (by decide)), hx _ (forall_text (by decide)),
    hx _ (forall_text (by decide)), hd _ (forall_text (by decide)), hend]
  rfl

theorem printf_str (s : List (BitVec 8)) :
    printf "str = %s\n\r" [.str s] = .ok (text "str = " ++ (outs s ++ text "\n\r")) := by
  have hfmt : text "str = %s\n\r" = text "str = " ++ ch '%' :: ch 's' :: text "\n\r" := rfl
  have hs : convert (ch 's') (ch ' ') 0 [.str s] = .ok (outs s, []) := rfl
  have hend : myVprintf (text "\n\r") [] = .ok (text "\n\r") :=
    printf_plain [] (forall_text (by decide))
  rw [printf, hfmt, myVprintf_append _ _ (forall_text (by decide)),
    myVprintf_percent (w := 0) (ch 's' :: text "\n\r") rfl hs, hend]
  rfl

/-- What is printed before the addresses. -/
def Device.header (d : Device) : List (BitVec 8) :=
  let str := [0x10, 0x11, 0x12].map fun offset => (norDat d .cfi offset).setWidth 8
  text "str = " ++ (outs str ++ text "\n\r") ++
    idsText (norDat d .autoselect 0) (norDat d .autoselect 1) (1#32 <<< (norDat d .cfi 0x27 &&& 0xff)) ++
      text "Block/Sector start Address:\n\r"

/-- How many regions there are, as it is read. -/
theorem regions_eq (d : Device) : (norDat d .cfi 0x2c).toNat = d.table.regions.length := by
  have hlen := d.table.length_lt
  have hoffset : wordOffset (norFlashBase + 0x2c#32 <<< 1) = 0x2c := by decide
  show (norDat d .cfi 0x2c#32).toNat = _
  rw [norDat, norReadWord, hoffset, Device.read, Device.query, if_pos rfl, BitVec.toNat_setWidth,
    BitVec.toNat_ofNat]
  omega

/-- A scan prints where the blocks of all the regions begin, and the chip gives out its words
again. -/
theorem scan_lists (d : Device) (u : Uart) : ∃ addrs, Tiles (sizesOf d.table.regions) addrs ∧
    doScanNorFlash d u .array = some ({ u with
      output := u.output ++ d.header ++ listing 0 addrs ++ text "\n\r" }, .array) := by
  refine ⟨_, tiles_addresses (sizesOf_ne_nil d.table.ne_nil) d.table.sum_lt, ?_⟩
  have hids : norCmd (norCmd (norCmd .array 0x555 0xaa) 0x2aa 0x55) 0x555 0x90 = .autoselect := by
    decide
  have hcfi : norCmd (norCmd .autoselect 0 0xf0) 0x55 0x98 = .cfi := by decide
  have hreset : norCmd .cfi 0 0xf0 = .array := by decide
  have hstr := fun u s => uart_printf_ok u (printf_str s)
  have hprint := fun u vendor device size => uart_printf_ok u (printf_ids vendor device size)
  have hstart := fun u => Uart.printf_plain u "Block/Sector start Address:\n\r"
    (forall_text (by decide))
  have hplain := fun u => Uart.printf_plain u "\n\r" (forall_text (by decide))
  have hregions : ∀ s : Scan, printRegions d .cfi d.table.regions.length 0x2d s =
      some ((sizesOf d.table.regions).foldl Scan.printed s) :=
    printRegions_eq (show d.table.regions = [] ++ d.table.regions from rfl)
  simp only [doScanNorFlash, hids, hcfi, hreset, hstr, hprint, hstart, hplain, regions_eq, hregions,
    uart_foldl_printed, Option.bind_eq_bind, Option.bind_some, Device.header, List.append_assoc]
  rfl

/-- Eight blocks of 8 KiB, and 127 of 64 KiB. -/
def twoRegions : Table where
  regions := [⟨7, 0x20⟩, ⟨126, 0x100⟩]
  ne_nil := List.cons_ne_nil _ _
  length_lt := by decide
  sum_lt := by simp [sizesOf, Region.count, Region.blockSize]

/-- A chip that has them, and is silent otherwise. -/
def twoRegionsDevice : Device := ⟨fun _ => 0, fun _ => 0, twoRegions, fun _ => 0⟩

/-- Its 135 addresses, on an empty line. -/
theorem scan_lists_two : ∃ addrs,
    Tiles (List.replicate 8 0x2000 ++ List.replicate 127 0x10000) addrs ∧
      doScanNorFlash twoRegionsDevice ⟨[], []⟩ .array =
        some (⟨[], twoRegionsDevice.header ++ listing 0 addrs ++ text "\n\r"⟩, .array) :=
  scan_lists twoRegionsDevice ⟨[], []⟩

end S3c2440.Nor.Cfi
