import S3c2440.Theory.Memory
import Mathlib.Tactic.Ring

/-!
# The frame buffer

`bare_board/code/I2c/20200510_IIC/lcd/framebuffer.c`: a screen of `xres` by `yres` pixels of
`bpp` bits, row by row from `fb_base` on. `fb_put_pixel` computes the address of a pixel;
`clear_screen` walks over all of them with a pointer.

An `int` and an `unsigned int` are 32 bits, and an address as well; a product that does not fit
goes round. The memory is one of bytes, the lower byte of a value first.

## What is proved

* `fbPutPixel_eq`, `clearScreen_eq` — both store the bytes of the colour at places of the
  frame buffer: the one at the place of its pixel, the other at all places.
* `tiles_of_fits` — if the bits of a row are an `int`, pixels have bytes of their own, that are
  together the frame buffer, and clearing the screen is to put all pixels in any order.
* `not_tiles` — with more bits in a row a pixel of the second row is put before the frame buffer.
-/

namespace S3c2440.Lcd

open Theory

/-! ### The code -/

/-- The memory. -/
abbrev Mem : Type := BitVec 32 → BitVec 8

/-- The parameters of the screen. -/
structure Fb where
  /-- `fb_base`. -/
  fbBase : BitVec 32
  /-- `xres`. -/
  xres : BitVec 32
  /-- `yres`. -/
  yres : BitVec 32
  /-- `bpp`. -/
  bpp : BitVec 32
  deriving DecidableEq

/-- The bytes of a `short`. -/
def bytes16 (v : BitVec 16) : List (BitVec 8) := [v.setWidth 8, (v >>> 8).setWidth 8]

/-- The bytes of an `int`. -/
def bytes32 (v : BitVec 32) : List (BitVec 8) :=
  [v.setWidth 8, (v >>> 8).setWidth 8, (v >>> 16).setWidth 8, (v >>> 24).setWidth 8]

/-- `convert32bppto16bpp`. -/
def convert32bppto16bpp (rgb : BitVec 32) : BitVec 16 :=
  let r := (rgb >>> 16) &&& 0xff
  let g := (rgb >>> 8) &&& 0xff
  let b := rgb &&& 0xff
  let r := r >>> 3
  let g := g >>> 2
  let b := b >>> 3
  ((r <<< 11) ||| (g <<< 5) ||| b).setWidth 16

variable (s : Fb)

/-- The address of a pixel in `fb_put_pixel`. -/
def pixelBase (x y : BitVec 32) : BitVec 32 :=
  s.fbBase + (s.xres * s.bpp).sdiv 8 * y + (x * s.bpp).sdiv 8

/-- `fb_put_pixel`. -/
def fbPutPixel (x y color : BitVec 32) (m : Mem) : Mem :=
  if s.bpp = 8 then Memory.store m (pixelBase s x y) [color.setWidth 8]
  else if s.bpp = 16 then Memory.store m (pixelBase s x y) (bytes16 (convert32bppto16bpp color))
  else if s.bpp = 32 then Memory.store m (pixelBase s x y) (bytes32 color)
  else m

/-- `for (i = 0; i < n; i++) body`. -/
def forTo {σ : Type} (n : BitVec 32) (body : σ → σ) : σ → σ := body^[n.toInt.toNat]

/-- The two loops of `clear_screen` around `*p++ = value;`, from `fb_base` on. -/
def fill (value : List (BitVec 8)) (m : Mem) : Mem :=
  (forTo s.xres (forTo s.yres fun t : BitVec 32 × Mem =>
    (t.1 + BitVec.ofNat 32 value.length, Memory.store t.2 t.1 value)) (s.fbBase, m)).2

/-- `clear_screen`. -/
def clearScreen (color : BitVec 32) (m : Mem) : Mem :=
  if s.bpp = 8 then fill s [color.setWidth 8] m
  else if s.bpp = 16 then fill s (bytes16 (convert32bppto16bpp color)) m
  else if s.bpp = 32 then fill s (bytes32 color) m
  else m

/-! ### The property -/

/-- `x` and `y` are a pixel of the screen. -/
def OnScreen (p : BitVec 32 × BitVec 32) : Prop :=
  (0 ≤ p.1.toInt ∧ p.1.toInt < s.xres.toInt) ∧ 0 ≤ p.2.toInt ∧ p.2.toInt < s.yres.toInt

/-- `fb_put_pixel` writes at `a`. -/
def Writes (p : BitVec 32 × BitVec 32) (a : BitVec 32) : Prop :=
  ∃ color m, fbPutPixel s p.1 p.2 color m a ≠ m a

/-- The bytes of the frame buffer. -/
def fbSize : ℕ := s.xres.toNat * s.yres.toNat * s.bpp.toNat / 8

/-- `a` is in the frame buffer. -/
def InFb (a : BitVec 32) : Prop :=
  s.fbBase.toNat ≤ a.toNat ∧ a.toNat < s.fbBase.toNat + fbSize s

/-- A screen of one of the three depths, whose frame buffer does not go round. -/
structure Screen : Prop where
  /-- The depth. -/
  depth : s.bpp = 8 ∨ s.bpp = 16 ∨ s.bpp = 32
  /-- There are columns. -/
  xres : 0 ≤ s.xres.toInt
  /-- There are rows. -/
  yres : 0 ≤ s.yres.toInt
  /-- The frame buffer ends within the address space. -/
  fits : s.fbBase.toNat + fbSize s ≤ 2 ^ 32

/-- The bits of a row are an `int`. -/
def RowFits : Prop := s.xres.toNat * s.bpp.toNat < 2 ^ 31

/-- Pixels have bytes of their own, that are together the frame buffer, and clearing the screen
is putting all of them. -/
structure Tiles : Prop where
  /-- No two pixels share a byte. -/
  disjoint : ∀ p q, OnScreen s p → OnScreen s q → p ≠ q → ∀ a, ¬ (Writes s p a ∧ Writes s q a)
  /-- The bytes of all pixels are the frame buffer. -/
  exact : ∀ a, (∃ p, OnScreen s p ∧ Writes s p a) ↔ InFb s a
  /-- Clearing is putting every pixel, in any order. -/
  clear : ∀ color m (ps : List (BitVec 32 × BitVec 32)), (∀ p, p ∈ ps ↔ OnScreen s p) →
    clearScreen s color m = ps.foldl (fun m p => fbPutPixel s p.1 p.2 color m) m
  /-- And writes nothing else. -/
  frame : ∀ color m a, ¬ InFb s a → clearScreen s color m a = m a

/-! ### Colours -/

/-- The bytes of a pixel. -/
def pixelBytes (color : BitVec 32) : List (BitVec 8) :=
  if s.bpp = 8 then [color.setWidth 8]
  else if s.bpp = 16 then bytes16 (convert32bppto16bpp color)
  else bytes32 color

variable {s}

/-- Their number. -/
theorem length_pixelBytes (h : Screen s) (color : BitVec 32) :
    8 * (pixelBytes s color).length = s.bpp.toNat ∧ 0 < (pixelBytes s color).length := by
  unfold pixelBytes
  rcases h.depth with hb | hb | hb <;> rw [hb] <;> exact ⟨rfl, Nat.succ_pos _⟩

theorem fbPutPixel_bytes (h : Screen s) (x y color : BitVec 32) (m : Mem) :
    fbPutPixel s x y color m = Memory.store m (pixelBase s x y) (pixelBytes s color) := by
  unfold fbPutPixel pixelBytes
  rcases h.depth with hb | hb | hb <;> rw [hb] <;> rfl

theorem clearScreen_bytes (h : Screen s) (color : BitVec 32) (m : Mem) :
    clearScreen s color m = fill s (pixelBytes s color) m := by
  unfold clearScreen pixelBytes
  rcases h.depth with hb | hb | hb <;> rw [hb] <;> rfl

/-- Every byte of black is zero. -/
theorem pixelBytes_zero (h : Screen s) : ∀ b ∈ pixelBytes s 0, b = 0 := by
  unfold pixelBytes
  rcases h.depth with hb | hb | hb <;> rw [hb] <;> decide

/-! ### Addresses -/

theorem toInt_eq_toNat {v : BitVec 32} (h : 0 ≤ v.toInt) :
    v.toInt = v.toNat ∧ v.toNat < 2 ^ 31 := by
  have hlt := v.isLt
  rw [BitVec.toInt_eq_toNat_cond] at h ⊢
  split at h <;> omega

theorem sdiv_eight {v : BitVec 32} (h : v.toNat < 2 ^ 31) :
    v.sdiv 8 = BitVec.ofNat 32 (v.toNat / 8) := by
  have hmsb : v.msb = false := BitVec.msb_eq_false_iff_two_mul_lt.mpr (by omega)
  rw [BitVec.sdiv_eq, hmsb]
  apply BitVec.eq_of_toNat_eq
  show (v.udiv 8).toNat = _
  rw [BitVec.udiv_eq, BitVec.toNat_udiv, BitVec.toNat_ofNat, Nat.mod_eq_of_lt (by omega)]
  rfl

theorem toNat_mul_of_lt {v u : BitVec 32} (h : v.toNat * u.toNat < 2 ^ 31) :
    (v * u).toNat = v.toNat * u.toNat := by
  rw [BitVec.toNat_mul, Nat.mod_eq_of_lt (by omega)]

/-- The place of a pixel in the frame buffer. -/
def index (s : Fb) (p : BitVec 32 × BitVec 32) : ℕ := p.2.toNat * s.xres.toNat + p.1.toNat

theorem onScreen_iff (h : Screen s) (p : BitVec 32 × BitVec 32) :
    OnScreen s p ↔ p.1.toNat < s.xres.toNat ∧ p.2.toNat < s.yres.toNat := by
  obtain ⟨hx, hx'⟩ := toInt_eq_toNat h.xres
  obtain ⟨hy, hy'⟩ := toInt_eq_toNat h.yres
  constructor
  · rintro ⟨⟨h₁, h₂⟩, h₃, h₄⟩
    have h₅ := (toInt_eq_toNat h₁).1
    have h₆ := (toInt_eq_toNat h₃).1
    omega
  · rintro ⟨h₁, h₂⟩
    have h₃ : p.1.toInt = p.1.toNat := BitVec.toInt_eq_toNat_of_lt (by omega)
    have h₄ : p.2.toInt = p.2.toNat := BitVec.toInt_eq_toNat_of_lt (by omega)
    unfold OnScreen
    omega

/-- The address of a pixel. -/
theorem pixelBase_eq (h : Screen s) (hrow : RowFits s) {p : BitVec 32 × BitVec 32}
    (hp : OnScreen s p) (color : BitVec 32) : pixelBase s p.1 p.2 =
      s.fbBase + BitVec.ofNat 32 ((pixelBytes s color).length * index s p) := by
  obtain ⟨hlen, -⟩ := length_pixelBytes h color
  obtain ⟨hx, -⟩ := (onScreen_iff h p).mp hp
  unfold RowFits at hrow
  have hle : p.1.toNat * s.bpp.toNat ≤ s.xres.toNat * s.bpp.toNat :=
    Nat.mul_le_mul_right _ (Nat.le_of_lt hx)
  have hcol : p.1.toNat * s.bpp.toNat < 2 ^ 31 := Nat.lt_of_le_of_lt hle hrow
  have hdiv : ∀ n, n * s.bpp.toNat / 8 = n * (pixelBytes s color).length := fun n => by
    rw [← hlen, Nat.mul_left_comm, Nat.mul_div_cancel_left _ (by omega)]
  have hy : p.2 = BitVec.ofNat 32 p.2.toNat :=
    ((BitVec.ofNat_toNat 32 p.2).trans (BitVec.setWidth_eq p.2)).symm
  rw [pixelBase, sdiv_eight (by rw [toNat_mul_of_lt hrow]; exact hrow),
    sdiv_eight (by rw [toNat_mul_of_lt hcol]; exact hcol), toNat_mul_of_lt hrow,
    toNat_mul_of_lt hcol, hdiv, hdiv, BitVec.add_assoc]
  congr 1
  conv_lhs => rw [hy, ← BitVec.ofNat_mul, ← BitVec.ofNat_add]
  congr 1
  unfold index
  ring

theorem index_lt (h : Screen s) {p : BitVec 32 × BitVec 32} (hp : OnScreen s p) :
    index s p < s.xres.toNat * s.yres.toNat := by
  obtain ⟨hx, hy⟩ := (onScreen_iff h p).mp hp
  calc index s p < p.2.toNat * s.xres.toNat + s.xres.toNat := Nat.add_lt_add_left hx _
    _ = (p.2.toNat + 1) * s.xres.toNat := (Nat.succ_mul _ _).symm
    _ ≤ s.yres.toNat * s.xres.toNat := Nat.mul_le_mul_right _ hy
    _ = s.xres.toNat * s.yres.toNat := Nat.mul_comm _ _

/-- Different pixels have different places. -/
theorem index_inj (h : Screen s) {p q : BitVec 32 × BitVec 32} (hp : OnScreen s p)
    (hq : OnScreen s q) (he : index s p = index s q) : p = q := by
  obtain ⟨hpx, -⟩ := (onScreen_iff h p).mp hp
  obtain ⟨hqx, -⟩ := (onScreen_iff h q).mp hq
  have hpos : 0 < s.xres.toNat := Nat.lt_of_le_of_lt (Nat.zero_le _) hpx
  have hmod : ∀ {r : BitVec 32 × BitVec 32}, r.1.toNat < s.xres.toNat →
      index s r % s.xres.toNat = r.1.toNat ∧ index s r / s.xres.toNat = r.2.toNat := fun hr =>
    ⟨by rw [index, Nat.mul_comm, Nat.mul_add_mod, Nat.mod_eq_of_lt hr],
      by rw [index, Nat.mul_comm, Nat.mul_add_div hpos, Nat.div_eq_of_lt hr, Nat.add_zero]⟩
  refine Prod.ext (BitVec.eq_of_toNat_eq ?_) (BitVec.eq_of_toNat_eq ?_)
  · rw [← (hmod hpx).1, he, (hmod hqx).1]
  · rw [← (hmod hpx).2, he, (hmod hqx).2]

/-- Every place is that of a pixel. -/
theorem exists_index (h : Screen s) {i : ℕ} (hi : i < s.xres.toNat * s.yres.toNat) :
    ∃ p, OnScreen s p ∧ index s p = i := by
  have hpos : 0 < s.xres.toNat := Nat.pos_of_ne_zero fun h0 => by simp [h0] at hi
  have hx : i % s.xres.toNat < s.xres.toNat := Nat.mod_lt _ hpos
  have hy : i / s.xres.toNat < s.yres.toNat := Nat.div_lt_of_lt_mul hi
  have hx' : (BitVec.ofNat 32 (i % s.xres.toNat)).toNat = i % s.xres.toNat := by
    rw [BitVec.toNat_ofNat, Nat.mod_eq_of_lt (Nat.lt_trans hx s.xres.isLt)]
  have hy' : (BitVec.ofNat 32 (i / s.xres.toNat)).toNat = i / s.xres.toNat := by
    rw [BitVec.toNat_ofNat, Nat.mod_eq_of_lt (Nat.lt_trans hy s.yres.isLt)]
  refine ⟨(BitVec.ofNat 32 (i % s.xres.toNat), BitVec.ofNat 32 (i / s.xres.toNat)),
    (onScreen_iff h _).mpr ⟨?_, ?_⟩, ?_⟩
  · rw [hx']; exact hx
  · rw [hy']; exact hy
  · rw [index, hx', hy', Nat.mul_comm, Nat.div_add_mod]

/-! ### What is stored -/

/-- The size of the frame buffer by that of a pixel. -/
theorem fbSize_eq (h : Screen s) (color : BitVec 32) :
    fbSize s = s.xres.toNat * s.yres.toNat * (pixelBytes s color).length := by
  rw [fbSize, ← (length_pixelBytes h color).1, Nat.mul_left_comm,
    Nat.mul_div_cancel_left _ (by omega)]

/-- The bytes at a place end within the address space. -/
theorem place_le (h : Screen s) (color : BitVec 32) {i : ℕ}
    (hi : i < s.xres.toNat * s.yres.toNat) : (pixelBytes s color).length * (i + 1) ≤ 2 ^ 32 := by
  have hfits := h.fits
  have hle : (i + 1) * (pixelBytes s color).length ≤
      s.xres.toNat * s.yres.toNat * (pixelBytes s color).length := Nat.mul_le_mul_right _ hi
  rw [fbSize_eq h color] at hfits
  rw [Nat.mul_comm]
  omega

theorem length_pixelBytes_lt (h : Screen s) (color : BitVec 32) :
    (pixelBytes s color).length < 2 ^ 32 := by
  have hlen := (length_pixelBytes h color).1
  have hlt := s.bpp.isLt
  omega

/-- Putting pixels stores the colour at their places. -/
theorem fbPutPixel_eq (h : Screen s) (hrow : RowFits s) (color : BitVec 32) (m : Mem)
    {ps : List (BitVec 32 × BitVec 32)} (hps : ∀ p ∈ ps, OnScreen s p) :
    ps.foldl (fun m p => fbPutPixel s p.1 p.2 color m) m =
      Memory.storeBlocks s.fbBase (pixelBytes s color) (ps.map (index s)) m := by
  rw [Memory.storeBlocks, List.foldl_map]
  refine List.foldl_ext _ _ m fun m p hp => ?_
  rw [fbPutPixel_bytes h, pixelBase_eq h hrow (hps p hp) color]

/-- Clearing the screen stores it at all places. -/
theorem clearScreen_eq (h : Screen s) (color : BitVec 32) (m : Mem) :
    clearScreen s color m = Memory.storeBlocks s.fbBase (pixelBytes s color)
      (List.range (s.xres.toNat * s.yres.toNat)) m := by
  have hx : s.xres.toInt.toNat = s.xres.toNat := by rw [(toInt_eq_toNat h.xres).1]; rfl
  have hy : s.yres.toInt.toNat = s.yres.toNat := by rw [(toInt_eq_toNat h.yres).1]; rfl
  rw [clearScreen_bytes h, fill, forTo, forTo, hx, hy, ← Function.iterate_mul,
    Memory.iterate_store, Nat.mul_comm s.yres.toNat]

/-- What is at an address once the colour is stored at some places. -/
theorem storeBlocks_at (h : Screen s) (color : BitVec 32) (m : Mem) {is : List ℕ}
    (his : ∀ i ∈ is, i < s.xres.toNat * s.yres.toNat) (a : BitVec 32) :
    Memory.storeBlocks s.fbBase (pixelBytes s color) is m a =
      if (a - s.fbBase).toNat / (pixelBytes s color).length ∈ is then
        (pixelBytes s color)[(a - s.fbBase).toNat % (pixelBytes s color).length]?.getD (m a)
      else m a :=
  Memory.storeBlocks_apply m (length_pixelBytes h color).2 (length_pixelBytes_lt h color)
    (fun i hi => place_le h color (his i hi)) a

/-- An address in the frame buffer, by how far it is from its beginning. -/
theorem inFb_iff (h : Screen s) (a : BitVec 32) :
    InFb s a ↔ (a - s.fbBase).toNat < fbSize s := by
  have hfits := h.fits
  have ha := a.isLt
  have hb := s.fbBase.isLt
  unfold InFb
  rw [BitVec.toNat_sub']
  rcases Nat.lt_or_ge a.toNat s.fbBase.toNat with hlt | hge
  · rw [Nat.mod_eq_of_lt (by omega)]
    omega
  · rw [show a.toNat + (2 ^ 32 - s.fbBase.toNat) = a.toNat - s.fbBase.toNat + 2 ^ 32 by omega,
      Nat.add_mod_right, Nat.mod_eq_of_lt (by omega)]
    omega

/-- The addresses of the frame buffer are those at its places. -/
theorem inFb_iff_place (h : Screen s) (color a : BitVec 32) : InFb s a ↔
    (a - s.fbBase).toNat / (pixelBytes s color).length < s.xres.toNat * s.yres.toNat := by
  rw [inFb_iff h, fbSize_eq h color, Nat.div_lt_iff_lt_mul (length_pixelBytes h color).2]

/-- A pixel writes the bytes at its place. -/
theorem writes_iff (h : Screen s) (hrow : RowFits s) {p : BitVec 32 × BitVec 32}
    (hp : OnScreen s p) (a : BitVec 32) : Writes s p a ↔
      (a - s.fbBase).toNat / (pixelBytes s 0).length = index s p := by
  have hput : ∀ color m, fbPutPixel s p.1 p.2 color m a =
      if (a - s.fbBase).toNat / (pixelBytes s 0).length = index s p then
        (pixelBytes s color)[(a - s.fbBase).toNat % (pixelBytes s 0).length]?.getD (m a)
      else m a := by
    intro color m
    have hlen : (pixelBytes s color).length = (pixelBytes s 0).length := by
      have h₁ := (length_pixelBytes h color).1
      have h₂ := (length_pixelBytes h 0).1
      omega
    rw [fbPutPixel_bytes h, pixelBase_eq h hrow hp color,
      Memory.store_block_apply m (length_pixelBytes h color).2 (length_pixelBytes_lt h color)
        (place_le h color (index_lt h hp)), hlen]
  constructor
  · rintro ⟨color, m, hne⟩
    by_contra hout
    exact hne ((hput color m).trans (if_neg hout))
  · intro hin
    -- black over a memory of ones
    refine ⟨0, fun _ => 1, ?_⟩
    have hmod : (a - s.fbBase).toNat % (pixelBytes s 0).length < (pixelBytes s 0).length :=
      Nat.mod_lt _ (length_pixelBytes h 0).2
    rw [hput, if_pos hin, List.getElem?_eq_getElem hmod, Option.getD_some,
      pixelBytes_zero h _ (List.getElem_mem _)]
    show (0 : BitVec 8) ≠ 1
    decide

/-! ### The whole screen -/

/-- The pixels of the screen, in any order, are all the places there are. -/
theorem mem_map_index (h : Screen s) {ps : List (BitVec 32 × BitVec 32)}
    (hps : ∀ p, p ∈ ps ↔ OnScreen s p) (n : ℕ) :
    n ∈ ps.map (index s) ↔ n ∈ List.range (s.xres.toNat * s.yres.toNat) := by
  rw [List.mem_range]
  constructor
  · intro hn
    obtain ⟨p, hp, rfl⟩ := List.mem_map.mp hn
    exact index_lt h ((hps p).mp hp)
  · intro hlt
    obtain ⟨p, hp, hi⟩ := exists_index h hlt
    exact List.mem_map.mpr ⟨p, (hps p).mpr hp, hi⟩

/-- If the bits of a row are an `int`, the pixels tile the frame buffer, and clearing the screen
is putting all of them in any order. -/
theorem tiles_of_fits (h : Screen s) (hrow : RowFits s) : Tiles s where
  disjoint := by
    rintro p q hp hq hne a ⟨hpa, hqa⟩
    have he := ((writes_iff h hrow hp a).mp hpa).symm.trans ((writes_iff h hrow hq a).mp hqa)
    exact hne (index_inj h hp hq he)
  exact := by
    intro a
    rw [inFb_iff_place h 0]
    constructor
    · rintro ⟨p, hp, hpa⟩
      rw [(writes_iff h hrow hp a).mp hpa]
      exact index_lt h hp
    · intro hlt
      obtain ⟨p, hp, hi⟩ := exists_index h hlt
      exact ⟨p, hp, (writes_iff h hrow hp a).mpr hi.symm⟩
  clear := by
    intro color m ps hps
    rw [fbPutPixel_eq h hrow color m fun p hp => (hps p).mp hp, clearScreen_eq h]
    funext a
    rw [storeBlocks_at h color m (fun i hi => List.mem_range.mp hi),
      storeBlocks_at h color m fun i hi => List.mem_range.mp ((mem_map_index h hps i).mp hi)]
    simp only [mem_map_index h hps]
  frame := by
    intro color m a ha
    rw [inFb_iff_place h color] at ha
    rw [clearScreen_eq h, storeBlocks_at h color m fun i hi => List.mem_range.mp hi,
      if_neg (mt List.mem_range.mp ha)]

/-- The screen of `lcd_4.3.c`. -/
def lcd43 : Fb := ⟨0x33c00000, 480, 272, 32⟩

theorem tiles_lcd43 : Tiles lcd43 :=
  tiles_of_fits ⟨by decide, by decide, by decide, by decide⟩ (by unfold RowFits; decide)

/-- Two rows of `2 ^ 26` pixels: the bits of a row are `-2 ^ 31` in an `int`, and the first pixel
of the second row is put before the frame buffer. -/
theorem not_tiles : ¬ ∀ s, Screen s → Tiles s := by
  intro h
  have hscreen : Screen ⟨0x10000000, 0x4000000, 2, 32⟩ :=
    ⟨by decide, by decide, by decide, by decide⟩
  have hwrites : Writes ⟨0x10000000, 0x4000000, 2, 32⟩ (0, 1) 0 := by
    refine ⟨0, fun _ => 1, ?_⟩
    decide
  have hon : OnScreen ⟨0x10000000, 0x4000000, 2, 32⟩ (0, 1) := by
    unfold OnScreen
    decide
  obtain ⟨hbase, -⟩ := ((h _ hscreen).exact 0).mp ⟨_, hon, hwrites⟩
  exact absurd hbase (by decide)

end S3c2440.Lcd
