import S3c2440.Nand.Read

/-!
# Where the bytes of a NAND read come from

`nand_read` asks for the mark of a block when `addr` is at the block's beginning, and nowhere
else. Beside the function a record is kept here of every byte that it stores: the index in
the buffer, and the place on the chip from which NFDATA gave it. The record changes nothing
(`nandReadTraced_reading`).

`addr` may be any number of 32 bits, inside a page or inside a block.

## What is proved

* `readBody_traced` — a turn of the loop keeps what is known of the record: the bytes come
  from good blocks, or from the block in the middle of which the read began.
* `nand_read_from_good_iff` — all of them come from good blocks if and only if the read does
  not begin in the middle of a bad one; `nand_read_from_bad` is a read that does.
-/

namespace S3c2440.Nand

open Theory

/-! ### The record -/

/-- A byte that has been stored. -/
structure Store where
  /-- Its index in the buffer. -/
  i : ℕ
  /-- The page and the column it was read from; nothing if the chip was giving out none. -/
  source : Option (ℕ × ℕ)
  deriving DecidableEq

/-- Where the next byte of NFDATA comes from. -/
def Nfc.source (s : Nfc) : Option (ℕ × ℕ) :=
  match s.selected, s.phase with
  | true, .stream row col => some (row, col)
  | _, _ => none

variable (f : Flash) (len : ℕ)

/-- What the inner loop stores. -/
def copyStores (s : Reading) : List Store :=
  if s.col < 2048 ∧ s.i < len then
    let (val, nfc) := nandData f s.nfc
    ⟨s.i, s.nfc.source⟩ :: copyStores
      { addr := (s.addr + 1) % 2 ^ 32
        col := s.col + 1
        i := s.i + 1
        buf := Function.update s.buf s.i val
        nfc := nfc }
  else []
  termination_by 2048 - s.col

/-- What a turn that reads stores. -/
def pageStores (s : Reading) : List Store :=
  copyStores f len { s with nfc := nandOpen f s.nfc s.addr }

/-- What a turn of the loop stores. -/
def bodyStores (s : Reading) : List Store :=
  if s.addr &&& 0x1FFFF = 0 then
    let (bad, nfc) := nandBad f s.nfc s.addr
    if bad ≠ 0 then [] else pageStores f len { s with nfc := nfc }
  else pageStores f len s

/-- A read in progress, and what it has stored. -/
structure Traced where
  /-- The variables. -/
  reading : Reading
  /-- What has been stored, in order. -/
  stores : List Store

/-- A turn of the loop. -/
def tracedBody (t : Traced) : Traced where
  reading := readBody f len t.reading
  stores := t.stores ++ bodyStores f len t.reading

/-- `nand_read` with its record. -/
def nandReadTraced (fuel : ℕ) (nfc : Nfc) (addr : ℕ) (buf : ℕ → BitVec 8) : Option Traced :=
  whileLoop (fun t => t.reading.i < len) (tracedBody f len) fuel
    ⟨{ addr := addr, col := addr % 2048, i := 0, buf := buf, nfc := nfc }, []⟩

/-- It is `nand_read`. -/
theorem nandReadTraced_reading (fuel : ℕ) (nfc : Nfc) (addr : ℕ) (buf : ℕ → BitVec 8) :
    nandRead f len fuel nfc addr buf =
      (nandReadTraced f len fuel nfc addr buf).map Traced.reading :=
  @whileLoop_map Traced Reading (fun t => decide (t.reading.i < len)) (tracedBody f len)
    (fun s => decide (s.i < len)) (readBody f len) Traced.reading (fun _ => rfl) (fun _ => rfl) fuel
    ⟨_, []⟩

/-! ### What a turn stores -/

variable {f len}

theorem source_of_streams {s : Nfc} {row col : ℕ} (h : s.Streams row col) :
    s.source = some (row, col) := by
  unfold Nfc.source
  rw [h.1, h.2]

/-- The stores of a page are those of `n` columns, one after the other. -/
theorem copyStores_eq {row : ℕ} (n : ℕ) {s : Reading} (hn : min (2048 - s.col) (len - s.i) = n)
    (hs : s.nfc.Streams row s.col) :
    copyStores f len s = (List.range n).map fun k => ⟨s.i + k, some (row, s.col + k)⟩ := by
  induction n generalizing s with
  | zero =>
    rw [copyStores, if_neg (by omega)]
    rfl
  | succ n ih =>
    obtain ⟨-, hstreams⟩ := data_of_streams (f := f) hs
    have hrest := ih (s := ⟨(s.addr + 1) % 2 ^ 32, s.col + 1, s.i + 1,
      Function.update s.buf s.i (nandData f s.nfc).1, (nandData f s.nfc).2⟩)
      (by show min (2048 - (s.col + 1)) (len - (s.i + 1)) = n; omega) hstreams
    rw [copyStores, if_pos (by omega), source_of_streams hs, List.range_succ_eq_map, List.map_cons,
      List.map_map]
    refine congrArg (List.cons _) (hrest.trans ?_)
    refine List.map_congr_left fun k _ => ?_
    show Store.mk (s.i + 1 + k) (some (row, s.col + 1 + k)) = _
    rw [Function.comp_apply, Nat.add_right_comm s.i, Nat.add_right_comm s.col]
    rfl

theorem pageStores_eq (n : ℕ) {s : Reading} (hn : min (2048 - s.col) (len - s.i) = n)
    (hcol : s.col = s.addr % 2048) (haddr : s.addr < 2 ^ 32) :
    pageStores f len s =
      (List.range n).map fun k => ⟨s.i + k, some (s.addr / 2048, s.col + k)⟩ := by
  have hstreams : (nandOpen f s.nfc s.addr).Streams (s.addr / 2048) s.col := by
    rw [hcol]
    exact streams_open haddr
  exact copyStores_eq n (s := { s with nfc := nandOpen f s.nfc s.addr }) hn hstreams

/-! ### How much there is to read -/

/-- How many addresses there are in good blocks, from `a` on. -/
def Flash.goodBytes (f : Flash) (a : ℕ) : ℕ :=
  ((List.range' a (2 ^ 32 - a)).filter fun b => f.good (b / 2 ^ 17)).length

theorem goodBytes_split {a n : ℕ} (hn : a + n ≤ 2 ^ 32) :
    f.goodBytes a = ((List.range' a n).filter fun b => f.good (b / 2 ^ 17)).length +
      f.goodBytes (a + n) := by
  have hsplit : List.range' a (2 ^ 32 - a) =
      List.range' a n ++ List.range' (a + n) (2 ^ 32 - (a + n)) := by
    rw [List.range'_append_1]
    congr 1
    omega
  rw [Flash.goodBytes, hsplit, List.filter_append, List.length_append, Flash.goodBytes]

/-- Reading `n` bytes takes away no more than `n`. -/
theorem goodBytes_le {a n : ℕ} (hn : a + n ≤ 2 ^ 32) : f.goodBytes a ≤ n + f.goodBytes (a + n) := by
  have hle := List.length_filter_le (fun b => f.good (b / 2 ^ 17)) (List.range' a n)
  rw [List.length_range'] at hle
  rw [goodBytes_split hn]
  omega

/-- A bad block has none. -/
theorem goodBytes_skip {a n : ℕ} (hn : a + n ≤ 2 ^ 32)
    (hbad : ∀ b, a ≤ b → b < a + n → f.good (b / 2 ^ 17) = false) :
    f.goodBytes a = f.goodBytes (a + n) := by
  rw [goodBytes_split hn, List.filter_eq_nil_iff.mpr, List.length_nil, Nat.zero_add]
  intro b hb
  rw [List.mem_range'_1] at hb
  rw [hbad b hb.1 hb.2]
  decide

/-- In good blocks they all count. -/
theorem le_goodBytes {a n : ℕ} (hn : a + n ≤ 2 ^ 32)
    (hgood : ∀ b, a ≤ b → b < a + n → f.good (b / 2 ^ 17) = true) : n ≤ f.goodBytes a := by
  rw [goodBytes_split hn, List.filter_eq_self.mpr, List.length_range']
  · exact Nat.le_add_right n _
  · intro b hb
    rw [List.mem_range'_1] at hb
    exact hgood b hb.1 hb.2

theorem goodBytes_end {a : ℕ} (h : 2 ^ 32 ≤ a) : f.goodBytes a = 0 := by
  rw [Flash.goodBytes, Nat.sub_eq_zero_of_le h]
  rfl

theorem lt_of_goodBytes {a : ℕ} (h : 0 < f.goodBytes a) : a < 2 ^ 32 := by
  by_contra hge
  rw [goodBytes_end (by omega)] at h
  exact Nat.lt_irrefl 0 h

/-! ### The invariant -/

/-- The blocks that a read from `start` on takes bytes from: the good ones, and the one it
begins in the middle of. -/
def Entered (f : Flash) (start block : ℕ) : Prop :=
  f.good block = true ∨ start % 2 ^ 17 ≠ 0 ∧ block = start / 2 ^ 17

/-- What a store is about. -/
structure Store.Valid (f : Flash) (start : ℕ) (buf : ℕ → BitVec 8) (i row col : ℕ) : Prop where
  /-- The byte is from the data area of the page. -/
  lt : col < 2048
  /-- The page is in one of those blocks. -/
  entered : Entered f start (row / 64)
  /-- It is what the buffer holds. -/
  byte : buf i = f.page row col

/-- What holds before every turn. -/
structure Fetched (f : Flash) (len start : ℕ) (t : Traced) : Prop where
  /-- No byte too many. -/
  le : t.reading.i ≤ len
  /-- There is enough ahead. -/
  room : t.reading.i < len → len ≤ t.reading.i + f.goodBytes t.reading.addr
  /-- Where the next page is read from. -/
  col : t.reading.i < len → t.reading.col = t.reading.addr % 2048
  /-- In the middle of a block, it is one of those. -/
  block : t.reading.i < len → t.reading.addr % 2 ^ 17 ≠ 0 →
    Entered f start (t.reading.addr / 2 ^ 17)
  /-- Nothing has been read yet, or the page at `start` has. -/
  first : t.reading.i = 0 ∧ t.reading.addr = start ∨ start % 2 ^ 17 = 0 ∨
    ∃ st ∈ t.stores, st.source = some (start / 2048, start % 2048)
  /-- The buffer has been filled in order. -/
  index : t.stores.map Store.i = List.range t.reading.i
  /-- What the stores are about. -/
  valid : ∀ st ∈ t.stores, ∃ row col, st.source = some (row, col) ∧
    Store.Valid f start t.reading.buf st.i row col

variable {start : ℕ} {buf : ℕ → BitVec 8} {s u : Reading} {stores : List Store}

/-- While bytes are missing, `addr` is on the chip. -/
theorem Fetched.addr_lt (h : Fetched f len start ⟨s, stores⟩) (hi : s.i < len) :
    s.addr < 2 ^ 32 := by
  have hroom := h.room hi
  dsimp only at hroom
  exact lt_of_goodBytes (f := f) (by omega)

theorem Fetched.index_lt (h : Fetched f len start ⟨s, stores⟩) {st : Store} (hst : st ∈ stores) :
    st.i < s.i := by
  have hmem : st.i ∈ stores.map Store.i := List.mem_map_of_mem hst
  rw [h.index] at hmem
  exact List.mem_range.mp hmem

/-- A page of one of the blocks. -/
theorem readPage_traced (h : Fetched f len start ⟨s, stores⟩) (hi : s.i < len)
    (hentered : Entered f start (s.addr / 2 ^ 17)) :
    Fetched f len start ⟨readPage f len s, stores ++ pageStores f len s⟩ ∧
      s.i < (readPage f len s).i ∧
      ((readPage f len s).i < len → s.addr < (readPage f len s).addr) := by
  have hlt := h.addr_lt hi
  have hcol := h.col hi
  have hroom := h.room hi
  obtain ⟨n, hn⟩ : ∃ n, min (2048 - s.col) (len - s.i) = n := ⟨_, rfl⟩
  obtain ⟨ha, hti, hbuf⟩ := readPage_run (f := f) n hn hcol hlt
  have hstores := pageStores_eq (f := f) n hn hcol hlt
  have hle := goodBytes_le (f := f) (a := s.addr) (n := n) (by dsimp only at *; omega)
  -- if bytes are still missing, the chip goes on behind this page
  have hnext : s.i + n < len → (s.addr + n) % 2 ^ 32 = s.addr + n := fun hmore =>
    Nat.mod_eq_of_lt (lt_of_goodBytes (f := f) (by dsimp only at *; omega))
  dsimp only at hcol hroom
  refine ⟨{
    le := by rw [hti]; omega
    room := fun hmore => ?_
    col := fun hmore => ?_
    block := fun hmore hne => ?_
    first := ?_
    index := ?_
    valid := ?_ }, by omega, fun hmore => ?_⟩
  · rw [hti] at hmore ⊢
    rw [ha, hnext hmore]
    omega
  · rw [hti] at hmore
    show 0 = (readPage f len s).addr % 2048
    rw [ha, hnext hmore]
    omega
  · rw [hti] at hmore
    rw [ha, hnext hmore] at hne ⊢
    rwa [show (s.addr + n) / 2 ^ 17 = s.addr / 2 ^ 17 by omega]
  · rcases h.first with ⟨-, hstart⟩ | hstart | ⟨st, hst, hsource⟩
    · refine .inr (.inr ⟨⟨s.i, some (s.addr / 2048, s.col)⟩, ?_, ?_⟩)
      · rw [hstores]
        exact List.mem_append_right _ (List.mem_map.mpr ⟨0, List.mem_range.mpr (by omega), rfl⟩)
      · rw [hcol, show s.addr = start from hstart]
    · exact .inr (.inl hstart)
    · exact .inr (.inr ⟨st, List.mem_append_left _ hst, hsource⟩)
  · rw [List.map_append, h.index, hstores, List.map_map, hti, List.range_add]
    rfl
  · intro st hst
    rcases List.mem_append.mp hst with hold | hnew
    · obtain ⟨row, col, hsource, hvalid⟩ := h.valid st hold
      have hbefore := h.index_lt hold
      refine ⟨row, col, hsource, hvalid.lt, hvalid.entered, ?_⟩
      rw [hbuf, if_neg (by omega)]
      exact hvalid.byte
    · rw [hstores] at hnew
      obtain ⟨k, hk, rfl⟩ := List.mem_map.mp hnew
      rw [List.mem_range] at hk
      refine ⟨s.addr / 2048, s.col + k, rfl, by omega, ?_, ?_⟩
      · rwa [Nat.div_div_eq_div_mul]
      · rw [hbuf, if_pos (by dsimp only; omega), Flash.byteAt]
        dsimp only
        congr 1 <;> omega
  · rw [hti] at hmore
    rw [ha, hnext hmore]
    omega

/-- What the chip is doing does not matter. -/
theorem Fetched.of_nfc (h : Fetched f len start ⟨s, stores⟩) (nfc : Nfc) :
    Fetched f len start ⟨{ s with nfc := nfc }, stores⟩ :=
  ⟨h.le, h.room, h.col, h.block, h.first, h.index, h.valid⟩

/-- A bad block is skipped. -/
theorem Fetched.skip (h : Fetched f len start ⟨s, stores⟩) (hi : s.i < len)
    (hstart : s.addr % 2 ^ 17 = 0) (hbad : f.good (s.addr / 2 ^ 17) = false) :
    Fetched f len start ⟨{ s with addr := (s.addr + 128 * 1024) % 2 ^ 32 }, stores⟩ ∧
      s.addr < (s.addr + 128 * 1024) % 2 ^ 32 := by
  have hlt := h.addr_lt hi
  have hroom := h.room hi
  have hskip := goodBytes_skip (f := f) (a := s.addr) (n := 2 ^ 17) (by omega)
    fun b h₁ h₂ => (congrArg f.good (show b / 2 ^ 17 = s.addr / 2 ^ 17 by omega)).trans hbad
  dsimp only at hroom
  have hnext : s.addr + 2 ^ 17 < 2 ^ 32 := lt_of_goodBytes (f := f) (by omega)
  have haddr : (s.addr + 128 * 1024) % 2 ^ 32 = s.addr + 2 ^ 17 := by omega
  rw [haddr]
  refine ⟨{
    le := h.le
    room := fun _ => hskip ▸ hroom
    col := fun hmore => (h.col hmore).trans
      (by show s.addr % 2048 = (s.addr + 2 ^ 17) % 2048; omega)
    block := fun _ hne => absurd (show (s.addr + 2 ^ 17) % 2 ^ 17 = 0 by omega) hne
    first := ?_
    index := h.index
    valid := h.valid }, Nat.lt_add_of_pos_right (by omega)⟩
  rcases h.first with ⟨-, hs⟩ | hs
  · exact .inr (.inl (by rw [← hs]; exact hstart))
  · exact .inr hs

/-- A turn of the loop keeps the invariant, and moves `addr` on while bytes are missing. -/
theorem readBody_traced {t : Traced} (h : Fetched f len start t) (hi : t.reading.i < len) :
    Fetched f len start (tracedBody f len t) ∧
      ((tracedBody f len t).reading.i < len →
        t.reading.addr < (tracedBody f len t).reading.addr) := by
  obtain ⟨s, stores⟩ := t
  dsimp only at hi
  by_cases hstart : s.addr % 2 ^ 17 = 0
  · have hbad : (nandBad f s.nfc s.addr).1 = _ := nandBad_of_start (h.addr_lt hi) hstart
    cases hgood : f.good (s.addr / 2 ^ 17) with
    | true =>
      rw [hgood, if_pos rfl] at hbad
      have hbody : tracedBody f len ⟨s, stores⟩ =
          ⟨readPage f len { s with nfc := (nandBad f s.nfc s.addr).2 },
            stores ++ pageStores f len { s with nfc := (nandBad f s.nfc s.addr).2 }⟩ := by
        rw [tracedBody, readBody_of_good hstart hbad, bodyStores, and_block, if_pos hstart]
        exact congrArg (Traced.mk _ <| stores ++ ·) (if_neg (not_not_intro hbad))
      rw [hbody]
      obtain ⟨hkeeps, -, hmore⟩ := readPage_traced (h.of_nfc (nandBad f s.nfc s.addr).2) hi
        (.inl hgood)
      exact ⟨hkeeps, hmore⟩
    | false =>
      rw [hgood, if_neg (by decide)] at hbad
      have hne : (nandBad f s.nfc s.addr).1 ≠ 0 := by rw [hbad]; decide
      have hbody : tracedBody f len ⟨s, stores⟩ =
          ⟨{ s with
            addr := (s.addr + 128 * 1024) % 2 ^ 32, nfc := (nandBad f s.nfc s.addr).2 },
            stores⟩ := by
        rw [tracedBody, readBody_of_bad hstart hbad, bodyStores, and_block, if_pos hstart]
        exact congrArg (Traced.mk _) ((congrArg (stores ++ ·) (if_pos hne)).trans
          (List.append_nil stores))
      rw [hbody]
      obtain ⟨hkeeps, hmore⟩ := h.skip hi hstart hgood
      exact ⟨hkeeps.of_nfc _, fun _ => hmore⟩
  · have hbody : tracedBody f len ⟨s, stores⟩ =
        ⟨readPage f len s, stores ++ pageStores f len s⟩ := by
      rw [tracedBody, readBody, bodyStores, and_block, if_neg hstart, if_neg hstart]
    rw [hbody]
    obtain ⟨hkeeps, -, hmore⟩ := readPage_traced h hi (h.block hi hstart)
    exact ⟨hkeeps, hmore⟩

/-! ### The whole read -/

/-- Every byte has been read from a page of a block whose mark is clear. -/
def FromGoodBlocks (f : Flash) (stores : List Store) : Prop :=
  ∀ st ∈ stores, ∃ row col, st.source = some (row, col) ∧ col < 2048 ∧ f.good (row / 64) = true

/-- The read ends. -/
theorem nandReadTraced_ends (nfc : Nfc) (buf : ℕ → BitVec 8) (hlen : len ≤ f.goodBytes start)
    {fuel : ℕ} (hfuel : 2 ^ 32 ≤ fuel) :
    ∃ t, nandReadTraced f len fuel nfc start buf = some t ∧ Fetched f len start t ∧
      t.reading.i = len := by
  have hbegin : Fetched f len start ⟨⟨start, start % 2048, 0, buf, nfc⟩, []⟩ := {
    le := Nat.zero_le _
    room := fun _ => hlen.trans (Nat.le_add_left _ _)
    col := fun _ => rfl
    block := fun _ hne => .inr ⟨hne, rfl⟩
    first := .inl ⟨rfl, rfl⟩
    index := rfl
    valid := nofun }
  obtain ⟨t, ht, hend, hcond⟩ := whileLoop_total (fun t : Traced => decide (t.reading.i < len))
    (tracedBody f len) (fun t => if t.reading.i < len then 2 ^ 32 - t.reading.addr else 0) fuel
    (fun t hs hi => by
      have hi' : t.reading.i < len := of_decide_eq_true hi
      obtain ⟨hs', hmore⟩ := readBody_traced hs hi'
      have hlt := hs.addr_lt hi'
      refine ⟨hs', ?_⟩
      rw [if_pos hi']
      split
      · have := hmore ‹_›
        omega
      · omega) hbegin (by dsimp only; split <;> omega)
  have hge := of_decide_eq_false hcond
  exact ⟨t, ht, hend, Nat.le_antisymm hend.le (Nat.le_of_not_lt hge)⟩

/-- In a read that begins in the middle of a block, a byte of that block is stored. -/
theorem Fetched.good_start {t : Traced} (h : Fetched f len start t) (hi : t.reading.i = len)
    (hlen : len ≠ 0) (hmid : start % 2 ^ 17 ≠ 0) (hgood : FromGoodBlocks f t.stores) :
    f.good (start / 2 ^ 17) = true := by
  rcases h.first with ⟨h0, -⟩ | hstart | ⟨st, hst, hsource⟩
  · exact absurd (hi.symm.trans h0) hlen
  · exact absurd hstart hmid
  · obtain ⟨row, col, hsource', -, hrow⟩ := hgood st hst
    rw [hsource, Option.some.injEq, Prod.mk.injEq] at hsource'
    rwa [← hsource'.1, Nat.div_div_eq_div_mul] at hrow

/-- If there are `len` good bytes from the start on, `nand_read` ends with them stored in order, and
all of them come from good blocks if and only if the read does not begin in the middle of a
bad one. -/
theorem nand_read_from_good_iff (f : Flash) (nfc : Nfc) (start : ℕ) (buf : ℕ → BitVec 8) (len : ℕ)
    (hlen : len ≤ f.goodBytes start) :
    ∀ fuel ≥ 2 ^ 32, ∃ t, nandReadTraced f len fuel nfc start buf = some t ∧
      nandRead f len fuel nfc start buf = some t.reading ∧
      t.stores.map Store.i = List.range len ∧
      (∀ st ∈ t.stores, ∃ row col, st.source = some (row, col) ∧
        t.reading.buf st.i = f.page row col) ∧
      (FromGoodBlocks f t.stores ↔
        len = 0 ∨ start % (128 * 1024) = 0 ∨ f.good (start / (128 * 1024)) = true) := by
  intro fuel hfuel
  obtain ⟨t, ht, hend, hi⟩ := nandReadTraced_ends nfc buf hlen hfuel
  refine ⟨t, ht, ?_, hi ▸ hend.index, fun st hst => ?_, fun hgood => ?_, fun hcond st hst => ?_⟩
  · rw [nandReadTraced_reading, ht, Option.map_some]
  · obtain ⟨row, col, hsource, hvalid⟩ := hend.valid st hst
    exact ⟨row, col, hsource, hvalid.byte⟩
  · by_cases h0 : len = 0
    · exact .inl h0
    · by_cases hmid : start % 2 ^ 17 = 0
      · exact .inr (.inl hmid)
      · exact .inr (.inr (hend.good_start hi h0 hmid hgood))
  · obtain ⟨row, col, hsource, hvalid⟩ := hend.valid st hst
    refine ⟨row, col, hsource, hvalid.lt, ?_⟩
    rcases hvalid.entered with hgood | ⟨hmid, hrow⟩
    · exact hgood
    · rcases hcond with h0 | h0 | hgood
      · have hlt := hend.index_lt hst
        omega
      · exact absurd h0 hmid
      · rwa [hrow]

theorem firstBad_good {b : ℕ} (hb : 2 ^ 17 ≤ b) : firstBad.good (b / 2 ^ 17) = true := by
  simpa [Flash.good, firstBad] using hb

/-- Three bytes from the middle of the second block. -/
theorem nand_read_from_good_second :
    ∃ t, nandReadTraced firstBad 3 (2 ^ 32) ⟨0, .idle, 0⟩ (2 ^ 17 + 5) (fun _ => 0) = some t ∧
      nandRead firstBad 3 (2 ^ 32) ⟨0, .idle, 0⟩ (2 ^ 17 + 5) (fun _ => 0) = some t.reading ∧
      t.stores.map Store.i = List.range 3 ∧
      (∀ st ∈ t.stores, ∃ row col, st.source = some (row, col) ∧
        t.reading.buf st.i = firstBad.page row col) ∧
      (FromGoodBlocks firstBad t.stores ↔ 3 = 0 ∨ (2 ^ 17 + 5) % (128 * 1024) = 0 ∨
        firstBad.good ((2 ^ 17 + 5) / (128 * 1024)) = true) :=
  nand_read_from_good_iff firstBad ⟨0, .idle, 0⟩ (2 ^ 17 + 5) (fun _ => 0) 3
    (le_goodBytes (by omega) fun b hb _ => firstBad_good (by omega)) (2 ^ 32) (le_refl _)

/-- One byte from address 1 on: it comes from the first block, which is bad. -/
theorem nand_read_from_bad : ¬ ∀ (f : Flash) (nfc : Nfc) (start : ℕ) (buf : ℕ → BitVec 8) (len : ℕ),
    len ≤ f.goodBytes start → ∀ fuel ≥ 2 ^ 32, ∃ t,
      nandReadTraced f len fuel nfc start buf = some t ∧ FromGoodBlocks f t.stores := by
  intro h
  have hroom : 1 ≤ firstBad.goodBytes 1 := by
    rw [goodBytes_skip (n := 2 ^ 17 - 1) (by omega) fun b _ hb =>
      (congrArg firstBad.good (show b / 2 ^ 17 = 0 by omega)).trans (by decide)]
    exact le_goodBytes (by omega) fun b hb _ => firstBad_good (by omega)
  obtain ⟨t, ht, hgood⟩ := h firstBad ⟨0, .idle, 0⟩ 1 (fun _ => 0) 1 hroom (2 ^ 32) (le_refl _)
  obtain ⟨u, hu, hend, hi⟩ := nandReadTraced_ends (f := firstBad) ⟨0, .idle, 0⟩ (fun _ => 0) hroom
    (le_refl (2 ^ 32))
  obtain rfl : t = u := Option.some.inj (ht.symm.trans hu)
  exact absurd (hend.good_start hi Nat.one_ne_zero (by decide) hgood) (by decide)

end S3c2440.Nand
