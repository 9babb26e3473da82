import Mathlib.Algebra.Ring.Nat
import Mathlib.Data.List.Basic

/-!
# The buffers of an audio stream

`audio_setup_buf` and `audio_clear_buf` of `s3c-wm8976.c` in `linux_driver/code`. The fragments of a
stream are cut out of blocks for DMA. One block for all that is left is tried first, and when there
is none, one that is a fragment smaller. A fragment that a block begins with keeps its size as
`master`, and only these are freed. What `kmalloc` and `dma_alloc_coherent` answer is given, for
each call by its number.

## What is proved

* `setupLoop_spec` — what the fragments are, and which blocks they own.
* `audio_setup_clear` — the fragments tile the blocks in order, and every block is freed once.
* `fragments_of_setup` — in blocks that are apart, so are the fragments.
-/

namespace S3c2440.Sound

/-- `EBUSY`. -/
def eBUSY : ℤ := 16

/-- `ENOMEM`. -/
def eNOMEM : ℤ := 12

/-! ### The memory -/

/-- A block for DMA: its address, its bus address and its size. -/
structure Block where
  start : ℕ
  phys : ℕ
  size : ℕ
  deriving DecidableEq

/-- The answers of the allocators. -/
structure Allocator where
  kmalloc : ℕ → Bool
  dmaAlloc : ℕ → ℕ → Option (ℕ × ℕ)

/-- What has been got and given back. -/
structure Ledger where
  /-- How many calls there have been. -/
  calls : ℕ
  /-- The blocks that `dma_alloc_coherent` has returned. -/
  got : List Block
  /-- The blocks that `dma_free_coherent` has been given. -/
  freed : List Block
  /-- How many more arrays `kmalloc` has returned than `kfree` has been given. -/
  arrays : ℤ

/-- `audio_buf_t`. -/
structure AudioBuf where
  size : ℕ
  start : ℕ
  dmaAddr : ℕ
  sem : ℕ
  master : ℕ
  deriving DecidableEq

/-- `audio_stream_t`, but for the channel. -/
structure AudioStream where
  buffers : Option (List AudioBuf)
  bufIdx : ℕ
  fragsize : ℕ
  nbfrags : ℕ

/-! ### The code -/

variable (env : Allocator) (fragsize : ℕ)

/-- The loop that asks for a block for `k` fragments, and then for fewer. -/
def allocBlock : ℕ → Ledger → Option Block × Ledger
  | 0, m => (none, m)
  | k + 1, m =>
    match env.dmaAlloc m.calls ((k + 1) * fragsize) with
    | none => allocBlock k { m with calls := m.calls + 1 }
    | some (start, phys) =>
      let b : Block := ⟨start, phys, (k + 1) * fragsize⟩
      (some b, { m with calls := m.calls + 1, got := m.got ++ [b] })

/-- The loop over the fragments, with `left` of them to come: whether it gets to its end, and the
fragments from here on. -/
def setupLoop : ℕ → ℕ → ℕ → ℕ → Ledger → Bool × List AudioBuf × Ledger
  | 0, _, _, _, m => (true, [], m)
  | left + 1, dmasize, dmabuf, dmaphys, m =>
    let fragment (master dmasize dmabuf dmaphys : ℕ) (m : Ledger) : Bool × List AudioBuf × Ledger :=
      let (ok, bs, m) := setupLoop left (dmasize - fragsize) (dmabuf + fragsize)
        (dmaphys + fragsize) m
      (ok, ⟨0, dmabuf, dmaphys, 1, master⟩ :: bs, m)
    if dmasize = 0 then
      match allocBlock env fragsize (left + 1) m with
      | (none, m) => (false, List.replicate (left + 1) ⟨0, 0, 0, 0, 0⟩, m)
      | (some b, m) => fragment b.size b.size b.start b.phys m
    else fragment 0 dmasize dmabuf dmaphys m

/-- The blocks that the fragments own. -/
def owned (bs : List AudioBuf) : List Block :=
  bs.filterMap fun b => if b.master = 0 then none else some ⟨b.start, b.dmaAddr, b.master⟩

/-- `audio_clear_buf`. -/
def audioClearBuf (s : AudioStream) (m : Ledger) : AudioStream × Ledger :=
  match s.buffers with
  | none => ({ s with bufIdx := 0 }, m)
  | some bs => ({ s with buffers := none, bufIdx := 0 },
      { m with freed := m.freed ++ owned (bs.take s.nbfrags), arrays := m.arrays - 1 })

/-- `audio_setup_buf`. -/
def audioSetupBuf (audioNbfrags audioFragsize : ℕ) (s : AudioStream) (m : Ledger) :
    ℤ × AudioStream × Ledger :=
  if s.buffers.isSome then (-eBUSY, s, m)
  else
    let s := { s with nbfrags := audioNbfrags, fragsize := audioFragsize }
    let ok := env.kmalloc m.calls
    let m := { m with calls := m.calls + 1 }
    if ok then
      let m := { m with arrays := m.arrays + 1 }
      let (ok, bs, m) := setupLoop env s.fragsize s.nbfrags 0 0 0 m
      let s := { s with buffers := some bs }
      if ok then (0, { s with bufIdx := 0 }, m) else (-eNOMEM, audioClearBuf s m)
    else (-eNOMEM, audioClearBuf s m)

/-! ### The fragments -/

/-- The places of `k` fragments, one behind the other. -/
def tilesFrom : ℕ → ℕ → ℕ → List (ℕ × ℕ)
  | 0, _, _ => []
  | k + 1, start, phys => (start, phys) :: tilesFrom k (start + fragsize) (phys + fragsize)

/-- The places of the fragments in a block. -/
def tiles (b : Block) : List (ℕ × ℕ) := tilesFrom fragsize (b.size / fragsize) b.start b.phys

/-- Where a fragment is. -/
def AudioBuf.place (b : AudioBuf) : ℕ × ℕ := (b.start, b.dmaAddr)

/-- A fragment that nothing has been put in, and that can be taken. -/
def AudioBuf.Fresh (b : AudioBuf) : Prop := b.size = 0 ∧ b.sem = 1

theorem allocBlock_spec (k : ℕ) (m : Ledger) :
    (∃ n, allocBlock env fragsize k m = (none, { m with calls := n })) ∨
      ∃ n b j, allocBlock env fragsize k m = (some b, { m with calls := n, got := m.got ++ [b] }) ∧
        j < k ∧ b.size = (j + 1) * fragsize := by
  induction k generalizing m with
  | zero => exact .inl ⟨m.calls, rfl⟩
  | succ k ih =>
    unfold allocBlock
    cases henv : env.dmaAlloc m.calls ((k + 1) * fragsize) with
    | some a => exact .inr ⟨_, _, k, rfl, Nat.lt_succ_self k, rfl⟩
    | none =>
      rcases ih { m with calls := m.calls + 1 } with ⟨n, hn⟩ | ⟨n, b, j, hn, hj, hb⟩
      · exact .inl ⟨n, hn⟩
      · exact .inr ⟨n, b, j, hn, Nat.lt_succ_of_lt hj, hb⟩

theorem owned_replicate (n : ℕ) : owned (List.replicate n ⟨0, 0, 0, 0, 0⟩) = [] := by
  induction n with
  | zero => rfl
  | succ n ih => exact ih

/-- What the loop has got and made, with `j` fragments left in the block it is in. -/
structure SetUp (left j dmabuf dmaphys : ℕ) (m : Ledger) (r : Bool × List AudioBuf × Ledger)
    (blocks : List Block) : Prop where
  length : r.2.1.length = left
  owned : owned r.2.1 = blocks
  got : r.2.2.got = m.got ++ blocks
  freed : r.2.2.freed = m.freed
  arrays : r.2.2.arrays = m.arrays
  tiled : r.1 = true → r.2.1.map AudioBuf.place =
    tilesFrom fragsize j dmabuf dmaphys ++ blocks.flatMap (tiles fragsize)
  fresh : r.1 = true → ∀ b ∈ r.2.1, b.Fresh

variable {fragsize}

theorem setupLoop_spec (hf : 0 < fragsize) (left : ℕ) {j : ℕ} (hj : j ≤ left)
    (dmabuf dmaphys : ℕ) (m : Ledger) :
    ∃ blocks, SetUp fragsize left j dmabuf dmaphys m
      (setupLoop env fragsize left (j * fragsize) dmabuf dmaphys m) blocks := by
  induction left generalizing j dmabuf dmaphys m with
  | zero =>
    obtain rfl : j = 0 := Nat.le_zero.mp hj
    exact ⟨[], rfl, rfl, (List.append_nil _).symm, rfl, rfl, fun _ => rfl, fun _ _ hb => nomatch hb⟩
  | succ left ih =>
    cases j with
    | zero =>
      rw [setupLoop, if_pos (Nat.zero_mul fragsize)]
      rcases allocBlock_spec env fragsize (left + 1) m with
        ⟨n, hn⟩ | ⟨n, b, k, hn, hk, hb⟩
      · rw [hn]
        exact ⟨[], List.length_replicate, owned_replicate _, (List.append_nil _).symm, rfl, rfl,
          nofun, nofun⟩
      · rw [hn]
        have hsub : (k + 1) * fragsize - fragsize = k * fragsize := by
          rw [Nat.succ_mul, Nat.add_sub_cancel]
        have hsize : b.size ≠ 0 := by
          rw [hb]
          exact Nat.ne_of_gt (Nat.mul_pos k.succ_pos hf)
        obtain ⟨blocks, h⟩ := ih (Nat.le_of_lt_succ hk) (b.start + fragsize) (b.phys + fragsize)
          { m with calls := n, got := m.got ++ [b] }
        dsimp only
        rw [hb, hsub]
        refine ⟨b :: blocks, congrArg (· + 1) h.length, ?_, ?_, h.freed, h.arrays, fun hok => ?_,
          fun hok => ?_⟩
        · rw [owned, List.filterMap_cons_some (b := b)]
          · exact congrArg (b :: ·) h.owned
          · rw [← hb, if_neg hsize]
        · exact h.got.trans (by rw [List.append_assoc, List.singleton_append])
        · rw [List.map_cons, h.tiled hok, List.flatMap_cons, tiles, hb, Nat.mul_div_cancel _ hf]
          rfl
        · exact List.forall_mem_cons.mpr ⟨⟨rfl, rfl⟩, h.fresh hok⟩
    | succ j =>
      have hsub : (j + 1) * fragsize - fragsize = j * fragsize := by
        rw [Nat.succ_mul, Nat.add_sub_cancel]
      obtain ⟨blocks, h⟩ := ih (Nat.le_of_succ_le_succ hj) (dmabuf + fragsize) (dmaphys + fragsize) m
      rw [setupLoop, if_neg (Nat.ne_of_gt (Nat.mul_pos j.succ_pos hf))]
      dsimp only
      rw [hsub]
      exact ⟨blocks, congrArg (· + 1) h.length, h.owned, h.got, h.freed, h.arrays,
        fun hok => congrArg (_ :: ·) (h.tiled hok),
        fun hok => List.forall_mem_cons.mpr ⟨⟨rfl, rfl⟩, h.fresh hok⟩⟩

variable {env}

/-- Whatever the allocators answer, a stream that is set up and then cleared has given back every
block once; and if setting it up does not fail, its fragments tile the blocks in order. -/
theorem audio_setup_clear (hf : 0 < fragsize) (n : ℕ) {s : AudioStream} (hs : s.buffers = none)
    (m : Ledger) :
    let (r, t, m') := audioSetupBuf env n fragsize s m
    let (t', m'') := audioClearBuf t m'
    ∃ blocks, m''.got = m.got ++ blocks ∧ m''.freed = m.freed ++ blocks ∧ m''.arrays = m.arrays ∧
      t'.buffers = none ∧ (r = -eNOMEM ∧ t.buffers = none ∨
        r = 0 ∧ ∃ bs, t.buffers = some bs ∧ bs.length = n ∧ (∀ b ∈ bs, b.Fresh) ∧
          bs.map AudioBuf.place = blocks.flatMap (tiles fragsize)) := by
  have hsome : ¬ s.buffers.isSome = true := by rw [hs]; decide
  unfold audioSetupBuf
  rw [if_neg hsome]
  cases hk : env.kmalloc m.calls
  · simp only [audioClearBuf, hs, Bool.false_eq_true, if_false]
    exact ⟨[], (List.append_nil _).symm, (List.append_nil _).symm, trivial, trivial,
      .inl ⟨trivial, trivial⟩⟩
  · obtain ⟨blocks, h⟩ := setupLoop_spec env hf n (Nat.zero_le n) 0 0
      { m with calls := m.calls + 1, arrays := m.arrays + 1 }
    rw [Nat.zero_mul] at h
    simp only [if_true]
    generalize setupLoop env fragsize n 0 0 0
      { m with calls := m.calls + 1, arrays := m.arrays + 1 } = r at h
    obtain ⟨ok, bs, m'⟩ := r
    have htake : bs.take n = bs := List.take_of_length_le (Nat.le_of_eq h.length)
    have harrays : m'.arrays - 1 = m.arrays := by
      rw [h.arrays]
      exact Int.add_sub_cancel _ _
    cases ok
    · simp only [audioClearBuf, Bool.false_eq_true, if_false, htake]
      exact ⟨blocks, h.got, congrArg₂ _ h.freed h.owned, harrays, trivial, .inl ⟨trivial, trivial⟩⟩
    · simp only [audioClearBuf, if_true, htake]
      exact ⟨blocks, h.got, congrArg₂ _ h.freed h.owned, harrays, trivial,
        .inr ⟨trivial, bs, rfl, h.length, h.fresh rfl, h.tiled rfl⟩⟩

/-- Eight fragments of 8192 bytes, where there is no block of more than 40960. -/
theorem audio_setup_clear_default :
    let env : Allocator := ⟨fun _ => true, fun n size =>
      if size ≤ 40960 then some (0x10000 * n, 0x33000000 + 0x10000 * n) else none⟩
    let (r, t, m') := audioSetupBuf env 8 8192 ⟨none, 0, 0, 0⟩ ⟨0, [], [], 0⟩
    let (t', m'') := audioClearBuf t m'
    ∃ blocks, m''.got = [] ++ blocks ∧ m''.freed = [] ++ blocks ∧ m''.arrays = 0 ∧
      t'.buffers = none ∧ (r = -eNOMEM ∧ t.buffers = none ∨
        r = 0 ∧ ∃ bs, t.buffers = some bs ∧ bs.length = 8 ∧ (∀ b ∈ bs, b.Fresh) ∧
          bs.map AudioBuf.place = blocks.flatMap (tiles 8192)) := by
  intro env
  exact @audio_setup_clear env 8192 (by decide) 8 ⟨none, 0, 0, 0⟩ rfl ⟨0, [], [], 0⟩

/-! ### Apart -/

/-- Two blocks that do not overlap. -/
def Block.Apart (b c : Block) : Prop := b.start + b.size ≤ c.start ∨ c.start + c.size ≤ b.start

/-- The fragments of a stream: where they are, and that no two overlap. -/
structure Fragments (n : ℕ) where
  fragsize : ℕ
  pos : 0 < fragsize
  start : Fin n → ℕ
  apart : ∀ i j, i ≠ j → start i + fragsize ≤ start j ∨ start j + fragsize ≤ start i

theorem tilesFrom_mem {k start phys : ℕ} {p : ℕ × ℕ} (h : p ∈ tilesFrom fragsize k start phys) :
    start ≤ p.1 ∧ p.1 + fragsize ≤ start + k * fragsize := by
  induction k generalizing start phys with
  | zero => cases h
  | succ k ih =>
    rw [Nat.succ_mul]
    rcases List.mem_cons.mp h with rfl | h
    · dsimp only
      omega
    · have hp := ih h
      omega

theorem tilesFrom_apart (k start phys : ℕ) :
    (tilesFrom fragsize k start phys).Pairwise fun p q => p.1 + fragsize ≤ q.1 := by
  induction k generalizing start phys with
  | zero => exact .nil
  | succ k ih => exact .cons (fun q hq => (tilesFrom_mem hq).1) (ih _ _)

/-- In blocks that are apart, so are the fragments. -/
theorem fragments_of_setup (hf : 0 < fragsize) {bs : List AudioBuf} {blocks : List Block}
    (hblocks : blocks.Pairwise Block.Apart)
    (hbs : bs.map AudioBuf.place = blocks.flatMap (tiles fragsize)) :
    ∃ f : Fragments bs.length, f.fragsize = fragsize ∧ ∀ i, f.start i = (bs.get i).start := by
  have hin : ∀ {b : Block} {p}, p ∈ tiles fragsize b → b.start ≤ p.1 ∧
      p.1 + fragsize ≤ b.start + b.size := by
    intro b p hp
    obtain ⟨hle, hle'⟩ := tilesFrom_mem hp
    exact ⟨hle, Nat.le_trans hle' (Nat.add_le_add_left (Nat.div_mul_le_self _ _) _)⟩
  have hpair : (bs.map AudioBuf.place).Pairwise fun p q =>
      p.1 + fragsize ≤ q.1 ∨ q.1 + fragsize ≤ p.1 := by
    rw [hbs, List.pairwise_flatMap]
    refine ⟨fun b _ => (tilesFrom_apart _ _ _).imp .inl, hblocks.imp ?_⟩
    intro b c hbc p hp q hq
    have := hin hp
    have := hin hq
    rcases hbc with h | h <;> omega
  rw [List.pairwise_map, List.pairwise_iff_getElem] at hpair
  refine ⟨⟨fragsize, hf, fun i => (bs.get i).start, ?_⟩, rfl, fun _ => rfl⟩
  intro i j hij
  rcases Nat.lt_or_gt_of_ne (Fin.val_ne_of_ne hij) with h | h
  · exact hpair i j i.isLt j.isLt h
  · exact (hpair j i j.isLt i.isLt h).symm

end S3c2440.Sound
