import S3c2440.Sound.Playback

/-!
# Recording

`smdk2410_audio_read` of `s3c-wm8976.c`, with the DMA channel that fills the fragments and its
callback `audio_dmain_done_callback`. The first call queues all fragments. A call reads the fragment
at `idx` from `start + fragsize - size` on, and queues it again when it is empty. One process reads,
and the channel goes on at any time.

A sample that comes while nothing is queued is no event here: it is not captured.

## What is proved

* `capture_stream` — what the calls have delivered, and what is still in the fragments, are together
  what has been captured, in order, whatever the order of steps; which fragments are to be read
  follows from where the process is and from the queue.
-/

namespace S3c2440.Sound

open Theory Theory.Ring Theory.Segment

variable {n : ℕ}

/-- A call of `smdk2410_audio_read`, and what it has copied to the user. -/
structure Read where
  /-- `count`, as it was given. -/
  total : ℕ
  nonblock : Bool
  got : List Byte
  deriving DecidableEq

namespace Read

/-- `count`. -/
def count (c : Read) : ℕ := c.total - c.got.length

/-- `if ((buffer - buffer0)) ret = buffer - buffer0;` -/
def result (c : Read) (ret : ℤ) : ℤ := if c.got.length ≠ 0 then c.got.length else ret

end Read

namespace Recorder

/-- Where the process is. -/
inductive Pc where
  /-- In no call. -/
  | idle
  /-- `for (i = 0; i < s->nbfrags; i++)`. -/
  | prime (c : Read) (i : ℕ)
  /-- Before `s3c2410_dma_enqueue`, with the semaphore. -/
  | primeHeld (c : Read) (i : ℕ)
  /-- Before `NEXT_BUF(s, buf);`. -/
  | primeQueued (c : Read) (i : ℕ)
  /-- `while (count > 0)`. -/
  | loop (c : Read)
  /-- Before `copy_to_user`, with the semaphore. -/
  | copy (c : Read)
  /-- Before `if (b->size > 0)`. -/
  | copied (c : Read)
  /-- Before `NEXT_BUF(s, buf);`. -/
  | queued (c : Read)
  deriving DecidableEq

/-- What can happen. -/
inductive Action where
  /-- `read` is called. -/
  | read (count : ℕ) (nonblock : Bool)
  /-- The call goes on. -/
  | cpu
  /-- A signal ends it while it waits. -/
  | signal
  /-- `copy_to_user` fails. -/
  | fault
  /-- `s3c2410_dma_enqueue` fails; its result is not looked at. -/
  | refuse
  /-- The channel captures a byte. -/
  | capture (v : Byte)
  /-- It is done with a fragment. -/
  | done
  deriving DecidableEq

end Recorder

/-- The input stream, the memory and the channel. -/
structure Input (n : ℕ) where
  mem : ℕ → Byte
  /-- `size` of each fragment. -/
  size : Fin n → ℕ
  /-- The counts of the semaphores. -/
  sem : Fin n → ℕ
  /-- `buf_idx`. -/
  idx : Fin n
  /-- The fragments that have been queued for DMA. -/
  queue : List (Fin n)
  /-- How much of the first has been filled. -/
  pos : ℕ
  /-- All that has been captured. -/
  captured : List Byte

namespace Input

variable (f : Fragments n) (s : Input n)

/-- `down(&s->buf->sem)` of a semaphore that can be had. -/
def down : Input n := { s with sem := Function.update s.sem s.idx (s.sem s.idx - 1) }

/-- `up(&s->buf->sem)`. -/
def up : Input n := { s with sem := Function.update s.sem s.idx (s.sem s.idx + 1) }

/-- `b->size -= k`. -/
def shrink (k : ℕ) : Input n :=
  { s with size := Function.update s.size s.idx (s.size s.idx - k) }

/-- `s3c2410_dma_enqueue(s->dma_ch, (void *) b, b->dma_addr, s->fragsize)`. -/
def enqueue : Input n := { s with queue := s.queue ++ [s.idx] }

/-- `NEXT_BUF(s, buf);` -/
def nextBuf : Input n := { s with idx := next s.idx }

/-- The channel captures a byte. -/
def capture (v : Byte) : Option (Input n) :=
  match s.queue with
  | [] => none
  | b :: _ =>
    if s.pos < f.fragsize then
      some { s with
        mem := put s.mem (f.start b + s.pos) [v]
        pos := s.pos + 1
        captured := s.captured ++ [v] }
    else none

/-- The channel is at the end of a fragment: `audio_dmain_done_callback`. -/
def done : Option (Input n) :=
  match s.queue with
  | [] => none
  | b :: q =>
    if s.pos = f.fragsize then
      some { s with
        queue := q
        pos := 0
        size := Function.update s.size b f.fragsize
        sem := Function.update s.sem b (s.sem b + 1) }
    else none

end Input

/-- The driver and the process. -/
structure Recorder (n : ℕ) where
  stream : Input n
  /-- A call has set up the buffers. -/
  ready : Bool
  pc : Recorder.Pc
  /-- The calls that have returned, with their results. -/
  log : List (Read × ℤ)

namespace Recorder

variable (f : Fragments n) (s : Recorder n)

/-- The call returns. -/
def leave (c : Read) (ret : ℤ) : Recorder n := { s with pc := .idle, log := s.log ++ [(c, ret)] }

/-- `chunksize`. -/
def chunksize (c : Read) : ℕ := min (s.stream.size s.stream.idx) c.count

/-- The next step of the call; `none` where it waits. -/
def cpu : Option (Recorder n) :=
  let b := s.stream.idx
  match s.pc with
  | .idle => none
  | .prime c i =>
    if i < n then
      if 0 < s.stream.sem b then some { s with stream := s.stream.down, pc := .primeHeld c i }
      else none
    else some { s with pc := .loop c }
  | .primeHeld c i => some { s with stream := s.stream.enqueue, pc := .primeQueued c i }
  | .primeQueued c i => some { s with stream := s.stream.nextBuf, pc := .prime c (i + 1) }
  | .loop c =>
    if c.count = 0 then some (s.leave c (c.result 0))
    else if 0 < s.stream.sem b then some { s with stream := s.stream.down, pc := .copy c }
    else if c.nonblock then some (s.leave c (c.result (-eAGAIN)))
    else none
  | .copy c =>
    let bs := segment s.stream.mem (f.start b + f.fragsize - s.stream.size b) (s.chunksize c)
    some { s with
      stream := s.stream.shrink (s.chunksize c)
      pc := .copied { c with got := c.got ++ bs } }
  | .copied c =>
    if 0 < s.stream.size b then
      some (leave { s with stream := s.stream.up } c
        (c.result (if c.nonblock then -eAGAIN else -eRESTARTSYS)))
    else some { s with stream := s.stream.enqueue, pc := .queued c }
  | .queued c => some { s with stream := s.stream.nextBuf, pc := .loop c }

/-- A signal, where the call waits for a semaphore in `down_interruptible`. -/
def signal : Option (Recorder n) :=
  match s.pc with
  | .loop c =>
    if c.count ≠ 0 ∧ s.stream.sem s.stream.idx = 0 ∧ c.nonblock = false then
      some (s.leave c (c.result (-eRESTARTSYS)))
    else none
  | _ => none

/-- `copy_to_user` fails. -/
def fault : Option (Recorder n) :=
  match s.pc with
  | .copy c =>
    if 0 < s.chunksize c then some (leave { s with stream := s.stream.up } c (-eFAULT)) else none
  | _ => none

/-- `s3c2410_dma_enqueue` fails. -/
def refuse : Option (Recorder n) :=
  match s.pc with
  | .primeHeld c i => some { s with pc := .primeQueued c i }
  | .copied c => if 0 < s.stream.size s.stream.idx then none else some { s with pc := .queued c }
  | _ => none

/-- What an action does. -/
def step : Step (Recorder n) Action
  | s, .read count nonblock =>
    if s.pc = .idle then
      if s.ready then some { s with pc := .loop ⟨count, nonblock, []⟩ }
      else some { s with ready := true, pc := .prime ⟨count, nonblock, []⟩ 0 }
    else none
  | s, .cpu => s.cpu f
  | s, .signal => s.signal
  | s, .fault => s.fault
  | s, .refuse => s.refuse
  | s, .capture v => (s.stream.capture f v).map fun t => { s with stream := t }
  | s, .done => (s.stream.done f).map fun t => { s with stream := t }

/-- Before the first call. -/
def start (mem : ℕ → Byte) (i : Fin n) : Recorder n where
  stream := ⟨mem, fun _ => 0, fun _ => 1, i, [], 0, []⟩
  ready := false
  pc := .idle
  log := []

end Recorder

/-! ### The ring -/

namespace Input

variable (f : Fragments n) (s : Input n)

/-- What is still to be read of a fragment. -/
def rest (b : Fin n) : List Byte := segment s.mem (f.start b + f.fragsize - s.size b) (s.size b)

/-- What the channel has put in the fragment it is filling. -/
def partly : List Byte :=
  match s.queue with
  | [] => []
  | b :: _ => segment s.mem (f.start b) s.pos

/-- The call has the fragment at `idx`. -/
def Held : Prop := s.sem s.idx = 0 ∧ s.idx ∉ s.queue

/-- The `m` fragments from `base` on are the ones in `full`, to be read in this order, and then those
in the queue; what is in them comes behind what has been delivered. -/
structure Ok (base : Fin n) (m : ℕ) (full : List (Fin n)) (out : List Byte) : Prop where
  ring : full ++ s.queue = cells id base m
  le : m ≤ n
  busy : ∀ b ∈ s.queue, s.sem b = 0
  sem_le : ∀ b, s.sem b ≤ 1
  fits : ∀ b ∈ full, s.size b ≤ f.fragsize
  pos_le : s.pos ≤ f.fragsize
  pos_nil : s.queue = [] → s.pos = 0
  stream : out ++ full.flatMap (s.rest f) ++ s.partly f = s.captured

variable {f s} {base : Fin n} {m : ℕ} {full : List (Fin n)} {out : List Byte}

namespace Ok

theorem nodup (h : s.Ok f base m full out) : (full ++ s.queue).Nodup :=
  h.ring ▸ nodup_cells h.le

theorem down (h : s.Ok f base m full out) (hsem : 0 < s.sem s.idx) :
    s.down.Ok f base m full out ∧ s.down.Held := by
  have hmem : s.idx ∉ s.queue := fun hmem => Nat.ne_of_gt hsem (h.busy _ hmem)
  have hone : s.sem s.idx = 1 := Nat.le_antisymm (h.sem_le _) hsem
  have hself : s.down.sem s.idx = 0 := by
    show Function.update s.sem s.idx (s.sem s.idx - 1) s.idx = 0
    rw [Function.update_self, hone]
  have hother : ∀ b, b ≠ s.idx → s.down.sem b = s.sem b := fun b hb => Function.update_of_ne hb _ _
  refine ⟨⟨h.ring, h.le, ?_, ?_, h.fits, h.pos_le, h.pos_nil, h.stream⟩, hself, hmem⟩
  · intro b hb
    exact (hother b (ne_of_mem_of_not_mem hb hmem)).trans (h.busy b hb)
  · intro b
    by_cases hb : b = s.idx
    · rw [hb, hself]
      exact Nat.zero_le 1
    · exact (hother b hb).trans_le (h.sem_le b)

theorem up (h : s.Ok f base m full out) (hheld : s.Held) : s.up.Ok f base m full out := by
  obtain ⟨hsem, hmem⟩ := hheld
  have hother : ∀ b, b ≠ s.idx → s.up.sem b = s.sem b := fun b hb => Function.update_of_ne hb _ _
  refine ⟨h.ring, h.le, ?_, ?_, h.fits, h.pos_le, h.pos_nil, h.stream⟩
  · intro b hb
    exact (hother b (ne_of_mem_of_not_mem hb hmem)).trans (h.busy b hb)
  · intro b
    by_cases hb : b = s.idx
    · rw [hb]
      show Function.update s.sem s.idx (s.sem s.idx + 1) s.idx ≤ 1
      rw [Function.update_self, hsem]
    · exact (hother b hb).trans_le (h.sem_le b)

theorem partly_enqueue (h : s.Ok f base m full out) : s.enqueue.partly f = s.partly f := by
  unfold partly enqueue
  cases hq : s.queue with
  | nil =>
    show segment s.mem (f.start s.idx) s.pos = []
    rw [h.pos_nil hq, segment_zero]
  | cons b q => rfl

/-- A fragment is queued behind the others. -/
theorem enqueue {base' : Fin n} {m' : ℕ} {full' : List (Fin n)} (h : s.Ok f base m full out)
    (hsem : s.sem s.idx = 0) (hring : full' ++ (s.queue ++ [s.idx]) = cells id base' m')
    (hle : m' ≤ n) (hfull : ∀ b ∈ full', b ∈ full)
    (hrest : full'.flatMap (s.rest f) = full.flatMap (s.rest f)) :
    s.enqueue.Ok f base' m' full' out := by
  refine ⟨hring, hle, ?_, h.sem_le, fun b hb => h.fits b (hfull b hb), h.pos_le, ?_, ?_⟩
  · intro b hb
    rcases List.mem_append.mp hb with hb | hb
    · exact h.busy b hb
    · rw [List.mem_singleton.mp hb]
      exact hsem
  · intro hnil
    exact absurd hnil (List.append_ne_nil_of_right_ne_nil _ (List.cons_ne_nil _ _))
  · rw [h.partly_enqueue]
    exact hrest ▸ h.stream

/-- In the first call. -/
theorem prime (h : s.Ok f base m full out) (hidx : s.idx = skip base m) (hm : m < n)
    (hsem : s.sem s.idx = 0) : s.enqueue.Ok f base (m + 1) full out := by
  refine h.enqueue hsem ?_ hm (fun _ hb => hb) rfl
  rw [← List.append_assoc, h.ring, cells_succ_last, hidx]
  rfl

/-- What can be read is in the first fragment. -/
theorem first (h : s.Ok f s.idx n full out) (hmem : s.idx ∉ s.queue) :
    ∃ l, full = s.idx :: l ∧ s.idx ∉ l := by
  have hring := h.ring
  cases full with
  | nil =>
    rw [List.nil_append] at hring
    exact absurd (hring ▸ mem_cells.mpr ⟨0, s.idx.pos, (skip_zero _).symm⟩) hmem
  | cons b l =>
    rw [cells_of_pos _ _ s.idx.pos] at hring
    have hb : b = s.idx := (List.cons.inj hring).1
    subst hb
    exact ⟨l, rfl, fun hl => (List.nodup_cons.mp h.nodup).1 (List.mem_append_left _ hl)⟩

/-- The fragment that has been read is queued, and the next one is read. -/
theorem requeue (h : s.Ok f s.idx n full out) (hheld : s.Held) (hsize : s.size s.idx = 0) :
    ∃ l, s.enqueue.Ok f (next s.idx) n l out := by
  obtain ⟨hsem, hmem⟩ := hheld
  obtain ⟨l, rfl, -⟩ := h.first hmem
  have hrest : s.rest f s.idx = [] := by rw [rest, hsize, segment_zero]
  refine ⟨l, h.enqueue hsem ?_ le_rfl (fun _ hb => List.mem_cons_of_mem _ hb) ?_⟩
  · rw [← List.append_assoc]
    exact cells_turn h.ring
  · rw [List.flatMap_cons, hrest, List.nil_append]

/-- Bytes are read from the first fragment. -/
theorem read {k : ℕ} (h : s.Ok f s.idx n full out) (hmem : s.idx ∉ s.queue)
    (hk : k ≤ s.size s.idx) :
    (s.shrink k).Ok f s.idx n full
      (out ++ segment s.mem (f.start s.idx + f.fragsize - s.size s.idx) k) := by
  obtain ⟨l, rfl, hl⟩ := h.first hmem
  have hfits := h.fits s.idx List.mem_cons_self
  have hself : (s.shrink k).size s.idx = s.size s.idx - k := Function.update_self ..
  have hother : ∀ b, b ≠ s.idx → (s.shrink k).size b = s.size b :=
    fun b hb => Function.update_of_ne hb _ _
  refine ⟨h.ring, h.le, h.busy, h.sem_le, ?_, h.pos_le, h.pos_nil, ?_⟩
  · intro b hb
    by_cases heq : b = s.idx
    · rw [heq, hself]
      omega
    · exact (hother b heq).trans_le (h.fits b hb)
  · have hrest : ∀ b ∈ l, (s.shrink k).rest f b = s.rest f b := by
      intro b hb
      rw [rest, rest, hother b (ne_of_mem_of_not_mem hb hl)]
      rfl
    have hfirst : s.rest f s.idx = segment s.mem (f.start s.idx + f.fragsize - s.size s.idx) k ++
        (s.shrink k).rest f s.idx := by
      have hend : f.start s.idx + f.fragsize - (s.size s.idx - k) =
          f.start s.idx + f.fragsize - s.size s.idx + k := by omega
      obtain ⟨j, hj⟩ := Nat.exists_eq_add_of_le hk
      rw [rest, rest, hself, hend, show s.size s.idx - k = j by omega]
      show _ = _ ++ segment s.mem _ j
      rw [← segment_add, ← hj]
    have hstream := h.stream
    rw [List.flatMap_cons, hfirst] at hstream
    rw [List.flatMap_cons, List.flatMap_congr hrest, show (s.shrink k).partly f = s.partly f from rfl]
    show _ = s.captured
    simpa only [List.append_assoc] using hstream

/-- The fragment that the channel is filling is not to be read. -/
theorem ne_of_mem {b c : Fin n} {q : List (Fin n)} (h : s.Ok f base m full out)
    (hq : s.queue = b :: q) (hc : c ∈ full) : c ≠ b := by
  have hnodup := h.nodup
  rw [hq] at hnodup
  exact (List.nodup_append.mp hnodup).2.2 c hc b List.mem_cons_self

theorem capture {v : Byte} {t : Input n} (h : s.Ok f base m full out)
    (ht : s.capture f v = some t) : t.Ok f base m full out := by
  unfold Input.capture at ht
  split at ht
  · cases ht
  · rename_i b q hq
    split at ht
    · rename_i hlt
      cases ht
      refine ⟨h.ring, h.le, h.busy, h.sem_le, h.fits, hlt, ?_, ?_⟩
      · intro hnil
        rw [hq] at hnil
        cases hnil
      · have hrest : ∀ c ∈ full, segment (put s.mem (f.start b + s.pos) [v])
            (f.start c + f.fragsize - s.size c) (s.size c) = s.rest f c := by
          intro c hc
          refine segment_put_of_apart ?_
          have hsize := h.fits c hc
          rw [List.length_singleton]
          rcases f.apart _ _ (h.ne_of_mem hq hc) with hap | hap <;> omega
        have hpartly : segment (put s.mem (f.start b + s.pos) [v]) (f.start b) (s.pos + 1) =
            s.partly f ++ [v] := by
          rw [segment_add, segment_put_of_apart (.inl le_rfl)]
          show _ ++ segment _ _ [v].length = _
          rw [segment_put_self, partly, hq]
        have hpartly' : partly f { s with
            mem := put s.mem (f.start b + s.pos) [v]
            pos := s.pos + 1
            captured := s.captured ++ [v] } = s.partly f ++ [v] := by
          rw [← hpartly]
          unfold partly
          dsimp only
          rw [hq]
        rw [hpartly', ← List.append_assoc]
        refine congrArg (· ++ [v]) (Eq.trans ?_ h.stream)
        exact congrArg (out ++ · ++ s.partly f) (List.flatMap_congr hrest)
    · cases ht

theorem done {t : Input n} (h : s.Ok f base m full out) (ht : s.done f = some t) :
    ∃ full', t.Ok f base m full' out := by
  unfold Input.done at ht
  split at ht
  · cases ht
  · rename_i b q hq
    split at ht
    · rename_i hpos
      cases ht
      have hnodup := h.nodup
      rw [hq] at hnodup
      have hb : b ∉ q := (List.nodup_cons.mp (List.nodup_append.mp hnodup).2.1).1
      refine ⟨full ++ [b], ?_, h.le, ?_, ?_, ?_, Nat.zero_le _, fun _ => rfl, ?_⟩
      · rw [← h.ring, hq, List.append_assoc, List.singleton_append]
      · intro c hc
        exact (Function.update_of_ne (ne_of_mem_of_not_mem hc hb) _ _).trans
          (h.busy c (hq ▸ List.mem_cons_of_mem b hc))
      · intro c
        show Function.update s.sem b (s.sem b + 1) c ≤ 1
        by_cases hc : c = b
        · rw [hc, Function.update_self, h.busy b (hq ▸ List.mem_cons_self)]
        · rw [Function.update_of_ne hc]
          exact h.sem_le c
      · intro c hc
        show Function.update s.size b f.fragsize c ≤ f.fragsize
        by_cases heq : c = b
        · rw [heq, Function.update_self]
        · rw [Function.update_of_ne heq]
          refine h.fits c ((List.mem_append.mp hc).resolve_right fun hc => heq ?_)
          exact List.mem_singleton.mp hc
      · have hrest : ∀ c ∈ full, segment s.mem
            (f.start c + f.fragsize - Function.update s.size b f.fragsize c)
            (Function.update s.size b f.fragsize c) = s.rest f c := by
          intro c hc
          rw [Function.update_of_ne (h.ne_of_mem hq hc), rest]
        have hpartly : segment s.mem (f.start b + f.fragsize - f.fragsize) f.fragsize =
            s.partly f := by
          rw [Nat.add_sub_cancel, partly, hq, hpos]
        have hfull : (full ++ [b]).flatMap (fun c => segment s.mem
            (f.start c + f.fragsize - Function.update s.size b f.fragsize c)
            (Function.update s.size b f.fragsize c)) = full.flatMap (s.rest f) ++ s.partly f := by
          rw [List.flatMap_append, List.flatMap_congr hrest, List.flatMap_singleton,
            Function.update_self, hpartly]
        have hnone : partly f { s with
            queue := q
            pos := 0
            size := Function.update s.size b f.fragsize
            sem := Function.update s.sem b (s.sem b + 1) } = [] := by
          unfold partly
          cases q <;> rfl
        rw [hnone, List.append_nil]
        refine Eq.trans (congrArg (out ++ ·) hfull) ?_
        rw [← List.append_assoc]
        exact h.stream
    · cases ht

theorem nextBuf (h : s.Ok f base m full out) : s.nextBuf.Ok f base m full out :=
  ⟨h.ring, h.le, h.busy, h.sem_le, h.fits, h.pos_le, h.pos_nil, h.stream⟩

end Ok

theorem capture_keeps {v : Byte} {t : Input n} (ht : s.capture f v = some t) :
    t.idx = s.idx ∧ (s.Held → t.Held) := by
  unfold capture at ht
  (repeat' split at ht) <;> cases ht
  exact ⟨rfl, id⟩

theorem done_keeps {t : Input n} (ht : s.done f = some t) : t.idx = s.idx ∧ (s.Held → t.Held) := by
  unfold done at ht
  split at ht
  · cases ht
  · rename_i b q hq
    split at ht <;> cases ht
    refine ⟨rfl, fun ⟨hzero, hmem⟩ => ?_⟩
    rw [hq, List.mem_cons, not_or] at hmem
    exact ⟨(Function.update_of_ne hmem.1 _ _).trans hzero, hmem.2⟩

end Input

/-! ### The recorder -/

namespace Recorder

variable {f : Fragments n} {i : Fin n} {s : Recorder n} {base : Fin n} {m : ℕ}
  {full : List (Fin n)}

/-- What the calls have copied to the user. -/
def Pc.got : Pc → List Byte
  | idle => []
  | prime c _ | primeHeld c _ | primeQueued c _ | loop c | copy c | copied c | queued c => c.got

/-- What the calls have delivered. -/
def delivered (s : Recorder n) : List Byte := s.log.flatMap (fun r => r.1.got) ++ s.pc.got

/-- The fragments to be read and then those in the queue, in their order. In the first call, where the
ring begins at `i`, these are the ones that have been queued so far; later all of them, from `idx`
on. -/
def ring (i : Fin n) (ready : Bool) (s : Input n) : Pc → List (Fin n)
  | .idle => if ready then cells id s.idx n else []
  | .prime _ k | .primeHeld _ k => cells id i k
  | .primeQueued _ k => cells id i (k + 1)
  | .loop _ | .copy _ | .copied _ => cells id s.idx n
  | .queued _ => cells id (next s.idx) n

/-- Where the ring begins, how many fragments are in it, and what the call has. -/
def Place (i base : Fin n) (m : ℕ) (ready : Bool) (s : Input n) : Pc → Prop
  | .idle => base = s.idx ∧ (m = if ready then n else 0) ∧ (ready = false → s.idx = i)
  | .prime _ k => base = i ∧ s.idx = skip i k ∧ m = k
  | .primeHeld _ k => base = i ∧ s.idx = skip i k ∧ m = k ∧ k < n ∧ s.Held
  | .primeQueued _ k => base = i ∧ s.idx = skip i k ∧ m = k + 1
  | .loop _ => base = s.idx ∧ m = n
  | .copy _ | .copied _ => base = s.idx ∧ m = n ∧ s.Held
  | .queued _ => base = next s.idx ∧ m = n

theorem Place.ring {ready : Bool} {s : Input n} {pc : Pc} (h : Place i base m ready s pc) :
    cells id base m = Recorder.ring i ready s pc := by
  cases pc with
  | idle =>
    obtain ⟨rfl, rfl, -⟩ := h
    cases ready <;> rfl
  | prime c k | primeQueued c k =>
    obtain ⟨rfl, -, rfl⟩ := h
    rfl
  | primeHeld c k =>
    obtain ⟨rfl, -, rfl, -⟩ := h
    rfl
  | loop c | queued c =>
    obtain ⟨rfl, rfl⟩ := h
    rfl
  | copy c | copied c =>
    obtain ⟨rfl, rfl, -⟩ := h
    rfl

/-- What the steps keep. -/
structure Inv (f : Fragments n) (i : Fin n) (s : Recorder n) : Prop where
  ok : ∃ base m full,
    s.stream.Ok f base m full s.delivered ∧ Place i base m s.ready s.stream s.pc
  ready : s.pc ≠ .idle → s.ready = true
  /-- A result that is no error is what has been copied. -/
  results : ∀ r ∈ s.log, 0 ≤ r.2 → r.2 = r.1.got.length

theorem result_eq {c : Read} {ret : ℤ} (hret : ret ≤ 0) (h : 0 ≤ c.result ret) :
    c.result ret = c.got.length := by
  unfold Read.result at h ⊢
  split at h
  · rename_i hne
    rw [if_pos hne]
  · rename_i hne
    rw [if_neg hne, le_antisymm hret h, not_not.mp hne]
    rfl

/-- A call returns. -/
theorem Inv.leave {t : Input n} {c : Read} {ret : ℤ} (h : s.Inv f i) (hpc : s.pc ≠ .idle)
    (hok : t.Ok f t.idx n full (s.log.flatMap (fun r => r.1.got) ++ c.got))
    (hret : 0 ≤ ret → ret = c.got.length) : (Recorder.leave { s with stream := t } c ret).Inv f i := by
  have hready := h.ready hpc
  refine ⟨⟨t.idx, n, full, ?_, rfl, ?_, ?_⟩, fun hne => absurd rfl hne, ?_⟩
  · have hout : (Recorder.leave { s with stream := t } c ret).delivered =
        s.log.flatMap (fun r => r.1.got) ++ c.got := by
      rw [delivered, Recorder.leave, List.flatMap_append, List.flatMap_singleton]
      exact List.append_nil _
    rw [hout]
    exact hok
  · exact (if_pos hready).symm
  · intro hfalse
    exact nomatch hready.symm.trans hfalse
  · intro r hr
    rcases List.mem_append.mp hr with hr | hr
    · exact h.results r hr
    · cases List.mem_singleton.mp hr
      exact hret

/-- The call goes on. -/
theorem Inv.go {t : Input n} {pc : Pc} (h : s.Inv f i) (hpc : s.pc ≠ .idle)
    (hok : t.Ok f base m full (s.log.flatMap (fun r => r.1.got) ++ pc.got))
    (hplace : Place i base m s.ready t pc) : Inv f i { s with stream := t, pc := pc } :=
  ⟨⟨base, m, full, hok, hplace⟩, fun _ => h.ready hpc, h.results⟩

theorem Inv.cpu {t : Recorder n} (h : s.Inv f i) (ht : s.cpu f = some t) : t.Inv f i := by
  obtain ⟨base, m, full, hok, hplace⟩ := h.ok
  rw [delivered] at hok
  unfold Recorder.cpu at ht
  dsimp only at ht
  cases hpc : s.pc with
  | idle =>
    rw [hpc] at ht
    cases ht
  | prime c k =>
    have hne : s.pc ≠ .idle := by rw [hpc]; nofun
    rw [hpc] at ht hok hplace
    obtain ⟨rfl, hidx, rfl⟩ := hplace
    dsimp only at ht
    split at ht
    · rename_i hk
      split at ht
      · rename_i hsem
        cases ht
        obtain ⟨hdown, hheld⟩ := hok.down hsem
        exact h.go hne hdown ⟨rfl, hidx, rfl, hk, hheld⟩
      · cases ht
    · rename_i hk
      cases ht
      obtain rfl : m = n := Nat.le_antisymm hok.le (Nat.le_of_not_lt hk)
      exact h.go hne hok ⟨(hidx.trans (skip_turn base)).symm, rfl⟩
  | primeHeld c k =>
    have hne : s.pc ≠ .idle := by rw [hpc]; nofun
    rw [hpc] at ht hok hplace
    obtain ⟨rfl, hidx, rfl, hk, hheld⟩ := hplace
    cases ht
    exact h.go hne (hok.prime hidx hk hheld.1) ⟨rfl, hidx, rfl⟩
  | primeQueued c k =>
    have hne : s.pc ≠ .idle := by rw [hpc]; nofun
    rw [hpc] at ht hok hplace
    obtain ⟨rfl, hidx, rfl⟩ := hplace
    cases ht
    refine h.go hne hok.nextBuf ⟨rfl, ?_, rfl⟩
    show next s.stream.idx = _
    rw [hidx, ← skip_one, skip_skip]
  | loop c =>
    have hne : s.pc ≠ .idle := by rw [hpc]; nofun
    rw [hpc] at ht hok hplace
    obtain ⟨rfl, rfl⟩ := hplace
    dsimp only at ht
    split at ht
    · cases ht
      exact h.leave hne hok (result_eq le_rfl)
    · split at ht
      · rename_i hsem
        cases ht
        obtain ⟨hdown, hheld⟩ := hok.down hsem
        exact h.go hne hdown ⟨rfl, rfl, hheld⟩
      · split at ht
        · cases ht
          exact h.leave hne hok (result_eq (by decide))
        · cases ht
  | copy c =>
    have hne : s.pc ≠ .idle := by rw [hpc]; nofun
    rw [hpc] at ht hok hplace
    obtain ⟨rfl, rfl, hheld⟩ := hplace
    cases ht
    have hread := hok.read hheld.2 (Nat.min_le_left _ c.count)
    rw [List.append_assoc] at hread
    exact h.go hne hread ⟨rfl, rfl, hheld⟩
  | copied c =>
    have hne : s.pc ≠ .idle := by rw [hpc]; nofun
    rw [hpc] at ht hok hplace
    obtain ⟨rfl, rfl, hheld⟩ := hplace
    dsimp only at ht
    split at ht
    · cases ht
      refine h.leave hne (hok.up hheld) (result_eq ?_)
      split <;> decide
    · rename_i hsize
      cases ht
      obtain ⟨l, hl⟩ := hok.requeue hheld (Nat.eq_zero_of_not_pos hsize)
      exact h.go hne hl ⟨rfl, rfl⟩
  | queued c =>
    have hne : s.pc ≠ .idle := by rw [hpc]; nofun
    rw [hpc] at ht hok hplace
    obtain ⟨rfl, rfl⟩ := hplace
    cases ht
    exact h.go hne hok.nextBuf ⟨rfl, rfl⟩

theorem Inv.signal {t : Recorder n} (h : s.Inv f i) (ht : s.signal = some t) : t.Inv f i := by
  obtain ⟨base, m, full, hok, hplace⟩ := h.ok
  rw [delivered] at hok
  unfold Recorder.signal at ht
  split at ht
  · rename_i c hpc
    have hne : s.pc ≠ .idle := by rw [hpc]; nofun
    rw [hpc] at hok hplace
    obtain ⟨rfl, rfl⟩ := hplace
    split at ht
    · cases ht
      exact h.leave hne hok (result_eq (by decide))
    · cases ht
  · cases ht

theorem Inv.fault {t : Recorder n} (h : s.Inv f i) (ht : s.fault = some t) : t.Inv f i := by
  obtain ⟨base, m, full, hok, hplace⟩ := h.ok
  rw [delivered] at hok
  unfold Recorder.fault at ht
  split at ht
  · rename_i c hpc
    have hne : s.pc ≠ .idle := by rw [hpc]; nofun
    rw [hpc] at hok hplace
    obtain ⟨rfl, rfl, hheld⟩ := hplace
    split at ht
    · cases ht
      exact h.leave hne (hok.up hheld) fun hret => absurd hret (by decide)
    · cases ht
  · cases ht

/-- The channel leaves where the call is, and what it has. -/
theorem Place.channel {t : Input n} {ready : Bool} {pc : Pc} (h : Place i base m ready s.stream pc)
    (hidx : t.idx = s.stream.idx) (hheld : s.stream.Held → t.Held) : Place i base m ready t pc := by
  unfold Place at h ⊢
  rw [hidx]
  cases pc
  case primeHeld c k => exact ⟨h.1, h.2.1, h.2.2.1, h.2.2.2.1, hheld h.2.2.2.2⟩
  case copy | copied => exact ⟨h.1, h.2.1, hheld h.2.2⟩
  all_goals exact h

theorem Inv.step {a : Action} {t : Recorder n} (h : s.Inv f i) (ha : a ≠ .refuse)
    (ht : step f s a = some t) : t.Inv f i := by
  obtain ⟨base, m, full, hok, hplace⟩ := h.ok
  cases a with
  | read count nonblock =>
    obtain ⟨hpc, ht⟩ := Option.ite_none_right_eq_some.mp ht
    rw [delivered, hpc] at hok
    rw [hpc] at hplace
    obtain ⟨rfl, rfl, hfirst⟩ := hplace
    split at ht
    · rename_i hready
      cases ht
      rw [if_pos hready] at hok
      exact ⟨⟨_, _, full, hok, rfl, rfl⟩, fun _ => hready, h.results⟩
    · rename_i hready
      cases ht
      rw [if_neg hready] at hok
      have hidx := hfirst (Bool.eq_false_iff.mpr hready)
      exact ⟨⟨_, _, full, hok, hidx, hidx.trans (skip_zero i).symm, rfl⟩, fun _ => rfl, h.results⟩
  | cpu => exact h.cpu ht
  | signal => exact h.signal ht
  | fault => exact h.fault ht
  | refuse => exact absurd rfl ha
  | capture v =>
    obtain ⟨u, hu, rfl⟩ := Option.map_eq_some_iff.mp ht
    obtain ⟨hidx, hheld⟩ := Input.capture_keeps hu
    exact ⟨⟨base, m, full, hok.capture hu, hplace.channel hidx hheld⟩, h.ready, h.results⟩
  | done =>
    obtain ⟨u, hu, rfl⟩ := Option.map_eq_some_iff.mp ht
    obtain ⟨hidx, hheld⟩ := Input.done_keeps hu
    obtain ⟨full', hfull⟩ := hok.done hu
    exact ⟨⟨base, m, full', hfull, hplace.channel hidx hheld⟩, h.ready, h.results⟩

theorem inv_start (mem : ℕ → Byte) (i : Fin n) : (start mem i).Inv f i where
  ok := ⟨i, 0, [], {
    ring := rfl
    le := Nat.zero_le n
    busy := nofun
    sem_le := fun _ => le_rfl
    fits := nofun
    pos_le := Nat.zero_le _
    pos_nil := fun _ => rfl
    stream := rfl }, rfl, rfl, fun _ => rfl⟩
  ready := fun hne => absurd rfl hne
  results := nofun

end Recorder

/-! ### What is recorded -/

open Recorder

variable {f : Fragments n} {mem : ℕ → Byte} {i : Fin n} {as : List Recorder.Action} {s : Recorder n}

/-- In any order of steps in which `s3c2410_dma_enqueue` does not fail: what the calls have
delivered, then what is in the fragments to be read, which are those of the ring before the queue,
and then what the channel has put in the one it is filling, are what has been captured, in order
and each byte once; a result that is no error says how much was delivered; and the fragment that a
call reads is not in the queue. -/
theorem capture_stream (has : Recorder.Action.refuse ∉ as)
    (h : run (step f) (start mem i) as = some s) :
    ∃ full, full ++ s.stream.queue = ring i s.ready s.stream s.pc ∧
      s.delivered ++ full.flatMap (s.stream.rest f) ++ s.stream.partly f = s.stream.captured ∧
      (∀ r ∈ s.log, 0 ≤ r.2 → r.2 = r.1.got.length) ∧
      ∀ c, s.pc = .copy c → s.stream.idx ∉ s.stream.queue := by
  have halong : Along (step f) (fun _ a => a ≠ .refuse) (start mem i) as :=
    along_of_forall (fun _ a ha => ne_of_mem_of_not_mem ha has) _
  have hinv := (halong.invariant (fun _ _ _ => Inv.step) (inv_start mem i)).last h
  obtain ⟨base, m, full, hok, hplace⟩ := hinv.ok
  refine ⟨full, hok.ring.trans hplace.ring, hok.stream, hinv.results, fun c hpc => ?_⟩
  rw [hpc] at hplace
  exact hplace.2.2.2

/-- Nine bytes are captured: a call that a signal ends has delivered four, four are in the second
fragment, and one is in the first again. -/
theorem capture_stream_nine : ∃ s : Recorder 2,
    s.log = [(⟨6, false, [1, 2, 3, 4]⟩, 4)] ∧ s.stream.captured = [1, 2, 3, 4, 5, 6, 7, 8, 9] ∧
      s.delivered ++ s.stream.rest twoFragments 1 ++ s.stream.partly twoFragments =
        s.stream.captured := by
  let as : List Recorder.Action := .read 6 false :: List.replicate 7 .cpu ++
    [.capture 1, .capture 2, .capture 3, .capture 4, .done, .cpu, .cpu, .cpu, .cpu, .capture 5,
      .signal, .capture 6, .capture 7, .capture 8, .done, .capture 9]
  obtain ⟨s, hs, hlog, hcaptured, hqueue, hring⟩ : ∃ s,
      run (step twoFragments) (start (fun _ => 0) 0) as = some s ∧
      s.log = [(⟨6, false, [1, 2, 3, 4]⟩, 4)] ∧
      s.stream.captured = [1, 2, 3, 4, 5, 6, 7, 8, 9] ∧ s.stream.queue = [0] ∧
      ring 0 s.ready s.stream s.pc = [1, 0] :=
    ⟨_, rfl, rfl, rfl, rfl, rfl⟩
  obtain ⟨full, hfull, hstream, -⟩ := capture_stream (by decide) hs
  rw [hqueue, hring] at hfull
  obtain rfl : full = [1] := List.append_cancel_right hfull
  rw [List.flatMap_singleton] at hstream
  exact ⟨s, hlog, hcaptured, hstream⟩

end S3c2440.Sound
