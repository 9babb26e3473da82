import S3c2440.Theory.Runs
import S3c2440.Theory.Loop
import S3c2440.Theory.Cells
import Mathlib.Algebra.Ring.Nat

/-!
# The RAM disk

`linux_driver/code/块设备驱动/ramblock.c`: a block device in a buffer of 1 MiB. The kernel queues
requests, each for sectors that follow one another, in segments with a buffer of their own each.
`do_ramblock_request` takes the request at the head of the queue with `elv_next_request`, copies its
current segment to its buffer or from it, and has it completed with `end_request`, as long as
there is one. The queue is locked meanwhile (`ramblock_lock`), so no request comes in.

`elv_next_request` gives the same request again until it is completed. `end_request` completes
the current segment: `sector`, `current_nr_sectors` and `buffer` are those of the next one
then, and the request leaves the queue after its last.

## What is proved

* `sectorAt_memcpy` — what a copy of whole sectors does to each sector.
* `inv_serve` — one turn of the loop completes a segment as on an array of sectors.
* `ramblock_refines` — whatever is queued, in whatever order, `do_ramblock_request` empties the
  queue, and has done to the disk what is done to an array of sectors.
-/

namespace S3c2440.RamBlock

open Theory Theory.Cells

/-! ### Requests -/

/-- `RAMBLOCK_SIZE`. -/
def ramblockSize : ℕ := 1024 * 1024

/-- The direction. -/
inductive Dir where
  /-- `READ`. -/
  | read
  /-- `WRITE`. -/
  | write
  deriving DecidableEq

/-- A segment of a request. -/
structure Segment where
  /-- `current_nr_sectors`. -/
  nrSectors : ℕ
  /-- `buffer`. -/
  buffer : ℕ → BitVec 8

/-- `struct request`. -/
structure Request where
  /-- `rq_data_dir`. -/
  dir : Dir
  /-- `sector`. -/
  sector : ℕ
  /-- The current segment. -/
  cur : Segment
  /-- Those after it. -/
  rest : List Segment

/-- The bytes of a sector. -/
abbrev Sector : Type := Fin 512 → BitVec 8

/-- Sector `k` of a buffer. -/
def sectorAt (buf : ℕ → BitVec 8) (k : ℕ) : Sector := fun i => buf (k * 512 + i)

/-- The current segment of a request that has been served, sector by sector. -/
def Request.completed (req : Request) : List (Access ℕ Sector) :=
  match req.dir with
  | .read => (List.range req.cur.nrSectors).map fun k =>
    .read (req.sector + k) (sectorAt req.cur.buffer k)
  | .write => (List.range req.cur.nrSectors).map fun k =>
    .write (req.sector + k) (sectorAt req.cur.buffer k)

/-- The driver and its queue. -/
structure Blk where
  /-- The queue. -/
  queue : List Request
  /-- `ramblock_buffer`. -/
  ramblockBuffer : ℕ → BitVec 8
  /-- What has been queued so far. -/
  queued : List Request
  /-- What has been completed so far. -/
  trace : List (Access ℕ Sector)

/-- After `ramblock_init`: the buffer is from `kzalloc`. -/
def Blk.init : Blk := ⟨[], fun _ => 0, [], []⟩

/-- `memcpy` of `len` bytes, from `m` on in `src` to `n` on in `dst`. -/
def memcpy (dst : ℕ → BitVec 8) (n : ℕ) (src : ℕ → BitVec 8) (m len : ℕ) : ℕ → BitVec 8 :=
  fun i => if n ≤ i ∧ i < n + len then src (m + (i - n)) else dst i

/-- `end_request`. -/
def endRequest (s : Blk) : Blk :=
  match s.queue with
  | [] => s
  | req :: q =>
    { s with
      queue :=
        match req.rest with
        | [] => q
        | seg :: rest =>
          { req with sector := req.sector + req.cur.nrSectors, cur := seg, rest := rest } :: q
      trace := s.trace ++ req.completed }

/-- A turn of the loop of `do_ramblock_request`. The products are of type `unsigned long`. -/
def serve (s : Blk) : Blk :=
  match s.queue with
  | [] => s
  | req :: q =>
    let offset := req.sector * 512 % 2 ^ 32
    let len := req.cur.nrSectors * 512 % 2 ^ 32
    match req.dir with
    | .read =>
      let buffer := memcpy req.cur.buffer 0 s.ramblockBuffer offset len
      endRequest { s with queue := { req with cur := { req.cur with buffer := buffer } } :: q }
    | .write =>
      endRequest { s with
        ramblockBuffer := memcpy s.ramblockBuffer offset req.cur.buffer 0 len }

/-- The segments that are queued. -/
def turns (s : Blk) : ℕ := (s.queue.map fun req => req.rest.length + 1).sum

/-- `do_ramblock_request`. -/
def doRamblockRequest (s : Blk) : Option Blk :=
  whileLoop (fun s => !s.queue.isEmpty) serve (turns s) s

/-- What can happen. -/
inductive Act where
  /-- The kernel queues a request. -/
  | submit (req : Request)
  /-- It calls `do_ramblock_request`. -/
  | call

/-- The request that is queued. -/
def Act.submitted : Act → Option Request
  | .submit req => some req
  | .call => none

/-- One step. -/
def step (s : Blk) : Act → Option Blk
  | .submit req => some { s with queue := s.queue ++ [req], queued := s.queued ++ [req] }
  | .call => doRamblockRequest s

/-! ### What is asked for -/

/-- What a request asks of a sector: to be read, or to be written with something. -/
abbrev Asked : Type := ℕ × Option Sector

/-- What a segment asks for. -/
def Segment.asked (dir : Dir) (sector : ℕ) (seg : Segment) : List Asked :=
  (List.range seg.nrSectors).map fun k =>
    (sector + k, match dir with
      | .read => none
      | .write => some (sectorAt seg.buffer k))

/-- What segments that follow one another ask for. -/
def asked (dir : Dir) (sector : ℕ) : List Segment → List Asked
  | [] => []
  | seg :: segs => seg.asked dir sector ++ asked dir (sector + seg.nrSectors) segs

/-- What a request asks for. -/
def Request.asked (req : Request) : List Asked :=
  RamBlock.asked req.dir req.sector (req.cur :: req.rest)

/-- What an access was asked as. -/
def accessAsked : Access ℕ Sector → Asked
  | .read k _ => (k, none)
  | .write k data => (k, some data)

/-- The sectors of segments. -/
def nrSectors (segs : List Segment) : ℕ := (segs.map Segment.nrSectors).sum

/-- The request lies inside the disk. -/
def Request.InDisk (req : Request) : Prop :=
  req.sector + nrSectors (req.cur :: req.rest) ≤ ramblockSize / 512

/-- What is queued lies inside the disk. -/
def SubmitsInDisk (_ : Blk) (a : Act) : Prop := ∀ req, a = .submit req → req.InDisk

/-- A sector that nothing has been written to. -/
def zeroed : Sector := fun _ => 0

/-- The driver as an array of sectors. -/
structure Inv (s : Blk) : Prop where
  /-- What has been completed, and what is queued, is what has been queued so far. -/
  order : s.trace.map accessAsked ++ s.queue.flatMap Request.asked = s.queued.flatMap Request.asked
  /-- Reads gave what was last written. -/
  answers : Answers (fun _ => zeroed) s.trace
  /-- The buffer has what was last written. -/
  content : ∀ k < ramblockSize / 512,
    sectorAt s.ramblockBuffer k = held (fun _ => zeroed) s.trace k
  /-- What is queued lies inside the disk. -/
  inDisk : ∀ req ∈ s.queue, req.InDisk

section Lemmas

variable {s t : Blk} {req : Request} {a : Act}

/-- A copy of whole sectors. -/
theorem sectorAt_memcpy (dst src : ℕ → BitVec 8) (n m len k : ℕ) :
    sectorAt (memcpy dst (n * 512) src (m * 512) (len * 512)) k =
      if n ≤ k ∧ k < n + len then sectorAt src (m + (k - n)) else sectorAt dst k := by
  funext i
  have hi := i.isLt
  simp only [sectorAt, memcpy]
  by_cases hk : n ≤ k ∧ k < n + len
  · obtain ⟨d, rfl⟩ := Nat.exists_eq_add_of_le hk.1
    rw [if_pos hk, if_pos (by omega)]
    exact congrArg src (by omega)
  · rw [if_neg hk, if_neg (by omega)]
    rfl

theorem completed_asked (req : Request) :
    req.completed.map accessAsked = req.cur.asked req.dir req.sector := by
  unfold Request.completed Segment.asked
  cases req.dir <;> rw [List.map_map] <;> rfl

theorem inDisk_cur (h : req.InDisk) : req.sector + req.cur.nrSectors ≤ ramblockSize / 512 := by
  simp only [Request.InDisk, nrSectors, List.map_cons, List.sum_cons] at h
  omega

/-- What a request asks for, its current segment first. -/
theorem asked_eq (req : Request) : req.asked = req.cur.asked req.dir req.sector ++
    asked req.dir (req.sector + req.cur.nrSectors) req.rest := rfl

/-- A segment is completed as on an array of sectors, if the disk is as after that. -/
theorem Inv.complete {q : List Request} {req' : Request} (h : Inv s) (ram : ℕ → BitVec 8)
    (hq : s.queue = req :: q) (hreq : ∃ buffer, req' = { req with
      cur := { req.cur with buffer := buffer } })
    (hasked : req'.cur.asked req.dir req.sector = req.cur.asked req.dir req.sector)
    (hanswers : Answers (held (fun _ => zeroed) s.trace) req'.completed)
    (hcontent : ∀ k < ramblockSize / 512,
      sectorAt ram k = held (held (fun _ => zeroed) s.trace) req'.completed k) :
    Inv (endRequest { s with queue := req' :: q, ramblockBuffer := ram }) := by
  obtain ⟨buffer, rfl⟩ := hreq
  have hreq := h.inDisk req (hq ▸ List.mem_cons_self ..)
  have hothers : ∀ r ∈ q, r.InDisk := fun r hr => h.inDisk r (hq ▸ List.mem_cons_of_mem req hr)
  refine ⟨?_, answers_append.mpr ⟨h.answers, hanswers⟩, fun k hk => ?_, ?_⟩
  · -- what the segment asks for goes from the queue to the trace
    have horder := h.order
    rw [hq, List.flatMap_cons, asked_eq] at horder
    change (s.trace ++ Request.completed _).map accessAsked ++ _ = s.queued.flatMap Request.asked
    rw [List.map_append, completed_asked, hasked, ← horder, List.append_assoc, List.append_assoc]
    simp only [endRequest]
    cases hrest : req.rest with
    | nil => rfl
    | cons seg rest => rfl
  · change _ = held _ (s.trace ++ Request.completed _) k
    rw [held_append, ← hcontent k hk]
    rfl
  · intro r hr
    simp only [endRequest] at hr
    cases hrest : req.rest with
    | nil =>
      simp only [hrest] at hr
      exact hothers r hr
    | cons seg rest =>
      simp only [hrest] at hr
      rcases List.mem_cons.mp hr with rfl | hr
      · simp only [Request.InDisk, nrSectors, hrest, List.map_cons, List.sum_cons] at hreq ⊢
        omega
      · exact hothers r hr

/-- No product goes beyond 32 bits inside the disk. -/
theorem mul_mod_of_le {n : ℕ} (h : n ≤ ramblockSize / 512) : n * 512 % 2 ^ 32 = n * 512 := by
  rw [ramblockSize] at h
  exact Nat.mod_eq_of_lt (by omega)

/-- A turn of the loop that reads. -/
theorem inv_serve_read {q : List Request} (h : Inv s) (hq : s.queue = req :: q)
    (hdir : req.dir = .read) : Inv (serve s) := by
  have hin := inDisk_cur (h.inDisk req (hq ▸ List.mem_cons_self ..))
  have hoffset := mul_mod_of_le (n := req.sector) (by omega)
  have hlen := mul_mod_of_le (n := req.cur.nrSectors) (by omega)
  have hserve : serve s = endRequest { s with queue := { req with cur := { req.cur with
      buffer := memcpy req.cur.buffer 0 s.ramblockBuffer (req.sector * 512)
        (req.cur.nrSectors * 512) } } :: q } := by
    rw [serve, hq]
    simp only [hdir, hoffset, hlen]
  have hbuffer : ∀ k < req.cur.nrSectors, sectorAt (memcpy req.cur.buffer 0 s.ramblockBuffer
      (req.sector * 512) (req.cur.nrSectors * 512)) k =
        held (fun _ => zeroed) s.trace (req.sector + k) := by
    intro k hk
    have hcopy := sectorAt_memcpy req.cur.buffer s.ramblockBuffer 0 req.sector req.cur.nrSectors k
    rw [Nat.zero_mul, if_pos (by omega), Nat.sub_zero] at hcopy
    exact hcopy.trans (h.content _ (by omega))
  rw [hserve]
  refine h.complete s.ramblockBuffer hq ⟨_, rfl⟩ ?_ ?_ fun k hk => ?_
  · simp only [Segment.asked, hdir]
  · simp only [Request.completed, hdir]
    exact (answers_reads _ _ _).mpr hbuffer
  · simp only [Request.completed, hdir]
    rw [held_reads]
    exact h.content k hk

/-- And one that writes. -/
theorem inv_serve_write {q : List Request} (h : Inv s) (hq : s.queue = req :: q)
    (hdir : req.dir = .write) : Inv (serve s) := by
  have hin := inDisk_cur (h.inDisk req (hq ▸ List.mem_cons_self ..))
  have hoffset := mul_mod_of_le (n := req.sector) (by omega)
  have hlen := mul_mod_of_le (n := req.cur.nrSectors) (by omega)
  have hserve : serve s = endRequest { s with
      queue := req :: q
      ramblockBuffer := memcpy s.ramblockBuffer (req.sector * 512) req.cur.buffer 0
        (req.cur.nrSectors * 512) } := by
    rw [serve, hq]
    simp only [hdir, hoffset, hlen, ← hq]
  rw [hserve]
  refine h.complete _ hq ⟨req.cur.buffer, rfl⟩ rfl ?_ fun k hk => ?_
  · simp only [Request.completed, hdir]
    exact answers_writes _ _ _
  · have hcopy := sectorAt_memcpy s.ramblockBuffer req.cur.buffer req.sector 0
      req.cur.nrSectors k
    simp only [Request.completed, hdir]
    rw [Nat.zero_mul, Nat.zero_add] at hcopy
    rw [hcopy, held_writes, h.content k hk]

/-- A turn of the loop. -/
theorem inv_serve (h : Inv s) : Inv (serve s) := by
  cases hq : s.queue with
  | nil =>
    rw [serve, hq]
    exact h
  | cons req q =>
    cases hdir : req.dir with
    | read => exact inv_serve_read h hq hdir
    | write => exact inv_serve_write h hq hdir

/-- A segment less is queued after `end_request`. -/
theorem turns_endRequest {q : List Request} (hq : s.queue = req :: q) :
    turns (endRequest s) + 1 = turns s := by
  cases hrest : req.rest with
  | nil => simp [turns, endRequest, hq, hrest, Nat.add_comm]
  | cons seg rest => simp [turns, endRequest, hq, hrest]; omega

/-- Each turn completes a segment. -/
theorem turns_serve (hq : s.queue ≠ []) : turns (serve s) < turns s := by
  obtain ⟨req, q, hq⟩ := List.exists_cons_of_ne_nil hq
  have hlt : ∀ u : Blk, ∀ req' : Request, u.queue = req' :: q → req'.rest = req.rest →
      turns (endRequest u) < turns s := by
    intro u req' hu hrest
    have hless := turns_endRequest hu
    have heq : turns u = turns s := by
      simp only [turns, hu, hq, List.map_cons, List.sum_cons, hrest]
    omega
  simp only [serve, hq]
  cases req.dir with
  | read => exact hlt _ _ rfl rfl
  | write => exact hlt _ req rfl rfl

/-- `do_ramblock_request` empties the queue. -/
theorem inv_call (h : Inv s) : ∃ t, doRamblockRequest s = some t ∧ Inv t ∧ t.queue = [] := by
  obtain ⟨t, ht, hinv, hend⟩ := whileLoop_total (fun s : Blk => !s.queue.isEmpty) serve turns
    (turns s) (fun u hu hne => ⟨inv_serve hu, turns_serve (by simpa using hne)⟩) h le_rfl
  exact ⟨t, ht, hinv, by simpa using hend⟩

theorem inv_step (h : Inv s) (ha : SubmitsInDisk s a) (ht : step s a = some t) : Inv t := by
  cases a with
  | call =>
    obtain ⟨u, hu, hinv, -⟩ := inv_call h
    cases hu.symm.trans ht
    exact hinv
  | submit req =>
    cases ht
    refine ⟨?_, h.answers, h.content, fun r hr => ?_⟩
    · simp only [List.flatMap_append]
      rw [← List.append_assoc, h.order]
    · rcases List.mem_append.mp hr with hr | hr
      · exact h.inDisk r hr
      · exact ha r (by rw [List.mem_singleton.mp hr])

theorem inv_init : Inv Blk.init :=
  ⟨rfl, trivial, fun _ _ => rfl, fun _ hr => by cases hr⟩

/-- No turn queues anything. -/
theorem queued_serve (s : Blk) : (serve s).queued = s.queued := by
  have hend : ∀ u : Blk, (endRequest u).queued = u.queued := by
    intro u
    unfold endRequest
    split <;> rfl
  unfold serve
  split
  · rfl
  · dsimp only
    split <;> exact hend _

/-- What has been queued in a run is what its steps have queued. -/
theorem queued_run {as : List Act} (ht : run step s as = some t) :
    t.queued = s.queued ++ as.filterMap Act.submitted := by
  induction as generalizing s with
  | nil =>
    cases ht
    exact (List.append_nil _).symm
  | cons a as ih =>
    obtain ⟨u, hu, ht⟩ := run_cons.mp ht
    rw [ih ht]
    cases a with
    | submit req =>
      cases hu
      exact List.append_assoc ..
    | call =>
      have hkept : u.queued = s.queued := whileLoop_keeps Blk.queued queued_serve hu
      rw [hkept]
      rfl

end Lemmas

/-- Whatever requests inside the disk are queued, and whenever `do_ramblock_request` is called: it
empties the queue; what has been done, and then what is in the queue, is what the requests of the
run ask for, in their order; and every sector read has given, and every sector has, what was
last written to it, or zeros. -/
theorem ramblock_refines {as : List Act} {t : Blk} (h : Along step SubmitsInDisk Blk.init as)
    (ht : run step Blk.init as = some t) :
    (∃ u, step t .call = some u ∧ u.queue = []) ∧
      t.trace.map accessAsked ++ t.queue.flatMap Request.asked =
        (as.filterMap Act.submitted).flatMap Request.asked ∧
      (∀ bs k data cs, t.trace = bs ++ .read k data :: cs →
        data = (lastWritten k bs).getD zeroed) ∧
      ∀ k < ramblockSize / 512,
        sectorAt t.ramblockBuffer k = (lastWritten k t.trace).getD zeroed := by
  have hinv : Inv t := (h.invariant (fun _ _ _ => inv_step) inv_init).last ht
  have hqueued : t.queued = as.filterMap Act.submitted := queued_run ht
  obtain ⟨u, hu, -, hempty⟩ := inv_call hinv
  exact ⟨⟨u, hu, hempty⟩, hqueued ▸ hinv.order, answers_iff.mp hinv.answers, hinv.content⟩

/-- Three sectors are written in two segments, and two of them are read again with the next one. -/
def writeThenRead : List Act :=
  [.submit ⟨.write, 5, ⟨2, fun _ => 0x11⟩, [⟨1, fun _ => 0x22⟩]⟩,
    .submit ⟨.read, 6, ⟨1, fun _ => 0⟩, [⟨2, fun _ => 0⟩]⟩, .call]

/-- The disk after it. -/
def afterReading : Blk := (run step Blk.init writeThenRead).getD Blk.init

/-- What has been done, in the order of the queue; sector 7 has been read as it was written, and
sector 8, to which nothing has been written, as zeros. -/
theorem ramblock_refines_reading :
    afterReading.trace.map accessAsked =
      [(5, some fun _ => 0x11), (6, some fun _ => 0x11), (7, some fun _ => 0x22), (6, none),
        (7, none), (8, none)] ∧
    (∃ bs cs, afterReading.trace = bs ++ .read 7 (fun _ => 0x22) :: cs) ∧
    (∃ bs cs, afterReading.trace = bs ++ .read 8 (fun _ => 0) :: cs) ∧
    sectorAt afterReading.ramblockBuffer 6 = fun _ => 0x11 := by
  have hin : Along step SubmitsInDisk Blk.init writeThenRead := by
    refine ⟨fun req hreq => ?_, fun _ _ => ⟨fun req hreq => ?_, fun _ _ =>
      ⟨fun req hreq => ?_, fun _ _ => trivial⟩⟩⟩
    · cases hreq
      unfold Request.InDisk
      decide
    · cases hreq
      unfold Request.InDisk
      decide
    · cases hreq
  have hrun : run step Blk.init writeThenRead = some afterReading := rfl
  obtain ⟨-, horder, hanswers, hcontent⟩ := ramblock_refines hin hrun
  obtain ⟨d, e, f, htrace⟩ : ∃ d e f, afterReading.trace = [.write 5 fun _ => 0x11,
      .write 6 fun _ => 0x11, .write 7 fun _ => 0x22, .read 6 d, .read 7 e, .read 8 f] :=
    ⟨_, _, _, rfl⟩
  obtain rfl : e = fun _ => 0x22 := hanswers [_, _, _, _] 7 e [_] htrace
  obtain rfl : f = fun _ => 0 := hanswers [_, _, _, _, _] 8 f [] htrace
  refine ⟨(List.append_nil _).symm.trans horder, ⟨[_, _, _, _], [_], htrace⟩,
    ⟨[_, _, _, _, _], [], htrace⟩, ?_⟩
  rw [hcontent 6 (by decide), htrace]
  rfl

end S3c2440.RamBlock
