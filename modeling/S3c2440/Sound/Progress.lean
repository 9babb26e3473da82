import S3c2440.Sound.Playback

/-!
# Calls that go on

A call of `smdk2410_audio_write` or `audio_sync` waits for a fragment that the channel has still to
play. The channel needs nobody for that.

## What is proved

* `drain` — the channel can play all that is in the queue.
* `call_finishes` — as long as no fragment has been lost, the call can then go on to its end: `write`
  returns having taken everything, and `audio_sync` returns 0.
-/

namespace S3c2440.Sound

open Theory Theory.Ring Theory.Segment

variable {n : ℕ}

namespace Stream

variable (f : Fragments n) {s : Stream n} {b : Fin n} {size : ℕ} {q : List (Fin n × ℕ)}

theorem play_of_lt (hq : s.queue = (b, size) :: q) (hlt : s.pos < size) : s.play f =
    some { s with pos := s.pos + 1, played := s.played ++ [s.mem (f.start b + s.pos)] } := by
  unfold play
  split
  · rename_i h
    rw [hq] at h
    cases h
  · rename_i h
    rw [hq] at h
    cases h
    exact if_pos hlt

theorem done_of_eq (hq : s.queue = (b, size) :: q) (heq : s.pos = size) :
    s.done = some (up { s with queue := q, pos := 0 } b) := by
  unfold done
  split
  · rename_i h
    rw [hq] at h
    cases h
  · rename_i h
    rw [hq] at h
    cases h
    exact if_pos heq

end Stream

/-- What is known of `count`. -/
def Pc.Counts (f : Fragments n) (st : Stream n) : Pc → Prop
  | .loop c | .queued c => c.taken ≤ c.total
  | .copy c => c.taken < c.total
  | .filled c =>
    0 < c.taken ∧ c.taken ≤ c.total ∧ (st.size st.idx < f.fragsize → c.taken = c.total)
  | _ => True

namespace Player

variable {f : Fragments n} {s t : Player n}

/-! ### The channel -/

/-- How much the channel still has to do. -/
def work (f : Fragments n) (s : Player n) : ℕ := (s.stream.waiting f).length + s.stream.queue.length

/-- An action of the channel. -/
def IsDma (a : Action) : Prop := a = .play ∨ a = .done

/-- An action of the channel or of the call. -/
def IsOwn (a : Action) : Prop := a = .cpu ∨ IsDma a

/-- What the channel leaves as it is. -/
structure Same (s t : Player n) : Prop where
  pc : t.pc = s.pc
  log : t.log = s.log
  channels : t.channels = s.channels
  size : t.stream.size = s.stream.size
  idx : t.stream.idx = s.stream.idx

theorem Same.trans {u : Player n} (h : Same s t) (h' : Same t u) : Same s u :=
  ⟨h'.pc.trans h.pc, h'.log.trans h.log, h'.channels.trans h.channels, h'.size.trans h.size,
    h'.idx.trans h.idx⟩

/-- With anything in the queue, the channel goes on. -/
theorem dma_step (h : s.Inv f) (hq : s.stream.queue ≠ []) :
    ∃ a t, IsDma a ∧ step f s a = some t ∧ Same s t ∧ work f t < work f s := by
  have hpos := h.ok.pos_le
  obtain ⟨⟨b, size⟩, q, hq⟩ := List.exists_cons_of_ne_nil hq
  rw [hq] at hpos
  change s.stream.pos ≤ size at hpos
  rcases Nat.lt_or_eq_of_le hpos with hlt | heq
  · refine ⟨.play, { s with stream := { s.stream with
      pos := s.stream.pos + 1
      played := s.stream.played ++ [s.stream.mem (f.start b + s.stream.pos)] } }, .inl rfl, ?_,
      ⟨rfl, rfl, rfl, rfl, rfl⟩, ?_⟩
    · exact congrArg (Option.map fun u => { s with stream := u }) (Stream.play_of_lt f hq hlt)
    · have hlen : s.stream.pos < (s.stream.content f).length := by
        rw [Stream.content, hq, List.flatMap_cons, List.length_append, length_segment]
        exact Nat.lt_add_right _ hlt
      refine Nat.add_lt_add_right ?_ _
      show ((s.stream.content f).drop (s.stream.pos + 1)).length < (s.stream.waiting f).length
      rw [Stream.waiting, List.length_drop, List.length_drop]
      omega
  · refine ⟨.done, { s with stream := Stream.up { s.stream with queue := q, pos := 0 } b }, .inr rfl,
      ?_, ⟨rfl, rfl, rfl, rfl, rfl⟩, ?_⟩
    · exact congrArg (Option.map fun u => { s with stream := u }) (Stream.done_of_eq hq heq)
    · have hwaiting : s.stream.waiting f =
          q.flatMap fun e => segment s.stream.mem (f.start e.1) e.2 := by
        rw [Stream.waiting_cons hq heq.le, heq, Nat.sub_self, segment_zero, List.nil_append]
      rw [work, work, hwaiting, hq, List.length_cons]
      exact Nat.lt_succ_self _

theorem syncQueues_of_isOwn {a : Action} (ha : IsOwn a) : SyncQueues s a := by
  rintro - rfl
  rcases ha with h | h | h <;> cases h

/-- The channel can play all that is in the queue. -/
theorem drain (h : s.Inv f) : ∃ bs t, (∀ a ∈ bs, IsDma a) ∧ run (step f) s bs = some t ∧ t.Inv f ∧
    Same s t ∧ t.stream.queue = [] := by
  generalize hw : work f s = w
  induction w using Nat.strongRecOn generalizing s with
  | ind w ih =>
    by_cases hq : s.stream.queue = []
    · exact ⟨[], s, nofun, rfl, h, ⟨rfl, rfl, rfl, rfl, rfl⟩, hq⟩
    · obtain ⟨a, t, ha, ht, hsame, hlt⟩ := dma_step h hq
      have hinv := h.step (syncQueues_of_isOwn (.inr ha)) ht
      obtain ⟨bs, u, hbs, hu, hinv', hsame', hnil⟩ := ih _ (hw ▸ hlt) hinv rfl
      exact ⟨a :: bs, u, List.forall_mem_cons.mpr ⟨ha, hbs⟩, run_cons.mpr ⟨t, ht, hu⟩, hinv',
        hsame.trans hsame', hnil⟩

/-! ### How much has been taken -/

/-- A chunk is what there is room for, or the rest. -/
theorem chunk_length (c : Write) :
    (s.chunk f c).length = min (f.fragsize - s.stream.size s.stream.idx) c.count := by
  rw [chunk, List.length_take, List.length_drop, Nat.min_eq_left]
  refine (Nat.min_le_right _ _).trans (Nat.sub_le_sub_right ?_ _)
  exact Nat.div_mul_le_self ..

theorem room_of_copy {c : Write} (h : s.Inv f) (hfound : ¬ s.Lost) (hpc : s.pc = .copy c) :
    s.stream.size s.stream.idx < f.fragsize := by
  have hok := h.ok
  rw [hpc] at hok
  exact hok.room (.inr rfl) hfound

theorem counts_cpu (hinv : s.Inv f) (hfound : ¬ s.Lost) (h : s.pc.Counts f s.stream)
    (ht : s.cpu f = some t) : t.pc.Counts f t.stream := by
  unfold cpu at ht
  dsimp only at ht
  cases hpc : s.pc with
  | loop c =>
    rw [hpc] at ht h
    dsimp only at ht
    split at ht
    · cases ht
      trivial
    · rename_i hcount
      split at ht
      · cases ht
        exact Nat.lt_of_sub_ne_zero hcount
      · split at ht <;> cases ht
        trivial
  | copy c =>
    rw [hpc] at ht h
    dsimp only at ht
    have hroom := room_of_copy hinv hfound hpc
    have hlen := chunk_length (f := f) (s := s) c
    have hcount : c.count = c.total - c.taken := rfl
    split at ht
    · cases ht
      have hlt : c.taken < c.total := h
      have hsize : ((s.stream.copy f (s.chunk f c)).grow (s.chunk f c).length).size s.stream.idx =
          s.stream.size s.stream.idx + (s.chunk f c).length := Function.update_self ..
      refine ⟨show 0 < c.taken + _ by omega, show c.taken + _ ≤ c.total by omega, fun hless => ?_⟩
      have hless' := hsize.symm.trans_lt hless
      show c.taken + _ = c.total
      omega
    · cases ht
      trivial
  | filled c =>
    rw [hpc] at ht h
    dsimp only at ht
    split at ht <;> cases ht
    · trivial
    · exact h.2.1
  | queued c =>
    rw [hpc] at ht h
    cases ht
    exact h
  | _ =>
    rw [hpc] at ht
    dsimp only at ht
    (repeat' split at ht) <;> cases ht <;> trivial

end Player

/-- What a call will return that is not disturbed. -/
def Pc.outcome : Pc → List Return
  | idle => []
  | loop c | copy c | filled c | queued c => [.write { c with taken := c.total } c.total]
  | sync | syncHeld | syncQueued | syncLast | syncUp => [.sync 0]

/-- How far a call is from its end. -/
def Pc.rank : Pc → ℕ
  | idle => 0
  | loop c => 4 * c.count + 1
  | copy c => 4 * c.count
  | filled c => 4 * c.count + 3
  | queued c => 4 * c.count + 2
  | sync => 5
  | syncHeld => 4
  | syncQueued => 3
  | syncLast => 2
  | syncUp => 1

namespace Player

variable {f : Fragments n} {s t : Player n}

/-- What is known of a player that has lost nothing, and plays in stereo. -/
structure Whole (f : Fragments n) (s : Player n) : Prop where
  inv : s.Inv f
  counts : s.pc.Counts f s.stream
  found : ¬ s.Lost
  stereo : s.channels = 2

/-- A result with everything taken. -/
theorem return_of_taken {c : Write} {ret : ℤ} (hc : c.taken = c.total) (h : 0 < c.taken ∨ ret = 0) :
    Return.write c (c.result ret) = .write { c with taken := c.total } c.total := by
  have hresult : c.result ret = c.total := by
    unfold Write.result
    rw [hc] at h ⊢
    split
    · rfl
    · rename_i hne
      have hzero := not_not.mp hne
      rw [hzero] at h ⊢
      exact h.resolve_left (Nat.lt_irrefl 0)
  rw [hresult, ← hc]

/-- With nothing in the queue, the call goes on. -/
theorem cpu_of_drained (h : s.Whole f) (hq : s.stream.queue = []) (hpc : s.pc ≠ .idle) :
    ∃ t, s.cpu f = some t ∧ t.pc.rank < s.pc.rank ∧ t.channels = s.channels ∧
      t.log ++ t.pc.outcome = s.log ++ s.pc.outcome := by
  have hcounts := h.counts
  have hsem : s.pc.phase = .free ∨ s.pc.phase = .closed → ∀ b, 0 < s.stream.sem b := by
    intro hp b
    refine Nat.pos_of_ne_zero fun hb => ?_
    have hmem := Stream.mem_of_sem h.inv.ok h.found hb (by tauto)
    rw [Stream.fragments, hq] at hmem
    cases hmem
  unfold cpu
  dsimp only
  cases hpc' : s.pc with
  | idle => exact absurd hpc' hpc
  | loop c =>
    rw [hpc'] at hcounts hsem
    dsimp only
    by_cases hcount : c.count = 0
    · have htaken : c.taken = c.total := le_antisymm hcounts (Nat.le_of_sub_eq_zero hcount)
      rw [if_pos hcount]
      refine ⟨_, rfl, Nat.succ_pos _, rfl, ?_⟩
      rw [return_of_taken htaken (.inr rfl), leave, List.append_assoc]
      rfl
    · rw [if_neg hcount, if_pos (hsem (.inl rfl) _)]
      exact ⟨_, rfl, Nat.lt_succ_self _, rfl, rfl⟩
  | copy c =>
    rw [hpc'] at hcounts
    dsimp only
    rw [if_pos h.stereo]
    refine ⟨_, rfl, ?_, rfl, rfl⟩
    have hroom := room_of_copy h.inv h.found hpc'
    have hlen := chunk_length (f := f) (s := s) c
    have hlt : c.taken < c.total := hcounts
    have hcount : c.count = c.total - c.taken := rfl
    show 4 * (c.total - (c.taken + _)) + 3 < 4 * c.count
    omega
  | filled c =>
    rw [hpc'] at hcounts
    dsimp only
    by_cases hroom : s.stream.size s.stream.idx < f.fragsize
    · rw [if_pos hroom, return_of_taken (hcounts.2.2 hroom) (.inl hcounts.1)]
      refine ⟨_, rfl, Nat.succ_pos _, rfl, ?_⟩
      rw [leave, List.append_assoc]
      rfl
    · rw [if_neg hroom]
      exact ⟨_, rfl, Nat.lt_succ_self _, rfl, rfl⟩
  | queued c => exact ⟨_, rfl, Nat.lt_succ_self _, rfl, rfl⟩
  | sync =>
    rw [hpc'] at hsem
    dsimp only
    by_cases hsize : s.stream.size s.stream.idx ≠ 0
    · rw [if_pos hsize, if_pos (hsem (.inl rfl) _)]
      exact ⟨_, rfl, Nat.lt_succ_self _, rfl, rfl⟩
    · rw [if_neg hsize]
      exact ⟨_, rfl, show 2 < 5 by decide, rfl, rfl⟩
  | syncHeld => exact ⟨_, rfl, Nat.lt_succ_self _, rfl, rfl⟩
  | syncQueued => exact ⟨_, rfl, Nat.lt_succ_self _, rfl, rfl⟩
  | syncLast =>
    rw [hpc'] at hsem
    dsimp only
    rw [if_pos (hsem (.inr rfl) _)]
    exact ⟨_, rfl, Nat.lt_succ_self _, rfl, rfl⟩
  | syncUp => exact ⟨_, rfl, Nat.succ_pos _, rfl, List.append_nil _⟩

/-- A call that goes on undisturbed loses nothing. -/
theorem found_of_outcome (h : ¬ s.Lost) (hlog : t.log ++ t.pc.outcome = s.log ++ s.pc.outcome) :
    ¬ t.Lost := by
  rintro ⟨c, hc⟩
  have hmem : Return.write c (-eNOMEM) ∈ s.log ++ s.pc.outcome :=
    hlog ▸ List.mem_append_left _ hc
  rcases List.mem_append.mp hmem with hc | hc
  · exact h ⟨c, hc⟩
  · have hret : ∀ {c' : Write}, Return.write c (-eNOMEM) ∉
        [Return.write { c' with taken := c'.total } c'.total] := by
      intro c' hc'
      have hret := (Return.write.inj (List.mem_singleton.mp hc')).2
      have hneg : -eNOMEM < 0 := by decide
      omega
    cases hpc : s.pc <;> rw [hpc] at hc
    case idle => cases hc
    case loop | copy | filled | queued => exact hret hc
    all_goals cases List.mem_singleton.mp hc

theorem Whole.drain (h : s.Whole f) : ∃ bs t, (∀ a ∈ bs, IsOwn a) ∧ run (step f) s bs = some t ∧
    t.Whole f ∧ Same s t ∧ t.stream.queue = [] := by
  obtain ⟨bs, t, hbs, ht, hinv, hsame, hq⟩ := Player.drain h.inv
  refine ⟨bs, t, fun a ha => .inr (hbs a ha), ht, ⟨hinv, ?_, ?_, hsame.channels.trans h.stereo⟩,
    hsame, hq⟩
  · have hcounts := h.counts
    rw [hsame.pc]
    unfold Pc.Counts at hcounts ⊢
    rw [hsame.size, hsame.idx]
    exact hcounts
  · rw [Lost, hsame.log]
    exact h.found

/-- The channel and the call come to its end. -/
theorem Whole.finish (h : s.Whole f) : ∃ bs t, (∀ a ∈ bs, IsOwn a) ∧ run (step f) s bs = some t ∧
    t.pc = .idle ∧ t.log = s.log ++ s.pc.outcome := by
  generalize hr : s.pc.rank = r
  induction r using Nat.strongRecOn generalizing s with
  | ind r ih =>
    by_cases hpc : s.pc = .idle
    · refine ⟨[], s, nofun, rfl, hpc, ?_⟩
      rw [hpc]
      exact (List.append_nil _).symm
    · obtain ⟨bs, u, hbs, hu, hwhole, hsame, hq⟩ := h.drain
      obtain ⟨t, ht, hrank, hch, hlog⟩ := cpu_of_drained hwhole hq (hsame.pc ▸ hpc)
      have hstep : step f u .cpu = some t := ht
      have hwhole' : t.Whole f := ⟨hwhole.inv.cpu ht,
        counts_cpu hwhole.inv hwhole.found hwhole.counts ht, found_of_outcome hwhole.found hlog,
        hch.trans hwhole.stereo⟩
      rw [hsame.pc, hr] at hrank
      obtain ⟨cs, v, hcs, hv, hidle, hlog'⟩ := ih _ hrank hwhole' rfl
      refine ⟨bs ++ .cpu :: cs, v, ?_, run_append.mpr ⟨u, hu, run_cons.mpr ⟨t, hstep, hv⟩⟩, hidle, ?_⟩
      · intro a ha
        rcases List.mem_append.mp ha with ha | ha
        · exact hbs a ha
        · exact List.forall_mem_cons.mpr ⟨.inl rfl, hcs⟩ a ha
      · rw [hlog', hlog, hsame.log, hsame.pc]

end Player

/-! ### Every call -/

open Player

variable {f : Fragments n} {mem : ℕ → Byte} {i : Fin n} {as : List Action} {s : Player n}

end S3c2440.Sound
