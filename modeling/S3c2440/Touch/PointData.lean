import S3c2440.Touch.Calibrate
import S3c2440.Touch.Sampling
import S3c2440.Theory.Loop
import Mathlib.Data.Seq.Basic

/-!
# The reading at a point

`get_calibrate_point_data` of `bare_board/code/I2c/20200510_IIC/adc_touchscreen/tslib.c`: the first
loop waits for a touch, the second one reads until the pen is up and adds up the first 128
reports; the reading is their mean.

`ts_read_raw` takes the next report of a sequence, which may come to an end; then it waits for
ever, and there is no result. Nor is there one where an `int` overflows or is divided by
zero. The cross on the screen and what is printed are left out.

## What is proved

* `waitPress` — the first loop stops at the first report of a touch.
* `collect` — the second one stops at the release, with the sums of the first 128 reports.
* `getCalibratePointData_mean` — the reading is the mean, and the release is the last report
  taken.
-/

namespace S3c2440.Touch

open Theory Stream'

/-! ### The code -/

/-- `a + b`. -/
def addInt (a b : ℤ) : Option ℤ := if -2 ^ 31 ≤ a + b ∧ a + b < 2 ^ 31 then some (a + b) else none

/-- `a / b`. -/
def divInt (a b : ℤ) : Option ℤ :=
  if b = 0 ∨ a = -2 ^ 31 ∧ b = -1 then none else some (a.tdiv b)

/-- The variables of `get_calibrate_point_data`. -/
structure PointData where
  /-- `x`, `y` and `pressure`. -/
  raw : Report
  /-- `sum_x`. -/
  sumX : ℤ
  /-- `sum_y`. -/
  sumY : ℤ
  /-- `cnt`. -/
  cnt : ℤ
  /-- The reports that are still to come. -/
  reports : Seq Report

/-- `ts_read_raw`. -/
def PointData.tsReadRaw (p : PointData) : Option PointData :=
  p.reports.destruct.map fun (raw, reports) => { p with raw := raw, reports := reports }

/-- `if (cnt < 128)` and its statements. -/
def PointData.addRaw (p : PointData) : Option PointData :=
  if p.cnt < 128 then do
    let sumX ← addInt p.sumX p.raw.x
    let sumY ← addInt p.sumY p.raw.y
    let cnt ← addInt p.cnt 1
    return { p with sumX := sumX, sumY := sumY, cnt := cnt }
  else some p

/-- The body of the second loop. -/
def PointData.addAndRead (p : PointData) : Option PointData := p.addRaw.bind PointData.tsReadRaw

/-- `get_calibrate_point_data`, with at most `fuel` turns of a loop: the reading, and the reports
that are left. At first `x`, `y` and `pressure` have any values (`raw`). -/
def getCalibratePointData (fuel : ℕ) (raw : Report) (reports : Seq Report) :
    Option (Point × Seq Report) := do
  let p ← doWhile PointData.tsReadRaw (fun p => p.raw.pressure = 0) fuel ⟨raw, 0, 0, 0, reports⟩
  let p ← doWhile PointData.addAndRead (fun p => p.raw.pressure ≠ 0) fuel p
  let x ← divInt p.sumX p.cnt
  let y ← divInt p.sumY p.cnt
  return (⟨x, y⟩, p.reports)

/-! ### The first loop -/

variable {p q : PointData} {r release : Report} {rest reports : Seq Report} {l : List Report}
  {fuel : ℕ}

theorem tsReadRaw_cons (h : p.reports = .cons r rest) :
    p.tsReadRaw = some { p with raw := r, reports := rest } := by
  rw [PointData.tsReadRaw, h, Seq.destruct_cons]
  rfl

/-- The first loop stops at the first report of a touch. -/
theorem waitPress (hidle : ∀ r ∈ l, r.pressure = 0) (hr : r.pressure ≠ 0)
    (hp : p.reports = (Seq.ofList l).append (.cons r rest)) (hfuel : l.length < fuel) :
    doWhile PointData.tsReadRaw (fun p => p.raw.pressure = 0) fuel p =
      some { p with raw := r, reports := rest } := by
  induction l generalizing p fuel with
  | nil =>
    obtain ⟨fuel, rfl⟩ := Nat.exists_eq_add_one_of_ne_zero (Nat.ne_zero_of_lt hfuel)
    rw [Seq.ofList_nil, Seq.nil_append] at hp
    exact doWhile_end (tsReadRaw_cons hp) (decide_eq_false hr) fuel
  | cons a l ih =>
    obtain ⟨fuel, rfl⟩ := Nat.exists_eq_add_one_of_ne_zero (Nat.ne_zero_of_lt hfuel)
    rw [Seq.ofList_cons, Seq.cons_append] at hp
    rw [doWhile_again (tsReadRaw_cons hp) (decide_eq_true (hidle a List.mem_cons_self)) fuel]
    exact ih (fun b hb => hidle b (List.mem_cons_of_mem a hb)) rfl
      (Nat.lt_of_succ_lt_succ hfuel)

/-! ### The second loop -/

/-- The coordinates of a report are ten bits wide. -/
def Report.TenBits (r : Report) : Prop := Touch.TenBits r.x ∧ Touch.TenBits r.y

/-- The sums are those of the first 128 of the reports `l`. -/
structure Added (l : List Report) (p : PointData) : Prop where
  /-- Along `x`. -/
  sumX : p.sumX = ((l.take 128).map Report.x).sum
  /-- Along `y`. -/
  sumY : p.sumY = ((l.take 128).map Report.y).sum
  /-- So many they are. -/
  cnt : p.cnt = (l.take 128).length
  /-- They fit in ten bits. -/
  tenBits : ∀ r ∈ l, r.TenBits

theorem addInt_of_small {a b : ℤ} (ha : 0 ≤ a ∧ a ≤ 1023 * 127) (hb : TenBits b) :
    addInt a b = some (a + b) := by
  obtain ⟨hb0, hb1⟩ := hb
  exact if_pos (by omega)

/-- The sums of fewer than 128 reports are small. -/
theorem sum_small {f : Report → ℤ} (hf : ∀ r ∈ l, TenBits (f r)) (hlt : l.length < 128) :
    0 ≤ (l.map f).sum ∧ (l.map f).sum ≤ 1023 * 127 := by
  have hbounds := sum_bounds (l := l.map f) (by simpa using hf)
  rw [List.length_map] at hbounds
  omega

/-- One report more. -/
theorem Added.addRaw (h : Added l p) (hr : p.raw.TenBits) :
    ∃ q, p.addRaw = some q ∧ Added (l ++ [p.raw]) q ∧ q.raw = p.raw ∧ q.reports = p.reports := by
  have htenBits : ∀ r ∈ l ++ [p.raw], r.TenBits := by
    intro r hmem
    rcases List.mem_append.mp hmem with hl | hlast
    · exact h.tenBits r hl
    · rw [List.mem_singleton.mp hlast]
      exact hr
  obtain ⟨hx, hy, hcnt, -⟩ := h
  by_cases hlt : l.length < 128
  · have htake : l.take 128 = l := List.take_of_length_le hlt.le
    have htake' : (l ++ [p.raw]).take 128 = l ++ [p.raw] :=
      List.take_of_length_le (by rw [List.length_append]; exact hlt)
    rw [htake] at hx hy hcnt
    have hl : ∀ r ∈ l, r.TenBits := fun r hmem => htenBits r (List.mem_append_left _ hmem)
    have haddX : addInt p.sumX p.raw.x = some (p.sumX + p.raw.x) :=
      addInt_of_small (hx ▸ sum_small (fun r hmem => (hl r hmem).1) hlt) hr.1
    have haddY : addInt p.sumY p.raw.y = some (p.sumY + p.raw.y) :=
      addInt_of_small (hy ▸ sum_small (fun r hmem => (hl r hmem).2) hlt) hr.2
    have haddCnt : addInt p.cnt 1 = some (p.cnt + 1) := if_pos (by omega)
    have hcond : p.cnt < 128 := by omega
    refine ⟨{ p with sumX := p.sumX + p.raw.x, sumY := p.sumY + p.raw.y, cnt := p.cnt + 1 }, ?_,
      ⟨?_, ?_, ?_, htenBits⟩, rfl, rfl⟩
    · rw [PointData.addRaw, if_pos hcond, haddX, haddY, haddCnt]
      rfl
    · rw [htake', List.map_append, List.sum_append, hx, List.map_singleton, List.sum_singleton]
    · rw [htake', List.map_append, List.sum_append, hy, List.map_singleton, List.sum_singleton]
    · rw [htake', List.length_append, hcnt]
      rfl
  · have htake : (l ++ [p.raw]).take 128 = l.take 128 := List.take_append_of_le_length (by omega)
    have hcond : ¬ p.cnt < 128 := by
      rw [hcnt, List.length_take]
      omega
    exact ⟨p, if_neg hcond, ⟨htake ▸ hx, htake ▸ hy, htake ▸ hcnt, htenBits⟩, rfl, rfl⟩

/-- A turn of the second loop adds a report and takes the next one. -/
theorem Added.turn (h : Added l p) (hraw : p.raw.TenBits) (hp : p.reports = .cons r rest) :
    ∃ q, p.addAndRead = some q ∧ Added (l ++ [p.raw]) q ∧ q.raw = r ∧ q.reports = rest := by
  obtain ⟨q, hq, hadded, -, hreports⟩ := h.addRaw hraw
  refine ⟨{ q with raw := r, reports := rest }, ?_,
    ⟨hadded.sumX, hadded.sumY, hadded.cnt, hadded.tenBits⟩, rfl, rfl⟩
  rw [PointData.addAndRead, hq, Option.bind_some, tsReadRaw_cons (hreports.trans hp)]

/-- The second loop stops at the release, with all reports before it added. -/
theorem collect {more : List Report} (h : Added l p) (hraw : p.raw.TenBits)
    (hmore : ∀ r ∈ more, r.pressure ≠ 0 ∧ r.TenBits) (hrelease : release.pressure = 0)
    (hp : p.reports = (Seq.ofList more).append (.cons release rest))
    (hfuel : more.length < fuel) :
    ∃ q, doWhile PointData.addAndRead (fun p => p.raw.pressure ≠ 0) fuel p = some q ∧
      Added (l ++ p.raw :: more) q ∧ q.reports = rest := by
  induction more generalizing l p fuel with
  | nil =>
    obtain ⟨fuel, rfl⟩ := Nat.exists_eq_add_one_of_ne_zero (Nat.ne_zero_of_lt hfuel)
    rw [Seq.ofList_nil, Seq.nil_append] at hp
    obtain ⟨q, hq, hadded, hqraw, hreports⟩ := h.turn hraw hp
    refine ⟨q, doWhile_end hq ?_ fuel, hadded, hreports⟩
    rw [hqraw]
    exact decide_eq_false (not_not_intro hrelease)
  | cons a more ih =>
    obtain ⟨fuel, rfl⟩ := Nat.exists_eq_add_one_of_ne_zero (Nat.ne_zero_of_lt hfuel)
    rw [Seq.ofList_cons, Seq.cons_append] at hp
    obtain ⟨q, hq, hadded, hqraw, hreports⟩ := h.turn hraw hp
    obtain ⟨hpressed, htenBits⟩ := hmore a List.mem_cons_self
    obtain ⟨u, hu, hadded', hreports'⟩ := ih hadded (hqraw ▸ htenBits)
      (fun b hb => hmore b (List.mem_cons_of_mem a hb)) hreports (Nat.lt_of_succ_lt_succ hfuel)
    refine ⟨u, ?_, ?_, hreports'⟩
    · rw [doWhile_again hq (by rw [hqraw]; exact decide_eq_true hpressed)]
      exact hu
    · rw [hqraw, List.append_assoc] at hadded'
      exact hadded'

/-! ### The first touch -/

/-- The first touch of a sequence of reports: `idle` before it, its reports `pressed`, the release
`up`, and the `rest`. -/
structure FirstTouch (reports : Seq Report) (idle pressed : List Report) (up : Report)
    (rest : Seq Report) : Prop where
  /-- These are all reports. -/
  split : reports = (Seq.ofList idle).append ((Seq.ofList pressed).append (.cons up rest))
  /-- The pen has been up. -/
  idle : ∀ r ∈ idle, r.pressure = 0
  /-- There is a report with the pen down. -/
  nonempty : pressed ≠ []
  /-- They all are. -/
  pressed : ∀ r ∈ pressed, r.pressure ≠ 0
  /-- Then it is up. -/
  up : up.pressure = 0

/-- The first release of a sequence that has one. -/
theorem exists_release {j : ℕ} (hj : reports.get? j = some release)
    (hrelease : release.pressure = 0) :
    ∃ l up rest, reports = (Seq.ofList l).append (.cons up rest) ∧
      (∀ r ∈ l, r.pressure ≠ 0) ∧ up.pressure = 0 := by
  induction j generalizing reports with
  | zero =>
    have hhead := Seq.head_eq_some hj
    exact ⟨[], release, reports.tail, by rw [Seq.ofList_nil, Seq.nil_append]; exact hhead,
      fun r hr => absurd hr List.not_mem_nil, hrelease⟩
  | succ j ih =>
    cases reports using Stream'.Seq.recOn with
    | nil => cases hj
    | cons r reports =>
      rw [Seq.get?_cons_succ] at hj
      by_cases hr : r.pressure = 0
      · exact ⟨[], r, reports, by rw [Seq.ofList_nil, Seq.nil_append],
          fun r hr => absurd hr List.not_mem_nil, hr⟩
      · obtain ⟨l, up, rest, hsplit, hl, hup⟩ := ih hj
        refine ⟨r :: l, up, rest, ?_, List.forall_mem_cons.mpr ⟨hr, hl⟩, hup⟩
        rw [Seq.ofList_cons, Seq.cons_append, hsplit]

/-- A touch and a release after it make a first touch. -/
theorem exists_firstTouch {i j : ℕ} (hij : i < j) (hi : reports.get? i = some r)
    (hr : r.pressure ≠ 0) (hj : reports.get? j = some release) (hrelease : release.pressure = 0) :
    ∃ idle pressed up rest, FirstTouch reports idle pressed up rest := by
  induction i generalizing reports j with
  | zero =>
    obtain ⟨j, rfl⟩ := Nat.exists_eq_add_one_of_ne_zero (Nat.ne_zero_of_lt hij)
    have hj' : reports.tail.get? j = some release := (Seq.get?_tail reports j).trans hj
    obtain ⟨l, up, rest, hsplit, hl, hup⟩ := exists_release hj' hrelease
    refine ⟨[], r :: l, up, rest, ?_, fun r hr => absurd hr List.not_mem_nil, List.cons_ne_nil r l,
      List.forall_mem_cons.mpr ⟨hr, hl⟩, hup⟩
    rw [Seq.ofList_nil, Seq.nil_append, Seq.ofList_cons, Seq.cons_append, ← hsplit]
    exact Seq.head_eq_some hi
  | succ i ih =>
    obtain ⟨j, rfl⟩ := Nat.exists_eq_add_one_of_ne_zero (Nat.ne_zero_of_lt hij)
    cases reports using Stream'.Seq.recOn with
    | nil => cases hi
    | cons a reports =>
      rw [Seq.get?_cons_succ] at hi hj
      by_cases ha : a.pressure = 0
      · obtain ⟨idle, pressed, up, rest, h⟩ := ih (Nat.lt_of_succ_lt_succ hij) hi hj
        refine ⟨a :: idle, pressed, up, rest, ?_, List.forall_mem_cons.mpr ⟨ha, h.idle⟩,
          h.nonempty, h.pressed, h.up⟩
        rw [Seq.ofList_cons, Seq.cons_append, ← h.split]
      · obtain ⟨l, up, rest, hsplit, hl, hup⟩ := exists_release hj hrelease
        refine ⟨[], a :: l, up, rest, ?_, fun r hr => absurd hr List.not_mem_nil,
          List.cons_ne_nil a l, List.forall_mem_cons.mpr ⟨ha, hl⟩, hup⟩
        rw [Seq.ofList_nil, Seq.nil_append, Seq.ofList_cons, Seq.cons_append, ← hsplit]

/-- A list up to the first report without a property, and what comes from there on, are determined
by the whole sequence. -/
theorem split_unique {P : Report → Prop} {l l' : List Report} {a a' : Report} {s s' : Seq Report}
    (hl : ∀ r ∈ l, P r) (ha : ¬ P a) (hl' : ∀ r ∈ l', P r) (ha' : ¬ P a')
    (h : (Seq.ofList l).append (.cons a s) = (Seq.ofList l').append (.cons a' s')) :
    l = l' ∧ a = a' ∧ s = s' := by
  induction l generalizing l' with
  | nil =>
    cases l' with
    | nil =>
      simp only [Seq.ofList_nil, Seq.nil_append] at h
      exact ⟨rfl, Seq.cons_injective2 h⟩
    | cons b l' =>
      simp only [Seq.ofList_nil, Seq.nil_append, Seq.ofList_cons, Seq.cons_append] at h
      exact absurd ((Seq.cons_injective2 h).1 ▸ hl' b List.mem_cons_self) ha
  | cons b l ih =>
    cases l' with
    | nil =>
      simp only [Seq.ofList_nil, Seq.nil_append, Seq.ofList_cons, Seq.cons_append] at h
      exact absurd ((Seq.cons_injective2 h).1 ▸ hl b List.mem_cons_self) ha'
    | cons b' l' =>
      simp only [Seq.ofList_cons, Seq.cons_append] at h
      obtain ⟨rfl, htail⟩ := Seq.cons_injective2 h
      obtain ⟨rfl, hrest⟩ := ih (fun r hr => hl r (List.mem_cons_of_mem b hr))
        (fun r hr => hl' r (List.mem_cons_of_mem b hr)) htail
      exact ⟨rfl, hrest⟩

/-- A sequence has one first touch. -/
theorem FirstTouch.unique {idle idle' pressed pressed' : List Report} {up up' : Report}
    {rest rest' : Seq Report} (h : FirstTouch reports idle pressed up rest)
    (h' : FirstTouch reports idle' pressed' up' rest') :
    idle = idle' ∧ pressed = pressed' ∧ up = up' ∧ rest = rest' := by
  obtain ⟨hsplit, hidle, hne, hpressed, hup⟩ := h
  obtain ⟨hsplit', hidle', hne', hpressed', hup'⟩ := h'
  obtain ⟨a, more, rfl⟩ := List.exists_cons_of_ne_nil hne
  obtain ⟨a', more', rfl⟩ := List.exists_cons_of_ne_nil hne'
  rw [hsplit, Seq.ofList_cons, Seq.cons_append, Seq.ofList_cons, Seq.cons_append] at hsplit'
  obtain ⟨rfl, rfl, hmore⟩ := split_unique hidle (hpressed a List.mem_cons_self) hidle'
    (hpressed' a' List.mem_cons_self) hsplit'
  obtain ⟨rfl, rfl, rfl⟩ := split_unique (P := fun r => r.pressure ≠ 0)
    (fun r hr => hpressed r (List.mem_cons_of_mem a hr)) (not_not.mpr hup)
    (fun r hr => hpressed' r (List.mem_cons_of_mem a hr)) (not_not.mpr hup') hmore
  exact ⟨rfl, rfl, rfl, rfl⟩

/-! ### The whole function -/

/-- The mean, rounded towards zero. -/
def mean (f : Report → ℤ) (l : List Report) : ℤ := (l.map f).sum.tdiv l.length

/-- The reports of the touch are among the reports. -/
theorem FirstTouch.mem {idle pressed : List Report}
    (h : FirstTouch reports idle pressed release rest) (hr : r ∈ pressed) : r ∈ reports := by
  obtain ⟨n, hn⟩ := List.mem_iff_getElem?.mp (List.mem_append_right idle hr)
  rw [h.split, ← Seq.append_assoc, ← Seq.ofList_append]
  exact Seq.mem_append_left (Seq.get?_mem ((Seq.ofList_get? _ n).trans hn))

/-- A sum of the touch can be divided by the number of its reports. -/
theorem divInt_mean {f : Report → ℤ} {k : ℕ} (hk : k ≠ 0) (l : List Report) :
    divInt (l.map f).sum k = some ((l.map f).sum.tdiv k) :=
  if_neg (by omega)

/-- The reading is the mean of the first 128 reports of the first touch. -/
theorem getCalibratePointData_firstTouch {idle pressed : List Report}
    (h : FirstTouch reports idle pressed release rest) (hbits : ∀ r ∈ reports, r.TenBits)
    (hfuel : idle.length + pressed.length < fuel) (raw : Report) :
    getCalibratePointData fuel raw reports =
      some (⟨mean Report.x (pressed.take 128), mean Report.y (pressed.take 128)⟩, rest) := by
  have htenBits : ∀ r ∈ pressed, r.TenBits := fun r hr => hbits r (h.mem hr)
  obtain ⟨hsplit, hidle, hne, hpressed, hrelease⟩ := h
  obtain ⟨a, more, rfl⟩ := List.exists_cons_of_ne_nil hne
  rw [List.length_cons] at hfuel
  rw [Seq.ofList_cons, Seq.cons_append] at hsplit
  have hwait := waitPress (p := ⟨raw, 0, 0, 0, reports⟩) hidle (hpressed a List.mem_cons_self)
    hsplit (by omega : idle.length < fuel)
  obtain ⟨q, hq, hadded, hrest⟩ := collect
    (p := ⟨a, 0, 0, 0, (Seq.ofList more).append (.cons release rest)⟩)
    ⟨rfl, rfl, rfl, fun r hr => absurd hr List.not_mem_nil⟩ (htenBits a List.mem_cons_self)
    (fun r hr => ⟨hpressed r (List.mem_cons_of_mem a hr), htenBits r (List.mem_cons_of_mem a hr)⟩)
    hrelease rfl (by omega : more.length < fuel)
  rw [List.nil_append] at hadded
  have hcount : ((a :: more).take 128).length ≠ 0 := by
    rw [List.length_take, List.length_cons]
    omega
  simp only [getCalibratePointData, hwait, hq, hadded.sumX, hadded.sumY, hadded.cnt,
    divInt_mean hcount, hrest, Option.bind_eq_bind, Option.bind_some, mean]
  rfl

/-- Given a touch and a release after it, the reading is the mean of the first 128 reports of the
first touch, and the reports up to the release are taken. -/
theorem getCalibratePointData_mean (raw : Report) (reports : Seq Report)
    (hbits : ∀ r ∈ reports, r.TenBits) (i j : ℕ) (hij : i < j) (press release : Report)
    (hi : reports.get? i = some press) (hpress : press.pressure ≠ 0)
    (hj : reports.get? j = some release) (hrelease : release.pressure = 0) :
    ∃ idle pressed up rest, FirstTouch reports idle pressed up rest ∧
      ∀ fuel, idle.length + pressed.length < fuel → getCalibratePointData fuel raw reports =
        some (⟨mean Report.x (pressed.take 128), mean Report.y (pressed.take 128)⟩, rest) := by
  obtain ⟨idle, pressed, up, rest, h⟩ := exists_firstTouch hij hi hpress hj hrelease
  exact ⟨idle, pressed, up, rest, h, fun fuel hfuel =>
    getCalibratePointData_firstTouch h hbits hfuel raw⟩

/-- The 130 reports of a touch. -/
def longPressed : List Report :=
  List.replicate 127 ⟨300, 700, 1⟩ ++ [⟨428, 700, 1⟩, ⟨1023, 0, 1⟩, ⟨1023, 0, 1⟩]

/-- They come between two releases. -/
def longTouch : Seq Report := Seq.ofList (⟨0, 0, 0⟩ :: (longPressed ++ [⟨0, 0, 0⟩]))

theorem longTouch_tenBits : ∀ r ∈ longTouch, r.TenBits := by
  simp [longTouch, longPressed, Report.TenBits, TenBits]

theorem longTouch_firstTouch :
    FirstTouch longTouch [⟨0, 0, 0⟩] longPressed ⟨0, 0, 0⟩ Seq.nil where
  split := by simp [longTouch, Seq.ofList_append]
  idle := by simp
  nonempty := by simp [longPressed]
  pressed := by simp [longPressed]
  up := rfl

/-- The reading is the mean of the first 128 of them; the other two do not count. -/
theorem getCalibratePointData_mean_long :
    getCalibratePointData 140 ⟨0, 0, 0⟩ longTouch = some (⟨301, 700⟩, Seq.nil) := by
  obtain ⟨idle, pressed, up, rest, h, hread⟩ := getCalibratePointData_mean ⟨0, 0, 0⟩ longTouch
    longTouch_tenBits 1 131 (by omega) ⟨300, 700, 1⟩ ⟨0, 0, 0⟩ rfl (by decide) rfl rfl
  obtain ⟨rfl, rfl, rfl, rfl⟩ := h.unique longTouch_firstTouch
  have htake : longPressed.take 128 = List.replicate 127 ⟨300, 700, 1⟩ ++ [⟨428, 700, 1⟩] := rfl
  have hlength : [(⟨0, 0, 0⟩ : Report)].length + longPressed.length < 140 := by
    simp [longPressed]
  rw [hread 140 hlength, htake]
  simp [mean]

end S3c2440.Touch
