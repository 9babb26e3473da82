import S3c2440.Theory.OnesComplement

/-!
# The replies of the virtual network card

`linux_driver/code/viru_net/viru_net.c`: a frame that is to be sent is turned into an answer to
itself by `emulator_rx_packet`, which exchanges the addresses, sets the type of the ICMP message to
that of a reply, makes the checksum of the IP header anew, and hands a copy to `netif_rx`.

The bytes of a frame are those from `skb->data` on, `len` of them, and the machine stores the lower
byte of a word first. The words of an address are not looked into, so that they are four bytes.
`ip_fast_csum` is a function of the kernel. The device, the protocol and the mark of the copy that
its checksum need not be looked at are left out. `eth_type_trans` pulls the Ethernet header off the
copy: `data` and `len` of it are those before, so that it is compared with the frame as a whole.

## What is proved

* `emulatorRxPacket_apply` — each byte of the answer but the checksum.
* `reply_valid` — the addresses are exchanged, the header has its checksum, and a second answer has
  the addresses of the frame.
* `reply_frame_iff` — exactly when nothing else is changed in an echo request but its type;
  `reply_frame_options` is a request for which this is not so.
-/

namespace S3c2440.Net

open Theory

/-! ### The code -/

/-- Bytes, by their distance from a pointer. -/
abbrev Bytes : Type := ℕ → BitVec 8

/-- A `sk_buff`. -/
structure SkBuff where
  /-- `data`. -/
  data : Bytes
  /-- `len`. -/
  len : ℕ

/-- The counts of received packets in `dev->stats`. -/
structure Stats where
  /-- `rx_packets`. -/
  rxPackets : BitVec 32
  /-- `rx_bytes`. -/
  rxBytes : BitVec 32

/-- `memcpy(m + dst, src, n)`. -/
def memcpy (m : Bytes) (dst : ℕ) (src : Bytes) (n : ℕ) : Bytes :=
  fun i => if dst ≤ i ∧ i < dst + n then src (i - dst) else m i

/-- Two times `n` bytes are exchanged, those at `a` by way of a variable. -/
def exchange (m : Bytes) (a b n : ℕ) : Bytes :=
  let tmp : Bytes := fun k => m (a + k)
  let m := memcpy m a (fun k => m (b + k)) n
  memcpy m b tmp n

/-- `ETH_ALEN`. -/
def ethAlen : ℕ := 6

/-- `sizeof(struct ethhdr)`: `h_dest`, `h_source` and the protocol. -/
def sizeofEthhdr : ℕ := 14

/-- `sizeof(struct iphdr)`, the options not included. -/
def sizeofIphdr : ℕ := 20

/-- Where `ih->check` is. -/
def checkAt : ℕ := sizeofEthhdr + 10

/-- Where `ih->saddr` is. -/
def saddrAt : ℕ := sizeofEthhdr + 12

/-- Where `ih->daddr` is. -/
def daddrAt : ℕ := sizeofEthhdr + 16

/-- `ih`. -/
def ih (data : Bytes) : Bytes := fun k => data (sizeofEthhdr + k)

/-- `ih->ihl`, the lower half of the first byte. -/
def ihl (data : Bytes) : ℕ := (ih data 0).toNat % 16

/-- `ih->check = c`. -/
def storeCheck (data : Bytes) (c : BitVec 16) : Bytes :=
  memcpy data checkAt (fun k => if k = 0 then c.setWidth 8 else (c >>> 8).setWidth 8) 2

/-- The frame with the addresses exchanged, `*type = 0` and `ih->check = 0`. -/
def cleared (data : Bytes) : Bytes :=
  let data := exchange data 0 ethAlen ethAlen
  let data := exchange data saddrAt daddrAt 4
  let data := Function.update data (sizeofEthhdr + sizeofIphdr) 0
  storeCheck data 0

/-- `emulator_rx_packet`: what is handed to `netif_rx`, from its Ethernet header on, and the counts.
The memory of the copy has had `fresh` in it. -/
def emulatorRxPacket (ipFastCsum : Bytes → ℕ → BitVec 16) (fresh : Bytes) (skb : SkBuff)
    (stats : Stats) : SkBuff × Stats :=
  let data := cleared skb.data
  let data := storeCheck data (ipFastCsum (ih data) (ihl data))
  (⟨memcpy fresh 0 data skb.len, skb.len⟩,
    ⟨stats.rxPackets + 1, stats.rxBytes + BitVec.ofNat 32 skb.len⟩)

/-! ### The property -/

/-- A word of the machine in a header. -/
def word (h : Bytes) (k : ℕ) : BitVec 16 := h (2 * k + 1) ++ h (2 * k)

/-- A word of the network. -/
def netWord (h : Bytes) (k : ℕ) : BitVec 16 := h (2 * k) ++ h (2 * k + 1)

/-- The checksum of `n` words of 32 bits: the complement of their sum in halves. -/
def checksum (h : Bytes) (n : ℕ) : BitVec 16 :=
  ~~~ OnesComplement.sum ((List.range (2 * n)).map (word h))

/-- The sum of a header as it is verified, in the order of the network. -/
def Verifies (h : Bytes) (n : ℕ) : Prop :=
  OnesComplement.sum ((List.range (2 * n)).map (netWord h)) = BitVec.allOnes 16

/-- A frame with an IP header and at least one byte behind it. -/
structure Frame extends SkBuff where
  /-- It is an IP frame. -/
  ip : data 12 = 0x08 ∧ data 13 = 0x00
  /-- Of version 4. -/
  version : (data sizeofEthhdr).toNat / 16 = 4
  /-- The words of its header. -/
  ihl_mem : 5 ≤ ihl data ∧ ihl data ≤ 15
  /-- The header is there, and another byte. -/
  long : sizeofEthhdr + 4 * ihl data + 1 ≤ len

/-- An echo request, with the header of its ICMP message. -/
structure EchoRequest extends Frame where
  /-- It holds an ICMP message. -/
  protocol : ih data 9 = 1
  /-- Whose type is a request. -/
  type : data (sizeofEthhdr + 4 * ihl data) = 8
  /-- The header of the message is there. -/
  icmp : sizeofEthhdr + 4 * ihl data + 8 ≤ len

/-- The addresses of `g` are those of `f` the other way round. -/
structure Exchanged (f g : SkBuff) : Prop where
  /-- Of the stations. -/
  mac : ∀ i < ethAlen, g.data i = f.data (ethAlen + i) ∧ g.data (ethAlen + i) = f.data i
  /-- And of the hosts. -/
  ip : ∀ i < 4, g.data (saddrAt + i) = f.data (daddrAt + i) ∧
    g.data (daddrAt + i) = f.data (saddrAt + i)

/-- `g` has the addresses of `f`. -/
structure Restored (f g : SkBuff) : Prop where
  /-- Of the stations. -/
  mac : ∀ i < 2 * ethAlen, g.data i = f.data i
  /-- And of the hosts. -/
  ip : ∀ i < 8, g.data (saddrAt + i) = f.data (saddrAt + i)

/-- `g` answers `f`. -/
structure Answers (f g : SkBuff) : Prop extends Exchanged f g where
  /-- It is as long. -/
  len : g.len = f.len
  /-- Its header is as long. -/
  ihl : ihl g.data = ihl f.data
  /-- And has its checksum. -/
  check : Verifies (ih g.data) (Net.ihl f.data)

/-- The byte is one of an address or of the checksum of the IP header. -/
def Rewritten (i : ℕ) : Prop :=
  i < 2 * ethAlen ∨ (saddrAt ≤ i ∧ i < saddrAt + 8) ∨ i = checkAt ∨ i = checkAt + 1

/-- `g` is a request made a reply, and nothing else is changed but addresses and checksum. -/
structure OnlyReplied (f : EchoRequest) (g : SkBuff) : Prop where
  /-- It is as long. -/
  len : g.len = f.len
  /-- The type is that of a reply. -/
  type : g.data (sizeofEthhdr + 4 * ihl f.data) = 0
  /-- The other bytes are the same. -/
  rest : ∀ i < f.len, i ≠ sizeofEthhdr + 4 * ihl f.data → ¬ Rewritten i → g.data i = f.data i

variable {data : Bytes} {i n : ℕ} {c : BitVec 16}

theorem exchange_apply (m : Bytes) {a b : ℕ} (h : a + n ≤ b) (i : ℕ) : exchange m a b n i =
    if a ≤ i ∧ i < a + n then m (b + (i - a))
    else if b ≤ i ∧ i < b + n then m (a + (i - b)) else m i := by
  unfold exchange memcpy
  dsimp only
  by_cases ha : a ≤ i ∧ i < a + n
  · have hb : ¬ (b ≤ i ∧ i < b + n) := by omega
    rw [if_neg hb, if_pos ha, if_pos ha]
  · by_cases hb : b ≤ i ∧ i < b + n
    · rw [if_pos hb, if_neg ha, if_pos hb]
    · rw [if_neg hb, if_neg ha, if_neg ha, if_neg hb]

/-- The addresses of the stations. -/
theorem exchange_mac (data : Bytes) (i : ℕ) : exchange data 0 ethAlen ethAlen i =
    if i < 6 then data (6 + i) else if i < 12 then data (i - 6) else data i := by
  rw [exchange_apply data (by omega), Nat.zero_add, Nat.sub_zero]
  have hfirst : 0 ≤ i ∧ i < ethAlen ↔ i < 6 := and_iff_right (Nat.zero_le i)
  simp only [hfirst]
  by_cases h6 : i < 6
  · rw [if_pos h6, if_pos h6]
    rfl
  · have hsecond : ethAlen ≤ i ∧ i < ethAlen + ethAlen ↔ i < 12 :=
      and_iff_right (Nat.le_of_not_lt h6)
    rw [if_neg h6, if_neg h6, Nat.zero_add]
    simp only [hsecond]
    rfl

theorem exchange_mac_of_ge (data : Bytes) (h : 12 ≤ i) :
    exchange data 0 ethAlen ethAlen i = data i := by
  rw [exchange_mac, if_neg (by omega), if_neg (by omega)]

/-- The addresses of the hosts. -/
theorem exchange_ip (data : Bytes) (i : ℕ) : exchange data saddrAt daddrAt 4 i =
    if 26 ≤ i ∧ i < 30 then data (i + 4)
    else if 30 ≤ i ∧ i < 34 then data (i - 4) else data i := by
  have hfirst : 26 ≤ i → daddrAt + (i - saddrAt) = i + 4 := by
    intro h
    show 30 + (i - 26) = i + 4
    omega
  have hsecond : 30 ≤ i → saddrAt + (i - daddrAt) = i - 4 := by
    intro h
    show 26 + (i - 30) = i - 4
    omega
  rw [exchange_apply data (by decide)]
  exact ite_congr rfl (fun h => congrArg data (hfirst h.1)) fun _ =>
    ite_congr rfl (fun h => congrArg data (hsecond h.1)) fun _ => rfl

/-- Each byte of the frame before its checksum is made. -/
theorem cleared_apply (data : Bytes) (i : ℕ) : cleared data i =
    if i < 6 then data (6 + i)
    else if i < 12 then data (i - 6)
    else if i = 24 ∨ i = 25 ∨ i = 34 then 0
    else if 26 ≤ i ∧ i < 30 then data (i + 4)
    else if 30 ≤ i ∧ i < 34 then data (i - 4)
    else data i := by
  show (if 24 ≤ i ∧ i < 24 + 2 then if i - 24 = 0 then (0 : BitVec 8) else 0
    else Function.update (exchange (exchange data 0 ethAlen ethAlen) saddrAt daddrAt 4) 34 0 i) = _
  rw [Function.update_apply, exchange_ip, ite_self]
  by_cases hmac : i < 12
  · rw [if_neg (by omega), if_neg (by omega), if_neg (by omega), if_neg (by omega), exchange_mac]
    by_cases h6 : i < 6
    · rw [if_pos h6, if_pos h6]
    · rw [if_neg h6, if_neg h6, if_pos hmac, if_pos hmac]
  · rw [if_neg (show ¬ i < 6 by omega), if_neg hmac]
    by_cases hzero : i = 24 ∨ i = 25 ∨ i = 34
    · rw [if_pos hzero]
      rcases hzero with rfl | rfl | rfl <;> rfl
    · rw [if_neg hzero, if_neg (by omega), if_neg (by omega)]
      exact ite_congr rfl (fun h => exchange_mac_of_ge data (by omega)) fun _ =>
        ite_congr rfl (fun h => exchange_mac_of_ge data (by omega)) fun _ =>
          exchange_mac_of_ge data (by omega)

theorem storeCheck_of_ne (h : i ≠ 24 ∧ i ≠ 25) (c : BitVec 16) : storeCheck data c i = data i := by
  refine if_neg ?_
  show ¬ (24 ≤ i ∧ i < 24 + 2)
  omega

/-- The length of the header is not among what is changed. -/
theorem ihl_cleared (data : Bytes) : ihl (cleared data) = ihl data := by
  unfold ihl ih sizeofEthhdr
  rw [cleared_apply]
  rfl

/-- What is handed on is the frame with its checksum made. -/
theorem emulatorRxPacket_data (ipFastCsum : Bytes → ℕ → BitVec 16) (fresh : Bytes) (skb : SkBuff)
    (stats : Stats) (hi : i < skb.len) :
    (emulatorRxPacket ipFastCsum fresh skb stats).1.data i =
      storeCheck (cleared skb.data) (ipFastCsum (ih (cleared skb.data)) (ihl skb.data)) i := by
  rw [← ihl_cleared]
  refine (if_pos ?_).trans rfl
  exact ⟨Nat.zero_le i, by rwa [Nat.zero_add]⟩

/-- Each byte of it. -/
theorem emulatorRxPacket_apply (ipFastCsum : Bytes → ℕ → BitVec 16) (fresh : Bytes) (skb : SkBuff)
    (stats : Stats) (hi : i < skb.len) (hne : i ≠ 24 ∧ i ≠ 25) :
    (emulatorRxPacket ipFastCsum fresh skb stats).1.data i = cleared skb.data i := by
  rw [emulatorRxPacket_data ipFastCsum fresh skb stats hi, storeCheck_of_ne hne]

/-! ### The checksum -/

theorem toNat_append (a b : BitVec 8) : (a ++ b).toNat = 256 * a.toNat + b.toNat := by
  have hb := b.isLt
  rw [BitVec.toNat_append, ← Nat.shiftLeft_add_eq_or_of_lt hb, Nat.shiftLeft_eq]
  omega

/-- The halves of a word make the word. -/
theorem halves_append (c : BitVec 16) : (c >>> 8).setWidth 8 ++ c.setWidth 8 = c := by
  have hc := c.isLt
  refine BitVec.eq_of_toNat_eq ((toNat_append _ _).trans ?_)
  rw [BitVec.toNat_setWidth, BitVec.toNat_setWidth, BitVec.toNat_ushiftRight,
    Nat.shiftRight_eq_div_pow]
  omega

/-- The words of a header with its checksum stored. -/
theorem words_storeCheck (data : Bytes) (c : BitVec 16) (n : ℕ) :
    (List.range n).map (word (ih (storeCheck data c))) =
      ((List.range n).map (word (ih data))).set 5 c := by
  have hlen : ((List.range n).map (word (ih (storeCheck data c)))).length =
      (((List.range n).map (word (ih data))).set 5 c).length := by
    rw [List.length_set, List.length_map, List.length_map]
  refine List.ext_getElem hlen fun k _ _ => ?_
  rw [List.getElem_map, List.getElem_range, List.getElem_set, List.getElem_map, List.getElem_range]
  split
  case isTrue h =>
    subst h
    exact halves_append c
  case isFalse h =>
    unfold word ih sizeofEthhdr
    rw [storeCheck_of_ne (by omega), storeCheck_of_ne (by omega)]

/-- In the order of the network a sum of words is 256 times as large, up to multiples of
`2 ^ 16 - 1`. -/
theorem total_netWord (h : Bytes) (ks : List ℕ) :
    ∃ q, 256 * OnesComplement.total (ks.map (word h)) =
        OnesComplement.total (ks.map (netWord h)) + 65535 * q ∧
      OnesComplement.total (ks.map (word h)) ≤ 256 * OnesComplement.total (ks.map (netWord h)) := by
  induction ks with
  | nil => exact ⟨0, rfl, le_rfl⟩
  | cons k ks ih =>
    obtain ⟨q, hq, hle⟩ := ih
    have hword : (word h k).toNat = 256 * (h (2 * k + 1)).toNat + (h (2 * k)).toNat :=
      toNat_append _ _
    have hnet : (netWord h k).toNat = 256 * (h (2 * k)).toNat + (h (2 * k + 1)).toNat :=
      toNat_append _ _
    have hcons : ∀ f : ℕ → BitVec 16, OnesComplement.total ((k :: ks).map f) =
        (f k).toNat + OnesComplement.total (ks.map f) := fun f => rfl
    rw [hcons, hcons, hword, hnet]
    exact ⟨q + (h (2 * k + 1)).toNat, by omega, by omega⟩

/-- A header whose words add up to all ones on the machine verifies. -/
theorem verifies_of_sum {h : Bytes}
    (hsum : OnesComplement.sum ((List.range (2 * n)).map (word h)) = BitVec.allOnes 16) :
    Verifies h n := by
  obtain ⟨q, hq, hle⟩ := total_netWord h (List.range (2 * n))
  obtain ⟨hpos, hdvd⟩ := (OnesComplement.sum_eq_allOnes (by omega) _).mp hsum
  refine (OnesComplement.sum_eq_allOnes (by omega) _).mpr ⟨by omega, ?_⟩
  have hdvd' : 65535 ∣ 65535 * q + OnesComplement.total ((List.range (2 * n)).map (netWord h)) := by
    rw [Nat.add_comm, ← hq]
    exact Nat.dvd_mul_left_of_dvd hdvd 256
  exact (Nat.dvd_add_right (Nat.dvd_mul_right 65535 q)).mp hdvd'

/-- A header verifies with the checksum that has been made with 0 in its place. -/
theorem verifies_storeCheck (data : Bytes) (h : 5 < 2 * n) :
    Verifies (ih (storeCheck (cleared data) (checksum (ih (cleared data)) n))) n := by
  obtain ⟨before, hbefore⟩ : ∃ before, cleared data = storeCheck before 0 := ⟨_, rfl⟩
  refine verifies_of_sum ?_
  rw [words_storeCheck, checksum, hbefore, words_storeCheck, List.set_set]
  exact OnesComplement.sum_set_check (by omega) _ (by rwa [List.length_map, List.length_range])

/-- Only the bytes of a header matter. -/
theorem verifies_congr {h h' : Bytes} (heq : ∀ k < 4 * n, h k = h' k) :
    Verifies h n ↔ Verifies h' n := by
  have hwords : (List.range (2 * n)).map (netWord h) = (List.range (2 * n)).map (netWord h') := by
    refine List.map_congr_left fun k hk => ?_
    rw [List.mem_range] at hk
    rw [netWord, netWord, heq (2 * k) (by omega), heq (2 * k + 1) (by omega)]
  rw [Verifies, Verifies, hwords]

/-! ### The answer -/

section Answer

variable (ipFastCsum : Bytes → ℕ → BitVec 16) (fresh : Bytes) (stats : Stats)

/-- The addresses are exchanged. -/
theorem exchanged (skb : SkBuff) (h : 35 ≤ skb.len) :
    Exchanged skb (emulatorRxPacket ipFastCsum fresh skb stats).1 := by
  have hbyte : ∀ i < 34, i ≠ 24 ∧ i ≠ 25 →
      (emulatorRxPacket ipFastCsum fresh skb stats).1.data i = cleared skb.data i :=
    fun i hi hne => emulatorRxPacket_apply ipFastCsum fresh skb stats (by omega) hne
  constructor
  · intro i hi
    have hi6 : i < 6 := hi
    rw [show ethAlen + i = 6 + i from rfl, hbyte i (by omega) (by omega),
      hbyte (6 + i) (by omega) (by omega), cleared_apply, cleared_apply, if_pos hi6,
      if_neg (by omega), if_pos (by omega), Nat.add_sub_cancel_left]
    exact ⟨rfl, rfl⟩
  · intro i hi
    rw [show saddrAt + i = 26 + i from rfl, show daddrAt + i = 30 + i from rfl,
      hbyte (26 + i) (by omega) (by omega), hbyte (30 + i) (by omega) (by omega), cleared_apply,
      cleared_apply, if_neg (by omega), if_neg (by omega), if_neg (by omega), if_pos (by omega),
      if_neg (by omega), if_neg (by omega), if_neg (by omega), if_neg (by omega),
      if_pos (by omega)]
    exact ⟨congrArg skb.data (by omega), congrArg skb.data (by omega)⟩

/-- To exchange the addresses twice gives them back. -/
theorem Exchanged.restored {f g k : SkBuff} (h : Exchanged f g) (h' : Exchanged g k) :
    Restored f k := by
  constructor
  · intro i hi
    rcases Nat.lt_or_ge i ethAlen with hlt | hge
    · exact (h'.mac i hlt).1.trans (h.mac i hlt).2
    · obtain ⟨j, rfl⟩ := Nat.exists_eq_add_of_le hge
      have hj : j < ethAlen := by omega
      exact (h'.mac j hj).2.trans (h.mac j hj).1
  · intro i hi
    rcases Nat.lt_or_ge i 4 with hlt | hge
    · exact (h'.ip i hlt).1.trans (h.ip i hlt).2
    · obtain ⟨j, rfl⟩ := Nat.exists_eq_add_of_le hge
      have hj : j < 4 := by omega
      rw [show saddrAt + (4 + j) = daddrAt + j from (Nat.add_assoc saddrAt 4 j).symm]
      exact (h'.ip j hj).2.trans (h.ip j hj).1

end Answer

/-- What is handed on is as long as the frame, with the addresses exchanged and the header
verifying, and answering it in the same way gives the addresses back. -/
theorem reply_valid {ipFastCsum : Bytes → ℕ → BitVec 16}
    (hcsum : ∀ h n, ipFastCsum h n = checksum h n) (f : Frame) (fresh fresh' : Bytes)
    (stats stats' : Stats) :
    Answers f.toSkBuff (emulatorRxPacket ipFastCsum fresh f.toSkBuff stats).1 ∧
      Restored f.toSkBuff (emulatorRxPacket ipFastCsum fresh'
        (emulatorRxPacket ipFastCsum fresh f.toSkBuff stats).1 stats').1 := by
  have hihl := f.ihl_mem
  have hlong : 14 + 4 * ihl f.data + 1 ≤ f.len := f.long
  have hexch := exchanged ipFastCsum fresh stats f.toSkBuff (by omega)
  refine ⟨⟨hexch, rfl, ?_, ?_⟩, hexch.restored (exchanged ipFastCsum fresh' stats' _ ?_)⟩
  · have hfirst := emulatorRxPacket_apply ipFastCsum fresh f.toSkBuff stats
      (show sizeofEthhdr + 0 < f.len by show 14 < f.len; omega) (by decide)
    rw [← ihl_cleared f.data]
    exact congrArg (fun b : BitVec 8 => b.toNat % 16) hfirst
  · -- the header is within the frame
    have hcheck := verifies_storeCheck f.data (show 5 < 2 * ihl f.data by omega)
    rw [← hcsum] at hcheck
    refine (verifies_congr fun k hk => ?_).mpr hcheck
    exact emulatorRxPacket_data ipFastCsum fresh f.toSkBuff stats (show 14 + k < f.len by omega)
  · show 35 ≤ f.len
    omega

/-- A request with a word of options in its header. No two bytes of its addresses are the same. -/
def optionsRequest : EchoRequest where
  data i := if i < 12 ∨ (26 ≤ i ∧ i < 34) then BitVec.ofNat 8 (i + 1) else if i = 12 then 0x08
    else if i = 14 then 0x46 else if i = 23 then 1 else if i = 38 then 8 else 0
  len := 46
  ip := by decide
  version := by decide
  ihl_mem := by decide
  long := by decide
  protocol := by decide
  type := by decide
  icmp := by decide

/-- Its answer, and the answer to that. -/
theorem reply_valid_options :
    Answers optionsRequest.toSkBuff
        (emulatorRxPacket checksum (fun _ => 0) optionsRequest.toSkBuff ⟨0, 0⟩).1 ∧
      Restored optionsRequest.toSkBuff (emulatorRxPacket checksum (fun _ => 0)
        (emulatorRxPacket checksum (fun _ => 0) optionsRequest.toSkBuff ⟨0, 0⟩).1 ⟨1, 46⟩).1 :=
  reply_valid (fun _ _ => rfl) optionsRequest.toFrame (fun _ => 0) (fun _ => 0) ⟨0, 0⟩ ⟨1, 46⟩

/-- A byte that is neither rewritten nor where the type is without options stays the same. -/
theorem cleared_of_not_rewritten (h : ¬ Rewritten i) (hi : i ≠ 34) : cleared data i = data i := by
  have hnot : ¬ (i < 12 ∨ (26 ≤ i ∧ i < 34) ∨ i = 24 ∨ i = 25) := h
  rw [cleared_apply, if_neg (by omega), if_neg (by omega), if_neg (by omega), if_neg (by omega),
    if_neg (by omega)]

/-- Nothing else is changed in a request but its type if and only if its header has no options. -/
theorem reply_frame_iff (ipFastCsum : Bytes → ℕ → BitVec 16) (fresh : Bytes) (stats : Stats)
    (f : EchoRequest) :
    OnlyReplied f (emulatorRxPacket ipFastCsum fresh f.toSkBuff stats).1 ↔ ihl f.data = 5 := by
  have hihl := f.ihl_mem
  have hicmp : 14 + 4 * ihl f.data + 8 ≤ f.len := f.icmp
  have hbyte : ∀ i < f.len, i ≠ 24 ∧ i ≠ 25 →
      (emulatorRxPacket ipFastCsum fresh f.toSkBuff stats).1.data i = cleared f.data i :=
    fun i hi hne => emulatorRxPacket_apply ipFastCsum fresh f.toSkBuff stats hi hne
  have htype : (emulatorRxPacket ipFastCsum fresh f.toSkBuff stats).1.data
      (sizeofEthhdr + 4 * ihl f.data) = cleared f.data (14 + 4 * ihl f.data) :=
    hbyte (14 + 4 * ihl f.data) (by omega) (by omega)
  constructor
  · intro h
    by_contra hne
    -- the type is behind the options, and stays
    have hnot : ¬ Rewritten (14 + 4 * ihl f.data) := by
      show ¬ (_ < 12 ∨ (26 ≤ _ ∧ _ < 34) ∨ _ = 24 ∨ _ = 25)
      omega
    have hzero := h.type
    rw [htype, cleared_of_not_rewritten hnot (by omega)] at hzero
    exact absurd (f.type.symm.trans hzero) (by decide)
  · intro h
    refine ⟨rfl, ?_, fun i hi hi34 hnot => ?_⟩
    · rw [htype, h, cleared_apply]
      rfl
    · have hne : i ≠ 34 := by
        rw [h] at hi34
        exact hi34
      rw [hbyte i hi ?_, cleared_of_not_rewritten hnot hne]
      exact ⟨fun h24 => hnot (.inr (.inr (.inl h24))), fun h25 => hnot (.inr (.inr (.inr h25)))⟩

/-- Behind options the type is not where 0 is stored. -/
theorem reply_frame_options : ¬ ∀ (ipFastCsum : Bytes → ℕ → BitVec 16) (fresh : Bytes)
    (stats : Stats) (f : EchoRequest),
    OnlyReplied f (emulatorRxPacket ipFastCsum fresh f.toSkBuff stats).1 := by
  intro h
  have hzero := (h checksum (fun _ => 0) ⟨0, 0⟩ optionsRequest).type
  have hbyte := emulatorRxPacket_apply checksum (fun _ => 0) optionsRequest.toSkBuff ⟨0, 0⟩
    (show 38 < 46 by omega) (by omega)
  rw [cleared_apply] at hbyte
  exact absurd (hbyte.symm.trans hzero) (by decide)

end S3c2440.Net
