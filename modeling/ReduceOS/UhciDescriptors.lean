import ReduceOS.UsbTransfer
import ReduceOS.Page

/-!
The transfer descriptors of the UHCI driver. The controller reads from a descriptor what kind of
packet it is for, how many bytes it has and where they lie. `uhci_control` makes one for each
packet of the data of a transfer.
-/
namespace ReduceOS.UhciDescriptors

open Machine UsbTransfer
open Page (Entry getFrame isCanonical)

structure TdLink where
  terminate : BitVec 1
  qh : BitVec 1
  vf : BitVec 1
  lp : BitVec 28

/-- What the driver sets in `cs` of a transfer descriptor. -/
structure Status where
  ls : BitVec 1
  active : BitVec 1
  errors : BitVec 2

structure Token where
  pid : BitVec 8
  deviceAddr : BitVec 7
  endpt : BitVec 4
  d : BitVec 1
  reserved : BitVec 1
  maxlen : BitVec 11

structure Packet where
  cs : Status
  token : Token
  buffer : BitVec 32

structure Td extends Packet where
  link : TdLink

/-- A transfer with what `uhci_control` reads of its device and its request beside that. -/
structure Request extends Transfer where
  speed : CInt
  address : BitVec 32
  endpoint : BitVec 32
  req : Addr
  bmRequestType : BitVec 8

section Source

def lowSpeed : CInt := 1

def rtD2h : BitVec 8 := 0x80

def packetIn : BitVec 32 := 0x69

def packetOut : BitVec 32 := 0xE1

def packetSetup : BitVec 32 := 0x2D

def Token.or (t : Token) (raw : BitVec 32) : Token where
  pid := t.pid ||| raw.setWidth 8
  deviceAddr := t.deviceAddr ||| raw.extractLsb' 8 7
  endpt := t.endpt ||| raw.extractLsb' 15 4
  d := t.d ||| raw.extractLsb' 19 1
  reserved := t.reserved ||| raw.extractLsb' 20 1
  maxlen := t.maxlen ||| raw.extractLsb' 21 11

/-- What `uhci_createTD` writes to a descriptor that was cleared. -/
def newTd (speed : CInt) (toggle devaddr endp type length : BitVec 32) (data : Addr) : Td :=
  let length := if length = 0 then 0x7FF else (length - 1) &&& 0x7FF
  let token := (Token.mk 0 0 0 0 0 (length.setWidth 11)).or (endp <<< 15)
  { cs := ⟨if speed = lowSpeed then 1 else 0, 1, 3⟩
    link := ⟨1, 0, 0, 0⟩
    token := { token with
      pid := type.setWidth 8
      deviceAddr := devaddr.setWidth 7
      d := toggle.setWidth 1 }
    buffer := data.setWidth 32 }

def memGetPhysicalAddress (page : Addr → Entry) (virtaddr : Addr) : Addr :=
  if !isCanonical virtaddr then 0
  else
    let offset := virtaddr &&& 0xFFF
    let virtaddr := virtaddr &&& ~~~0xFFF
    getFrame (page virtaddr) + offset

variable (page : Addr → Entry) (r : Request)

def Request.dataPacket : BitVec 32 :=
  if r.bmRequestType &&& rtD2h ≠ 0 then packetIn else packetOut

def Request.statusPacket : BitVec 32 :=
  if r.bmRequestType &&& rtD2h ≠ 0 then packetOut else packetIn

def Request.setupTd : Td :=
  newTd r.speed 0 r.address r.endpoint packetSetup 8 (memGetPhysicalAddress page r.req)

def Request.dataTd (toggle transactionSize : BitVec 32) (buffer : Addr) : Td :=
  newTd r.speed toggle r.address r.endpoint r.dataPacket transactionSize
    (memGetPhysicalAddress page buffer)

def Request.statusTd : Td :=
  newTd r.speed 1 r.address r.endpoint r.statusPacket 0 null

end Source

/-- The descriptors that the loop over the data makes, from `buffer` to `bufferEnd`, in which
there are at most `n` bytes. -/
def dataTds (page : Addr → Entry) (r : Request) : ℕ → Addr → Addr → BitVec 32 → List Td
  | 0, _, _, _ => []
  | n + 1, buffer, bufferEnd, toggle =>
    if buffer < bufferEnd then
      let transactionSize := (bufferEnd - buffer).setWidth 32
      let transactionSize := if transactionSize > r.mps then r.mps else transactionSize
      if transactionSize = 0 then []
      else
        let toggle := toggle ^^^ 1
        r.dataTd page toggle transactionSize buffer ::
          dataTds page r n (buffer + transactionSize.setWidth 64) bufferEnd toggle
    else []

def Packet.count (packet : Packet) : ℕ := (packet.token.maxlen + 1).toNat

def physical (page : Addr → Entry) (a : Addr) : Addr :=
  ((page (a &&& ~~~0xFFF)).address.setWidth 64 <<< 12) + (a &&& 0xFFF)

/-- The packets move the `remaining` bytes from `a` on, one after the other. -/
def Carries (page : Addr → Entry) (mps : ℕ) (pid : BitVec 8) :
    Addr → ℕ → BitVec 1 → List Packet → Prop
  | _, remaining, _, [] => remaining = 0
  | a, remaining, toggle, packet :: packets =>
    (packet.token.pid = pid ∧ packet.token.d = toggle ∧ 0 < packet.count ∧ packet.count ≤ mps ∧
      packet.count ≤ remaining ∧ ∀ j < packet.count,
        (packet.buffer + BitVec.ofNat 32 j).setWidth 64 = physical page (a + BitVec.ofNat 64 j)) ∧
    Carries page mps pid (a + BitVec.ofNat 64 packet.count) (remaining - packet.count)
      (toggle ^^^ 1) packets

def Complete (page : Addr → Entry) (r : Request) (packets : List Packet) : Prop :=
  ∃ setup data status, packets = setup :: (data ++ [status]) ∧
    (setup.token.pid = packetSetup.setWidth 8 ∧ setup.token.d = 0 ∧ setup.count = 8) ∧
    Carries page r.mps.toNat (r.dataPacket.setWidth 8) r.data r.length.toNat 1 data ∧
    (status.token.pid = r.statusPacket.setWidth 8 ∧ status.token.d = 1 ∧ status.count = 0)

section Fields

variable (speed : CInt) (toggle devaddr type length : BitVec 32) (data : Addr) {endp : BitVec 32}

/-- The number of an endpoint has four bits, and the other fields keep theirs. -/
theorem newTd_token (hendp : endp < 16) :
    (newTd speed toggle devaddr endp type length data).token =
      ⟨type.setWidth 8, devaddr.setWidth 7, endp.setWidth 4, toggle.setWidth 1, 0,
        (if length = 0 then (0x7FF : BitVec 32) else (length - 1) &&& 0x7FF).setWidth 11⟩ := by
  have hlt : endp.toNat < 16 := hendp
  have hendpt : (endp <<< 15).extractLsb' 15 4 = endp.setWidth 4 := by
    apply BitVec.eq_of_toNat_eq
    simp [BitVec.toNat_shiftLeft, Nat.shiftLeft_eq, Nat.shiftRight_eq_div_pow]
    omega
  have hreserved : (endp <<< 15).extractLsb' 20 1 = 0 := by
    apply BitVec.eq_of_toNat_eq
    simp [BitVec.toNat_shiftLeft, Nat.shiftLeft_eq, Nat.shiftRight_eq_div_pow]
    omega
  have hmaxlen : (endp <<< 15).extractLsb' 21 11 = 0 := by
    apply BitVec.eq_of_toNat_eq
    simp [BitVec.toNat_shiftLeft, Nat.shiftLeft_eq, Nat.shiftRight_eq_div_pow]
    omega
  simp [newTd, Token.or, hendpt, hreserved, hmaxlen]

/-- The length field has one byte less, and eleven bits. -/
theorem newTd_count (hendp : endp < 16) :
    (newTd speed toggle devaddr endp type length data).count = length.toNat % 2048 := by
  rw [Packet.count, newTd_token speed toggle devaddr type length data hendp]
  by_cases hzero : length = 0
  · simp [hzero]
  · have hpos : length.toNat ≠ 0 := fun h => hzero (BitVec.eq_of_toNat_eq h)
    have hand : ((length - 1) &&& 0x7FF).toNat = (length - 1).toNat % 2048 :=
      Nat.and_two_pow_sub_one_eq_mod _ 11
    have hlt := length.isLt
    simp only [hzero, if_false, BitVec.toNat_add, BitVec.toNat_setWidth, hand, BitVec.toNat_sub]
    simp
    omega

end Fields

section Bytes

variable (page : Addr → Entry) {a : Addr} {c : ℕ}

def low (page : Addr → Entry) (a : Addr) : BitVec 32 := (physical page a).setWidth 32

theorem memGetPhysicalAddress_low (hcanon : isCanonical a = true) :
    (memGetPhysicalAddress page a).setWidth 32 = low page a := by
  have hframe : ∀ f : BitVec 28, ((f.setWidth 32 <<< 12).signExtend 64).setWidth 32 =
      (f.setWidth 64 <<< 12).setWidth 32 := by
    intro f
    apply BitVec.eq_of_getLsbD_eq
    intro i hi
    simp [BitVec.getLsbD_signExtend]
    grind
  simp only [memGetPhysicalAddress, hcanon, Bool.not_true, Bool.false_eq_true, if_false, low,
    physical, getFrame]
  rw [BitVec.setWidth_add _ _ (by decide), BitVec.setWidth_add _ _ (by decide), hframe]

/-- Where the next byte is in the same page, it lies behind. -/
theorem physical_succ (hsame : (a + 1).toNat % 4096 ≠ 0) :
    physical page (a + 1) = physical page a + 1 := by
  have hsucc : (a + 1).toNat = (a.toNat + 1) % 2 ^ 64 := by simp
  have hmask : ∀ x : Addr, (x &&& 0xFFF).toNat = x.toNat % 4096 := by
    intro x
    exact Nat.and_two_pow_sub_one_eq_mod _ 12
  have hround : ∀ x : Addr, (x &&& ~~~0xFFF).toNat = x.toNat / 4096 * 4096 :=
    Page.toNat_and_not_fff
  have hpage : (a + 1) &&& ~~~0xFFF = a &&& ~~~0xFFF := by
    apply BitVec.eq_of_toNat_eq
    rw [hround, hround]
    omega
  have hoffset : (a + 1) &&& 0xFFF = (a &&& 0xFFF) + 1 := by
    apply BitVec.eq_of_toNat_eq
    rw [BitVec.toNat_add, hmask, hmask]
    simp
    omega
  rw [physical, physical, hpage, hoffset, BitVec.add_assoc]

/-- The bytes of one packet lie where its descriptor says if none is at 4 GiB or above and each
lies behind the one before it. -/
theorem bytes_iff (a : Addr) (c : ℕ) :
    (∀ j < c, (low page a + BitVec.ofNat 32 j).setWidth 64 =
      physical page (a + BitVec.ofNat 64 j)) ↔
    (∀ j < c, (physical page (a + BitVec.ofNat 64 j)).toNat < 2 ^ 32) ∧
      ∀ j, j + 1 < c → low page (a + BitVec.ofNat 64 (j + 1)) =
        low page (a + BitVec.ofNat 64 j) + 1 := by
  constructor
  · intro h
    have hlow : ∀ j < c, low page (a + BitVec.ofNat 64 j) = low page a + BitVec.ofNat 32 j := by
      intro j hj
      rw [low, ← h j hj]
      simp
    refine ⟨?_, ?_⟩
    · intro j hj
      rw [← h j hj]
      simp only [BitVec.toNat_setWidth]
      omega
    · intro j hj
      rw [hlow (j + 1) hj, hlow j (by omega), BitVec.add_assoc, BitVec.ofNat_add]
      rfl
  · rintro ⟨hbelow, hjoined⟩
    have hlow : ∀ j < c, low page (a + BitVec.ofNat 64 j) = low page a + BitVec.ofNat 32 j := by
      intro j
      induction j with
      | zero => simp
      | succ j ih =>
        intro hj
        rw [hjoined j hj, ih (by omega), BitVec.add_assoc, BitVec.ofNat_add]
        rfl
    intro j hj
    have hsmall := hbelow j hj
    rw [← hlow j hj]
    apply BitVec.eq_of_toNat_eq
    simp only [low, BitVec.toNat_setWidth]
    omega

end Bytes

/-- What descriptors of at most `mps` bytes need to move `n` bytes: the count fits its field, no
byte is at 4 GiB or above, and a byte that does not begin a packet lies behind the one before it. -/
structure Sound (page : Addr → Entry) (mps : ℕ) (a : Addr) (n : ℕ) : Prop where
  short : min mps n < 2048
  below : ∀ i < n, (physical page (a + BitVec.ofNat 64 i)).toNat < 2 ^ 32
  joined : ∀ i, i + 1 < n → (i + 1) % mps ≠ 0 →
    low page (a + BitVec.ofNat 64 (i + 1)) = low page (a + BitVec.ofNat 64 i) + 1

section Packets

variable (page : Addr → Entry) {mps n : ℕ} {a : Addr}

theorem add_ofNat_add (a : Addr) (i j : ℕ) :
    a + BitVec.ofNat 64 i + BitVec.ofNat 64 j = a + BitVec.ofNat 64 (i + j) := by
  rw [BitVec.add_assoc, BitVec.ofNat_add]

theorem sound_step (hmps : 0 < mps) (hn : 0 < n) :
    Sound page mps a n ↔ (min mps n < 2048 ∧ ∀ j < min mps n,
        (low page a + BitVec.ofNat 32 j).setWidth 64 = physical page (a + BitVec.ofNat 64 j)) ∧
      Sound page mps (a + BitVec.ofNat 64 (min mps n)) (n - min mps n) := by
  rw [bytes_iff]
  constructor
  · intro h
    refine ⟨⟨h.short, fun i hi => h.below i (by omega), ?_⟩, ⟨?_, ?_, ?_⟩⟩
    · intro i hi
      refine h.joined i (by omega) ?_
      rw [Nat.mod_eq_of_lt (by omega)]
      omega
    · have hshort := h.short
      omega
    · intro i hi
      rw [add_ofNat_add]
      exact h.below _ (by omega)
    · intro i hi hmod
      have hfull : min mps n = mps := by omega
      rw [add_ofNat_add, add_ofNat_add, hfull, ← Nat.add_assoc]
      refine h.joined (mps + i) (by omega) ?_
      rwa [Nat.add_assoc, Nat.add_mod_left]
  · rintro ⟨⟨hshort, hbelow, hjoined⟩, hrest⟩
    refine ⟨hshort, ?_, ?_⟩
    · intro i hi
      by_cases hfirst : i < min mps n
      · exact hbelow i hfirst
      · obtain ⟨k, rfl⟩ := Nat.exists_eq_add_of_le (Nat.le_of_not_lt hfirst)
        rw [← add_ofNat_add]
        exact hrest.below k (by omega)
    · intro i hi hmod
      by_cases hfirst : i + 1 < min mps n
      · exact hjoined i hfirst
      · have hfull : min mps n = mps := by omega
        have hne : i + 1 ≠ mps := by
          intro heq
          rw [heq, Nat.mod_self] at hmod
          exact hmod rfl
        obtain ⟨k, rfl⟩ : ∃ k, i = mps + k := Nat.exists_eq_add_of_le (by omega)
        have hnext := hrest.joined k (by omega) (by rwa [Nat.add_assoc, Nat.add_mod_left] at hmod)
        rw [add_ofNat_add, add_ofNat_add, hfull] at hnext
        exact hnext

theorem Sound.none : Sound page mps a 0 := by
  refine ⟨by simp, ?_, ?_⟩
  · intro i hi
    omega
  · intro i hi
    omega

theorem Carries.sum {pid : BitVec 8} {toggle : BitVec 1} {packets : List Packet}
    (h : Carries page mps pid a n toggle packets) : (packets.map Packet.count).sum = n := by
  induction packets generalizing a n toggle with
  | nil => exact Eq.symm h
  | cons packet packets ih =>
    obtain ⟨⟨-, -, -, -, hle, -⟩, hrest⟩ := h
    have hsum := ih hrest
    simp only [List.map_cons, List.sum_cons]
    omega

variable {r : Request} {k : ℕ}

/-- While bytes are left, a descriptor is made for as many as there may be in one packet. -/
theorem dataTds_step (toggle : BitVec 32) (hmps : 0 < r.mps.toNat) (hn : 0 < n)
    (hsmall : n < 2 ^ 32) (hroom : a.toNat + n < 2 ^ 64) :
    dataTds page r (k + 1) a (a + BitVec.ofNat 64 n) toggle =
      r.dataTd page (toggle ^^^ 1) (BitVec.ofNat 32 (min r.mps.toNat n)) a ::
        dataTds page r k (a + BitVec.ofNat 64 (min r.mps.toNat n)) (a + BitVec.ofNat 64 n)
          (toggle ^^^ 1) := by
  have hltmps := r.mps.isLt
  have hend : (a + BitVec.ofNat 64 n).toNat = a.toNat + n := by
    rw [BitVec.toNat_add, BitVec.toNat_ofNat]
    omega
  have hmore : a < a + BitVec.ofNat 64 n := by
    rw [BitVec.lt_def, hend]
    omega
  have hleft : (a + BitVec.ofNat 64 n - a).setWidth 32 = BitVec.ofNat 32 n := by
    rw [BitVec.add_comm, BitVec.add_sub_cancel]
    simp
  have hnat : (BitVec.ofNat 32 n).toNat = n := by
    rw [BitVec.toNat_ofNat, Nat.mod_eq_of_lt hsmall]
  have hsize : (if BitVec.ofNat 32 n > r.mps then r.mps else BitVec.ofNat 32 n) =
      BitVec.ofNat 32 (min r.mps.toNat n) := by
    split_ifs with hfull
    · rw [gt_iff_lt, BitVec.lt_def, hnat] at hfull
      rw [Nat.min_eq_left (by omega), BitVec.ofNat_toNat, BitVec.setWidth_eq]
    · rw [gt_iff_lt, BitVec.lt_def, hnat] at hfull
      rw [Nat.min_eq_right (by omega)]
  have hpos : BitVec.ofNat 32 (min r.mps.toNat n) ≠ 0 := by
    intro h
    have hzero := congrArg BitVec.toNat h
    simp only [BitVec.toNat_ofNat, BitVec.ofNat_eq_ofNat, Nat.zero_mod] at hzero
    omega
  have hwide : (BitVec.ofNat 32 (min r.mps.toNat n)).setWidth 64 =
      BitVec.ofNat 64 (min r.mps.toNat n) := by
    apply BitVec.eq_of_toNat_eq
    simp only [BitVec.toNat_setWidth, BitVec.toNat_ofNat]
    omega
  simp only [dataTds, hmore, if_true, hleft, hsize, hpos, if_false, hwide]

theorem dataTds_nil (toggle : BitVec 32) : dataTds page r k a a toggle = [] := by
  cases k <;> simp [dataTds]

/-- The address behind the bytes, from the address behind the first packet. -/
theorem end_eq (a : Addr) {c n : ℕ} (hc : c ≤ n) :
    a + BitVec.ofNat 64 n = a + BitVec.ofNat 64 c + BitVec.ofNat 64 (n - c) := by
  rw [add_ofNat_add, Nat.add_sub_cancel' hc]

theorem toNat_add_ofNat (hroom : a.toNat + n < 2 ^ 64) :
    (a + BitVec.ofNat 64 n).toNat = a.toNat + n := by
  rw [BitVec.toNat_add, BitVec.toNat_ofNat]
  omega

theorem dataTds_length (toggle : BitVec 32) (hmps : 0 < r.mps.toNat) (hk : n ≤ k)
    (hsmall : n < 2 ^ 32) (hroom : a.toNat + n < 2 ^ 64) :
    (dataTds page r k a (a + BitVec.ofNat 64 n) toggle).length =
      (n + r.mps.toNat - 1) / r.mps.toNat := by
  induction k generalizing a n toggle with
  | zero =>
    obtain rfl : n = 0 := by omega
    simp [dataTds, Nat.div_eq_of_lt (by omega : r.mps.toNat - 1 < r.mps.toNat)]
  | succ k ih =>
    by_cases hn : n = 0
    · subst hn
      simp [dataTds_nil, Nat.div_eq_of_lt (by omega : r.mps.toNat - 1 < r.mps.toNat)]
    · have hc : min r.mps.toNat n ≤ n := Nat.min_le_right _ _
      have hplace := toNat_add_ofNat (a := a) (n := min r.mps.toNat n) (by omega)
      rw [dataTds_step page toggle hmps (by omega) hsmall hroom, List.length_cons, end_eq a hc,
        ih _ (by omega) (by omega) (by omega)]
      by_cases hfull : r.mps.toNat ≤ n
      · have hrest : n - r.mps.toNat + r.mps.toNat - 1 + r.mps.toNat = n + r.mps.toNat - 1 := by
          omega
        rw [Nat.min_eq_left hfull, ← Nat.add_div_right _ hmps, hrest]
      · have hone : (n + r.mps.toNat - 1) / r.mps.toNat = 1 := by
          rw [Nat.div_eq_iff hmps]
          omega
        rw [Nat.min_eq_right (by omega), hone, Nat.sub_self, Nat.zero_add,
          Nat.div_eq_of_lt (by omega)]

/-- No descriptor moves more bytes than the loop meant it to. -/
theorem dataTds_sum_le (toggle : BitVec 32) (hmps : 0 < r.mps.toNat) (hendp : r.endpoint < 16)
    (hk : n ≤ k) (hsmall : n < 2 ^ 32) (hroom : a.toNat + n < 2 ^ 64) :
    ((dataTds page r k a (a + BitVec.ofNat 64 n) toggle).map fun td => td.count).sum ≤ n := by
  induction k generalizing a n toggle with
  | zero => simp [dataTds]
  | succ k ih =>
    by_cases hn : n = 0
    · subst hn
      simp [dataTds_nil]
    · have hc : min r.mps.toNat n ≤ n := Nat.min_le_right _ _
      have hplace := toNat_add_ofNat (a := a) (n := min r.mps.toNat n) (by omega)
      rw [dataTds_step page toggle hmps (by omega) hsmall hroom, List.map_cons, List.sum_cons,
        end_eq a hc]
      have hrest := @ih _ _ (toggle ^^^ 1) (by omega : n - min r.mps.toNat n ≤ k) (by omega)
        (by omega : (a + BitVec.ofNat 64 (min r.mps.toNat n)).toNat + _ < 2 ^ 64)
      have hcount : (r.dataTd page (toggle ^^^ 1) (BitVec.ofNat 32 (min r.mps.toNat n)) a).count ≤
          min r.mps.toNat n := by
        rw [Request.dataTd, newTd_count _ _ _ _ _ _ hendp, BitVec.toNat_ofNat]
        omega
      omega

/-- Where a packet has more bytes than its count says, some are left over. -/
theorem dataTds_sum_lt (toggle : BitVec 32) (hmps : 0 < r.mps.toNat) (hendp : r.endpoint < 16)
    (hk : n ≤ k + 1) (hsmall : n < 2 ^ 32) (hroom : a.toNat + n < 2 ^ 64)
    (hlong : 2048 ≤ min r.mps.toNat n) :
    ((dataTds page r (k + 1) a (a + BitVec.ofNat 64 n) toggle).map fun td => td.count).sum < n := by
  have hc : min r.mps.toNat n ≤ n := Nat.min_le_right _ _
  have hplace := toNat_add_ofNat (a := a) (n := min r.mps.toNat n) (by omega)
  rw [dataTds_step page toggle hmps (by omega) hsmall hroom, List.map_cons, List.sum_cons,
    end_eq a hc]
  have hrest := dataTds_sum_le page (a := a + BitVec.ofNat 64 (min r.mps.toNat n)) (toggle ^^^ 1)
    hmps hendp (by omega : n - min r.mps.toNat n ≤ k) (by omega) (by omega)
  rw [Request.dataTd, newTd_count _ _ _ _ _ _ hendp, BitVec.toNat_ofNat]
  omega

/-- The descriptors that are made move all bytes exactly when the buffer is sound. -/
theorem carries_iff (toggle : BitVec 32) (hmps : 0 < r.mps.toNat) (hendp : r.endpoint < 16)
    (hk : n ≤ k) (hsmall : n < 2 ^ 32) (hroom : a.toNat + n < 2 ^ 64)
    (hcanon : ∀ i < n, isCanonical (a + BitVec.ofNat 64 i) = true) :
    Carries page r.mps.toNat (r.dataPacket.setWidth 8) a n ((toggle ^^^ 1).setWidth 1)
        ((dataTds page r k a (a + BitVec.ofNat 64 n) toggle).map Td.toPacket) ↔
      Sound page r.mps.toNat a n := by
  induction k generalizing a n toggle with
  | zero =>
    obtain rfl : n = 0 := by omega
    simpa [dataTds, Carries] using Sound.none page
  | succ k ih =>
    by_cases hn : n = 0
    · subst hn
      simpa [dataTds_nil, Carries] using Sound.none page
    · have hc : min r.mps.toNat n ≤ n := Nat.min_le_right _ _
      by_cases hlong : 2048 ≤ min r.mps.toNat n
      · have hlost := dataTds_sum_lt page toggle hmps hendp hk hsmall hroom hlong
        constructor
        · intro h
          have hsum := h.sum
          rw [List.map_map] at hsum
          exact absurd hsum (Nat.ne_of_lt hlost)
        · intro h
          exact absurd h.short (by omega)
      · have hplace := toNat_add_ofNat (a := a) (n := min r.mps.toNat n) (by omega)
        have hcount : (r.dataTd page (toggle ^^^ 1)
            (BitVec.ofNat 32 (min r.mps.toNat n)) a).count = min r.mps.toNat n := by
          rw [Request.dataTd, newTd_count _ _ _ _ _ _ hendp, BitVec.toNat_ofNat]
          omega
        have hfirst : (r.dataTd page (toggle ^^^ 1)
            (BitVec.ofNat 32 (min r.mps.toNat n)) a).buffer = low page a := by
          have h := hcanon 0 (by omega)
          exact memGetPhysicalAddress_low page (by simpa using h)
        have hrest := @ih (n - min r.mps.toNat n) (a + BitVec.ofNat 64 (min r.mps.toNat n))
          (toggle ^^^ 1) (by omega) (by omega) (by omega) (by
            intro i hi
            rw [add_ofNat_add]
            exact hcanon _ (by omega))
        rw [sound_step page hmps (by omega), ← hrest,
          dataTds_step page toggle hmps (by omega) hsmall hroom, ← end_eq a hc]
        have hnext : ((toggle ^^^ 1 ^^^ 1).setWidth 1 : BitVec 1) =
            (toggle ^^^ 1).setWidth 1 ^^^ 1 := by
          rw [BitVec.setWidth_xor]
          rfl
        have hpid : (r.dataTd page (toggle ^^^ 1)
            (BitVec.ofNat 32 (min r.mps.toNat n)) a).token.pid = r.dataPacket.setWidth 8 := rfl
        have hd : (r.dataTd page (toggle ^^^ 1)
            (BitVec.ofNat 32 (min r.mps.toNat n)) a).token.d = (toggle ^^^ 1).setWidth 1 := rfl
        have hpos : 0 < min r.mps.toNat n := by omega
        have hshort : min r.mps.toNat n < 2048 := by omega
        have hle : min r.mps.toNat n ≤ r.mps.toNat := Nat.min_le_left _ _
        simp only [List.map_cons, Carries, hcount, hfirst, hpid, hd, hnext, hpos, hshort, hle, hc,
          true_and]

/-- The loop does nothing where the end of the buffer wraps. -/
theorem dataTds_wrapped (toggle : BitVec 32) (hsmall : n < 2 ^ 32) (hwrap : 2 ^ 64 ≤ a.toNat + n) :
    dataTds page r k a (a + BitVec.ofNat 64 n) toggle = [] := by
  have hend : ¬a < a + BitVec.ofNat 64 n := by
    rw [BitVec.lt_def, BitVec.toNat_add, BitVec.toNat_ofNat]
    omega
  cases k with
  | zero => rfl
  | succ k => simp only [dataTds, hend, if_false]

def Request.dataList (page : Addr → Entry) (r : Request) : List Td :=
  dataTds page r r.length.toNat r.data (r.data + r.length.setWidth 64) 0

def Request.packets (r : Request) : ℕ := (r.length.toNat + r.mps.toNat - 1) / r.mps.toNat

theorem Request.setWidth_length (r : Request) :
    r.length.setWidth 64 = BitVec.ofNat 64 r.length.toNat := by
  rw [BitVec.ofNat_toNat]

theorem dataList_length (hmps : 0 < r.mps.toNat) (hroom : r.data.toNat + r.length.toNat < 2 ^ 64) :
    (r.dataList page).length = r.packets := by
  rw [Request.dataList, r.setWidth_length]
  exact dataTds_length page 0 hmps (Nat.le_refl _) r.length.isLt hroom

/-- The data of a transfer is moved when its buffer does not wrap and is sound. -/
theorem dataList_carries_iff (hmps : 0 < r.mps.toNat) (hendp : r.endpoint < 16)
    (hcanon : ∀ i < r.length.toNat, isCanonical (r.data + BitVec.ofNat 64 i) = true) :
    Carries page r.mps.toNat (r.dataPacket.setWidth 8) r.data r.length.toNat 1
        ((r.dataList page).map Td.toPacket) ↔
      r.data.toNat + r.length.toNat < 2 ^ 64 ∧ Sound page r.mps.toNat r.data r.length.toNat := by
  rw [Request.dataList, r.setWidth_length]
  by_cases hroom : r.data.toNat + r.length.toNat < 2 ^ 64
  · simp only [hroom, true_and]
    exact carries_iff page 0 hmps hendp (Nat.le_refl _) r.length.isLt hroom hcanon
  · have hbelow := r.data.isLt
    rw [dataTds_wrapped page 0 r.length.isLt (by omega)]
    simp only [List.map_nil, Carries, hroom, false_and, iff_false]
    omega

end Packets

/-- What the buffer of a transfer needs: it does not wrap, the bytes of a packet can be counted,
none lies at 4 GiB or above, and where a packet goes on into the next page, that page is mapped
to the next frame. -/
structure Fits (page : Addr → Entry) (r : Request) : Prop where
  room : r.data.toNat + r.length.toNat < 2 ^ 64
  short : min r.mps.toNat r.length.toNat < 2048
  below : ∀ i < r.length.toNat, (physical page (r.data + BitVec.ofNat 64 i)).toNat < 2 ^ 32
  joined : ∀ i, i + 1 < r.length.toNat → (i + 1) % r.mps.toNat ≠ 0 →
    (r.data + BitVec.ofNat 64 (i + 1)).toNat % 4096 = 0 →
    low page (r.data + BitVec.ofNat 64 (i + 1)) = low page (r.data + BitVec.ofNat 64 i) + 1

section Transfers

variable (page : Addr → Entry) {r : Request}

theorem fits_iff :
    Fits page r ↔ r.data.toNat + r.length.toNat < 2 ^ 64 ∧
      Sound page r.mps.toNat r.data r.length.toNat := by
  constructor
  · rintro ⟨hroom, hshort, hbelow, hjoined⟩
    refine ⟨hroom, hshort, hbelow, ?_⟩
    intro i hi hmod
    by_cases hpage : (r.data + BitVec.ofNat 64 (i + 1)).toNat % 4096 = 0
    · exact hjoined i hi hmod hpage
    · rw [← add_ofNat_add] at hpage ⊢
      have hsucc : physical page (r.data + BitVec.ofNat 64 i + BitVec.ofNat 64 1) =
          physical page (r.data + BitVec.ofNat 64 i) + 1 := physical_succ page hpage
      rw [low, hsucc, BitVec.setWidth_add _ _ (by decide)]
      rfl
  · rintro ⟨hroom, hshort, hbelow, hjoined⟩
    exact ⟨hroom, hshort, hbelow, fun i hi hmod _ => hjoined i hi hmod⟩

/-- The packets of all descriptors are those of the transfer exactly when the buffer fits. -/
theorem complete_iff (hmps : 0 < r.mps.toNat) (hendp : r.endpoint < 16)
    (hcanon : ∀ i < r.length.toNat, isCanonical (r.data + BitVec.ofNat 64 i) = true) :
    Complete page r ((r.setupTd page :: (r.dataList page ++ [r.statusTd])).map Td.toPacket) ↔
      Fits page r := by
  rw [fits_iff, ← dataList_carries_iff page hmps hendp hcanon]
  simp only [List.map_cons, List.map_append, List.map_nil]
  constructor
  · rintro ⟨setup, data, status, heq, -, hcarries, -⟩
    obtain ⟨-, hrest⟩ := List.cons.inj heq
    obtain ⟨rfl, -⟩ := List.append_inj' hrest rfl
    exact hcarries
  · intro h
    refine ⟨_, _, _, rfl, ⟨rfl, rfl, ?_⟩, h, rfl, rfl, ?_⟩
    · exact newTd_count _ _ _ _ _ _ hendp
    · exact newTd_count _ _ _ _ _ _ hendp

end Transfers

end ReduceOS.UhciDescriptors
