import ReduceOS.Loopback
import ReduceOS.OnesComplement
import Mathlib.Algebra.Order.BigOperators.Group.List

/-!
The checksums of IPv4 and ICMP. `ipv4_checksum` brings the carry around after every word.
`icmp_checksum` adds up first and brings the carries around once, which may leave another carry
that is cut off; and it leaves a last byte out where their number is odd.
-/
namespace ReduceOS.Checksums

open Machine Inet NetworkStack OnesComplement

section Source

def icmpSize : ℕ := 8

def icmpMessage (type code : Byte) (checksum : BitVec 16) (varies : BitVec 32) (data : List Byte) :
    List Byte :=
  [type, code] ++ bytes16 checksum ++ (bytes32 varies ++ data)

/-- The packet that `icmp_send` makes, in memory with anything behind it. -/
def icmpPacket (beyond : ℕ → Byte) (type code : Byte) (varies : BitVec 32) (data : List Byte) :
    List Byte :=
  let totalSize := BitVec.ofNat 64 (icmpSize + data.length)
  let checksum := icmpChecksum (ofList (icmpMessage type code 0 varies data) beyond) totalSize
  icmpMessage type code (htons checksum) varies data

def store16 (mem : ℕ → Byte) (offset : ℕ) (w : BitVec 16) : ℕ → Byte := fun k =>
  if k = offset then w.extractLsb' 0 8 else if k = offset + 1 then w.extractLsb' 8 8 else mem k

end Source

def words (bytes : List Byte) : List ℕ := pairs 256 (bytes.map BitVec.toNat)

def internetChecksum (bytes : List Byte) : ℕ := checksum 0x10000 (words bytes)

/-- What the receiver of a packet looks for: with the checksum among them, the words add up to
ones. -/
def Verifies (bytes : List Byte) : Prop := sum 0x10000 (words bytes) = 0xFFFF

section Words

variable {mem : ℕ → Byte} {first bytes : List Byte} {rest : ℕ → Byte} {k n m : ℕ} {w : BitVec 16}

theorem words_lt (bytes : List Byte) : ∀ x ∈ words bytes, x < 0x10000 := by
  refine pairs_lt fun a ha => ?_
  obtain ⟨b, -, rfl⟩ := List.mem_map.mp ha
  exact b.isLt

theorem isSum_words (bytes : List Byte) :
    IsSum 0x10000 (words bytes).sum (sum 0x10000 (words bytes)) :=
  isSum_sum (by decide) (words_lt bytes)

theorem words_append (h : first.length % 2 = 0) :
    words (first ++ bytes) = words first ++ words bytes := by
  unfold words
  rw [List.map_append, pairs_append (by rwa [List.length_map])]

theorem words_bytes16 (w : BitVec 16) : words (bytes16 w) = [(ntohs w).toNat] := by
  have hjoin := ntohs_append (w.extractLsb' 0 8) (w.extractLsb' 8 8)
  rw [join16] at hjoin
  rw [hjoin, toNat_append_bytes]
  rfl

/-- The words as they are loaded one after the other. -/
theorem words_loadBytes (mem : ℕ → Byte) (n : ℕ) :
    words (loadBytes mem 0 (2 * n)) =
      (List.range n).map fun i => (ntohs (load16 mem (2 * i))).toNat := by
  induction n with
  | zero => rfl
  | succ n ih =>
    have hlast : words (loadBytes mem (0 + 2 * n) 2) = [(ntohs (load16 mem (2 * n))).toNat] := by
      rw [ntohs_load16, Nat.zero_add]
      rfl
    rw [Nat.mul_succ, loadBytes_add, words_append (by simp), ih, hlast, List.range_succ,
      List.map_append, List.map_singleton]

theorem complement_toNat (x : BitVec 32) :
    (((~~~ (x &&& 0xFFFF)) &&& 0xFFFF).setWidth 16).toNat = 0xFFFF - x.toNat % 0x10000 := by
  have hnot : ((~~~ (x &&& 0xFFFF)) &&& 0xFFFF).setWidth 16 = ~~~ (x.setWidth 16) := by
    ext i hi
    interval_cases i <;> simp
  rw [hnot, BitVec.toNat_not, BitVec.toNat_setWidth]

theorem fold_toNat (x : BitVec 32) :
    ((x >>> 16) + (x &&& 0xFFFF)).toNat = x.toNat / 0x10000 + x.toNat % 0x10000 := by
  have hx := x.isLt
  have hmask : (x &&& 0xFFFF).toNat = x.toNat % 0x10000 := by
    rw [BitVec.toNat_and]
    exact Nat.and_two_pow_sub_one_eq_mod x.toNat 16
  rw [BitVec.toNat_add, BitVec.toNat_ushiftRight, Nat.shiftRight_eq_div_pow, hmask]
  omega

end Words

section Ipv4

variable {packet : ℕ → Byte}

/-- One round of the loop of `ipv4_checksum`. -/
theorem round_toNat {s : BitVec 32} (hs : s.toNat < 0x10000) (w : BitVec 16) :
    (if s + w.setWidth 32 > 0xFFFF then
      ((s + w.setWidth 32) >>> 16) + ((s + w.setWidth 32) &&& 0xFFFF)
      else s + w.setWidth 32).toNat = add 0x10000 s.toNat w.toNat := by
  have hw := w.isLt
  have hsum : (s + w.setWidth 32).toNat = s.toNat + w.toNat := by
    rw [BitVec.toNat_add, BitVec.toNat_setWidth_of_le (by decide)]
    omega
  have hcarry : s + w.setWidth 32 > 0xFFFF ↔ ¬ s.toNat + w.toNat < 0x10000 := by
    rw [gt_iff_lt, BitVec.lt_def, hsum]
    change 0xFFFF < _ ↔ _
    omega
  unfold add
  simp only [hcarry]
  split_ifs with hlt
  · exact hsum
  · rw [fold_toNat, hsum]
    omega

theorem ipv4Checksum_toNat (packet : ℕ → Byte) :
    (ipv4Checksum packet).toNat = internetChecksum (loadBytes packet 0 20) := by
  have hloop : ∀ (indices : List ℕ) (s : BitVec 32), s.toNat < 0x10000 →
      (indices.foldl (fun (sum : BitVec 32) i =>
        let sum := sum + (ntohs (load16 packet (2 * i))).setWidth 32
        if sum > 0xFFFF then (sum >>> 16) + (sum &&& 0xFFFF) else sum) s).toNat =
      (indices.map fun i => (ntohs (load16 packet (2 * i))).toNat).foldl (add 0x10000) s.toNat := by
    intro indices
    induction indices with
    | nil => exact fun s _ => rfl
    | cons i indices ih =>
      intro s hs
      have hround := round_toNat hs (ntohs (load16 packet (2 * i)))
      rw [List.foldl_cons, ih, List.map_cons, List.foldl_cons, hround]
      rw [hround]
      have hw := (ntohs (load16 packet (2 * i))).isLt
      unfold add
      split_ifs <;> omega
  unfold ipv4Checksum internetChecksum checksum
  rw [complement_toNat, hloop _ _ (by decide), ← words_loadBytes packet 10]
  have hlt := (isSum_words (loadBytes packet 0 (2 * 10))).lt
  change 0xFFFF - sum 0x10000 (words (loadBytes packet 0 (2 * 10))) % 0x10000 = _
  rw [Nat.mod_eq_of_lt hlt]

theorem sum_words_field {first last : List Byte} (h : first.length % 2 = 0) (c : BitVec 16) :
    (words (first ++ bytes16 (htons c) ++ last)).sum =
      (words (first ++ bytes16 0 ++ last)).sum + c.toNat := by
  have hwords : ∀ w, words (first ++ bytes16 w ++ last) =
      words first ++ [(ntohs w).toNat] ++ words last := by
    intro w
    have heven : (first ++ bytes16 w).length % 2 = 0 := by simpa [bytes16] using h
    rw [words_append heven, words_append h, words_bytes16]
  have hzero : (ntohs 0).toNat = 0 := rfl
  simp only [hwords, List.sum_append, List.sum_singleton, ntohs_htons, hzero]
  omega

/-- With the checksum of the others in the place of a word, the words add up to ones. -/
theorem verifies_of_checksum {first last : List Byte} {c : BitVec 16} (h : first.length % 2 = 0)
    (hc : c.toNat = internetChecksum (first ++ bytes16 0 ++ last)) :
    Verifies (first ++ bytes16 (htons c) ++ last) := by
  have hcomplement := (isSum_words (first ++ bytes16 0 ++ last)).complement (by decide)
  have hsum := isSum_words (first ++ bytes16 (htons c) ++ last)
  rw [sum_words_field h, hc] at hsum
  exact hsum.unique hcomplement

def finish (packet : ℕ → Byte) : ℕ → Byte :=
  store16 packet 10 (htons (ipv4Checksum (store16 packet 10 0)))

theorem loadBytes_store16 (packet : ℕ → Byte) (w : BitVec 16) :
    loadBytes (store16 packet 10 w) 0 20 =
      loadBytes packet 0 10 ++ bytes16 w ++ loadBytes packet 12 8 := by
  have hfirst : loadBytes (store16 packet 10 w) 0 10 = loadBytes packet 0 10 := by
    refine loadBytes_congr fun k hk => ?_
    rw [store16, if_neg (by omega), if_neg (by omega)]
  have hlast : loadBytes (store16 packet 10 w) 12 8 = loadBytes packet 12 8 := by
    refine loadBytes_congr fun k hk => ?_
    rw [store16, if_neg (by omega), if_neg (by omega)]
  rw [← hfirst, ← hlast]
  rfl

/-- What is to be said of a header: its words add up to ones, the checksum of all of it is zero
whatever comes behind it, and its checksum field is right. -/
structure Checked (h : Ipv4Header) : Prop where
  verifies : Verifies h.bytes
  recomputed : ∀ rest, ipv4Checksum (ofList h.bytes rest) = 0
  field : (ntohs h.checksum).toNat = internetChecksum { h with checksum := 0 }.bytes

theorem ipv4Checksum_eq_zero (h : Verifies (loadBytes packet 0 20)) : ipv4Checksum packet = 0 := by
  apply BitVec.eq_of_toNat_eq
  rw [ipv4Checksum_toNat, internetChecksum, checksum, h]
  rfl

theorem loadBytes_header (h : Ipv4Header) (rest : ℕ → Byte) :
    loadBytes (ofList h.bytes rest) 0 20 = h.bytes := loadBytes_ofList [] h.bytes rest

/-- A header that is made with a zero first and then gets its checksum. -/
theorem checked_withChecksum (h : Ipv4Header) (rest : ℕ → Byte) :
    Checked { h with
      checksum := htons (ipv4Checksum (ofList { h with checksum := 0 }.bytes rest)) } := by
  have hc := ipv4Checksum_toNat (ofList { h with checksum := 0 }.bytes rest)
  rw [loadBytes_header] at hc
  generalize ipv4Checksum (ofList { h with checksum := 0 }.bytes rest) = c at hc
  have hverifies : Verifies { h with checksum := htons c }.bytes := by
    let first := [h.versionihl, h.dscpEcn] ++ bytes16 h.length ++ bytes16 h.id ++
      bytes16 h.offset ++ [h.ttl, h.protocol]
    let last := bytes32 h.srcAddr ++ bytes32 h.destAddr
    have hlength : first.length = 10 := rfl
    have heven : first.length % 2 = 0 := by rw [hlength]
    have hfield : c.toNat = internetChecksum (first ++ bytes16 0 ++ last) := hc
    exact verifies_of_checksum heven hfield
  refine ⟨hverifies, fun rest => ipv4Checksum_eq_zero ?_, ?_⟩
  · rwa [loadBytes_header]
  · rw [ntohs_htons]
    exact hc

/-- The checksum of every header, and of the headers that `ipv4_send` and the answer to an echo
request make. -/
theorem ipv4_headers_checked :
    (∀ packet : ℕ → Byte, Verifies (loadBytes (finish packet) 0 20) ∧
      ipv4Checksum (finish packet) = 0 ∧
      (ipv4Checksum (store16 packet 10 0)).toNat =
        internetChecksum (loadBytes (store16 packet 10 0) 0 20)) ∧
    (∀ nic dest protocol frame, ∃ header : Ipv4Header, Checked header ∧
      ipv4Packet nic dest protocol frame = header.bytes ++ frame) ∧
    ∀ mem base, ∃ (header : Ipv4Header) (icmp : List Byte), Checked header ∧
      icmpResponse mem base =
        (header.bytes ++ icmp).take (ntohs (load16 mem (base + 2))).toNat := by
  refine ⟨fun packet => ?_, fun nic dest protocol frame => ⟨_, checked_withChecksum _ _, rfl⟩,
    fun mem base => ⟨_, _, checked_withChecksum _ _, rfl⟩⟩
  have hc := ipv4Checksum_toNat (store16 packet 10 0)
  have hverifies : Verifies (loadBytes (finish packet) 0 20) := by
    rw [loadBytes_store16] at hc
    rw [finish, loadBytes_store16]
    exact verifies_of_checksum (by simp) hc
  exact ⟨hverifies, ipv4Checksum_eq_zero hverifies, hc⟩

end Ipv4

def evenTotal (bytes : List Byte) : ℕ := (words (bytes.take (2 * (bytes.length / 2)))).sum

/-- A last byte by itself is zero, and the carries of the whole words add up to no other carry. -/
structure Folds (bytes : List Byte) : Prop where
  last : bytes.length % 2 = 1 → bytes.getLast? = some 0
  carry : evenTotal bytes / 0x10000 + evenTotal bytes % 0x10000 < 0x10000

section Icmp

variable {bytes first last : List Byte} {c : BitVec 16} {rest : ℕ → Byte}

theorem loadBytes_take {n : ℕ} (h : n ≤ bytes.length) :
    loadBytes (ofList bytes rest) 0 n = bytes.take n := by
  apply List.ext_getElem
  · simp [h]
  · intro i hi hi'
    rw [loadBytes_length] at hi
    have hlt : i < bytes.length := by omega
    simp [ofList, List.getD_eq_getElem?_getD, hlt]

theorem evenTotal_lt (h : bytes.length ≤ 65515) : evenTotal bytes < 2 ^ 32 := by
  have hle := List.sum_le_card_nsmul (words (bytes.take (2 * (bytes.length / 2)))) 0xFFFF
    fun x hx => Nat.le_of_lt_succ (words_lt _ x hx)
  rw [words, pairs_length, List.length_map, List.length_take, Nat.nsmul_eq_mul] at hle
  unfold evenTotal words
  omega

/-- The total of all words: what is left out is a last byte by itself, as the higher one. -/
theorem exists_last (bytes : List Byte) :
    ∃ b < 256, (words bytes).sum = evenTotal bytes + 256 * b ∧
      (b = 0 ↔ (bytes.length % 2 = 1 → bytes.getLast? = some 0)) := by
  have heven : (bytes.take (2 * (bytes.length / 2))).length % 2 = 0 := by
    rw [List.length_take]
    omega
  have hsplit : (words bytes).sum =
      evenTotal bytes + (words (bytes.drop (2 * (bytes.length / 2)))).sum := by
    rw [evenTotal, ← List.sum_append, ← words_append heven, List.take_append_drop]
  rcases Nat.mod_two_eq_zero_or_one bytes.length with hzero | hone
  · refine ⟨0, by decide, ?_, by simp [hzero]⟩
    rw [hsplit, List.drop_of_length_le (by omega)]
    rfl
  · obtain ⟨init, b, rfl⟩ := List.eq_nil_or_concat bytes |>.resolve_left (by
      rintro rfl
      exact absurd hone (by decide))
    rw [List.concat_eq_append] at hsplit hone ⊢
    rw [List.length_append, List.length_singleton] at hsplit hone
    refine ⟨b.toNat, b.isLt, ?_, ?_⟩
    · have hlength : 2 * ((init.length + 1) / 2) = init.length := by omega
      rw [hsplit, hlength, List.drop_left]
      rfl
    · simp [hone, ← BitVec.toNat_inj]

/-- The carries brought around once, and what is above 16 bits then cut off. -/
def folded (total : ℕ) : ℕ :=
  if total > 0xFFFF then (total / 0x10000 + total % 0x10000) % 0x10000 else total

theorem icmpChecksum_toNat (h : bytes.length ≤ 65515) :
    (icmpChecksum (ofList bytes rest) (BitVec.ofNat 64 bytes.length)).toNat =
      0xFFFF - folded (evenTotal bytes) := by
  have hloop : ∀ (indices : List ℕ) (s : BitVec 32),
      s.toNat + (indices.map fun i => (ntohs (load16 (ofList bytes rest) (2 * i))).toNat).sum
        < 2 ^ 32 →
      (indices.foldl (fun (checksum : BitVec 32) i =>
        checksum + (ntohs (load16 (ofList bytes rest) (2 * i))).setWidth 32) s).toNat =
      s.toNat + (indices.map fun i => (ntohs (load16 (ofList bytes rest) (2 * i))).toNat).sum := by
    intro indices
    induction indices with
    | nil => exact fun s _ => rfl
    | cons i indices ih =>
      intro s hs
      rw [List.map_cons, List.sum_cons] at hs ⊢
      have hstep : (s + (ntohs (load16 (ofList bytes rest) (2 * i))).setWidth 32).toNat =
          s.toNat + (ntohs (load16 (ofList bytes rest) (2 * i))).toNat := by
        rw [BitVec.toNat_add, BitVec.toNat_setWidth_of_le (by decide)]
        omega
      rw [List.foldl_cons, ih, hstep]
      · omega
      · rw [hstep]
        omega
  have hlength : (BitVec.ofNat 64 bytes.length).toNat / 2 = bytes.length / 2 := by
    rw [BitVec.toNat_ofNat]
    omega
  have htotal : ((List.range (bytes.length / 2)).map fun i =>
      (ntohs (load16 (ofList bytes rest) (2 * i))).toNat).sum = evenTotal bytes := by
    rw [← words_loadBytes, loadBytes_take (by omega), evenTotal]
  have hsum := hloop (List.range (bytes.length / 2)) 0
  rw [htotal] at hsum
  have hzero : (0 : BitVec 32).toNat = 0 := rfl
  have hlt := evenTotal_lt h
  rw [hzero, Nat.zero_add] at hsum
  have hfinal := hsum hlt
  unfold icmpChecksum
  dsimp only
  rw [hlength]
  generalize (List.range (bytes.length / 2)).foldl (fun (checksum : BitVec 32) i =>
    checksum + (ntohs (load16 (ofList bytes rest) (2 * i))).setWidth 32) 0 = s at hfinal ⊢
  have hcarry : s > 0xFFFF ↔ evenTotal bytes > 0xFFFF := by
    rw [gt_iff_lt, BitVec.lt_def, hfinal]
    exact Iff.rfl
  rw [complement_toNat, folded]
  by_cases hover : evenTotal bytes > 0xFFFF
  · rw [if_pos (hcarry.mpr hover), if_pos hover, fold_toNat, hfinal]
  · rw [if_neg (mt hcarry.mp hover), if_neg hover, hfinal, Nat.mod_eq_of_lt (by omega)]

theorem folded_le {total : ℕ} : folded total ≤ 0xFFFF := by
  unfold folded
  split_ifs <;> omega

theorem folded_split {total : ℕ} (h : total < 2 ^ 32) :
    ∃ k n, k ≤ 1 ∧ total = folded total + k + 0xFFFF * n ∧
      (k = 0 ↔ total / 0x10000 + total % 0x10000 < 0x10000) := by
  refine ⟨(total / 0x10000 + total % 0x10000) / 0x10000,
    total / 0x10000 + (total / 0x10000 + total % 0x10000) / 0x10000, ?_⟩
  unfold folded
  split_ifs <;> omega

theorem isSum_folded_iff {total b : ℕ} (h : total < 2 ^ 32) (hb : b < 256) :
    IsSum 0x10000 (total + 256 * b) (folded total) ↔
      b = 0 ∧ total / 0x10000 + total % 0x10000 < 0x10000 := by
  obtain ⟨k, n, hk, hsplit, hcarry⟩ := folded_split h
  have hle : folded total ≤ 0xFFFF := folded_le
  rw [← hcarry]
  constructor
  · intro hsum
    have hdvd := (Nat.modEq_iff_dvd' (by omega)).mp hsum.modEq
    omega
  · rintro ⟨rfl, rfl⟩
    have hmod : folded total ≡ total [MOD 0x10000 - 1] := by
      rw [Nat.modEq_iff_dvd' (by omega)]
      exact ⟨n, by omega⟩
    refine ⟨by omega, hmod, ?_⟩
    unfold folded
    split_ifs <;> omega

/-- The carries brought around once give the sum exactly where nothing is left out and none is
left over. -/
theorem folds_iff (bytes : List Byte) {b : ℕ}
    (hb : b = 0 ↔ (bytes.length % 2 = 1 → bytes.getLast? = some 0)) :
    Folds bytes ↔
      b = 0 ∧ evenTotal bytes / 0x10000 + evenTotal bytes % 0x10000 < 0x10000 := by
  rw [hb]
  exact ⟨fun h => ⟨h.last, h.carry⟩, fun h => ⟨h.1, h.2⟩⟩

theorem icmpChecksum_right_iff (h : bytes.length ≤ 65515) :
    (icmpChecksum (ofList bytes rest) (BitVec.ofNat 64 bytes.length)).toNat =
      internetChecksum bytes ↔ Folds bytes := by
  obtain ⟨b, hlt, htotal, hb⟩ := exists_last bytes
  have hsum := isSum_words bytes
  have hfolded : folded (evenTotal bytes) ≤ 0xFFFF := folded_le
  have hs := hsum.lt
  rw [htotal] at hsum
  rw [icmpChecksum_toNat h, folds_iff bytes hb, ← isSum_folded_iff (evenTotal_lt h) hlt,
    internetChecksum, checksum]
  constructor
  · intro heq
    have hsame : folded (evenTotal bytes) = sum 0x10000 (words bytes) := by omega
    rwa [hsame]
  · intro hfold
    rw [hfold.unique hsum]

/-- A packet with the checksum that was computed verifies under the same condition. -/
theorem verifies_field_iff (heven : first.length % 2 = 0)
    (h : (first ++ bytes16 0 ++ last).length ≤ 65515)
    (hc : c.toNat = 0xFFFF - folded (evenTotal (first ++ bytes16 0 ++ last))) :
    Verifies (first ++ bytes16 (htons c) ++ last) ↔ Folds (first ++ bytes16 0 ++ last) := by
  have hsum := isSum_words (first ++ bytes16 (htons c) ++ last)
  have hverifies : Verifies (first ++ bytes16 (htons c) ++ last) ↔
      IsSum 0x10000 (words (first ++ bytes16 (htons c) ++ last)).sum (0x10000 - 1) := by
    constructor
    · intro htop
      unfold Verifies at htop
      rwa [htop] at hsum
    · exact fun htop => hsum.unique htop
  obtain ⟨b, hlt, htotal, hb⟩ := exists_last (first ++ bytes16 0 ++ last)
  obtain ⟨k, n, hk, hsplit, hcarry⟩ := folded_split (evenTotal_lt h)
  have hfolded : folded (evenTotal (first ++ bytes16 0 ++ last)) ≤ 0xFFFF := folded_le
  rw [hverifies, isSum_top_iff (by decide), sum_words_field heven, hc, htotal, folds_iff _ hb,
    ← hcarry]
  omega

end Icmp

/-- For every payload, the checksum of ICMP is the internet checksum exactly where it folds, and
so exactly then the packets that `icmp_send` makes, and the answers to echo requests with an ICMP
header, verify. -/
theorem icmp_checksums_right_iff (payload : List Byte) (rest : ℕ → Byte)
    (hlen : payload.length ≤ 65515) :
    ((icmpChecksum (ofList payload rest) (BitVec.ofNat 64 payload.length)).toNat =
      internetChecksum payload ↔ Folds payload) ∧
    (∀ beyond type code varies data, icmpSize + data.length ≤ 65515 →
      (Verifies (icmpPacket beyond type code varies data) ↔
        Folds (icmpMessage type code 0 varies data))) ∧
    ∀ mem base, 24 ≤ (ntohs (load16 mem (base + 2))).toNat →
      (Verifies ((icmpResponse mem base).drop ipv4Size) ↔
        Folds ([echoReply, 0] ++ bytes16 0 ++
          loadBytes mem (base + 24) ((ntohs (load16 mem (base + 2))).toNat - 24))) := by
  refine ⟨icmpChecksum_right_iff hlen, fun beyond type code varies data h => ?_,
    fun mem base h => ?_⟩
  · have hlength : (icmpMessage type code 0 varies data).length = icmpSize + data.length := by
      simp [icmpMessage, bytes16, bytes32, icmpSize]
      omega
    have hc : (icmpChecksum (ofList (icmpMessage type code 0 varies data) beyond) _).toNat = _ :=
      icmpChecksum_toNat (hlength ▸ h)
    rw [hlength] at hc
    exact verifies_field_iff (by simp) (hlength ▸ h) hc
  · obtain ⟨len, hlen⟩ : ∃ len, (ntohs (load16 mem (base + 2))).toNat = ipv4Size + (4 + len) :=
      ⟨(ntohs (load16 mem (base + 2))).toNat - 24, by unfold ipv4Size; omega⟩
    have hlt := (ntohs (load16 mem (base + 2))).isLt
    have hrest : ipv4Size + (4 + len) - 24 = len := by
      unfold ipv4Size
      omega
    have hicmp : (ntohs (load16 mem (base + 2))).setWidth 64 - BitVec.ofNat 64 ipv4Size =
        BitVec.ofNat 64 (4 + len) := by
      apply BitVec.eq_of_toNat_eq
      rw [BitVec.toNat_sub, BitVec.toNat_setWidth_of_le (by decide), hlen, BitVec.toNat_ofNat,
        BitVec.toNat_ofNat]
      unfold ipv4Size at hlen ⊢
      omega
    let message (w : BitVec 16) := [echoReply, 0] ++ bytes16 w ++ loadBytes mem (base + 24) len
    have hlength : ∀ w, (message w).length = 4 + len := fun w => by
      simp [message, bytes16]
      omega
    have hc : (icmpChecksum (ofList (message 0) fun _ => 0) _).toNat = _ :=
      icmpChecksum_toNat (by rw [hlength]; unfold ipv4Size at hlen; omega)
    rw [hlength] at hc
    have hdrop : (icmpResponse mem base).drop ipv4Size =
        message (htons
          (icmpChecksum (ofList (message 0) fun _ => 0) (BitVec.ofNat 64 (4 + len)))) := by
      simp only [icmpResponse, hlen, hrest, hicmp, Loopback.take_packet, Loopback.drop_packet]
      exact List.take_of_length_le (hlength _).le
    rw [hdrop, hlen, hrest]
    exact verifies_field_iff (by simp) (by rw [hlength]; unfold ipv4Size at hlen; omega) hc

def ping : List Byte := icmpMessage echoRequest 0 0 0x01003412 [0x61, 0x62, 0xF0, 0xF0]

def pingPacket : List Byte :=
  [0x45, 0, 0, 32] ++ List.replicate 8 0 ++ [10, 0, 2, 2, 10, 0, 2, 15] ++ ping

/-- The request is sent, and answered. -/
theorem icmp_checksums_right_of_ping :
    (icmpChecksum (ofList ping fun _ => 7) 12).toNat = internetChecksum ping ∧
      Verifies (icmpPacket (fun _ => 7) echoRequest 0 0x01003412 [0x61, 0x62, 0xF0, 0xF0]) ∧
      Verifies ((icmpResponse (ofList pingPacket fun _ => 0) 0).drop ipv4Size) := by
  have hfolds : Folds ping := ⟨by decide, by decide⟩
  obtain ⟨hchecksum, hsent, hanswer⟩ := icmp_checksums_right_iff ping (fun _ => 7) (by decide)
  refine ⟨hchecksum.mpr hfolds, ?_, ?_⟩
  · exact (hsent (fun _ => 7) echoRequest 0 0x01003412 _ (by decide)).mpr hfolds
  · exact (hanswer (ofList pingPacket fun _ => 0) 0 (by decide)).mpr
      ⟨by decide +kernel, by decide +kernel⟩

/-- A last byte by itself is left out; and of three words that add up to 0x1ffff a carry is lost. -/
theorem icmp_checksums_wrong :
    (icmpChecksum (ofList [1] fun _ => 0) 1).toNat ≠ internetChecksum [1] ∧
      (icmpChecksum (ofList [0xFF, 0xFF, 0xFF, 0xFF, 0, 1] fun _ => 0) 6).toNat ≠
        internetChecksum [0xFF, 0xFF, 0xFF, 0xFF, 0, 1] ∧
      ¬ Verifies (icmpPacket (fun _ => 0) echoRequest 0 0 [1]) := by
  refine ⟨by decide, by decide, ?_⟩
  unfold Verifies
  decide

end ReduceOS.Checksums
