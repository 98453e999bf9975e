import ReduceOS.Inet
import ReduceOS.Printf

/-!
Addresses as text. `inet_ntoa` prints the four bytes of an address into a buffer of its own, and
`inet_addr` copies a text of that length, takes it apart at the dots and reads the parts.
-/
namespace ReduceOS.AddressText

open Machine Inet CString Numerals Printf

section Source

def textSize : ℕ := 17

def dotted : Chars := [37, 100, 46, 37, 100, 46, 37, 100, 46, 37, 100]

def inetNtoa (buffer : ℕ → Byte) (sAddr : BitVec 32) : ℕ → Byte :=
  let inFixed := htonl sAddr
  let arg (shift : ℕ) := Arg.int (((inFixed >>> shift) &&& 0xFF).setWidth 64)
  (snprintf buffer textSize dotted [arg 24, arg 16, arg 8, arg 0]).2

/-- The loop of `inet_addr`, with so many parts still to come; `none` where a dot is missing. -/
def inetAddrLoop : ℕ → Chars → Option (List CInt)
  | 0, _ => some []
  | n + 1, p =>
    match strchr p 46 with
    | none => if n = 0 then some [atoi p] else none
    | some next =>
      (inetAddrLoop n next.tail).map (atoi (p.take (p.length - next.length)) :: ·)

/-- `inet_addr` of the text at `cp`, with what stands behind the copy it makes; `none` for
`NULL`. -/
def inetAddr (cp : Option (ℕ → Byte)) (behind : Chars) : BitVec 32 :=
  match cp with
  | none => 0
  | some cp =>
    let ip := cstring (loadBytes cp 0 textSize ++ behind)
    match inetAddrLoop 4 ip with
    | none => 0
    | some values =>
      let value (i : ℕ) := values.getD i 0 &&& 0xFF
      htonl ((value 0 <<< 24) ||| (value 1 <<< 16) ||| (value 2 <<< 8) ||| (value 3 <<< 0))

end Source

section Text

variable {first last : Chars} {n : ℕ}

def byteText (x : BitVec 32) : Chars :=
  printDec (signedArg 0 ((x &&& 0xFF).setWidth 64)) 0 false true (-1)

theorem signedArg_byte (x : BitVec 32) :
    signedArg 0 ((x &&& 0xFF).setWidth 64) = (x &&& 0xFF).setWidth 64 := by
  have hsame : ((x &&& 0xFF).setWidth 64).setWidth 32 = x &&& 0xFF := by
    rw [BitVec.setWidth_setWidth_of_le _ (by decide), BitVec.setWidth_eq]
  have hmsb : (x &&& 0xFF).msb = false := by
    rw [BitVec.msb_and]
    exact Bool.and_false _
  change (((x &&& 0xFF).setWidth 64).setWidth 32).signExtend 64 = _
  rw [hsame, BitVec.signExtend_eq_setWidth_of_msb_false hmsb]

theorem byteText_eq (x : BitVec 32) :
    byteText x = printDec ((x &&& 0xFF).setWidth 64) 0 false true (-1) := by
  rw [byteText, signedArg_byte]

theorem atoi_byteText (x : BitVec 32) : atoi (byteText x) = x &&& 0xFF := by
  rw [byteText_eq, atoi_printDec, BitVec.setWidth_setWidth_of_le _ (by decide), BitVec.setWidth_eq]

theorem byteText_length (x : BitVec 32) : (byteText x).length ≤ 3 := by
  obtain ⟨n, hprint, -, -, hleast⟩ := printDec_cases ((x &&& 0xFF).setWidth 64)
  have hlt : ((x &&& 0xFF).setWidth 64).toNat < 10 ^ 3 := by
    have hmask := Nat.and_le_right (n := x.toNat) (m := 0xFF)
    rw [BitVec.toNat_setWidth_of_le (by decide), BitVec.toNat_and]
    exact Nat.lt_of_le_of_lt hmask (by decide)
  rw [byteText_eq, hprint, digitsLoop_length]
  exact hleast 3 (by decide) hlt

theorem notMem_byteText (x : BitVec 32) : 46 ∉ byteText x ∧ 0 ∉ byteText x := by
  obtain ⟨n, hprint, -⟩ := printDec_cases ((x &&& 0xFF).setWidth 64)
  rw [byteText_eq, hprint]
  constructor <;>
  · intro hmem
    obtain ⟨k, hk, heq⟩ := mem_digitsLoop hmem
    obtain ⟨-, -, -, -, hdot, hzero, -⟩ := digit_cases hk
    first | exact hdot heq.symm | exact hzero heq.symm

def addressText (a b c d : BitVec 32) : Chars :=
  byteText a ++ 46 :: (byteText b ++ 46 :: (byteText c ++ 46 :: byteText d))

theorem xvasprintf_dotted (a b c d : BitVec 32) :
    xvasprintf dotted [.int ((a &&& 0xFF).setWidth 64), .int ((b &&& 0xFF).setWidth 64),
      .int ((c &&& 0xFF).setWidth 64), .int ((d &&& 0xFF).setWidth 64)] = addressText a b c d := by
  have hformat : xvasprintf dotted [.int ((a &&& 0xFF).setWidth 64),
      .int ((b &&& 0xFF).setWidth 64), .int ((c &&& 0xFF).setWidth 64),
      .int ((d &&& 0xFF).setWidth 64)] =
    byteText a ++ 46 :: (byteText b ++ 46 :: (byteText c ++ 46 :: (byteText d ++ []))) := rfl
  rw [hformat, List.append_nil, addressText]

theorem addressText_fits (a b c d : BitVec 32) :
    0 ∉ addressText a b c d ∧ (addressText a b c d).length + 1 < textSize := by
  have ha := byteText_length a
  have hb := byteText_length b
  have hc := byteText_length c
  have hd := byteText_length d
  constructor
  · simp only [addressText, List.mem_append, List.mem_cons, not_or]
    exact ⟨(notMem_byteText a).2, by decide, (notMem_byteText b).2, by decide,
      (notMem_byteText c).2, by decide, (notMem_byteText d).2⟩
  · simp only [addressText, List.length_append, List.length_cons, textSize]
    omega

theorem inetAddrLoop_dot (hfirst : 46 ∉ first) (n : ℕ) (rest : Chars) :
    inetAddrLoop (n + 1) (first ++ 46 :: rest) =
      (inetAddrLoop n rest).map (atoi first :: ·) := by
  rw [inetAddrLoop, strchr_append hfirst]
  simp

theorem inetAddrLoop_last (hlast : 46 ∉ last) : inetAddrLoop 1 last = some [atoi last] := by
  rw [inetAddrLoop, strchr_eq_none hlast]
  exact if_pos rfl

theorem inetAddrLoop_addressText (a b c d : BitVec 32) :
    inetAddrLoop 4 (addressText a b c d) =
      some [a &&& 0xFF, b &&& 0xFF, c &&& 0xFF, d &&& 0xFF] := by
  rw [addressText, inetAddrLoop_dot (notMem_byteText a).1, inetAddrLoop_dot (notMem_byteText b).1,
    inetAddrLoop_dot (notMem_byteText c).1, inetAddrLoop_last (notMem_byteText d).1]
  simp only [atoi_byteText, Option.map_some]

theorem htonl_htonl (w : BitVec 32) : htonl (htonl w) = w := by
  ext i hi
  interval_cases i <;> simp [htonl]

theorem join_bytes (w : BitVec 32) :
    (((w >>> 24 &&& 0xFF) &&& 0xFF) <<< 24) ||| (((w >>> 16 &&& 0xFF) &&& 0xFF) <<< 16) |||
      (((w >>> 8 &&& 0xFF) &&& 0xFF) <<< 8) ||| (((w >>> 0 &&& 0xFF) &&& 0xFF) <<< 0) = w := by
  ext i hi
  interval_cases i <;> simp

end Text

/-- Every address is read back from its text, whatever was in the buffer, and whatever stands
behind the copy. -/
theorem inet_addr_ntoa (buffer : ℕ → Byte) (behind : Chars) (a : BitVec 32) :
    inetAddr (some (inetNtoa buffer a)) behind = a := by
  let w := htonl a
  have hprinted : xvasprintf dotted [.int ((w >>> 24 &&& 0xFF).setWidth 64),
      .int ((w >>> 16 &&& 0xFF).setWidth 64), .int ((w >>> 8 &&& 0xFF).setWidth 64),
      .int ((w >>> 0 &&& 0xFF).setWidth 64)] =
      addressText (w >>> 24) (w >>> 16) (w >>> 8) (w >>> 0) := xvasprintf_dotted _ _ _ _
  obtain ⟨h0, hfits⟩ := addressText_fits (w >>> 24) (w >>> 16) (w >>> 8) (w >>> 0)
  rw [← hprinted] at h0 hfits
  have hcopy : cstring (loadBytes (inetNtoa buffer a) 0 textSize ++ behind) =
      addressText (w >>> 24) (w >>> 16) (w >>> 8) (w >>> 0) := by
    rw [← hprinted, ← cstring_snprintf h0 hfits behind]
    simp only [loadBytes, Nat.zero_add]
    rfl
  simp only [inetAddr, hcopy, inetAddrLoop_addressText]
  exact (congrArg htonl (join_bytes w)).trans (htonl_htonl a)

end ReduceOS.AddressText
