import ReduceOS.UhciDescriptors

/-!
The table of physical regions of a command of the AHCI driver. Each entry stands for up to 4 MiB
of the data. The pointer to the data is one to words, and so from the second entry on the loop is
too far.
-/
namespace ReduceOS.PrdTable

open Machine
open Page (Entry getFrame isCanonical frameAddr)
open UhciDescriptors (memGetPhysicalAddress physical add_ofNat_add)

structure PrdtEntry where
  dba : BitVec 32
  dbau : BitVec 32
  rsv0 : BitVec 32
  dbc : BitVec 22
  rsv1 : BitVec 9
  i : BitVec 1

section Source

def ahciPrdtCount : ℕ := 168

def ahciPrdMaxBytes : BitVec 64 := 0x400000

def ahciError : CInt := 1

structure CmdTable where
  cfis : Vector (BitVec 8) 64
  acmd : Vector (BitVec 8) 16
  rsv : Vector (BitVec 8) 48
  prdtEntry : Vector PrdtEntry ahciPrdtCount

def PrdtEntry.zero : PrdtEntry := ⟨0, 0, 0, 0, 0, 0⟩

def CmdTable.zero : CmdTable :=
  ⟨.replicate _ 0, .replicate _ 0, .replicate _ 0, .replicate _ .zero⟩

def PrdtEntry.setAddress (e : PrdtEntry) (phys : Addr) : PrdtEntry :=
  { e with dba := phys.setWidth 32, dbau := (phys >>> 32).setWidth 32 }

/-- The variables of the loop of `ahci_portFillPRDT`. -/
structure Filling where
  prdtEntry : Vector PrdtEntry ahciPrdtCount
  buffer : Addr
  remaining : BitVec 64
  prdsFilled : CInt

/-- One time around the loop. As `buffer` is a `uintptr_t *`, it moves by words. -/
def Filling.fill (page : Addr → Entry) (entry : ℕ) (s : Filling) : Filling :=
  let bytes := if s.remaining > ahciPrdMaxBytes then ahciPrdMaxBytes else s.remaining
  let e := s.prdtEntry.toList.getD entry .zero
  let e := e.setAddress (memGetPhysicalAddress page s.buffer)
  { prdtEntry := s.prdtEntry.setIfInBounds entry { e with dbc := (bytes - 1).setWidth 22 }
    buffer := s.buffer + bytes * 8
    remaining := s.remaining - bytes
    prdsFilled := s.prdsFilled + 1 }

def fillEntries (page : Addr → Entry) : ℕ → ℕ → Filling → Filling
  | 0, _, s => s
  | left + 1, entry, s =>
    if s.remaining ≤ 0 then s else fillEntries page left (entry + 1) (s.fill page entry)

/-- `ahci_portFillPRDT`, with the command table of the port before and after. -/
def ahciPortFillPrdt (page : Addr → Entry) (table : CmdTable) (data : Addr) (size : BitVec 64) :
    CInt × CmdTable :=
  if data = null ∨ size = 0 then (ahciError, table)
  else
    let table := CmdTable.zero
    let s := fillEntries page ahciPrdtCount 0 ⟨table.prdtEntry, data, size, 0⟩
    let table := { table with prdtEntry := s.prdtEntry }
    if s.remaining ≠ 0 then (0, table) else (s.prdsFilled, table)

end Source

def PrdtEntry.address (e : PrdtEntry) : Addr := e.dbau ++ e.dba

def PrdtEntry.count (e : PrdtEntry) : ℕ := e.dbc.toNat + 1

/-- The entries, one after the other, stand for the `n` bytes from `a` on. -/
def Covers (page : Addr → Entry) : Addr → ℕ → List PrdtEntry → Prop
  | _, n, [] => n = 0
  | a, n, e :: entries =>
    (e.address = physical page a ∧ e.count ≤ n) ∧
      Covers page (a + BitVec.ofNat 64 e.count) (n - e.count) entries

/-- A buffer of data: no part of it is at addresses that cannot be, and it is contiguous in
physical memory. -/
structure Buffer (page : Addr → Entry) (data : Addr) (size : ℕ) : Prop where
  nonnull : data ≠ null
  canonical : ∀ i < size, isCanonical (data + BitVec.ofNat 64 i) = true
  contiguous : ∀ i < size,
    physical page (data + BitVec.ofNat 64 i) = physical page data + BitVec.ofNat 64 i

/-- If entries are said to be filled, they stand for the data. Data for which there are too few
entries is a failure. -/
def Filled (page : Addr → Entry) (table : CmdTable) (data : Addr) (size : BitVec 64) : Prop :=
  (0 < (ahciPortFillPrdt page table data size).1.toInt →
    Covers page data size.toNat ((ahciPortFillPrdt page table data size).2.prdtEntry.toList.take
      (ahciPortFillPrdt page table data size).1.toNat)) ∧
  (ahciPrdtCount * 2 ^ 22 < size.toNat → (ahciPortFillPrdt page table data size).1 = 0)

/-- There is data. If there are enough entries for it, it begins below 2 GiB, and each further
4 MiB of it lie where the memory 32 MiB behind the last ones does. -/
def Fillable (page : Addr → Entry) (data : Addr) (size : BitVec 64) : Prop :=
  size ≠ 0 ∧ (ahciPrdtCount * 2 ^ 22 < size.toNat ∨ (physical page data).toNat < 2 ^ 31 ∧
    ∀ k, 0 < k → k * 2 ^ 22 < size.toNat →
      memGetPhysicalAddress page (data + BitVec.ofNat 64 (k * 2 ^ 25)) =
        physical page data + BitVec.ofNat 64 (k * 2 ^ 22))

section Regions

variable {page : Addr → Entry} {a b : Addr} {n left : ℕ}

def regions (page : Addr → Entry) : ℕ → Addr → ℕ → List PrdtEntry
  | 0, _, _ => []
  | left + 1, b, n =>
    if n = 0 then []
    else
      { PrdtEntry.zero.setAddress (memGetPhysicalAddress page b) with
        dbc := BitVec.ofNat 22 (min n (2 ^ 22) - 1) } ::
        regions page left (b + BitVec.ofNat 64 (min n (2 ^ 22) * 8)) (n - 2 ^ 22)

theorem address_setAddress (e : PrdtEntry) (phys : Addr) :
    (e.setAddress phys).address = phys := by
  apply BitVec.eq_of_toNat_eq
  have hlt := phys.isLt
  simp only [PrdtEntry.address, PrdtEntry.setAddress, BitVec.toNat_append, BitVec.toNat_setWidth,
    BitVec.toNat_ushiftRight, Nat.shiftRight_eq_div_pow]
  rw [← Nat.shiftLeft_add_eq_or_of_lt (Nat.mod_lt _ (by decide)), Nat.shiftLeft_eq]
  omega

theorem regions_length (page : Addr → Entry) (left : ℕ) (b : Addr) (n : ℕ) :
    (regions page left b n).length = min left ((n + (2 ^ 22 - 1)) / 2 ^ 22) := by
  induction left generalizing b n with
  | zero => simp [regions]
  | succ left ih =>
    rw [regions]
    split_ifs with hn
    · simp [hn]
    · rw [List.length_cons, ih]
      omega

/-- The entries that are made stand for the `n` bytes from `a` on exactly if there are enough of
them and each is at its place. -/
theorem covers_regions (left : ℕ) : Covers page a n (regions page left b n) ↔
    n ≤ left * 2 ^ 22 ∧ ∀ k, k * 2 ^ 22 < n →
      memGetPhysicalAddress page (b + BitVec.ofNat 64 (k * 2 ^ 25)) =
        physical page (a + BitVec.ofNat 64 (k * 2 ^ 22)) := by
  induction left generalizing a b n with
  | zero =>
    rw [regions, Covers, Nat.zero_mul, Nat.le_zero_eq]
    refine ⟨fun hn => ⟨hn, fun k hk => ?_⟩, And.left⟩
    omega
  | succ left ih =>
    rw [regions]
    split_ifs with hn
    · rw [Covers]
      refine ⟨fun hn => ⟨by omega, fun k hk => ?_⟩, fun _ => hn⟩
      omega
    · have hcount : (BitVec.ofNat 22 (min n (2 ^ 22) - 1)).toNat + 1 = min n (2 ^ 22) := by
        rw [BitVec.toNat_ofNat, Nat.mod_eq_of_lt (by omega)]
        omega
      have haddress := address_setAddress .zero (memGetPhysicalAddress page b)
      rw [Covers]
      simp only [PrdtEntry.count, hcount]
      rw [show n - min n (2 ^ 22) = n - 2 ^ 22 by omega, ih]
      have hzero : ∀ x : Addr, x + BitVec.ofNat 64 (0 * 2 ^ 22) = x := BitVec.add_zero
      have hzero' : b + BitVec.ofNat 64 (0 * 2 ^ 25) = b := BitVec.add_zero b
      have hless : ∀ k, k * 2 ^ 22 < n - 2 ^ 22 ↔ (k + 1) * 2 ^ 22 < n := by
        intro k
        omega
      have hnext : ∀ k, k * 2 ^ 22 < n - 2 ^ 22 →
          a + BitVec.ofNat 64 (min n (2 ^ 22)) + BitVec.ofNat 64 (k * 2 ^ 22) =
            a + BitVec.ofNat 64 ((k + 1) * 2 ^ 22) ∧
          b + BitVec.ofNat 64 (min n (2 ^ 22) * 8) + BitVec.ofNat 64 (k * 2 ^ 25) =
            b + BitVec.ofNat 64 ((k + 1) * 2 ^ 25) := by
        intro k hk
        have hright : min n (2 ^ 22) + k * 2 ^ 22 = (k + 1) * 2 ^ 22 := by omega
        have hwords : min n (2 ^ 22) * 8 + k * 2 ^ 25 = (k + 1) * 2 ^ 25 := by omega
        rw [add_ofNat_add, add_ofNat_add, hright, hwords]
        exact ⟨rfl, rfl⟩
      constructor
      · rintro ⟨⟨hplace, -⟩, hroom, hrest⟩
        refine ⟨by omega, fun k hk => ?_⟩
        cases k with
        | zero =>
          rw [hzero, hzero']
          exact haddress.symm.trans hplace
        | succ k =>
          have hk' := (hless k).mpr hk
          obtain ⟨ha, hb⟩ := hnext k hk'
          rw [← ha, ← hb]
          exact hrest k hk'
      · rintro ⟨hroom, hplaces⟩
        have hplace := hplaces 0 (by omega)
        rw [hzero, hzero'] at hplace
        refine ⟨⟨haddress.trans hplace, by omega⟩, by omega, fun k hk => ?_⟩
        obtain ⟨ha, hb⟩ := hnext k hk
        rw [ha, hb]
        exact hplaces (k + 1) ((hless k).mp hk)

end Regions

section Filling

variable {page : Addr → Entry} {s : Filling} {front : List PrdtEntry} {left : ℕ}

structure Holds (s : Filling) (front : List PrdtEntry) (left : ℕ) : Prop where
  entries : s.prdtEntry.toList = front ++ List.replicate left .zero
  filled : s.prdsFilled = BitVec.ofNat 32 front.length

theorem Holds.fill (page : Addr → Entry) (h : Holds s front (left + 1)) (hmore : s.remaining ≠ 0) :
    ∃ e, regions page (left + 1) s.buffer s.remaining.toNat =
        e :: regions page left (s.fill page front.length).buffer
          (s.fill page front.length).remaining.toNat ∧
      (s.fill page front.length).remaining.toNat = s.remaining.toNat - 2 ^ 22 ∧
      Holds (s.fill page front.length) (front ++ [e]) left := by
  have hlt := s.remaining.isLt
  have hpos : s.remaining.toNat ≠ 0 := fun h => hmore (BitVec.eq_of_toNat_eq h)
  let bytes := if s.remaining > ahciPrdMaxBytes then ahciPrdMaxBytes else s.remaining
  have hbytes : bytes.toNat = min s.remaining.toNat (2 ^ 22) := by
    have hmax : s.remaining > ahciPrdMaxBytes ↔ 2 ^ 22 < s.remaining.toNat := Iff.rfl
    by_cases hfull : 2 ^ 22 < s.remaining.toNat
    · rw [show bytes = ahciPrdMaxBytes from if_pos hfull]
      exact (Nat.min_eq_right hfull.le).symm
    · rw [show bytes = s.remaining from if_neg hfull, Nat.min_eq_left (Nat.le_of_not_lt hfull)]
  have hremaining : (s.fill page front.length).remaining.toNat = s.remaining.toNat - 2 ^ 22 := by
    change (s.remaining - bytes).toNat = _
    rw [BitVec.toNat_sub, hbytes]
    omega
  have hbuffer : (s.fill page front.length).buffer =
      s.buffer + BitVec.ofNat 64 (min s.remaining.toNat (2 ^ 22) * 8) := by
    change s.buffer + bytes * 8 = _
    rw [← hbytes, BitVec.ofNat_mul, BitVec.ofNat_toNat, BitVec.setWidth_eq]
    rfl
  have hdbc : (bytes - 1).setWidth 22 = BitVec.ofNat 22 (min s.remaining.toNat (2 ^ 22) - 1) := by
    apply BitVec.eq_of_toNat_eq
    rw [BitVec.toNat_setWidth, BitVec.toNat_sub, hbytes, BitVec.toNat_ofNat]
    simp only [BitVec.ofNat_eq_ofNat, BitVec.toNat_ofNat]
    omega
  have hentry : s.prdtEntry.toList.getD front.length .zero = .zero := by
    simp [h.entries, List.getD]
  have hentries : (s.fill page front.length).prdtEntry.toList =
      (front ++ [{ PrdtEntry.zero.setAddress (memGetPhysicalAddress page s.buffer) with
        dbc := BitVec.ofNat 22 (min s.remaining.toNat (2 ^ 22) - 1) }]) ++
          List.replicate left .zero := by
    have hset : (s.fill page front.length).prdtEntry.toList =
        s.prdtEntry.toList.set front.length
          { PrdtEntry.zero.setAddress (memGetPhysicalAddress page s.buffer) with
            dbc := (bytes - 1).setWidth 22 } := by
      rw [← hentry]
      exact Vector.toList_setIfInBounds
    rw [hset, hdbc, h.entries, List.set_append_right _ _ le_rfl, Nat.sub_self,
      List.replicate_succ, List.set_cons_zero, List.append_assoc]
    rfl
  refine ⟨_, ?_, hremaining, ⟨hentries, ?_⟩⟩
  · rw [regions, if_neg hpos, hbuffer, hremaining]
  · change s.prdsFilled + 1 = _
    rw [h.filled, List.length_append, List.length_singleton, BitVec.ofNat_add]
    rfl

/-- The loop makes entries while data is left, and the bytes that remain are those behind the last
entry. -/
theorem Holds.fillEntries (page : Addr → Entry) (h : Holds s front left) :
    (fillEntries page left front.length s).remaining.toNat =
        s.remaining.toNat - left * 2 ^ 22 ∧
      ∃ rest, Holds (fillEntries page left front.length s)
        (front ++ regions page left s.buffer s.remaining.toNat) rest := by
  induction left generalizing s front with
  | zero =>
    rw [PrdTable.fillEntries, regions, List.append_nil]
    exact ⟨by omega, 0, h⟩
  | succ left ih =>
    rw [PrdTable.fillEntries]
    by_cases hmore : s.remaining = 0
    · have hnone : regions page (left + 1) s.buffer s.remaining.toNat = [] := by
        rw [hmore]
        exact if_pos rfl
      rw [if_pos (by simp [hmore]), hnone, List.append_nil]
      exact ⟨by simp [hmore], left + 1, h⟩
    · obtain ⟨e, hregions, hremaining, hfill⟩ := h.fill page hmore
      have hpos : ¬ s.remaining ≤ 0 := fun hle => hmore (BitVec.le_zero_iff.mp hle)
      obtain ⟨hrest, rest, hentries⟩ := ih hfill
      rw [List.length_append, List.length_singleton] at hrest hentries
      rw [if_neg hpos, hregions]
      refine ⟨?_, rest, ?_⟩
      · rw [hrest, hremaining]
        omega
      · rwa [List.append_cons]

end Filling

section Results

variable {page : Addr → Entry} {data : Addr} {size : BitVec 64}

theorem ahciPortFillPrdt_empty (page : Addr → Entry) (table : CmdTable) (data : Addr) :
    ahciPortFillPrdt page table data 0 = (ahciError, table) :=
  if_pos (Or.inr rfl)

/-- What is returned is the number of entries if they are enough, and the table begins with
them. -/
theorem ahciPortFillPrdt_eq (page : Addr → Entry) (table : CmdTable) (hdata : data ≠ null)
    (hsize : size ≠ 0) :
    (ahciPortFillPrdt page table data size).1 =
        (if ahciPrdtCount * 2 ^ 22 < size.toNat then 0
          else BitVec.ofNat 32 (regions page ahciPrdtCount data size.toNat).length) ∧
      regions page ahciPrdtCount data size.toNat <+:
        (ahciPortFillPrdt page table data size).2.prdtEntry.toList := by
  have hinitial : Holds ⟨CmdTable.zero.prdtEntry, data, size, 0⟩ [] ahciPrdtCount :=
    ⟨Vector.toList_replicate, rfl⟩
  obtain ⟨hremaining, rest, hholds⟩ := hinitial.fillEntries page
  rw [List.nil_append] at hholds
  have hfront : regions page ahciPrdtCount data size.toNat <+:
      (fillEntries page ahciPrdtCount 0 
          ⟨CmdTable.zero.prdtEntry, data, size, 0⟩).prdtEntry.toList :=
    ⟨_, hholds.entries.symm⟩
  rw [ahciPortFillPrdt, if_neg (not_or.mpr ⟨hdata, hsize⟩)]
  by_cases hlarge : ahciPrdtCount * 2 ^ 22 < size.toNat
  · have hleft : (fillEntries page ahciPrdtCount 0
        ⟨CmdTable.zero.prdtEntry, data, size, 0⟩).remaining ≠ 0 := by
      intro hzero
      have hnat := congrArg BitVec.toNat hzero
      rw [List.length_nil] at hremaining
      rw [hremaining] at hnat
      exact absurd hnat (Nat.sub_ne_zero_of_lt hlarge)
    rw [if_pos hlarge]
    simp only [if_pos hleft]
    exact ⟨trivial, hfront⟩
  · have hnone : (fillEntries page ahciPrdtCount 0
        ⟨CmdTable.zero.prdtEntry, data, size, 0⟩).remaining = 0 := by
      apply BitVec.eq_of_toNat_eq
      rw [List.length_nil] at hremaining
      rw [hremaining]
      exact Nat.sub_eq_zero_of_le (Nat.le_of_not_lt hlarge)
    rw [if_neg hlarge]
    simp only [if_neg (not_not.mpr hnone)]
    exact ⟨hholds.filled, hfront⟩

/-- The address that the driver asks for is right below 2 GiB. -/
theorem memGetPhysicalAddress_eq_iff {a : Addr} (hcanon : isCanonical a = true) :
    memGetPhysicalAddress page a = physical page a ↔ (physical page a).toNat < 2 ^ 31 := by
  let e := page (a &&& ~~~0xFFF)
  have hframe := e.address.isLt
  have hoffset : (a &&& 0xFFF).toNat = a.toNat % 4096 := Nat.and_two_pow_sub_one_eq_mod _ 12
  have hphysical : physical page a = frameAddr e.address + (a &&& 0xFFF) := rfl
  have hnat : (physical page a).toNat = e.address.toNat * 4096 + a.toNat % 4096 := by
    rw [hphysical, BitVec.toNat_add, Page.frameAddr_toNat, hoffset]
    omega
  have hget : memGetPhysicalAddress page a = getFrame e + (a &&& 0xFFF) := by
    simp only [memGetPhysicalAddress, hcanon, Bool.not_true, Bool.false_eq_true, if_false, e]
  rw [hnat, hget, hphysical, BitVec.add_left_inj]
  by_cases hsmall : e.address.toNat < 2 ^ 19
  · exact ⟨fun _ => by omega, fun _ => Page.getFrame_of_lt e hsmall⟩
  · refine ⟨fun heq => ?_, fun hlt => by omega⟩
    refine absurd ?_ (Page.getFrame_ne_of_le e (Nat.le_of_not_lt hsmall))
    rw [heq, Page.frameAddr_toNat]

/-- The entries made for a buffer stand for it exactly if each is at its place. -/
theorem covers_regions_buffer (hsize : size ≠ 0) (hbuffer : Buffer page data size.toNat)
    (hroom : size.toNat ≤ ahciPrdtCount * 2 ^ 22) :
    Covers page data size.toNat (regions page ahciPrdtCount data size.toNat) ↔
      (physical page data).toNat < 2 ^ 31 ∧ ∀ k, 0 < k → k * 2 ^ 22 < size.toNat →
        memGetPhysicalAddress page (data + BitVec.ofNat 64 (k * 2 ^ 25)) =
          physical page data + BitVec.ofNat 64 (k * 2 ^ 22) := by
  have hpos : 0 < size.toNat := Nat.pos_of_ne_zero fun h => hsize (BitVec.eq_of_toNat_eq h)
  have hzero : ∀ c, data + BitVec.ofNat 64 (0 * c) = data := by
    intro c
    rw [Nat.zero_mul]
    exact BitVec.add_zero data
  have hcanon := hbuffer.canonical 0 hpos
  rw [← Nat.zero_mul 1, hzero] at hcanon
  rw [covers_regions, ← memGetPhysicalAddress_eq_iff hcanon]
  constructor
  · rintro ⟨-, hplaces⟩
    have hfirst := hplaces 0 (by omega)
    rw [hzero, hzero] at hfirst
    refine ⟨hfirst, fun k _ hk => ?_⟩
    rw [hplaces k hk, hbuffer.contiguous _ hk]
  · rintro ⟨hfirst, hplaces⟩
    refine ⟨hroom, fun k hk => ?_⟩
    rw [hbuffer.contiguous _ hk]
    by_cases hk0 : k = 0
    · rw [hk0, hzero, hfirst, Nat.zero_mul]
      exact (BitVec.add_zero _).symm
    · exact hplaces k (Nat.pos_of_ne_zero hk0) hk

/-- Without data the old table is said to have an entry filled. -/
theorem not_filled_empty (page : Addr → Entry) (table : CmdTable) (data : Addr) :
    ¬ Filled page table data 0 := by
  intro h
  rw [Filled, ahciPortFillPrdt_empty] at h
  have hpos : 0 < ahciError.toInt := by decide
  have hcovers : Covers page data 0 (table.prdtEntry.toList.take 1) := h.1 hpos
  have hlength : (table.prdtEntry.toList.take 1).length = 1 := by
    rw [List.length_take, Vector.length_toList]
    rfl
  obtain ⟨e, he⟩ := List.length_eq_one_iff.mp hlength
  rw [he] at hcovers
  exact absurd hcovers.1.2 (Nat.not_succ_le_zero _)

theorem filled_of_large (table : CmdTable) (hdata : data ≠ null)
    (hlarge : ahciPrdtCount * 2 ^ 22 < size.toNat) : Filled page table data size := by
  have hsize : size ≠ 0 := by
    rintro rfl
    exact absurd hlarge (by decide)
  have hresult := (ahciPortFillPrdt_eq page table hdata hsize).1
  rw [if_pos hlarge] at hresult
  refine ⟨fun hpos => ?_, fun _ => hresult⟩
  rw [hresult] at hpos
  exact absurd hpos (by decide)

/-- Where there are enough entries, those that are made have to be right. -/
theorem filled_iff_covers (table : CmdTable) (hdata : data ≠ null) (hsize : size ≠ 0)
    (hroom : size.toNat ≤ ahciPrdtCount * 2 ^ 22) :
    Filled page table data size ↔
      Covers page data size.toNat (regions page ahciPrdtCount data size.toNat) := by
  obtain ⟨hresult, hfront⟩ := ahciPortFillPrdt_eq page table hdata hsize
  rw [if_neg (Nat.not_lt_of_le hroom)] at hresult
  have hlength := regions_length page ahciPrdtCount data size.toNat
  have hmost : (regions page ahciPrdtCount data size.toNat).length ≤ 168 := by
    rw [hlength]
    exact Nat.min_le_left _ _
  have hsome : 0 < (regions page ahciPrdtCount data size.toNat).length := by
    have hpos : size.toNat ≠ 0 := fun h => hsize (BitVec.eq_of_toNat_eq h)
    rw [hlength, ahciPrdtCount]
    omega
  have hnat : (ahciPortFillPrdt page table data size).1.toNat =
      (regions page ahciPrdtCount data size.toNat).length := by
    rw [hresult, BitVec.toNat_ofNat, Nat.mod_eq_of_lt (by omega)]
  have hint : 0 < (ahciPortFillPrdt page table data size).1.toInt := by
    rw [BitVec.toInt_eq_toNat_cond, hnat]
    omega
  rw [Filled, hnat, ← List.prefix_iff_eq_take.mp hfront]
  constructor
  · intro h
    exact h.1 hint
  · intro hcovers
    exact ⟨fun _ => hcovers, fun hlarge => absurd hroom (Nat.not_le_of_lt hlarge)⟩

/-- The entries are right exactly if there is data, and it begins below 2 GiB and goes on where
the pointer to words comes to, or does not fit. -/
theorem filled_iff (table : CmdTable) (hbuffer : Buffer page data size.toNat) :
    Filled page table data size ↔ Fillable page data size := by
  by_cases hsize : size = 0
  · subst hsize
    exact iff_of_false (not_filled_empty page table data) fun h => h.1 rfl
  · rw [Fillable, and_iff_right hsize]
    by_cases hlarge : ahciPrdtCount * 2 ^ 22 < size.toNat
    · exact iff_of_true (filled_of_large table hbuffer.nonnull hlarge) (Or.inl hlarge)
    · have hroom := Nat.le_of_not_lt hlarge
      rw [or_iff_right hlarge, filled_iff_covers table hbuffer.nonnull hsize hroom,
        covers_regions_buffer hsize hbuffer hroom]

def samePage (a : Addr) : Entry := { Entry.zero with address := (a >>> 12).setWidth 28 }

theorem physical_samePage {a : Addr} (h : a.toNat < 2 ^ 40) : physical samePage a = a := by
  apply BitVec.eq_of_toNat_eq
  have hoffset : (a &&& 0xFFF).toNat = a.toNat % 4096 := Nat.and_two_pow_sub_one_eq_mod _ 12
  have hround : (a &&& ~~~0xFFF).toNat = a.toNat / 4096 * 4096 := Page.toNat_and_not_fff a
  change (frameAddr (((a &&& ~~~0xFFF) >>> 12).setWidth 28) + (a &&& 0xFFF)).toNat = _
  rw [BitVec.toNat_add, Page.frameAddr_toNat, hoffset, BitVec.toNat_setWidth,
    BitVec.toNat_ushiftRight, hround, Nat.shiftRight_eq_div_pow]
  omega

theorem buffer_samePage {data : Addr} {n : ℕ} (hdata : data ≠ null)
    (h : data.toNat + n < 2 ^ 40) : Buffer samePage data n := by
  have hplace : ∀ i < n, (data + BitVec.ofNat 64 i).toNat = data.toNat + i := by
    intro i hi
    exact UhciDescriptors.toNat_add_ofNat (by omega)
  refine ⟨hdata, fun i hi => ?_, fun i hi => ?_⟩
  · rw [Page.isCanonical_iff, hplace i hi]
    omega
  · have hlt : (data + BitVec.ofNat 64 i).toNat < 2 ^ 40 := by
      rw [hplace i hi]
      omega
    rw [physical_samePage hlt, physical_samePage (by omega)]

/-- Up to 4 MiB need one entry. -/
theorem one_entry_filled : Filled samePage CmdTable.zero 0x1000 0x400000 := by
  refine (filled_iff CmdTable.zero (buffer_samePage (by decide) (by decide))).mpr ?_
  refine ⟨by decide, Or.inr ⟨?_, fun k hk hless => ?_⟩⟩
  · rw [physical_samePage (by decide)]
    decide
  · have hmax : (0x400000 : BitVec 64).toNat = 2 ^ 22 := rfl
    rw [hmax] at hless
    omega

/-- The entry for the bytes behind the first 4 MiB is for others. -/
theorem second_entry_misplaced : ¬ ∀ page table data size,
    Buffer page data size.toNat → Filled page table data size := by
  intro h
  have hbuffer := buffer_samePage (by decide : (0x1000 : Addr) ≠ null)
      (by decide : 0x1000 + 0x400200 < 2 ^ 40)
  have hfilled := h samePage CmdTable.zero 0x1000 0x400200 hbuffer
  rw [filled_iff_covers _ hbuffer.nonnull (by decide) (by decide),
    covers_regions_buffer (by decide) hbuffer (by decide)] at hfilled
  exact absurd (hfilled.2 1 (by decide) (by decide)) (by decide)

end Results

end ReduceOS.PrdTable
