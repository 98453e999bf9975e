import ReduceOS.Ustar

/-!
How the loops over an archive end. The offset of the next header is the sum of three words, so a
size field with a sign, or with digits enough, leads back; a loop in which every offset is above
the one before ends, as there are only so many words.
-/
namespace ReduceOS.UstarScan

open Machine CString Numerals Ramdev Halting Ustar

/-- A scan comes to a result that is defined, and every step without one advances. -/
structure Ends {σ ρ : Type*} (step : σ → σ) (result : σ → Option ρ) (defined : ρ → Prop)
    (offset : σ → BitVec 64) (start : σ) : Prop where
  returns : ∃ r, Returns step result start r ∧ defined r
  advances : ∀ s, Reaches step start s → result s = none →
    (offset s).toNat < (offset (step s)).toNat

/-- The blocks of a member, as a number. A size that is rounded up to 2^64 has none. -/
def padded (size : ℕ) : ℕ := if 2 ^ 64 - 512 < size then 0 else (size + 511) / 512 * 512

def EndsBelow (a : Archive) (ino : BitVec 64) : Prop :=
  ∀ header, tarfsGetUstar a ino = some header →
    ino.toNat + 512 + padded (strtoull (size header) 8).toNat < 2 ^ 64

/-- The path of a header fits its buffer, one that is returned has a last part, and the files are
not too many to be counted. -/
def Orderly (a : Archive) (search : Chars) (index : CInt) (s : ReadState) : Prop :=
  ∀ header, tarfsGetUstar a s.ino = some header → s.fileidx ≠ 0 →
    Fits (pathFilename header) ∧ (Listed search (pathFilename header) →
      if BitVec.ofNat 32 s.fileidx = index then entryName search (pathFilename header) ≠ none
      else s.fileidx + 1 ≠ 2 ^ 31)

section Advance

variable {a : Archive} {search : Chars} {index : CInt} {header : Chars} {ino : BitVec 64}

theorem ustarSize_toNat (size : BitVec 64) : (ustarSize size).toNat = padded size.toNat := by
  have hlt := size.isLt
  have hmod : (size % 512).toNat = size.toNat % 512 := BitVec.toNat_umod
  unfold ustarSize padded
  by_cases hwhole : size % 512 = 0
  · have hzero : size.toNat % 512 = 0 := by rw [← hmod, hwhole]; rfl
    rw [if_neg (not_not.mpr hwhole)]
    split_ifs <;> omega
  · have hne : size.toNat % 512 ≠ 0 := fun h => hwhole (BitVec.eq_of_toNat_eq (hmod.trans h))
    have hle : size % 512 ≤ 512 := by
      rw [BitVec.le_def, hmod]
      exact (Nat.mod_lt _ (by decide)).le
    have hrest : (512 - size % 512).toNat = 512 - size.toNat % 512 := by
      rw [BitVec.toNat_sub_of_le hle, hmod]
      rfl
    rw [if_pos hwhole, BitVec.toNat_add, hrest]
    split_ifs <;> omega

theorem padded_le (size : ℕ) : padded size ≤ 2 ^ 64 - 512 := by
  unfold padded
  split_ifs <;> omega

theorem nextIno_toNat (header : Chars) (ino : BitVec 64) : (nextIno header ino).toNat =
    (ino.toNat + 512 + padded (strtoull (size header) 8).toNat) % 2 ^ 64 := by
  unfold nextIno
  rw [BitVec.toNat_add, BitVec.toNat_add, ustarSize_toNat]
  simp

/-- The next offset is above if and only if the sum does not wrap around. -/
theorem lt_nextIno_iff (header : Chars) (ino : BitVec 64) :
    ino.toNat < (nextIno header ino).toNat ↔
      ino.toNat + 512 + padded (strtoull (size header) 8).toNat < 2 ^ 64 := by
  have hle := padded_le (strtoull (size header) 8).toNat
  have hlt := ino.isLt
  rw [nextIno_toNat]
  omega

theorem finddirStep_eq (hnone : finddirResult a search ino = none) :
    ∃ header, tarfsGetUstar a ino = some header ∧
      finddirStep a search ino = nextIno header ino := by
  unfold finddirResult at hnone
  unfold finddirStep
  cases hheader : tarfsGetUstar a ino with
  | none => simp [hheader] at hnone
  | some header =>
    simp only [hheader] at hnone ⊢
    split_ifs at hnone with hfound
    exact ⟨header, rfl, by rw [if_neg hfound]⟩

/-- A step of `tarfs_readdir` goes on to the next header, or ends the loop. -/
theorem readdir_cases {s : ReadState} (hheader : tarfsGetUstar a s.ino = some header) :
    (Orderly a search index s ∧ readdirResult a search index s = none ∧
        ∃ i, readdirStep a search index s = ⟨nextIno header s.ino, i⟩) ∨
      ∃ entry, readdirResult a search index s = some entry ∧ readdirStep a search index s = s ∧
        (entry ≠ .undefined ↔ Orderly a search index s) := by
  unfold readdirResult readdirStep Orderly
  simp only [hheader, Option.some.injEq, forall_eq']
  by_cases hfirst : s.fileidx = 0
  · simp [hfirst]
  · by_cases hfits : Fits (pathFilename header)
    · by_cases hlisted : Listed search (pathFilename header)
      · by_cases hindex : BitVec.ofNat 32 s.fileidx = index
        · cases hentry : entryName search (pathFilename header) <;>
            simp [hfirst, hfits, hlisted, hindex]
        · generalize (2 : ℕ) ^ 31 = limit
          by_cases hmany : s.fileidx + 1 = limit
          · simp [hfirst, hfits, hlisted, hindex, hmany]
          · simp [hfirst, hfits, hlisted, hindex, hmany]
      · simp [hfirst, hfits, hlisted]
    · simp [hfirst, hfits]

theorem readdir_end {s : ReadState} (hheader : tarfsGetUstar a s.ino = none) :
    readdirResult a search index s = some .null ∧ readdirStep a search index s = s ∧
      Orderly a search index s := by
  simp [readdirResult, readdirStep, Orderly, hheader]

theorem readdirStep_eq {s : ReadState} (hnone : readdirResult a search index s = none) :
    ∃ header, tarfsGetUstar a s.ino = some header ∧
      (readdirStep a search index s).ino = nextIno header s.ino := by
  cases hheader : tarfsGetUstar a s.ino with
  | none => simp [(readdir_end hheader).1] at hnone
  | some header =>
    rcases @readdir_cases a search index header s hheader with ⟨-, -, i, hstep⟩ | ⟨e, he, -⟩
    · exact ⟨header, rfl, by rw [hstep]⟩
    · simp [he] at hnone

theorem readdirResult_ne_undefined_iff {s : ReadState} :
    readdirResult a search index s ≠ some .undefined ↔ Orderly a search index s := by
  cases hheader : tarfsGetUstar a s.ino with
  | none =>
    obtain ⟨hresult, -, horderly⟩ := @readdir_end a search index s hheader
    simp [hresult, horderly]
  | some header =>
    rcases @readdir_cases a search index header s hheader with
      ⟨horderly, hnone, -⟩ | ⟨e, he, -, hdefined⟩
    · simp [hnone, horderly]
    · simp [he, ← hdefined]

theorem finddir_stays (a : Archive) (search : Chars) :
    Stays (finddirStep a search) (finddirResult a search) := by
  intro ino hsome
  unfold finddirResult at hsome
  unfold finddirStep
  cases hheader : tarfsGetUstar a ino with
  | none => rfl
  | some header =>
    simp only [hheader] at hsome ⊢
    split_ifs at hsome ⊢
    · rfl
    · simp at hsome

theorem readdir_stays (a : Archive) (search : Chars) (index : CInt) :
    Stays (readdirStep a search index) (readdirResult a search index) := by
  intro s hsome
  cases hheader : tarfsGetUstar a s.ino with
  | none => exact (readdir_end hheader).2.1
  | some header =>
    rcases @readdir_cases a search index header s hheader with ⟨-, hnone, -⟩ | ⟨-, -, hstep, -⟩
    · simp [hnone] at hsome
    · exact hstep

end Advance

theorem ends_of_advances {σ ρ : Type*} {step : σ → σ} {result : σ → Option ρ}
    {defined : ρ → Prop} {offset : σ → BitVec 64} {start : σ}
    (hdefined : ∀ s, Reaches step start s → ∀ r, result s = some r → defined r)
    (hadvances : ∀ s, Reaches step start s → result s = none →
      (offset s).toNat < (offset (step s)).toNat) : Ends step result defined offset start := by
  obtain ⟨r, hr⟩ := returns_of_decreasing (fun s => 2 ^ 64 - (offset s).toNat)
    fun t ht hnone => by
      have hlt := hadvances t ht hnone
      have hmax := (offset (step t)).isLt
      omega
  obtain ⟨n, hn⟩ := hr
  exact ⟨⟨r, ⟨n, hn⟩, hdefined _ ⟨n, rfl⟩ r hn⟩, hadvances⟩

/-- A lookup in a directory is one from its header on. -/
theorem tarfsFinddir_iff {a : Archive} {inode : BitVec 64} {header path : Chars}
    {result : Option TarNode} (hheader : tarfsGetUstar a inode = some header)
    (htype : type header = ustarDirectory) : TarfsFinddir a inode path result ↔
      Fits (searchDirectory header ++ path) ∧
        Returns (finddirStep a (searchDirectory header ++ path))
          (finddirResult a (searchDirectory header ++ path)) inode result := by
  simp [TarfsFinddir, hheader, htype]

theorem scans_end_iff (a : Archive) (search : Chars) (index : CInt) (inode : BitVec 64) :
    (Ends (finddirStep a search) (finddirResult a search) (fun _ => True) id inode ↔
      ∀ ino, Reaches (finddirStep a search) inode ino → finddirResult a search ino = none →
        EndsBelow a ino) ∧
    (Ends (readdirStep a search index) (readdirResult a search index)
        (fun entry => entry ≠ .undefined) ReadState.ino ⟨inode, 0⟩ ↔
      ∀ s, Reaches (readdirStep a search index) ⟨inode, 0⟩ s → Orderly a search index s ∧
        (readdirResult a search index s = none → EndsBelow a s.ino)) := by
  constructor
  · have hadvance : ∀ ino, finddirResult a search ino = none →
        (ino.toNat < (finddirStep a search ino).toNat ↔ EndsBelow a ino) := by
      intro ino hnone
      obtain ⟨header, hheader, hstep⟩ := finddirStep_eq hnone
      simp [hstep, lt_nextIno_iff, EndsBelow, hheader]
    constructor
    · exact fun h ino hreach hnone => (hadvance ino hnone).mp (h.advances ino hreach hnone)
    · exact fun h => ends_of_advances (fun _ _ _ _ => trivial)
        fun ino hreach hnone => (hadvance ino hnone).mpr (h ino hreach hnone)
  · have hadvance : ∀ s, readdirResult a search index s = none →
        (s.ino.toNat < (readdirStep a search index s).ino.toNat ↔ EndsBelow a s.ino) := by
      intro s hnone
      obtain ⟨header, hheader, hstep⟩ := readdirStep_eq hnone
      simp [hstep, lt_nextIno_iff, EndsBelow, hheader]
    constructor
    · intro h s hreach
      refine ⟨readdirResult_ne_undefined_iff.mp fun hundefined => ?_,
        fun hnone => (hadvance s hnone).mp (h.advances s hreach hnone)⟩
      obtain ⟨r, hr, hdefined⟩ := h.returns
      have hstay := readdir_stays a search index
      exact hdefined (hstay.returns_unique (hstay.returns_of_reaches hreach hr) ⟨0, hundefined⟩)
    · refine fun h => ends_of_advances (fun s hreach r hr heq => ?_)
        fun s hreach hnone => (hadvance s hnone).mpr ((h s hreach).2 hnone)
      exact readdirResult_ne_undefined_iff.mpr (h s hreach).1 (heq ▸ hr)

def negativeSize : Archive := archiveOf (block [47] [45, 49, 48, 48, 48] ustarDirectory)

/-- The header leads back to itself: a lookup of `x` never returns. -/
theorem negative_size_loops :
    (∀ result, ¬ TarfsFinddir negativeSize 0 [120] result) ∧
    ¬ Ends (finddirStep negativeSize [120]) (finddirResult negativeSize [120]) (fun _ => True) id
      0 := by
  have hstep : finddirStep negativeSize [120] 0 = 0 := by decide +kernel
  have hisNone : (finddirResult negativeSize [120] 0).isNone := by decide +kernel
  have hnone := Option.isNone_iff_eq_none.mp hisNone
  have hheader : (tarfsGetUstar negativeSize 0).map
      (fun header => (type header, searchDirectory header)) = some (ustarDirectory, []) := by
    decide +kernel
  obtain ⟨header, hget, heq⟩ := Option.map_eq_some_iff.mp hheader
  obtain ⟨htype, hsearch⟩ := Prod.mk.inj heq
  constructor
  · intro result
    rw [tarfsFinddir_iff hget htype, hsearch, List.nil_append]
    exact fun h => not_returns_of_fixed hstep hnone h.2
  · rintro ⟨⟨r, hr, -⟩, -⟩
    exact not_returns_of_fixed hstep hnone hr

end ReduceOS.UstarScan
