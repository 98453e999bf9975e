import ReduceOS.DriverRelocation

/-!
What the entries of a relocation section leave behind. The first loop gives every section its final
memory and rewrites the offset of those that were moved, so that the value of a symbol is taken in
the final memory as long as nothing is written over the headers. The addend of an entry goes
through an `int`, and a symbol with the value 1 is passed over.
-/
namespace ReduceOS.RelocationValues

open Machine Inet ElfRelocation DriverRelocation Halting

def Within (a : Addr) (n : ℕ) (b : Addr) : Prop := (b - a).toNat < n

section Memory

variable {mem mem' : Memory} {a b : Addr} {n : ℕ}

theorem within_add {k : ℕ} (h : k < n) (hn : n ≤ 2 ^ 64) : Within a n (a + BitVec.ofNat 64 k) := by
  have hsub : a + BitVec.ofNat 64 k - a = BitVec.ofNat 64 k := by
    rw [BitVec.add_comm, BitVec.add_sub_cancel]
  rw [Within, hsub, BitVec.toNat_ofNat, Nat.mod_eq_of_lt (by omega)]
  exact h

theorem store32_of_not_within (mem : Memory) (w : BitVec 32) (h : ¬ Within a 4 b) :
    store32 mem a w b = mem b := if_neg h

theorem store64_of_not_within (mem : Memory) (w : BitVec 64) (h : ¬ Within a 8 b) :
    store64 mem a w b = mem b := by
  unfold Within at h
  have hlow : ¬ Within a 4 b := by
    unfold Within
    omega
  have hhigh : ¬ Within (a + 4) 4 b := by
    unfold Within
    bv_omega
  rw [store64, store32_of_not_within _ _ hhigh, store32_of_not_within _ _ hlow]

theorem store32_at (mem : Memory) (a : Addr) (w : BitVec 32) {k : ℕ} (hk : k < 4) :
    store32 mem a w (a + BitVec.ofNat 64 k) = ofList (bytes32 w) (fun _ => 0) k := by
  have hsub : (a + BitVec.ofNat 64 k - a).toNat = k := by
    rw [BitVec.add_comm, BitVec.add_sub_cancel, BitVec.toNat_ofNat, Nat.mod_eq_of_lt (by omega)]
  rw [store32, if_pos (by rw [hsub]; exact hk), hsub]

theorem load32_store32 (mem : Memory) (a : Addr) (w : BitVec 32) :
    load32 (view (store32 mem a w) a) 0 = w := by
  unfold load32 view
  rw [store32_at mem a w (by decide), store32_at mem a w (by decide),
    store32_at mem a w (by decide), store32_at mem a w (by decide)]
  exact join32 w

theorem view_add (mem : Memory) (a : Addr) (m k : ℕ) :
    view mem a (m + k) = view mem (a + BitVec.ofNat 64 m) k := by
  rw [view, view, BitVec.ofNat_add, BitVec.add_assoc]

theorem load64_view (mem : Memory) (a : Addr) (m : ℕ) :
    load64 (view mem a) m = load64 (view mem (a + BitVec.ofNat 64 m)) 0 :=
  load64_congr fun i _ => by rw [Nat.zero_add, view_add]

theorem load64_store64 (mem : Memory) (a : Addr) (w : BitVec 64) :
    load64 (view (store64 mem a w) a) 0 = w := by
  have hhigh : load32 (view (store64 mem a w) a) 4 = (w >>> 32).setWidth 32 := by
    rw [← load32_store32 (store32 mem a (w.setWidth 32)) (a + 4) ((w >>> 32).setWidth 32)]
    exact load32_congr fun i _ => by rw [view_add, Nat.zero_add]; rfl
  have hlow : load32 (view (store64 mem a w) a) 0 = w.setWidth 32 := by
    rw [← load32_store32 mem a (w.setWidth 32)]
    refine load32_congr fun i hi => store32_of_not_within _ _ ?_
    unfold Within
    bv_omega
  rw [load64, Nat.zero_add, hhigh, hlow]
  apply BitVec.eq_of_getLsbD_eq
  intro i hi
  rw [BitVec.getLsbD_append, BitVec.getLsbD_setWidth, BitVec.getLsbD_setWidth,
    BitVec.getLsbD_ushiftRight]
  by_cases hlt : i < 32
  · simp [hlt]
  · have hback : 32 + (i - 32) = i := by omega
    have hhalf : i - 32 < 32 := by omega
    simp [hlt, hback, hhalf]

/-- What is read of a record of `n` bytes depends on these bytes only. -/
theorem view_congr (h : ∀ b, Within a n b → mem' b = mem b) (hn : n ≤ 2 ^ 64) {k : ℕ} (hk : k < n) :
    view mem' a k = view mem a k := h _ (within_add hk hn)

end Memory

section Sections

variable (env : Environment) (mem : Memory)

def sections : ℕ := (eShnum env mem).toNat

def headerAt (j : ℕ) : Addr := elfSection env mem (BitVec.ofNat 64 j)

def prepared : ℕ → Memory
  | 0 => mem
  | j + 1 => prepareSection env (prepared j) (headerAt env mem j)

def allocated (before : Memory) (size : BitVec 64) : Addr :=
  if env.flags = elfDriver then env.mapDriver before size else env.kmalloc before size

def sectionMemory (j : ℕ) : Addr :=
  let before := prepared env mem j
  let sec := headerAt env mem j
  if NeedsMemory before sec then allocated env before (shSize before sec)
  else env.ehdr + shOffset before sec

def InHeaders (b : Addr) : Prop :=
  Within env.ehdr 64 b ∨ Within (headerAt env mem 0) (64 * sections env mem) b

def width (type : BitVec 64) : ℕ :=
  if type = r64 then 8 else if type = r32 ∨ type = rPc32 then 4 else 0

def InPlace (s : Load) (i : BitVec 32) (rela : Bool) (idx : BitVec 32) (b : Addr) : Prop :=
  Within (targetOf env s.mem (s.shdrAt i) rela idx)
    (width (typeOf env s.mem (s.shdrAt i) rela idx)) b

/-- The file header and the section headers do not overlap, and nothing is written over them: not
what the first loop clears, and not what an entry relocates. -/
structure Tidy : Prop where
  headers : ∀ b, Within env.ehdr 64 b → ¬ Within (headerAt env mem 0) (64 * sections env mem) b
  cleared : ∀ j < sections env mem, NeedsMemory (prepared env mem j) (headerAt env mem j) →
    ∀ b, InHeaders env mem b → ¬ b - sectionMemory env mem j <
      shSize (prepared env mem j) (headerAt env mem j)
  places : ∀ s, Reaches (step env) (elfLoadRelocatable env mem) s → ∀ i rela idx,
    AtEntry s i rela idx → ∀ b, InPlace env s i rela idx b → ¬ InHeaders env mem b

variable {env mem} {i j n : ℕ} {b : Addr}

theorem headerAt_add (j : ℕ) :
    headerAt env mem j = headerAt env mem 0 + BitVec.ofNat 64 (64 * j) := by
  unfold headerAt elfSection
  rw [BitVec.ofNat_mul, show (64 : BitVec 64) * BitVec.ofNat 64 0 = 0#64 from rfl, BitVec.add_zero]
  rfl

theorem sections_lt : sections env mem < 2 ^ 16 := (eShnum env mem).isLt

theorem within_table (hj : j < sections env mem) (h : Within (headerAt env mem j) 64 b) :
    Within (headerAt env mem 0) (64 * sections env mem) b := by
  have hn := @sections_lt env mem
  rw [headerAt_add] at h
  unfold Within at h ⊢
  bv_omega

theorem header_unique (hi : i < sections env mem) (hj : j < sections env mem)
    (h : Within (headerAt env mem i) 64 b) (h' : Within (headerAt env mem j) 64 b) : i = j := by
  have hn := @sections_lt env mem
  rw [headerAt_add] at h h'
  unfold Within at h h'
  bv_omega

theorem prepareSection_eq (before : Memory) (sec : Addr) :
    prepareSection env before sec =
      if NeedsMemory before sec then
        let addr := allocated env before (shSize before sec)
        store64 (store64 (clear before addr (shSize before sec)) (sec + 16) addr) (sec + 24)
          (addr - env.ehdr)
      else store64 before (sec + 16) (env.ehdr + shOffset before sec) := rfl

/-- The first loop writes two fields of the header, and clears what it allocates. -/
theorem prepareSection_others (before : Memory) (sec : Addr) (hb : ¬ Within (sec + 16) 16 b)
    (hclear : NeedsMemory before sec →
      ¬ b - allocated env before (shSize before sec) < shSize before sec) :
    prepareSection env before sec b = before b := by
  have haddr : ¬ Within (sec + 16) 8 b := by
    unfold Within at hb ⊢
    bv_omega
  have hoffset : ¬ Within (sec + 24) 8 b := by
    unfold Within at hb ⊢
    bv_omega
  rw [prepareSection_eq]
  by_cases hneeds : NeedsMemory before sec
  · rw [if_pos hneeds, store64_of_not_within _ _ hoffset, store64_of_not_within _ _ haddr]
    exact if_neg (hclear hneeds)
  · rw [if_neg hneeds, store64_of_not_within _ _ haddr]

theorem within_header {sec : Addr} (h : Within (sec + 16) 16 b) : Within sec 64 b := by
  unfold Within at h ⊢
  bv_omega

/-- The offset of a section is that of its final memory. -/
theorem shOffset_prepareSection (before : Memory) (sec : Addr) :
    env.ehdr + shOffset (prepareSection env before sec) sec =
      if NeedsMemory before sec then allocated env before (shSize before sec)
      else env.ehdr + shOffset before sec := by
  have hback : ∀ a : Addr, env.ehdr + (a - env.ehdr) = a := fun a => by bv_omega
  rw [prepareSection_eq]
  by_cases hneeds : NeedsMemory before sec
  · rw [if_pos hneeds, if_pos hneeds, shOffset, load64_view]
    dsimp only
    refine (congrArg (env.ehdr + ·) (load64_store64 _ (sec + 24) _)).trans ?_
    exact hback _
  · rw [if_neg hneeds, if_neg hneeds]
    refine congrArg (env.ehdr + ·) (load64_congr fun k hk => store64_of_not_within _ _ ?_)
    unfold Within
    bv_omega

theorem eShoff_congr {mem' : Memory} (h : ∀ b, Within env.ehdr 64 b → mem' b = mem b) :
    eShoff env mem' = eShoff env mem :=
  load64_congr fun k hk => view_congr h (by decide) (by omega)

theorem eShnum_congr {mem' : Memory} (h : ∀ b, Within env.ehdr 64 b → mem' b = mem b) :
    eShnum env mem' = eShnum env mem := by
  have hview := fun k hk => @view_congr mem mem' env.ehdr 64 h (by decide) k hk
  unfold eShnum load16
  rw [hview 61 (by decide), hview 60 (by decide)]

theorem shOffset_congr {mem' : Memory} {sec : Addr} (h : ∀ b, Within sec 64 b → mem' b = mem b) :
    shOffset mem' sec = shOffset mem sec :=
  load64_congr fun k hk => view_congr h (by decide) (by omega)

/-- What the first loop has done to the headers, up to a section. -/
theorem prepared_spec (h : Tidy env mem) (hn : n ≤ sections env mem) :
    (∀ b, Within env.ehdr 64 b → prepared env mem n b = mem b) ∧
      ∀ j < n, env.ehdr + shOffset (prepared env mem n) (headerAt env mem j) =
        sectionMemory env mem j := by
  induction n with
  | zero => exact ⟨fun _ _ => rfl, fun j hj => absurd hj (Nat.not_lt_zero j)⟩
  | succ n ih =>
    obtain ⟨hheader, hoffsets⟩ := ih (by omega)
    have hothers : ∀ b, InHeaders env mem b → ¬ Within (headerAt env mem n) 64 b →
        prepared env mem (n + 1) b = prepared env mem n b := by
      intro b hb hnot
      refine prepareSection_others _ _ (mt within_header hnot) fun hneeds => ?_
      have hcleared := h.cleared n (by omega) hneeds b hb
      simp only [sectionMemory, if_pos hneeds] at hcleared
      exact hcleared
    constructor
    · intro b hb
      rw [← hheader b hb]
      exact hothers b (Or.inl hb) fun hnot => h.headers b hb (within_table (by omega) hnot)
    · intro j hj
      rcases Nat.lt_succ_iff_lt_or_eq.mp hj with hlt | rfl
      · rw [← hoffsets j hlt]
        refine congrArg (env.ehdr + ·) (shOffset_congr fun b hb => ?_)
        refine hothers b (Or.inr (within_table (by omega) hb)) fun hnot => ?_
        exact absurd (header_unique (by omega) (by omega) hb hnot) (by omega)
      · exact shOffset_prepareSection _ _

end Sections

section Values

variable (env : Environment) (mem : Memory) (s : Load) (i : BitVec 32) (idx : BitVec 32)

/-- The value of a symbol of a table. That of a section is an offset in its final memory. -/
inductive Denotes (table : CInt) (index : BitVec 64) : Addr → Prop
  | external : External env s.mem table index → known env s.mem table index ≠ null →
      Denotes table index (known env s.mem table index)
  | weak : External env s.mem table index → known env s.mem table index = null →
      stBind s.mem (symbolOf env s.mem table index) = stbWeak → Denotes table index 0
  | absolute : InTable env s.mem table index →
      stShndx s.mem (symbolOf env s.mem table index) = shnAbs →
      Denotes table index (stValue s.mem (symbolOf env s.mem table index))
  | inside : InTable env s.mem table index →
      stShndx s.mem (symbolOf env s.mem table index) ≠ shnUndef →
      stShndx s.mem (symbolOf env s.mem table index) ≠ shnAbs →
      (stShndx s.mem (symbolOf env s.mem table index)).toNat < sections env mem →
      Denotes table index
        (sectionMemory env mem (stShndx s.mem (symbolOf env s.mem table index)).toNat +
          stValue s.mem (symbolOf env s.mem table index))

def SymbolValue (v : Addr) : Prop :=
  if indexOf env s.mem (s.shdrAt i) true idx = 0 then v = 0
  else Denotes env mem s (shLink s.mem (s.shdrAt i)) (indexOf env s.mem (s.shdrAt i) true idx) v

def rAddend : BitVec 64 := load64 (view s.mem (entryAt env s.mem (s.shdrAt i) true idx)) 16

structure Due (mem : Memory) (type : BitVec 64) (place v addend : Addr) : Prop where
  r64 : type = r64 → load64 (view mem place) 0 = v + addend
  r32 : type = r32 → load32 (view mem place) 0 = (v + addend).setWidth 32
  rPc32 : type = rPc32 → load32 (view mem place) 0 = (v + addend - place).setWidth 32

structure Leaves : Prop where
  place : (shInfo s.mem (s.shdrAt i)).toNat < sections env mem →
    targetOf env s.mem (s.shdrAt i) true idx =
      sectionMemory env mem (shInfo s.mem (s.shdrAt i)).toNat +
        load64 (view s.mem (entryAt env s.mem (s.shdrAt i) true idx)) 0
  value : ∀ v, SymbolValue env mem s i idx v →
    Due (step env s).mem (typeOf env s.mem (s.shdrAt i) true idx)
      (targetOf env s.mem (s.shdrAt i) true idx) v (rAddend env s i idx)
  others : ∀ b, ¬ InPlace env s i true idx b → (step env s).mem b = s.mem b

/-- The addend of 64 bits is an `int`, and the value of the symbol is not the 1 that stands for an
error, or there is nothing to change then. -/
def Fits : Prop :=
  ∀ v, SymbolValue env mem s i idx v →
    if indexOf env s.mem (s.shdrAt i) true idx ≠ 0 ∧ v = elfFail then
      Due s.mem (typeOf env s.mem (s.shdrAt i) true idx)
        (targetOf env s.mem (s.shdrAt i) true idx) v (rAddend env s i idx)
    else typeOf env s.mem (s.shdrAt i) true idx = r64 →
      ((rAddend env s i idx).setWidth 32).signExtend 64 = rAddend env s i idx

def Untouched (b : Addr) : Prop :=
  ∀ s, Reaches (step env) (elfLoadRelocatable env mem) s → ∀ i rela idx,
    AtEntry s i rela idx → ¬ InPlace env s i rela idx b

structure Correct : Prop where
  values : Returns (step env) result (elfLoadRelocatable env mem) 0 →
    ∀ s, Reaches (step env) (elfLoadRelocatable env mem) s → ∀ i idx, AtEntry s i true idx →
      Leaves env mem s i idx
  others : ∀ s, Reaches (step env) (elfLoadRelocatable env mem) s → result s = some 0 →
    ∀ b, Untouched env mem b → s.mem b = prepared env mem (sections env mem) b

end Values

section Steps

variable {env : Environment} {mem mem' : Memory} {s : Load} {i idx : BitVec 32} {rela : Bool}
  {b : Addr} {type place v addend : Addr}

theorem relocated_others (h : relocated mem type place v addend = some mem')
    (hb : ¬ Within place (width type) b) : mem' b = mem b := by
  unfold relocated at h
  split_ifs at h with hnone h64 h32 hplt hpc
  · rw [← Option.some.inj h]
  · rw [width, if_pos h64] at hb
    rw [← Option.some.inj h]
    exact store64_of_not_within _ _ hb
  · rw [width, if_neg h64, if_pos (Or.inl h32)] at hb
    rw [← Option.some.inj h]
    exact store32_of_not_within _ _ hb
  · rw [width, if_neg h64, if_pos (Or.inr hpc)] at hb
    rw [← Option.some.inj h]
    exact store32_of_not_within _ _ hb

theorem relocateEntry_cases (sec : Addr) : relocateEntry env mem sec rela idx = none ∨
    relocateEntry env mem sec rela idx = some (-1, mem) ∨
      ∃ v, relocateEntry env mem sec rela idx =
        match appliedWith env mem sec rela idx v with
        | none => some (elfFail, mem)
        | some mem' => some (v, mem') := by
  by_cases hindex : indexOf env mem sec rela idx = 0
  · exact Or.inr (Or.inr ⟨0, relocateEntry_found (.inl ⟨hindex, rfl⟩)⟩)
  · cases hget : elfGetSymbolAddress env mem (shLink mem sec) (indexOf env mem sec rela idx) with
    | none => exact Or.inl (relocateEntry_divided hindex hget)
    | some v =>
      by_cases hv : v = elfFail
      · exact Or.inr (Or.inl (relocateEntry_failed hindex (hv ▸ hget)))
      · exact Or.inr (Or.inr ⟨v, relocateEntry_found (.inr ⟨hindex, hv, hget⟩)⟩)

theorem relocateEntry_others {r : Addr}
    (h : relocateEntry env s.mem (s.shdrAt i) rela idx = some (r, mem'))
    (hb : ¬ InPlace env s i rela idx b) : mem' b = s.mem b := by
  rcases @relocateEntry_cases env s.mem idx rela (s.shdrAt i) with heq | heq | ⟨v, heq⟩
  · rw [heq] at h
    contradiction
  · rw [heq] at h
    rw [← (Prod.mk.inj (Option.some.inj h)).2]
  · rw [heq] at h
    cases happlied : appliedWith env s.mem (s.shdrAt i) rela idx v with
    | none =>
      rw [happlied] at h
      rw [← (Prod.mk.inj (Option.some.inj h)).2]
    | some mem'' =>
      rw [happlied] at h
      rw [← (Prod.mk.inj (Option.some.inj h)).2]
      exact relocated_others happlied hb

theorem step_entry_others (h : AtEntry s i rela idx) (hb : ¬ InPlace env s i rela idx b) :
    (step env s).mem b = s.mem b := by
  cases hentry : relocateEntry env s.mem (s.shdrAt i) rela idx with
  | none => rw [h.step_eq, hentry]
  | some returned =>
    rw [h.step_mem hentry]
    exact relocateEntry_others hentry hb

theorem step_shdr : (step env s).shdr = s.shdr := by
  unfold step
  cases hposition : s.position with
  | prepare i => simp only; split_ifs <;> rfl
  | scan i => simp only; split_ifs <;> rfl
  | entry i rela idx =>
    simp only
    split_ifs
    · rfl
    · cases relocateEntry env s.mem (s.shdrAt i) rela idx with
      | none => rfl
      | some returned => simp only; split_ifs <;> rfl
    · rfl
  | returned r => rfl
  | divided => rfl

end Steps

section Runs

variable {env : Environment} {mem : Memory} {s : Load} {i idx : BitVec 32} {rela : Bool} {b : Addr}

variable (env mem) in
/-- After the first loop: the table of headers, and the bytes that no entry writes. -/
structure Kept (s : Load) : Prop where
  shdr : s.shdr = headerAt env mem 0
  bytes : ∀ b, Untouched env mem b → s.mem b = prepared env mem (sections env mem) b

variable (env mem) in
def Inv (s : Load) : Prop :=
  match s.position with
  | .prepare i => i.toNat ≤ sections env mem ∧ s.shdr = headerAt env mem 0 ∧
      s.mem = prepared env mem i.toNat
  | .scan _ => Kept env mem s
  | .entry _ _ _ => Kept env mem s
  | .returned r => r = 0 → Kept env mem s
  | .divided => True

theorem shdrAt_eq (h : s.shdr = headerAt env mem 0) (i : BitVec 32) :
    s.shdrAt i = headerAt env mem i.toNat := by
  rw [Load.shdrAt, h, headerAt_add i.toNat, BitVec.ofNat_mul, BitVec.ofNat_toNat]
  rfl

theorem Kept.step (h : Kept env mem s)
    (hreach : Reaches (step env) (elfLoadRelocatable env mem) s)
    (hmem : (∃ i rela idx, AtEntry s i rela idx) ∨ (ElfRelocation.step env s).mem = s.mem) :
    Kept env mem (ElfRelocation.step env s) := by
  refine ⟨step_shdr.trans h.shdr, fun b hb => ?_⟩
  rw [← h.bytes b hb]
  rcases hmem with ⟨i, rela, idx, hat⟩ | hsame
  · exact step_entry_others hat (hb s hreach i rela idx hat)
  · rw [hsame]

theorem inv_start : Inv env mem (elfLoadRelocatable env mem) := by
  unfold elfLoadRelocatable
  split_ifs
  · exact fun h => absurd h (by decide)
  · exact ⟨Nat.zero_le _, rfl, rfl⟩

theorem inv_step (htidy : Tidy env mem)
    (hreach : Reaches (step env) (elfLoadRelocatable env mem) s) (h : Inv env mem s) :
    Inv env mem (step env s) := by
  cases hposition : s.position with
  | prepare i =>
    obtain ⟨hi, hshdr, hmem⟩ : i.toNat ≤ sections env mem ∧ s.shdr = headerAt env mem 0 ∧
        s.mem = prepared env mem i.toNat := by
      simpa only [Inv, hposition] using h
    have hcount : eShnum env s.mem = eShnum env mem := by
      rw [hmem]
      exact eShnum_congr (prepared_spec htidy hi).1
    have hlt := @sections_lt env mem
    have hmore : i < (eShnum env s.mem).setWidth 32 ↔ i.toNat < sections env mem := by
      rw [hcount, BitVec.lt_def, BitVec.toNat_setWidth]
      unfold sections at hlt ⊢
      omega
    unfold step
    simp only [hposition]
    split_ifs with hless
    · have hless := hmore.mp hless
      have hnext : (i + 1).toNat = i.toNat + 1 := by bv_omega
      refine ⟨by omega, hshdr, ?_⟩
      rw [hnext, prepared, hmem, shdrAt_eq hshdr]
    · have hlast : i.toNat = sections env mem := by
        have hnot := mt hmore.mpr hless
        omega
      exact ⟨hshdr, fun b _ => by rw [hmem, hlast]⟩
  | scan i =>
    have hkept : Kept env mem s := by simpa only [Inv, hposition] using h
    rcases scan_cases env hposition with ⟨-, ⟨-, hstep⟩ | ⟨-, hstep⟩ | ⟨-, -, hstep⟩⟩ | ⟨-, hstep⟩
    all_goals
      have hnext := hkept.step hreach (Or.inr (by rw [hstep]))
      rw [hstep] at hnext ⊢
    · exact hnext
    · exact hnext
    · exact hnext
    · exact fun _ => hnext
  | entry i rela idx =>
    have hkept : Kept env mem s := by simpa only [Inv, hposition] using h
    rcases entry_cases env hposition with hdivided | ⟨hpast, hscan⟩ | ⟨hat, hfailed | hentry⟩
    · simp only [Inv, hdivided]
    · have hsame : (step env s).mem = s.mem := by
        unfold step
        simp only [hposition, hpast.entsize, BitVec.not_lt.mpr hpast.bound, if_false]
      simp only [Inv, hscan]
      exact hkept.step hreach (Or.inr hsame)
    · simp only [Inv, hfailed]
      exact fun hzero => absurd hzero (by decide)
    · simp only [Inv, hentry]
      exact hkept.step hreach (Or.inl ⟨i, rela, idx, hat⟩)
  | returned r =>
    have hstay : step env s = s := result_stays s (by simp [result, hposition])
    rwa [hstay]
  | divided =>
    have hstay : (step env s).position = .divided := by
      unfold step
      simp only [hposition]
    simp only [Inv, hstay]

theorem inv_of_reach (htidy : Tidy env mem)
    (hreach : Reaches (step env) (elfLoadRelocatable env mem) s) : Inv env mem s :=
  hreach.induct inv_start fun _ hu => inv_step htidy hu

theorem kept_of_entry (htidy : Tidy env mem)
    (hreach : Reaches (step env) (elfLoadRelocatable env mem) s) (h : AtEntry s i rela idx) :
    Kept env mem s := by
  have hinv := inv_of_reach htidy hreach
  simpa only [Inv, h.position] using hinv

theorem kept_of_result (htidy : Tidy env mem)
    (hreach : Reaches (step env) (elfLoadRelocatable env mem) s) (h : result s = some 0) :
    Kept env mem s := by
  have hinv := inv_of_reach htidy hreach
  cases hposition : s.position with
  | returned r =>
    obtain rfl : r = 0 := by simpa [result, hposition] using h
    simp only [Inv, hposition] at hinv
    exact hinv trivial
  | prepare i => simp [result, hposition] at h
  | scan i => simp [result, hposition] at h
  | entry i rela idx => simp [result, hposition] at h
  | divided => simp [result, hposition] at h

theorem Kept.headers (h : Kept env mem s) (htidy : Tidy env mem) (hb : InHeaders env mem b) :
    s.mem b = prepared env mem (sections env mem) b :=
  h.bytes b fun t ht i rela idx hat hplace => htidy.places t ht i rela idx hat b hplace hb

theorem Kept.elfSection_eq (h : Kept env mem s) (htidy : Tidy env mem) (x : BitVec 64) :
    elfSection env s.mem x = headerAt env mem x.toNat := by
  have hfile : ∀ b, Within env.ehdr 64 b → s.mem b = mem b := fun b hb =>
    (h.headers htidy (Or.inl hb)).trans ((prepared_spec htidy (Nat.le_refl _)).1 b hb)
  unfold headerAt elfSection
  rw [eShoff_congr hfile, BitVec.ofNat_toNat, BitVec.setWidth_eq]

/-- The offset of a section is that of its final memory. -/
theorem Kept.offset_eq (h : Kept env mem s) (htidy : Tidy env mem) {x : BitVec 64}
    (hx : x.toNat < sections env mem) :
    env.ehdr + shOffset s.mem (elfSection env s.mem x) = sectionMemory env mem x.toNat := by
  rw [h.elfSection_eq htidy, ← (prepared_spec htidy (Nat.le_refl _)).2 _ hx]
  refine congrArg (env.ehdr + ·) (shOffset_congr fun b hb => ?_)
  exact h.headers htidy (Or.inr (within_table hx hb))

end Runs

section Results

variable {env : Environment} {mem mem' : Memory} {s : Load} {i idx : BitVec 32} {b : Addr}
  {type place v addend : Addr}

theorem setWidth_signExtend (x : BitVec 64) :
    ((x.setWidth 32).signExtend 64).setWidth 32 = x.setWidth 32 := by
  apply BitVec.eq_of_getLsbD_eq
  intro k hk
  rw [BitVec.getLsbD_setWidth, BitVec.getLsbD_signExtend]
  have hwide : k < 64 := by omega
  simp [hk, hwide]

/-- What a relocation writes is what is due, but for the addend of 64 bits. -/
theorem due_relocated_iff
    (h : relocated mem type place v ((addend.setWidth 32).signExtend 64) = some mem') :
    Due mem' type place v addend ↔
      (type = r64 → (addend.setWidth 32).signExtend 64 = addend) := by
  have hsum : (v + (addend.setWidth 32).signExtend 64).setWidth 32 = (v + addend).setWidth 32 := by
    rw [BitVec.setWidth_add _ _ (by decide), setWidth_signExtend,
      BitVec.setWidth_add _ _ (by decide)]
  constructor
  · intro hdue htype
    have hvalue := hdue.r64 htype
    subst htype
    rw [relocated, if_neg (by decide), if_pos rfl] at h
    obtain rfl := Option.some.inj h
    rw [load64_store64] at hvalue
    bv_omega
  · intro hfits
    refine ⟨fun htype => ?_, fun htype => ?_, fun htype => ?_⟩
    · have haddend := hfits htype
      subst htype
      rw [relocated, if_neg (by decide), if_pos rfl] at h
      obtain rfl := Option.some.inj h
      rw [load64_store64, haddend]
    · subst htype
      rw [relocated, if_neg (by decide), if_neg (by decide), if_pos rfl] at h
      obtain rfl := Option.some.inj h
      rw [load32_store32, hsum]
    · subst htype
      rw [relocated, if_neg (by decide), if_neg (by decide), if_neg (by decide),
        if_neg (by decide), if_pos rfl] at h
      obtain rfl := Option.some.inj h
      rw [load32_store32, BitVec.sub_eq_add_neg, BitVec.sub_eq_add_neg,
        BitVec.setWidth_add _ _ (by decide), hsum, ← BitVec.setWidth_add _ _ (by decide)]

/-- The value of a symbol is what the load finds for it. -/
theorem Denotes.resolves {table : CInt} {index : BitVec 64} (h : Denotes env mem s table index v)
    (htidy : Tidy env mem) (hkept : Kept env mem s) : Resolves env s.mem table index v := by
  cases h with
  | external hexternal hknown => exact .external hexternal hknown
  | weak hexternal hunknown hweak => exact .weak hexternal hunknown hweak
  | absolute htable habs => exact .absolute htable habs
  | inside htable hdefined hrelative hsection =>
    have hwide : ∀ x : BitVec 16, (x.setWidth 64).toNat = x.toNat := fun x => by
      rw [BitVec.toNat_setWidth, Nat.mod_eq_of_lt (by omega)]
    have hoffset := @Kept.offset_eq env mem s hkept htidy
      ((stShndx s.mem (symbolOf env s.mem table index)).setWidth 64) (by rwa [hwide])
    rw [hwide] at hoffset
    rw [← hoffset, BitVec.add_assoc, BitVec.add_comm (shOffset _ _), ← BitVec.add_assoc]
    exact .internal htable hdefined hrelative

theorem SymbolValue.valueOf (h : SymbolValue env mem s i idx v) (htidy : Tidy env mem)
    (hkept : Kept env mem s) : ValueOf env s.mem (s.shdrAt i) true idx v := by
  unfold SymbolValue at h
  unfold ValueOf
  split_ifs at h ⊢
  · exact h
  · exact h.resolves htidy hkept

/-- What an entry leaves for a value of its symbol. -/
theorem due_step_iff (hflags : ¬ elfDriver.slt env.flags) (hat : AtEntry s i true idx)
    (hvalue : ValueOf env s.mem (s.shdrAt i) true idx v) :
    Due (step env s).mem (typeOf env s.mem (s.shdrAt i) true idx)
        (targetOf env s.mem (s.shdrAt i) true idx) v (rAddend env s i idx) ↔
      if indexOf env s.mem (s.shdrAt i) true idx ≠ 0 ∧ v = elfFail then
        Due s.mem (typeOf env s.mem (s.shdrAt i) true idx)
          (targetOf env s.mem (s.shdrAt i) true idx) v (rAddend env s i idx)
      else typeOf env s.mem (s.shdrAt i) true idx = r64 →
        ((rAddend env s i idx).setWidth 32).signExtend 64 = rAddend env s i idx := by
  split_ifs with hone
  · obtain ⟨hindex, rfl⟩ := hone
    rw [ValueOf, if_neg hindex] at hvalue
    rw [hat.step_mem (relocateEntry_failed hindex (hvalue.get_eq hflags))]
  · have hget : indexOf env s.mem (s.shdrAt i) true idx = 0 ∧ v = 0 ∨
        indexOf env s.mem (s.shdrAt i) true idx ≠ 0 ∧ v ≠ elfFail ∧
          elfGetSymbolAddress env s.mem (shLink s.mem (s.shdrAt i))
            (indexOf env s.mem (s.shdrAt i) true idx) = some v := by
      unfold ValueOf at hvalue
      split_ifs at hvalue with hindex
      · exact Or.inl ⟨hindex, hvalue⟩
      · exact Or.inr ⟨hindex, fun hv => hone ⟨hindex, hv⟩, hvalue.get_eq hflags⟩
    have hentry := relocateEntry_found hget
    cases happlied : appliedWith env s.mem (s.shdrAt i) true idx v with
    | some mem' =>
      rw [happlied] at hentry
      rw [hat.step_mem hentry]
      exact due_relocated_iff happlied
    | none =>
      have htype := appliedWith_eq_none.mp happlied
      simp only [List.mem_cons, not_or] at htype
      exact iff_of_true ⟨fun h => absurd h htype.2.1, fun h => absurd h htype.2.2.1,
        fun h => absurd h htype.2.2.2.1⟩ fun h => absurd h htype.2.1

theorem leaves_iff (htidy : Tidy env mem)
    (hreach : Reaches (step env) (elfLoadRelocatable env mem) s) (hat : AtEntry s i true idx) :
    Leaves env mem s i idx ↔ Fits env mem s i idx := by
  have hkept := kept_of_entry htidy hreach hat
  have hflags := flags_of_entry hreach hat
  have hiff : ∀ v, SymbolValue env mem s i idx v → _ := fun v hv =>
    due_step_iff hflags hat (hv.valueOf htidy hkept)
  refine ⟨fun h v hv => (hiff v hv).mp (h.value v hv), fun h => ⟨fun hsection => ?_,
    fun v hv => (hiff v hv).mpr (h v hv), fun b hb => step_entry_others hat hb⟩⟩
  have hwide : ((shInfo s.mem (s.shdrAt i)).setWidth 64).toNat =
      (shInfo s.mem (s.shdrAt i)).toNat := by
    rw [BitVec.toNat_setWidth, Nat.mod_eq_of_lt (by omega)]
  have hoffset := @Kept.offset_eq env mem s hkept htidy
    ((shInfo s.mem (s.shdrAt i)).setWidth 64) (by rwa [hwide])
  rw [hwide] at hoffset
  rw [← hoffset]
  rfl

/-- Every file whose headers nothing is written over, and all allocators: a load that succeeds
leaves the right values exactly if every addend of 64 bits that it comes to is an `int`, and no
symbol has the value 1. -/
theorem relocation_values_iff (env : Environment) (mem : Memory) (htidy : Tidy env mem) :
    Correct env mem ↔
      (Returns (step env) result (elfLoadRelocatable env mem) 0 →
        ∀ s, Reaches (step env) (elfLoadRelocatable env mem) s → ∀ i idx, AtEntry s i true idx →
          Fits env mem s i idx) := by
  constructor
  · exact fun h hreturns s hreach i idx hat =>
      (leaves_iff htidy hreach hat).mp (h.values hreturns s hreach i idx hat)
  · refine fun h => ⟨fun hreturns s hreach i idx hat =>
      (leaves_iff htidy hreach hat).mpr (h hreturns s hreach i idx hat), ?_⟩
    exact fun s hreach hresult b hb => (kept_of_result htidy hreach hresult).bytes b hb

end Results

section OneEntry

def zeros (n : ℕ) : List Byte := List.replicate n 0

/-- A file with one entry, which relocates the 8 bytes of the first section, without a symbol: the
file header, the headers of the null section, of the first section and of the relocation section,
and the last two. -/
def oneEntry (addend : BitVec 64) : List Byte :=
  zeros 40 ++ bytes32 64 ++ zeros 16 ++ bytes16 3 ++ zeros 66 ++
    (bytes32 0 ++ bytes32 1 ++ zeros 16 ++ bytes32 256 ++ bytes32 0 ++ bytes32 8 ++ zeros 28) ++
    (bytes32 0 ++ bytes32 4 ++ zeros 16 ++ bytes32 264 ++ bytes32 0 ++ bytes32 24 ++ zeros 8 ++
      bytes32 1 ++ zeros 8 ++ bytes32 24 ++ bytes32 0) ++
    (zeros 16 ++ bytes32 1 ++ bytes32 0 ++ bytes32 (addend.setWidth 32) ++
      bytes32 ((addend >>> 32).setWidth 32))

def oneEntryMemory (addend : BitVec 64) : Memory := fun a =>
  ofList (oneEntry addend) (fun _ => 0) (a - 0x10000).toNat

def oneEntryLoad (addend : BitVec 64) : Load := elfLoadRelocatable unknowing (oneEntryMemory addend)

def comesToEntry (s : Load) : Bool :=
  match s.position with
  | .entry i _ idx => shEntsize s.mem (s.shdrAt i) ≠ 0 ∧
      idx.setWidth 64 < shSize s.mem (s.shdrAt i) / shEntsize s.mem (s.shdrAt i)
  | _ => false

theorem comesToEntry_of_atEntry {s : Load} {i idx : BitVec 32} {rela : Bool}
    (h : AtEntry s i rela idx) : comesToEntry s = true := by
  simp only [comesToEntry, h.position, decide_eq_true_eq]
  exact ⟨h.entsize, h.bound⟩

private theorem oneEntry_run :
    headerAt unknowing (oneEntryMemory 16) 0 = 0x10040 ∧
      sections unknowing (oneEntryMemory 16) = 3 ∧
      (∀ j < 3, ¬ NeedsMemory (prepared unknowing (oneEntryMemory 16) j)
        (headerAt unknowing (oneEntryMemory 16) j)) ∧
      (∀ n < 11, comesToEntry ((step unknowing)^[n] (oneEntryLoad 16)) = true → n = 7) ∧
      result ((step unknowing)^[10] (oneEntryLoad 16)) = some 0 := by
  decide +kernel

private theorem oneEntry_place (addend : BitVec 64) (h : addend = 16 ∨ addend = 0x80000000) :
    ((step unknowing)^[7] (oneEntryLoad addend)).position = .entry 2 true 0 ∧
      targetOf unknowing ((step unknowing)^[7] (oneEntryLoad addend)).mem
        (((step unknowing)^[7] (oneEntryLoad addend)).shdrAt 2) true 0 = 0x10100 ∧
      typeOf unknowing ((step unknowing)^[7] (oneEntryLoad addend)).mem
        (((step unknowing)^[7] (oneEntryLoad addend)).shdrAt 2) true 0 = r64 ∧
      indexOf unknowing ((step unknowing)^[7] (oneEntryLoad addend)).mem
        (((step unknowing)^[7] (oneEntryLoad addend)).shdrAt 2) true 0 = 0 ∧
      rAddend unknowing ((step unknowing)^[7] (oneEntryLoad addend)) 2 0 = addend := by
  rcases h with rfl | rfl <;> decide +kernel

theorem oneEntry_tidy : Tidy unknowing (oneEntryMemory 16) := by
  obtain ⟨htable, hcount, hneeds, hentries, hlast⟩ := oneEntry_run
  obtain ⟨hposition, hplace, htype, -⟩ := oneEntry_place 16 (Or.inl rfl)
  have happart : ∀ b, Within 0x10040 (64 * 3) b → ¬ Within 0x10000 64 b := by
    intro b hb hb'
    unfold Within at hb hb'
    bv_omega
  refine ⟨fun b hb hb' => ?_, fun j hj h => ?_, ?_⟩
  · rw [htable, hcount] at hb'
    exact happart b hb' hb
  · rw [hcount] at hj
    exact absurd h (hneeds j hj)
  · intro s hreach i rela idx hat b hb hheaders
    obtain ⟨n, rfl⟩ : ∃ n, (step unknowing)^[n] (oneEntryLoad 16) = s := hreach
    have hn : n = 7 := by
      rcases Nat.lt_or_ge n 11 with hlt | hge
      · exact hentries n hlt (comesToEntry_of_atEntry hat)
      · obtain ⟨m, rfl⟩ := Nat.exists_eq_add_of_le' (show 10 ≤ n by omega)
        rw [Function.iterate_add_apply, result_stays.iterate hlast] at hat
        exact absurd (hentries 10 (by decide) (comesToEntry_of_atEntry hat)) (by decide)
    subst hn
    obtain ⟨rfl, rfl, rfl⟩ := Position.entry.inj (hposition.symm.trans hat.position)
    have hb : Within 0x10100 8 b := by
      rw [InPlace, hplace, htype] at hb
      exact hb
    rcases hheaders with hfile | htab
    · have hfile : Within 0x10000 64 b := hfile
      unfold Within at hb hfile
      bv_omega
    · rw [htable, hcount] at htab
      unfold Within at hb htab
      bv_omega

/-- A file with an addend of 16. -/
theorem relocation_values_iff_small_addend :
    Correct unknowing (oneEntryMemory 16) ↔
      (Returns (step unknowing) result (oneEntryLoad 16) 0 →
        ∀ s, Reaches (step unknowing) (oneEntryLoad 16) s → ∀ i idx, AtEntry s i true idx →
          Fits unknowing (oneEntryMemory 16) s i idx) :=
  relocation_values_iff unknowing (oneEntryMemory 16) oneEntry_tidy

/-- An addend of 2^31 comes out as one below zero. -/
theorem large_addend_goes_negative :
    Returns (step unknowing) result (oneEntryLoad 0x80000000) 0 ∧
      (∃ s, Reaches (step unknowing) (oneEntryLoad 0x80000000) s ∧ AtEntry s 2 true 0 ∧
        rAddend unknowing s 2 0 = 0x80000000 ∧
        load64 (view (step unknowing s).mem 0x10100) 0 = 0xFFFFFFFF80000000) ∧
      ¬ Correct unknowing (oneEntryMemory 0x80000000) := by
  have hreturns : Returns (step unknowing) result (oneEntryLoad 0x80000000) 0 :=
    ⟨10, by decide +kernel⟩
  obtain ⟨hposition, hplace, htype, hindex, haddend⟩ := oneEntry_place 0x80000000 (Or.inr rfl)
  have hat : AtEntry ((step unknowing)^[7] (oneEntryLoad 0x80000000)) 2 true 0 :=
    ⟨hposition, by decide +kernel, by decide +kernel⟩
  have hwritten : load64 (view (step unknowing
      ((step unknowing)^[7] (oneEntryLoad 0x80000000))).mem 0x10100) 0 = 0xFFFFFFFF80000000 := by
    decide +kernel
  refine ⟨hreturns, ⟨_, ⟨7, rfl⟩, hat, haddend, hwritten⟩, fun hcorrect => ?_⟩
  have hvalue : SymbolValue unknowing (oneEntryMemory 0x80000000)
      ((step unknowing)^[7] (oneEntryLoad 0x80000000)) 2 0 0 := by
    rw [SymbolValue, if_pos hindex]
  have hleaves : Leaves unknowing (oneEntryMemory 0x80000000)
      ((step unknowing)^[7] (oneEntryLoad 0x80000000)) 2 0 :=
    hcorrect.values hreturns _ ⟨7, rfl⟩ 2 0 hat
  have hdue := (hleaves.value 0 hvalue).r64 htype
  rw [hplace, hwritten, haddend] at hdue
  exact absurd hdue (by decide)

end OneEntry

end ReduceOS.RelocationValues
