import ReduceOS.ElfRelocation
import ReduceOS.Halting

/-!
Which drivers are relocated as a whole or not at all. A failure to resolve a symbol is passed on as
-1 where the caller looks for 1, so that the entry is passed over; only the failures of the second
function, for types that are not supported, are reported.
-/
namespace ReduceOS.DriverRelocation

open Machine Inet ElfRelocation Halting

section Symbols

variable (env : Environment) (mem : Memory) (table : CInt) (idx : BitVec 64)

structure InTable : Prop where
  table_ne : table ≠ 0
  idx_ne : idx ≠ 0
  entsize : shEntsize mem (elfSection env mem (table.signExtend 64)) ≠ 0
  bound : idx < shSize mem (elfSection env mem (table.signExtend 64)) /
    shEntsize mem (elfSection env mem (table.signExtend 64))

def symbolOf : Addr := symbolAt env mem (elfSection env mem (table.signExtend 64)) idx

structure External : Prop extends InTable env mem table idx where
  undefined : stShndx mem (symbolOf env mem table idx) = shnUndef
  flags : env.flags = elfKernel ∨ env.flags = elfDriver

def known : Addr :=
  env.ksymResolve (view mem (symbolName env mem (elfSection env mem (table.signExtend 64))
    (symbolOf env mem table idx)))

/-- The value of a symbol: that of the kernel, 0 for a weak one that the kernel does not know, or
that of the file. -/
inductive Resolves : Addr → Prop
  | external : External env mem table idx → known env mem table idx ≠ null →
      Resolves (known env mem table idx)
  | weak : External env mem table idx → known env mem table idx = null →
      stBind mem (symbolOf env mem table idx) = stbWeak → Resolves 0
  | absolute : InTable env mem table idx →
      stShndx mem (symbolOf env mem table idx) = shnAbs →
      Resolves (stValue mem (symbolOf env mem table idx))
  | internal : InTable env mem table idx →
      stShndx mem (symbolOf env mem table idx) ≠ shnUndef →
      stShndx mem (symbolOf env mem table idx) ≠ shnAbs →
      Resolves (env.ehdr + stValue mem (symbolOf env mem table idx) +
        shOffset mem (elfSection env mem ((stShndx mem (symbolOf env mem table idx)).setWidth 64)))

/-- An external symbol that the kernel does not know and that is not weak, but whose binding has
the bit of `STB_WEAK`. -/
structure TakenForWeak : Prop extends External env mem table idx where
  unknown : known env mem table idx = null
  bit : stBind mem (symbolOf env mem table idx) &&& stbWeak ≠ 0
  strong : stBind mem (symbolOf env mem table idx) ≠ stbWeak

variable {env mem table idx}

theorem InTable.get_eq (h : InTable env mem table idx) (hflags : ¬ elfDriver.slt env.flags) :
    elfGetSymbolAddress env mem table idx =
      if stShndx mem (symbolOf env mem table idx) = shnUndef then
        if env.flags ≠ elfKernel ∧ env.flags ≠ elfDriver then some elfFail
        else if known env mem table idx = null then
          if stBind mem (symbolOf env mem table idx) &&& stbWeak ≠ 0 then some 0 else some elfFail
        else some (known env mem table idx)
      else if stShndx mem (symbolOf env mem table idx) = shnAbs then
        some (stValue mem (symbolOf env mem table idx))
      else some (env.ehdr + stValue mem (symbolOf env mem table idx) +
        shOffset mem (elfSection env mem
          ((stShndx mem (symbolOf env mem table idx)).setWidth 64))) := by
  have hvalid : ¬ (table = 0 ∨ idx = 0 ∨ elfDriver.slt env.flags) := by
    rintro (htable | hidx | hslt)
    exacts [h.table_ne htable, h.idx_ne hidx, hflags hslt]
  have hbound := BitVec.not_le.mpr h.bound
  rw [elfGetSymbolAddress, if_neg hvalid]
  simp only [h.entsize, hbound, if_false]
  rfl

theorem External.get_eq (h : External env mem table idx) (hflags : ¬ elfDriver.slt env.flags) :
    elfGetSymbolAddress env mem table idx =
      if known env mem table idx = null then
        if stBind mem (symbolOf env mem table idx) &&& stbWeak ≠ 0 then some 0 else some elfFail
      else some (known env mem table idx) := by
  have hkernel : ¬ (env.flags ≠ elfKernel ∧ env.flags ≠ elfDriver) := by
    rw [not_and_or, not_not, not_not]
    exact h.flags
  rw [h.toInTable.get_eq hflags, if_pos h.undefined, if_neg hkernel]

theorem Resolves.get_eq {v : Addr} (h : Resolves env mem table idx v)
    (hflags : ¬ elfDriver.slt env.flags) : elfGetSymbolAddress env mem table idx = some v := by
  cases h with
  | external hexternal hknown => rw [hexternal.get_eq hflags, if_neg hknown]
  | weak hexternal hunknown hweak =>
    have hbit : stbWeak &&& stbWeak ≠ 0 := by decide
    rw [hexternal.get_eq hflags, if_pos hunknown, hweak, if_pos hbit]
  | absolute htable habs =>
    have hdefined : shnAbs ≠ shnUndef := by decide
    rw [htable.get_eq hflags, habs, if_neg hdefined, if_pos rfl]
  | internal htable hdefined hrelative =>
    rw [htable.get_eq hflags, if_neg hdefined, if_neg hrelative]

theorem TakenForWeak.get_eq (h : TakenForWeak env mem table idx)
    (hflags : ¬ elfDriver.slt env.flags) : elfGetSymbolAddress env mem table idx = some 0 := by
  rw [h.toExternal.get_eq hflags, if_pos h.unknown, if_pos h.bit]

/-- A symbol that is found has its value, or is taken for a weak one. -/
theorem resolves_of_get {v : Addr} (h : elfGetSymbolAddress env mem table idx = some v)
    (hv : v ≠ elfFail) : Resolves env mem table idx v ∨ TakenForWeak env mem table idx := by
  have hvalid : ¬ (table = 0 ∨ idx = 0 ∨ elfDriver.slt env.flags) := by
    intro hinvalid
    rw [elfGetSymbolAddress, if_pos hinvalid] at h
    exact hv (Option.some.inj h).symm
  have hentsize : shEntsize mem (elfSection env mem (table.signExtend 64)) ≠ 0 := by
    intro hzero
    rw [elfGetSymbolAddress, if_neg hvalid] at h
    simp only [hzero, if_true] at h
    contradiction
  have hbound : ¬ shSize mem (elfSection env mem (table.signExtend 64)) /
      shEntsize mem (elfSection env mem (table.signExtend 64)) ≤ idx := by
    intro hbeyond
    rw [elfGetSymbolAddress, if_neg hvalid] at h
    simp only [hentsize, hbeyond, if_false, if_true] at h
    exact hv (Option.some.inj h).symm
  simp only [not_or] at hvalid
  obtain ⟨htable, hidx, hflags⟩ := hvalid
  have hin : InTable env mem table idx := ⟨htable, hidx, hentsize, BitVec.not_le.mp hbound⟩
  rw [hin.get_eq hflags] at h
  split_ifs at h with hundefined hforeign hunknown hbit habs
  · exact absurd (Option.some.inj h).symm hv
  · rw [not_and_or, not_not, not_not] at hforeign
    have hexternal : External env mem table idx := ⟨hin, hundefined, hforeign⟩
    obtain rfl := Option.some.inj h
    by_cases hweak : stBind mem (symbolOf env mem table idx) = stbWeak
    · exact .inl (.weak hexternal hunknown hweak)
    · exact .inr ⟨hexternal, hunknown, hbit, hweak⟩
  · exact absurd (Option.some.inj h).symm hv
  · rw [not_and_or, not_not, not_not] at hforeign
    obtain rfl := Option.some.inj h
    exact .inl (.external ⟨hin, hundefined, hforeign⟩ hunknown)
  · obtain rfl := Option.some.inj h
    exact .inl (.absolute hin habs)
  · obtain rfl := Option.some.inj h
    exact .inl (.internal hin hundefined habs)

end Symbols

section Entries

variable (env : Environment) (mem : Memory) (sec : Addr) (rela : Bool) (idx : BitVec 32)

/-- `r_info` of an entry, and the index of its symbol and its type. -/
def infoOf : BitVec 64 := load64 (view mem (entryAt env mem sec rela idx)) 8

def indexOf : BitVec 64 := infoOf env mem sec rela idx >>> 32

def typeOf : BitVec 64 := infoOf env mem sec rela idx &&& 0xffffffff

def targetOf : Addr :=
  referenceOf env mem sec (load64 (view mem (entryAt env mem sec rela idx)) 0)

def addendOf : Addr :=
  if rela then ((load64 (view mem (entryAt env mem sec rela idx)) 16).setWidth 32).signExtend 64
  else load64 (view mem (targetOf env mem sec rela idx)) 0

def appliedWith (v : Addr) : Option Memory :=
  relocated mem (typeOf env mem sec rela idx) (targetOf env mem sec rela idx) v
    (addendOf env mem sec rela idx)

def ValueOf (v : Addr) : Prop :=
  if indexOf env mem sec rela idx = 0 then v = 0
  else Resolves env mem (shLink mem sec) (indexOf env mem sec rela idx) v

/-- An entry without a symbol, or whose symbol has a value that is applied: the value 1 is not,
so that there must be nothing to write. -/
def Sound : Prop :=
  ∃ v mem', ValueOf env mem sec rela idx v ∧ appliedWith env mem sec rela idx v = some mem' ∧
    (indexOf env mem sec rela idx ≠ 0 → v = elfFail → mem' = mem)

/-- An entry with a type that is not supported, whose symbol does not fail before. -/
def Reported : Prop :=
  (∃ v, ValueOf env mem sec rela idx v ∧ (indexOf env mem sec rela idx ≠ 0 → v ≠ elfFail) ∨
      indexOf env mem sec rela idx ≠ 0 ∧
        TakenForWeak env mem (shLink mem sec) (indexOf env mem sec rela idx)) ∧
    typeOf env mem sec rela idx ∉ [rNone, r64, r32, rPc32]

variable {env mem sec rela idx}

theorem relocateEntry_eq : relocateEntry env mem sec rela idx =
    relocateWith env mem sec (load64 (view mem (entryAt env mem sec rela idx)) 0)
      (infoOf env mem sec rela idx) (addendOf env mem sec rela idx) := by
  cases rela <;> rfl

theorem relocated_eq_none {type reference v addend : Addr} :
    relocated mem type reference v addend = none ↔ type ∉ [rNone, r64, r32, rPc32] := by
  have hplt : rPlt32 ≠ rPc32 := by decide
  unfold relocated
  split_ifs with h0 h1 h2 h3 h4 <;> simp_all

/-- What an entry does once its symbol is found: it is applied, or its failure is reported. -/
theorem relocateEntry_found {v : Addr} (hfound : indexOf env mem sec rela idx = 0 ∧ v = 0 ∨
      indexOf env mem sec rela idx ≠ 0 ∧ v ≠ elfFail ∧
        elfGetSymbolAddress env mem (shLink mem sec) (indexOf env mem sec rela idx) = some v) :
    relocateEntry env mem sec rela idx =
      match appliedWith env mem sec rela idx v with
      | none => some (elfFail, mem)
      | some mem' => some (v, mem') := by
  rw [relocateEntry_eq, relocateWith]
  rcases hfound with ⟨hindex, rfl⟩ | ⟨hindex, hv, hget⟩
  · have hnone : ¬ infoOf env mem sec rela idx >>> 32 ≠ 0 := not_not.mpr hindex
    rw [if_neg hnone]
    exact if_neg fun hboth => hnone hboth.1
  · have hsome : infoOf env mem sec rela idx >>> 32 ≠ 0 := hindex
    rw [if_pos hsome]
    exact (congrArg (Option.bind · _) hget).trans (if_neg fun hboth => hv hboth.2)

/-- An entry whose symbol is not found is passed over. -/
theorem relocateEntry_failed (hindex : indexOf env mem sec rela idx ≠ 0)
    (hfailed : elfGetSymbolAddress env mem (shLink mem sec) (indexOf env mem sec rela idx) =
      some elfFail) :
    relocateEntry env mem sec rela idx = some (-1, mem) := by
  have hsome : infoOf env mem sec rela idx >>> 32 ≠ 0 := hindex
  rw [relocateEntry_eq, relocateWith, if_pos hsome]
  exact (congrArg (Option.bind · _) hfailed).trans (if_pos ⟨hsome, rfl⟩)

theorem relocateEntry_divided (hindex : indexOf env mem sec rela idx ≠ 0)
    (hdivided : elfGetSymbolAddress env mem (shLink mem sec) (indexOf env mem sec rela idx) =
      none) :
    relocateEntry env mem sec rela idx = none := by
  have hsome : infoOf env mem sec rela idx >>> 32 ≠ 0 := hindex
  rw [relocateEntry_eq, relocateWith, if_pos hsome]
  exact congrArg (Option.bind · _) hdivided

/-- The types that are not supported are those that nothing is written for. -/
theorem appliedWith_eq_none {v : Addr} : appliedWith env mem sec rela idx v = none ↔
    typeOf env mem sec rela idx ∉ [rNone, r64, r32, rPc32] := relocated_eq_none

theorem Reported.relocateEntry_eq (h : Reported env mem sec rela idx)
    (hflags : ¬ elfDriver.slt env.flags) :
    relocateEntry env mem sec rela idx = some (elfFail, mem) := by
  obtain ⟨⟨v, ⟨hvalue, hv⟩ | ⟨hindex, htaken⟩⟩, htype⟩ := h
  · by_cases hindex : indexOf env mem sec rela idx = 0
    · rw [ValueOf, if_pos hindex] at hvalue
      rw [relocateEntry_found (.inl ⟨hindex, hvalue⟩), appliedWith_eq_none.mpr htype]
    · rw [ValueOf, if_neg hindex] at hvalue
      rw [relocateEntry_found (.inr ⟨hindex, hv hindex, hvalue.get_eq hflags⟩),
        appliedWith_eq_none.mpr htype]
  · have hzero : (0 : Addr) ≠ elfFail := by decide
    rw [relocateEntry_found (.inr ⟨hindex, hzero, htaken.get_eq hflags⟩),
      appliedWith_eq_none.mpr htype]

/-- A failure that the load looks for is one of the type. -/
theorem reported_of_fail {mem' : Memory}
    (h : relocateEntry env mem sec rela idx = some (elfFail, mem')) :
    Reported env mem sec rela idx := by
  have hzero : (0 : Addr) ≠ elfFail := by decide
  by_cases hindex : indexOf env mem sec rela idx = 0
  · have hvalue : ValueOf env mem sec rela idx 0 := by rw [ValueOf, if_pos hindex]
    rw [relocateEntry_found (.inl ⟨hindex, rfl⟩)] at h
    refine ⟨⟨0, .inl ⟨hvalue, fun hne => absurd hindex hne⟩⟩,
      (appliedWith_eq_none (v := 0)).mp ?_⟩
    cases happlied : appliedWith env mem sec rela idx 0 with
    | none => rfl
    | some mem'' =>
      rw [happlied] at h
      exact absurd (congrArg Prod.fst (Option.some.inj h)) hzero
  · cases hget : elfGetSymbolAddress env mem (shLink mem sec) (indexOf env mem sec rela idx) with
    | none =>
      rw [relocateEntry_divided hindex hget] at h
      contradiction
    | some v =>
      by_cases hv : v = elfFail
      · rw [relocateEntry_failed hindex (hv ▸ hget)] at h
        have hminus : (-1 : Addr) ≠ elfFail := by decide
        exact absurd (congrArg Prod.fst (Option.some.inj h)) hminus
      · rw [relocateEntry_found (.inr ⟨hindex, hv, hget⟩)] at h
        have htype : appliedWith env mem sec rela idx v = none := by
          cases happlied : appliedWith env mem sec rela idx v with
          | none => rfl
          | some mem'' =>
            rw [happlied] at h
            exact absurd (congrArg Prod.fst (Option.some.inj h)) hv
        refine ⟨⟨v, ?_⟩, appliedWith_eq_none.mp htype⟩
        rcases resolves_of_get hget hv with hresolves | htaken
        · exact .inl ⟨by rwa [ValueOf, if_neg hindex], fun _ => hv⟩
        · exact .inr ⟨hindex, htaken⟩

end Entries

section Runs

def result (s : Load) : Option CInt :=
  match s.position with
  | .returned r => some r
  | _ => none

structure AtEntry (s : Load) (i : BitVec 32) (rela : Bool) (idx : BitVec 32) : Prop where
  position : s.position = .entry i rela idx
  entsize : shEntsize s.mem (s.shdrAt i) ≠ 0
  bound : idx.setWidth 64 < shSize s.mem (s.shdrAt i) / shEntsize s.mem (s.shdrAt i)

variable (env : Environment) (mem : Memory)

def Applied (s : Load) (i : BitVec 32) (rela : Bool) (idx : BitVec 32) : Prop :=
  ∃ v mem', ValueOf env s.mem (s.shdrAt i) rela idx v ∧
    appliedWith env s.mem (s.shdrAt i) rela idx v = some mem' ∧ (step env s).mem = mem'

structure Past (s : Load) (i : BitVec 32) (rela : Bool) (idx : BitVec 32) : Prop where
  position : s.position = .entry i rela idx
  entsize : shEntsize s.mem (s.shdrAt i) ≠ 0
  bound : shSize s.mem (s.shdrAt i) / shEntsize s.mem (s.shdrAt i) ≤ idx.setWidth 64

structure Covers : Prop where
  sections : ∀ s, Reaches (step env) (elfLoadRelocatable env mem) s → result s = some 0 →
    ∀ i < (eShnum env s.mem).setWidth 32,
      ∃ t, Reaches (step env) (elfLoadRelocatable env mem) t ∧ t.position = .scan i
  entries : ∀ s i rela, Reaches (step env) (elfLoadRelocatable env mem) s →
    s.position = .scan i → i < (eShnum env s.mem).setWidth 32 →
    shType s.mem (s.shdrAt i) = (if rela then shtRela else shtRel) →
    ∃ t last, Reaches (step env) s t ∧ Past t i rela last ∧
      ∀ idx < last, ∃ u, Reaches (step env) s u ∧ AtEntry u i rela idx

/-- Every entry that the load comes to is applied, or the load fails; and it comes to all entries
if it succeeds. -/
structure AllOrNothing : Prop where
  covers : Returns (step env) result (elfLoadRelocatable env mem) 0 → Covers env mem
  applied : ∀ s, Reaches (step env) (elfLoadRelocatable env mem) s →
    ∀ i rela idx, AtEntry s i rela idx → Applied env s i rela idx ∨
      ∃ r, r ≠ 0 ∧ Returns (step env) result (elfLoadRelocatable env mem) r

variable {env mem} {s : Load} {i : BitVec 32} {rela : Bool} {idx : BitVec 32}

theorem result_stays : Stays (step env) result := by
  intro s hresult
  cases hposition : s.position <;> simp_all [result, step]

theorem AtEntry.step_eq (h : AtEntry s i rela idx) :
    step env s =
      match relocateEntry env s.mem (s.shdrAt i) rela idx with
      | none => { s with position := .divided }
      | some (r, mem') =>
        if r = elfFail then { s with mem := mem', position := .returned (-1) }
        else { s with mem := mem', position := .entry i rela (idx + 1) } := by
  cases hentry : relocateEntry env s.mem (s.shdrAt i) rela idx with
  | none => simp only [step, h.position, h.entsize, h.bound, hentry, if_true, if_false]
  | some returned => simp only [step, h.position, h.entsize, h.bound, hentry, if_true, if_false]

theorem AtEntry.step_mem (h : AtEntry s i rela idx) {r : Addr} {mem' : Memory}
    (hentry : relocateEntry env s.mem (s.shdrAt i) rela idx = some (r, mem')) :
    (step env s).mem = mem' := by
  rw [h.step_eq, hentry]
  dsimp only
  split_ifs <;> simp

/-- A load comes to entries only with flags that it allows. -/
theorem flags_of_entry (hreach : Reaches (step env) (elfLoadRelocatable env mem) s)
    (h : AtEntry s i rela idx) : ¬ elfDriver.slt env.flags := by
  intro hslt
  have hstart : result (elfLoadRelocatable env mem) = some (-1) := by
    simp only [elfLoadRelocatable, hslt, or_true, if_true, result]
  obtain ⟨n, rfl⟩ := hreach
  have hposition := h.position
  rw [result_stays.iterate hstart] at hposition
  simp [result, hposition] at hstart

theorem sound_of_applied (hflags : ¬ elfDriver.slt env.flags) (h : AtEntry s i rela idx)
    (happlied : Applied env s i rela idx) : Sound env s.mem (s.shdrAt i) rela idx := by
  obtain ⟨v, mem', hvalue, hmem, hstep⟩ := happlied
  refine ⟨v, mem', hvalue, hmem, fun hindex hv => ?_⟩
  rw [ValueOf, if_neg hindex, hv] at hvalue
  rw [← hstep, h.step_mem (relocateEntry_failed hindex (hvalue.get_eq hflags))]

theorem applied_of_sound (hflags : ¬ elfDriver.slt env.flags) (h : AtEntry s i rela idx)
    (hsound : Sound env s.mem (s.shdrAt i) rela idx) : Applied env s i rela idx := by
  obtain ⟨v, mem', hvalue, hmem, hnothing⟩ := hsound
  refine ⟨v, mem', hvalue, hmem, ?_⟩
  by_cases hindex : indexOf env s.mem (s.shdrAt i) rela idx = 0
  · rw [ValueOf, if_pos hindex] at hvalue
    refine h.step_mem (r := v) ?_
    rw [relocateEntry_found (.inl ⟨hindex, hvalue⟩), hmem]
  · rw [ValueOf, if_neg hindex] at hvalue
    have hget := hvalue.get_eq hflags
    by_cases hv : v = elfFail
    · rw [hnothing hindex hv]
      exact h.step_mem (relocateEntry_failed hindex (hv ▸ hget))
    · refine h.step_mem (r := v) ?_
      rw [relocateEntry_found (.inr ⟨hindex, hv, hget⟩), hmem]

/-- Nothing but a reported entry makes a load fail that has begun. -/
theorem reported_of_step {r : CInt} (hbefore : result s = none)
    (hafter : result (step env s) = some r) (hr : r ≠ 0) :
    ∃ i rela idx, AtEntry s i rela idx ∧ Reported env s.mem (s.shdrAt i) rela idx := by
  cases hposition : s.position with
  | prepare i =>
    unfold step at hafter
    simp only [hposition] at hafter
    split_ifs at hafter <;> simp [result] at hafter
  | scan i =>
    unfold step at hafter
    simp only [hposition] at hafter
    split_ifs at hafter <;> simp [result] at hafter
    exact absurd hafter.symm hr
  | entry i rela idx =>
    by_cases hentsize : shEntsize s.mem (s.shdrAt i) = 0
    · unfold step at hafter
      simp [hposition, hentsize, result] at hafter
    · by_cases hbound : idx.setWidth 64 < shSize s.mem (s.shdrAt i) / shEntsize s.mem (s.shdrAt i)
      · have h : AtEntry s i rela idx := ⟨hposition, hentsize, hbound⟩
        refine ⟨i, rela, idx, h, ?_⟩
        rw [h.step_eq] at hafter
        cases hentry : relocateEntry env s.mem (s.shdrAt i) rela idx with
        | none => simp [hentry, result] at hafter
        | some returned =>
          by_cases hfail : returned.1 = elfFail
          · exact reported_of_fail (hentry.trans (congrArg some (Prod.ext hfail rfl)))
          · simp [hentry, hfail, result] at hafter
      · unfold step at hafter
        simp only [hposition, hentsize, hbound, if_false] at hafter
        simp [result] at hafter
  | returned r' => simp [result, hposition] at hbefore
  | divided =>
    unfold step at hafter
    simp only [hposition] at hafter
    simp [result, hposition] at hafter

variable (env mem) in
def Scanned (s : Load) : Prop :=
  let visited (j : BitVec 32) : Prop :=
    ∃ t, Reaches (step env) (elfLoadRelocatable env mem) t ∧ t.position = .scan j
  match s.position with
  | .prepare _ => True
  | .scan i => ∀ j ≤ i, visited j
  | .entry i _ _ => i.toNat < 2 ^ 16 ∧ ∀ j ≤ i, visited j
  | .returned r => r = 0 → ∀ j < (eShnum env s.mem).setWidth 32, visited j
  | .divided => True

variable (env) in
theorem scan_cases (hposition : s.position = .scan i) :
    i < (eShnum env s.mem).setWidth 32 ∧
        (shType s.mem (s.shdrAt i) = shtRel ∧ step env s = { s with position := .entry i false 0 } ∨
          shType s.mem (s.shdrAt i) = shtRela ∧
            step env s = { s with position := .entry i true 0 } ∨
          shType s.mem (s.shdrAt i) ≠ shtRel ∧ shType s.mem (s.shdrAt i) ≠ shtRela ∧
            step env s = { s with position := .scan (i + 1) }) ∨
      ¬ i < (eShnum env s.mem).setWidth 32 ∧ step env s = { s with position := .returned 0 } := by
  unfold step
  simp only [hposition]
  split_ifs with hlt hrel hrela
  · exact .inl ⟨hlt, .inl ⟨hrel, rfl⟩⟩
  · exact .inl ⟨hlt, .inr (.inl ⟨hrela, rfl⟩)⟩
  · exact .inl ⟨hlt, .inr (.inr ⟨hrel, hrela, rfl⟩)⟩
  · exact .inr ⟨hlt, rfl⟩

variable (env) in
theorem entry_cases (hposition : s.position = .entry i rela idx) :
    (step env s).position = .divided ∨
      Past s i rela idx ∧ (step env s).position = .scan (i + 1) ∨
      AtEntry s i rela idx ∧ ((step env s).position = .returned (-1) ∨
        (step env s).position = .entry i rela (idx + 1)) := by
  by_cases hentsize : shEntsize s.mem (s.shdrAt i) = 0
  · left
    unfold step
    simp [hposition, hentsize]
  · by_cases hbound : idx.setWidth 64 < shSize s.mem (s.shdrAt i) / shEntsize s.mem (s.shdrAt i)
    · have h : AtEntry s i rela idx := ⟨hposition, hentsize, hbound⟩
      rw [h.step_eq]
      cases relocateEntry env s.mem (s.shdrAt i) rela idx with
      | none => simp
      | some returned =>
        by_cases hfail : returned.1 = elfFail <;> simp [hfail, h]
    · refine .inr (.inl ⟨⟨hposition, hentsize, BitVec.not_lt.mp hbound⟩, ?_⟩)
      unfold step
      simp only [hposition, hentsize, hbound, if_false]

theorem scanned_step (hreach : Reaches (step env) (elfLoadRelocatable env mem) s)
    (h : Scanned env mem s) : Scanned env mem (step env s) := by
  have hnext := hreach.next
  have hself {j k : BitVec 32} (hscan : (step env s).position = .scan k) (hj : j = k) :
      ∃ t, Reaches (step env) (elfLoadRelocatable env mem) t ∧ t.position = .scan j :=
    ⟨_, hnext, hj ▸ hscan⟩
  cases hposition : s.position with
  | prepare i =>
    have hcases : (∃ j, (step env s).position = .prepare j) ∨ (step env s).position = .scan 0 := by
      unfold step
      simp only [hposition]
      split_ifs <;> simp
    rcases hcases with ⟨j, hprepare⟩ | hscan
    · simp [Scanned, hprepare]
    · simp only [Scanned, hscan]
      exact fun j hj => hself hscan (by bv_omega)
  | scan i =>
    have hbefore : ∀ j ≤ i,
        ∃ t, Reaches (step env) (elfLoadRelocatable env mem) t ∧ t.position = .scan j := by
      simpa [Scanned, hposition] using h
    have hsmall : i < (eShnum env s.mem).setWidth 32 → i.toNat < 2 ^ 16 := by
      intro hlt
      rw [BitVec.lt_def] at hlt
      have hbits := (eShnum env s.mem).isLt
      simp only [BitVec.toNat_setWidth] at hlt
      omega
    rcases scan_cases env hposition with ⟨hlt, ⟨-, hstep⟩ | ⟨-, hstep⟩ | ⟨-, -, hstep⟩⟩ |
      ⟨hend, hstep⟩
    · rw [hstep]
      exact ⟨hsmall hlt, hbefore⟩
    · rw [hstep]
      exact ⟨hsmall hlt, hbefore⟩
    · have hscan : (step env s).position = .scan (i + 1) := by rw [hstep]
      simp only [Scanned, hscan]
      intro j hj
      by_cases hle : j ≤ i
      · exact hbefore j hle
      · have hi := hsmall hlt
        exact hself hscan (by bv_omega)
    · rw [hstep]
      exact fun _ j hj => hbefore j (by bv_omega)
  | entry i rela idx =>
    obtain ⟨hi, hbefore⟩ : i.toNat < 2 ^ 16 ∧ ∀ j ≤ i,
        ∃ t, Reaches (step env) (elfLoadRelocatable env mem) t ∧ t.position = .scan j := by
      simpa [Scanned, hposition] using h
    rcases entry_cases env hposition with hdivided | ⟨-, hscan⟩ | ⟨-, hfailed | hentry⟩
    · simp [Scanned, hdivided]
    · simp only [Scanned, hscan]
      intro j hj
      by_cases hle : j ≤ i
      · exact hbefore j hle
      · exact hself hscan (by bv_omega)
    · simp [Scanned, hfailed]
    · simp only [Scanned, hentry]
      exact ⟨hi, hbefore⟩
  | returned r =>
    have hstay : step env s = s := result_stays s (by simp [result, hposition])
    rwa [hstay]
  | divided =>
    have hstay : (step env s).position = .divided := by
      unfold step
      simp [hposition]
    simp [Scanned, hstay]

/-- A load that succeeds comes to the end of a section's entries. -/
theorem entries_of_returns {n : ℕ} {last : BitVec 32} {t : Load}
    (hn : result ((step env)^[n] t) = some 0) (ht : t.position = .entry i rela last)
    (hreach : Reaches (step env) s t)
    (hbefore : ∀ idx < last, ∃ u, Reaches (step env) s u ∧ AtEntry u i rela idx) :
    ∃ t last, Reaches (step env) s t ∧ Past t i rela last ∧
      ∀ idx < last, ∃ u, Reaches (step env) s u ∧ AtEntry u i rela idx := by
  induction n generalizing t last with
  | zero => simp [result, ht] at hn
  | succ n ih =>
    rw [Function.iterate_succ_apply] at hn
    rcases entry_cases env ht with hdivided | ⟨hpast, -⟩ | ⟨hat, hfailed | hentry⟩
    · have hstay : step env (step env t) = step env t := by
        rw [step, hdivided]
      rw [Function.iterate_fixed hstay] at hn
      simp [result, hdivided] at hn
    · exact ⟨t, last, hreach, hpast, hbefore⟩
    · have hminus : result (step env t) = some (-1) := by simp [result, hfailed]
      rw [result_stays.iterate hminus, hminus] at hn
      contradiction
    · refine ih hn hentry hreach.next fun idx hidx => ?_
      by_cases hlt : idx < last
      · exact hbefore idx hlt
      · obtain rfl : idx = last := by bv_omega
        exact ⟨t, hreach, hat⟩

theorem covers_of_returns
    (h : Returns (step env) result (elfLoadRelocatable env mem) 0) : Covers env mem := by
  constructor
  · intro s hreach hresult
    have hstart : Scanned env mem (elfLoadRelocatable env mem) := by
      unfold elfLoadRelocatable
      split_ifs <;> simp [Scanned]
    have hscanned := hreach.induct hstart fun u hu => scanned_step hu
    cases hposition : s.position with
    | returned r =>
      obtain rfl : r = 0 := by simpa [result, hposition] using hresult
      simp only [Scanned, hposition] at hscanned
      exact hscanned trivial
    | prepare i => simp [result, hposition] at hresult
    | scan i => simp [result, hposition] at hresult
    | entry i rela idx => simp [result, hposition] at hresult
    | divided => simp [result, hposition] at hresult
  · intro s i rela hreach hposition hlt htype
    have hstep : step env s = { s with position := .entry i rela 0 } := by
      rcases scan_cases env hposition with
        ⟨-, ⟨hrel, hstep⟩ | ⟨hrela, hstep⟩ | ⟨hrel, hrela, -⟩⟩ | ⟨hend, -⟩
      · cases rela with
        | false => exact hstep
        | true => simp [hrel, shtRel, shtRela] at htype
      · cases rela with
        | false => simp [hrela, shtRel, shtRela] at htype
        | true => exact hstep
      · cases rela <;> simp_all
      · contradiction
    obtain ⟨n, hn⟩ := result_stays.returns_of_reaches hreach.next h
    have hbefore : ∀ idx < (0 : BitVec 32),
        ∃ u, Reaches (step env) s u ∧ AtEntry u i rela idx := by
      intro idx hidx
      bv_omega
    exact entries_of_returns hn (by rw [hstep]) (Reaches.refl _ s).next hbefore

/-- A load is all or nothing if and only if every entry that it comes to is sound, or one that it
comes to is reported. -/
theorem all_or_nothing_iff (env : Environment) (mem : Memory) :
    AllOrNothing env mem ↔
      (∀ s, Reaches (step env) (elfLoadRelocatable env mem) s → ∀ i rela idx,
          AtEntry s i rela idx → Sound env s.mem (s.shdrAt i) rela idx) ∨
        ∃ s, Reaches (step env) (elfLoadRelocatable env mem) s ∧ ∃ i rela idx,
          AtEntry s i rela idx ∧ Reported env s.mem (s.shdrAt i) rela idx := by
  constructor
  · intro hall
    by_cases hreported : ∃ s, Reaches (step env) (elfLoadRelocatable env mem) s ∧
        ∃ i rela idx, AtEntry s i rela idx ∧ Reported env s.mem (s.shdrAt i) rela idx
    · exact .inr hreported
    · refine .inl fun s hreach i rela idx h => ?_
      have hflags := flags_of_entry hreach h
      rcases hall.applied s hreach i rela idx h with happlied | ⟨r, hr, hreturns⟩
      · exact sound_of_applied hflags h happlied
      · rcases result_stays.last_step hreturns with hstart | ⟨t, ht, hbefore, hafter⟩
        · obtain ⟨n, rfl⟩ := hreach
          have hposition := h.position
          rw [result_stays.iterate hstart] at hposition
          simp [result, hposition] at hstart
        · exact absurd ⟨t, ht, reported_of_step hbefore hafter hr⟩ hreported
  · refine fun hcondition => ⟨covers_of_returns, fun s hreach j rela' idx' h => ?_⟩
    rcases hcondition with hsound | ⟨t, ht, i, rela, idx, hat, hreported⟩
    · exact .inl (applied_of_sound (flags_of_entry hreach h) h (hsound s hreach j rela' idx' h))
    · have hflags := flags_of_entry hreach h
      refine .inr ⟨-1, by decide, ht.returns ⟨1, ?_⟩⟩
      rw [Function.iterate_one, hat.step_eq, hreported.relocateEntry_eq hflags]
      simp [result]

/-- A file with one relocation, for an external symbol that is not weak: the file header, the
headers of the null section, the symbol table and the relocation section, and the last two. -/
def unresolved : List Byte :=
  List.replicate 40 0 ++ bytes32 64 ++ List.replicate 16 0 ++ bytes16 3 ++ List.replicate 66 0 ++
    (bytes32 0 ++ bytes32 2 ++ List.replicate 16 0 ++ bytes32 256 ++ bytes32 0 ++ bytes32 48 ++
      List.replicate 20 0 ++ bytes32 24 ++ bytes32 0) ++
    (bytes32 0 ++ bytes32 4 ++ List.replicate 16 0 ++ bytes32 304 ++ bytes32 0 ++ bytes32 24 ++
      bytes32 0 ++ bytes32 1 ++ List.replicate 12 0 ++ bytes32 24 ++ bytes32 0) ++
    (List.replicate 28 0 ++ [0x10] ++ List.replicate 19 0) ++
    (bytes32 0x1000 ++ bytes32 0 ++ bytes32 1 ++ bytes32 1 ++ bytes32 0 ++ bytes32 0)

def unknowing : Environment := ⟨0x10000, elfDriver, fun _ => 0, fun _ _ => 0, fun _ _ => 0⟩

def unresolvedLoad : Load :=
  elfLoadRelocatable unknowing fun a => ofList unresolved (fun _ => 0) (a - 0x10000).toNat

/-- The load of the file succeeds, and the one relocation is not applied. -/
theorem unresolved_succeeds :
    Returns (step unknowing) result unresolvedLoad 0 ∧
      ¬ AllOrNothing unknowing fun a => ofList unresolved (fun _ => 0) (a - 0x10000).toNat := by
  have hreturns : Returns (step unknowing) result unresolvedLoad 0 := ⟨10, by decide +kernel⟩
  refine ⟨hreturns, fun hall => ?_⟩
  have hat : AtEntry ((step unknowing)^[7] unresolvedLoad) 2 true 0 :=
    ⟨by decide +kernel, by decide +kernel, by decide +kernel⟩
  rcases hall.applied _ ⟨7, rfl⟩ 2 true 0 hat with ⟨v, mem', hvalue, -, -⟩ | ⟨r, hr, hother⟩
  · rw [ValueOf, if_neg (by decide +kernel)] at hvalue
    cases hvalue with
    | external _ hknown => exact hknown rfl
    | weak _ _ hweak => exact absurd hweak (by decide +kernel)
    | absolute _ habs => exact absurd habs (by decide +kernel)
    | internal _ hdefined _ => exact hdefined (by decide +kernel)
  · exact hr (result_stays.returns_unique hother hreturns)

end Runs

end ReduceOS.DriverRelocation
