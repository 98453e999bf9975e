import ReduceOS.Pmm

/-!
The frame searches of mem/pmm.c with the widths of their counters: the words and the frames of a
run are counted in 32 bits, and compared with numbers of 64. A number bounds the rounds of each
loop; a search that returns nothing under any bound does not end. The searches return the first
free frame, or the first run of them, under a condition on the last frames, on the upper halves of
the words and on what lies behind the bitmap.
-/
namespace ReduceOS.FrameSearch

open Machine Pmm

section Source

variable (s : State)

/-- The loop over the bits of a word. `enough` is what is asked of the frames from a free one on. -/
def bitLoop (enough : CInt → Option Bool) (i : BitVec 32) : List ℕ → Option (Option (BitVec 32))
  | [] => some none
  | bit :: bits =>
    if s.frames (i.toNat : ℕ) &&& frameMask bit = 0 then do
      if ← enough (i * 32 + BitVec.ofNat 32 bit) then
        some (some (i * 4 * 8 + BitVec.ofNat 32 bit))
      else bitLoop enough i bits
    else bitLoop enough i bits

def wordLoop (enough : CInt → Option Bool) : ℕ → BitVec 32 → Option (BitVec 32)
  | 0, _ => none
  | k + 1, i =>
    if i.toNat < indexBit s.nframes.toNat then
      if s.frames (i.toNat : ℕ) = 0xFFFFFFFF#64 then wordLoop enough k (i + 1)
      else do
        match ← bitLoop s enough i (List.range 32) with
        | some frame => some frame
        | none => wordLoop enough k (i + 1)
    else some (-enomem)

def findFirstFrame (k : ℕ) : Option (BitVec 32) := wordLoop s (fun _ => some true) k 0

def checkLoop (n : BitVec 64) (start : CInt) : ℕ → BitVec 32 → BitVec 32 → Option Bool
  | 0, _, _ => none
  | k + 1, check, freeBits =>
    if check.toNat < n.toNat then
      let freeBits := if testFrame s (start + check) = 0 then freeBits + 1 else freeBits
      if freeBits.toNat = n.toNat then some true else checkLoop n start k (check + 1) freeBits
    else some false

def findFirstFrames (n : BitVec 64) (k : ℕ) : Option CInt :=
  if n = 0 then some 0
  else if n = 1 then findFirstFrame s k
  else wordLoop s (fun start => checkLoop s n start k 0 0) k 0

end Source

section Outcomes

variable (s : State)

def accepts (g : ℕ) : Prop := s.frames (g / 32 : ℕ) &&& frameMask (g % 32) = 0

instance (g : ℕ) : Decidable (accepts s g) := inferInstanceAs (Decidable (_ = _))

def Stops (enough : CInt → Option Bool) (g : ℕ) : Prop :=
  accepts s g ∧ enough (BitVec.ofNat 32 g) = some true

def Passes (enough : CInt → Option Bool) (g : ℕ) : Prop :=
  accepts s g → enough (BitVec.ofNat 32 g) = some false

/-- The first frame at which a search stops, within the words that it looks at. -/
def First (enough : CInt → Option Bool) (g : ℕ) : Prop :=
  g < 32 * indexBit s.nframes.toNat ∧ g < 2 ^ 37 ∧ Stops s enough g ∧ ∀ h < g, Passes s enough h

def Exhausted (enough : CInt → Option Bool) : Prop :=
  indexBit s.nframes.toNat < 2 ^ 32 ∧ ∀ g < 32 * indexBit s.nframes.toNat, Passes s enough g

def Outcome (enough : CInt → Option Bool) (r : BitVec 32) : Prop :=
  (∃ g, First s enough g ∧ r = BitVec.ofNat 32 g) ∨ (Exhausted s enough ∧ r = -enomem)

variable {s} {enough : CInt → Option Bool} {i r : BitVec 32}

theorem getLsbD_frameMask_wide : ∀ bit < 32, ∀ j < 64,
    (frameMask bit).getLsbD j = decide (j = bit ∨ (bit = 31 ∧ 31 ≤ j)) := by
  decide +kernel

theorem frameMask_and :
    ∀ b < 32, ∀ c < 32, c ≠ b → frameMask b &&& frameMask c = 0#64 := by
  decide +kernel

theorem toNat_lt_iff (w : BitVec 64) :
    w.toNat < 2 ^ 32 ↔ ∀ j, 32 ≤ j → j < 64 → w.getLsbD j = false := by
  constructor
  · intro hw j hj _
    exact Nat.testBit_lt_two_pow (Nat.lt_of_lt_of_le hw (Nat.pow_le_pow_right (by decide) hj))
  · intro hclear
    apply Nat.lt_pow_two_of_testBit
    intro j hj
    by_cases hlt : j < 64
    · exact hclear j hj hlt
    · exact BitVec.getLsbD_of_ge w j (by omega)

/-- For the last bit of a word the test also looks at the upper half. -/
theorem accepts_iff (g : ℕ) : accepts s g ↔
    used s g = false ∧ (g % 32 = 31 → (s.frames (g / 32 : ℕ)).toNat < 2 ^ 32) := by
  have hbit : g % 32 < 32 := Nat.mod_lt g (by decide)
  have hmask := getLsbD_frameMask_wide (g % 32) hbit
  unfold accepts used
  constructor
  · intro hzero
    refine ⟨getLsbD_of_and_mask_eq_zero _ _ hbit hzero, fun hlast => ?_⟩
    rw [toNat_lt_iff]
    intro j hj hlt
    have hin : (frameMask (g % 32)).getLsbD j = true := by
      rw [hmask j hlt]
      exact decide_eq_true (Or.inr ⟨hlast, by omega⟩)
    have hj' : (s.frames (g / 32 : ℕ) &&& frameMask (g % 32)).getLsbD j = false := by
      rw [hzero]
      exact BitVec.getLsbD_zero
    rwa [BitVec.getLsbD_and, hin, Bool.and_true] at hj'
  · rintro ⟨hfree, hclear⟩
    apply BitVec.eq_of_getLsbD_eq
    intro j hj
    change _ = (0#64).getLsbD j
    rw [BitVec.getLsbD_and, hmask j hj, BitVec.getLsbD_zero, Bool.and_eq_false_iff,
      decide_eq_false_iff_not, not_or]
    by_cases hsame : j = g % 32
    · exact Or.inl (hsame ▸ hfree)
    · by_cases hlast : g % 32 = 31 ∧ 31 ≤ j
      · exact Or.inl ((toNat_lt_iff _).mp (hclear hlast.1) j (by omega) hj)
      · exact Or.inr ⟨hsame, hlast⟩

theorem not_accepts_of_used {g : ℕ} (h : used s g = true) : ¬ accepts s g := by
  rw [accepts_iff]
  simp [h]

theorem accepts_setFrame {f g : ℕ} (hf : f < 2 ^ 31) (hne : g ≠ f) :
    accepts (setFrame s (BitVec.ofNat 32 f)) g ↔ accepts s g := by
  unfold accepts setFrame State.setWord
  rw [wordOf_ofNat f hf, bitOf_ofNat f hf]
  by_cases hword : g / 32 = f / 32
  · have hbits : frameMask (f % 32) &&& frameMask (g % 32) = 0#64 :=
      frameMask_and _ (Nat.mod_lt f (by decide)) _ (Nat.mod_lt g (by decide)) (by omega)
    rw [hword]
    simp only [Function.update_self]
    rw [BitVec.and_comm, BitVec.and_or_distrib_left, BitVec.and_comm _ (frameMask (f % 32)), hbits,
      BitVec.or_zero, BitVec.and_comm]
  · have hne' : ((g / 32 : ℕ) : ℤ) ≠ (f / 32 : ℕ) := by omega
    simp only [Function.update_of_ne hne']

/-- A word of 32 frames that are all used, with nothing above them, has nothing to test. -/
theorem not_accepts_of_full {g : ℕ} (h : s.frames (g / 32 : ℕ) = 0xFFFFFFFF#64) :
    ¬ accepts s g := by
  have hfull : ∀ bit < 32, (0xFFFFFFFF#64).getLsbD bit = true := by decide
  apply not_accepts_of_used
  rw [used, h]
  exact hfull _ (Nat.mod_lt g (by decide))

end Outcomes

section Loops

variable {s : State} {enough : CInt → Option Bool} {i r : BitVec 32}

/-- The frame of a bit of a word, as either search computes it. -/
theorem frame_eq (m bit : ℕ) :
    BitVec.ofNat 32 m * 32 + BitVec.ofNat 32 bit = BitVec.ofNat 32 (32 * m + bit) ∧
      BitVec.ofNat 32 m * 4 * 8 + BitVec.ofNat 32 bit = BitVec.ofNat 32 (32 * m + bit) := by
  constructor <;> apply BitVec.eq_of_toNat_eq <;> simp <;> omega

theorem accepts_at {m b : ℕ} (hb : b < 32) :
    accepts s (32 * m + b) ↔ s.frames (m : ℕ) &&& frameMask b = 0 := by
  have hdiv : (32 * m + b) / 32 = m := by omega
  have hmod : (32 * m + b) % 32 = b := by omega
  rw [accepts, hdiv, hmod]

theorem toNat_word {m : ℕ} (hm : m < 2 ^ 32) : (BitVec.ofNat 32 m).toNat = m := by
  rw [BitVec.toNat_ofNat, Nat.mod_eq_of_lt hm]

/-- A search goes on behind a frame, or stops at it, or what it asks there never has an answer. -/
theorem passes_or_stops (s : State) (enough : CInt → Option Bool) (g : ℕ) :
    Passes s enough g ∨ Stops s enough g ∨ (accepts s g ∧ enough (BitVec.ofNat 32 g) = none) := by
  unfold Passes Stops
  by_cases haccept : accepts s g
  · cases hanswer : enough (BitVec.ofNat 32 g) with
    | none => exact Or.inr (Or.inr ⟨haccept, rfl⟩)
    | some found => cases found <;> simp [haccept]
  · exact Or.inl fun h => absurd h haccept

theorem not_passes_of_stops {g : ℕ} (h : Stops s enough g) : ¬ Passes s enough g := by
  intro hpass
  have hanswer := hpass h.1
  rw [h.2] at hanswer
  simp at hanswer

theorem bitLoop_cons {m b : ℕ} (hm : m < 2 ^ 32) (hb : b < 32) (bits : List ℕ) :
    bitLoop s enough (BitVec.ofNat 32 m) (b :: bits) =
      if accepts s (32 * m + b) then
        (enough (BitVec.ofNat 32 (32 * m + b))).bind fun found =>
          if found then some (some (BitVec.ofNat 32 (32 * m + b)))
          else bitLoop s enough (BitVec.ofNat 32 m) bits
      else bitLoop s enough (BitVec.ofNat 32 m) bits := by
  rw [bitLoop, toNat_word hm, (frame_eq m b).1, (frame_eq m b).2]
  exact if_congr (accepts_at hb).symm rfl rfl

theorem bitLoop_of_passes {m b : ℕ} (hm : m < 2 ^ 32) (hb : b < 32) (bits : List ℕ)
    (h : Passes s enough (32 * m + b)) :
    bitLoop s enough (BitVec.ofNat 32 m) (b :: bits) =
      bitLoop s enough (BitVec.ofNat 32 m) bits := by
  rw [bitLoop_cons hm hb]
  split_ifs with haccept
  · simp [h haccept]
  · rfl

theorem bitLoop_of_stops {m b : ℕ} (hm : m < 2 ^ 32) (hb : b < 32) (bits : List ℕ)
    (h : Stops s enough (32 * m + b)) :
    bitLoop s enough (BitVec.ofNat 32 m) (b :: bits) =
      some (some (BitVec.ofNat 32 (32 * m + b))) := by
  rw [bitLoop_cons hm hb, if_pos h.1]
  simp [h.2]

theorem bitLoop_of_none {m b : ℕ} (hm : m < 2 ^ 32) (hb : b < 32) (bits : List ℕ)
    (haccept : accepts s (32 * m + b))
    (hnone : enough (BitVec.ofNat 32 (32 * m + b)) = none) :
    bitLoop s enough (BitVec.ofNat 32 m) (b :: bits) = none := by
  rw [bitLoop_cons hm hb, if_pos haccept]
  simp [hnone]

/-- From some bit of a word on, the loop stops at the first frame that it can. -/
theorem bitLoop_sound {m : ℕ} (hm : m < 2 ^ 32) {bit l : ℕ} (hl : bit + l = 32)
    {found : Option (BitVec 32)}
    (h : bitLoop s enough (BitVec.ofNat 32 m) (List.range' bit l) = some found) :
    (∃ b < 32, Stops s enough (32 * m + b) ∧
        (∀ c, bit ≤ c → c < b → Passes s enough (32 * m + c)) ∧
        found = some (BitVec.ofNat 32 (32 * m + b))) ∨
    (found = none ∧ ∀ c, bit ≤ c → c < 32 → Passes s enough (32 * m + c)) := by
  induction l generalizing bit with
  | zero =>
    refine Or.inr ⟨?_, fun c hle hlt => by omega⟩
    simpa [bitLoop] using h.symm
  | succ l ih =>
    have hbit : bit < 32 := by omega
    rw [List.range'_succ] at h
    rcases passes_or_stops s enough (32 * m + bit) with hpass | hstop | ⟨haccept, hnone⟩
    · rw [bitLoop_of_passes hm hbit _ hpass] at h
      have hnext : ∀ c, bit ≤ c → (bit + 1 ≤ c → Passes s enough (32 * m + c)) →
          Passes s enough (32 * m + c) := by
        intro c hle hc
        rcases Nat.eq_or_lt_of_le hle with rfl | hlt
        · exact hpass
        · exact hc hlt
      rcases ih (by omega) h with ⟨b, hb, hstop, hbefore, rfl⟩ | ⟨rfl, hall⟩
      · exact Or.inl ⟨b, hb, hstop, fun c hle hlt => hnext c hle fun hc => hbefore c hc hlt, rfl⟩
      · exact Or.inr ⟨rfl, fun c hle hlt => hnext c hle fun hc => hall c hc hlt⟩
    · rw [bitLoop_of_stops hm hbit _ hstop] at h
      exact Or.inl ⟨bit, hbit, hstop, fun c hle hlt => by omega, (Option.some.inj h).symm⟩
    · rw [bitLoop_of_none hm hbit _ haccept hnone] at h
      contradiction

/-- Behind frames that it goes by, the loop stops where it can, or is through. -/
theorem bitLoop_complete {m : ℕ} (hm : m < 2 ^ 32) {bit b : ℕ} (hle : bit ≤ b) (hb : b ≤ 32)
    (hbefore : ∀ c, bit ≤ c → c < b → Passes s enough (32 * m + c)) :
    bitLoop s enough (BitVec.ofNat 32 m) (List.range' bit (32 - bit)) =
      bitLoop s enough (BitVec.ofNat 32 m) (List.range' b (32 - b)) := by
  induction hle using Nat.decreasingInduction with
  | self => rfl
  | of_succ bit hlt ih =>
    have hsucc : 32 - bit = 32 - (bit + 1) + 1 := by omega
    rw [hsucc, List.range'_succ,
      bitLoop_of_passes hm (by omega) _ (hbefore bit (Nat.le_refl bit) hlt)]
    exact ih fun c hle hlt => hbefore c (by omega) hlt

theorem wordLoop_succ {m : ℕ} (hm : m < 2 ^ 32) (hN : m < indexBit s.nframes.toNat) (k : ℕ) :
    wordLoop s enough (k + 1) (BitVec.ofNat 32 m) =
      if s.frames (m : ℕ) = 0xFFFFFFFF#64 then wordLoop s enough k (BitVec.ofNat 32 (m + 1))
      else (bitLoop s enough (BitVec.ofNat 32 m) (List.range' 0 32)).bind fun found =>
        match found with
        | some frame => some frame
        | none => wordLoop s enough k (BitVec.ofNat 32 (m + 1)) := by
  have hnext : BitVec.ofNat 32 m + 1 = BitVec.ofNat 32 (m + 1) := (BitVec.ofNat_add m 1).symm
  rw [wordLoop, toNat_word hm, if_pos hN, List.range_eq_range', hnext]
  rfl

theorem wordLoop_of_ge {m : ℕ} (hm : m < 2 ^ 32) (hN : indexBit s.nframes.toNat ≤ m) (k : ℕ) :
    wordLoop s enough (k + 1) (BitVec.ofNat 32 m) = some (-enomem) := by
  rw [wordLoop, toNat_word hm, if_neg (by omega)]

theorem passes_of_full {m b : ℕ} (hb : b < 32) (h : s.frames (m : ℕ) = 0xFFFFFFFF#64) :
    Passes s enough (32 * m + b) := by
  have hdiv : (32 * m + b) / 32 = m := by omega
  exact fun haccept => absurd haccept (not_accepts_of_full (by rwa [hdiv]))

theorem wordLoop_of_passes {m : ℕ} (hm : m < 2 ^ 32) (hN : m < indexBit s.nframes.toNat) (k : ℕ)
    (hall : ∀ b < 32, Passes s enough (32 * m + b)) :
    wordLoop s enough (k + 1) (BitVec.ofNat 32 m) =
      wordLoop s enough k (BitVec.ofNat 32 (m + 1)) := by
  have hbits : bitLoop s enough (BitVec.ofNat 32 m) (List.range' 0 32) = some none :=
    bitLoop_complete hm (Nat.zero_le 32) (Nat.le_refl 32) fun c _ hlt => hall c hlt
  rw [wordLoop_succ hm hN, hbits]
  split_ifs <;> rfl

theorem wordLoop_of_stops {m b : ℕ} (hm : m < 2 ^ 32) (hN : m < indexBit s.nframes.toNat) (k : ℕ)
    (hb : b < 32) (hstop : Stops s enough (32 * m + b))
    (hbefore : ∀ c < b, Passes s enough (32 * m + c)) :
    wordLoop s enough (k + 1) (BitVec.ofNat 32 m) = some (BitVec.ofNat 32 (32 * m + b)) := by
  have hbits : bitLoop s enough (BitVec.ofNat 32 m) (List.range' 0 32) =
      some (some (BitVec.ofNat 32 (32 * m + b))) := by
    refine (bitLoop_complete hm (Nat.zero_le b) (by omega) fun c _ hlt => hbefore c hlt).trans ?_
    rw [show 32 - b = 31 - b + 1 by omega, List.range'_succ, bitLoop_of_stops hm hb _ hstop]
  rw [wordLoop_succ hm hN, hbits, if_neg fun hfull =>
    not_passes_of_stops hstop (passes_of_full hb hfull)]
  rfl

/-- A round of the loop stops in its word, or goes by all of it. -/
theorem wordLoop_sound {m : ℕ} (hm : m < 2 ^ 32) (hN : m < indexBit s.nframes.toNat) {k : ℕ}
    (h : wordLoop s enough (k + 1) (BitVec.ofNat 32 m) = some r) :
    (∃ b < 32, Stops s enough (32 * m + b) ∧ (∀ c < b, Passes s enough (32 * m + c)) ∧
        r = BitVec.ofNat 32 (32 * m + b)) ∨
    ((∀ b < 32, Passes s enough (32 * m + b)) ∧
      wordLoop s enough k (BitVec.ofNat 32 (m + 1)) = some r) := by
  rw [wordLoop_succ hm hN] at h
  split_ifs at h with hfull
  · exact Or.inr ⟨fun b hb => passes_of_full hb hfull, h⟩
  · obtain ⟨found, hbits, hfound⟩ := Option.bind_eq_some_iff.mp h
    rcases bitLoop_sound hm (by rfl) hbits with ⟨b, hb, hstop, hbefore, rfl⟩ | ⟨rfl, hall⟩
    · exact Or.inl ⟨b, hb, hstop, fun c hc => hbefore c (Nat.zero_le c) hc,
        (Option.some.inj hfound).symm⟩
    · exact Or.inr ⟨fun b hb => hall b (Nat.zero_le b) hb, hfound⟩

/-- What a search returns is the first frame at which it stops, or that it is through. After the
last number of a word the loop starts again from the first. -/
theorem outcome_of_wordLoop {k m : ℕ} (hm : m < 2 ^ 32)
    (hpast : ∀ g < 32 * m, g < 32 * indexBit s.nframes.toNat → Passes s enough g)
    (h : wordLoop s enough k (BitVec.ofNat 32 m) = some r) : Outcome s enough r := by
  induction k generalizing m with
  | zero => simp [wordLoop] at h
  | succ k ih =>
    rcases Nat.lt_or_ge m (indexBit s.nframes.toNat) with hN | hN
    · have hword : ∀ b : ℕ, (∀ c < b, Passes s enough (32 * m + c)) →
          ∀ g < 32 * m + b, Passes s enough g := by
        intro b hb g hg
        rcases Nat.lt_or_ge g (32 * m) with hlt | hge
        · exact hpast g hlt (by omega)
        · have hc := hb (g - 32 * m) (by omega)
          rwa [Nat.add_sub_cancel' hge] at hc
      rcases wordLoop_sound hm hN h with ⟨b, hb, hstop, hbefore, rfl⟩ | ⟨hall, hrest⟩
      · exact Or.inl ⟨32 * m + b, ⟨by omega, by omega, hstop, hword b hbefore⟩, rfl⟩
      · by_cases hlast : m + 1 = 2 ^ 32
        · refine ih (m := 0) (by decide) (fun g hg => by omega) ?_
          rwa [hlast] at hrest
        · exact ih (by omega) (fun g hg _ => hword 32 hall g (by omega)) hrest
    · rw [wordLoop_of_ge hm hN] at h
      exact Or.inr ⟨⟨by omega, fun g hg => hpast g (by omega) hg⟩, (Option.some.inj h).symm⟩

/-- Words that the search goes by take a round each. -/
theorem wordLoop_skip (s : State) (enough : CInt → Option Bool) {m d k : ℕ} (hm : m + d < 2 ^ 32)
    (hN : m + d ≤ indexBit s.nframes.toNat)
    (hall : ∀ g < 32 * (m + d), Passes s enough g) :
    wordLoop s enough (k + d) (BitVec.ofNat 32 m) =
      wordLoop s enough k (BitVec.ofNat 32 (m + d)) := by
  induction d generalizing m with
  | zero => rfl
  | succ d ih =>
    rw [← Nat.add_assoc, wordLoop_of_passes (by omega) (by omega) _ fun b hb => hall _ (by omega),
      ih (by omega) (by omega) fun g hg => hall g (by omega),
      show m + 1 + d = m + (d + 1) by omega]

/-- With rounds enough a search returns what it comes to. -/
theorem wordLoop_of_outcome (h : Outcome s enough r) :
    ∃ K, ∀ k, K ≤ k → wordLoop s enough k 0 = some r := by
  rcases h with ⟨g, ⟨hg, hwide, hstop, hbefore⟩, rfl⟩ | ⟨⟨hN, hall⟩, rfl⟩
  · refine ⟨g / 32 + 1, fun k hk => ?_⟩
    have hsplit : 32 * (g / 32) + g % 32 = g := Nat.div_add_mod g 32
    obtain ⟨l, rfl⟩ := Nat.exists_eq_add_of_le' hk
    have hskip := wordLoop_skip s enough (m := 0) (d := g / 32) (k := l + 1)
      (by omega) (by omega) fun h hh => hbefore h (by omega)
    rw [show l + (g / 32 + 1) = l + 1 + g / 32 by omega]
    refine hskip.trans ?_
    rw [Nat.zero_add, wordLoop_of_stops (by omega) (by omega) l (b := g % 32) (by omega)
      (by rwa [hsplit]) fun c hc => hbefore _ (by omega), hsplit]
  · refine ⟨indexBit s.nframes.toNat + 1, fun k hk => ?_⟩
    obtain ⟨l, rfl⟩ := Nat.exists_eq_add_of_le' hk
    have hskip := wordLoop_skip s enough (m := 0)
      (d := indexBit s.nframes.toNat) (k := l + 1) (by omega) (by omega)
      fun g hg => hall g (by omega)
    rw [show l + (indexBit s.nframes.toNat + 1) = l + 1 + indexBit s.nframes.toNat by omega]
    refine hskip.trans ?_
    rw [Nat.zero_add, wordLoop_of_ge hN (Nat.le_refl _)]

end Loops

section Answers

variable {s : State} {enough enough' : CInt → Option Bool} {n : BitVec 64} {start : CInt}
  {r : BitVec 32}

def answer (s : State) (n : BitVec 64) : CInt → Option Bool := fun start =>
  if n = 1 then some true
  else if n.toNat < 2 ^ 32 then
    some (decide (∀ j < n.toNat, testFrame s (start + BitVec.ofNat 32 j) = 0))
  else none

theorem Outcome.mono (h : Outcome s enough r)
    (hmono : ∀ start found, enough start = some found → enough' start = some found) :
    Outcome s enough' r := by
  have hpass : ∀ g, Passes s enough g → Passes s enough' g :=
    fun g hg haccept => hmono _ _ (hg haccept)
  rcases h with ⟨g, ⟨hg, hwide, hstop, hbefore⟩, rfl⟩ | ⟨⟨hN, hall⟩, rfl⟩
  · exact Or.inl ⟨g, ⟨hg, hwide, ⟨hstop.1, hmono _ _ hstop.2⟩, fun h hh => hpass h (hbefore h hh)⟩,
      rfl⟩
  · exact Or.inr ⟨⟨hN, fun g hg => hpass g (hall g hg)⟩, rfl⟩

/-- Counting on from some of the frames: the count is reached only if all that were passed were
free, and all that follow are. -/
theorem checkLoop_eq (start : CInt) (hn : n.toNat < 2 ^ 32) (k : ℕ) {c d : ℕ} (hc : c ≤ n.toNat)
    (hfree : d ≤ c) (hlt : d < n.toNat) :
    (∀ found, checkLoop s n start k (BitVec.ofNat 32 c) (BitVec.ofNat 32 d) = some found →
      found = decide (d = c ∧
        ∀ j < n.toNat, c ≤ j → testFrame s (start + BitVec.ofNat 32 j) = 0)) ∧
    (n.toNat - c < k →
      ∃ found, checkLoop s n start k (BitVec.ofNat 32 c) (BitVec.ofNat 32 d) = some found) := by
  induction k generalizing c d with
  | zero => simp [checkLoop]
  | succ k ih =>
    have hnext : BitVec.ofNat 32 c + 1 = BitVec.ofNat 32 (c + 1) := (BitVec.ofNat_add c 1).symm
    rw [checkLoop, toNat_word (by omega), hnext]
    by_cases hmore : c < n.toNat
    · rw [if_pos hmore]
      by_cases htest : testFrame s (start + BitVec.ofNat 32 c) = 0
      · have hcount : BitVec.ofNat 32 d + 1 = BitVec.ofNat 32 (d + 1) :=
          (BitVec.ofNat_add d 1).symm
        have hstep : (d = c ∧ ∀ j < n.toNat, c ≤ j →
              testFrame s (start + BitVec.ofNat 32 j) = 0) ↔
            (d + 1 = c + 1 ∧ ∀ j < n.toNat, c + 1 ≤ j →
              testFrame s (start + BitVec.ofNat 32 j) = 0) := by
          refine and_congr (by omega) ⟨fun h j hj hle => h j hj (by omega), fun h j hj hle => ?_⟩
          rcases Nat.eq_or_lt_of_le hle with rfl | hle
          · exact htest
          · exact h j hj hle
        simp only [if_pos htest, hcount, toNat_word (show d + 1 < 2 ^ 32 by omega), hstep]
        split_ifs with hreached
        · refine ⟨fun found h => ?_, fun _ => ⟨true, rfl⟩⟩
          rw [← Option.some.inj h]
          exact (decide_eq_true ⟨by omega, fun j hj hle => by omega⟩).symm
        · obtain ⟨hsound, htotal⟩ := ih (c := c + 1) (d := d + 1) (by omega) (by omega)
            (by omega)
          exact ⟨hsound, fun hk => htotal (by omega)⟩
      · simp only [if_neg htest, toNat_word (show d < 2 ^ 32 by omega),
          if_neg (show ¬ d = n.toNat by omega)]
        obtain ⟨hsound, htotal⟩ := ih (c := c + 1) (d := d) (by omega) (by omega) hlt
        refine ⟨fun found h => ?_, fun hk => htotal (by omega)⟩
        rw [hsound found h]
        refine decide_eq_decide.mpr ⟨fun h => by omega, fun h => ?_⟩
        exact absurd (h.2 c hmore (Nat.le_refl c)) htest
    · rw [if_neg hmore]
      refine ⟨fun found h => ?_, fun _ => ⟨false, rfl⟩⟩
      rw [← Option.some.inj h]
      exact (decide_eq_false fun h => by omega).symm

/-- A number that 32 bits do not hold is never counted up to. -/
theorem checkLoop_wide (hn : 2 ^ 32 ≤ n.toNat) (k : ℕ) (check freeBits : BitVec 32) :
    checkLoop s n start k check freeBits = none := by
  induction k generalizing check freeBits with
  | zero => rfl
  | succ k ih =>
    have hcheck := check.isLt
    have hne : ∀ count : BitVec 32, count.toNat ≠ n.toNat := fun count => by
      have := count.isLt
      omega
    rw [checkLoop, if_pos (by omega)]
    simp only [hne, if_false]
    exact ih _ _

theorem checkLoop_answer (h0 : n ≠ 0) (h1 : n ≠ 1) (k : ℕ) :
    (∀ start found, checkLoop s n start k 0 0 = some found → answer s n start = some found) ∧
    (n.toNat < k → (fun start => checkLoop s n start k 0 0) = answer s n) := by
  have hpos : 0 < n.toNat := by
    rw [Nat.pos_iff_ne_zero]
    exact fun h => h0 (BitVec.eq_of_toNat_eq h)
  by_cases hn : n.toNat < 2 ^ 32
  · have hall : ∀ start found, checkLoop s n start k 0 0 = some found →
        answer s n start = some found := by
      intro start found h
      have hfound := (checkLoop_eq start hn k (Nat.zero_le _) (Nat.le_refl 0) hpos).1 found h
      rw [answer, if_neg h1, if_pos hn, hfound]
      simp
    refine ⟨hall, fun hk => ?_⟩
    funext start
    obtain ⟨found, h⟩ := (checkLoop_eq (s := s) start hn k (Nat.zero_le _)
      (Nat.le_refl 0) hpos).2 (by omega)
    exact h.trans (hall start found h).symm
  · have hnone : ∀ start, checkLoop s n start k 0 0 = none :=
      fun start => checkLoop_wide (by omega) k 0 0
    refine ⟨fun start found h => ?_, fun _ => ?_⟩
    · rw [hnone] at h
      contradiction
    · funext start
      rw [hnone, answer, if_neg h1, if_neg hn]

/-- What `pmm_findFirstFrame` returns. -/
theorem findFirstFrame_iff :
    (∃ k, findFirstFrame s k = some r) ↔ Outcome s (fun _ => some true) r := by
  constructor
  · rintro ⟨k, h⟩
    exact outcome_of_wordLoop (m := 0) (by decide) (fun g hg => by omega) h
  · intro h
    obtain ⟨K, hK⟩ := wordLoop_of_outcome h
    exact ⟨K, hK K (Nat.le_refl K)⟩

/-- What `pmm_findFirstFrames` returns for a run of frames. -/
theorem findFirstFrames_iff (h0 : n ≠ 0) :
    (∃ k, findFirstFrames s n k = some r) ↔ Outcome s (answer s n) r := by
  by_cases h1 : n = 1
  · have hanswer : answer s n = fun _ => some true := by
      funext start
      rw [answer, if_pos h1]
    rw [hanswer, ← findFirstFrame_iff]
    simp only [findFirstFrames, if_neg h0, if_pos h1]
  · simp only [findFirstFrames, if_neg h0, if_neg h1]
    constructor
    · rintro ⟨k, h⟩
      have houtcome := outcome_of_wordLoop (m := 0) (by decide) (fun g hg => by omega) h
      exact houtcome.mono (checkLoop_answer h0 h1 k).1
    · intro h
      obtain ⟨K, hK⟩ := wordLoop_of_outcome h
      refine ⟨max K (n.toNat + 1), ?_⟩
      rw [(checkLoop_answer h0 h1 _).2 (by omega)]
      exact hK _ (Nat.le_max_left _ _)

end Answers

section Ideal

theorem findSome?_range_eq_some {β : Type*} {body : ℕ → Option β} {N : ℕ} {r : β}
    (h : (List.range N).findSome? body = some r) :
    ∃ i < N, body i = some r ∧ ∀ j < i, body j = none := by
  induction N with
  | zero => simp at h
  | succ N ih =>
    rw [List.range_succ, List.findSome?_append] at h
    cases hbefore : (List.range N).findSome? body with
    | some r' =>
      rw [hbefore] at h
      obtain ⟨i, hi, hbody, hnone⟩ := ih (hbefore.trans h)
      exact ⟨i, by omega, hbody, hnone⟩
    | none =>
      rw [hbefore] at h
      rw [List.findSome?_eq_none_iff] at hbefore
      refine ⟨N, by omega, ?_, fun j hj => hbefore j (List.mem_range.mpr hj)⟩
      simpa using h

/-- A scan of the words for the first frame of some kind. -/
theorem words_first {P : ℕ → Prop} {N : ℕ} (body : ℕ → Option ℕ)
    (hsome : ∀ i r, body i = some r →
      ∃ bit < 32, P (32 * i + bit) ∧ r = 32 * i + bit ∧ ∀ c < bit, ¬ P (32 * i + c))
    (hnone : ∀ i, body i = none → ∀ bit < 32, ¬ P (32 * i + bit)) :
    (∀ g, (List.range N).findSome? body = some g → g < 32 * N ∧ P g ∧ ∀ h < g, ¬ P h) ∧
    ((List.range N).findSome? body = none → ∀ g < 32 * N, ¬ P g) := by
  have hword : ∀ g : ℕ, body (g / 32) = none → ¬ P g := fun g hg => by
    have hbit := hnone (g / 32) hg (g % 32) (Nat.mod_lt g (by decide))
    rwa [Nat.div_add_mod] at hbit
  constructor
  · intro g hfound
    obtain ⟨i, hi, hbody, hbefore⟩ := findSome?_range_eq_some hfound
    obtain ⟨bit, hbit, hP, rfl, hless⟩ := hsome i g hbody
    refine ⟨by omega, hP, fun h hh => ?_⟩
    rcases Nat.lt_or_ge h (32 * i) with hlt | hge
    · exact hword h (hbefore (h / 32) (by omega))
    · have := hless (h - 32 * i) (by omega)
      rwa [Nat.add_sub_cancel' hge] at this
  · intro hall g hg
    rw [List.findSome?_eq_none_iff] at hall
    exact hword g (hall (g / 32) (List.mem_range.mpr (by omega)))

variable {s : State} {enough : CInt → Option Bool} {n : BitVec 64}

/-- What comes of a scan is what the loops return, when 32 bits count the words. -/
theorem outcome_of_scan (enough : CInt → Option Bool) {P : ℕ → Prop} {found : Option ℕ}
    (hwords : indexBit s.nframes.toNat < 2 ^ 32)
    (hstop : ∀ g, P g → Stops s enough g) (hpass : ∀ g, ¬ P g → Passes s enough g)
    (hsome : ∀ g, found = some g →
      g < 32 * indexBit s.nframes.toNat ∧ P g ∧ ∀ h < g, ¬ P h)
    (hnone : found = none → ∀ g < 32 * indexBit s.nframes.toNat, ¬ P g) :
    (∀ g, found = some g → Outcome s enough (BitVec.ofNat 32 g)) ∧
      (found = none → Outcome s enough (-enomem)) := by
  constructor
  · intro g hfound
    obtain ⟨hg, hP, hless⟩ := hsome g hfound
    exact Or.inl ⟨g, ⟨hg, by omega, hstop g hP, fun h hh => hpass h (hless h hh)⟩, rfl⟩
  · exact fun hfound => Or.inr ⟨⟨hwords, fun g hg => hpass g (hnone hfound g hg)⟩, rfl⟩

theorem freeBit_first (i : ℕ) :
    (∀ bit, freeBit s i = some bit →
      bit < 32 ∧ accepts s (32 * i + bit) ∧ ∀ c < bit, ¬ accepts s (32 * i + c)) ∧
    (freeBit s i = none → ∀ bit < 32, ¬ accepts s (32 * i + bit)) := by
  unfold freeBit
  by_cases hfull : s.frames (i : ℤ) = 0xFFFFFFFF#64
  · have hdiv : ∀ bit < 32, (32 * i + bit) / 32 = i := fun bit hbit => by omega
    rw [if_pos hfull]
    refine ⟨by simp, fun _ bit hbit => not_accepts_of_full ?_⟩
    rwa [hdiv bit hbit]
  · rw [if_neg hfull]
    constructor
    · intro bit hfind
      obtain ⟨hzero, hmem, hless⟩ := List.find?_range_eq_some.mp hfind
      have hbit := List.mem_range.mp hmem
      refine ⟨hbit, (accepts_at hbit).mpr (of_decide_eq_true hzero), fun c hc haccept => ?_⟩
      have hc' := (accepts_at (by omega)).mp haccept
      simpa [hc'] using hless c hc
    · intro hfind bit hbit haccept
      have hbit' := List.find?_range_eq_none.mp hfind bit hbit
      simp [(accepts_at hbit).mp haccept] at hbit'

theorem scanFrame_first (s : State) :
    (∀ g, scanFrame s = some g →
      g < 32 * indexBit s.nframes.toNat ∧ accepts s g ∧ ∀ h < g, ¬ accepts s h) ∧
    (scanFrame s = none → ∀ g < 32 * indexBit s.nframes.toNat, ¬ accepts s g) :=
  words_first (P := accepts s) (N := indexBit s.nframes.toNat)
    (fun i => (freeBit s i).map fun bit => i * 4 * 8 + bit)
    (fun i r h => by
      obtain ⟨bit, hbit, rfl⟩ := Option.map_eq_some_iff.mp h
      obtain ⟨hlt, haccept, hless⟩ := (freeBit_first i).1 bit hbit
      exact ⟨bit, hlt, haccept, by ring, hless⟩)
    fun i h => (freeBit_first i).2 (Option.map_eq_none_iff.mp h)

/-- The search of the allocator is what `pmm_findFirstFrame` comes to. -/
theorem findFirstFrame_eq (hwords : indexBit s.nframes.toNat < 2 ^ 32) :
    ∃ k, findFirstFrame s k = some (Pmm.findFirstFrame s) := by
  rw [findFirstFrame_iff]
  have hscan := scanFrame_first s
  obtain ⟨hsome, hnone⟩ := outcome_of_scan (fun _ => some true) hwords
    (fun g hg => ⟨hg, rfl⟩) (fun g hg haccept => absurd haccept hg) hscan.1 hscan.2
  unfold Pmm.findFirstFrame
  cases hfound : scanFrame s with
  | some frame => exact hsome frame hfound
  | none => exact hnone hfound

/-- The count in the allocator, from some of the frames on. -/
theorem checkRun_eq (s : State) (start l : ℕ) {n c free : ℕ} (hl : c + l = n) (hfree : free ≤ c)
    (hlt : free < n) :
    checkRun s start n (List.range' c l) free = decide (free = c ∧
      ∀ j < n, c ≤ j → testFrame s (BitVec.ofNat 32 (start + j)) = 0) := by
  induction l generalizing c free with
  | zero => exact (decide_eq_false fun h => by omega).symm
  | succ l ih =>
    rw [List.range'_succ, checkRun]
    by_cases htest : testFrame s (BitVec.ofNat 32 (start + c)) = 0
    · have hstep : (free = c ∧ ∀ j < n, c ≤ j → testFrame s (BitVec.ofNat 32 (start + j)) = 0) ↔
          (free + 1 = c + 1 ∧
            ∀ j < n, c + 1 ≤ j → testFrame s (BitVec.ofNat 32 (start + j)) = 0) := by
        refine and_congr (by omega) ⟨fun h j hj hle => h j hj (by omega), fun h j hj hle => ?_⟩
        rcases Nat.eq_or_lt_of_le hle with rfl | hle
        · exact htest
        · exact h j hj hle
      simp only [if_pos htest, hstep]
      split_ifs with hreached
      · exact (decide_eq_true ⟨by omega, fun j hj hle => by omega⟩).symm
      · exact ih (by omega) (by omega) (by omega)
    · simp only [if_neg htest, if_neg (show ¬ free = n by omega)]
      rw [ih (by omega) (by omega) hlt, decide_eq_decide]
      refine ⟨fun h => by omega, fun h => ?_⟩
      exact absurd (h.2 c (by omega) (Nat.le_refl c)) htest

theorem scanRun_first (n : ℕ) :
    (∀ g, scanRun s n = some g → g < 32 * indexBit s.nframes.toNat ∧
      (accepts s g ∧ checkRun s g n (List.range n) 0 = true) ∧
      ∀ h < g, ¬ (accepts s h ∧ checkRun s h n (List.range n) 0 = true)) ∧
    (scanRun s n = none → ∀ g < 32 * indexBit s.nframes.toNat,
      ¬ (accepts s g ∧ checkRun s g n (List.range n) 0 = true)) := by
  refine words_first _ (fun i r h => ?_) fun i h bit hbit => ?_
  · split_ifs at h
    obtain ⟨bit, hbit, hcond, hless⟩ := findSome?_range_eq_some h
    split_ifs at hcond with hfree
    obtain rfl := Option.some.inj hcond
    rw [Nat.mul_comm i 32] at hfree
    refine ⟨bit, hbit, ⟨(accepts_at hbit).mpr hfree.1, hfree.2⟩, by ring, fun c hc hP => ?_⟩
    have hc' := hless c hc
    rw [Nat.mul_comm i 32, if_pos ⟨(accepts_at (by omega)).mp hP.1, hP.2⟩] at hc'
    contradiction
  · split_ifs at h with hfull
    · have hdiv : (32 * i + bit) / 32 = i := by omega
      exact fun hP => not_accepts_of_full (by rwa [hdiv]) hP.1
    · rw [List.findSome?_eq_none_iff] at h
      intro hP
      have hbit' := h bit (List.mem_range.mpr hbit)
      rw [Nat.mul_comm i 32, if_pos ⟨(accepts_at hbit).mp hP.1, hP.2⟩] at hbit'
      contradiction

/-- And that for a run is what `pmm_findFirstFrames` comes to, when 32 bits count its frames. -/
theorem findFirstFrames_eq (hwords : indexBit s.nframes.toNat < 2 ^ 32)
    (hn : n.toNat < 2 ^ 32) :
    ∃ k, findFirstFrames s n k = some (Pmm.findFirstFrames s n) := by
  by_cases h0 : n = 0
  · exact ⟨0, by simp [findFirstFrames, Pmm.findFirstFrames, scanFrames, h0]⟩
  · by_cases h1 : n = 1
    · subst h1
      obtain ⟨k, hk⟩ := findFirstFrame_eq hwords
      exact ⟨k, hk⟩
    · have h0' : n.toNat ≠ 0 := fun h => h0 (BitVec.eq_of_toNat_eq h)
      have h1' : n.toNat ≠ 1 := fun h => h1 (BitVec.eq_of_toNat_eq h)
      have hrun : ∀ g, answer s n (BitVec.ofNat 32 g) =
          some (checkRun s g n.toNat (List.range n.toNat) 0) := fun g => by
        rw [answer, if_neg h1, if_pos hn, List.range_eq_range',
          checkRun_eq s g n.toNat (Nat.zero_add _) (Nat.le_refl 0) (by omega)]
        simp [BitVec.ofNat_add]
      obtain ⟨hsome, hnone⟩ := outcome_of_scan (answer s n) hwords
        (fun g hg => ⟨hg.1, by rw [hrun, hg.2]⟩)
        (fun g hg haccept => by simpa [hrun, haccept] using hg)
        (scanRun_first n.toNat).1 (scanRun_first n.toNat).2
      rw [findFirstFrames_iff h0, Pmm.findFirstFrames, scanFrames, if_neg h0', if_neg h1']
      cases hfound : scanRun s n.toNat with
      | some frame => exact hsome frame hfound
      | none => exact hnone hfound

end Ideal

section Searches

variable (s : State)

def LeastFree (f : ℕ) : Prop :=
  f < s.nframes.toNat ∧ used s f = false ∧ ∀ g < f, used s g = true

def Run (n f : ℕ) : Prop := f + n ≤ s.nframes.toNat ∧ ∀ i < n, used s (f + i) = false

def FirstRun (n f : ℕ) : Prop := Run s n f ∧ ∀ g < f, ¬ Run s n g

/-- `pmm_findFirstFrame` returns the first free frame, or reports that all are used. -/
def FindsFrame : Prop :=
  ∃ r, (∃ k, findFirstFrame s k = some r) ∧
    ((r ≠ -enomem ∧ LeastFree s r.toNat) ∨ (r = -enomem ∧ ∀ f < s.nframes.toNat, used s f = true))

/-- `pmm_findFirstFrames` returns the first run, or reports that there is none. -/
def FindsFrames (n : BitVec 64) : Prop :=
  ∃ r, (∃ k, findFirstFrames s n k = some r) ∧
    ((0 ≤ r.toInt ∧ FirstRun s n.toNat r.toInt.toNat) ∨ (r = -enomem ∧ ∀ f, ¬ Run s n.toNat f))

/-- A frame lies in a word of 32 frames below `nframes`, and where it is the last of its word, the
upper half of that is clear. -/
def Searched (f : ℕ) : Prop :=
  f < 32 * indexBit s.nframes.toNat ∧
    (f % 32 = 31 → (s.frames (f / 32 : ℕ)).toNat < 2 ^ 32)

/-- When the first free frame is found: on a machine of at most 8 TiB, where it is looked for;
beyond, where it is not the number that says that there is none, and the first frame that
passes the test has its number in 32 bits. -/
def FrameFound (f : ℕ) : Prop :=
  if s.nframes.toNat ≤ 2 ^ 31 then Searched s f
  else f ≠ 2 ^ 32 - 12 ∧ ∃ g, g % 2 ^ 32 = f ∧ First s (fun _ => some true) g

/-- When the first run is found: the same, with the test of all its frames, and a number that an
`int` holds. -/
def RunFound (n : BitVec 64) (f : ℕ) : Prop :=
  if s.nframes.toNat ≤ 2 ^ 31 then Searched s f
  else f < 2 ^ 31 ∧ ∃ g, g % 2 ^ 32 = f ∧ First s (answer s n) g

/-- When a search for a run that is not there ends with the report: no start that it tries passes
its tests of the frames from there on, which may lie behind the last one, and there are words
that 32 bits count. Or what it finds is the number of the report. -/
def NoRunFound (n : BitVec 64) : Prop :=
  Exhausted s (answer s n) ∨ ∃ g, g % 2 ^ 32 = 2 ^ 32 - 12 ∧ First s (answer s n) g

end Searches

section Frames

variable {s : State} {n : BitVec 64} {f g : ℕ} {enough : CInt → Option Bool}

theorem LeastFree.unique (hf : LeastFree s f) (hg : LeastFree s g) : f = g := by
  rcases Nat.lt_trichotomy f g with h | h | h
  · have := hg.2.2 f h
    rw [hf.2.1] at this
    contradiction
  · exact h
  · have := hf.2.2 g h
    rw [hg.2.1] at this
    contradiction

theorem FirstRun.unique {n : ℕ} (hf : FirstRun s n f) (hg : FirstRun s n g) : f = g := by
  rcases Nat.lt_trichotomy f g with h | h | h
  · exact absurd hf.1 (hg.2 f h)
  · exact h
  · exact absurd hg.1 (hf.2 g h)

theorem leastFree_or_used (s : State) :
    (∃ f, LeastFree s f) ∨ ∀ f < s.nframes.toNat, used s f = true := by
  by_cases hfree : ∃ f, f < s.nframes.toNat ∧ used s f = false
  · refine Or.inl ⟨Nat.find hfree, (Nat.find_spec hfree).1, (Nat.find_spec hfree).2, fun g hg => ?_⟩
    have hlt := Nat.lt_trans hg (Nat.find_spec hfree).1
    simpa [hlt] using Nat.find_min hfree hg
  · refine Or.inr fun f hf => ?_
    simpa using fun hused => hfree ⟨f, hf, hused⟩

theorem firstRun_or_none (s : State) (n : ℕ) : (∃ f, FirstRun s n f) ∨ ∀ f, ¬ Run s n f := by
  classical
  by_cases hrun : ∃ f, Run s n f
  · exact Or.inl ⟨Nat.find hrun, Nat.find_spec hrun, fun g hg => Nat.find_min hrun hg⟩
  · exact Or.inr fun f hf => hrun ⟨f, hf⟩

theorem indexBit_le (a : ℕ) : 32 * indexBit a ≤ a := Nat.mul_div_le a 32

/-- What is returned as a number is the number of the report for one frame in 2^32 only. -/
theorem ofNat_eq_enomem_iff : BitVec.ofNat 32 g = -enomem ↔ g % 2 ^ 32 = 2 ^ 32 - 12 := by
  rw [← BitVec.toNat_inj, BitVec.toNat_ofNat]
  rfl

theorem toInt_ofNat_eq_iff (hf : f < 2 ^ 31) :
    (0 ≤ (BitVec.ofNat 32 g).toInt ∧ (BitVec.ofNat 32 g).toInt.toNat = f) ↔ g % 2 ^ 32 = f := by
  rw [BitVec.toInt_eq_toNat_cond, BitVec.toNat_ofNat]
  split_ifs <;> omega

/-- What a frame passes the tests for is a free frame, or a run of them. -/
theorem testFrame_eq_zero_iff (hf : f < 2 ^ 31) :
    testFrame s (BitVec.ofNat 32 f) = 0 ↔ used s f = false := by
  refine ⟨used_of_testFrame_eq_zero s f hf, fun hfree => ?_⟩
  have hbit : f % 32 < 32 := Nat.mod_lt f (by decide)
  unfold testFrame
  rw [wordOf_ofNat f hf, bitOf_ofNat f hf]
  apply BitVec.eq_of_getLsbD_eq
  intro j hj
  change _ = (0#32).getLsbD j
  rw [BitVec.getLsbD_zero, BitVec.getLsbD_setWidth, BitVec.getLsbD_and,
    getLsbD_frameMask _ _ hj]
  by_cases hsame : j = f % 32
  · rw [hsame, show (s.frames ((f / 32 : ℕ) : ℤ)).getLsbD (f % 32) = false from hfree]
    simp
  · simp [hsame]

theorem First.used_eq_false (h : First s enough g) : g < s.nframes.toNat ∧ used s g = false := by
  refine ⟨Nat.lt_of_lt_of_le h.1 (indexBit_le _), ?_⟩
  exact ((accepts_iff g).mp h.2.2.1.1).1

theorem First.unique (hf : First s enough f) (hg : First s enough g) : f = g := by
  rcases Nat.lt_trichotomy f g with h | h | h
  · exact absurd (hg.2.2.2 f h) (not_passes_of_stops hf.2.2.1)
  · exact h
  · exact absurd (hf.2.2.2 g h) (not_passes_of_stops hg.2.2.1)

/-- On a machine of any size, by the frames at which the search stops. -/
theorem findsFrame_iff_first (s : State) :
    FindsFrame s ↔ (∀ f, LeastFree s f →
        f ≠ 2 ^ 32 - 12 ∧ ∃ g, g % 2 ^ 32 = f ∧ First s (fun _ => some true) g) ∧
      ((∀ f < s.nframes.toNat, used s f = true) → indexBit s.nframes.toNat < 2 ^ 32) := by
  unfold FindsFrame
  simp only [findFirstFrame_iff]
  rcases leastFree_or_used s with ⟨f, hf⟩ | hall
  · have hnone : ¬ ∀ f < s.nframes.toNat, used s f = true := fun hall =>
      Bool.false_ne_true (hf.2.1.symm.trans (hall f hf.1))
    constructor
    · rintro ⟨r, houtcome, ⟨hr, hleast⟩ | ⟨-, hall⟩⟩
      · refine ⟨fun f' hf' => ?_, fun hall => absurd hall hnone⟩
        rcases houtcome with ⟨g, hfirst, rfl⟩ | ⟨-, hreport⟩
        · have hnumber := hleast.unique hf'
          rw [BitVec.toNat_ofNat] at hnumber
          exact ⟨fun heq => hr (ofNat_eq_enomem_iff.mpr (hnumber.trans heq)), g, hnumber, hfirst⟩
        · exact absurd hreport hr
      · exact absurd hall hnone
    · rintro ⟨hfound, -⟩
      obtain ⟨hne, g, hnumber, hfirst⟩ := hfound f hf
      refine ⟨BitVec.ofNat 32 g, Or.inl ⟨g, hfirst, rfl⟩, Or.inl ⟨?_, ?_⟩⟩
      · rw [Ne, ofNat_eq_enomem_iff, hnumber]
        exact hne
      · rwa [BitVec.toNat_ofNat, hnumber]
  · have hnone : ∀ f, ¬ LeastFree s f := fun f hf =>
      Bool.false_ne_true (hf.2.1.symm.trans (hall f hf.1))
    constructor
    · rintro ⟨r, houtcome, ⟨-, hleast⟩ | ⟨hr, -⟩⟩
      · exact absurd hleast (hnone _)
      · refine ⟨fun f hf => absurd hf (hnone f), fun _ => ?_⟩
        rcases houtcome with ⟨g, hfirst, -⟩ | ⟨hexhausted, -⟩
        · obtain ⟨hlt, hfree⟩ := hfirst.used_eq_false
          rw [hall g hlt] at hfree
          contradiction
        · exact hexhausted.1
    · rintro ⟨-, hwords⟩
      refine ⟨-enomem, Or.inr ⟨⟨hwords hall, fun g hg haccept => ?_⟩, rfl⟩, Or.inr ⟨rfl, hall⟩⟩
      exact absurd haccept (not_accepts_of_used (hall g (Nat.lt_of_lt_of_le hg (indexBit_le _))))

/-- On a machine of any size, by the starts at which the search stops. -/
theorem findsFrames_iff_first (s : State) (h0 : n ≠ 0) :
    FindsFrames s n ↔ (∀ f, FirstRun s n.toNat f →
        f < 2 ^ 31 ∧ ∃ g, g % 2 ^ 32 = f ∧ First s (answer s n) g) ∧
      ((∀ f, ¬ Run s n.toNat f) → NoRunFound s n) := by
  unfold FindsFrames NoRunFound
  simp only [findFirstFrames_iff h0]
  rcases firstRun_or_none s n.toNat with ⟨f, hf⟩ | hnone
  · have hsome : ¬ ∀ f, ¬ Run s n.toNat f := fun hnone => hnone f hf.1
    constructor
    · rintro ⟨r, houtcome, ⟨hr, hrun⟩ | ⟨-, hnone⟩⟩
      · refine ⟨fun f' hf' => ?_, fun hnone => absurd hnone hsome⟩
        have hnumber := hrun.unique hf'
        have hsmall : f' < 2 ^ 31 := by
          have := r.toInt_lt
          omega
        rcases houtcome with ⟨g, hfirst, rfl⟩ | ⟨-, rfl⟩
        · exact ⟨hsmall, g, (toInt_ofNat_eq_iff hsmall).mp ⟨hr, hnumber⟩, hfirst⟩
        · exact absurd hr (by decide)
      · exact absurd hnone hsome
    · rintro ⟨hfound, -⟩
      obtain ⟨hsmall, g, hnumber, hfirst⟩ := hfound f hf
      obtain ⟨hr, heq⟩ := (toInt_ofNat_eq_iff hsmall).mpr hnumber
      exact ⟨BitVec.ofNat 32 g, Or.inl ⟨g, hfirst, rfl⟩, Or.inl ⟨hr, heq ▸ hf⟩⟩
  · constructor
    · rintro ⟨r, houtcome, ⟨-, hrun⟩ | ⟨rfl, -⟩⟩
      · exact absurd hrun.1 (hnone _)
      · refine ⟨fun f hf => absurd hf.1 (hnone f), fun _ => ?_⟩
        rcases houtcome with ⟨g, hfirst, heq⟩ | ⟨hexhausted, -⟩
        · exact Or.inr ⟨g, ofNat_eq_enomem_iff.mp heq.symm, hfirst⟩
        · exact Or.inl hexhausted
    · rintro ⟨-, hreport⟩
      refine ⟨-enomem, ?_, Or.inr ⟨rfl, hnone⟩⟩
      rcases hreport hnone with hexhausted | ⟨g, hnumber, hfirst⟩
      · exact Or.inr ⟨hexhausted, rfl⟩
      · exact Or.inl ⟨g, hfirst, (ofNat_eq_enomem_iff.mpr hnumber).symm⟩

/-- Where frame numbers fit an `int`, a search finds a frame that it looks for. -/
theorem first_iff_searched (hsmall : s.nframes.toNat ≤ 2 ^ 31) (hf : used s f = false)
    (henough : enough (BitVec.ofNat 32 f) = some true) (hbefore : ∀ g < f, Passes s enough g) :
    (∃ g, g % 2 ^ 32 = f ∧ First s enough g) ↔ Searched s f := by
  have hle := indexBit_le s.nframes.toNat
  constructor
  · rintro ⟨g, hnumber, hfirst⟩
    have hg := hfirst.1
    have heq : g = f := by omega
    subst heq
    exact ⟨hg, ((accepts_iff g).mp hfirst.2.2.1.1).2⟩
  · rintro ⟨hin, hclear⟩
    exact ⟨f, by omega, hin, by omega, ⟨(accepts_iff f).mpr ⟨hf, hclear⟩, henough⟩, hbefore⟩

theorem leastFree_first_iff (hsmall : s.nframes.toNat ≤ 2 ^ 31) (hf : LeastFree s f) :
    (∃ g, g % 2 ^ 32 = f ∧ First s (fun _ => some true) g) ↔ Searched s f :=
  first_iff_searched hsmall hf.2.1 rfl fun g hg haccept =>
    absurd haccept (not_accepts_of_used (hf.2.2 g hg))

/-- The answer for a start whose frames all fit an `int`. -/
theorem answer_eq_true_iff (h1 : n ≠ 1) (hf : f + n.toNat ≤ 2 ^ 31) :
    answer s n (BitVec.ofNat 32 f) =
      some (decide (∀ j < n.toNat, used s (f + j) = false)) := by
  rw [answer, if_neg h1, if_pos (by omega), Option.some.injEq, decide_eq_decide]
  refine forall_congr' fun j => imp_congr_right fun hj => ?_
  rw [← BitVec.ofNat_add, testFrame_eq_zero_iff (by omega)]

theorem firstRun_first_iff (h0 : n ≠ 0) (hsmall : s.nframes.toNat ≤ 2 ^ 31)
    (hf : FirstRun s n.toNat f) :
    (∃ g, g % 2 ^ 32 = f ∧ First s (answer s n) g) ↔ Searched s f := by
  have hpos : 0 < n.toNat := by
    rw [Nat.pos_iff_ne_zero]
    exact fun h => h0 (BitVec.eq_of_toNat_eq h)
  obtain ⟨⟨hin, hfree⟩, hleast⟩ := hf
  have hanswer : ∀ g ≤ f, used s g = false → answer s n (BitVec.ofNat 32 g) =
      some (decide (∀ j < n.toNat, used s (g + j) = false)) := by
    intro g hg hused
    by_cases h1 : n = 1
    · have hone : ∀ j < n.toNat, used s (g + j) = false := fun j hj => by
        rw [h1] at hj
        have hj0 : j = 0 := by simpa using hj
        rwa [hj0]
      rw [answer, if_pos h1, decide_eq_true hone]
    · exact answer_eq_true_iff h1 (by omega)
  have hstart : used s f = false := hfree 0 hpos
  refine first_iff_searched hsmall hstart ?_ fun g hg haccept => ?_
  · rw [hanswer f (Nat.le_refl f) hstart, decide_eq_true hfree]
  · rw [hanswer g (by omega) ((accepts_iff g).mp haccept).1, Option.some.injEq]
    exact decide_eq_false fun hall => hleast g hg ⟨by omega, hall⟩

end Frames

/-- Both searches, for every bitmap and every number of frames. One frame: the first free one is
found when it is looked for, and without one the search ends where 32 bits count the words. A run:
nothing is asked of no frames, a first run is found when its start is looked for, and without one
no start may pass the tests. -/
theorem searches_iff (s : State) :
    (FindsFrame s ↔ (∀ f, LeastFree s f → FrameFound s f) ∧
      ((∀ f < s.nframes.toNat, used s f = true) → indexBit s.nframes.toNat < 2 ^ 32)) ∧
    ∀ n, FindsFrames s n ↔ n = 0 ∨ ((∀ f, FirstRun s n.toNat f → RunFound s n f) ∧
      ((∀ f, ¬ Run s n.toNat f) → NoRunFound s n)) := by
  refine ⟨?_, fun n => ?_⟩
  · rw [findsFrame_iff_first]
    refine and_congr_left fun _ => forall_congr' fun f => imp_congr_right fun hf => ?_
    unfold FrameFound
    split_ifs with hsmall
    · have hne : f ≠ 2 ^ 32 - 12 := by
        have := hf.1
        omega
      rw [← leastFree_first_iff hsmall hf]
      exact and_iff_right hne
    · rfl
  · by_cases h0 : n = 0
    · refine iff_of_true ⟨0, ⟨0, by simp [findFirstFrames, h0]⟩, Or.inl ⟨by decide, ?_⟩⟩ (Or.inl h0)
      simp [FirstRun, Run, h0]
    · rw [findsFrames_iff_first s h0, or_iff_right h0]
      refine and_congr_left fun _ => forall_congr' fun f => imp_congr_right fun hf => ?_
      unfold RunFound
      split_ifs with hsmall
      · have hlt : f < 2 ^ 31 := by
          have hin := hf.1.1
          have hpos : n.toNat ≠ 0 := fun h => h0 (BitVec.eq_of_toNat_eq h)
          omega
        rw [← firstRun_first_iff h0 hsmall hf]
        exact and_iff_right hlt
      · rfl

section Failing

def tailFree : State :=
  ⟨fun i => if i = 0 then 0xFFFFFFFF else if i = 1 then 0xFFFFFFF7 else 0, 40, 39, 40⟩

def lastFree : State := ⟨fun i => if i = 0 then 0x7FFFFFFF else 0, 32, 31, 32⟩

/-- A free frame behind the last whole word is not found, and the last frame and the memory behind
it are returned as a run of two. -/
theorem free_frame_not_found :
    (findFirstFrame tailFree 2 = some (-enomem) ∧ used tailFree 35 = false ∧
      ¬ FindsFrame tailFree) ∧
    (findFirstFrames lastFree 2 3 = some 31 ∧ ¬ FindsFrames lastFree 2) := by
  have hleast : LeastFree tailFree 35 := ⟨by decide, by decide, by decide⟩
  have hused : ∀ g < 32, used tailFree g = true := by decide
  have hrun : ∀ f < 31, used lastFree f = true := by decide
  have hstop : Stops lastFree (answer lastFree 2) 31 := ⟨by decide, by decide⟩
  refine ⟨⟨by decide, by decide, fun hfinds => ?_⟩, by decide, fun hfinds => ?_⟩
  · obtain ⟨-, g, -, hfirst⟩ := ((findsFrame_iff_first tailFree).mp hfinds).1 35 hleast
    have hword : g < 32 := hfirst.1
    exact Bool.false_ne_true (hfirst.used_eq_false.2.symm.trans (hused g hword))
  · rcases ((findsFrames_iff_first lastFree (by decide)).mp hfinds).2 fun f hf => by
      have hin : f + 2 ≤ 32 := hf.1
      exact Bool.false_ne_true ((hf.2 0 (by decide)).symm.trans (hrun f (by omega)))
      with hexhausted | ⟨g, hnumber, hfirst⟩
    · exact not_passes_of_stops hstop (hexhausted.2 31 (by decide))
    · have hword : g < 32 := hfirst.1
      omega

end Failing

end ReduceOS.FrameSearch
