import ReduceOS.LockedSections
import ReduceOS.Pmm

/-!
The frame allocator between any number of processors. A call changes the bitmap by loads and stores
of whole words and the counter as well, all of it behind one lock; so no frame is ever with two
processors, although the test for a full memory is made in front of the lock.
-/
namespace ReduceOS.SharedFrames

open Machine Pmm LockedSections TraceRefinement

inductive Call
  | allocateBlock
  | allocateBlocks (blocks : BitVec 64)
  | freeBlock (block : Addr)
  | freeBlocks (base : Addr) (blocks : BitVec 64)

abbrev Answer := Option Addr

/-- Where a call is behind the lock: at the search, at the load and the store of a bitmap word and
of the counter, or at the end. -/
inductive At
  | find (blocks : Option (BitVec 64))
  | load (take : Bool) (frame : CInt) (i : ℕ) (n : BitVec 64)
  | store (take : Bool) (frame : CInt) (i : ℕ) (n : BitVec 64) (word : BitVec 64)
  | count (take : Bool) (frame : CInt) (n : BitVec 64)
  | counted (take : Bool) (frame : CInt) (n : BitVec 64) (blocks : BitVec 64)
  | finish (take : Bool) (frame : CInt)
  | halted

/-- What is tested in front of the lock. A panic ends the run; it gives the lock back, whoever has
it. -/
def before : Call → State → Option Answer
  | .allocateBlock, s => if s.maxBlocks - s.usedBlocks ≤ 0 then some none else none
  | .allocateBlocks blocks, s =>
    if blocks = 0 ∨ s.maxBlocks - s.usedBlocks ≤ blocks then some none else none
  | .freeBlock block, _ => if block % BitVec.ofNat 64 blockSize ≠ 0 then some (some 0) else none
  | .freeBlocks _ blocks, _ => if blocks = 0 then some (some 0) else none

def frameOf (base : Addr) : CInt := (base / BitVec.ofNat 64 blockSize).setWidth 32

def enter : Call → At
  | .allocateBlock => .find none
  | .allocateBlocks blocks => .find (some blocks)
  | .freeBlock block => .load false (frameOf block) 0 1
  | .freeBlocks base blocks => .load false (frameOf base) 0 blocks

/-- The first frame that `pmm_allocateBlock` or `pmm_allocateBlocks` finds. -/
def findFor (s : State) : Option (BitVec 64) → CInt
  | none => findFirstFrame s
  | some blocks => findFirstFrames s blocks

/-- One load or store. `pmm_allocateBlocks` keeps the lock when it panics. -/
def step (l : At) (s : State) : (At × State) ⊕ Answer :=
  match l with
  | .find blocks =>
    let frame := findFor s blocks
    if frame = -enomem then
      match blocks with
      | none => .inr none
      | some _ => .inl (.halted, s)
    else .inl (.load true frame 0 (blocks.getD 1), s)
  | .load take frame i n =>
    if i < n.toNat then
      .inl (.store take frame i n (s.frames (wordOf (frame + BitVec.ofNat 32 i))), s)
    else .inl (.count take frame n, s)
  | .store take frame i n word =>
    let f := frame + BitVec.ofNat 32 i
    let word := if take then word ||| frameMask (bitOf f) else word &&& clearMask (bitOf f)
    .inl (.load take frame (i + 1) n, s.setWord (wordOf f) word)
  | .count take frame n => .inl (.counted take frame n s.usedBlocks, s)
  | .counted take frame n blocks =>
    .inl (.finish take frame, { s with usedBlocks := if take then blocks + n else blocks - n })
  | .finish take frame => .inr (some (if take then blockAddress frame else 0))
  | .halted => .inl (.halted, s)

def body : Body Call At Answer State := ⟨before, enter, step⟩

def taken : Call → Answer → Finset ℕ
  | .allocateBlock, some base => framesOf base 1
  | .allocateBlocks blocks, some base => framesOf base blocks.toNat
  | _, _ => ∅

def given : Call → Finset ℕ
  | .freeBlock block => if block % BitVec.ofNat 64 blockSize = 0 then framesOf block 1 else ∅
  | .freeBlocks base blocks => framesOf base blocks.toNat
  | _ => ∅

section Work

variable {s t : State} {r : Answer} {frame : CInt} {n : BitVec 64} {i k : ℕ}

def mark (take : Bool) (frame : CInt) (s : State) (i : ℕ) : State :=
  if take then setFrame s (frame + BitVec.ofNat 32 i) else clearFrame s (frame + BitVec.ofNat 32 i)

theorem runs_mark (take : Bool) (hi : i < n.toNat) :
    body.Runs (.load take frame i n) s r t ↔
      body.Runs (.load take frame (i + 1) n) (mark take frame s i) r t := by
  have hload : body.step (.load take frame i n) s =
      .inl (.store take frame i n (s.frames (wordOf (frame + BitVec.ofNat 32 i))), s) := if_pos hi
  rw [Body.runs_next hload, Body.runs_next (show body.step (.store ..) s = _ from rfl)]
  cases take <;> exact Iff.rfl

theorem runs_load (take : Bool) (hn : n.toNat = i + k) :
    body.Runs (.load take frame i n) s r t ↔
      body.Runs (.count take frame n) ((List.range' i k).foldl (mark take frame) s) r t := by
  induction k generalizing i s with
  | zero =>
    have hload : body.step (.load take frame i n) s = .inl (.count take frame n, s) :=
      if_neg (by omega)
    rw [Body.runs_next hload, List.range'_zero, List.foldl_nil]
  | succ k ih =>
    rw [runs_mark take (by omega), ih (by omega), List.range'_succ, List.foldl_cons]

theorem runs_count (take : Bool) : body.Runs (.count take frame n) s r t ↔
    r = some (if take then blockAddress frame else 0) ∧
      t = { s with usedBlocks := if take then s.usedBlocks + n else s.usedBlocks - n } := by
  rw [Body.runs_next (show body.step (.count take frame n) s = _ from rfl),
    Body.runs_next (show body.step (.counted ..) s = _ from rfl),
    Body.runs_last (show body.step (.finish take frame) _ = _ from rfl)]

theorem foldl_mark (take : Bool) (frame : CInt) (s : State) (k : ℕ) :
    (List.range' 0 k).foldl (mark take frame) s =
      if take then setFrames s frame k else clearFrames s frame k := by
  rw [← List.range_eq_range']
  cases take <;> rfl

theorem not_runs_halted : ¬ body.Runs .halted s r t := by
  intro h
  generalize hl : At.halted = l at h
  induction h with
  | last hs =>
    subst hl
    exact absurd hs Sum.inl_ne_inr
  | next hs _ ih =>
    subst hl
    obtain ⟨rfl, -⟩ := Prod.mk.inj (Sum.inl.inj hs)
    exact ih rfl

theorem runs_free : body.Runs (.load false frame 0 n) s r t ↔ r = some 0 ∧
    t = { clearFrames s frame n.toNat with
      usedBlocks := (clearFrames s frame n.toNat).usedBlocks - n } := by
  rw [runs_load false (Nat.zero_add n.toNat).symm, runs_count, foldl_mark]
  exact Iff.rfl

theorem runs_find {blocks : Option (BitVec 64)} {base : Addr}
    (hruns : body.Runs (.find blocks) s (some base) t) :
    findFor s blocks ≠ -enomem ∧ base = blockAddress (findFor s blocks) ∧
      t = { setFrames s (findFor s blocks) (blocks.getD 1).toNat with
        usedBlocks := (setFrames s (findFor s blocks) (blocks.getD 1).toNat).usedBlocks +
          blocks.getD 1 } := by
  by_cases hnone : findFor s blocks = -enomem
  · cases blocks with
    | none =>
      have hstep : body.step (.find none) s = .inr none := if_pos hnone
      rw [Body.runs_last hstep] at hruns
      exact absurd hruns.1 (Option.some_ne_none base)
    | some blocks =>
      have hstep : body.step (.find (some blocks)) s = .inl (.halted, s) := if_pos hnone
      rw [Body.runs_next hstep] at hruns
      exact absurd hruns not_runs_halted
  · have hstep : body.step (.find blocks) s =
        .inl (.load true (findFor s blocks) 0 (blocks.getD 1), s) := if_neg hnone
    rw [Body.runs_next hstep, runs_load true (Nat.zero_add _).symm, runs_count, foldl_mark] at hruns
    exact ⟨hnone, Option.some.inj hruns.1, hruns.2⟩

end Work

section Frames

variable {s t : State} {f g n : ℕ} {base : Addr}

theorem scanFrames_lt (hscan : scanFrames s n = some f) (hn : n ≠ 0) : f < s.nframes.toNat := by
  unfold scanFrames at hscan
  rw [if_neg hn] at hscan
  split_ifs at hscan
  · exact (scanFrame_eq_some s f hscan).1
  · obtain ⟨w, hw, hword⟩ := List.exists_of_findSome?_eq_some hscan
    have hrange : w < s.nframes.toNat / 32 := List.mem_range.mp hw
    split_ifs at hword
    obtain ⟨bit, hbit, hfound⟩ := List.exists_of_findSome?_eq_some hword
    have hlt : bit < 32 := List.mem_range.mp hbit
    split_ifs at hfound
    have heq : w * 4 * 8 + bit = f := Option.some.inj hfound
    omega

theorem findFor_eq {blocks : Option (BitVec 64)} (hne : findFor s blocks ≠ -enomem) :
    ∃ f, scanFrames s (blocks.getD 1).toNat = some f ∧ findFor s blocks = BitVec.ofNat 32 f := by
  cases blocks with
  | none =>
    change findFirstFrame s ≠ _ at hne
    change ∃ f, scanFrame s = some f ∧ findFirstFrame s = _
    unfold findFirstFrame at hne ⊢
    cases hscan : scanFrame s with
    | none =>
      rw [hscan] at hne
      exact absurd rfl hne
    | some f => exact ⟨f, rfl, rfl⟩
  | some blocks =>
    change findFirstFrames s blocks ≠ _ at hne
    change ∃ f, scanFrames s blocks.toNat = some f ∧ findFirstFrames s blocks = _
    unfold findFirstFrames at hne ⊢
    cases hscan : scanFrames s blocks.toNat with
    | none =>
      rw [hscan] at hne
      exact absurd rfl hne
    | some f => exact ⟨f, rfl, rfl⟩

theorem mem_framesOf {blocks : ℕ} :
    g ∈ framesOf base blocks ↔ base.toNat / 4096 ≤ g ∧ g < base.toNat / 4096 + blocks := by
  unfold framesOf
  exact Finset.mem_Ico

theorem framesOf_blockAddress (hf : f < 2 ^ 19) (n : ℕ) :
    framesOf (blockAddress (BitVec.ofNat 32 f)) n = Finset.Ico f (f + n) := by
  unfold framesOf
  rw [blockAddress_ofNat f hf, Nat.mul_div_cancel f (by decide)]

theorem frameOf_eq (base : Addr) : frameOf base = BitVec.ofNat 32 (base.toNat / 4096) := by
  apply BitVec.eq_of_toNat_eq
  unfold frameOf blockSize
  simp only [BitVec.toNat_setWidth, BitVec.toNat_udiv, BitVec.toNat_ofNat]

structure Changes (s t : State) (given taken : Finset ℕ) : Prop where
  free : ∀ g ∈ taken, used s g = false ∧ g < 2 ^ 20
  used : ∀ g, Pmm.used t g = (Pmm.used s g && decide (g ∉ given) || decide (g ∈ taken))

theorem effect_find {blocks : Option (BitVec 64)}
    (hruns : body.Runs (.find blocks) s (some base) t) (hN : s.nframes.toNat ≤ 2 ^ 19)
    (hpos : (blocks.getD 1).toNat ≠ 0) (hlow : (blocks.getD 1).toNat ≤ 2 ^ 19) :
    Changes s t ∅ (framesOf base (blocks.getD 1).toNat) := by
  obtain ⟨hne, rfl, rfl⟩ := runs_find hruns
  obtain ⟨f, hscan, hfind⟩ := findFor_eq hne
  have hf := scanFrames_lt hscan hpos
  rw [hfind, framesOf_blockAddress (by omega)]
  constructor
  · intro g hg
    obtain ⟨hlo, hhi⟩ := Finset.mem_Ico.mp hg
    have hfree := scanFrames_eq_some s _ f hscan (by omega) (g - f) (by omega)
    rw [Nat.add_sub_cancel' hlo] at hfree
    exact ⟨hfree, by omega⟩
  · intro g
    refine (used_setFrames s f (blocks.getD 1).toNat g (by omega)).trans ?_
    simp

theorem effect_free {blocks : BitVec 64} {r : Answer}
    (hlow : ∀ g ∈ framesOf base blocks.toNat, g < 2 ^ 20)
    (hruns : body.Runs (.load false (frameOf base) 0 blocks) s r t) :
    Changes s t (framesOf base blocks.toNat) ∅ := by
  obtain ⟨-, rfl⟩ := runs_free.mp hruns
  rw [frameOf_eq]
  refine ⟨fun g hg => absurd hg (Finset.notMem_empty g), fun g => ?_⟩
  by_cases hzero : blocks.toNat = 0
  · rw [hzero]
    unfold framesOf clearFrames
    simp [used]
  · have hlast := hlow (base.toNat / 4096 + (blocks.toNat - 1)) (mem_framesOf.mpr (by omega))
    refine (used_clearFrames s (base.toNat / 4096) blocks.toNat g (by omega)).trans ?_
    simp [framesOf]

end Frames

section Owners

variable {ι : Type*} [DecidableEq ι]

abbrev Owners (ι : Type*) := ι → Finset ℕ

def Owners.after (held : Owners ι) (a : (ι × Call) × Answer) : Owners ι :=
  Function.update held a.1.1 (held a.1.1 \ given a.1.2 ∪ taken a.1.2 a.2)

def ownersOf (tr : List ((ι × Call) × Answer)) : Owners ι :=
  tr.foldl Owners.after fun _ => ∅

/-- A processor gives back its own frames only, and asks for no more than 2 GiB at once. -/
def Legal (held : Owners ι) (i : ι) (k : Call) : Prop :=
  given k ⊆ held i ∧ match k with
    | .allocateBlocks blocks => blocks.toNat ≤ 2 ^ 19
    | _ => True

def LegalTrace (tr : List ((ι × Call) × Answer)) : Prop :=
  ∀ tr₁ a tr₂, tr = tr₁ ++ a :: tr₂ → Legal (ownersOf tr₁) a.1.1 a.1.2 ∧ a.2 ≠ none

structure Owned (held : Owners ι) (s : State) : Prop where
  marked : ∀ i, ∀ f ∈ held i, used s f = true ∧ f < 2 ^ 20
  apart : ∀ i j, i ≠ j → Disjoint (held i) (held j)

variable {N : BitVec 64} {held : Owners ι} {m m' : State} {i : ι} {k : Call} {r : Answer}

theorem keeps_nframes (N : BitVec 64) : body.Keeps fun s => s.nframes = N := by
  intro l s l' s' hstep hs
  change step l s = .inl (l', s') at hstep
  unfold step at hstep
  cases l with
  | find blocks =>
    dsimp only at hstep
    split_ifs at hstep
    · cases blocks <;> cases hstep
      exact hs
    · cases hstep
      exact hs
  | load take frame i n =>
    dsimp only at hstep
    split_ifs at hstep
    · cases hstep
      exact hs
    · cases hstep
      exact hs
  | store | count | counted | halted =>
    cases hstep
    exact hs
  | finish => nomatch hstep

/-- A call that is answered in front of the lock neither frees nor allocates. -/
theorem nothing_of_before {t : State} {base : Addr} (h : before k t = some (some base)) :
    given k = ∅ ∧ taken k (some base) = ∅ := by
  cases k with
  | allocateBlock | allocateBlocks blocks =>
    unfold before at h
    dsimp only at h
    split_ifs at h
    nomatch h
  | freeBlock block =>
    unfold before at h
    dsimp only at h
    split_ifs at h with hne
    exact ⟨if_neg hne, rfl⟩
  | freeBlocks base' blocks =>
    unfold before at h
    dsimp only at h
    split_ifs at h with hzero
    refine ⟨?_, rfl⟩
    change framesOf base' blocks.toNat = ∅
    rw [hzero]
    exact Finset.Ico_self _

omit [DecidableEq ι] in
theorem effect (hN : N.toNat ≤ 2 ^ 19) (hm : m.nframes = N) (hlegal : Legal held i k)
    (howned : Owned held m) (hr : r ≠ none)
    (hatomic : body.Atomic (fun s => s.nframes = N) m (i, k) r m') :
    Changes m m' (given k) (taken k r) := by
  obtain ⟨base, rfl⟩ := Option.ne_none_iff_exists'.mp hr
  obtain ⟨hgiven, hasks⟩ := hlegal
  have hlow : ∀ f ∈ given k, f < 2 ^ 20 := fun f hf => (howned.marked i f (hgiven hf)).2
  have hsize : m.nframes.toNat ≤ 2 ^ 19 := hm ▸ hN
  rcases hatomic with ⟨⟨t, -, hpassed⟩, hruns⟩ | ⟨rfl, t, -, hanswered⟩
  · cases k with
    | allocateBlock =>
      have hfind : body.Runs (.find none) m (some base) m' := hruns
      exact effect_find hfind hsize (by decide) (by decide)
    | allocateBlocks blocks =>
      have hne : blocks ≠ 0 := fun hzero =>
        absurd ((if_pos (Or.inl hzero)).symm.trans hpassed) (Option.some_ne_none _)
      have hpos : blocks.toNat ≠ 0 := fun hzero => hne (BitVec.eq_of_toNat_eq hzero)
      have hfind : body.Runs (.find (some blocks)) m (some base) m' := hruns
      exact effect_find hfind hsize hpos hasks
    | freeBlock block =>
      have halign : block % BitVec.ofNat 64 blockSize = 0 := by
        by_contra hne
        exact absurd ((if_pos hne).symm.trans hpassed) (Option.some_ne_none _)
      have hone : given (.freeBlock block) = framesOf block (1 : BitVec 64).toNat := if_pos halign
      rw [hone] at hlow ⊢
      have hload : body.Runs (.load false (frameOf block) 0 1) m (some base) m' := hruns
      exact effect_free hlow hload
    | freeBlocks base' blocks =>
      have hload : body.Runs (.load false (frameOf base') 0 blocks) m (some base) m' := hruns
      exact effect_free hlow hload
  · obtain ⟨hgiven, htaken⟩ := nothing_of_before hanswered
    rw [hgiven, htaken]
    exact ⟨fun g hg => absurd hg (Finset.notMem_empty g), by simp⟩

omit [DecidableEq ι] in
theorem Owned.fresh (howned : Owned held m) (hchanges : Changes m m' (given k) (taken k r))
    (j : ι) :
    Disjoint (taken k r) (held j) := by
  refine Finset.disjoint_left.mpr fun f hf hj => ?_
  exact absurd (howned.marked j f hj).1 (by rw [(hchanges.free f hf).1]; exact Bool.false_ne_true)

theorem Owned.after (howned : Owned held m) (hgiven : given k ⊆ held i)
    (hchanges : Changes m m' (given k) (taken k r)) : Owned (held.after ((i, k), r)) m' := by
  have hself : held.after ((i, k), r) i = held i \ given k ∪ taken k r := by
    simp [Owners.after]
  have hother : ∀ j ≠ i, held.after ((i, k), r) j = held j := by
    intro j hji
    simp [Owners.after, hji]
  have hkept : ∀ j ≠ i, Disjoint (held i \ given k ∪ taken k r) (held j) := by
    intro j hji
    rw [Finset.disjoint_union_left]
    exact ⟨(howned.apart i j hji.symm).mono_left Finset.sdiff_subset, howned.fresh hchanges j⟩
  refine ⟨fun j f hf => ?_, fun j j' hne => ?_⟩
  · by_cases hji : j = i
    · subst hji
      rw [hself] at hf
      rcases Finset.mem_union.mp hf with hf | hf
      · obtain ⟨hold, hnot⟩ := Finset.mem_sdiff.mp hf
        obtain ⟨hmarked, hlt⟩ := howned.marked j f hold
        exact ⟨by rw [hchanges.used, hmarked]; simp [hnot], hlt⟩
      · exact ⟨by rw [hchanges.used]; simp [hf], (hchanges.free f hf).2⟩
    · rw [hother j hji] at hf
      obtain ⟨hmarked, hlt⟩ := howned.marked j f hf
      have hnot : f ∉ given k := fun hfree =>
        Finset.disjoint_left.mp (howned.apart i j (Ne.symm hji)) (hgiven hfree) hf
      exact ⟨by rw [hchanges.used, hmarked]; simp [hnot], hlt⟩
  · by_cases hji : j = i
    · subst hji
      rw [hself, hother j' hne.symm]
      exact hkept j' hne.symm
    · by_cases hj'i : j' = i
      · subst hj'i
        rw [hself, hother j hji]
        exact (hkept j hji).symm
      · rw [hother j hji, hother j' hj'i]
        exact howned.apart j j' hne

variable {s : State} {tr : List ((ι × Call) × Answer)}

theorem ownersOf_concat (tr : List ((ι × Call) × Answer)) (a : (ι × Call) × Answer) :
    ownersOf (tr ++ [a]) = (ownersOf tr).after a := by
  unfold ownersOf
  rw [List.foldl_append, List.foldl_cons, List.foldl_nil]

theorem LegalTrace.init {a : (ι × Call) × Answer} (h : LegalTrace (tr ++ [a])) : LegalTrace tr := by
  rintro tr₁ b tr₂ rfl
  refine h tr₁ b (tr₂ ++ [a]) ?_
  rw [List.append_assoc, List.cons_append]

def FreshTrace (tr : List ((ι × Call) × Answer)) : Prop :=
  ∀ tr₁ a tr₂, tr = tr₁ ++ a :: tr₂ → ∀ j, Disjoint (taken a.1.2 a.2) (ownersOf tr₁ j)

theorem FreshTrace.concat {a : (ι × Call) × Answer} (h : FreshTrace tr)
    (ha : ∀ j, Disjoint (taken a.1.2 a.2) (ownersOf tr j)) : FreshTrace (tr ++ [a]) := by
  intro tr₁ b tr₂ hsplit
  rcases List.eq_nil_or_concat' tr₂ with rfl | ⟨tr₃, c, rfl⟩
  · obtain ⟨rfl, hab⟩ := List.append_inj' hsplit rfl
    rw [← (List.cons.inj hab).1]
    exact ha
  · rw [← List.cons_append, ← List.append_assoc] at hsplit
    exact h tr₁ b tr₃ (List.append_inj' hsplit rfl).1

theorem owned_of_run (hN : N.toNat ≤ 2 ^ 19) (hs : s.nframes = N)
    (hrun : Run (body.Atomic fun s => s.nframes = N) s tr m) (hlegal : LegalTrace tr) :
    Owned (ownersOf tr) m ∧ FreshTrace tr ∧ m.nframes = N := by
  induction hrun with
  | start =>
    refine ⟨⟨fun i f hf => ?_, fun i j _ => Finset.disjoint_empty_left _⟩,
        fun tr₁ a tr₂ h => ?_, hs⟩
    · exact absurd hf (Finset.notMem_empty f)
    · exact absurd h.symm (List.append_ne_nil_of_right_ne_nil tr₁ (List.cons_ne_nil a tr₂))
  | @call tr d e k r _ hstep ih =>
    obtain ⟨i, k⟩ := k
    obtain ⟨howned, hfresh, hd⟩ := ih hlegal.init
    obtain ⟨hcall, hr⟩ := hlegal tr ((i, k), r) [] rfl
    have hchanges := effect hN hd hcall howned hr hstep
    rw [ownersOf_concat]
    exact ⟨howned.after hcall.1 hchanges, hfresh.concat (howned.fresh hchanges),
      (keeps_nframes N).atomic hstep hd⟩

/-- However the loads and stores of the processors interleave, no frame is with two of them, no
frame is handed out that anyone has, and whenever nobody has the lock the bitmap has all frames that
are out. -/
theorem frames_exclusive {d : Config ι Call At State} (hsize : s.nframes.toNat ≤ 2 ^ 19)
    (hexec : Exec body (quiet s) tr d) (hlegal : LegalTrace tr) :
    (∀ i j, i ≠ j → Disjoint (ownersOf tr i) (ownersOf tr j)) ∧ FreshTrace tr ∧
      (d.locked = false → ∀ i, ∀ f ∈ ownersOf tr i, used d.shared f = true) := by
  obtain ⟨m, hrun, hstands⟩ := hexec.refines (keeps_nframes s.nframes) rfl
  obtain ⟨howned, hfresh, -⟩ := owned_of_run hsize rfl hrun hlegal
  refine ⟨howned.apart, hfresh, fun hfree i f hf => ?_⟩
  cases hstands with
  | free _ hshared =>
    rw [hshared]
    exact (howned.marked i f hf).1
  | held hlocked => exact absurd hlocked (by rw [hfree]; exact Bool.false_ne_true)

end Owners

section Sample

def sampleTrace : List ((Bool × Call) × Answer) :=
  [((true, .allocateBlock), some 0), ((false, .allocateBlock), some 0x1000)]

theorem exec_sample : ∃ d, Exec body (quiet freeBitmap) sampleTrace d := by
  have hcalls := (Exec.start (B := body) (c := quiet freeBitmap)).step
    (.call (i := true) (k := .allocateBlock) rfl rfl)
    |>.step (.call (i := false) (k := .allocateBlock) rfl rfl)
    |>.step (.acquire (i := true) rfl rfl) |>.step (.spin (i := false) rfl rfl)
    |>.step (.work (i := true) rfl rfl) |>.step (.work (i := true) rfl rfl)
    |>.step (.work (i := true) rfl rfl) |>.step (.work (i := true) rfl rfl)
    |>.step (.work (i := true) rfl rfl) |>.step (.work (i := true) rfl rfl)
    |>.step (.release (i := true) rfl rfl) |>.step (.acquire (i := false) rfl rfl)
    |>.step (.work (i := false) rfl rfl) |>.step (.work (i := false) rfl rfl)
    |>.step (.work (i := false) rfl rfl) |>.step (.work (i := false) rfl rfl)
    |>.step (.work (i := false) rfl rfl) |>.step (.work (i := false) rfl rfl)
    |>.step (.release (i := false) rfl rfl)
  exact ⟨_, hcalls⟩

theorem sample_legal : LegalTrace sampleTrace := by
  have hlegal : ∀ (held : Owners Bool) (i : Bool), Legal held i .allocateBlock :=
    fun held i => ⟨Finset.empty_subset _, trivial⟩
  intro tr₁ a tr₂ h
  have ha : a ∈ sampleTrace := by
    rw [h]
    exact List.mem_append_right tr₁ List.mem_cons_self
  rcases List.mem_cons.mp ha with rfl | ha
  · exact ⟨hlegal _ _, Option.some_ne_none _⟩
  · rw [List.mem_singleton.mp ha]
    exact ⟨hlegal _ _, Option.some_ne_none _⟩

theorem sample_exclusive : ∃ d, Exec body (quiet freeBitmap) sampleTrace d ∧
    (∀ i j, i ≠ j → Disjoint (ownersOf sampleTrace i) (ownersOf sampleTrace j)) ∧
      FreshTrace sampleTrace ∧
      (d.locked = false → ∀ i, ∀ f ∈ ownersOf sampleTrace i, used d.shared f = true) := by
  obtain ⟨d, hexec⟩ := exec_sample
  exact ⟨d, hexec, frames_exclusive (by decide) hexec sample_legal⟩

end Sample

end ReduceOS.SharedFrames
