import Mathlib.Algebra.Order.Group.Nat
import ReduceOS.BlockStore
import ReduceOS.LiballocFree
import ReduceOS.TraceRefinement

/-!
The calls of liballoc one after the other. Whatever its callers do within their blocks, they see
what they would see of a store of separate blocks: each block keeps what was stored in it, and a
block that grows takes its contents along.
-/
namespace ReduceOS.LiballocCalls

open Machine Liballoc LiballocHeap LiballocMalloc LiballocFree BlockStore LinkedSequence Packing

variable {σ : Type} {L : LawfulHooks σ} {s s' : State σ} {h : List Chunk} {k k' : ℕ}

def step (H : Hooks σ) (k : ℕ) (s : State σ) : Call (BitVec 8) → Option (ℕ × State σ)
  | .malloc size => Liballoc.malloc H s k size
  | .calloc count size => Liballoc.calloc H s k count size
  | .realloc p size => Liballoc.realloc H s k p size
  | .free p => (Liballoc.free H s p).map fun s => (0, s)
  | .store p i b => some (0, s.setByte (p + i) b)

section Rounds

variable {H : Hooks σ}

theorem fitLoop_mono {maj size reqSize min : ℕ} {r : Option (ℕ × State σ)} (hk : k ≤ k')
    (h : fitLoop s maj size reqSize k min = some r) :
    fitLoop s maj size reqSize k' min = some r := by
  induction k generalizing min k' with
  | zero => exact absurd h (Option.some_ne_none r).symm
  | succ k ih =>
    obtain ⟨k', rfl⟩ := Nat.exists_eq_add_of_le' hk
    rw [← Nat.add_assoc]
    rw [fitLoop] at h ⊢
    split_ifs at h ⊢
    · exact h
    · exact h
    · exact ih (by omega) h

theorem searchMajor_mono {maj size reqSize bestSize : ℕ} {startedBet : Bool} {t : Turn σ}
    (hk : k ≤ k')
    (h : searchMajor H s k size reqSize startedBet bestSize maj = some t) :
    searchMajor H s k' size reqSize startedBet bestSize maj = some t := by
  unfold searchMajor placeIn at *
  dsimp only [bind, Option.bind] at *
  split_ifs at h ⊢
  · exact h
  · exact h
  · cases hfit : fitLoop s maj size reqSize k (s.majors maj).first with
    | none =>
      rw [hfit] at h
      exact absurd h (Option.some_ne_none t).symm
    | some r =>
      rw [fitLoop_mono hk hfit]
      rwa [hfit] at h

theorem turn_mono {maj size reqSize bestSize : ℕ} {startedBet : Bool} {t : Turn σ}
    (hk : k ≤ k') (h : turn H s k size reqSize startedBet bestSize maj = some t) :
    turn H s k' size reqSize startedBet bestSize maj = some t := by
  have htry : ∀ (s : State σ) (bestSize : ℕ),
      tryMajor H s k size reqSize startedBet bestSize maj = some t →
      tryMajor H s k' size reqSize startedBet bestSize maj = some t := by
    intro s bestSize h
    unfold tryMajor at *
    dsimp only [bind, Option.bind] at *
    split_ifs at h ⊢
    · exact h
    · exact h
    · cases happend : appendMajor H s maj size with
      | none =>
        rw [happend] at h
        exact absurd h (Option.some_ne_none t).symm
      | some r =>
        rw [happend] at h
        dsimp only at h ⊢
        split_ifs at h ⊢
        · exact h
        · exact searchMajor_mono hk h
    · exact searchMajor_mono hk h
  unfold turn at *
  dsimp only at *
  split_ifs at h ⊢
  · exact htry _ _ h
  · exact htry _ _ h

theorem majorLoop_mono {maj size reqSize bestSize n n' : ℕ} {startedBet : Bool}
    {r : ℕ × State σ} (hk : k ≤ k') (hn : n ≤ n')
    (h : majorLoop H k size reqSize n maj startedBet bestSize s = some r) :
    majorLoop H k' size reqSize n' maj startedBet bestSize s = some r := by
  induction n generalizing maj startedBet bestSize s n' with
  | zero => exact absurd h (Option.some_ne_none r).symm
  | succ n ih =>
    obtain ⟨n', rfl⟩ := Nat.exists_eq_add_of_le' hn
    rw [← Nat.add_assoc]
    rw [majorLoop] at h ⊢
    split_ifs at h ⊢
    · exact h
    · cases hturn : turn H s k size reqSize startedBet bestSize maj with
      | none =>
        rw [hturn] at h
        exact absurd h (Option.some_ne_none r).symm
      | some t =>
        rw [turn_mono hk hturn]
        rw [hturn] at h
        cases t with
        | returns p s' => exact h
        | goesOn maj' startedBet' bestSize' s' => exact ih (by omega) h

theorem malloc_mono {reqSize : ℕ} {r : ℕ × State σ} (hk : k ≤ k')
    (h : Liballoc.malloc H s k reqSize = some r) : Liballoc.malloc H s k' reqSize = some r := by
  have hsized : ∀ (s : State σ) (size reqSize : ℕ), mallocSized H s k size reqSize = some r →
      mallocSized H s k' size reqSize = some r := by
    intro s size reqSize h
    unfold mallocSized at *
    dsimp only [bind, Option.bind] at *
    cases hroot : ensureRoot H s size with
    | none =>
      rw [hroot] at h
      exact absurd h (Option.some_ne_none r).symm
    | some s₁ =>
      rw [hroot] at h
      dsimp only at h ⊢
      unfold search at *
      dsimp only at *
      split_ifs at h ⊢
      all_goals first | exact h | exact majorLoop_mono hk hk h
  unfold Liballoc.malloc at *
  split_ifs at h ⊢
  · exact hsized _ _ _ h
  · exact hsized _ _ _ h

/-- More rounds change nothing in what a call comes to. -/
theorem step_mono {c : Call (BitVec 8)} {r : ℕ × State σ} (hk : k ≤ k')
    (h : step H k s c = some r) : step H k' s c = some r := by
  cases c with
  | malloc size => exact malloc_mono hk h
  | calloc count size =>
    unfold step Liballoc.calloc at *
    dsimp only [bind, Option.bind] at *
    cases hmalloc : Liballoc.malloc H s k
        ((BitVec.ofNat 32 (count * size)).signExtend 64).toNat with
    | none =>
      rw [hmalloc] at h
      exact absurd h (Option.some_ne_none r).symm
    | some res =>
      rw [malloc_mono hk hmalloc]
      rwa [hmalloc] at h
  | realloc p size =>
    unfold step Liballoc.realloc moveBlock at *
    dsimp only [bind, Option.bind] at *
    split_ifs at h ⊢
    · exact h
    · exact malloc_mono hk h
    · exact h
    · exact h
    · cases hmalloc : Liballoc.malloc H s k size with
      | none =>
        rw [hmalloc] at h
        exact absurd h (Option.some_ne_none r).symm
      | some res =>
        rw [malloc_mono hk hmalloc]
        rwa [hmalloc] at h
  | free p => exact h
  | store p i b => exact h

end Rounds

def Returns (H : Hooks σ) (s : State σ) (c : Call (BitVec 8)) (r : ℕ) (s' : State σ) : Prop :=
  ∃ k, step H k s c = some (r, s')

section Bytes

variable {bytes : ℕ → BitVec 8} {dest src p n a : ℕ}

theorem liballocMemset_apply (c : BitVec 8) : liballocMemset bytes p c n a =
    if p ≤ a ∧ a < p + n then c else bytes a := by
  induction n with
  | zero =>
    have hnot : ¬ (p ≤ a ∧ a < p + 0) := by omega
    rw [if_neg hnot]
    rfl
  | succ n ih =>
    rw [liballocMemset]
    by_cases ha : a = p + n
    · subst ha
      have hin : p ≤ p + n ∧ p + n < p + (n + 1) := by omega
      rw [Function.update_self, if_pos hin]
    · rw [Function.update_of_ne ha, ih]
      have hiff : (p ≤ a ∧ a < p + n) ↔ (p ≤ a ∧ a < p + (n + 1)) := by omega
      simp only [hiff]

theorem copyBytes_apply (hapart : src + n ≤ dest ∨ dest + n ≤ src) :
    copyBytes bytes dest src n a =
      if dest ≤ a ∧ a < dest + n then bytes (src + (a - dest)) else bytes a := by
  induction n generalizing bytes dest src with
  | zero =>
    have hnot : ¬ (dest ≤ a ∧ a < dest + 0) := by omega
    rw [if_neg hnot]
    rfl
  | succ n ih =>
    rw [copyBytes, ih (by omega)]
    by_cases ha : a = dest
    · subst ha
      have hout : ¬ (a + 1 ≤ a ∧ a < a + 1 + n) := by omega
      have hin : a ≤ a ∧ a < a + (n + 1) := by omega
      rw [if_neg hout, if_pos hin, Function.update_self, Nat.sub_self, Nat.add_zero]
    · by_cases hin : dest ≤ a ∧ a < dest + (n + 1)
      · have hin' : dest + 1 ≤ a ∧ a < dest + 1 + n := by omega
        have hsrc : src + 1 + (a - (dest + 1)) = src + (a - dest) := by omega
        have hne : src + (a - dest) ≠ dest := by omega
        rw [if_pos hin', if_pos hin, hsrc, Function.update_of_ne hne]
      · have hout : ¬ (dest + 1 ≤ a ∧ a < dest + 1 + n) := by omega
        rw [if_neg hout, if_neg hin, Function.update_of_ne ha]

/-- Source and destination being apart, it is a copy. -/
theorem liballocMemcpy_apply (hapart : src + n ≤ dest ∨ dest + n ≤ src) :
    liballocMemcpy bytes dest src n a =
      if dest ≤ a ∧ a < dest + n then bytes (src + (a - dest)) else bytes a := by
  induction n using Nat.strong_induction_on generalizing bytes dest src with
  | _ n ih =>
    match n, ih, hapart with
    | n + 4, ih, hapart =>
      rw [liballocMemcpy, ih n (by omega) (by omega)]
      unfold copyWord
      by_cases hword : dest ≤ a ∧ a < dest + 4
      · have hout : ¬ (dest + 4 ≤ a ∧ a < dest + 4 + n) := by omega
        have hin : dest ≤ a ∧ a < dest + (n + 4) := by omega
        rw [if_neg hout, if_pos hword, if_pos hin]
      · by_cases hin : dest ≤ a ∧ a < dest + (n + 4)
        · have hin' : dest + 4 ≤ a ∧ a < dest + 4 + n := by omega
          have hsrc : src + 4 + (a - (dest + 4)) = src + (a - dest) := by omega
          have hnot : ¬ (dest ≤ src + (a - dest) ∧ src + (a - dest) < dest + 4) := by omega
          rw [if_pos hin', if_pos hin, hsrc, if_neg hnot]
        · have hout : ¬ (dest + 4 ≤ a ∧ a < dest + 4 + n) := by omega
          rw [if_neg hout, if_neg hin, if_neg hword]
    | 0, _, hapart => exact copyBytes_apply hapart
    | 1, _, hapart => exact copyBytes_apply hapart
    | 2, _, hapart => exact copyBytes_apply hapart
    | 3, _, hapart => exact copyBytes_apply hapart

def load (bytes : ℕ → BitVec 8) (p n : ℕ) : List (BitVec 8) :=
  (List.range n).map fun i => bytes (p + i)

@[simp]
theorem length_load : (load bytes p n).length = n := by simp [load]

theorem load_congr {bytes' : ℕ → BitVec 8} (h : ∀ a, p ≤ a → a < p + n → bytes' a = bytes a) :
    load bytes' p n = load bytes p n := by
  refine List.map_congr_left fun i hi => ?_
  have hlt := List.mem_range.mp hi
  exact h _ (by omega) (by omega)

theorem take_load {m : ℕ} (h : m ≤ n) : (load bytes p n).take m = load bytes p m := by
  unfold load
  rw [← List.map_take, List.take_range, Nat.min_eq_left h]

theorem set_load {i : ℕ} (b : BitVec 8) :
    (load bytes p n).set i b = load (Function.update bytes (p + i) b) p n := by
  refine List.ext_getElem (by simp) fun j hj hj' => ?_
  by_cases hij : i = j
  · subst hij
    simp [load]
  · simp [load, hij, Ne.symm hij]

end Bytes

section Blocks

variable {c : Chunk} {b b' : Block} {l r : List Chunk} {xs ys : List Block}

def blocksOf (h : List Chunk) : List Block := h.flatMap Chunk.blocks

theorem blocks_pairwise (hat : HeapAt s h) : (blocksOf h).Pairwise Block.Apart := by
  refine List.pairwise_flatMap.mpr ⟨fun c hc => ?_, ?_⟩
  · exact ((hat.chunks c hc).packed.pairwise).imp Or.inl
  · refine hat.apart.imp_of_mem fun hc hd hapart b hb b' hb' => ?_
    have hbounds := (hat.chunks _ hc).bounds hb
    have hbounds' := (hat.chunks _ hd).bounds hb'
    unfold Chunk.Apart at hapart
    unfold Chunk.base at hbounds hbounds'
    unfold Block.Apart
    omega

theorem blocks_apart (hat : HeapAt s h) (hb : b ∈ blocksOf h) (hb' : b' ∈ blocksOf h)
    (hne : b ≠ b') : b.Apart b' := by
  have hsymm : Std.Symm Block.Apart := ⟨fun _ _ hapart => Or.symm hapart⟩
  exact (blocks_pairwise hat).forall hb hb' hne

theorem not_apart_self : ¬ b.Apart b := by
  unfold Block.Apart Block.stop minorBytes
  omega

theorem blocks_nodup (hat : HeapAt s h) : (blocksOf h).Nodup := by
  refine (blocks_pairwise hat).imp ?_
  rintro b b' hapart rfl
  exact not_apart_self hapart

theorem exists_chunk (hb : b ∈ blocksOf h) : ∃ c ∈ h, b ∈ c.blocks := List.mem_flatMap.mp hb

theorem block_bounds (hat : HeapAt s h) (hb : b ∈ blocksOf h) :
    b.start + minorBytes + alignInfo ≤ b.payload ∧ b.payload < b.start + minorBytes + 32 ∧
      b.payload + b.reqSize ≤ b.stop ∧ b.payload % 16 = 0 ∧ b.stop ≤ 2 ^ 64 := by
  obtain ⟨c, hc, hbc⟩ := exists_chunk hb
  have hcat := hat.chunks c hc
  obtain ⟨hlo, hhi, hstop, hmod⟩ := (hcat.blocks b hbc).payload_bounds
  exact ⟨hlo, hhi, hstop, hmod, (hcat.bounds hbc).2.trans hcat.stop_le⟩

theorem payload_injective (hat : HeapAt s h) (hb : b ∈ blocksOf h) (hb' : b' ∈ blocksOf h)
    (heq : b.payload = b'.payload) : b = b' := by
  by_contra hne
  have hapart := blocks_apart hat hb hb' hne
  have hbounds := block_bounds hat hb
  have hbounds' := block_bounds hat hb'
  unfold Block.Apart at hapart
  unfold alignInfo at *
  omega

end Blocks

structure Serves (L : LawfulHooks σ) (s : State σ) (h : List Chunk) (m : Store (BitVec 8)) : Prop
    extends Heap L s h where
  contents : ∀ p c, m p = some c ↔
    ∃ b ∈ blocksOf h, b.payload = p ∧ c = load s.bytes p b.reqSize

section Serves

variable {m : Store (BitVec 8)} {b : Block} {h' : List Chunk}

/-- Of a block there is nothing in memory but its own bytes. -/
theorem contents_payload (hat : HeapAt s h) (hb : b ∈ blocksOf h)
    (bytes : ℕ → BitVec 8) (c : List (BitVec 8)) :
    some (load bytes b.payload b.reqSize) = some c ↔
      ∃ b' ∈ blocksOf h, b'.payload = b.payload ∧ c = load bytes b.payload b'.reqSize := by
  constructor
  · intro heq
    exact ⟨b, hb, rfl, (Option.some.inj heq).symm⟩
  · rintro ⟨b', hb', heq, rfl⟩
    rw [payload_injective hat hb' hb heq]

theorem Serves.lookup (hs : Serves L s h m) (hb : b ∈ blocksOf h) :
    m b.payload = some (load s.bytes b.payload b.reqSize) :=
  (hs.contents _ _).mpr ⟨b, hb, rfl, rfl⟩

theorem Serves.add (hs : Serves L s h m) (hheap : Heap L s' h')
    (hbytes : s'.bytes = withInfo s.bytes b)
    (hmem : ∀ b', b' ∈ blocksOf h' ↔ b' = b ∨ b' ∈ blocksOf h) (hnew : b ∉ blocksOf h) :
    New 16 (2 ^ 64) m b.payload (load s'.bytes b.payload b.reqSize) ∧
      Serves L s' h' (Function.update m b.payload (some (load s'.bytes b.payload b.reqSize))) := by
  have hat := hheap.toHeapAt
  have hb : b ∈ blocksOf h' := (hmem b).mpr (Or.inl rfl)
  have hbounds := block_bounds hat hb
  have hold : ∀ b' ∈ blocksOf h, b.Apart b' ∧
      load s'.bytes b'.payload b'.reqSize = load s.bytes b'.payload b'.reqSize := by
    intro b' hb'
    have hb'' := (hmem b').mpr (Or.inr hb')
    have hne : b ≠ b' := fun heq => hnew (heq ▸ hb')
    have hapart := blocks_apart hat hb hb'' hne
    have hbounds' := block_bounds hat hb''
    refine ⟨hapart, load_congr fun a hlo hhi => ?_⟩
    rw [hbytes]
    refine Function.update_of_ne ?_ _ _
    unfold Block.Apart at hapart
    unfold alignInfo minorBytes at *
    omega
  have hnone : ∀ p c, m p = some c → p ≠ b.payload ∧
      (b.payload + b.reqSize ≤ p ∨ p + c.length ≤ b.payload) := by
    intro p c hp
    obtain ⟨b', hb', rfl, rfl⟩ := (hs.contents p c).mp hp
    have hapart := (hold b' hb').1
    have hbounds' := block_bounds hat ((hmem b').mpr (Or.inr hb'))
    rw [length_load]
    unfold Block.Apart at hapart
    unfold alignInfo at *
    omega
  refine ⟨⟨?_, ?_, ?_, ?_, fun q c hq => ?_⟩, hheap, fun p c => ?_⟩
  · unfold alignInfo at hbounds
    omega
  · exact Nat.dvd_of_mod_eq_zero hbounds.2.2.2.1
  · rw [length_load]
    omega
  · cases hp : m b.payload with
    | none => rfl
    | some c => exact absurd rfl (hnone _ c hp).1
  · rw [length_load]
    exact (hnone q c hq).2
  · by_cases hp : p = b.payload
    · subst hp
      rw [Function.update_self]
      exact contents_payload hat hb s'.bytes c
    · rw [Function.update_of_ne hp, hs.contents p c]
      constructor
      · rintro ⟨b', hb', rfl, rfl⟩
        exact ⟨b', (hmem b').mpr (Or.inr hb'), rfl, (hold b' hb').2.symm⟩
      · rintro ⟨b', hb', rfl, rfl⟩
        rcases (hmem b').mp hb' with rfl | hb'
        · exact absurd rfl hp
        · exact ⟨b', hb', rfl, (hold b' hb').2⟩

theorem Serves.remove (hs : Serves L s h m) (hheap : Heap L s' h') (hbytes : s'.bytes = s.bytes)
    (hb : b ∈ blocksOf h) (hmem : ∀ b', b' ∈ blocksOf h' ↔ b' ≠ b ∧ b' ∈ blocksOf h) :
    Serves L s' h' (Function.update m b.payload none) := by
  refine ⟨hheap, fun p c => ?_⟩
  by_cases hp : p = b.payload
  · subst hp
    rw [Function.update_self]
    refine ⟨fun heq => absurd heq.symm (Option.some_ne_none c), ?_⟩
    rintro ⟨b', hb', heq, rfl⟩
    obtain ⟨hne, hb'⟩ := (hmem b').mp hb'
    exact absurd (payload_injective hs.toHeapAt hb' hb heq) hne
  · rw [Function.update_of_ne hp, hs.contents p c, hbytes]
    constructor
    · rintro ⟨b', hb', rfl, rfl⟩
      exact ⟨b', (hmem b').mpr ⟨fun heq => hp (by rw [heq]), hb'⟩, rfl, rfl⟩
    · rintro ⟨b', hb', rfl, rfl⟩
      exact ⟨b', ((hmem b').mp hb').2, rfl, rfl⟩

/-- A caller stored something in one of its blocks. -/
theorem Serves.write (bytes : ℕ → BitVec 8) (hs : Serves L s h m) (hb : b ∈ blocksOf h)
    (hbytes : ∀ a, a < b.payload ∨ b.payload + b.reqSize ≤ a → bytes a = s.bytes a) :
    Serves L { s with bytes := bytes } h
      (Function.update m b.payload (some (load bytes b.payload b.reqSize))) := by
  have hat := hs.toHeapAt
  have hbounds := block_bounds hat hb
  have hold : ∀ b' ∈ blocksOf h, b' ≠ b → ∀ a, b'.start ≤ a → a < b'.stop →
      bytes a = s.bytes a := by
    intro b' hb' hne a hlo hhi
    have hapart := blocks_apart hat hb' hb hne
    refine hbytes a ?_
    unfold Block.Apart at hapart
    unfold alignInfo at *
    omega
  have hinfo : ∀ b' ∈ blocksOf h, bytes (b'.payload - alignInfo) =
      s.bytes (b'.payload - alignInfo) := by
    intro b' hb'
    have hbounds' := block_bounds hat hb'
    by_cases hne : b' = b
    · subst hne
      refine hbytes _ ?_
      unfold alignInfo at *
      omega
    · refine hold b' hb' hne _ ?_ ?_
      all_goals
        unfold alignInfo at *
        omega
  have hchunks : ∀ c ∈ h, ChunkAt { s with bytes := bytes } c := by
    intro c hc
    have hcat := hat.chunks c hc
    refine ⟨hcat.start_pos, hcat.stop_le, hcat.size_lt, hcat.pages, hcat.size, hcat.usage,
      hcat.first, hcat.minors, hcat.packed, fun b' hb' => ?_⟩
    have hbat := hcat.blocks b' hb'
    refine ⟨hbat.owner, hbat.magic, hbat.size, hbat.reqSize, hbat.room, ?_⟩
    have heq := hinfo b' (List.mem_flatMap.mpr ⟨c, hc, hb'⟩)
    exact (congrArg BitVec.toNat heq).trans hbat.info
  refine ⟨⟨⟨hat.majors, hat.root, hat.best, hchunks, hat.apart, hat.allocated, hat.inuse⟩,
    hs.full, hs.pages⟩, fun p c => ?_⟩
  have hload : ∀ b' ∈ blocksOf h, b' ≠ b →
      load bytes b'.payload b'.reqSize = load s.bytes b'.payload b'.reqSize := by
    intro b' hb' hne
    have hbounds' := block_bounds hat hb'
    refine load_congr fun a hlo hhi => hold b' hb' hne a ?_ ?_
    · omega
    · omega
  by_cases hp : p = b.payload
  · subst hp
    rw [Function.update_self]
    exact contents_payload hat hb bytes c
  · rw [Function.update_of_ne hp, hs.contents p c]
    constructor
    · rintro ⟨b', hb', rfl, rfl⟩
      exact ⟨b', hb', rfl, (hload b' hb' fun heq => hp (by rw [heq])).symm⟩
    · rintro ⟨b', hb', rfl, rfl⟩
      exact ⟨b', hb', rfl, hload b' hb' fun heq => hp (by rw [heq])⟩

end Serves

section Allocate

variable {m : Store (BitVec 8)} {c : Chunk} {b : Block} {l r : List Chunk} {xs ys : List Block}
  {size reqSize p a : ℕ}

theorem mem_blocksOf_put (hblocks : c.blocks = xs ++ ys) (b' : Block) :
    b' ∈ blocksOf (l ++ c.put xs ys b :: r) ↔ b' = b ∨ b' ∈ blocksOf (l ++ c :: r) := by
  simp only [blocksOf, Chunk.put, List.flatMap_append, List.flatMap_cons, List.mem_append,
    List.mem_cons, hblocks]
  grind

theorem mem_blocksOf_drop (hat : HeapAt s (l ++ c :: r)) (hblocks : c.blocks = xs ++ b :: ys)
    (b' : Block) : b' ∈ blocksOf (l ++ dropBlock c xs ys :: r) ↔
      b' ≠ b ∧ b' ∈ blocksOf (l ++ c :: r) := by
  have hnodup := blocks_nodup hat
  have hsplit : blocksOf (l ++ c :: r) = (blocksOf l ++ xs) ++ b :: (ys ++ blocksOf r) := by
    simp [blocksOf, hblocks]
  have hdrop : blocksOf (l ++ dropBlock c xs ys :: r) =
      (blocksOf l ++ xs) ++ (ys ++ blocksOf r) := by
    simp [blocksOf, dropBlock]
  rw [hsplit] at hnodup
  have hb := (List.nodup_cons.mp (List.nodup_middle.mp hnodup)).1
  rw [hsplit, hdrop, List.perm_middle.mem_iff, List.mem_cons]
  constructor
  · intro hmem
    exact ⟨ne_of_mem_of_not_mem hmem hb, Or.inr hmem⟩
  · rintro ⟨hne, hmem⟩
    exact hmem.resolve_left hne

/-- `malloc` hands out a new block, or nothing. -/
theorem malloc_serves (hs : Serves L s h m) (hreq : Request reqSize) (hk : Rounds h k)
    (hmalloc : Liballoc.malloc L.toHooks s k reqSize = some (p, s')) :
    (p = 0 ∧ Serves L s' h m) ∨ ∃ h' b, b ∈ blocksOf h' ∧ p = b.payload ∧ b.reqSize = reqSize ∧
      New 16 (2 ^ 64) m p (load s'.bytes p reqSize) ∧
      Serves L s' h' (Function.update m p (some (load s'.bytes p reqSize))) := by
  have hsize : reqSize + 32 + 4176 ≤ 2 ^ 32 := by
    unfold Request at hreq
    omega
  have hsearch := malloc_spec hs.toHeap hreq hk
  rw [hmalloc] at hsearch
  rcases hsearch with ⟨l, c, r, xs, ys, b, hin⟩ | ⟨-, ⟨a, hnew⟩ | hno⟩
  · right
    have hheap := hin.heap_kept hs.toHeap
    have hmem := mem_blocksOf_put (l := l) (r := r) (b := b) hin.gap.blocks
    have hnew : b ∉ blocksOf h := by
      intro hb
      have hnodup := blocks_nodup hheap.toHeapAt
      have hsplit : blocksOf (l ++ c.put xs ys b :: r) =
          (blocksOf l ++ xs) ++ b :: (ys ++ blocksOf r) := by
        simp [blocksOf, Chunk.put]
      have hold : blocksOf h = (blocksOf l ++ xs) ++ (ys ++ blocksOf r) := by
        rw [hin.split]
        simp [blocksOf, hin.gap.blocks]
      rw [hsplit] at hnodup
      rw [hold] at hb
      exact (List.nodup_cons.mp (List.nodup_middle.mp hnodup)).1 hb
    rw [← hin.split] at hmem
    obtain ⟨hfresh, hserves⟩ := hs.add hheap hin.bytes hmem hnew
    rw [← hin.pointer, hin.reqSize] at hfresh hserves
    exact ⟨_, b, (hmem b).mpr (Or.inl rfl), hin.pointer, hin.reqSize, hfresh, hserves⟩
  · right
    have hheap := hnew.heap_kept hs.toHeap hsize
    let b := newBlock a (reqSize + 32) reqSize
    have hsplit : blocksOf (h ++ [(freshChunk a (reqSize + 32)).put [] [] b]) =
        blocksOf h ++ [b] := by
      simp [blocksOf, Chunk.put]
    have hmem : ∀ b', b' ∈ blocksOf (h ++ [(freshChunk a (reqSize + 32)).put [] [] b]) ↔
        b' = b ∨ b' ∈ blocksOf h := by
      intro b'
      rw [hsplit, List.mem_append, List.mem_singleton, or_comm]
    have hb : b ∉ blocksOf h := by
      intro hb
      have hnodup := blocks_nodup hheap.toHeapAt
      rw [hsplit] at hnodup
      exact (List.nodup_append.mp hnodup).2.2 b hb b List.mem_cons_self rfl
    obtain ⟨hfresh, hserves⟩ := hs.add hheap hnew.bytes hmem hb
    have hpointer : p = b.payload := hnew.pointer
    rw [← hpointer] at hfresh hserves
    exact ⟨_, b, (hmem b).mpr (Or.inl rfl), hpointer, rfl, hfresh, hserves⟩
  · left
    refine ⟨hno.pointer, hno.heap_kept hs.toHeap hsize, fun q c => ?_⟩
    rw [hno.bytes]
    exact hs.contents q c

/-- `free` takes the block of its caller. -/
theorem free_serves (hs : Serves L s h m) (hb : b ∈ blocksOf h)
    (hfree : Liballoc.free L.toHooks s b.payload = some s') :
    ∃ h', Serves L s' h' (Function.update m b.payload none) ∧
      ∀ b', b' ∈ blocksOf h' ↔ b' ≠ b ∧ b' ∈ blocksOf h := by
  obtain ⟨c, hc, hbc⟩ := exists_chunk hb
  obtain ⟨l, r, rfl⟩ := List.append_of_mem hc
  obtain ⟨xs, ys, hblocks⟩ := List.append_of_mem hbc
  obtain ⟨h', hfreed⟩ := free_spec hs.toHeap hblocks hfree
  have hmem : ∀ b', b' ∈ blocksOf h' ↔ b' ≠ b ∧ b' ∈ blocksOf (l ++ c :: r) := by
    intro b'
    rw [← mem_blocksOf_drop hs.toHeapAt hblocks]
    by_cases hempty : xs ++ ys = []
    · rw [(hfreed.released hempty).1]
      simp [blocksOf, dropBlock, hempty]
    · rw [(hfreed.kept hempty).1]
  exact ⟨h', hs.remove hfreed.heap hfreed.bytes hb hmem, hmem⟩

end Allocate

section Keep

variable {m : Store (BitVec 8)} {c : Chunk} {b : Block} {size : ℕ}

def Block.resize (b : Block) (size : ℕ) : Block := { b with reqSize := size }

def resized (s : State σ) (b : Block) (size : ℕ) : State σ :=
  s.setMinor b.start { s.minors b.start with reqSize := word32 size }

theorem resized_minor (hsize : size < 2 ^ 32) (a : ℕ) :
    (resized s b size).minors a =
      { s.minors a with reqSize := if a = b.start then size else (s.minors a).reqSize } := by
  unfold resized State.setMinor
  by_cases ha : a = b.start
  · subst ha
    simp [word32_of_lt hsize]
  · simp [ha]

theorem resized_heapAt {l r : List Chunk} {xs ys : List Block} (hat : HeapAt s (l ++ c :: r))
    (hblocks : c.blocks = xs ++ b :: ys) (hle : size ≤ b.reqSize) :
    HeapAt (resized s b size)
      (l ++ { c with blocks := xs ++ Block.resize b size :: ys } :: r) := by
  have hcat := hat.chunks c (List.mem_append_right l List.mem_cons_self)
  have hb := mem_of_split hblocks
  have hbat := hcat.blocks b hb
  obtain ⟨hlo, hhi⟩ := hcat.bounds hb
  have hsmall : size < 2 ^ 32 := by
    have hfit := hcat.size_lt
    have hroom := hbat.room
    unfold Chunk.base at hlo
    unfold Block.stop Chunk.stop at hhi
    omega
  have hminor := resized_minor (s := s) (b := b) hsmall
  have hstarts : (xs ++ Block.resize b size :: ys).map Block.start = c.starts := by
    unfold Chunk.starts Block.resize
    rw [hblocks, List.map_append, List.map_append, List.map_cons, List.map_cons]
  have htaken : taken Block.start Block.stop (xs ++ Block.resize b size :: ys) =
      taken Block.start Block.stop c.blocks := by
    rw [hblocks, taken_append, taken_append, taken_cons, taken_cons]
    rfl
  have hinuse : totalInuse (l ++ { c with blocks := xs ++ Block.resize b size :: ys } :: r) =
      totalInuse (l ++ c :: r) := by
    simp [totalInuse, blocksSize, Block.resize, hblocks]
  refine hat.replace rfl rfl ⟨hcat.start_pos, hcat.stop_le, hcat.size_lt, hcat.pages, hcat.size,
    hcat.usage.trans (by rw [htaken]), ?_, ?_, ?_, fun b' hb' => ?_⟩ ⟨fun _ _ => rfl, rfl, rfl, rfl,
    rfl⟩ (fun d hd hapart => ⟨fun _ _ _ => ⟨rfl, rfl, rfl, rfl⟩, fun a hlo' hhi' => ?_,
      fun _ _ _ => rfl⟩) rfl rfl rfl ?_
  · exact hcat.first.trans (congrArg (headOr 0) hstarts.symm)
  · change Linked 0 _ _ ((xs ++ Block.resize b size :: ys).map Block.start)
    rw [hstarts]
    refine hcat.minors.congr fun a _ => ?_
    rw [hminor a]
    exact ⟨rfl, rfl⟩
  · have hpacked := hcat.packed
    rw [hblocks] at hpacked
    obtain ⟨hxs, hstart, hstop, hys⟩ := Packed.append_iff.mp hpacked
    exact Packed.append_iff.mpr ⟨hxs, hstart, hstop, hys⟩
  · rcases (List.perm_middle.mem_iff.trans List.mem_cons).mp hb' with rfl | hb'
    · refine ⟨?_, ?_, ?_, ?_, ?_, hbat.info⟩
      · rw [hminor]
        exact hbat.owner
      · rw [hminor]
        exact hbat.magic
      · rw [hminor]
        exact hbat.size
      · rw [hminor]
        exact if_pos rfl
      · have hroom := hbat.room
        change size + 32 ≤ b.size
        omega
    · have hold : b' ∈ c.blocks := by
        rw [hblocks, List.perm_middle.mem_iff]
        exact List.mem_cons_of_mem b hb'
      have hat' := hcat.blocks b' hold
      have hpacked := hcat.packed
      rw [hblocks] at hpacked
      have hapart := hpacked.apart hb'
      have hne : b'.start ≠ b.start := by
        unfold Block.stop minorBytes at hapart
        omega
      refine ⟨?_, ?_, ?_, ?_, hat'.room, hat'.info⟩
      · rw [hminor]
        exact hat'.owner
      · rw [hminor]
        exact hat'.magic
      · rw [hminor]
        exact hat'.size
      · rw [hminor]
        exact (if_neg hne).trans hat'.reqSize
  · rw [hminor a]
    have hne : a ≠ b.start := by
      unfold Chunk.Apart at hapart
      unfold Chunk.base majorBytes at hlo
      unfold Block.stop minorBytes at hhi
      omega
    rw [if_neg hne]
  · exact hat.inuse.trans (by rw [hinuse])

theorem resized_serves (hs : Serves L s h m) (hb : b ∈ blocksOf h) (hle : size ≤ b.reqSize) :
    ∃ h', Serves L (resized s b size) h'
      (Function.update m b.payload (some (load s.bytes b.payload size))) := by
  obtain ⟨c, hc, hbc⟩ := exists_chunk hb
  obtain ⟨l, r, rfl⟩ := List.append_of_mem hc
  obtain ⟨xs, ys, hblocks⟩ := List.append_of_mem hbc
  have hat := resized_heapAt hs.toHeapAt hblocks hle
  have hmem : ∀ b', b' ∈ blocksOf (l ++ { c with blocks := xs ++ Block.resize b size :: ys } :: r) ↔
      b' = Block.resize b size ∨ b' ≠ b ∧ b' ∈ blocksOf (l ++ c :: r) := by
    intro b'
    rw [← mem_blocksOf_drop hs.toHeapAt hblocks]
    simp only [blocksOf, dropBlock, List.flatMap_append, List.flatMap_cons, List.mem_append,
      List.mem_cons]
    grind
  refine ⟨_, ⟨⟨hat, fun d hd => ?_, ?_⟩, fun p contents => ?_⟩⟩
  · rcases List.mem_append.mp hd with hd | hd
    · exact hs.full d (List.mem_append_left _ hd)
    · rcases List.mem_cons.mp hd with rfl | hd
      · exact List.append_ne_nil_of_right_ne_nil xs (List.cons_ne_nil _ ys)
      · exact hs.full d (List.mem_append_right l (List.mem_cons_of_mem c hd))
  · have hruns : (l ++ { c with blocks := xs ++ Block.resize b size :: ys } :: r).map Chunk.run =
        (l ++ c :: r).map Chunk.run := by
      simp [Chunk.run]
    rw [hruns]
    exact hs.pages
  · by_cases hp : p = b.payload
    · subst hp
      rw [Function.update_self]
      constructor
      · intro heq
        exact ⟨Block.resize b size, (hmem _).mpr (Or.inl rfl), rfl, (Option.some.inj heq).symm⟩
      · rintro ⟨b', hb', heq, rfl⟩
        rcases (hmem b').mp hb' with rfl | ⟨hne, hb'⟩
        · rfl
        · exact absurd (payload_injective hs.toHeapAt hb' hb heq) hne
    · rw [Function.update_of_ne hp, hs.contents p contents]
      constructor
      · rintro ⟨b', hb', rfl, rfl⟩
        exact ⟨b', (hmem b').mpr (Or.inr ⟨fun heq => hp (by rw [heq]), hb'⟩), rfl, rfl⟩
      · rintro ⟨b', hb', rfl, rfl⟩
        rcases (hmem b').mp hb' with rfl | ⟨hne, hb'⟩
        · exact absurd rfl hp
        · exact ⟨b', hb', rfl, rfl⟩

end Keep

section Calls

variable {m m' : Store (BitVec 8)} {b : Block} {c : Call (BitVec 8)} {r p size : ℕ}

/-- What the caller of liballoc may ask for: sizes that leave room in 32 bits, and only blocks that
it has. -/
def Legal (live : ℕ → Option ℕ) : Call (BitVec 8) → Prop
  | .malloc size => Request size
  | .calloc count size => count * size < 2 ^ 31
  | .realloc p size => (p = 0 ∨ (live p).isSome) ∧ Request size
  | .free p => p = 0 ∨ (live p).isSome
  | .store p i _ => ∃ n, live p = some n ∧ i < n

theorem exists_rounds (h : List Chunk) (k : ℕ) : ∃ k', k ≤ k' ∧ Rounds h k' := by
  refine ⟨k + (2 * h.length + 4) + (h.map fun c => c.blocks.length + 1).sum, by omega,
    fun c hc => ?_, by omega⟩
  have hmem : c.blocks.length + 1 ∈ h.map fun c => c.blocks.length + 1 :=
    List.mem_map_of_mem hc
  have hle := List.le_sum_of_mem hmem
  omega

theorem exists_block (hs : Serves L s h m) (hp : (sizes m p).isSome) :
    ∃ b ∈ blocksOf h, b.payload = p ∧ m p = some (load s.bytes p b.reqSize) := by
  unfold sizes at hp
  rw [Option.isSome_map] at hp
  obtain ⟨contents, hcontents⟩ := Option.isSome_iff_exists.mp hp
  obtain ⟨b, hb, hpay, rfl⟩ := (hs.contents p contents).mp hcontents
  exact ⟨b, hb, hpay, hcontents⟩

theorem minor_of_block (hs : Serves L s h m) (hb : b ∈ blocksOf h) :
    minorOf s b.payload = b.start ∧ (s.minors b.start).magic = liballocMagic ∧
      (s.minors b.start).reqSize = b.reqSize := by
  obtain ⟨c, hc, hbc⟩ := exists_chunk hb
  have hcat := hs.chunks c hc
  have hbat := hcat.blocks b hbc
  have hbounds := block_bounds hs.toHeapAt hb
  refine ⟨minorOf_payload hbat ?_, hbat.magic, hbat.reqSize⟩
  unfold Block.stop minorBytes at hbounds
  omega

theorem load_memcpy {bytes : ℕ → BitVec 8} {q n : ℕ} (hapart : p + n ≤ q ∨ q + n ≤ p)
    (hn : n ≤ size) : load (liballocMemcpy bytes q p n) q size =
      load bytes p n ++ load bytes (q + n) (size - n) := by
  refine List.ext_getElem (by simp only [length_load, List.length_append]; omega) fun i hi hi' => ?_
  rw [length_load] at hi
  by_cases hlt : i < n
  · rw [List.getElem_append_left (by rwa [length_load])]
    have hin : q ≤ q + i ∧ q + i < q + n := by omega
    simp only [load, List.getElem_map, List.getElem_range, liballocMemcpy_apply hapart, if_pos hin,
      Nat.add_sub_cancel_left]
  · rw [List.getElem_append_right (by rw [length_load]; omega)]
    have hout : ¬ (q ≤ q + i ∧ q + i < q + n) := by omega
    have hplace : q + n + (i - n) = q + i := by omega
    simp only [load, List.getElem_map, List.getElem_range, liballocMemcpy_apply hapart,
      if_neg hout, List.length_map, List.length_range, hplace]

/-- A block that is too small: its contents go to a new one. -/
theorem moveBlock_serves (hs : Serves L s h m) (hreq : Request size) (hk : Rounds h k)
    (hb : b ∈ blocksOf h) (hlt : b.reqSize < size)
    (hmove : moveBlock L.toHooks s k b.payload size b.reqSize = some (r, s')) :
    ∃ h' m', BlockStore.Step 16 (2 ^ 64) 0 m (.realloc b.payload size) r m' ∧
      Serves L s' h' m' := by
  have hcontents := hs.lookup hb
  unfold moveBlock at hmove
  dsimp only [bind, Option.bind] at hmove
  cases hmalloc : Liballoc.malloc L.toHooks s k size with
  | none =>
    rw [hmalloc] at hmove
    exact absurd hmove.symm (Option.some_ne_none _)
  | some res =>
    obtain ⟨q, s₁⟩ := res
    rw [hmalloc] at hmove
    dsimp only at hmove
    split_ifs at hmove with hfault
    cases hfree : Liballoc.free L.toHooks
        { s₁ with bytes := liballocMemcpy s₁.bytes q b.payload b.reqSize } b.payload with
    | none =>
      rw [hfree] at hmove
      exact absurd hmove.symm (Option.some_ne_none _)
    | some s₂ =>
      rw [hfree] at hmove
      obtain ⟨rfl, rfl⟩ := Prod.mk.inj (Option.some.inj hmove)
      rcases malloc_serves hs hreq hk hmalloc with ⟨rfl, hs₁⟩ | ⟨h₁, b', hb', rfl, hbreq, hnew, hs₁⟩
      · -- nothing is copied from a block of no bytes
        have hzero : b.reqSize = 0 := Decidable.not_not.mp fun hne => hfault ⟨rfl, hne⟩
        rw [hzero] at hfree
        obtain ⟨h', hs', -⟩ := free_serves hs₁ hb hfree
        rw [hzero] at hcontents
        exact ⟨h', _, Step.reallocLost hcontents, hs'⟩
      · have hapart := hnew.apart _ _ hcontents
        rw [length_load, length_load] at hapart
        have hne : b.payload ≠ b'.payload := by
          intro heq
          rw [heq, hnew.unused] at hcontents
          exact Option.some_ne_none _ hcontents.symm
        have hold : Function.update m b'.payload (some (load s₁.bytes b'.payload size)) b.payload =
            some (load s.bytes b.payload b.reqSize) := by
          rw [Function.update_of_ne hne, hcontents]
        obtain ⟨b₁, hb₁, hpay, hload⟩ := (hs₁.contents _ _).mp hold
        have hlen : b.reqSize = b₁.reqSize := by
          have := congrArg List.length hload
          rwa [length_load, length_load] at this
        rw [← hlen] at hload
        have hs₂ := hs₁.write (liballocMemcpy s₁.bytes b'.payload b.payload b.reqSize) hb' (by
          intro a ha
          rw [liballocMemcpy_apply (by omega), if_neg (by omega)])
        rw [hbreq, load_memcpy (by omega) (by omega), ← hload, Function.update_idem] at hs₂
        have hfree' : Liballoc.free L.toHooks
            { s₁ with bytes := liballocMemcpy s₁.bytes b'.payload b.payload b.reqSize }
            b₁.payload = some s₂ := by rwa [hpay]
        obtain ⟨h', hs', -⟩ := free_serves hs₂ hb₁ hfree'
        rw [hpay, Function.update_comm hne.symm] at hs'
        refine ⟨h', _, Step.reallocMove hcontents ⟨hnew.ne_zero, hnew.aligned, ?_, hnew.unused, ?_⟩
          ?_ ?_, hs'⟩
        · have := hnew.below
          rw [length_load] at this
          simp only [List.length_append, length_load]
          omega
        · intro x d hx
          have := hnew.apart x d hx
          rw [length_load] at this
          simp only [List.length_append, length_load]
          omega
        · refine List.ne_nil_of_length_pos ?_
          rw [length_load]
          omega
        · simp only [List.length_append, length_load]
          omega

theorem free_null (hfree : Liballoc.free L.toHooks s 0 = some s') :
    s' = { s with warningCount := s.warningCount + 1 } := by
  unfold Liballoc.free at hfree
  rw [if_pos rfl] at hfree
  exact (Option.some.inj hfree).symm

theorem Serves.warned (hs : Serves L s h m) :
    Serves L { s with warningCount := s.warningCount + 1 } h m := by
  refine ⟨⟨?_, hs.full, hs.pages⟩, hs.contents⟩
  exact heapAt_congr hs.toHeapAt rfl rfl rfl rfl hs.best rfl rfl

/-- A call that returns does what it does to a store of separate blocks. -/
theorem step_serves (hs : Serves L s h m) (hlegal : Legal (sizes m) c) (hk : Rounds h k)
    (hstep : step L.toHooks k s c = some (r, s')) :
    ∃ h' m', BlockStore.Step 16 (2 ^ 64) 0 m c r m' ∧ Serves L s' h' m' := by
  cases c with
  | malloc size =>
    rcases malloc_serves hs hlegal hk hstep with ⟨rfl, hs'⟩ | ⟨h', b, -, -, -, hnew, hs'⟩
    · exact ⟨h, m, Step.mallocNull, hs'⟩
    · exact ⟨h', _, Step.malloc hnew (length_load), hs'⟩
  | calloc count size =>
    have hlt : count * size < 2 ^ 31 := hlegal
    have hreal : ((BitVec.ofNat 32 (count * size)).signExtend 64).toNat = count * size :=
      toNat_signExtend_ofNat hlt
    have hreq : Request (count * size) := by
      unfold Request
      omega
    unfold step Liballoc.calloc at hstep
    dsimp only [bind, Option.bind] at hstep
    rw [hreal] at hstep
    cases hmalloc : Liballoc.malloc L.toHooks s k (count * size) with
    | none =>
      rw [hmalloc] at hstep
      exact absurd hstep.symm (Option.some_ne_none _)
    | some res =>
      obtain ⟨p, s₁⟩ := res
      rw [hmalloc] at hstep
      dsimp only at hstep
      split_ifs at hstep with hfault
      obtain ⟨rfl, rfl⟩ := Prod.mk.inj (Option.some.inj hstep)
      rw [not_or, not_and_or] at hfault
      rcases malloc_serves hs hreq hk hmalloc with ⟨rfl, hs'⟩ | ⟨h', b, hb, rfl, hbreq, hnew, hs'⟩
      · have hzero : count * size = 0 :=
          Decidable.not_not.mp (hfault.2.resolve_left fun hn => hn rfl)
        rw [hzero]
        exact ⟨h, m, Step.callocNull, hs'⟩
      · have hload : load (liballocMemset s₁.bytes b.payload 0 (count * size)) b.payload b.reqSize =
            List.replicate (count * size) 0 := by
          rw [hbreq]
          refine List.ext_getElem (by simp) fun i hi hi' => ?_
          rw [length_load] at hi
          have hin : b.payload ≤ b.payload + i ∧ b.payload + i < b.payload + count * size := by
            omega
          simp only [load, List.getElem_map, List.getElem_range, liballocMemset_apply, if_pos hin,
            List.getElem_replicate]
        have hs'' := hs'.write (liballocMemset s₁.bytes b.payload 0 (count * size)) hb (by
          intro a ha
          rw [liballocMemset_apply, if_neg (by omega)])
        rw [hload, Function.update_idem] at hs''
        refine ⟨h', _, Step.calloc ⟨hnew.ne_zero, hnew.aligned, ?_, hnew.unused, ?_⟩, hs''⟩
        · have := hnew.below
          rw [length_load] at this
          rwa [List.length_replicate]
        · intro q d hq
          have := hnew.apart q d hq
          rw [length_load] at this
          rwa [List.length_replicate]
  | realloc p size =>
    obtain ⟨hp, hreq⟩ := hlegal
    unfold step Liballoc.realloc at hstep
    dsimp only at hstep
    split_ifs at hstep with hsize hzero hmagic hle
    · obtain ⟨s₁, hfree, heq⟩ := Option.map_eq_some_iff.mp hstep
      obtain ⟨rfl, rfl⟩ := Prod.mk.inj heq
      subst hsize
      by_cases hzero : p = 0
      · subst hzero
        obtain ⟨rfl⟩ := free_null hfree
        exact ⟨h, m, Step.reallocNullNull, hs.warned⟩
      · obtain ⟨b, hb, rfl, hcontents⟩ := exists_block hs (hp.resolve_left hzero)
        obtain ⟨h', hs', -⟩ := free_serves hs hb hfree
        exact ⟨h', _, Step.reallocNone hcontents, hs'⟩
    · subst hzero
      rcases malloc_serves hs hreq hk hstep with ⟨rfl, hs'⟩ | ⟨h', b, -, -, -, hnew, hs'⟩
      · exact ⟨h, m, Step.reallocNullNull, hs'⟩
      · exact ⟨h', _, Step.reallocNull hnew (Nat.pos_of_ne_zero hsize) length_load, hs'⟩
    all_goals
      obtain ⟨b, hb, rfl, hcontents⟩ := exists_block hs (hp.resolve_left hzero)
      obtain ⟨hminor, hbmagic, hbreq⟩ := minor_of_block hs hb
      rw [hminor] at hmagic hstep
    · exact absurd hbmagic hmagic
    · rw [hminor, hbreq] at hle
      obtain ⟨rfl, rfl⟩ := Prod.mk.inj (Option.some.inj hstep)
      obtain ⟨h', hs'⟩ := resized_serves hs hb hle
      rw [← take_load hle] at hs'
      refine ⟨h', _, Step.reallocKeep hcontents (Nat.pos_of_ne_zero hsize) ?_, hs'⟩
      rwa [length_load]
    · rw [hminor, hbreq] at hle
      rw [hbreq] at hstep
      exact moveBlock_serves hs hreq hk hb (by omega) hstep
  | free p =>
    obtain ⟨s₁, hfree, heq⟩ := Option.map_eq_some_iff.mp hstep
    obtain ⟨rfl, rfl⟩ := Prod.mk.inj heq
    by_cases hzero : p = 0
    · subst hzero
      obtain ⟨rfl⟩ := free_null hfree
      exact ⟨h, m, Step.freeNull, hs.warned⟩
    · obtain ⟨b, hb, rfl, hcontents⟩ := exists_block hs (hlegal.resolve_left hzero)
      obtain ⟨h', hs', -⟩ := free_serves hs hb hfree
      exact ⟨h', _, Step.free hcontents, hs'⟩
  | store p i b =>
    obtain ⟨n, hn, hi⟩ := hlegal
    obtain ⟨rfl, rfl⟩ := Prod.mk.inj (Option.some.inj hstep)
    obtain ⟨b', hb', rfl, hcontents⟩ := exists_block hs (by rw [hn]; rfl)
    have hlen : b'.reqSize = n := by
      unfold sizes at hn
      rw [hcontents] at hn
      simpa using hn
    have hs' := hs.write (Function.update s.bytes (b'.payload + i) b) hb' (by
      intro a ha
      exact Function.update_of_ne (by omega) _ _)
    refine ⟨h, _, Step.store hcontents (by rw [length_load]; omega), ?_⟩
    rw [set_load]
    exact hs'

end Calls

section Returning

variable {m : Store (BitVec 8)} {b : Block} {c : Call (BitVec 8)} {p size : ℕ}

def Accepts (L : LawfulHooks σ) : Prop :=
  ∀ p l a n, L.holds p ((a, n) :: l) → (L.free p a n).isSome

theorem malloc_returns (hs : Serves L s h m) (hreq : Request size) (hk : Rounds h k) :
    (∃ res, Liballoc.malloc L.toHooks s k size = some res) ∨
      L.alloc s.pages (pagesFor (size + 32)) = none := by
  have hsearch := malloc_spec hs.toHeap hreq hk
  cases hmalloc : Liballoc.malloc L.toHooks s k size with
  | some res => exact Or.inl ⟨res, rfl⟩
  | none =>
    rw [hmalloc] at hsearch
    exact Or.inr hsearch.2

theorem free_returns (haccepts : Accepts L) (hs : Serves L s h m) (hb : b ∈ blocksOf h) :
    ∃ s', Liballoc.free L.toHooks s b.payload = some s' := by
  obtain ⟨c, hc, hbc⟩ := exists_chunk hb
  obtain ⟨l, r, rfl⟩ := List.append_of_mem hc
  obtain ⟨xs, ys, hblocks⟩ := List.append_of_mem hbc
  rw [free_eq_some hs.toHeapAt hblocks]
  split_ifs
  · have hat := hs.chunks c hc
    have hrem := unlinkMinor_spec hat hblocks
    have hcpages : ((unlinkMinor s b.start).majors c.start).pages = c.pages :=
      hrem.majors.pages.trans hat.pages
    have hholds := L.holds_perm _ _ _ run_perm hs.pages
    obtain ⟨pages, hpages⟩ := Option.isSome_iff_exists.mp (haccepts _ _ _ _ hholds)
    rw [releaseMajor_eq, hrem.pages, hcpages, hpages]
    exact ⟨_, rfl⟩
  · exact ⟨_, rfl⟩

/-- The hook has no pages for a request: it does not return to `malloc`, or it has no run of pages
for a call that stores where `malloc` tells it to. -/
def Unserved (L : LawfulHooks σ) (s : State σ) : Call (BitVec 8) → Prop
  | .malloc size => L.alloc s.pages (pagesFor (size + 32)) = none
  | .calloc count size =>
    ∀ res, L.alloc s.pages (pagesFor (count * size + 32)) = some res → res.1 = 0
  | .realloc _ size => ∀ res, L.alloc s.pages (pagesFor (size + 32)) = some res → res.1 = 0
  | _ => False

theorem not_served_of_none {n : ℕ} (hnone : L.alloc s.pages n = none) :
    ∀ res, L.alloc s.pages n = some res → res.1 = 0 := by
  intro res hres
  rw [hnone] at hres
  exact absurd hres.symm (Option.some_ne_none res)

/-- `malloc` has no block only if the hook has no pages. -/
theorem malloc_null {n : ℕ} (hs : Serves L s h m) (hreq : Request n) (hk : Rounds h k)
    (hmalloc : Liballoc.malloc L.toHooks s k n = some (0, s')) :
    ∀ res, L.alloc s.pages (pagesFor (n + 32)) = some res → res.1 = 0 := by
  have hsearch := malloc_spec hs.toHeap hreq hk
  have hpayload : ∀ b : Block, 0 ≠ b.payload := by
    intro b
    have hbounds := payloadOf_bounds (b.start + minorBytes)
    unfold Block.payload
    omega
  rw [hmalloc] at hsearch
  rcases hsearch with ⟨l, c, r, xs, ys, b, hin⟩ | ⟨-, ⟨a, hnew⟩ | hno⟩
  · exact absurd hin.pointer (hpayload b)
  · exact absurd hnew.pointer (hpayload _)
  · intro res hres
    rw [hno.hook] at hres
    rw [← Option.some.inj hres]

/-- `malloc` has a block, unless the hook has no pages. -/
theorem malloc_some {n : ℕ} (hs : Serves L s h m) (hreq : Request n) (hk : Rounds h k) :
    (∃ p s', p ≠ 0 ∧ Liballoc.malloc L.toHooks s k n = some (p, s')) ∨
      ∀ res, L.alloc s.pages (pagesFor (n + 32)) = some res → res.1 = 0 := by
  rcases malloc_returns hs hreq hk with ⟨⟨p, s'⟩, hmalloc⟩ | hnone
  · by_cases hp : p = 0
    · subst hp
      exact Or.inr (malloc_null hs hreq hk hmalloc)
    · exact Or.inl ⟨p, s', hp, hmalloc⟩
  · exact Or.inr (not_served_of_none hnone)

theorem moveBlock_returns (haccepts : Accepts L) (hs : Serves L s h m) (hreq : Request size)
    (hk : Rounds h k) (hb : b ∈ blocksOf h) (hlt : b.reqSize < size) :
    (∃ res, moveBlock L.toHooks s k b.payload size b.reqSize = some res) ∨
      ∀ res, L.alloc s.pages (pagesFor (size + 32)) = some res → res.1 = 0 := by
  rcases malloc_some hs hreq hk with ⟨p, s₁, hp, hmalloc⟩ | hnone
  swap
  · exact Or.inr hnone
  left
  rcases malloc_serves hs hreq hk hmalloc with ⟨hzero, -⟩ | ⟨h₁, b', hb', rfl, hbreq, hnew, hs₁⟩
  · exact absurd hzero hp
  have hcontents := hs.lookup hb
  have hapart := hnew.apart _ _ hcontents
  rw [length_load, length_load] at hapart
  have hne : b.payload ≠ b'.payload := by
    intro heq
    rw [heq, hnew.unused] at hcontents
    exact Option.some_ne_none _ hcontents.symm
  have hs₂ := hs₁.write (liballocMemcpy s₁.bytes b'.payload b.payload b.reqSize) hb' (by
    intro a ha
    rw [liballocMemcpy_apply (by omega), if_neg (by omega)])
  have hold : (sizes (Function.update (Function.update m b'.payload
      (some (load s₁.bytes b'.payload size))) b'.payload
      (some (load (liballocMemcpy s₁.bytes b'.payload b.payload b.reqSize) b'.payload b'.reqSize)))
      b.payload).isSome := by
    unfold sizes
    rw [Function.update_of_ne hne, Function.update_of_ne hne, hcontents]
    rfl
  obtain ⟨b₁, hb₁, hpay, -⟩ := exists_block hs₂ hold
  obtain ⟨s₂, hfree⟩ := free_returns haccepts hs₂ hb₁
  rw [hpay] at hfree
  refine ⟨(b'.payload, s₂), ?_⟩
  unfold moveBlock
  dsimp only [bind, Option.bind]
  rw [hmalloc]
  dsimp only
  rw [if_neg (fun hfault => hp hfault.1), hfree]
  rfl

theorem step_returns (haccepts : Accepts L) (hs : Serves L s h m) (hlegal : Legal (sizes m) c) :
    (∃ r s', Returns L.toHooks s c r s') ∨ Unserved L s c := by
  obtain ⟨k, -, hk⟩ := exists_rounds h 0
  cases c with
  | malloc size =>
    rcases malloc_returns hs hlegal hk with ⟨res, hres⟩ | hnone
    · exact Or.inl ⟨res.1, res.2, k, hres⟩
    · exact Or.inr hnone
  | calloc count size =>
    have hlt : count * size < 2 ^ 31 := hlegal
    have hreq : Request (count * size) := by
      unfold Request
      omega
    have hreal : ((BitVec.ofNat 32 (count * size)).signExtend 64).toNat = count * size :=
      toNat_signExtend_ofNat hlt
    rcases malloc_some hs hreq hk with ⟨p, s₁, hp, hmalloc⟩ | hnone
    · have hcalloc : step L.toHooks k s (.calloc count size) =
          some (p, { s₁ with bytes := liballocMemset s₁.bytes p 0 (count * size) }) := by
        unfold step Liballoc.calloc
        dsimp only [bind, Option.bind]
        rw [hreal, hmalloc]
        dsimp only
        rw [if_neg (by omega)]
        rfl
      exact Or.inl ⟨p, _, k, hcalloc⟩
    · exact Or.inr hnone
  | realloc p size =>
    obtain ⟨hp, hreq⟩ := hlegal
    have hstep : step L.toHooks k s (.realloc p size) = Liballoc.realloc L.toHooks s k p size := rfl
    unfold Liballoc.realloc at hstep
    dsimp only at hstep
    split_ifs at hstep with hsize hzero hmagic hle
    · by_cases hzero : p = 0
      · subst hzero
        exact Or.inl ⟨0, _, k, hstep⟩
      · obtain ⟨b, hb, rfl, -⟩ := exists_block hs (hp.resolve_left hzero)
        obtain ⟨s', hfree⟩ := free_returns haccepts hs hb
        rw [hfree] at hstep
        exact Or.inl ⟨0, s', k, hstep⟩
    · rcases malloc_returns hs hreq hk with ⟨res, hres⟩ | hnone
      · exact Or.inl ⟨res.1, res.2, k, hstep.trans hres⟩
      · exact Or.inr (not_served_of_none hnone)
    · exact Or.inl ⟨_, _, k, hstep⟩
    · exact Or.inl ⟨_, _, k, hstep⟩
    · obtain ⟨b, hb, rfl, -⟩ := exists_block hs (hp.resolve_left hzero)
      obtain ⟨hminor, -, hbreq⟩ := minor_of_block hs hb
      rw [hminor, hbreq] at hle hstep
      rcases moveBlock_returns haccepts hs hreq hk hb (by omega) with ⟨res, hres⟩ | hnone
      · exact Or.inl ⟨res.1, res.2, k, hstep.trans hres⟩
      · exact Or.inr hnone
  | free p =>
    by_cases hzero : p = 0
    · subst hzero
      exact Or.inl ⟨0, _, k, rfl⟩
    · obtain ⟨b, hb, rfl, -⟩ := exists_block hs (hlegal.resolve_left hzero)
      obtain ⟨s', hfree⟩ := free_returns haccepts hs hb
      have hstep : step L.toHooks k s (.free b.payload) = some (0, s') := by
        dsimp only [step]
        rw [hfree]
        rfl
      exact Or.inl ⟨0, s', k, hstep⟩
  | store p i b => exact Or.inl ⟨0, _, k, rfl⟩

end Returning

end ReduceOS.LiballocCalls
