import Mathlib.Algebra.GroupWithZero.Nat
import ReduceOS.Liballoc
import ReduceOS.LinkedSequence
import ReduceOS.Packing

/-!
The heap of liballoc as it lies in memory. Each major heads a run of pages, and its minors lie
packed behind it, in the order of their list; no two runs meet. A block put into a gap of one
major changes nothing in the others.
-/
namespace ReduceOS.LiballocHeap

open Machine Liballoc LinkedSequence Packing

structure Block where
  start : ℕ
  size : ℕ
  reqSize : ℕ
  deriving DecidableEq

structure Chunk where
  start : ℕ
  pages : ℕ
  blocks : List Block

def payloadOf (ptr : ℕ) : ℕ := (ptr + 31) / 16 * 16

namespace Block

def stop (b : Block) : ℕ := b.start + minorBytes + b.size

def payload (b : Block) : ℕ := payloadOf (b.start + minorBytes)

def Apart (b b' : Block) : Prop := b.stop ≤ b'.start ∨ b'.stop ≤ b.start

end Block

namespace Chunk

def stop (c : Chunk) : ℕ := c.start + c.pages * pageSize

def base (c : Chunk) : ℕ := c.start + majorBytes

def starts (c : Chunk) : List ℕ := c.blocks.map Block.start

def Fits (c : Chunk) (n : ℕ) : Prop := Packing.Fits Block.start Block.stop c.base c.stop n c.blocks

def run (c : Chunk) : ℕ × ℕ := (c.start, c.pages)

end Chunk

variable {σ : Type} {H : Hooks σ} {s s' : State σ} {c d : Chunk} {b b' : Block}
  {xs ys : List Block}

section Arithmetic

variable {m n : ℕ}

theorem word32_of_lt (h : n < 2 ^ 32) : word32 n = n := Nat.mod_eq_of_lt h

theorem word64_of_lt (h : n < 2 ^ 64) : word64 n = n := Nat.mod_eq_of_lt h

theorem sub32_of_le (h : m ≤ n) (hn : n < 2 ^ 32) : sub32 n m = n - m := by
  unfold sub32 word32
  omega

theorem sub64_of_le (h : m ≤ n) (hn : n - m < 2 ^ 64) : sub64 n m = n - m := by
  unfold sub64 word64
  omega

theorem sub64_sub64 {k : ℕ} (h : m + k ≤ n) (hn : n - m < 2 ^ 64) :
    sub64 (sub64 n m) k = n - m - k := by
  have hinner : sub64 n m = n - m := sub64_of_le (by omega) hn
  rw [hinner]
  exact sub64_of_le (by omega) (by omega)

theorem payloadOf_bounds (ptr : ℕ) :
    ptr + 16 ≤ payloadOf ptr ∧ payloadOf ptr < ptr + 32 ∧ payloadOf ptr % 16 = 0 := by
  unfold payloadOf
  omega

theorem align_eq (s : State σ) (ptr : ℕ) : align s ptr =
    (payloadOf ptr,
      s.setByte (payloadOf ptr - alignInfo) (BitVec.ofNat 8 (payloadOf ptr - ptr))) := by
  have hdiff : ptr + 16 + (if (ptr + 16) % 16 ≠ 0 then 16 - (ptr + 16) % 16 else 0) =
      payloadOf ptr := by
    unfold payloadOf
    split_ifs <;> omega
  unfold align alignInfo alignment
  dsimp only
  rw [hdiff]
  have hinfo : (if (ptr + 16) % 16 ≠ 0 then 16 - (ptr + 16) % 16 else 0) + 16 =
      payloadOf ptr - ptr := by omega
  rw [hinfo]

theorem unalign_eq {ptr d : ℕ} (hinfo : (s.bytes (ptr - alignInfo)).toNat = d) (hd : d < 32) :
    unalign s ptr = ptr - d := by
  have hmsb : (s.bytes (ptr - alignInfo)).msb = false := by
    rw [BitVec.msb_eq_false_iff_two_mul_lt]
    omega
  unfold unalign
  rw [BitVec.signExtend_eq_setWidth_of_msb_false hmsb, BitVec.toNat_setWidth, hinfo]
  have hsmall : d % 2 ^ 64 = d := by omega
  dsimp only
  rw [hsmall, if_pos (by unfold alignment alignInfo; omega)]

end Arithmetic

structure BlockAt (s : State σ) (block : ℕ) (b : Block) : Prop where
  owner : (s.minors b.start).block = block
  magic : (s.minors b.start).magic = liballocMagic
  size : (s.minors b.start).size = b.size
  reqSize : (s.minors b.start).reqSize = b.reqSize
  room : b.reqSize + 32 ≤ b.size
  info : (s.bytes (b.payload - alignInfo)).toNat = b.payload - (b.start + minorBytes)

structure ChunkAt (s : State σ) (c : Chunk) : Prop where
  start_pos : 0 < c.start
  stop_le : c.stop ≤ 2 ^ 64
  size_lt : c.pages * pageSize < 2 ^ 32
  pages : (s.majors c.start).pages = c.pages
  size : (s.majors c.start).size = c.pages * pageSize
  usage : (s.majors c.start).usage = majorBytes + taken Block.start Block.stop c.blocks
  first : (s.majors c.start).first = headOr 0 c.starts
  minors : Linked 0 (fun a => (s.minors a).next) (fun a => (s.minors a).prev) c.starts
  packed : Packed Block.start Block.stop c.stop c.base c.blocks
  blocks : ∀ b ∈ c.blocks, BlockAt s c.start b

def Chunk.Apart (c d : Chunk) : Prop := c.stop ≤ d.start ∨ d.stop ≤ c.start

def starts (h : List Chunk) : List ℕ := h.map Chunk.start

def totalSize (h : List Chunk) : ℕ := (h.map fun c => c.pages * pageSize).sum

def blocksSize (l : List Block) : ℕ := (l.map Block.size).sum

def totalInuse (h : List Chunk) : ℕ := (h.map fun c => blocksSize c.blocks).sum

structure HeapAt (s : State σ) (h : List Chunk) : Prop where
  majors : Linked 0 (fun a => (s.majors a).next) (fun a => (s.majors a).prev) (starts h)
  root : s.memRoot = headOr 0 (starts h)
  best : s.bestBet = 0 ∨ s.bestBet ∈ starts h
  chunks : ∀ c ∈ h, ChunkAt s c
  apart : h.Pairwise Chunk.Apart
  allocated : s.allocated = word64 (totalSize h)
  inuse : s.inuse = word64 (totalInuse h)

section Majors

variable {h l r : List Chunk}

theorem mem_starts (hc : c ∈ h) : c.start ∈ starts h := List.mem_map_of_mem hc

theorem HeapAt.next_eq (hat : HeapAt s (l ++ c :: r)) :
    (s.majors c.start).next = headOr 0 (starts r) := by
  have hlinked := hat.majors
  unfold starts at hlinked
  rw [List.map_append, List.map_cons] at hlinked
  exact hlinked.next_at

theorem HeapAt.start_ne_zero (hat : HeapAt s h) (hc : c ∈ h) : c.start ≠ 0 :=
  Nat.ne_of_gt (hat.chunks c hc).start_pos

end Majors

section Frame

/-- The memory between two addresses is the same; of a major there its links may differ. -/
structure Agrees (s s' : State σ) (lo hi : ℕ) : Prop where
  major : ∀ a, lo ≤ a → a < hi → (s'.majors a).pages = (s.majors a).pages ∧
    (s'.majors a).size = (s.majors a).size ∧ (s'.majors a).usage = (s.majors a).usage ∧
    (s'.majors a).first = (s.majors a).first
  minor : ∀ a, lo ≤ a → a < hi → s'.minors a = s.minors a
  byte : ∀ a, lo ≤ a → a < hi → s'.bytes a = s.bytes a

theorem ChunkAt.base_le (h : ChunkAt s c) : c.base ≤ c.stop := h.packed.le

theorem ChunkAt.bounds (h : ChunkAt s c) (hb : b ∈ c.blocks) :
    c.base ≤ b.start ∧ b.stop ≤ c.stop := by
  obtain ⟨hlo, -, hhi⟩ := h.packed.bounds hb
  exact ⟨hlo, hhi⟩

/-- The block of a caller and the byte in front of it lie inside of what the minor has. -/
theorem BlockAt.payload_bounds {block : ℕ} (h : BlockAt s block b) :
    b.start + minorBytes + alignInfo ≤ b.payload ∧ b.payload < b.start + minorBytes + 32 ∧
      b.payload + b.reqSize ≤ b.stop ∧ b.payload % 16 = 0 := by
  have hroom := h.room
  obtain ⟨hlo, hhi, hmod⟩ := payloadOf_bounds (b.start + minorBytes)
  unfold Block.payload Block.stop alignInfo
  omega

theorem ChunkAt.starts_inside (hat : ChunkAt s c) : ∀ a ∈ c.starts, c.start < a ∧ a < c.stop := by
  intro a ha
  obtain ⟨b, hb, rfl⟩ := List.mem_map.mp ha
  obtain ⟨hlo, hhi⟩ := hat.bounds hb
  unfold Chunk.base Block.stop majorBytes minorBytes at *
  omega

theorem ChunkAt.congr (h : ChunkAt s c) (ha : Agrees s s' c.start c.stop) : ChunkAt s' c := by
  have hlt : c.start < c.stop := by
    have := h.base_le
    unfold Chunk.base majorBytes at this
    omega
  obtain ⟨hpages, hsize, husage, hfirst⟩ := ha.major c.start (Nat.le_refl _) hlt
  have hinside : ∀ b ∈ c.blocks, c.start ≤ b.start ∧ b.start + minorBytes + b.size ≤ c.stop := by
    intro b hb
    obtain ⟨hlo, hhi⟩ := h.bounds hb
    unfold Chunk.base at hlo
    exact ⟨by omega, hhi⟩
  have hminor : ∀ b ∈ c.blocks, s'.minors b.start = s.minors b.start := by
    intro b hb
    have := hinside b hb
    exact ha.minor _ this.1 (by unfold minorBytes at this; omega)
  refine ⟨h.start_pos, h.stop_le, h.size_lt, hpages.trans h.pages, hsize.trans h.size,
    husage.trans h.usage, hfirst.trans h.first, h.minors.congr fun a hmem => ?_, h.packed,
    fun b hb => ?_⟩
  · obtain ⟨b, hb, rfl⟩ := List.mem_map.mp hmem
    rw [hminor b hb]
    exact ⟨rfl, rfl⟩
  · have hat := h.blocks b hb
    have hpayload := hat.payload_bounds
    have hin := hinside b hb
    unfold Block.stop at hpayload
    refine ⟨?_, ?_, ?_, ?_, hat.room, ?_⟩
    · rw [hminor b hb, hat.owner]
    · rw [hminor b hb, hat.magic]
    · rw [hminor b hb, hat.size]
    · rw [hminor b hb, hat.reqSize]
    · rw [ha.byte _ (by omega) (by unfold alignInfo at hpayload ⊢; omega), hat.info]

end Frame

section Insert

variable {size reqSize : ℕ}

structure SameMajors (s s' : State σ) (maj : ℕ) : Prop where
  others : ∀ a, a ≠ maj → s'.majors a = s.majors a
  prev : (s'.majors maj).prev = (s.majors maj).prev
  next : (s'.majors maj).next = (s.majors maj).next
  pages : (s'.majors maj).pages = (s.majors maj).pages
  size : (s'.majors maj).size = (s.majors maj).size

/-- A minor was put between the minors `xs` and `ys` of a major. -/
structure Inserted (s s' : State σ) (c : Chunk) (xs ys : List Block) (b : Block) : Prop where
  majors : SameMajors s s' c.start
  usage : (s'.majors c.start).usage = word32 ((s.majors c.start).usage + (b.size + minorBytes))
  first : (s'.majors c.start).first = headOr 0 ((xs ++ b :: ys).map Block.start)
  new : s'.minors b.start = newMinor (lastOr 0 (xs.map Block.start)) (headOr 0 (ys.map Block.start))
    c.start b.size b.reqSize
  next : ∀ a, a ≠ 0 → a ≠ b.start → (s'.minors a).next =
    if a = lastOr 0 (xs.map Block.start) then b.start else (s.minors a).next
  prev : ∀ a, a ≠ 0 → a ≠ b.start → (s'.minors a).prev =
    if a = headOr 0 (ys.map Block.start) then b.start else (s.minors a).prev
  minors : ∀ a, a ≠ b.start → (s'.minors a).block = (s.minors a).block ∧
    (s'.minors a).magic = (s.minors a).magic ∧ (s'.minors a).size = (s.minors a).size ∧
    (s'.minors a).reqSize = (s.minors a).reqSize
  bytes : s'.bytes = Function.update s.bytes (b.payload - alignInfo)
    (BitVec.ofNat 8 (b.payload - (b.start + minorBytes)))
  memRoot : s'.memRoot = s.memRoot
  bestBet : s'.bestBet = s.bestBet
  allocated : s'.allocated = s.allocated
  inuse : s'.inuse = word64 (s.inuse + b.size)
  pages : s'.pages = s.pages

structure Gap (c : Chunk) (xs ys : List Block) (b : Block) : Prop where
  blocks : c.blocks = xs ++ ys
  lo : endOf Block.stop c.base xs ≤ b.start
  hi : b.stop ≤ headStart Block.start c.stop ys
  room : b.reqSize + 32 ≤ b.size

def Chunk.put (c : Chunk) (xs ys : List Block) (b : Block) : Chunk :=
  { c with blocks := xs ++ b :: ys }

theorem Gap.packed (hg : Gap c xs ys b) (hat : ChunkAt s c) :
    Packed Block.start Block.stop c.stop c.base (xs ++ b :: ys) := by
  have hpacked := hat.packed
  rw [hg.blocks] at hpacked
  exact hpacked.insert hg.lo (by unfold Block.stop; omega) hg.hi

theorem Gap.bounds (hg : Gap c xs ys b) (hat : ChunkAt s c) :
    c.base ≤ b.start ∧ b.stop ≤ c.stop := by
  obtain ⟨hlo, -, hhi⟩ := (hg.packed hat).bounds (List.mem_append_right xs List.mem_cons_self)
  exact ⟨hlo, hhi⟩

theorem Gap.apart (hg : Gap c xs ys b) (hat : ChunkAt s c) (hb' : b' ∈ c.blocks) :
    b'.stop ≤ b.start ∨ b.stop ≤ b'.start :=
  (hg.packed hat).apart (hg.blocks ▸ hb')

theorem Gap.start_ne (hg : Gap c xs ys b) (hat : ChunkAt s c) (hb' : b' ∈ c.blocks) :
    b'.start ≠ b.start := by
  have hapart := hg.apart hat hb'
  unfold Block.stop minorBytes at hapart
  omega

/-- The list of the minors has the new one in its place. -/
theorem Inserted.linked (hins : Inserted s s' c xs ys b) (hg : Gap c xs ys b)
    (hat : ChunkAt s c) : Linked 0 (fun a => (s'.minors a).next) (fun a => (s'.minors a).prev)
      (c.put xs ys b).starts := by
  have hlinked := hat.minors
  have hsplit : c.starts = xs.map Block.start ++ ys.map Block.start := by
    unfold Chunk.starts
    rw [hg.blocks, List.map_append]
  rw [hsplit] at hlinked
  have hother : ∀ a ∈ xs.map Block.start ++ ys.map Block.start, a ≠ 0 ∧ a ≠ b.start := by
    intro a ha
    rw [← List.map_append, ← hg.blocks] at ha
    obtain ⟨b', hb', rfl⟩ := List.mem_map.mp ha
    obtain ⟨hlo, -⟩ := hat.bounds hb'
    have hpos := hat.start_pos
    unfold Chunk.base at hlo
    exact ⟨by omega, hg.start_ne hat hb'⟩
  obtain ⟨hbase, -⟩ := hg.bounds hat
  have hpos := hat.start_pos
  unfold Chunk.base at hbase
  have hput : (c.put xs ys b).starts = xs.map Block.start ++ b.start :: ys.map Block.start := by
    unfold Chunk.starts Chunk.put
    rw [List.map_append, List.map_cons]
  rw [hput]
  refine hlinked.insert (fun hmem => (hother _ hmem).2 rfl) (by omega) ?_ ?_ (fun a ha => ?_)
    (fun a ha => ?_)
  · simp only [hins.new, newMinor]
  · simp only [hins.new, newMinor]
  · exact hins.next a (hother a ha).1 (hother a ha).2
  · exact hins.prev a (hother a ha).1 (hother a ha).2

/-- The new minor is in memory, and those that were there before still are. -/
theorem Inserted.blockAt (hins : Inserted s s' c xs ys b) (hg : Gap c xs ys b)
    (hat : ChunkAt s c) : ∀ b' ∈ (c.put xs ys b).blocks, BlockAt s' c.start b' := by
  obtain ⟨hlo, hhi⟩ := hg.bounds hat
  have hsize := hat.size_lt
  have hroom := hg.room
  obtain ⟨hpay, hpay', -⟩ := payloadOf_bounds (b.start + minorBytes)
  change _ ≤ b.payload at hpay
  change b.payload < _ at hpay'
  have hsmall : b.size < 2 ^ 32 := by
    unfold Block.stop Chunk.stop Chunk.base at *
    omega
  intro b' hb'
  rcases (List.perm_middle.mem_iff.trans List.mem_cons).mp hb' with rfl | hb'
  · refine ⟨?_, ?_, ?_, ?_, hroom, ?_⟩
    · simp only [hins.new, newMinor]
    · simp only [hins.new, newMinor]
    · simp only [hins.new, newMinor, word32_of_lt hsmall]
    · have hreq : b'.reqSize < 2 ^ 32 := by omega
      simp only [hins.new, newMinor, word32_of_lt hreq]
    · rw [hins.bytes, Function.update_self, BitVec.toNat_ofNat]
      exact Nat.mod_eq_of_lt (by omega)
  · have hmem : b' ∈ c.blocks := hg.blocks ▸ hb'
    have hat' := hat.blocks b' hmem
    obtain ⟨howner, hmagic, hsize, hreq⟩ := hins.minors _ (hg.start_ne hat hmem)
    refine ⟨howner.trans hat'.owner, hmagic.trans hat'.magic, hsize.trans hat'.size,
      hreq.trans hat'.reqSize, hat'.room, ?_⟩
    have hbounds := hat'.payload_bounds
    have hapart := hg.apart hat hmem
    have hne : b'.payload - alignInfo ≠ b.payload - alignInfo := by
      unfold Block.stop alignInfo at *
      omega
    rw [hins.bytes, Function.update_of_ne hne, hat'.info]

theorem taken_put : taken Block.start Block.stop (xs ++ b :: ys) =
    taken Block.start Block.stop (xs ++ ys) + (b.size + minorBytes) := by
  rw [taken_append, taken_append, taken_cons]
  unfold Block.stop
  omega

theorem Inserted.chunkAt (hins : Inserted s s' c xs ys b) (hg : Gap c xs ys b)
    (hat : ChunkAt s c) : ChunkAt s' (c.put xs ys b) where
  start_pos := hat.start_pos
  stop_le := hat.stop_le
  size_lt := hat.size_lt
  pages := hins.majors.pages.trans hat.pages
  size := hins.majors.size.trans hat.size
  usage := by
    have hfull := (hg.packed hat).taken_le
    have hsize := hat.size_lt
    have husage := hins.usage
    rw [hat.usage, hg.blocks, Nat.add_assoc, ← taken_put, word32_of_lt] at husage
    · exact husage
    · unfold Chunk.base Chunk.stop at hfull
      omega
  first := hins.first
  minors := hins.linked hg hat
  packed := hg.packed hat
  blocks := hins.blockAt hg hat

/-- Nothing is touched in a major that has no page in common with this one. -/
theorem Inserted.agrees (hins : Inserted s s' c xs ys b) (hg : Gap c xs ys b)
    (hat : ChunkAt s c) (hd : 0 < d.start) (hapart : c.Apart d) :
    Agrees s s' d.start d.stop := by
  obtain ⟨hbase, hstop⟩ := hg.bounds hat
  have hsplit : c.starts = xs.map Block.start ++ ys.map Block.start := by
    unfold Chunk.starts
    rw [hg.blocks, List.map_append]
  have hroom := hg.room
  obtain ⟨hpay, hpay', -⟩ := payloadOf_bounds (b.start + minorBytes)
  change _ ≤ b.payload at hpay
  change b.payload < _ at hpay'
  have hout : ∀ a, d.start ≤ a → a < d.stop → a ∉ c.starts ∧ a ≠ c.start ∧ a ≠ b.start ∧
      a ≠ b.payload - alignInfo := by
    intro a hlo hhi
    have hmem : a ∈ c.starts → c.start < a ∧ a < c.stop := hat.starts_inside a
    unfold Chunk.Apart at hapart
    unfold Chunk.base Block.stop majorBytes minorBytes alignInfo at *
    refine ⟨fun ha => ?_, ?_, ?_, ?_⟩
    · have := hmem ha
      omega
    all_goals omega
  refine ⟨fun a hlo hhi => ?_, fun a hlo hhi => ?_, fun a hlo hhi => ?_⟩
  · rw [hins.majors.others a (hout a hlo hhi).2.1]
    exact ⟨rfl, rfl, rfl, rfl⟩
  · obtain ⟨hmem, -, hne, -⟩ := hout a hlo hhi
    have hnonnull : a ≠ 0 := by omega
    rw [hsplit, List.mem_append, not_or] at hmem
    obtain ⟨hblock, hmagic, hsize, hreq⟩ := hins.minors a hne
    have hnext := hins.next a hnonnull hne
    have hprev := hins.prev a hnonnull hne
    have hlast : a ≠ lastOr 0 (xs.map Block.start) := by
      rintro rfl
      cases xs with
      | nil => exact hnonnull rfl
      | cons x xs => exact hmem.1 (lastOr_mem (List.cons_ne_nil _ _))
    have hhead : a ≠ headOr 0 (ys.map Block.start) := by
      rintro rfl
      cases ys with
      | nil => exact hnonnull rfl
      | cons y ys => exact hmem.2 (headOr_mem (List.cons_ne_nil _ _))
    rw [if_neg hlast] at hnext
    rw [if_neg hhead] at hprev
    exact Minor.ext hprev hnext hblock hmagic hsize hreq
  · rw [hins.bytes, Function.update_of_ne (hout a hlo hhi).2.2.2]

theorem SameMajors.links (h : SameMajors s s' c.start) (a : ℕ) :
    (s'.majors a).next = (s.majors a).next ∧ (s'.majors a).prev = (s.majors a).prev := by
  by_cases ha : a = c.start
  · subst ha
    exact ⟨h.next, h.prev⟩
  · rw [h.others a ha]
    exact ⟨rfl, rfl⟩

theorem starts_replace {c' : Chunk} (l r : List Chunk) (hstart : c'.start = c.start) :
    starts (l ++ c' :: r) = starts (l ++ c :: r) := by
  simp [starts, hstart]

theorem totalSize_replace {c' : Chunk} (l r : List Chunk) (hpages : c'.pages = c.pages) :
    totalSize (l ++ c' :: r) = totalSize (l ++ c :: r) := by
  simp [totalSize, hpages]

/-- One major of the heap changes its minors; the others are not touched. -/
theorem HeapAt.replace {l r : List Chunk} {c' : Chunk} (hat : HeapAt s (l ++ c :: r))
    (hstart : c'.start = c.start) (hpages : c'.pages = c.pages) (hc' : ChunkAt s' c')
    (hmajors : SameMajors s s' c.start)
    (hagrees : ∀ d, ChunkAt s d → c.Apart d → Agrees s s' d.start d.stop)
    (hroot : s'.memRoot = s.memRoot) (hbest : s'.bestBet = s.bestBet)
    (hallocated : s'.allocated = s.allocated)
    (hinuse : s'.inuse = word64 (totalInuse (l ++ c' :: r))) : HeapAt s' (l ++ c' :: r) := by
  obtain ⟨hl, hr, hacross⟩ := List.pairwise_append.mp hat.apart
  obtain ⟨hcr, hr⟩ := List.pairwise_cons.mp hr
  have hother : ∀ d ∈ l ++ c :: r, c.Apart d → ChunkAt s' d := fun d hd hapart =>
    (hat.chunks d hd).congr (hagrees d (hat.chunks d hd) hapart)
  have hsame : ∀ d : Chunk, (c'.Apart d ↔ c.Apart d) ∧ (d.Apart c' ↔ d.Apart c) := by
    intro d
    unfold Chunk.Apart Chunk.stop
    rw [hstart, hpages]
    exact ⟨Iff.rfl, Iff.rfl⟩
  refine ⟨?_, ?_, ?_, fun d hd => ?_, ?_, ?_, hinuse⟩
  · rw [starts_replace l r hstart]
    exact hat.majors.congr fun a _ => hmajors.links a
  · rw [starts_replace l r hstart, hroot, hat.root]
  · rw [starts_replace l r hstart, hbest]
    exact hat.best
  · rcases List.mem_append.mp hd with hd | hd
    · exact hother d (List.mem_append_left _ hd) (hacross d hd c List.mem_cons_self).symm
    · rcases List.mem_cons.mp hd with rfl | hd
      · exact hc'
      · exact hother d (List.mem_append_right l (List.mem_cons_of_mem c hd)) (hcr d hd)
  · refine List.pairwise_append.mpr ⟨hl, List.pairwise_cons.mpr
      ⟨fun d hd => (hsame d).1.mpr (hcr d hd), hr⟩, ?_⟩
    intro d hd e he
    rcases List.mem_cons.mp he with rfl | he
    · exact (hsame d).2.mpr (hacross d hd c List.mem_cons_self)
    · exact hacross d hd e (List.mem_cons_of_mem c he)
  · rw [totalSize_replace l r hpages, hallocated, hat.allocated]

theorem totalInuse_put (l r : List Chunk) (hblocks : c.blocks = xs ++ ys) :
    totalInuse (l ++ c.put xs ys b :: r) = totalInuse (l ++ c :: r) + b.size := by
  simp only [totalInuse, Chunk.put, List.map_append, List.map_cons, List.sum_append,
    List.sum_cons, hblocks, blocksSize]
  omega

/-- The heap has the new block in one of its majors. -/
theorem Inserted.heapAt {l r : List Chunk} (hins : Inserted s s' c xs ys b) (hg : Gap c xs ys b)
    (hat : HeapAt s (l ++ c :: r)) : HeapAt s' (l ++ c.put xs ys b :: r) := by
  have hc := hat.chunks c (List.mem_append_right l List.mem_cons_self)
  refine hat.replace rfl rfl (hins.chunkAt hg hc) hins.majors
    (fun d hd hapart => hins.agrees hg hc hd.start_pos hapart) hins.memRoot hins.bestBet
    hins.allocated ?_
  rw [totalInuse_put l r hg.blocks, hins.inuse, hat.inuse]
  exact Nat.mod_add_mod _ _ _

end Insert

section Place

theorem handOut_eq (s : State σ) (maj size min : ℕ) : handOut s maj size min =
    (payloadOf (min + minorBytes),
      { s with
        majors := Function.update s.majors maj { s.majors maj with
          usage := word32 ((s.majors maj).usage + (size + minorBytes)) }
        bytes := Function.update s.bytes (payloadOf (min + minorBytes) - alignInfo)
          (BitVec.ofNat 8 (payloadOf (min + minorBytes) - (min + minorBytes)))
        inuse := word64 (s.inuse + size) }) := by
  unfold handOut
  rw [align_eq]
  rfl

theorem placeFirst_spec (s : State σ) (hstart : b.start = c.base) :
    ∃ s', placeFirst s c.start b.size b.reqSize = (b.payload, s') ∧ Inserted s s' c [] [] b := by
  have hfirst : c.start + majorBytes = b.start := hstart.symm
  unfold placeFirst
  rw [handOut_eq]
  dsimp only [State.setMajor, State.setMinor]
  rw [hfirst]
  refine ⟨_, rfl, ⟨fun a ha => ?_, ?_, ?_, ?_, ?_⟩, ?_, ?_, ?_, fun a hnull ha => ?_,
    fun a hnull ha => ?_, fun a ha => ?_, rfl, rfl, rfl, rfl, rfl, rfl⟩
  · simp [ha]
  · simp
  · simp
  · simp
  · simp
  · simp
  · simp
  · simp
  · simp [ha, hnull]
  · simp [ha, hnull]
  · simp [ha]

theorem placeFront_spec (hg : Gap c [] ys b) (hat : ChunkAt s c) (hys : ys ≠ [])
    (hstart : b.start = c.base) :
    ∃ s', placeFront s c.start b.size b.reqSize = (b.payload, s') ∧ Inserted s s' c [] ys b := by
  obtain ⟨y, ys, rfl⟩ := List.exists_cons_of_ne_nil hys
  have hfirst : c.start + majorBytes = b.start := hstart.symm
  have hold : (s.majors c.start).first = y.start := by
    rw [hat.first, Chunk.starts, hg.blocks]
    rfl
  have hy : y ∈ c.blocks := by
    rw [hg.blocks]
    exact List.mem_cons_self
  have hne := hg.start_ne hat hy
  unfold placeFront
  rw [handOut_eq]
  dsimp only [State.setMajor, State.setMinor]
  rw [hfirst, hold]
  refine ⟨_, rfl, ⟨fun a ha => ?_, ?_, ?_, ?_, ?_⟩, ?_, ?_, ?_, fun a hnull ha => ?_,
    fun a hnull ha => ?_, fun a ha => ?_, rfl, rfl, rfl, rfl, rfl, rfl⟩
  · simp [ha]
  · simp
  · simp
  · simp
  · simp
  · simp
  · simp
  · simp
  · by_cases hy : a = y.start
    · subst hy
      simp [ha, hnull]
    · simp [ha, hnull, hy]
  · by_cases hy : a = y.start
    · subst hy
      simp [ha]
    · simp [ha, hy]
  · by_cases hy : a = y.start
    · subst hy
      simp [ha]
    · simp [ha, hy]

theorem placeAfter_spec {a : Block} (hg : Gap c (xs ++ [a]) ys b) (hat : ChunkAt s c)
    (hstart : b.start = a.stop) : ∃ s', placeAfter s c.start b.size b.reqSize a.start =
      (b.payload, s') ∧ Inserted s s' c (xs ++ [a]) ys b := by
  have hsplit : c.starts = xs.map Block.start ++ a.start :: ys.map Block.start := by
    unfold Chunk.starts
    rw [hg.blocks]
    simp
  have hlinked := hat.minors
  rw [hsplit] at hlinked
  have hnext : (s.minors a.start).next = headOr 0 (ys.map Block.start) := hlinked.next_at
  have ha : a ∈ c.blocks := by
    rw [hg.blocks]
    exact List.mem_append_left ys (List.mem_append_right xs List.mem_cons_self)
  have hne := hg.start_ne hat ha
  have hnew : a.start + minorBytes + (s.minors a.start).size = b.start := by
    rw [(hat.blocks a ha).size, hstart]
    rfl
  have hlast : lastOr 0 ((xs ++ [a]).map Block.start) = a.start := by simp
  have hfirst : (s.majors c.start).first = headOr 0 ((xs ++ [a] ++ b :: ys).map Block.start) := by
    rw [hat.first, hsplit]
    cases xs with
    | nil => rfl
    | cons x xs => rfl
  unfold placeAfter
  rw [handOut_eq]
  dsimp only [State.setMajor, State.setMinor]
  rw [hnew, hnext]
  cases ys with
  | nil =>
    refine ⟨_, rfl, ⟨fun x hx => ?_, ?_, ?_, ?_, ?_⟩, ?_, ?_, ?_, fun x hnull hx => ?_,
      fun x hnull hx => ?_, fun x hx => ?_, rfl, rfl, rfl, rfl, rfl, rfl⟩
    · simp [hx]
    · simp
    · simp
    · simp
    · simp
    · simp
    · simpa using hfirst
    · simp [hne.symm]
    · by_cases hxa : x = a.start
      · subst hxa
        simp
      · simp [hx, hxa]
    · by_cases hxa : x = a.start
      · subst hxa
        simp [hx, hnull]
      · simp [hx, hxa, hnull]
    · by_cases hxa : x = a.start
      · subst hxa
        simp [hx]
      · simp [hx, hxa]
  | cons y ys =>
    have hy : y ∈ c.blocks := by
      rw [hg.blocks]
      exact List.mem_append_right _ List.mem_cons_self
    have hyne := hg.start_ne hat hy
    have hynull : y.start ≠ 0 := by
      intro hzero
      exact hlinked.nonnull (by simp [hzero])
    have hay : a.start ≠ y.start := by
      have hnodup := hlinked.nodup
      rw [List.nodup_append, List.map_cons, List.nodup_cons] at hnodup
      exact fun heq => hnodup.2.1.1 (heq ▸ List.mem_cons_self)
    refine ⟨_, rfl, ⟨fun x hx => ?_, ?_, ?_, ?_, ?_⟩, ?_, ?_, ?_, fun x hnull hx => ?_,
      fun x hnull hx => ?_, fun x hx => ?_, ?_, ?_, ?_, ?_, ?_, ?_⟩
    · simp [hx, hynull]
    · simp [hynull]
    · simp [hynull]
    · simp [hynull]
    · simp [hynull]
    · simp [hynull]
    · simpa [hynull] using hfirst
    · simp [hne.symm, hyne.symm, hynull]
    · by_cases hxa : x = a.start
      · subst hxa
        simp [hynull]
      · by_cases hxy : x = y.start
        · subst hxy
          simp [hx, hxa, hynull]
        · simp [hx, hxa, hxy, hynull]
    · by_cases hxa : x = a.start
      · subst hxa
        simp [hx, hynull, hay]
      · by_cases hxy : x = y.start
        · subst hxy
          simp [hxa, hynull]
        · simp [hx, hxa, hxy, hynull]
    · by_cases hxa : x = a.start
      · subst hxa
        simp [hx, hynull, hay]
      · by_cases hxy : x = y.start
        · subst hxy
          simp [hx, hxa, hynull]
        · simp [hx, hxa, hxy, hynull]
    · simp [hynull]
      rfl
    · simp [hynull]
    · simp [hynull]
    · simp [hynull]
    · simp [hynull]
    · simp [hynull]

end Place

section Find

variable {size reqSize k : ℕ}

/-- The search of a major found the first gap with the room for a minor and its block, or there is
no such gap. -/
def Found (s : State σ) (c : Chunk) (size reqSize : ℕ) : Option (ℕ × State σ) → Prop
  | none => ¬ c.Fits (size + minorBytes)
  | some (p, s') => ∃ xs ys b,
      IsFirstFit Block.start Block.stop c.base c.stop (size + minorBytes) xs ys ∧ Gap c xs ys b ∧
      b.start = endOf Block.stop c.base xs ∧ b.size = size ∧ b.reqSize = reqSize ∧
      p = b.payload ∧ Inserted s s' c xs ys b

theorem gapAfter_eq {a : Block} (hat : ChunkAt s c) (hblocks : c.blocks = xs ++ a :: ys) :
    gapAfter s c.start a.start = headStart Block.start c.stop ys - a.stop := by
  have hsplit : c.starts = xs.map Block.start ++ a.start :: ys.map Block.start := by
    unfold Chunk.starts
    rw [hblocks]
    simp
  have hlinked := hat.minors
  rw [hsplit] at hlinked
  have hnext : (s.minors a.start).next = headOr 0 (ys.map Block.start) := hlinked.next_at
  have ha : a ∈ c.blocks := by
    rw [hblocks]
    exact List.mem_append_right xs List.mem_cons_self
  have hsize := (hat.blocks a ha).size
  have hpacked := hat.packed
  rw [hblocks] at hpacked
  obtain ⟨-, -, -, hrest⟩ := Packed.append_iff.mp hpacked
  have hle : a.stop ≤ headStart Block.start c.stop ys := hrest.headStart.1
  have hlimit : (if (s.minors a.start).next = 0 then c.start + (s.majors c.start).size
      else (s.minors a.start).next) = headStart Block.start c.stop ys := by
    rw [hnext, hat.size]
    cases ys with
    | nil => exact if_pos rfl
    | cons y ys =>
      refine if_neg fun hzero => hlinked.nonnull ?_
      have hzero' : y.start = 0 := hzero
      simp [hzero']
  have htop : headStart Block.start c.stop ys ≤ 2 ^ 64 :=
    hrest.headStart.2.le.trans hat.stop_le
  have hpos := hat.start_pos
  obtain ⟨hbase, -⟩ := hat.bounds ha
  unfold Chunk.base at hbase
  unfold gapAfter
  dsimp only
  rw [hlimit, hsize]
  unfold Block.stop at hle ⊢
  rw [sub64_sub64 (n := headStart Block.start c.stop ys) (by omega) (by omega)]
  rw [sub64_of_le (by omega) (by omega)]
  omega

/-- The loop over the minors goes on from a place up to which no gap has the room. -/
theorem fitLoop_spec (hat : ChunkAt s c) (hblocks : c.blocks = xs ++ ys) (hk : ys.length < k)
    (hroom : reqSize + 32 ≤ size) (hsize : size < 2 ^ 32)
    (hpassed : Passed Block.start Block.stop c.base c.stop (size + minorBytes) c.blocks xs.length) :
    ∃ r, fitLoop s c.start size reqSize k (headOr 0 (ys.map Block.start)) = some r ∧
      Found s c size reqSize r := by
  have hneed : word64 (size + minorBytes) = size + minorBytes :=
    word64_of_lt (by unfold minorBytes; omega)
  induction ys generalizing xs k with
  | nil =>
    obtain ⟨k, rfl⟩ := Nat.exists_eq_succ_of_ne_zero (Nat.ne_of_gt hk)
    rw [List.append_nil] at hblocks
    refine ⟨none, by simp [fitLoop], ?_⟩
    rw [← hblocks] at hpassed
    exact hpassed.not_fits
  | cons a ys ih =>
    obtain ⟨k, rfl⟩ := Nat.exists_eq_succ_of_ne_zero (Nat.ne_of_gt (Nat.zero_lt_of_lt hk))
    have ha : a ∈ c.blocks := by
      rw [hblocks]
      exact List.mem_append_right xs List.mem_cons_self
    have hpos := hat.start_pos
    obtain ⟨hbase, -⟩ := hat.bounds ha
    have hnull : a.start ≠ 0 := by
      unfold Chunk.base at hbase
      omega
    have hhead : headOr 0 ((a :: ys).map Block.start) = a.start := rfl
    have hsplit : c.blocks = (xs ++ [a]) ++ ys := by rw [hblocks]; simp
    rw [hhead, fitLoop, if_neg hnull, gapAfter_eq hat hblocks, hneed]
    rw [hblocks] at hpassed
    have hle : a.stop ≤ headStart Block.start c.stop ys := by
      have hpacked := hat.packed
      rw [hblocks] at hpacked
      exact (Packed.append_iff.mp hpacked).2.2.2.headStart.1
    by_cases hgap : size + minorBytes ≤ headStart Block.start c.stop ys - a.stop
    · rw [if_pos hgap]
      let b : Block := ⟨a.stop, size, reqSize⟩
      have hstop : b.stop = a.stop + (size + minorBytes) := by
        change a.stop + minorBytes + size = _
        omega
      have hg : Gap c (xs ++ [a]) ys b :=
        ⟨hsplit, by rw [endOf_append_cons], by omega, hroom⟩
      obtain ⟨s', hplace, hins⟩ := placeAfter_spec hg hat rfl
      refine ⟨_, congrArg (fun r => some (some r)) hplace, xs ++ [a], ys, b, ?_, hg, ?_, rfl, rfl,
        rfl, hins⟩
      · exact hpassed.isFirstFit (by omega)
      · rw [endOf_append_cons]
    · rw [if_neg hgap]
      have hlinked := hat.minors
      have hstarts : c.starts = xs.map Block.start ++ a.start :: ys.map Block.start := by
        unfold Chunk.starts
        rw [hblocks]
        simp
      rw [hstarts] at hlinked
      have hnext : (s.minors a.start).next = headOr 0 (ys.map Block.start) := hlinked.next_at
      rw [hnext]
      refine ih hsplit (by simpa using hk) ?_
      rw [hblocks, List.length_append, List.length_singleton]
      exact hpassed.succ (by omega)

/-- CASE 2 to CASE 4: the first gap of a major with the room is taken. -/
theorem placeIn_spec (hat : ChunkAt s c) (hk : c.blocks.length < k)
    (hroom : reqSize + 32 ≤ size) (hsize : size < 2 ^ 32)
    (hempty : c.blocks = [] → c.Fits (size + minorBytes)) :
    ∃ r, placeIn s c.start size reqSize k = some r ∧ Found s c size reqSize r := by
  have hneed : word64 (size + minorBytes) = size + minorBytes :=
    word64_of_lt (by unfold minorBytes; omega)
  let b : Block := ⟨c.base, size, reqSize⟩
  have hstop : b.stop = c.base + (size + minorBytes) := by
    change c.base + minorBytes + size = _
    omega
  unfold placeIn
  dsimp only
  rw [hat.first, hneed]
  cases hblocks : c.blocks with
  | nil =>
    have hnil : headOr 0 c.starts = 0 := by
      unfold Chunk.starts
      rw [hblocks]
      rfl
    have hfits := hempty hblocks
    unfold Chunk.Fits at hfits
    rw [hblocks] at hfits
    obtain ⟨zs, ws, hzw, hgap⟩ := hfits
    obtain ⟨rfl, rfl⟩ := List.append_eq_nil_iff.mp hzw.symm
    obtain ⟨s', hplace, hins⟩ := placeFirst_spec s (rfl : b.start = c.base)
    rw [if_pos hnil]
    refine ⟨_, congrArg (fun r => some (some r)) hplace, [], [], b, IsFirstFit.head hgap,
      ⟨hblocks, Nat.le_refl _, ?_, hroom⟩, rfl, rfl, rfl, rfl, hins⟩
    rw [hstop]
    exact hgap
  | cons y ys =>
    have hy : y ∈ c.blocks := by rw [hblocks]; exact List.mem_cons_self
    obtain ⟨hbase, hystop⟩ := hat.bounds hy
    have hpos := hat.start_pos
    have htop := hat.stop_le
    have hhead : headOr 0 c.starts = y.start := by
      unfold Chunk.starts
      rw [hblocks]
      rfl
    have hfront : sub64 (sub64 y.start c.start) majorBytes = y.start - c.base := by
      unfold Block.stop minorBytes at hystop
      unfold Chunk.base at hbase ⊢
      rw [sub64_sub64 (by omega) (by omega)]
      omega
    have hnull : y.start ≠ 0 := by
      unfold Chunk.base at hbase
      omega
    rw [hhead, if_neg hnull, hfront]
    by_cases hgap : size + minorBytes ≤ y.start - c.base
    · rw [if_pos hgap]
      have hg : Gap c [] (y :: ys) b :=
        ⟨hblocks, Nat.le_refl _, by rw [hstop, headStart_cons]; omega, hroom⟩
      obtain ⟨s', hplace, hins⟩ := placeFront_spec hg hat (List.cons_ne_nil y ys) rfl
      refine ⟨_, congrArg (fun r => some (some r)) hplace, [], y :: ys, b, IsFirstFit.head ?_, hg,
        rfl, rfl, rfl, rfl, hins⟩
      rw [headStart_cons]
      omega
    · rw [if_neg hgap]
      have hpassed : Passed Block.start Block.stop c.base c.stop (size + minorBytes) c.blocks
          ([] : List Block).length := by
        rw [hblocks]
        exact Passed.zero (by rw [headStart_cons]; omega)
      have hloop := fitLoop_spec hat hblocks (by rwa [hblocks] at hk) hroom hsize hpassed
      exact hloop

end Find

end ReduceOS.LiballocHeap
