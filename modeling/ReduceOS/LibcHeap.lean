import ReduceOS.LibcBreak
import ReduceOS.LiballocMalloc

/-!
The hooks of liballoc in libpolyhedron: pages come from `sbrk` and are never given back.
-/
namespace ReduceOS.LibcHeap

open Machine Physical LibcBreak Liballoc LiballocMalloc

variable {P : Type} (A : Allocator P)

/-- `liballoc_alloc`. The answer `(void*)-1` is taken for a run of pages, and the process does not
live through the store of a major there. -/
def liballocAlloc (c : Caller P) (sz : ℕ) : Option (ℕ × Caller P) :=
  match sbrk A c (BitVec.ofNat 64 (sz * pageSize)) with
  | .ok (ret, c) => if ret = -1 then none else some (ret.toNat, c)
  | .error _ => none

def liballocFree (c : Caller P) (_addr _sz : ℕ) : Option (Caller P) := some c

structure InHeap (c : Caller P) (l : List (ℕ × ℕ)) : Prop where
  known : Known c
  ne_zero : c.process.heapBase ≠ 0
  above : ∀ r ∈ l, c.process.heapBase.toNat ≤ r.1
  below : ∀ r ∈ l, r.1 + r.2 * pageSize ≤ c.process.heap.toNat

variable {A} {c c' : Caller P} {l : List (ℕ × ℕ)} {n a : ℕ}

theorem sbrk_heapBase {increment ret : Addr} (hcall : sbrk A c increment = .ok (ret, c')) :
    c'.process.heapBase = c.process.heapBase := by
  rw [sbrk_eq, sbrkFrom] at hcall
  split_ifs at hcall with hrange
  · obtain ⟨-, rfl⟩ := Prod.mk.inj (Except.ok.inj hcall)
    exact synced_heapBase c
  · obtain ⟨⟨ret', c₁⟩, hbrk, hrest⟩ := Outcome.bind_eq_ok hcall
    have hbase : c₁.process.heapBase = c.process.heapBase := by
      unfold brk at hbrk
      rw [fetchBreak_eq] at hbrk
      obtain ⟨⟨newbrk, c₂⟩, hsys, hset⟩ := Outcome.bind_eq_ok
        (show syscallBrk A (synced (synced c)) _ >>= _ = _ from hbrk)
      have hkept := (syscallBrk_spec hsys).2.1
      rw [synced_heapBase, synced_heapBase] at hkept
      dsimp only at hset
      split_ifs at hset
      · obtain ⟨-, rfl⟩ := Prod.mk.inj (Except.ok.inj hset)
        exact hkept
      · obtain ⟨-, rfl⟩ := Prod.mk.inj (Except.ok.inj hset)
        exact hkept
    dsimp only at hrest
    split_ifs at hrest
    · obtain ⟨-, rfl⟩ := Prod.mk.inj (Except.ok.inj hrest)
      exact hbase
    · obtain ⟨-, rfl⟩ := Prod.mk.inj (Except.ok.inj hrest)
      exact hbase

theorem toNat_increment (hn : n < 2 ^ 20) :
    (BitVec.ofNat 64 (n * pageSize)).toNat = n * pageSize := by
  rw [BitVec.toNat_ofNat]
  unfold pageSize
  omega

/-- An increment that libc does not refuse does not carry the break over the end of memory. -/
theorem heap_add_increment (hpos : 0 < n) (hn : n < 2 ^ 20) {curbrk : Addr}
    (hrange : ¬ outOfRange curbrk (BitVec.ofNat 64 (n * pageSize))) :
    (curbrk + BitVec.ofNat 64 (n * pageSize)).toNat = curbrk.toNat + n * pageSize := by
  have hsize := toNat_increment hn
  have hpages : 0 < n * pageSize ∧ n * pageSize < 2 ^ 32 := by
    unfold pageSize
    omega
  have hgrows : BitVec.slt 0 (BitVec.ofNat 64 (n * pageSize)) = true := by
    have hint : (BitVec.ofNat 64 (n * pageSize)).toInt = (n * pageSize : ℕ) := by
      rw [BitVec.toInt_eq_toNat_of_lt, hsize]
      omega
    rw [BitVec.slt_iff_toInt_lt, hint]
    change (0 : ℤ) < _
    omega
  unfold outOfRange at hrange
  rw [hgrows, Bool.true_and, Bool.or_eq_true, not_or, decide_eq_true_eq, BitVec.lt_def,
    BitVec.toNat_add, hsize] at hrange
  rw [BitVec.toNat_add, hsize]
  omega

/-- A run of pages from `sbrk` starts at the old break and ends at the new one. -/
theorem liballocAlloc_spec (hin : InHeap c l) (hpos : 0 < n) (hn : n < 2 ^ 20)
    (hcall : liballocAlloc A c n = some (a, c')) :
    a = c.process.heap.toNat ∧ c'.process.heap.toNat = a + n * pageSize ∧ Known c' ∧
      c'.process.heapBase = c.process.heapBase := by
  unfold liballocAlloc at hcall
  cases hsbrk : sbrk A c (BitVec.ofNat 64 (n * pageSize)) with
  | error e =>
    rw [hsbrk] at hcall
    exact absurd hcall (Option.some_ne_none _).symm
  | ok res =>
    obtain ⟨ret, c₁⟩ := res
    rw [hsbrk] at hcall
    dsimp only at hcall
    split_ifs at hcall with hret
    obtain ⟨rfl, rfl⟩ := Prod.mk.inj (Option.some.inj hcall)
    obtain ⟨hknown, -, hspec⟩ := sbrk_spec hin.known hsbrk
    rw [synced_process fun h => absurd h hin.ne_zero] at hspec
    by_cases hrange : outOfRange c.process.heap (BitVec.ofNat 64 (n * pageSize))
    · rw [if_pos hrange] at hspec
      exact absurd hspec.1 hret
    rw [if_neg hrange] at hspec
    obtain ⟨rfl, hmove⟩ := hspec
    have hsum := heap_add_increment hpos hn hrange
    have hnot : ¬ c.process.heap + BitVec.ofNat 64 (n * pageSize) < c.process.heapBase := by
      have hordered := hin.known.ordered
      rw [BitVec.lt_def, hsum]
      omega
    rw [if_neg hnot] at hmove
    refine ⟨rfl, ?_, hknown, sbrk_heapBase hsbrk⟩
    rw [hmove, hsum]

theorem InHeap.mono (hin : InHeap c l) {l' : List (ℕ × ℕ)} (hsub : ∀ r ∈ l', r ∈ l) :
    InHeap c l' :=
  ⟨hin.known, hin.ne_zero, fun r hr => hin.above r (hsub r hr), fun r hr => hin.below r (hsub r hr)⟩

theorem InHeap.alloc (hin : InHeap c l) (hpos : 0 < n) (hn : n < 2 ^ 20)
    (hcall : liballocAlloc A c n = some (a, c')) : InHeap c' ((a, n) :: l) := by
  obtain ⟨rfl, hheap, hknown, hbase⟩ := liballocAlloc_spec hin hpos hn hcall
  have hordered := hin.known.ordered
  refine ⟨hknown, hbase ▸ hin.ne_zero, fun r hr => ?_, fun r hr => ?_⟩
  · rw [hbase]
    rcases List.mem_cons.mp hr with rfl | hr
    · exact hordered
    · exact hin.above r hr
  · rcases List.mem_cons.mp hr with rfl | hr
    · exact hheap.ge
    · have hbelow := hin.below r hr
      omega

def libcHooks (A : Allocator P) : LawfulHooks (Caller P) where
  alloc := liballocAlloc A
  free := liballocFree
  holds := InHeap
  holds_perm _ _ _ hperm hin := hin.mono fun _ hr => hperm.mem_iff.mpr hr
  alloc_spec c l n a c' hin hpos hn hcall := by
    have hin' := hin.alloc hpos hn hcall
    obtain ⟨rfl, hheap, -, -⟩ := liballocAlloc_spec hin hpos hn hcall
    have hordered := hin.known.ordered
    have hne : c.process.heapBase.toNat ≠ 0 := fun h => hin.ne_zero (BitVec.eq_of_toNat_eq h)
    refine Or.inr ⟨by omega, ?_, fun r hr => Or.inl (hin.below r hr), hin'⟩
    rw [← hheap]
    exact c'.process.heap.isLt.le
  free_spec c l a n c' hin hcall := by
    obtain rfl := Option.some.inj hcall
    exact hin.mono fun r hr => List.mem_cons_of_mem _ hr

end ReduceOS.LibcHeap
