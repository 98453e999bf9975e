import Mathlib.Data.Nat.Notation
import Mathlib.Algebra.Group.Nat.Defs

/-!
Machine words and the ways the kernel stops. `kernel_panic` and
`kernel_panic_extended` never return, and a page fault raised by kernel code
halts the processor in `mem_pageFault`; all of them end a run, so kernel
functions that can stop return in `Except Panic`.
-/
namespace ReduceOS.Machine

abbrev Addr := BitVec 64

def null : Addr := 0

/-- A C `int`; arithmetic wraps and conversions to wider types sign-extend. -/
abbrev CInt := BitVec 32

/-- A small natural number stays the same through an `int`. -/
theorem toNat_signExtend_ofNat {k : ℕ} (hk : k < 2 ^ 31) :
    ((BitVec.ofNat 32 k).signExtend 64).toNat = k := by
  have hmsb : (BitVec.ofNat 32 k).msb = false := by
    rw [BitVec.msb_eq_false_iff_two_mul_lt, BitVec.toNat_ofNat]
    omega
  rw [BitVec.signExtend_eq_setWidth_of_msb_false hmsb, BitVec.toNat_setWidth, BitVec.toNat_ofNat]
  omega

inductive Panic
  /-- `OUT_OF_MEMORY` -/
  | outOfMemory
  /-- `KERNEL_BAD_ARGUMENT_ERROR` -/
  | badArgument
  /-- `MEMORY_MANAGEMENT_ERROR` -/
  | memoryManagement
  /-- `SCHEDULER_ERROR` -/
  | scheduler
  /-- an unresolved page fault taken in kernel mode -/
  | pageFault
  deriving DecidableEq, Repr

def pageSize : ℕ := 0x1000

def enomem : CInt := 12

end ReduceOS.Machine
