import ReduceOS.Machine
import ReduceOS.Outcome
import Mathlib.Tactic.SplitIfs

/-!
What the two drivers of USB host controllers have in common: a control transfer, and the loop
that makes a transfer descriptor for each packet of its data.
-/
namespace ReduceOS.UsbTransfer

open Machine

def inProgress : CInt := 0

def failed : CInt := 1

def success : CInt := 2

/-- What a driver uses of a `USBTransfer_t` and of its device. -/
structure Transfer where
  data : Addr
  length : BitVec 32
  status : CInt
  mps : BitVec 32

section Source

variable {σ : Type}

/-- The loop over the data from `buffer` to `bufferEnd`, in which there are at most `n` bytes. A
descriptor is made for each packet of `mps` bytes or what is left. -/
def forPackets (make : σ → Except Panic σ) (mps : BitVec 32) :
    ℕ → Addr → Addr → σ → Except Panic σ
  | 0, _, _, s => return s
  | n + 1, buffer, bufferEnd, s =>
    if buffer < bufferEnd then
      let transactionSize := (bufferEnd - buffer).setWidth 32
      let transactionSize := if transactionSize > mps then mps else transactionSize
      if transactionSize = 0 then return s
      else do
        let s ← make s
        forPackets make mps n (buffer + transactionSize.setWidth 64) bufferEnd s
    else return s

def makeData (make : σ → Except Panic σ) (transfer : Transfer) (s : σ) : Except Panic σ :=
  forPackets make transfer.mps transfer.length.toNat transfer.data
    (transfer.data + transfer.length.setWidth 64) s

end Source

variable {σ : Type} {make : σ → Except Panic σ} {P : σ → Prop} {s s' : σ}

/-- What making one descriptor preserves, the loop preserves. -/
theorem forPackets_invariant (mps : BitVec 32) (n : ℕ) (buffer bufferEnd : Addr)
    (hmake : ∀ s s', P s → make s = .ok s' → P s') (h : P s)
    (hloop : forPackets make mps n buffer bufferEnd s = .ok s') : P s' := by
  induction n generalizing s buffer with
  | zero =>
    obtain rfl := Except.ok.inj hloop
    exact h
  | succ n ih =>
    simp only [forPackets] at hloop
    split_ifs at hloop with hmore hmps hzero hzero
    · obtain rfl := Except.ok.inj hloop
      exact h
    · obtain ⟨s₁, hfirst, hrest⟩ := Outcome.bind_eq_ok hloop
      exact ih _ (hmake s s₁ h hfirst) hrest
    · obtain rfl := Except.ok.inj hloop
      exact h
    · obtain ⟨s₁, hfirst, hrest⟩ := Outcome.bind_eq_ok hloop
      exact ih _ (hmake s s₁ h hfirst) hrest
    · obtain rfl := Except.ok.inj hloop
      exact h

theorem makeData_invariant (transfer : Transfer) (hmake : ∀ s s', P s → make s = .ok s' → P s')
    (h : P s) (hloop : makeData make transfer s = .ok s') : P s' :=
  forPackets_invariant transfer.mps _ _ _ hmake h hloop

end ReduceOS.UsbTransfer
