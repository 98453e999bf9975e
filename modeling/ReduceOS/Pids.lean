import ReduceOS.Bitmap
import ReduceOS.Pmm
import Mathlib.Data.List.Perm.Basic

/-!
The bitmap of process IDs. It is allocated with as many bytes as it should have words, so
that a quarter of the PIDs has room in it; `process_freePID` takes the first PID of a word
for its index, which is right in the first word only; and `process_destroy` does not call
it. What the PIDs are after any run of creations, frees and destructions is said in terms
of the processes alive and of the destroyed ones whose PID was not freed.
-/
namespace ReduceOS.Pids

open Machine
open Pmm (wordOf bitOf wordOf_ofNat bitOf_ofNat)

structure Process where
  address : Addr
  pid : CInt
  stopped : Bool
  deriving DecidableEq

def pidBitmapSize : ℕ := 32768 / (4 * 8)

/-- The bitmap, unless `pid_bitmap` is `NULL`, with the words around it; what is in that place
before it is allocated; the processes that are not destroyed; the bitmap words accessed; and,
beside the kernel's own state, the PIDs of the processes destroyed so far and those of them that
have not been freed since. -/
structure State where
  pidBitmap : Option (ℤ → BitVec 32)
  memory : ℤ → BitVec 32
  live : List Process
  accessed : List ℤ
  destroyed : List CInt
  owed : List CInt

def InBitmap (i : ℤ) : Prop := 0 ≤ i ∧ 4 * i + 4 ≤ pidBitmapSize

instance (i : ℤ) : Decidable (InBitmap i) := inferInstanceAs (Decidable (_ ∧ _))

section Source

def State.words (s : State) : ℤ → BitVec 32 :=
  s.pidBitmap.getD fun i => if InBitmap i then 0 else s.memory i

def allocatePid (s : State) : Except Panic (CInt × State) :=
  match Bitmap.scan 32 pidBitmapSize (fun _ => false)
      (fun i j => decide (s.words i &&& 1#32 <<< j = 0)) with
  | some (i, j) => .ok (BitVec.ofNat 32 (i * (4 * 8) + j),
      { s with
        pidBitmap := some (Bitmap.set s.words i j)
        accessed := (List.range (i + 1)).map (fun k : ℕ => (k : ℤ)) ++ s.accessed })
  | none => .error .scheduler

/-- `process_freePID`: the index is the PID rounded down, not divided. -/
def freePid (s : State) (pid : CInt) : State :=
  match s.pidBitmap with
  | none => s
  | some words =>
    let bitmapIdx := wordOf pid * 32
    { s with
      pidBitmap := some (Bitmap.clear words bitmapIdx (bitOf pid))
      accessed := bitmapIdx :: s.accessed }

/-- `process_createStructure`, with the address that `kmalloc` returns. -/
def createStructure (s : State) (address : Addr) : Except Panic State := do
  let (pid, s) ← allocatePid s
  .ok { s with live := ⟨address, pid, false⟩ :: s.live }

/-- `process_spawnIdleTask`; the idle task has no PID in the end. -/
def spawnIdleTask (s : State) : Except Panic State := do
  let (pid, s) ← allocatePid s
  .ok (freePid s pid)

def State.at (s : State) (address : Addr) : Option Process :=
  s.live.find? fun p => p.address = address

/-- `process_destroy` of a process that is stopped; its PID is left as it is. -/
def destroy (s : State) (address : Addr) : State :=
  match s.at address with
  | none => s
  | some p =>
    if p.stopped then
      { s with
        live := s.live.erase p
        destroyed := p.pid :: s.destroyed
        owed := p.pid :: s.owed }
    else s

end Source

inductive Event
  | create (address : Addr)
  | spawnIdle
  | stop (address : Addr)
  | freePid (pid : CInt)
  | destroy (address : Addr)

def State.stop (s : State) (address : Addr) : State :=
  { s with
    live := s.live.map fun p => if p.address = address then { p with stopped := true } else p }

def State.step (s : State) : Event → Except Panic State
  | .create address => createStructure s address
  | .spawnIdle => spawnIdleTask s
  | .stop address => .ok (s.stop address)
  | .freePid pid => .ok { Pids.freePid s pid with owed := s.owed.filter (· ≠ pid) }
  | .destroy address => .ok (Pids.destroy s address)

def State.run (s : State) (events : List Event) : Except Panic State := events.foldlM State.step s

def initial (memory : ℤ → BitVec 32) : State := ⟨none, memory, [], [], [], []⟩

def Available (s : State) (q : ℕ) : Prop :=
  ∀ words, s.pidBitmap = some words → Bitmap.test words (q / 32 : ℕ) (q % 32) = false

def Freeable (s : State) (pid : CInt) : Prop :=
  pid.toNat < 32 ∧ ∀ p ∈ s.live, p.pid ≠ pid

/-- What keeps a step clear of the three defects: a PID with room in the bitmap is there for a
process and one of the first word for an idle task, and only such PIDs are freed, once they are
not in use. -/
def Meets (s : State) : Event → Prop
  | .create _ => ∃ q < 8192, Available s q
  | .spawnIdle => ∃ q < 32, Available s q
  | .freePid pid => Freeable s pid
  | _ => True

def AllMeet (s : State) : List Event → Prop
  | [] => True
  | e :: events => Meets s e ∧ ∀ s', s.step e = .ok s' → AllMeet s' events

/-- PIDs are unique, freeing one makes just that one available, the bitmap is accessed within its
bounds, and the PIDs of destroyed processes are available if they were freed, and not else. -/
structure Good (s : State) : Prop where
  distinct : s.live.Pairwise fun a b => a.pid ≠ b.pid
  freed : ∀ pid, Freeable s pid → ∀ q, Available (freePid s pid) q ↔ Available s q ∨ q = pid.toNat
  accessed : ∀ w ∈ s.accessed, InBitmap w
  returned : (∀ pid ∈ s.destroyed, (∀ p ∈ s.live, p.pid ≠ pid) → Available s pid.toNat) ↔
    s.owed = []

section Steps

variable {s s' : State} {q : ℕ} {pid : CInt}

theorem available_iff_words (hq : q < 8192) :
    Available s q ↔ Bitmap.test s.words (q / 32 : ℕ) (q % 32) = false := by
  unfold Available State.words
  cases s.pidBitmap with
  | none =>
    have hin : InBitmap ((q / 32 : ℕ) : ℤ) := by
      unfold InBitmap pidBitmapSize
      omega
    simp only [reduceCtorEq, false_implies, implies_true, true_iff, Option.getD_none,
      Bitmap.test, if_pos hin]
    simp
  | some words => simp

theorem available_iff_of_some {words : ℤ → BitVec 32} (h : s.pidBitmap = some words) :
    Available s q ↔ Bitmap.test words (q / 32 : ℕ) (q % 32) = false := by
  simp [Available, h]

theorem allocatePid_spec (h : ∃ q < 8192, Available s q) :
    ∃ q s', allocatePid s = .ok (BitVec.ofNat 32 q, s') ∧ q < 8192 ∧ Available s q ∧
      (∀ r < q, ¬ Available s r) ∧ (∀ r < 8192, Available s' r ↔ Available s r ∧ r ≠ q) ∧
      s'.live = s.live ∧ s'.destroyed = s.destroyed ∧ s'.owed = s.owed ∧
      ∀ w ∈ s'.accessed, w ∈ s.accessed ∨ InBitmap w := by
  obtain ⟨q₀, hq₀, hfree⟩ := h
  rw [available_iff_words hq₀] at hfree
  have hmod₀ : q₀ % 32 < 32 := Nat.mod_lt _ (by decide)
  unfold allocatePid
  cases hscan : Bitmap.scan 32 pidBitmapSize (fun _ => false)
      (fun i j => decide (s.words i &&& 1#32 <<< j = 0)) with
  | none =>
    have hnot := Bitmap.scan_eq_none hscan (q₀ / 32) (q₀ % 32) (by unfold pidBitmapSize; omega)
      hmod₀ rfl
    rw [decide_eq_false_iff_not, Bitmap.and_mask_eq_zero_iff hmod₀] at hnot
    exact absurd hfree hnot
  | some found =>
    obtain ⟨i, j⟩ := found
    obtain ⟨-, hj, haccept, -, hfirst⟩ := Bitmap.scan_eq_some hscan
    rw [decide_eq_true_eq, Bitmap.and_mask_eq_zero_iff hj] at haccept
    have hbefore : ∀ k c, c < 32 → k < i ∨ (k = i ∧ c < j) → Bitmap.test s.words k c = true := by
      intro k c hc hlt
      have hnot := hfirst k c hc rfl hlt
      rw [decide_eq_false_iff_not, Bitmap.and_mask_eq_zero_iff hc, Bool.not_eq_false] at hnot
      exact hnot
    have hdiv : (i * (4 * 8) + j) / 32 = i := by omega
    have hmod : (i * (4 * 8) + j) % 32 = j := by omega
    have hle : i * (4 * 8) + j ≤ q₀ := by
      by_contra hgt
      have hmarked := hbefore (q₀ / 32) (q₀ % 32) hmod₀ (by omega)
      rw [hfree] at hmarked
      exact absurd hmarked (by decide)
    refine ⟨i * (4 * 8) + j, { s with
        pidBitmap := some (Bitmap.set s.words i j)
        accessed := (List.range (i + 1)).map (fun k : ℕ => (k : ℤ)) ++ s.accessed },
      rfl, by omega, ?_, fun r hr => ?_, fun r hr => ?_, rfl, rfl, rfl, fun w hw => ?_⟩
    · rw [available_iff_words (by omega), hdiv, hmod]
      exact haccept
    · rw [available_iff_words (by omega), Bool.not_eq_false]
      exact hbefore (r / 32) (r % 32) (Nat.mod_lt _ (by decide)) (by omega)
    · refine (available_iff_of_some rfl).trans ?_
      rw [available_iff_words hr,
        Bitmap.test_set _ (Nat.mod_lt r (by decide : 0 < 32)), Bool.or_eq_false_iff,
        decide_eq_false_iff_not]
      refine and_congr_right fun _ => ?_
      omega
    · rcases List.mem_append.mp hw with hnew | hold
      · obtain ⟨k, hk, rfl⟩ := List.mem_map.mp hnew
        rw [List.mem_range] at hk
        refine Or.inr ?_
        unfold InBitmap pidBitmapSize
        omega
      · exact Or.inl hold

theorem freePid_spec (hpid : pid.toNat < 32) :
    (∀ q, Available (freePid s pid) q ↔ Available s q ∨ q = pid.toNat) ∧
      ∀ w ∈ (freePid s pid).accessed, w ∈ s.accessed ∨ InBitmap w := by
  have hword := wordOf_ofNat pid.toNat (by omega)
  have hbit := bitOf_ofNat pid.toNat (by omega)
  rw [BitVec.ofNat_toNat, BitVec.setWidth_eq] at hword hbit
  have hidx : wordOf pid * 32 = 0 := by omega
  unfold freePid
  cases hbitmap : s.pidBitmap with
  | none => exact ⟨fun q => by simp [Available, hbitmap], fun w hw => Or.inl hw⟩
  | some words =>
    dsimp only
    rw [hidx, hbit]
    refine ⟨fun q => ?_, fun w hw => ?_⟩
    · refine (available_iff_of_some rfl).trans ?_
      rw [available_iff_of_some hbitmap,
        Bitmap.test_clear _ (Nat.mod_lt q (by decide : 0 < 32)), Bool.and_eq_false_iff,
        Bool.not_eq_false', decide_eq_true_eq]
      refine or_congr_right ?_
      omega
    · rcases List.mem_cons.mp hw with rfl | hw
      · exact Or.inr (by decide)
      · exact Or.inl hw

theorem freePid_frame (s : State) (pid : CInt) :
    (freePid s pid).live = s.live ∧ (freePid s pid).destroyed = s.destroyed ∧
      (freePid s pid).owed = s.owed := by
  unfold freePid
  cases s.pidBitmap <;> exact ⟨rfl, rfl, rfl⟩

structure Inv (s : State) : Prop where
  distinct : s.live.Pairwise fun a b => a.pid ≠ b.pid
  small : ∀ p ∈ s.live, p.pid.toNat < 8192
  owed_small : ∀ pid ∈ s.destroyed, pid.toNat < 8192
  owed_destroyed : ∀ pid ∈ s.owed, pid ∈ s.destroyed
  owed_free : ∀ pid ∈ s.owed, ∀ p ∈ s.live, p.pid ≠ pid
  available : ∀ q < 8192, Available s q ↔
    (∀ p ∈ s.live, p.pid.toNat ≠ q) ∧ ∀ pid ∈ s.owed, pid.toNat ≠ q
  accessed : ∀ w ∈ s.accessed, InBitmap w

theorem inv_initial (memory : ℤ → BitVec 32) : Inv (initial memory) := by
  refine ⟨List.Pairwise.nil, ?_, ?_, ?_, ?_, fun q _ => ?_, ?_⟩ <;>
    simp [initial, Available]

theorem Inv.good (h : Inv s) : Good s := by
  refine ⟨h.distinct, fun pid hpid => (freePid_spec hpid.1).1, h.accessed, ?_, ?_⟩
  · intro hall
    rw [List.eq_nil_iff_forall_not_mem]
    intro pid howed
    have havail := hall pid (h.owed_destroyed pid howed) (h.owed_free pid howed)
    rw [h.available _ (h.owed_small pid (h.owed_destroyed pid howed))] at havail
    exact havail.2 pid howed rfl
  · intro hnone pid hpid hfree
    rw [h.available _ (h.owed_small pid hpid), hnone]
    refine ⟨fun p hp heq => hfree p hp (BitVec.eq_of_toNat_eq heq), fun _ h => ?_⟩
    exact absurd h List.not_mem_nil

theorem Inv.create (h : Inv s) (hfree : ∃ q < 8192, Available s q) (address : Addr) :
    ∃ s', createStructure s address = .ok s' ∧ Inv s' := by
  obtain ⟨q, s', halloc, hq, hqfree, -, havail, hlive, hdestroyed, howed, haccessed⟩ :=
    allocatePid_spec hfree
  have hpid : (BitVec.ofNat 32 q).toNat = q := by
    rw [BitVec.toNat_ofNat]
    omega
  obtain ⟨hnotlive, hnotowed⟩ := (h.available q hq).mp hqfree
  refine ⟨{ s' with live := ⟨address, BitVec.ofNat 32 q, false⟩ :: s'.live },
    by simp only [createStructure, halloc]; rfl, ?_⟩
  refine ⟨?_, ?_, ?_, ?_, ?_, fun r hr => ?_, fun w hw => (haccessed w hw).elim (h.accessed w) id⟩
  · simp only [hlive, List.pairwise_cons]
    refine ⟨fun p hp heq => hnotlive p hp ?_, h.distinct⟩
    rw [← heq, hpid]
  · simp only [hlive, List.forall_mem_cons]
    exact ⟨by rw [hpid]; exact hq, h.small⟩
  · simpa only [hdestroyed] using h.owed_small
  · simpa only [howed, hdestroyed] using h.owed_destroyed
  · simp only [howed, hlive, List.forall_mem_cons]
    intro pid hpid'
    refine ⟨fun heq => hnotowed pid hpid' ?_, h.owed_free pid hpid'⟩
    rw [← heq, hpid]
  · have hsame : Available { s' with live := ⟨address, BitVec.ofNat 32 q, false⟩ :: s'.live } r ↔
        Available s' r := Iff.rfl
    rw [hsame, havail r hr, h.available r hr]
    simp only [hlive, howed, List.forall_mem_cons, hpid]
    constructor
    · rintro ⟨⟨hl, ho⟩, hne⟩
      exact ⟨⟨Ne.symm hne, hl⟩, ho⟩
    · rintro ⟨⟨hne, hl⟩, ho⟩
      exact ⟨⟨hl, ho⟩, Ne.symm hne⟩

theorem Inv.spawnIdle (h : Inv s) (hfree : ∃ q < 32, Available s q) :
    ∃ s', spawnIdleTask s = .ok s' ∧ Inv s' := by
  obtain ⟨q₀, hq₀, hq₀free⟩ := hfree
  obtain ⟨q, s', halloc, hq, hqfree, hfirst, havail, hlive, hdestroyed, howed, haccessed⟩ :=
    allocatePid_spec ⟨q₀, by omega, hq₀free⟩
  have hle : q ≤ q₀ := Nat.le_of_not_lt fun hlt => hfirst q₀ hlt hq₀free
  have hpid : (BitVec.ofNat 32 q).toNat = q := by
    rw [BitVec.toNat_ofNat]
    omega
  have hsmall : (BitVec.ofNat 32 q).toNat < 32 := by omega
  obtain ⟨hfreed, hwords⟩ := @freePid_spec s' _ hsmall
  obtain ⟨hlive', hdestroyed', howed'⟩ := freePid_frame s' (BitVec.ofNat 32 q)
  refine ⟨freePid s' (BitVec.ofNat 32 q), by simp only [spawnIdleTask, halloc]; rfl, ?_⟩
  refine ⟨?_, ?_, ?_, ?_, ?_, fun r hr => ?_, fun w hw => ?_⟩
  · rw [hlive', hlive]
    exact h.distinct
  · rw [hlive', hlive]
    exact h.small
  · rw [hdestroyed', hdestroyed]
    exact h.owed_small
  · rw [howed', howed, hdestroyed', hdestroyed]
    exact h.owed_destroyed
  · rw [howed', howed, hlive', hlive]
    exact h.owed_free
  · rw [hfreed, havail r hr, hpid, hlive', hlive, howed', howed, ← h.available r hr]
    constructor
    · rintro (⟨hr, -⟩ | rfl)
      · exact hr
      · exact hqfree
    · intro hr
      by_cases heq : r = q
      · exact Or.inr heq
      · exact Or.inl ⟨hr, heq⟩
  · rcases hwords w hw with hw | hw
    · exact (haccessed w hw).elim (h.accessed w) id
    · exact hw

theorem Inv.stop (h : Inv s) (address : Addr) : Inv (s.stop address) := by
  have hmem : ∀ p ∈ (s.stop address).live, ∃ p' ∈ s.live, p'.pid = p.pid := by
    intro p hp
    obtain ⟨p', hp', rfl⟩ := List.mem_map.mp hp
    refine ⟨p', hp', ?_⟩
    split_ifs <;> rfl
  have hmem' : ∀ p ∈ s.live, ∃ p' ∈ (s.stop address).live, p'.pid = p.pid := by
    intro p hp
    refine ⟨_, List.mem_map.mpr ⟨p, hp, rfl⟩, ?_⟩
    split_ifs <;> rfl
  refine ⟨?_, fun p hp => ?_, h.owed_small, h.owed_destroyed, fun pid hpid p hp => ?_,
    fun q hq => ?_, h.accessed⟩
  · refine List.pairwise_map.mpr (h.distinct.imp fun {a b} hne => ?_)
    split_ifs <;> exact hne
  · obtain ⟨p', hp', heq⟩ := hmem p hp
    rw [← heq]
    exact h.small p' hp'
  · obtain ⟨p', hp', heq⟩ := hmem p hp
    rw [← heq]
    exact h.owed_free pid hpid p' hp'
  · refine (h.available q hq).trans (and_congr_left fun _ =>
        ⟨fun hall p hp => ?_, fun hall p hp => ?_⟩)
    · obtain ⟨p', hp', heq⟩ := hmem p hp
      rw [← heq]
      exact hall p' hp'
    · obtain ⟨p', hp', heq⟩ := hmem' p hp
      rw [← heq]
      exact hall p' hp'

theorem Inv.free (h : Inv s) (hpid : Freeable s pid) :
    Inv { freePid s pid with owed := s.owed.filter (· ≠ pid) } := by
  obtain ⟨hfreed, hwords⟩ := @freePid_spec s _ hpid.1
  obtain ⟨hlive, hdestroyed, -⟩ := freePid_frame s pid
  refine ⟨?_, ?_, ?_, ?_, ?_, fun q hq => ?_, fun w hw => (hwords w hw).elim (h.accessed w) id⟩
  · simpa only [hlive] using h.distinct
  · simpa only [hlive] using h.small
  · simpa only [hdestroyed] using h.owed_small
  · intro pid' hpid'
    simpa only [hdestroyed] using h.owed_destroyed pid' (List.mem_of_mem_filter hpid')
  · intro pid' hpid'
    simpa only [hlive] using h.owed_free pid' (List.mem_of_mem_filter hpid')
  · have hsame : Available { freePid s pid with owed := s.owed.filter (· ≠ pid) } q ↔
        Available (freePid s pid) q := Iff.rfl
    rw [hsame, hfreed, h.available q hq]
    simp only [hlive, List.mem_filter, decide_eq_true_eq]
    constructor
    · rintro (⟨hl, ho⟩ | rfl)
      · exact ⟨hl, fun pid' hpid' => ho pid' hpid'.1⟩
      · refine ⟨fun p hp heq => hpid.2 p hp (BitVec.eq_of_toNat_eq heq), fun pid' hpid' heq => ?_⟩
        exact hpid'.2 (BitVec.eq_of_toNat_eq heq)
    · rintro ⟨hl, ho⟩
      by_cases heq : q = pid.toNat
      · exact Or.inr heq
      · refine Or.inl ⟨hl, fun pid' hpid' heq' => ?_⟩
        by_cases hsame : pid' = pid
        · exact heq (by rw [← heq', hsame])
        · exact ho pid' ⟨hpid', hsame⟩ heq'

theorem Inv.destroy (h : Inv s) (address : Addr) : Inv (destroy s address) := by
  unfold Pids.destroy
  cases hat : s.at address with
  | none => exact h
  | some p =>
    dsimp only
    split_ifs
    · have hp : p ∈ s.live := List.mem_of_find?_eq_some hat
      have hperm := List.perm_cons_erase hp
      have hpair := (hperm.pairwise_iff fun {a b} hne => Ne.symm hne).mp h.distinct
      rw [List.pairwise_cons] at hpair
      refine ⟨hpair.2, fun p' hp' => h.small p' (List.mem_of_mem_erase hp'), ?_, ?_, ?_,
        fun q hq => ?_, h.accessed⟩
      · rw [List.forall_mem_cons]
        exact ⟨h.small p hp, h.owed_small⟩
      · rw [List.forall_mem_cons]
        exact ⟨List.mem_cons_self, fun pid hpid =>
            List.mem_cons_of_mem _ (h.owed_destroyed pid hpid)⟩
      · rw [List.forall_mem_cons]
        refine ⟨fun p' hp' => (hpair.1 p' hp').symm, fun pid hpid p' hp' => ?_⟩
        exact h.owed_free pid hpid p' (List.mem_of_mem_erase hp')
      · refine (h.available q hq).trans ?_
        simp only [hperm.mem_iff, List.forall_mem_cons]
        constructor
        · rintro ⟨⟨hne, hl⟩, ho⟩
          exact ⟨hl, hne, ho⟩
        · rintro ⟨hl, hne, ho⟩
          exact ⟨⟨hne, hl⟩, ho⟩
    · exact h

theorem Inv.step (h : Inv s) {e : Event} (he : Meets s e) : ∃ s', s.step e = .ok s' ∧ Inv s' := by
  cases e with
  | create address => exact h.create he address
  | spawnIdle => exact h.spawnIdle he
  | stop address => exact ⟨_, rfl, h.stop address⟩
  | freePid pid => exact ⟨_, rfl, h.free he⟩
  | destroy address => exact ⟨_, rfl, h.destroy address⟩

theorem Inv.run (h : Inv s) {events : List Event} (hmeet : AllMeet s events) :
    ∃ s', s.run events = .ok s' ∧ Inv s' := by
  induction events generalizing s with
  | nil => exact ⟨s, rfl, h⟩
  | cons e events ih =>
    obtain ⟨s₁, hstep, h₁⟩ := h.step hmeet.1
    obtain ⟨s₂, hrun, h₂⟩ := ih h₁ (hmeet.2 s₁ hstep)
    refine ⟨s₂, ?_, h₂⟩
    rw [State.run, List.foldlM_cons, hstep]
    exact hrun

end Steps

/-- Every run that keeps clear of the defects comes to a state in which PIDs are unique, frees are
exact and the bitmap was not left; and all PIDs of destroyed processes are available in it if and
only if each of them has been freed since. -/
theorem pids_of_run {memory : ℤ → BitVec 32} {events : List Event}
    (hmeet : AllMeet (initial memory) events) :
    ∃ s, (initial memory).run events = .ok s ∧ Good s := by
  obtain ⟨s, hrun, h⟩ := (inv_initial memory).run hmeet
  exact ⟨s, hrun, h.good⟩

/-- A process is created, stopped, destroyed, and its PID freed. -/
theorem pids_of_one_process :
    ∃ s, (initial fun _ => 0).run [.create 16, .stop 16, .destroy 16, .freePid 0] = .ok s ∧
      Good s := by
  have hlive : ∀ s₁, (initial fun _ => 0).step (.create 16) = .ok s₁ →
      s₁.live = [⟨16, 0, false⟩] := by
    intro s₁ h₁
    have hmap : ((initial fun _ => 0).step (.create 16)).toOption.map State.live =
        some [⟨16, 0, false⟩] := by decide +kernel
    rw [h₁] at hmap
    exact Option.some.inj hmap
  apply pids_of_run
  refine ⟨⟨0, by decide, by simp [Available, initial]⟩, fun s₁ h₁ => ⟨trivial, fun s₂ h₂ =>
    ⟨trivial, fun s₃ h₃ => ⟨⟨by decide, ?_⟩, fun _ _ => trivial⟩⟩⟩⟩
  obtain rfl := Except.ok.inj h₂
  obtain rfl := Except.ok.inj h₃
  simp [destroy, State.at, State.stop, hlive s₁ h₁]

/-- 34 processes, of which the last one is destroyed and its PID 33 freed. -/
def manyProcesses : List Event :=
  (List.range 34).map (fun i => .create (BitVec.ofNat 64 (16 * (i + 1)))) ++
    [.stop 544, .destroy 544, .freePid 33]

def State.observe (s : State) (q : ℕ) : List CInt × ℕ × Option Bool :=
  (s.destroyed, s.live.length, s.pidBitmap.map fun words =>
      Bitmap.test words ((q / 32 : ℕ) : ℤ) (q % 32))

/-- A destroyed process keeps its PID, and one past the first word keeps it even when it is freed:
the bit of PID 33 is still set at the end. -/
theorem destroyed_pid_not_available :
    (∃ s, (initial fun _ => 0).run [.create 16, .stop 16, .destroy 16] = .ok s ∧
      s.destroyed = [0] ∧ s.live = [] ∧ ¬ Available s 0) ∧
    (∃ s, (initial fun _ => 0).run manyProcesses = .ok s ∧ s.destroyed = [33] ∧
      s.live.length = 33 ∧ ¬ Available s 33) := by
  have hobserved : ∀ {events q pids n},
      ((initial fun _ => 0).run events).toOption.map (·.observe q) = some (pids, n, some true) →
      ∃ s, (initial fun _ => 0).run events = .ok s ∧ s.destroyed = pids ∧ s.live.length = n ∧
        ¬ Available s q := by
    intro events q pids n h
    cases hrun : (initial fun _ => 0).run events with
    | error e =>
      rw [hrun] at h
      exact absurd h (by simp [Except.toOption])
    | ok s =>
      simp only [hrun, Except.toOption, Option.map_some, State.observe, Option.some.injEq,
        Prod.mk.injEq, Option.map_eq_some_iff] at h
      obtain ⟨hpids, hn, words, hwords, hbit⟩ := h
      refine ⟨s, rfl, hpids, hn, fun havail => ?_⟩
      rw [havail words hwords] at hbit
      exact absurd hbit (by decide)
  obtain ⟨s, hrun, hpids, hlive, havail⟩ :=
    @hobserved [.create 16, .stop 16, .destroy 16] 0 [0] 0 (by decide +kernel)
  refine ⟨⟨s, hrun, hpids, List.length_eq_zero_iff.mp hlive, havail⟩, ?_⟩
  exact @hobserved manyProcesses 33 [33] 33 (by decide +kernel)

end ReduceOS.Pids
