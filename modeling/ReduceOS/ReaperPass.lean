import ReduceOS.ProcessTree

/-!
A pass of the reaper. The loop compares its counter with the length of the queue, which is one less
after each process that is destroyed, so that the pass can be over before it has come to the
end of the queue.
-/
namespace ReduceOS.ReaperPass

open ProcessTree (Ptr processStopped)

structure State where
  reapQueue : List Ptr
  flags : Ptr → BitVec 32
  /-- `current_process` of each processor -/
  current : List Ptr
  /-- The calls of `process_destroy`. -/
  destroyed : List Ptr

section Source

def processInUse (s : State) (proc : Ptr) : Bool := s.current.any fun current => current == proc

/-- The body of the loop of `process_reaper`. A process that is not stopped is dropped. -/
def turn (s : State) : State :=
  match s.reapQueue with
  | [] => s
  | proc :: rest =>
    if proc ≠ 0 ∧ s.flags proc &&& processStopped ≠ 0 then
      if processInUse s proc then { s with reapQueue := rest ++ [proc] }
      else { s with reapQueue := rest, destroyed := s.destroyed ++ [proc] }
    else { s with reapQueue := rest }

theorem turn_length_le (s : State) : (turn s).reapQueue.length ≤ s.reapQueue.length := by
  unfold turn
  cases hqueue : s.reapQueue with
  | nil => simp [hqueue]
  | cons proc rest => dsimp only; split_ifs <;> simp

def reapFrom (i : ℕ) (s : State) : State :=
  if i < s.reapQueue.length then reapFrom (i + 1) (turn s) else s
termination_by s.reapQueue.length - i
decreasing_by
  have := turn_length_le s
  omega

def processReaper (s : State) : State := reapFrom 0 s

end Source

/-- The queued processes that are not in use are destroyed, and the others are left in the queue,
each of them as often as it was there. -/
structure Reaped (s s' : State) : Prop where
  destroyed : s'.destroyed.Perm (s.destroyed ++ s.reapQueue.filter (!processInUse s ·))
  queue : s'.reapQueue.Perm (s.reapQueue.filter (processInUse s))
  once : s.reapQueue.Nodup → s'.reapQueue.Nodup

def AllStopped (s : State) : Prop :=
  ∀ proc ∈ s.reapQueue, proc ≠ 0 ∧ s.flags proc &&& processStopped ≠ 0

section Pass

variable {s : State} {xs ys : List Ptr} {proc : Ptr}

/-- The state once the processes `xs` have been looked at and `ys` have not. -/
def after (s : State) (xs ys : List Ptr) : State :=
  { s with
    reapQueue := ys ++ xs.filter (processInUse s)
    destroyed := s.destroyed ++ xs.filter (!processInUse s ·) }

theorem turn_after (hstopped : proc ≠ 0 ∧ s.flags proc &&& processStopped ≠ 0) :
    turn (after s xs (proc :: ys)) = after s (xs ++ [proc]) ys := by
  have hproc : turn (after s xs (proc :: ys)) =
      if processInUse s proc then
        { after s xs (proc :: ys) with reapQueue := ys ++ xs.filter (processInUse s) ++ [proc] }
      else { after s xs (proc :: ys) with
        reapQueue := ys ++ xs.filter (processInUse s)
        destroyed := s.destroyed ++ xs.filter (!processInUse s ·) ++ [proc] } := if_pos hstopped
  rw [hproc]
  cases huse : processInUse s proc with
  | true => simp [after, huse]
  | false => simp [after, huse]

/-- The counter is below the length as long as more processes are left to look at than have been
destroyed. -/
theorem lt_length_after : xs.length < (after s xs ys).reapQueue.length ↔
    (xs.filter (!processInUse s ·)).length < ys.length := by
  have hsplit := List.length_eq_length_filter_add (l := xs) (processInUse s)
  rw [after, List.length_append]
  omega

/-- A pass looks at the processes one after the other, and stops in front of the first one behind
which too few are left. -/
theorem reapFrom_after (hstopped : ∀ proc ∈ ys, proc ≠ 0 ∧ s.flags proc &&& processStopped ≠ 0) :
    ∃ ys₁ ys₂, ys = ys₁ ++ ys₂ ∧
      reapFrom xs.length (after s xs ys) = after s (xs ++ ys₁) ys₂ ∧
      ys₂.length ≤ ((xs ++ ys₁).filter (!processInUse s ·)).length ∧
      ∀ as proc bs, ys₁ = as ++ proc :: bs →
        ((xs ++ as).filter (!processInUse s ·)).length ≤ (bs ++ ys₂).length := by
  induction ys generalizing xs with
  | nil =>
    refine ⟨[], [], rfl, ?_, Nat.zero_le _, fun as proc bs hnil => ?_⟩
    · rw [reapFrom, if_neg (by rw [lt_length_after]; exact Nat.not_lt_zero _), List.append_nil]
    · exact absurd hnil (by simp)
  | cons proc ys ih =>
    rw [reapFrom]
    by_cases hlt : xs.length < (after s xs (proc :: ys)).reapQueue.length
    · obtain ⟨ys₁, ys₂, rfl, hrun, hend, hbefore⟩ := @ih (xs ++ [proc])
        fun p hp => hstopped p (List.mem_cons_of_mem proc hp)
      refine ⟨proc :: ys₁, ys₂, rfl, ?_, by simpa using hend, fun as p bs hsplit => ?_⟩
      · rw [if_pos hlt, turn_after (hstopped proc List.mem_cons_self)]
        simpa using hrun
      · cases as with
        | nil =>
          obtain ⟨-, rfl⟩ := List.cons.inj hsplit
          rw [lt_length_after, List.length_cons] at hlt
          rw [List.append_nil]
          omega
        | cons a as =>
          obtain ⟨rfl, htail⟩ := List.cons.inj hsplit
          simpa using hbefore as p bs htail
    · refine ⟨[], proc :: ys, rfl, by rw [if_neg hlt, List.append_nil], ?_, fun as p bs hnil => ?_⟩
      · rw [lt_length_after, Nat.not_lt] at hlt
        rwa [List.append_nil]
      · exact absurd hnil (by simp)

/-- A pass reaps the whole queue exactly when each process that is not in use has at least as many
processes behind it as there are processes not in use before it. -/
theorem processReaper_reaped_iff (hstopped : AllStopped s) :
    Reaped s (processReaper s) ↔ ∀ xs proc ys, s.reapQueue = xs ++ proc :: ys →
      processInUse s proc = false → (xs.filter (!processInUse s ·)).length ≤ ys.length := by
  obtain ⟨seen, left, hqueue, hrun, hend, hbefore⟩ := @reapFrom_after _ [] _ hstopped
  have hstart : after s [] s.reapQueue = s := by simp [after]
  rw [hstart, List.nil_append] at hrun
  rw [List.nil_append] at hend
  have hleft : Reaped s (after s seen left) ↔ ∀ proc ∈ left, processInUse s proc = true := by
    constructor
    · intro hreaped proc hproc
      have hmem := hreaped.queue.mem_iff.mp (List.mem_append_left _ hproc)
      exact (List.mem_filter.mp hmem).2
    · intro hall
      have hself : left.filter (processInUse s) = left := List.filter_eq_self.mpr hall
      have hnone : left.filter (!processInUse s ·) = [] := by simpa using hall
      have hperm : (left ++ seen.filter (processInUse s)).Perm
          (s.reapQueue.filter (processInUse s)) := by
        rw [hqueue, List.filter_append, hself]
        exact List.perm_append_comm
      refine ⟨?_, hperm, fun hnodup => hperm.nodup_iff.mpr (hnodup.filter _)⟩
      rw [hqueue, List.filter_append, hnone, List.append_nil]
      exact List.Perm.refl _
  rw [processReaper, show reapFrom 0 s = after s seen left from hrun, hleft]
  constructor
  · intro hall xs proc ys hsplit hfree
    rcases List.append_eq_append_iff.mp (hqueue.symm.trans hsplit) with
      ⟨as, rfl, hright⟩ | ⟨bs, rfl, hright⟩
    · have huse := hall proc (hright ▸ List.mem_append_right as List.mem_cons_self)
      rw [hfree] at huse
      contradiction
    · cases bs with
      | nil =>
        have huse := hall proc (by rw [← List.nil_append left, ← hright]; exact List.mem_cons_self)
        rw [hfree] at huse
        contradiction
      | cons b bs =>
        obtain ⟨rfl, rfl⟩ := List.cons.inj hright
        exact hbefore xs proc bs rfl
  · intro hcond proc hproc
    by_contra hfree
    rw [Bool.not_eq_true] at hfree
    obtain ⟨as, bs, rfl⟩ := List.append_of_mem hproc
    have hle := hcond (seen ++ as) proc bs (by rw [hqueue, List.append_assoc]) hfree
    rw [List.filter_append, List.length_append] at hle
    rw [List.length_append, List.length_cons] at hend
    omega

end Pass

section Examples

def three : State := ⟨[1, 2, 3], fun _ => processStopped, [], []⟩

/-- The last of them is left in the queue. -/
theorem processReaper_leaves_last : AllStopped three ∧ (processReaper three).reapQueue = [3] ∧
    (processReaper three).destroyed = [1, 2] ∧ ¬ Reaped three (processReaper three) := by
  have hstopped : AllStopped three := by simp [AllStopped, three, processStopped]
  have hpass : processReaper three = ⟨[3], fun _ => processStopped, [], [1, 2]⟩ := by
    simp [processReaper, reapFrom, turn, three, processInUse, processStopped]
  refine ⟨hstopped, by rw [hpass], by rw [hpass], fun hreaped => ?_⟩
  have hqueue := hreaped.queue
  rw [hpass] at hqueue
  exact absurd hqueue.length_eq (by decide)

def two : State := ⟨[1, 2], fun _ => processStopped, [2], []⟩

theorem processReaper_reaped_two : Reaped two (processReaper two) := by
  refine (processReaper_reaped_iff (by simp [AllStopped, two, processStopped])).mpr ?_
  intro xs proc ys hsplit hfree
  cases xs with
  | nil => exact Nat.zero_le _
  | cons x xs =>
    obtain ⟨rfl, htail⟩ := List.cons.inj hsplit
    cases xs with
    | nil =>
      obtain ⟨rfl, -⟩ := List.cons.inj htail
      exact absurd hfree (by decide)
    | cons y xs =>
      have hlength := congrArg List.length htail
      simp at hlength

end Examples

end ReduceOS.ReaperPass
