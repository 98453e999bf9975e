import ReduceOS.Lifecycle

/-!
A parent that waits is woken. A child that exits marks itself first and looks into its
parent's queue afterwards; the parent enters the queue first and looks at its children
afterwards, so one of the two sees the other. What is left is the time between the look at
a child and `sleep_untilNever`: a wake-up call that comes then finds no sleeper and is lost.
-/
namespace ReduceOS.WakeUps

open Machine Lifecycle
open ProcessTree (Ptr isStopped)

def passed : Pc → Ptr → Option Args
  | .waitScan a rest, c => if c ∈ rest then none else some a
  | .waitSleep a, _ => some a
  | .waitYield a, _ => some a
  | .asleep a, _ => some a
  | _, _ => none

def sleeping : Pc → Bool
  | .waitYield _ => true
  | .asleep _ => true
  | _ => false

def unfinished : Pc → Bool
  | .exitMarked _ => true
  | .exitStatused => true
  | .exitWalk _ => true
  | _ => false

def deaf : Pc → Ptr → Bool
  | .waitScan _ rest, c => c ∉ rest
  | .waitSleep _, _ => true
  | _, _ => false

/-- A parent sleeps in `process_waitpid` although a child it waits for has done its part. -/
def LostWakeup (s : State) (q c : Ptr) : Prop :=
  ∃ a, (s.info q).pc = .asleep a ∧ (s.info q).sleep = some .nocond ∧ c ∈ childrenOf s q ∧
    accepts s q a.pid c = true ∧ isStopped s.tree c = true ∧ unfinished (s.info c).pc = false ∧
    (s.info c).pc ≠ .exitReap

def Heard (s : State) : Event → Prop
  | .exitNext c =>
    ∀ node, (s.info c).pc = .exitWalk node → deaf (s.info (s.tree.process c).parent).pc c = false
  | _ => True

def Allowed (s : State) (event : Event) : Prop := event.Orderly s ∧ Heard s event

def Watched (s : State) (q c : Ptr) : Prop :=
  ∀ a, passed (s.info q).pc c = some a → accepts s q a.pid c = true →
    isStopped s.tree c = false ∨ unfinished (s.info c).pc = true ∨ (s.info q).sleep = some .wakeup

structure Waits (info : Info) : Prop where
  queued : info.pc.inside = true → info.waitpidQueue ≠ []
  sleeps : info.sleep ≠ none ↔ sleeping info.pc = true

structure Watch (s : State) : Prop where
  base : Base s
  waits : ∀ q ∈ s.tree.processes, Waits (s.info q)
  watched : ∀ c ∈ s.tree.processes, (s.tree.process c).node ≠ 0 →
    Watched s (s.tree.process c).parent c

section Waiters

variable {s s' : State} {q c : Ptr} {id : ℕ}

theorem inside_of_passed {pc : Pc} {a : Args} (h : passed pc c = some a) : pc.inside = true := by
  cases pc <;> first | rfl | contradiction

theorem accepts_congr {pid : CInt} (hq : (s'.info q).gid = (s.info q).gid)
    (hgid : (s'.info c).gid = (s.info c).gid) (hpid : (s'.info c).pid = (s.info c).pid) :
    accepts s' q pid c = accepts s q pid c := by
  unfold accepts
  rw [hq, hgid, hpid]

theorem watched_of_none (h : passed (s.info q).pc c = none) : Watched s q c := by
  intro a ha
  rw [h] at ha
  contradiction

theorem Watched.congr (h : Watched s q c) (hq : s'.info q = s.info q) (hc : s'.info c = s.info c)
    (hstopped : isStopped s'.tree c = isStopped s.tree c) : Watched s' q c := by
  intro a ha haccepts
  have hsame : accepts s' q a.pid c = accepts s q a.pid c :=
    accepts_congr (by rw [hq]) (by rw [hc]) (by rw [hc])
  rw [hq] at ha ⊢
  rw [hc, hstopped]
  exact h a ha (hsame.symm.trans haccepts)

theorem waits_of_waitMove (h : WaitMove s q id s') (hw : Waits (s.info q)) :
    Waits (s'.info q) := by
  cases h with
  | enqueue hpc hnode =>
    rw [setInfo_info_self]
    have hsleep := hw.sleeps
    rw [hpc] at hsleep
    exact ⟨fun _ => by simp, hsleep⟩
  | leave hpc =>
    have hsleep := hw.sleeps
    rw [hpc] at hsleep
    unfold leaveQueue
    rw [setInfo_info_self]
    exact ⟨fun h => Bool.noConfusion h, hsleep⟩
  | sleep hpc =>
    have hqueue := hw.queued
    rw [hpc] at hqueue
    rw [setInfo_info_self]
    exact ⟨hqueue, iff_of_true (Option.some_ne_none _) rfl⟩
  | _ =>
    rename (s.info q).pc = _ => hpc
    obtain ⟨hqueue, hsleep⟩ := hw
    rw [hpc] at hqueue hsleep
    simp only [setPc, setInfo, destroy_info, Function.update_self]
    refine ⟨fun h => ?_, hsleep⟩
    first | exact hqueue rfl | exact Bool.noConfusion h

/-- A call that has passed over the child already goes on. -/
theorem Watched.goOn (h : Watched s q c)
    (hpassed : passed (s'.info q).pc c = passed (s.info q).pc c)
    (hsleep : (s.info q).sleep = some .wakeup → (s'.info q).sleep = some .wakeup)
    (hgid : (s'.info q).gid = (s.info q).gid) (hc : s'.info c = s.info c)
    (hstopped : isStopped s'.tree c = isStopped s.tree c) : Watched s' q c := by
  intro a ha haccepts
  have hsame : accepts s' q a.pid c = accepts s q a.pid c :=
    accepts_congr hgid (by rw [hc]) (by rw [hc])
  rw [hc, hstopped]
  exact (h a (hpassed.symm.trans ha) (hsame.symm.trans haccepts)).imp_right
    (Or.imp_right hsleep)

/-- A step of the call keeps watch over the children of its process. -/
theorem watched_of_waitMove (h : WaitMove s q id s') (hwatch : Watch s)
    (hc : c ∈ s.tree.processes) (hnode : (s.tree.process c).node ≠ 0)
    (hparent : (s.tree.process c).parent = q) (hne : c ≠ q)
    (hstopped : isStopped s'.tree c = isStopped s.tree c) : Watched s' q c := by
  have hold : Watched s q c := hparent ▸ hwatch.watched c hc hnode
  have hq := h.live hwatch.base
  have hq0 : q ≠ 0 := fun h0 => hwatch.base.good.process_ne (h0 ▸ hq)
  have hinfo := h.others hne
  have hgid := (h.ids q).1
  cases h with
  | lock hpc hfree hsome =>
    refine watched_of_none ?_
    simp only [setPc_info_self, passed]
    rw [if_pos (mem_childrenOf hwatch.base.good ⟨hc, hparent⟩ hq0 hnode)]
  | @skip a child rest hpc hnot =>
    by_cases hchild : c = child
    · intro a' ha haccepts
      rw [setPc_info_self] at ha
      have ha' : a' = a := by
        simp only [passed] at ha
        split_ifs at ha
        exact (Option.some.inj ha).symm
      subst ha' hchild
      rw [accepts_congr hgid (by rw [hinfo]) (by rw [hinfo])] at haccepts
      exact Or.inl (hnot haccepts)
    · refine hold.goOn ?_ (fun h => ?_) hgid hinfo hstopped
      · rw [setPc_info_self, hpc]
        simp [passed, hchild]
      · rw [setPc_info_self]
        exact h
  | giveUp hpc =>
    refine hold.goOn ?_ (fun h => ?_) hgid hinfo hstopped
    · rw [hpc]
      simp [passed]
    · simpa using h
  | sleep hpc =>
    refine hold.goOn ?_ (fun h => ?_) hgid hinfo hstopped
    · rw [setInfo_info_self, hpc]
      rfl
    · have hsleeps := (hwatch.waits q hq).sleeps
      rw [h, hpc] at hsleeps
      exact Bool.noConfusion (hsleeps.mp (Option.some_ne_none _))
  | yield hpc =>
    refine hold.goOn ?_ (fun h => ?_) hgid hinfo hstopped
    · rw [setPc_info_self, hpc]
      rfl
    · rw [setPc_info_self]
      exact h
  | _ =>
    refine watched_of_none ?_
    simp only [setPc, setInfo, leaveQueue, destroy_info, Function.update_self]
    rfl

/-- A step of `process_waitpid` keeps the watch. -/
theorem watch_of_waitMove (h : WaitMove s q id s') (hwatch : Watch s)
    (horderly : (Event.wait q id).Orderly s) : Watch s' := by
  have hprocess : s'.tree.process = s.tree.process := by
    rcases h.tree_eq with htree | ⟨child, -, -, -, -, htree⟩
    · rw [htree]
    · rw [htree, destroy_process]
  have hlive : ∀ r ∈ s'.tree.processes, r ∈ s.tree.processes := by
    intro r hr
    rcases h.tree_eq with htree | ⟨child, -, -, -, -, htree⟩
    · rwa [htree] at hr
    · rw [htree] at hr
      exact destroy_processes_subset s child hr
  have hstopped : ∀ r, isStopped s'.tree r = isStopped s.tree r := by
    intro r
    unfold isStopped
    rw [hprocess]
  refine ⟨h.base hwatch.base horderly, fun r hr => ?_, fun c hc hnode => ?_⟩
  · by_cases hrq : r = q
    · rw [hrq] at hr ⊢
      exact waits_of_waitMove h (hwatch.waits q (hlive q hr))
    · rw [h.others hrq]
      exact hwatch.waits r (hlive r hr)
  · rw [hprocess] at hnode ⊢
    have hc' := hlive c hc
    by_cases hcq : c = q
    · -- The thread of the call is running.
      subst hcq
      intro a _ _
      refine Or.inl ?_
      rw [hstopped, hwatch.base.stopped_iff c hc']
      exact h.stopped.1
    · by_cases hparent : (s.tree.process c).parent = q
      · rw [hparent]
        exact watched_of_waitMove h hwatch hc' hnode hparent hcq (hstopped c)
      · exact (hwatch.watched c hc' hnode).congr (h.others hparent) (h.others hcq) (hstopped c)

end Waiters

section Exits

variable {s s' : State} {p r c : Ptr}

theorem not_inside_of_stopped {pc : Pc} (h : pc.stopped = true) :
    pc.inside = false ∧ sleeping pc = false := by
  cases pc <;> first | exact ⟨rfl, rfl⟩ | exact Bool.noConfusion h

theorem passed_of_stopped {pc : Pc} (h : pc.stopped = true) (c : Ptr) : passed pc c = none := by
  cases pc <;> first | rfl | exact Bool.noConfusion h

theorem wakeup_sleep_of_none {q : Ptr} (h : (s.info r).sleep = none) :
    ((wakeup s q).info r).sleep = none := by
  unfold wakeup
  split_ifs with hsleep
  · exact h
  · rw [setInfo_info_of_ne]
    · exact h
    · rintro rfl
      exact hsleep h

theorem waits_of_exitMove (h : ExitMove s p s') (hw : Waits (s.info r)) : Waits (s'.info r) := by
  by_cases hr : r = p
  · subst hr
    obtain ⟨hbefore, hafter⟩ := h.stopped
    obtain ⟨hinside, hsleeping⟩ := not_inside_of_stopped hafter
    have hnone : (s.info r).sleep = none := by
      by_contra hsome
      have := hw.sleeps.mp hsome
      rw [(not_inside_of_stopped (Pc.stopped_of_exiting hbefore)).2] at this
      exact Bool.noConfusion this
    have hnone' : (s'.info r).sleep = none := by
      cases h with
      | walk hpc =>
        rw [setPc_info_self]
        exact wakeup_sleep_of_none hnone
      | _ =>
        simp only [setPc, setInfo, Function.update_self]
        exact hnone
    exact ⟨fun h => by rw [hinside] at h; exact Bool.noConfusion h,
      iff_of_false (fun hsome => hsome hnone') (by rw [hsleeping]; exact Bool.false_ne_true)⟩
  · rcases h.info_of_ne hr with hinfo | ⟨hsleep, hinfo⟩
    · rw [hinfo]
      exact hw
    · rw [hinfo]
      exact ⟨hw.queued, iff_of_true (Option.some_ne_none _) (hw.sleeps.mp hsleep)⟩

/-- A call that is not deaf and has passed over a child sleeps. -/
theorem sleeping_of_passed {pc : Pc} {a : Args} (hpassed : passed pc c = some a)
    (hdeaf : deaf pc c = false) : sleeping pc = true := by
  cases pc with
  | waitScan a rest =>
    simp only [passed] at hpassed
    split_ifs at hpassed with hmem
    simp [deaf, hmem] at hdeaf
  | waitSleep a => exact Bool.noConfusion hdeaf
  | waitYield a => rfl
  | asleep a => rfl
  | _ => contradiction

theorem wakeup_of_sleeping {q : Ptr} (h : (s.info q).sleep ≠ none) :
    ((wakeup s q).info q).sleep = some .wakeup := by
  unfold wakeup
  rw [if_neg h, setInfo_info_self]

/-- The parent has the exiting child in view, or the call for it. -/
theorem watched_self_of_exitMove (h : ExitMove s p s') (hwatch : Watch s)
    (hheard : Heard s (.exitNext p)) (hnode : (s.tree.process p).node ≠ 0) :
    Watched s' (s.tree.process p).parent p := by
  have hp := h.live hwatch.base
  have hold := hwatch.watched p hp hnode
  have hexiting := h.stopped.1
  generalize hq : (s.tree.process p).parent = q at hold ⊢
  by_cases hqp : q = p
  · refine watched_of_none (passed_of_stopped ?_ p)
    rw [hqp]
    exact h.stopped.2
  intro a ha haccepts
  rw [h.others_pc hqp] at ha
  have hlive : q ∈ s.tree.processes := hwatch.base.live_of_pc fun hgone => by
    rw [hgone] at ha
    contradiction
  have hwaits := hwatch.waits q hlive
  have hsame : accepts s' q a.pid p = accepts s q a.pid p :=
    accepts_congr (h.fields q).1 (h.fields p).1 (h.fields p).2.1
  have hheardBefore : unfinished (s.info p).pc = false → (s.info q).sleep = some .wakeup := by
    intro hdone
    rcases hold a ha (hsame.symm.trans haccepts) with hrunning | hcalling | hwakeup
    · rw [hwatch.base.stopped_iff p hp, Pc.stopped_of_exiting hexiting] at hrunning
      exact Bool.noConfusion hrunning
    · rw [hdone] at hcalling
      exact Bool.noConfusion hcalling
    · exact hwakeup
  cases h with
  | status hpc =>
    refine Or.inr (Or.inl ?_)
    rw [setInfo_info_self]
    rfl
  | noQueue hpc hnone =>
    rw [hq] at hnone
    rcases hnone with h0 | hempty
    · exact absurd (h0 ▸ hlive) hwatch.base.good.process_ne
    · exact absurd hempty (hwaits.queued (inside_of_passed ha))
  | queue hpc hsome =>
    refine Or.inr (Or.inl ?_)
    rw [setPc_info_self]
    rfl
  | walk hpc =>
    refine Or.inr (Or.inr ?_)
    rw [setPc_info_of_ne _ _ hqp, hq]
    have hhear := hheard _ hpc
    rw [hq] at hhear
    exact wakeup_of_sleeping (hwaits.sleeps.mpr (sleeping_of_passed ha hhear))
  | reap hpc hlock =>
    refine Or.inr (Or.inr ?_)
    simp only [setPc_info_of_ne _ _ hqp]
    exact hheardBefore (by rw [hpc]; rfl)
  | leave hpc =>
    refine Or.inr (Or.inr ?_)
    rw [setPc_info_of_ne _ _ hqp]
    exact hheardBefore (by rw [hpc]; rfl)

theorem watch_of_exitMove (h : ExitMove s p s') (hwatch : Watch s)
    (hheard : Heard s (.exitNext p)) : Watch s' := by
  refine ⟨h.base hwatch.base, fun r hr => ?_, fun c hc hnode => ?_⟩
  · rw [h.tree_eq] at hr
    exact waits_of_exitMove h (hwatch.waits r hr)
  · rw [h.tree_eq] at hc hnode ⊢
    by_cases hcp : c = p
    · rw [hcp] at hnode ⊢
      exact watched_self_of_exitMove h hwatch hheard hnode
    · have hold := hwatch.watched c hc hnode
      by_cases hparent : (s.tree.process c).parent = p
      · refine watched_of_none (passed_of_stopped ?_ c)
        rw [hparent]
        exact h.stopped.2
      · intro a ha haccepts
        rw [h.others_pc hparent] at ha
        have hsame : accepts s' (s.tree.process c).parent a.pid c =
            accepts s (s.tree.process c).parent a.pid c :=
          accepts_congr (h.fields _).1 (h.fields c).1 (h.fields c).2.1
        rw [h.others_pc hcp, h.tree_eq]
        refine (hold a ha (hsame.symm.trans haccepts)).imp_right (Or.imp_right fun hwakeup => ?_)
        rcases h.info_of_ne hparent with hinfo | ⟨-, hinfo⟩
        · rw [hinfo]
          exact hwakeup
        · rw [hinfo]

end Exits

section Events

variable {s₀ s s' : State} {p q n : Ptr}

/-- The thread of a running process goes to a step in which it has passed over no child. -/
theorem watch_of_actor (hwatch : Watch s) (hbase : Base s') (htree : s'.tree = s.tree)
    (hothers : ∀ r, r ≠ q → s'.info r = s.info r)
    (hrunning : (s.info q).pc.stopped = false) (hpassed : ∀ c, passed (s'.info q).pc c = none)
    (hwaits : Waits (s'.info q)) : Watch s' := by
  refine ⟨hbase, fun r hr => ?_, fun c hc hnode => ?_⟩
  · rw [htree] at hr
    by_cases hrq : r = q
    · rw [hrq]
      exact hwaits
    · rw [hothers r hrq]
      exact hwatch.waits r hr
  · rw [htree] at hc hnode ⊢
    by_cases hcq : c = q
    · intro a _ _
      refine Or.inl ?_
      rw [htree, hwatch.base.stopped_iff c hc, hcq]
      exact hrunning
    · by_cases hparent : (s.tree.process c).parent = q
      · refine watched_of_none ?_
        rw [hparent]
        exact hpassed c
      · exact (hwatch.watched c hc hnode).congr (hothers _ hparent) (hothers c hcq)
          (by rw [htree])

theorem watch_of_waitpid (hwatch : Watch s) (hpc : (s.info q).pc = .user)
    (hq : q ∈ s.tree.processes) (a : Args) : Watch (setPc s q (.waitStart a)) := by
  refine watch_of_actor hwatch (waitpid_base hwatch.base hpc hq a) rfl
    (fun r hr => setPc_info_of_ne s _ hr) (by rw [hpc]; rfl) (fun c => ?_) ?_
  · rw [setPc_info_self]
    rfl
  · have hsleeps := (hwatch.waits q hq).sleeps
    rw [hpc] at hsleeps
    rw [setPc_info_self]
    exact ⟨fun h => Bool.noConfusion h, hsleeps⟩

theorem watch_of_wake (hwatch : Watch s) (hwake : wake s q = some s') : Watch s' := by
  have hbase := wake_base hwatch.base hwake
  obtain ⟨-, a, hpc, rfl⟩ := wake_cases hwake
  have hrunning : (s.info q).pc.stopped = false := by
    rcases hpc with hpc | hpc
    · rw [hpc]
      rfl
    · rw [hpc]
      rfl
  refine watch_of_actor hwatch hbase rfl (fun r hr => setInfo_info_of_ne s _ hr) hrunning
    (fun c => ?_) ?_
  · rw [setInfo_info_self]
    rfl
  · rw [setInfo_info_self]
    exact ⟨fun h => Bool.noConfusion h, iff_of_false (fun h => h rfl) Bool.false_ne_true⟩

theorem watch_of_exit (hwatch : Watch s) (hpc : (s.info p).pc = .user)
    (hp : p ∈ s.tree.processes) (status : CInt) :
    Watch { setPc s p (.exitMarked status) with tree := ProcessTree.markStopped s.tree p } := by
  refine ⟨exit_base hwatch.base hpc hp status, fun r hr => ?_, fun c hc hnode => ?_⟩
  · by_cases hrp : r = p
    · subst hrp
      have hsleeps := (hwatch.waits r hp).sleeps
      rw [hpc] at hsleeps
      simp only [setPc_info_self]
      exact ⟨fun h => Bool.noConfusion h, hsleeps⟩
    · simp only [setPc_info_of_ne s _ hrp]
      exact hwatch.waits r hr
  · rw [ProcessTree.markStopped_node] at hnode
    rw [ProcessTree.markStopped_parent]
    by_cases hcp : c = p
    · subst hcp
      intro a _ _
      refine Or.inr (Or.inl ?_)
      simp only [setPc_info_self]
      rfl
    · by_cases hparent : (s.tree.process c).parent = p
      · refine watched_of_none ?_
        rw [hparent]
        simp only [setPc_info_self]
        rfl
      · exact (hwatch.watched c hc hnode).congr (setPc_info_of_ne s _ hparent)
          (setPc_info_of_ne s _ hcp) (ProcessTree.isStopped_markStopped_of_ne s.tree hcp)

/-- Processes may go while records and threads stay as they are. -/
theorem watch_of_shrink (hwatch : Watch s) (hbase : Base s') (hinfo : s'.info = s.info)
    (hprocess : s'.tree.process = s.tree.process)
    (hlive : s'.tree.processes ⊆ s.tree.processes) : Watch s' := by
  refine ⟨hbase, fun r hr => ?_, fun c hc hnode => ?_⟩
  · rw [hinfo]
    exact hwatch.waits r (hlive hr)
  · rw [hprocess] at hnode ⊢
    refine (hwatch.watched c (hlive hc) hnode).congr (by rw [hinfo]) (by rw [hinfo]) ?_
    unfold isStopped
    rw [hprocess]

theorem watch_of_reaperStep (hwatch : Watch s) (hbase : Base (reaperStep s)) :
    Watch (reaperStep s) := by
  refine watch_of_shrink hwatch hbase ?_ ?_ ?_
  all_goals
    rcases reaperStep_cases s with hs' | ⟨p, rest, -, ⟨-, hs'⟩ | ⟨-, -, hs'⟩ | ⟨-, -, -, hs'⟩⟩
  · rw [hs']
  · rw [hs']
  · rw [hs']
  · rw [hs', destroy_info]
  · rw [hs']
  · rw [hs']
  · rw [hs']
  · rw [hs', destroy_process]
  · rw [hs']
  · rw [hs']
  · rw [hs']
  · rw [hs']
    exact destroy_processes_subset _ p

/-- The live processes of before are below live processes of before. -/
theorem parent_ne_of_fresh (h : ProcessTree.Good s.tree) {c : Ptr} (hc : c ∈ s.tree.processes)
    (hnode : (s.tree.process c).node ≠ 0) (hp0 : p ≠ 0) (hp : p ∉ s.tree.processes) :
    (s.tree.process c).parent ≠ p := by
  intro he
  have hlive := h.consistent.parent_live c hc hnode (by rw [he]; exact hp0)
  rw [he] at hlive
  exact hp hlive

theorem watch_of_fork (hwatch : Watch s) (hfresh : ProcessTree.Fresh s.tree p n)
    (hpc : (s.info q).pc = .user) (hq : q ∈ s.tree.processes) (pid : CInt) :
    Watch (fork s q p n pid) := by
  have hne : ∀ r ∈ s.tree.processes, r ≠ p := fun r hr => ne_of_mem_of_not_mem hr hfresh.2.1
  refine ⟨fork_base hwatch.base hfresh hpc hq pid, fun r hr => ?_, fun c hc hnode => ?_⟩
  · rw [fork_processes, Finset.mem_insert] at hr
    rcases hr with rfl | hr
    · rw [fork_info_self]
      exact ⟨fun h => Bool.noConfusion h, iff_of_false (fun h => h rfl) Bool.false_ne_true⟩
    · rw [fork_info_of_ne (hne r hr)]
      exact hwatch.waits r hr
  · rw [fork_processes, Finset.mem_insert] at hc
    rcases hc with rfl | hc
    · have hparent : ((fork s q c n pid).tree.process c).parent = q :=
        (ProcessTree.processCreateStructure_process_self _ _ _ _ _).1
      refine watched_of_none ?_
      rw [hparent, fork_info_of_ne (hne q hq), hpc]
      rfl
    · rw [fork_process_of_ne (hne c hc)] at hnode ⊢
      have hparent := parent_ne_of_fresh hwatch.base.good hc hnode hfresh.1 hfresh.2.1
      refine (hwatch.watched c hc hnode).congr (fork_info_of_ne hparent)
        (fork_info_of_ne (hne c hc)) ?_
      unfold isStopped
      rw [fork_process_of_ne (hne c hc)]

theorem watch_of_reuse (hwatch : Watch s) (hp : p ∉ s.tree.processes)
    (process : ProcessTree.Process) (info : Info) :
    Watch { setInfo s p { info with sleep := (s.info p).sleep, pc := (s.info p).pc } with
      tree := ProcessTree.setProcess s.tree p process } := by
  have hne : ∀ r ∈ s.tree.processes, r ≠ p := fun r hr => ne_of_mem_of_not_mem hr hp
  have hold : ∀ r ∈ s.tree.processes,
      (ProcessTree.setProcess s.tree p process).process r = s.tree.process r := fun r hr =>
    Function.update_of_ne (hne r hr) _ _
  refine ⟨reuse_base hwatch.base hp process info, fun r hr => ?_, fun c hc hnode => ?_⟩
  · simp only [setInfo_info_of_ne s _ (hne r hr)]
    exact hwatch.waits r hr
  · rw [hold c hc] at hnode ⊢
    by_cases hparent : (s.tree.process c).parent = p
    · refine watched_of_none ?_
      rw [hparent]
      simp only [setInfo_info_self]
      rw [hwatch.base.dead p hp]
      rfl
    · refine (hwatch.watched c hc hnode).congr (setInfo_info_of_ne s _ hparent)
        (setInfo_info_of_ne s _ (hne c hc)) ?_
      unfold isStopped
      rw [hold c hc]

theorem Watch.step (hwatch : Watch s) (hstep : Step Allowed s s') : Watch s' := by
  obtain ⟨event, ⟨horderly, hheard⟩, hrun⟩ := hstep
  have hbase := event.base hwatch.base horderly hrun
  cases event with
  | fork q p n pid =>
    simp only [Event.run] at hrun
    split_ifs at hrun with hcond
    obtain rfl := Option.some.inj hrun
    exact watch_of_fork hwatch hcond.2.2.1 hcond.1 hcond.2.1 pid
  | waitpid q a =>
    simp only [Event.run] at hrun
    split_ifs at hrun with hcond
    obtain rfl := Option.some.inj hrun
    exact watch_of_waitpid hwatch hcond.1 hcond.2 a
  | wait q id => exact watch_of_waitMove (waitStep_move hrun) hwatch horderly
  | wake q => exact watch_of_wake hwatch hrun
  | exit p status =>
    simp only [Event.run] at hrun
    split_ifs at hrun with hcond
    obtain rfl := Option.some.inj hrun
    exact watch_of_exit hwatch hcond.1 hcond.2 status
  | exitNext p => exact watch_of_exitMove (exitStep_move hrun) hwatch hheard
  | reap =>
    simp only [Event.run] at hrun
    split_ifs at hrun with hcond
    obtain rfl := Option.some.inj hrun
    exact watch_of_shrink hwatch hbase rfl rfl (Finset.Subset.refl _)
  | reapNext =>
    simp only [Event.run] at hrun
    split_ifs at hrun with hlock
    obtain rfl := Option.some.inj hrun
    exact watch_of_reaperStep hwatch hbase
  | reuse p process info =>
    simp only [Event.run] at hrun
    split_ifs at hrun with hp
    obtain rfl := Option.some.inj hrun
    exact watch_of_reuse hwatch hp process info

theorem watch_of_quiet (h : Quiet s) : Watch s := by
  refine ⟨h.base, fun q hq => ?_, fun c hc hnode => watched_of_none ?_⟩
  · obtain ⟨-, hpc, -, hsleep, -⟩ := h.running q hq
    refine ⟨fun hinside => ?_, ?_⟩
    · rw [hpc] at hinside
      exact Bool.noConfusion hinside
    · rw [hpc, hsleep]
      exact iff_of_false (fun h => h rfl) Bool.false_ne_true
  · by_cases hparent : (s.tree.process c).parent ∈ s.tree.processes
    · rw [(h.running _ hparent).2.1]
      rfl
    · rw [(h.freed _ hparent).1]
      rfl

theorem watch_of_run (hwatch : Watch s) (hrun : Relation.ReflTransGen (Step Allowed) s s') :
    Watch s' := by
  induction hrun with
  | refl => exact hwatch
  | tail _ hlast ih => exact ih.step hlast

/-- No wake-up is lost while the calls that come are heard. -/
theorem no_lostWakeup_of_heard (h₀ : Quiet s₀) (hrun : Relation.ReflTransGen (Step Allowed) s₀ s)
    (hq : q ∈ s.tree.processes) (c : Ptr) : ¬ LostWakeup s q c := by
  have hwatch := watch_of_run (watch_of_quiet h₀) hrun
  rintro ⟨a, hpc, hsleep, hchild, haccepts, hstopped, hdone, -⟩
  have hnode := (hwatch.base.scanning q hq).1 (by rw [hpc]; rfl)
  obtain ⟨hbelow, hcnode⟩ := child_of_mem_childrenOf hwatch.base.good hq hnode hchild
  have hwatched := hwatch.watched c hbelow.1 hcnode
  rw [hbelow.2] at hwatched
  rcases hwatched a (by rw [hpc]; rfl) haccepts with hrunning | hcalling | hwakeup
  · rw [hstopped] at hrunning
    exact Bool.noConfusion hrunning
  · rw [hdone] at hcalling
    exact Bool.noConfusion hcalling
  · rw [hsleep] at hwakeup
    exact Scheduler.SleepState.noConfusion (Option.some.inj hwakeup)

end Events

section Family

def heardCheck (s : State) (event : Event) : Bool :=
  (event.destroys s).isNone &&
    match event with
    | .exitNext c => !deaf (s.info (s.tree.process c).parent).pc c
    | _ => true

theorem allowed_of_heardCheck (s : State) (event : Event) (h : heardCheck s event = true) :
    Allowed s event := by
  unfold heardCheck at h
  rw [Bool.and_eq_true] at h
  refine ⟨fun p hp => ?_, ?_⟩
  · rw [hp] at h
    exact Bool.noConfusion h.1
  · cases event with
    | exitNext c => exact fun _ _ => by simpa using h.2
    | _ => trivial

/-- `waitpid(-1)` up to the end of its scan, which finds the child running. -/
def scanNothing : List Event := [.waitpid 1 ⟨-1, 0⟩, .wait 1 7, .wait 1 0, .wait 1 0, .wait 1 0]

def goToSleep : List Event := [.wait 1 0, .wait 1 0]

def exitAll : List Event :=
  [.exit 2 0, .exitNext 2, .exitNext 2, .exitNext 2, .exitNext 2]

/-- The child exits while its parent sleeps and wakes it. -/
theorem no_lostWakeup_of_heard_exit :
    ∃ s, Relation.ReflTransGen (Step Allowed) family s ∧
      (s.info 1).pc = .asleep ⟨-1, 0⟩ ∧ (s.info 2).pc = .gone ∧ (s.info 1).sleep = some .wakeup ∧
      ¬ LostWakeup s 1 2 := by
  have hfacts : ((runEvents heardCheck family (scanNothing ++ goToSleep ++ exitAll)).map fun s =>
      decide ((s.info 1).pc = .asleep ⟨-1, 0⟩ ∧ (s.info 2).pc = .gone ∧
        (s.info 1).sleep = some .wakeup ∧ 1 ∈ s.tree.processes)) = some true := by decide +kernel
  obtain ⟨s, hs, hfact⟩ := Option.map_eq_some_iff.mp hfacts
  obtain ⟨hpc, hgone, hsleep, hlive⟩ := of_decide_eq_true hfact
  have hrun := run_of_runEvents allowed_of_heardCheck hs
  exact ⟨s, hrun, hpc, hgone, hsleep, no_lostWakeup_of_heard family_quiet hrun hlive 2⟩

/-- The child exits between the scan and `sleep_untilNever`, and the parent sleeps for ever. -/
theorem exit_before_sleep_is_lost :
    ∃ s, Relation.ReflTransGen (Step fun _ _ => True) family s ∧ 1 ∈ s.tree.processes ∧
      (s.info 2).pc = .gone ∧ LostWakeup s 1 2 := by
  have hfacts : ((runEvents (fun _ _ => true) family (scanNothing ++ exitAll ++ goToSleep)).map
      fun s => decide ((s.info 1).pc = .asleep ⟨-1, 0⟩ ∧ (s.info 2).pc = .gone ∧
        (s.info 1).sleep = some .nocond ∧ 1 ∈ s.tree.processes ∧ 2 ∈ childrenOf s 1 ∧
        accepts s 1 (-1) 2 = true ∧ isStopped s.tree 2 = true)) = some true := by decide +kernel
  obtain ⟨s, hs, hfact⟩ := Option.map_eq_some_iff.mp hfacts
  obtain ⟨hpc, hgone, hsleep, hlive, hchild, haccepts, hstopped⟩ := of_decide_eq_true hfact
  have hrun : Relation.ReflTransGen (Step fun _ _ => True) family s :=
    run_of_runEvents (fun _ _ _ => trivial) hs
  refine ⟨s, hrun, hlive, hgone, ⟨-1, 0⟩, hpc, hsleep, hchild, haccepts, hstopped, ?_, ?_⟩
  · rw [hgone]
    rfl
  · rw [hgone]
    exact Pc.noConfusion

end Family

end ReduceOS.WakeUps
