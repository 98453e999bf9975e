import ReduceOS.Lifecycle

/-!
What `process_waitpid` reports. The call goes into the queue of its process on every turn of its
loop and comes out once; a child that is still in use is returned but not destroyed, and is found
again; and the PID is read from the child after it has been destroyed. Where none of this
happens each child is reported once.
-/
namespace ReduceOS.WaitReports

open Machine Lifecycle
open ProcessTree (Ptr isStopped)

/-- Each PID is returned once, it is that of the child whose status was stored, and a thread is in
the queue of its process exactly while it is in the call. -/
structure ReportedOnce (s : State) : Prop where
  once : (s.reports.map Report.returned).Nodup
  right : ∀ r ∈ s.reports, r.returned = r.retPid
  queue : ∀ q ∈ s.tree.processes,
    (s.info q).waitpidQueue.length = if (s.info q).pc.inside then 1 else 0

/-- The child that is taken is not in use, nobody gets its memory before the call returns, and no
thread goes round the loop again. -/
def Plain (s : State) : Event → Prop
  | .wait q _ => ∀ child retPid wstatus, (s.info q).pc = .waitTaken child retPid wstatus →
      processInUse s child = false
  | .wake _ => False
  | .fork _ p _ _ => ∀ q, pointsTo (s.info q).pc ≠ some p
  | .reuse p _ _ => ∀ q, pointsTo (s.info q).pc ≠ some p
  | _ => True

def Allowed (s : State) (event : Event) : Prop := event.Orderly s ∧ Plain s event

def told : Pc → Option (Ptr × CInt)
  | .waitLeave (.child child retPid _) => some (child, retPid)
  | .waitReturn (.child child retPid _) => some (child, retPid)
  | _ => none

/-- A child that is gone, with its PID in its memory still and not reported yet. -/
structure Settled (s : State) (c : Ptr) (pid : CInt) : Prop where
  pid_eq : (s.info c).pid = pid
  mem : pid ∈ s.pids
  dead : c ∉ s.tree.processes
  absent : ∀ p ∈ s.tree.processes, (s.info p).pid ≠ pid
  unreported : pid ∉ s.reports.map Report.returned

structure Kept (s : State) : Prop where
  base : Base s
  queue : ∀ q ∈ s.tree.processes,
    (s.info q).waitpidQueue.length = if (s.info q).pc.inside then 1 else 0
  pids : ∀ p ∈ s.tree.processes, (s.info p).pid ∈ s.pids
  distinct : ∀ p ∈ s.tree.processes, ∀ q ∈ s.tree.processes,
    (s.info p).pid = (s.info q).pid → p = q
  taken : ∀ q child retPid wstatus, (s.info q).pc = .waitTaken child retPid wstatus →
    (s.info child).pid = retPid
  settled : ∀ q c pid, told (s.info q).pc = some (c, pid) → Settled s c pid
  apart : ∀ q r c d pid, q ≠ r → told (s.info q).pc = some (c, pid) →
    told (s.info r).pc ≠ some (d, pid)
  right : ∀ r ∈ s.reports, r.returned = r.retPid
  reported : ∀ r ∈ s.reports, r.returned ∈ s.pids ∧
    ∀ p ∈ s.tree.processes, (s.info p).pid ≠ r.returned
  once : (s.reports.map Report.returned).Nodup

section Steps

variable {s s' : State} {p q n : Ptr} {id : ℕ} {pid : CInt}

theorem Kept.reportedOnce (h : Kept s) : ReportedOnce s := ⟨h.once, h.right, h.queue⟩

/-- An event that destroys nothing, reports nothing and takes no child. -/
theorem Kept.of_pcs (h : Kept s) (hbase : Base s')
    (hlive : s'.tree.processes ⊆ s.tree.processes)
    (hqueue : ∀ r ∈ s'.tree.processes,
      (s'.info r).waitpidQueue.length = if (s'.info r).pc.inside then 1 else 0)
    (hpid : ∀ r, (s'.info r).pid = (s.info r).pid) (hpids : s'.pids = s.pids)
    (hreports : s'.reports = s.reports)
    (htaken : ∀ r child retPid wstatus, (s'.info r).pc = .waitTaken child retPid wstatus →
      (s.info child).pid = retPid)
    (htold : ∀ r, told (s'.info r).pc = told (s.info r).pc) : Kept s' := by
  refine ⟨hbase, hqueue, ?_, ?_, ?_, ?_, ?_, ?_, ?_, ?_⟩
  · intro p hp
    rw [hpid, hpids]
    exact h.pids p (hlive hp)
  · intro p hp q hq
    rw [hpid, hpid]
    exact h.distinct p (hlive hp) q (hlive hq)
  · intro q child retPid wstatus hpc
    rw [hpid]
    exact htaken q child retPid wstatus hpc
  · intro q c pid hq
    rw [htold] at hq
    obtain ⟨hpid', hmem, hdead, habsent, hnot⟩ := h.settled q c pid hq
    refine ⟨by rw [hpid]; exact hpid', by rw [hpids]; exact hmem,
      fun hc => hdead (hlive hc), ?_, ?_⟩
    · intro p hp
      rw [hpid]
      exact habsent p (hlive hp)
    · rw [hreports]
      exact hnot
  · intro q r c d pid hne
    rw [htold, htold]
    exact h.apart q r c d pid hne
  · rw [hreports]
    exact h.right
  · rw [hreports, hpids]
    intro r hr
    refine ⟨(h.reported r hr).1, fun p hp => ?_⟩
    rw [hpid]
    exact (h.reported r hr).2 p (hlive hp)
  · rw [hreports]
    exact h.once

/-- A running process enters a call or begins to exit. -/
theorem Kept.of_start (h : Kept s) (hbase : Base s')
    (hlive : s'.tree.processes = s.tree.processes) (hpc : (s.info q).pc = .user)
    (hothers : ∀ r, r ≠ q → s'.info r = s.info r) {pc : Pc}
    (hself : s'.info q = { s.info q with pc := pc }) (hpids : s'.pids = s.pids)
    (hreports : s'.reports = s.reports) (htold : pc.inside = false ∧ told pc = none)
    (htaken : ∀ child retPid wstatus, pc ≠ .waitTaken child retPid wstatus) : Kept s' := by
  refine h.of_pcs hbase (by rw [hlive]) (fun r hr => ?_) (fun r => ?_) hpids hreports
    (fun r child retPid wstatus hr => ?_) fun r => ?_
  · rw [hlive] at hr
    have hqueue := h.queue r hr
    by_cases hrq : r = q
    · subst hrq
      rw [hpc] at hqueue
      rw [hself]
      simp only [htold.1]
      exact hqueue
    · rw [hothers r hrq]
      exact hqueue
  · by_cases hrq : r = q
    · rw [hrq, hself]
    · rw [hothers r hrq]
  · by_cases hrq : r = q
    · rw [hrq, hself] at hr
      exact absurd hr (htaken child retPid wstatus)
    · rw [hothers r hrq] at hr
      exact h.taken r child retPid wstatus hr
  · by_cases hrq : r = q
    · rw [hrq, hself, hpc]
      exact htold.2
    · rw [hothers r hrq]

theorem queue_of_waitMove (h : WaitMove s q id s')
    (hqueue : (s.info q).waitpidQueue.length = if (s.info q).pc.inside then 1 else 0) :
    (s'.info q).waitpidQueue.length = if (s'.info q).pc.inside then 1 else 0 := by
  cases h with
  | enqueue hpc hnode =>
    rw [hpc] at hqueue
    rw [setInfo_info_self, List.length_append, hqueue]
    rfl
  | leave hpc =>
    rw [hpc] at hqueue
    unfold leaveQueue
    rw [setInfo_info_self, List.length_tail, hqueue]
    rfl
  | _ =>
    rename (s.info q).pc = _ => hpc
    rw [hpc] at hqueue
    simp only [setPc, setInfo, destroy_info, Function.update_self]
    exact hqueue

/-- A live child is destroyed and its PID is on its way to the caller. -/
theorem Kept.of_destroyed (hk : Kept s) (hbase : Base s') {child : Ptr}
    (hchild : child ∈ s.tree.processes) (hlive : s'.tree.processes = s.tree.processes.erase child)
    (hqueue : ∀ r ∈ s'.tree.processes,
      (s'.info r).waitpidQueue.length = if (s'.info r).pc.inside then 1 else 0)
    (hpid : ∀ r, (s'.info r).pid = (s.info r).pid) (hpids : s'.pids = s.pids)
    (hreports : s'.reports = s.reports)
    (htaken : ∀ r child retPid wstatus, (s'.info r).pc = .waitTaken child retPid wstatus →
      (s.info child).pid = retPid)
    (hself : told (s'.info q).pc = some (child, (s.info child).pid))
    (hothers : ∀ r, r ≠ q → told (s'.info r).pc = told (s.info r).pc) : Kept s' := by
  have hsub : ∀ p ∈ s'.tree.processes, p ≠ child ∧ p ∈ s.tree.processes := by
    intro p hp
    rw [hlive] at hp
    exact Finset.mem_erase.mp hp
  have hfresh : ∀ r c, told (s.info r).pc ≠ some (c, (s.info child).pid) := fun r c hr =>
    (hk.settled r c _ hr).absent child hchild rfl
  refine ⟨hbase, hqueue, ?_, ?_, ?_, ?_, ?_, ?_, ?_, ?_⟩
  · intro p hp
    rw [hpid, hpids]
    exact hk.pids p (hsub p hp).2
  · intro p hp r hr
    rw [hpid, hpid]
    exact hk.distinct p (hsub p hp).2 r (hsub r hr).2
  · intro r c retPid wstatus hr
    rw [hpid]
    exact htaken r c retPid wstatus hr
  · intro r c pid hr
    by_cases hrq : r = q
    · rw [hrq, hself] at hr
      obtain ⟨rfl, rfl⟩ := Prod.mk.inj (Option.some.inj hr)
      refine ⟨hpid child, by rw [hpids]; exact hk.pids child hchild, ?_, ?_, ?_⟩
      · rw [hlive]
        exact Finset.notMem_erase child _
      · intro p hp hsame
        rw [hpid] at hsame
        exact (hsub p hp).1 (hk.distinct p (hsub p hp).2 child hchild hsame)
      · rw [hreports]
        intro hmem
        obtain ⟨rep, hrep, hreturned⟩ := List.mem_map.mp hmem
        exact (hk.reported rep hrep).2 child hchild hreturned.symm
    · rw [hothers r hrq] at hr
      obtain ⟨hpid', hmem, hdead, habsent, hnot⟩ := hk.settled r c pid hr
      refine ⟨by rw [hpid]; exact hpid', by rw [hpids]; exact hmem, ?_, ?_,
        by rw [hreports]; exact hnot⟩
      · exact fun hc => hdead (hsub c hc).2
      · intro p hp
        rw [hpid]
        exact habsent p (hsub p hp).2
  · intro r r' c d pid hne hr hr'
    by_cases hrq : r = q
    · have hrq' : r' ≠ q := fun he => hne (hrq.trans he.symm)
      rw [hrq, hself] at hr
      obtain ⟨rfl, rfl⟩ := Prod.mk.inj (Option.some.inj hr)
      rw [hothers r' hrq'] at hr'
      exact hfresh r' d hr'
    · rw [hothers r hrq] at hr
      by_cases hrq' : r' = q
      · rw [hrq', hself] at hr'
        obtain ⟨rfl, rfl⟩ := Prod.mk.inj (Option.some.inj hr')
        exact hfresh r c hr
      · rw [hothers r' hrq'] at hr'
        exact hk.apart r r' c d pid hne hr hr'
  · rw [hreports]
    exact hk.right
  · rw [hreports, hpids]
    intro r hr
    refine ⟨(hk.reported r hr).1, fun p hp => ?_⟩
    rw [hpid]
    exact (hk.reported r hr).2 p (hsub p hp).2
  · rw [hreports]
    exact hk.once

/-- A call returns the PID of the child it destroyed. -/
theorem Kept.of_reported (hk : Kept s) (hbase : Base s') {child : Ptr} {report : Report}
    (hlive : s'.tree.processes = s.tree.processes)
    (hqueue : ∀ r ∈ s'.tree.processes,
      (s'.info r).waitpidQueue.length = if (s'.info r).pc.inside then 1 else 0)
    (hpid : ∀ r, (s'.info r).pid = (s.info r).pid) (hpids : s'.pids = s.pids)
    (hreports : s'.reports = s.reports ++ [report])
    (htaken : ∀ r child retPid wstatus, (s'.info r).pc = .waitTaken child retPid wstatus →
      (s.info child).pid = retPid)
    (hbefore : told (s.info q).pc = some (child, report.retPid))
    (hreturned : report.returned = (s.info child).pid) (hself : told (s'.info q).pc = none)
    (hothers : ∀ r, r ≠ q → told (s'.info r).pc = told (s.info r).pc) : Kept s' := by
  obtain ⟨hretPid, hmem, -, habsent, hnot⟩ := hk.settled q child report.retPid hbefore
  rw [hretPid] at hreturned
  have hold : ∀ r c pid, told (s'.info r).pc = some (c, pid) →
      r ≠ q ∧ told (s.info r).pc = some (c, pid) := by
    intro r c pid hr
    have hrq : r ≠ q := by
      rintro rfl
      rw [hself] at hr
      contradiction
    rw [hothers r hrq] at hr
    exact ⟨hrq, hr⟩
  refine ⟨hbase, hqueue, ?_, ?_, ?_, ?_, ?_, ?_, ?_, ?_⟩
  · intro p hp
    rw [hlive] at hp
    rw [hpid, hpids]
    exact hk.pids p hp
  · intro p hp r hr
    rw [hlive] at hp hr
    rw [hpid, hpid]
    exact hk.distinct p hp r hr
  · intro r c retPid wstatus hr
    rw [hpid]
    exact htaken r c retPid wstatus hr
  · intro r c pid hr
    obtain ⟨hrq, hr⟩ := hold r c pid hr
    obtain ⟨hpid', hmem', hdead', habsent', hnot'⟩ := hk.settled r c pid hr
    refine ⟨by rw [hpid]; exact hpid', by rw [hpids]; exact hmem',
      by rw [hlive]; exact hdead', ?_, ?_⟩
    · intro p hp
      rw [hlive] at hp
      rw [hpid]
      exact habsent' p hp
    · rw [hreports, List.map_append, List.mem_append, not_or]
      refine ⟨hnot', fun hlast => ?_⟩
      have hsame : pid = report.retPid := (List.mem_singleton.mp hlast).trans hreturned
      rw [hsame] at hr
      exact hk.apart r q c child _ hrq hr hbefore
  · intro r r' c d pid hne hr hr'
    exact hk.apart r r' c d pid hne (hold r c pid hr).2 (hold r' d pid hr').2
  · rw [hreports]
    intro r hr
    rcases List.mem_append.mp hr with hr | hr
    · exact hk.right r hr
    · rw [List.mem_singleton.mp hr]
      exact hreturned
  · rw [hreports, hpids, hlive]
    intro r hr
    rcases List.mem_append.mp hr with hr | hr
    · refine ⟨(hk.reported r hr).1, fun p hp => ?_⟩
      rw [hpid]
      exact (hk.reported r hr).2 p hp
    · rw [List.mem_singleton.mp hr, hreturned]
      refine ⟨hmem, fun p hp => ?_⟩
      rw [hpid]
      exact habsent p hp
  · rw [hreports, List.map_append]
    refine hk.once.append (List.nodup_singleton _) (List.disjoint_singleton.mpr ?_)
    rw [hreturned]
    exact hnot

theorem kept_of_waitMove (h : WaitMove s q id s') (hk : Kept s)
    (horderly : (Event.wait q id).Orderly s) (hplain : Plain s (.wait q id)) : Kept s' := by
  have hbase := h.base hk.base horderly
  have hq := h.live hk.base
  have hqueue : ∀ r ∈ s.tree.processes,
      (s'.info r).waitpidQueue.length = if (s'.info r).pc.inside then 1 else 0 := by
    intro r hr
    by_cases hrq : r = q
    · rw [hrq]
      exact queue_of_waitMove h (hk.queue q hq)
    · rw [h.others hrq]
      exact hk.queue r hr
  have hpid : ∀ r, (s'.info r).pid = (s.info r).pid := fun r => (h.ids r).2
  have hothers : ∀ r, r ≠ q → s'.info r = s.info r := fun r hr => h.others hr
  have htold : told (s'.info q).pc = told (s.info q).pc →
      ∀ r, told (s'.info r).pc = told (s.info r).pc := by
    intro hself r
    by_cases hrq : r = q
    · rw [hrq]
      exact hself
    · rw [hothers r hrq]
  have htaken : (∀ child retPid wstatus, (s'.info q).pc = .waitTaken child retPid wstatus →
        (s.info child).pid = retPid) →
      ∀ r child retPid wstatus, (s'.info r).pc = .waitTaken child retPid wstatus →
        (s.info child).pid = retPid := by
    intro hself r child retPid wstatus hr
    by_cases hrq : r = q
    · rw [hrq] at hr
      exact hself child retPid wstatus hr
    · rw [hothers r hrq] at hr
      exact hk.taken r child retPid wstatus hr
  cases h with
  | @destroy child retPid wstatus hpc huse =>
    obtain ⟨-, hscan⟩ := hk.base.scanning q hq
    rw [hpc] at hscan
    obtain ⟨-, hchild, hstopped⟩ := hscan
    have hc0 : child ≠ 0 := fun h0 => hk.base.good.process_ne (h0 ▸ hchild.1)
    have hlive : (destroy s child).tree.processes = s.tree.processes.erase child := by
      rw [destroy_tree hc0 hstopped, ProcessTree.processDestroy_processes hc0 hstopped]
    refine hk.of_destroyed (q := q) hbase hchild.1 hlive (fun r hr => hqueue r ?_) hpid
      (destroy_pids s child) (destroy_reports s child)
      (htaken fun child retPid wstatus hr => ?_) ?_ fun r hr => congrArg (told ·.pc) (hothers r hr)
    · exact destroy_processes_subset s child hr
    · simp only [setPc_info_self] at hr
      exact Pc.noConfusion hr
    · simp only [setPc_info_self]
      rw [hk.taken q child retPid wstatus hpc]
      rfl
  | keep hpc huse =>
    rw [hplain _ _ _ hpc] at huse
    exact Bool.noConfusion huse
  | @returnChild child retPid wstatus hpc =>
    refine hk.of_reported (q := q) hbase rfl hqueue hpid rfl rfl
      (htaken fun child retPid wstatus hr => ?_) (by rw [hpc]; rfl) rfl ?_
      fun r hr => congrArg (told ·.pc) (hothers r hr)
    · simp only [setPc_info_self] at hr
      exact Pc.noConfusion hr
    · simp only [setPc_info_self]
      rfl
  | take hpc haccepts hstopped =>
    refine hk.of_pcs hbase (Finset.Subset.refl _) hqueue hpid rfl rfl
      (htaken fun child retPid wstatus hr => ?_) (htold ?_)
    · rw [setPc_info_self] at hr
      cases hr
      rfl
    · rw [setPc_info_self, hpc]
      rfl
  | @leave r hpc =>
    refine hk.of_pcs hbase (Finset.Subset.refl _) hqueue hpid rfl rfl
      (htaken fun child retPid wstatus hr => ?_) (htold ?_)
    · unfold leaveQueue at hr
      rw [setInfo_info_self] at hr
      exact Pc.noConfusion hr
    · unfold leaveQueue
      rw [setInfo_info_self, hpc]
      cases r <;> rfl
  | _ =>
    rename (s.info q).pc = _ => hpc
    refine hk.of_pcs hbase (Finset.Subset.refl _) hqueue hpid rfl rfl
      (htaken fun child retPid wstatus hr => ?_) (htold ?_)
    · simp only [setPc, setInfo, Function.update_self] at hr
      exact Pc.noConfusion hr
    · simp only [setPc, setInfo, Function.update_self]
      rw [hpc]
      rfl

theorem told_of_stopped {pc : Pc} (h : pc.stopped = true) : told pc = none := by
  cases pc <;> first | rfl | exact Bool.noConfusion h

theorem not_taken_of_stopped {pc : Pc} (h : pc.stopped = true) {child : Ptr}
    {retPid wstatus : CInt} : pc ≠ .waitTaken child retPid wstatus := by
  rintro rfl
  exact Bool.noConfusion h

theorem kept_of_exitMove (h : ExitMove s p s') (hk : Kept s) : Kept s' := by
  have hp := h.live hk.base
  obtain ⟨hbefore, hafter⟩ := h.stopped
  have hreports : s'.reports = s.reports := by
    cases h with
    | walk hpc => exact wakeup_reports s _
    | _ => rfl
  have hpids : s'.pids = s.pids := by
    cases h with
    | walk hpc => exact wakeup_pids s _
    | _ => rfl
  refine hk.of_pcs (h.base hk.base) (by rw [h.tree_eq]) (fun r hr => ?_) (fun r => (h.fields r).2.1)
    hpids hreports (fun r child retPid wstatus hr => ?_) fun r => ?_
  · rw [h.tree_eq] at hr
    have hold := hk.queue r hr
    by_cases hrp : r = p
    · subst hrp
      rw [Pc.not_inside hafter]
      rw [Pc.not_inside (Pc.stopped_of_exiting hbefore)] at hold
      rw [(h.fields r).2.2]
      exact hold
    · rw [h.others_pc hrp, (h.fields r).2.2]
      exact hold
  · by_cases hrp : r = p
    · rw [hrp] at hr
      exact absurd hr (not_taken_of_stopped hafter)
    · rw [h.others_pc hrp] at hr
      exact hk.taken r child retPid wstatus hr
  · by_cases hrp : r = p
    · rw [hrp, told_of_stopped hafter, told_of_stopped (Pc.stopped_of_exiting hbefore)]
    · rw [h.others_pc hrp]

theorem kept_of_reaperStep (hk : Kept s) (hbase : Base (reaperStep s)) : Kept (reaperStep s) := by
  have hinfo : (reaperStep s).info = s.info := by
    rcases reaperStep_cases s with hs' | ⟨p, rest, -, ⟨-, hs'⟩ | ⟨-, -, hs'⟩ | ⟨-, -, -, hs'⟩⟩
    · rw [hs']
    · rw [hs']
    · rw [hs']
    · rw [hs', destroy_info]
  have hlive : (reaperStep s).tree.processes ⊆ s.tree.processes := by
    rcases reaperStep_cases s with hs' | ⟨p, rest, -, ⟨-, hs'⟩ | ⟨-, -, hs'⟩ | ⟨-, -, -, hs'⟩⟩
    · rw [hs']
    · rw [hs']
    · rw [hs']
    · rw [hs']
      exact destroy_processes_subset _ p
  have hlogs : (reaperStep s).pids = s.pids ∧ (reaperStep s).reports = s.reports := by
    rcases reaperStep_cases s with hs' | ⟨p, rest, -, ⟨-, hs'⟩ | ⟨-, -, hs'⟩ | ⟨-, -, -, hs'⟩⟩
    · rw [hs']
      exact ⟨rfl, rfl⟩
    · rw [hs']
      exact ⟨rfl, rfl⟩
    · rw [hs']
      exact ⟨rfl, rfl⟩
    · rw [hs', destroy_pids, destroy_reports]
      exact ⟨rfl, rfl⟩
  refine hk.of_pcs hbase hlive (fun r hr => ?_) (fun r => by rw [hinfo]) hlogs.1 hlogs.2
    (fun r child retPid wstatus hr => ?_) fun r => by rw [hinfo]
  · rw [hinfo]
    exact hk.queue r (hlive hr)
  · rw [hinfo] at hr
    exact hk.taken r child retPid wstatus hr

/-- A child that is about to be reported has memory of its own. -/
theorem pointsTo_of_told {pc : Pc} {c : Ptr} (h : told pc = some (c, pid)) :
    pointsTo pc = some c := by
  cases pc with
  | waitLeave r =>
    cases r with
    | value ret => contradiction
    | child child retPid wstatus =>
      obtain ⟨rfl, -⟩ := Prod.mk.inj (Option.some.inj h)
      rfl
  | waitReturn r =>
    cases r with
    | value ret => contradiction
    | child child retPid wstatus =>
      obtain ⟨rfl, -⟩ := Prod.mk.inj (Option.some.inj h)
      rfl
  | _ => contradiction

theorem kept_of_fork (hk : Kept s) (hfresh : ProcessTree.Fresh s.tree p n) (hpid : pid ∉ s.pids)
    (hplain : ∀ q, pointsTo (s.info q).pc ≠ some p) (hbase : Base (fork s q p n pid)) :
    Kept (fork s q p n pid) := by
  have hne : ∀ r ∈ s.tree.processes, r ≠ p := fun r hr => ne_of_mem_of_not_mem hr hfresh.2.1
  have hpids : (fork s q p n pid).pids = s.pids ++ [pid] := rfl
  have hreports : (fork s q p n pid).reports = s.reports := rfl
  have hnew : ∀ pid' ∈ s.pids, ((fork s q p n pid).info p).pid ≠ pid' := by
    rintro pid' hmem rfl
    rw [fork_info_self] at hmem
    exact hpid hmem
  have htold : ∀ r c pid', told ((fork s q p n pid).info r).pc = some (c, pid') →
      r ≠ p ∧ told (s.info r).pc = some (c, pid') := by
    intro r c pid' hr
    have hrp : r ≠ p := by
      rintro rfl
      rw [fork_info_self] at hr
      contradiction
    rw [fork_info_of_ne hrp] at hr
    exact ⟨hrp, hr⟩
  refine ⟨hbase, ?_, ?_, ?_, ?_, ?_, ?_, hk.right, ?_, hk.once⟩
  · intro r hr
    rw [fork_processes, Finset.mem_insert] at hr
    rcases hr with rfl | hr
    · rw [fork_info_self]
      rfl
    · rw [fork_info_of_ne (hne r hr)]
      exact hk.queue r hr
  · intro r hr
    rw [fork_processes, Finset.mem_insert] at hr
    rw [hpids]
    rcases hr with rfl | hr
    · rw [fork_info_self]
      exact List.mem_append_right _ (List.mem_singleton_self _)
    · rw [fork_info_of_ne (hne r hr)]
      exact List.mem_append_left _ (hk.pids r hr)
  · intro r hr r' hr' hsame
    rw [fork_processes, Finset.mem_insert] at hr hr'
    rcases hr with rfl | hr <;> rcases hr' with rfl | hr'
    · rfl
    · rw [fork_info_of_ne (hne r' hr')] at hsame
      exact absurd hsame (hnew _ (hk.pids r' hr'))
    · rw [fork_info_of_ne (hne r hr)] at hsame
      exact absurd hsame.symm (hnew _ (hk.pids r hr))
    · rw [fork_info_of_ne (hne r hr), fork_info_of_ne (hne r' hr')] at hsame
      exact hk.distinct r hr r' hr' hsame
  · intro r child retPid wstatus hr
    have hrp : r ≠ p := by
      rintro rfl
      rw [fork_info_self] at hr
      exact Pc.noConfusion hr
    rw [fork_info_of_ne hrp] at hr
    have hcp : child ≠ p := by
      rintro rfl
      exact hplain r (by rw [hr]; rfl)
    rw [fork_info_of_ne hcp]
    exact hk.taken r child retPid wstatus hr
  · intro r c pid' hr
    have hbefore := (htold r c pid' hr).2
    obtain ⟨hpid', hmem, hdead, habsent, hnot⟩ := hk.settled r c pid' hbefore
    have hcp : c ≠ p := by
      rintro rfl
      exact hplain r (pointsTo_of_told hbefore)
    refine ⟨by rw [fork_info_of_ne hcp]; exact hpid', List.mem_append_left _ hmem, ?_, ?_, hnot⟩
    · rw [fork_processes, Finset.mem_insert, not_or]
      exact ⟨hcp, hdead⟩
    · intro r' hr'
      rw [fork_processes, Finset.mem_insert] at hr'
      rcases hr' with rfl | hr'
      · exact hnew pid' hmem
      · rw [fork_info_of_ne (hne r' hr')]
        exact habsent r' hr'
  · intro r r' c d pid' hne' hr hr'
    exact hk.apart r r' c d pid' hne' (htold r c pid' hr).2 (htold r' d pid' hr').2
  · intro r hr
    obtain ⟨hmem, habsent⟩ := hk.reported r hr
    refine ⟨List.mem_append_left _ hmem, fun r' hr' => ?_⟩
    rw [fork_processes, Finset.mem_insert] at hr'
    rcases hr' with rfl | hr'
    · exact hnew _ hmem
    · rw [fork_info_of_ne (hne r' hr')]
      exact habsent r' hr'

/-- Freed memory that no call points to may be overwritten. -/
theorem kept_of_reuse (hk : Kept s) (hp : p ∉ s.tree.processes)
    (hplain : ∀ q, pointsTo (s.info q).pc ≠ some p) (hbase : Base s')
    (hlive : s'.tree.processes = s.tree.processes)
    (hinfo : ∀ r, r ≠ p → s'.info r = s.info r) (hpc : (s'.info p).pc = (s.info p).pc)
    (hpids : s'.pids = s.pids) (hreports : s'.reports = s.reports) : Kept s' := by
  have hne : ∀ r ∈ s.tree.processes, r ≠ p := fun r hr => ne_of_mem_of_not_mem hr hp
  have hpcs : ∀ r, (s'.info r).pc = (s.info r).pc := by
    intro r
    by_cases hr : r = p
    · rw [hr, hpc]
    · rw [hinfo r hr]
  refine ⟨hbase, ?_, ?_, ?_, ?_, ?_, ?_, ?_, ?_, ?_⟩
  · intro r hr
    rw [hlive] at hr
    rw [hinfo r (hne r hr)]
    exact hk.queue r hr
  · intro r hr
    rw [hlive] at hr
    rw [hinfo r (hne r hr), hpids]
    exact hk.pids r hr
  · intro r hr r' hr'
    rw [hlive] at hr hr'
    rw [hinfo r (hne r hr), hinfo r' (hne r' hr')]
    exact hk.distinct r hr r' hr'
  · intro r child retPid wstatus hr
    rw [hpcs] at hr
    have hcp : child ≠ p := by
      rintro rfl
      exact hplain r (by rw [hr]; rfl)
    rw [hinfo child hcp]
    exact hk.taken r child retPid wstatus hr
  · intro r c pid' hr
    rw [hpcs] at hr
    obtain ⟨hpid', hmem, hdead, habsent, hnot⟩ := hk.settled r c pid' hr
    have hcp : c ≠ p := by
      rintro rfl
      exact hplain r (pointsTo_of_told hr)
    refine ⟨by rw [hinfo c hcp]; exact hpid', by rw [hpids]; exact hmem, by rw [hlive]; exact hdead,
      fun r' hr' => ?_, by rw [hreports]; exact hnot⟩
    rw [hlive] at hr'
    rw [hinfo r' (hne r' hr')]
    exact habsent r' hr'
  · intro r r' c d pid' hne' hr hr'
    rw [hpcs] at hr hr'
    exact hk.apart r r' c d pid' hne' hr hr'
  · rw [hreports]
    exact hk.right
  · rw [hreports, hpids, hlive]
    intro r hr
    refine ⟨(hk.reported r hr).1, fun r' hr' => ?_⟩
    rw [hinfo r' (hne r' hr')]
    exact (hk.reported r hr).2 r' hr'
  · rw [hreports]
    exact hk.once

end Steps

section Runs

variable {s₀ s s' : State}

theorem Kept.step (hk : Kept s) (hstep : Step Allowed s s') : Kept s' := by
  obtain ⟨event, ⟨horderly, hplain⟩, hrun⟩ := hstep
  have hbase := event.base hk.base horderly hrun
  cases event with
  | fork q p n pid =>
    simp only [Event.run] at hrun
    split_ifs at hrun with hcond
    obtain rfl := Option.some.inj hrun
    exact kept_of_fork hk hcond.2.2.1 hcond.2.2.2 hplain hbase
  | waitpid q a =>
    simp only [Event.run] at hrun
    split_ifs at hrun with hcond
    obtain rfl := Option.some.inj hrun
    exact hk.of_start hbase rfl hcond.1 (fun r hr => setPc_info_of_ne s _ hr)
        (setPc_info_self s q _)
      rfl rfl ⟨rfl, rfl⟩ fun _ _ _ => Pc.noConfusion
  | wait q id => exact kept_of_waitMove (waitStep_move hrun) hk horderly hplain
  | wake q => exact absurd hplain id
  | exit p status =>
    simp only [Event.run] at hrun
    split_ifs at hrun with hcond
    obtain rfl := Option.some.inj hrun
    exact hk.of_start hbase rfl hcond.1 (fun r hr => setPc_info_of_ne s _ hr)
        (setPc_info_self s p _)
      rfl rfl ⟨rfl, rfl⟩ fun _ _ _ => Pc.noConfusion
  | exitNext p => exact kept_of_exitMove (exitStep_move hrun) hk
  | reap =>
    simp only [Event.run] at hrun
    split_ifs at hrun with hcond
    obtain rfl := Option.some.inj hrun
    exact hk.of_pcs hbase (Finset.Subset.refl _) hk.queue (fun _ => rfl) rfl rfl hk.taken
      fun _ => rfl
  | reapNext =>
    simp only [Event.run] at hrun
    split_ifs at hrun with hlock
    obtain rfl := Option.some.inj hrun
    exact kept_of_reaperStep hk hbase
  | reuse p process info =>
    simp only [Event.run] at hrun
    split_ifs at hrun with hp
    obtain rfl := Option.some.inj hrun
    refine kept_of_reuse hk hp hplain hbase rfl (fun r hr => setInfo_info_of_ne s _ hr) ?_ rfl rfl
    simp only [setInfo_info_self]

theorem told_of_quiet (h : Quiet s) (q : Ptr) : told (s.info q).pc = none := by
  by_cases hq : q ∈ s.tree.processes
  · rw [(h.running q hq).2.1]
    rfl
  · rw [(h.freed q hq).1]
    rfl

theorem kept_of_quiet (h : Quiet s) : Kept s where
  base := h.base
  queue q hq := by
    obtain ⟨-, hpc, hqueue, -⟩ := h.running q hq
    rw [hpc, hqueue]
    rfl
  pids p hp := (h.running p hp).2.2.2.2.2
  distinct := h.distinct
  taken q child retPid wstatus hpc := by
    by_cases hq : q ∈ s.tree.processes
    · rw [(h.running q hq).2.1] at hpc
      exact Pc.noConfusion hpc
    · rw [(h.freed q hq).1] at hpc
      exact Pc.noConfusion hpc
  settled q c pid htold := by
    rw [told_of_quiet h] at htold
    contradiction
  apart q r c d pid _ htold := by
    rw [told_of_quiet h] at htold
    contradiction
  right r hr := absurd hr (by rw [h.reports_empty]; exact List.not_mem_nil)
  reported r hr := absurd hr (by rw [h.reports_empty]; exact List.not_mem_nil)
  once := by
    rw [h.reports_empty]
    exact List.nodup_nil

theorem kept_of_run (hk : Kept s) (hrun : Relation.ReflTransGen (Step Allowed) s s') :
    Kept s' := by
  induction hrun with
  | refl => exact hk
  | tail _ hlast ih => exact ih.step hlast

/-- While no child that is taken is in use or overwritten and no call waits twice, each child is
reported once. -/
theorem reportedOnce_of_plain (h₀ : Quiet s₀)
    (hrun : Relation.ReflTransGen (Step Allowed) s₀ s) : ReportedOnce s :=
  (kept_of_run (kept_of_quiet h₀) hrun).reportedOnce

end Runs

section Family

def plainCheck (s : State) (event : Event) : Bool :=
  (event.destroys s).isNone &&
    match event with
    | .wait q _ =>
      match (s.info q).pc with
      | .waitTaken child _ _ => !processInUse s child
      | _ => true
    | .wake _ => false
    | .fork _ _ _ _ => false
    | .reuse _ _ _ => false
    | _ => true

theorem allowed_of_plainCheck (s : State) (event : Event) (h : plainCheck s event = true) :
    Allowed s event := by
  unfold plainCheck at h
  rw [Bool.and_eq_true] at h
  refine ⟨fun p hp => ?_, ?_⟩
  · rw [hp] at h
    exact Bool.noConfusion h.1
  · cases event with
    | wait q id =>
      intro child retPid wstatus hpc
      simp only [hpc, Bool.not_eq_true'] at h
      exact h.2
    | wake q => exact Bool.noConfusion h.2
    | fork q p n pid => exact Bool.noConfusion h.2
    | reuse p process info => exact Bool.noConfusion h.2
    | _ => trivial

def takeChild : List Event := [.waitpid 1 ⟨-1, 0⟩, .wait 1 7, .wait 1 0, .wait 1 0]

def returnChild : List Event := [.wait 1 0, .wait 1 0]

/-- The child is gone when its parent asks for it. -/
theorem reportedOnce_of_plain_gone :
    ∃ s, Relation.ReflTransGen (Step Allowed) family s ∧ s.reports.map Report.returned = [2] ∧
      s.tree.processes = {1} ∧ ReportedOnce s := by
  have hfacts : ((runEvents plainCheck family ([.exit 2 0, .exitNext 2, .exitNext 2, .exitNext 2,
      .exitNext 2] ++ takeChild)).bind fun s => ((Event.wait 1 0).run s).bind fun s₁ =>
      (runEvents plainCheck s₁ returnChild).map fun s₂ =>
        decide (s.tree.processes = {1, 2} ∧ (s.info 1).pc = .waitTaken 2 2 wstatusExited ∧
          processInUse s 2 = false ∧ (s.tree.process 2).parent = 1 ∧ childrenOf s 2 = [] ∧
          s₂.reports.map Report.returned = [2] ∧ s₂.tree.processes = {1})) = some true := by
    decide +kernel
  obtain ⟨s, hs, hrest⟩ := Option.bind_eq_some_iff.mp hfacts
  obtain ⟨s₁, hs₁, hrest⟩ := Option.bind_eq_some_iff.mp hrest
  obtain ⟨s₂, hs₂, hfact⟩ := Option.map_eq_some_iff.mp hrest
  obtain ⟨hprocesses, hpc, huse, hparent, hchildren, hreports, hleft⟩ := of_decide_eq_true hfact
  have hbefore := run_of_runEvents allowed_of_plainCheck hs
  have hk := kept_of_run (kept_of_quiet family_quiet) hbefore
  have hlive : 2 ∈ s.tree.processes := by rw [hprocesses]; decide
  have hdestroy : Step Allowed s s₁ := by
    refine ⟨.wait 1 0, ⟨fun p hp => ?_, fun child retPid wstatus hpc' => ?_⟩, hs₁⟩
    · simp only [Event.destroys, hpc, huse] at hp
      obtain rfl := Option.some.inj hp
      exact ⟨hlive, fun _ _ => ⟨by rw [hparent]; decide,
        not_hasChildren hk.base.good hlive hchildren⟩⟩
    · rw [hpc] at hpc'
      cases hpc'
      exact huse
  have hrun := (hbefore.tail hdestroy).trans (run_of_runEvents allowed_of_plainCheck hs₂)
  exact ⟨s₂, hrun, hreports, hleft, reportedOnce_of_plain family_quiet hrun⟩

/-- The child has stopped but has not left its CPU; its parent is told of it twice. -/
theorem child_in_use_reported_twice :
    ∃ s, Relation.ReflTransGen (Step fun _ _ => True) family s ∧
      s.reports.map Report.returned = [2, 2] ∧ ¬ ReportedOnce s := by
  have hfacts : ((runEvents (fun _ _ => true) family ([.exit 2 0] ++ takeChild ++ [.wait 1 0] ++
      returnChild ++ takeChild ++ [.wait 1 0] ++ returnChild)).map
      fun s => decide (s.reports.map Report.returned = [2, 2])) = some true := by decide +kernel
  obtain ⟨s, hs, hfact⟩ := Option.map_eq_some_iff.mp hfacts
  have htwice := of_decide_eq_true hfact
  refine ⟨s, run_of_runEvents (fun _ _ _ => trivial) hs, htwice, fun h => ?_⟩
  have honce := h.once
  rw [htwice] at honce
  exact absurd honce (by decide)

end Family

end ReduceOS.WaitReports
