import ReduceOS.Lifecycle
import ReduceOS.Orphans

/-!
Each process is destroyed once, and by nobody who still has it. There are two who destroy: the
reaper, through its queue, and the parent, through the tree. The parent keeps its pointer
past `process_destroy`, to return `child->pid`, and does not look whether the child is
in the reaper's queue; the reaper does not look whether a parent has the child. Only
`PROCESS_IN_USE` keeps them apart.
-/
namespace ReduceOS.Reaping

open Machine Lifecycle Orphans
open ProcessTree (Ptr isStopped)

/-- No process is destroyed twice, and none that is in the reap queue or in the hands of a thread
in `process_waitpid` has been destroyed. -/
structure DestroyedOnce (s : State) : Prop where
  once : ∀ p, s.destroyed p ≤ 1
  queue : ∀ p ∈ s.reapQueue, s.destroyed p = 0
  pointed : ∀ q p, pointsTo (s.info q).pc = some p → s.destroyed p = 0

def taken : Pc → Option Ptr
  | .waitTaken child _ _ => some child
  | _ => none

/-- The child `process_waitpid` has taken is in use, and so is what the reaper takes out of its
queue while a thread has it. -/
def Careful (s : State) : Event → Prop
  | .wait q _ => ∀ child ∈ taken (s.info q).pc, processInUse s child = true
  | .reapNext => s.pass < s.reapQueue.length → ∀ p ∈ s.reapQueue.head?,
      (∃ q ∈ s.tree.processes, pointsTo (s.info q).pc = some p) → processInUse s p = true
  | _ => True

/-- The states a run goes through, to its end or to the first event that cannot happen. -/
def states (s : State) : List Event → List State
  | [] => [s]
  | event :: events =>
    s :: match event.run s with
      | none => []
      | some s' => states s' events

def AllCareful (s : State) : List Event → Prop
  | [] => True
  | event :: events =>
    match event.run s with
    | none => True
    | some s' => Careful s event ∧ AllCareful s' events

instance (s : State) (p : Ptr) :
    Decidable (∃ q ∈ s.tree.processes, pointsTo (s.info q).pc = some p) :=
  Finset.decidableExistsAndFinset

instance (s : State) (event : Event) : Decidable (Careful s event) :=
  match event with
  | .wait q _ =>
    decidable_of_iff ((taken (s.info q).pc).all (processInUse s) = true)
      (Option.all_eq_true _ _)
  | .reapNext =>
    decidable_of_iff (s.pass < s.reapQueue.length → (s.reapQueue.head?.all fun p =>
        decide ((∃ q ∈ s.tree.processes, pointsTo (s.info q).pc = some p) →
          processInUse s p = true)) = true)
      (imp_congr_right fun _ => (Option.all_eq_true _ _).trans
        (forall₂_congr fun _ _ => decide_eq_true_iff))
  | .fork _ _ _ _ | .waitpid _ _ | .wake _ | .exit _ _ | .exitNext _ | .reap | .reuse _ _ _ =>
    inferInstanceAs (Decidable True)

instance decidableAllCareful (s : State) (events : List Event) : Decidable (AllCareful s events) :=
  match events with
  | [] => inferInstanceAs (Decidable True)
  | event :: events =>
    show Decidable (match event.run s with
      | none => True
      | some s' => Careful s event ∧ AllCareful s' events) from
    match event.run s with
    | none => inferInstanceAs (Decidable True)
    | some s' =>
      have := decidableAllCareful s' events
      inferInstanceAs (Decidable (Careful s event ∧ AllCareful s' events))

def left : Pc → Bool
  | .exitLeaving => true
  | .gone => true
  | _ => false

/-- The processes a thread in `process_waitpid` will still look at. -/
def sees : Pc → List Ptr
  | .waitScan _ rest => rest
  | pc => (pointsTo pc).toList

structure Relies (s : State) (q : Ptr) : Prop where
  noded : (s.info q).pc.inside = true → (s.tree.process q).node ≠ 0
  locked : (s.info q).pc.scans = true → s.lock = some (.process q)
  sees_live : ∀ c ∈ sees (s.info q).pc, c ∈ s.tree.processes
  stopped : ∀ c ∈ taken (s.info q).pc, isStopped s.tree c = true

structure Kept (s : State) : Prop where
  sound : Sound s.tree
  stopped_iff : ∀ p ∈ s.tree.processes, isStopped s.tree p = (s.info p).pc.stopped
  dead : ∀ p, p ∉ s.tree.processes → (s.info p).pc = .gone
  relies : ∀ q, Relies s q
  fresh : ∀ p ∈ s.tree.processes, s.destroyed p = 0
  once : ∀ p, s.destroyed p ≤ 1
  queued : ∀ p ∈ s.reapQueue, p ∈ s.tree.processes ∧ left (s.info p).pc = true
  nodup : s.reapQueue.Nodup

section Threads

variable {s s' : State} {p q c : Ptr}

theorem mem_sees (h : pointsTo (s.info q).pc = some c) : c ∈ sees (s.info q).pc := by
  cases hpc : (s.info q).pc with
  | waitScan a rest =>
    rw [hpc] at h
    contradiction
  | _ =>
    rw [hpc] at h
    exact Option.mem_toList.mpr h

theorem pointsTo_of_taken {pc : Pc} (h : c ∈ taken pc) : pointsTo pc = some c := by
  cases pc <;> first | exact h | contradiction

theorem Kept.pointed (h : Kept s) (hc : pointsTo (s.info q).pc = some c) :
    c ∈ s.tree.processes := (h.relies q).sees_live c (mem_sees hc)

theorem Kept.destroyedOnce (h : Kept s) : DestroyedOnce s where
  once := h.once
  queue p hp := h.fresh p (h.queued p hp).1
  pointed _ p hp := h.fresh p (h.pointed hp)

theorem Kept.live_of_pc (h : Kept s) (hpc : (s.info q).pc ≠ .gone) : q ∈ s.tree.processes := by
  by_contra hq
  exact hpc (h.dead q hq)

theorem inside_of_scans {pc : Pc} (h : pc.scans = true) : pc.inside = true := by
  cases pc <;> first | rfl | exact Bool.noConfusion h

theorem relies_of_outside (hinside : (s.info q).pc.inside = false)
    (hsees : sees (s.info q).pc = []) : Relies s q where
  noded h := by
    rw [hinside] at h
    exact Bool.noConfusion h
  locked h := by
    rw [inside_of_scans h] at hinside
    exact Bool.noConfusion hinside
  sees_live c hc := by
    rw [hsees] at hc
    exact absurd hc List.not_mem_nil
  stopped c hc := by
    have hmem := mem_sees (pointsTo_of_taken hc)
    rw [hsees] at hmem
    exact absurd hmem List.not_mem_nil

theorem sees_of_stopped {pc : Pc} (h : pc.stopped = true) : sees pc = [] := by
  cases pc <;> first | rfl | exact Bool.noConfusion h

theorem relies_of_stopped (h : (s.info q).pc.stopped = true) : Relies s q :=
  relies_of_outside (Pc.not_inside h) (sees_of_stopped h)

theorem relies_of_unlocked
    (hnoded : (s.info q).pc.inside = true → (s.tree.process q).node ≠ 0)
    (hscans : (s.info q).pc.scans = false)
    (hlive : ∀ c ∈ sees (s.info q).pc, c ∈ s.tree.processes) : Relies s q where
  noded := hnoded
  locked h := by
    rw [hscans] at h
    exact Bool.noConfusion h
  sees_live := hlive
  stopped c hc := by
    cases hpc : (s.info q).pc <;> rw [hpc] at hscans hc <;>
      first | exact Bool.noConfusion hscans | contradiction

/-- A thread that does nothing relies on no less than before. -/
theorem Relies.mono (h : Relies s q) (hpc : (s'.info q).pc = (s.info q).pc)
    (hlock : s.lock = some (.process q) → s'.lock = s.lock)
    (hnode : (s.info q).pc.inside = true → (s'.tree.process q).node = (s.tree.process q).node)
    (hlive : ∀ c ∈ sees (s.info q).pc, c ∈ s.tree.processes → c ∈ s'.tree.processes)
    (hstopped : ∀ c ∈ s.tree.processes, isStopped s.tree c = true → isStopped s'.tree c = true) :
    Relies s' q := by
  refine ⟨?_, ?_, ?_, ?_⟩ <;> rw [hpc]
  · intro hinside
    rw [hnode hinside]
    exact h.noded hinside
  · intro hscans
    exact (hlock (h.locked hscans)).trans (h.locked hscans)
  · exact fun c hc => hlive c hc (h.sees_live c hc)
  · exact fun c hc => hstopped c (h.sees_live c (mem_sees (pointsTo_of_taken hc))) (h.stopped c hc)

/-- An event of one process that leaves the tree alone and destroys nothing. -/
theorem Kept.of_actor (h : Kept s) (hq : q ∈ s.tree.processes) (htree : s'.tree = s.tree)
    (hothers : ∀ r, r ≠ q → (s'.info r).pc = (s.info r).pc)
    (hpc : (s'.info q).pc.stopped = (s.info q).pc.stopped)
    (hleft : left (s.info q).pc = true → left (s'.info q).pc = true)
    (hlock : ∀ r, r ≠ q → s.lock = some (.process r) → s'.lock = s.lock)
    (hdestroyed : s'.destroyed = s.destroyed) (hqueue : s'.reapQueue = s.reapQueue)
    (hrelies : Relies s' q) : Kept s' where
  sound := htree ▸ h.sound
  stopped_iff p hp := by
    rw [htree] at hp ⊢
    rw [h.stopped_iff p hp]
    by_cases hpq : p = q
    · rw [hpq, hpc]
    · rw [hothers p hpq]
  dead p hp := by
    rw [htree] at hp
    rw [hothers p fun hpq => hp (hpq ▸ hq)]
    exact h.dead p hp
  relies r := by
    by_cases hrq : r = q
    · rw [hrq]
      exact hrelies
    · refine (h.relies r).mono (hothers r hrq) (hlock r hrq) ?_ ?_ ?_ <;> rw [htree]
      · exact fun _ => rfl
      · exact fun _ _ hc => hc
      · exact fun _ _ hc => hc
  fresh := by
    rw [htree, hdestroyed]
    exact h.fresh
  once := by
    rw [hdestroyed]
    exact h.once
  queued := by
    rw [hqueue, htree]
    intro p hp
    obtain ⟨hplive, hpleft⟩ := h.queued p hp
    refine ⟨hplive, ?_⟩
    by_cases hpq : p = q
    · subst hpq
      exact hleft hpleft
    · rw [hothers p hpq]
      exact hpleft
  nodup := by
    rw [hqueue]
    exact h.nodup

end Threads

section Steps

variable {s s' : State} {p q n : Ptr} {id : ℕ} {pid : CInt}

theorem left_stopped {pc : Pc} (h : left pc = true) : pc.stopped = true := by
  cases pc <;> first | rfl | exact Bool.noConfusion h

theorem live_of_mem_childrenOf (h : Sound s.tree) (hq : q ∈ s.tree.processes)
    (hnode : (s.tree.process q).node ≠ 0) {c : Ptr} (hc : c ∈ childrenOf s q) :
    c ∈ s.tree.processes := by
  obtain ⟨n, hn, rfl⟩ := List.mem_map.mp hc
  exact (h.owner n (h.child _ (h.owned q hq hnode).1 n hn).1).1

theorem waitMove_live (h : WaitMove s q id s') (hk : Kept s) : q ∈ s.tree.processes := by
  refine hk.live_of_pc fun hgone => ?_
  have hstopped := h.stopped.1
  rw [hgone] at hstopped
  exact Bool.noConfusion hstopped

theorem tree_of_waitMove (h : WaitMove s q id s') (hcareful : Careful s (.wait q id)) :
    s'.tree = s.tree := by
  rcases h.tree_eq with htree | ⟨child, retPid, wstatus, hpc, huse, -⟩
  · exact htree
  · rw [hcareful child (by rw [hpc]; rfl)] at huse
    exact Bool.noConfusion huse

/-- What a thread looks at later it found in the tree or had before. -/
theorem relies_of_waitMove (h : WaitMove s q id s') (hk : Kept s)
    (hcareful : Careful s (.wait q id)) : Relies s' q := by
  have hq := waitMove_live h hk
  have hrelies := hk.relies q
  have hnoded : (s'.info q).pc.inside = true → (s'.tree.process q).node ≠ 0 := by
    rw [tree_of_waitMove h hcareful]
    exact h.noded hrelies.noded
  cases h with
  | lock hpc hfree hsome =>
    refine ⟨hnoded, fun _ => rfl, ?_, ?_⟩ <;> rw [setPc_info_self]
    · have hnode := hrelies.noded (by rw [hpc]; rfl)
      exact fun c hc => live_of_mem_childrenOf hk.sound hq hnode hc
    · intro c hc
      contradiction
  | take hpc haccepts hstopped =>
    refine ⟨hnoded, fun _ => hrelies.locked (by rw [hpc]; rfl), ?_, ?_⟩ <;> rw [setPc_info_self]
    · intro c hc
      refine hrelies.sees_live c ?_
      rw [hpc, List.mem_singleton.mp hc]
      exact List.mem_cons_self
    · intro c hc
      obtain rfl := Option.some.inj hc
      exact hstopped
  | skip hpc hnot =>
    refine ⟨hnoded, fun _ => hrelies.locked (by rw [hpc]; rfl), ?_, ?_⟩ <;> rw [setPc_info_self]
    · intro c hc
      refine hrelies.sees_live c ?_
      rw [hpc]
      exact List.mem_cons_of_mem _ hc
    · intro c hc
      contradiction
  | keep hpc huse =>
    refine relies_of_unlocked hnoded ?_ ?_ <;> rw [setPc_info_self]
    · rfl
    · intro c hc
      refine hrelies.sees_live c ?_
      rw [hpc]
      exact hc
  | destroy hpc huse =>
    rw [hcareful _ (by rw [hpc]; rfl)] at huse
    exact Bool.noConfusion huse
  | @leave r hpc =>
    unfold leaveQueue at hnoded ⊢
    refine relies_of_unlocked hnoded ?_ ?_ <;> rw [setInfo_info_self]
    · rfl
    · intro c hc
      refine hrelies.sees_live c ?_
      rw [hpc]
      cases r with
      | value ret => exact hc
      | child child retPid wstatus => exact hc
  | _ =>
    refine relies_of_unlocked hnoded ?_ ?_ <;> simp only [setPc, setInfo, Function.update_self]
    · rfl
    · exact fun c hc => absurd hc List.not_mem_nil

theorem kept_of_waitMove (h : WaitMove s q id s') (hk : Kept s)
    (hcareful : Careful s (.wait q id)) : Kept s' := by
  obtain ⟨hbefore, hafter⟩ := h.stopped
  refine hk.of_actor (waitMove_live h hk) (tree_of_waitMove h hcareful)
    (fun r hr => congrArg Info.pc (h.others hr)) (hafter.trans hbefore.symm) (fun hleft => ?_)
    (fun r hr => h.lock_eq (hk.relies q).locked hr) ?_ ?_ (relies_of_waitMove h hk hcareful)
  · rw [left_stopped hleft] at hbefore
    exact Bool.noConfusion hbefore
  · cases h with
    | destroy hpc huse =>
      rw [hcareful _ (by rw [hpc]; rfl)] at huse
      exact Bool.noConfusion huse
    | _ => rfl
  · cases h with
    | destroy hpc huse => simp only [setPc, setInfo, destroy_reapQueue]
    | _ => rfl

/-- A process enters the reap queue once, at the end of its exit. -/
theorem kept_of_exitMove (h : ExitMove s p s') (hk : Kept s) : Kept s' := by
  obtain ⟨hbefore, hafter⟩ := h.stopped
  have hp : p ∈ s.tree.processes := hk.live_of_pc fun hgone => by
    rw [hgone] at hbefore
    exact Bool.noConfusion hbefore
  have hpc : ∀ r, r ≠ p → (s'.info r).pc = (s.info r).pc := fun r hr => h.others_pc hr
  have hstopped := hafter.trans (Pc.stopped_of_exiting hbefore).symm
  have hrelies := relies_of_stopped hafter
  cases h with
  | reap hexit hlock =>
    have hnot : p ∉ s.reapQueue := by
      intro hmem
      have hleft := (hk.queued p hmem).2
      rw [hexit] at hleft
      exact Bool.noConfusion hleft
    have hk' : Kept (setPc s p .exitLeaving) :=
      hk.of_actor hp rfl hpc hstopped (fun _ => by rw [setPc_info_self]; rfl) (fun _ _ _ => rfl)
        rfl rfl (hrelies.mono rfl (fun _ => rfl) (fun _ => rfl) (fun _ _ hc => hc)
          fun _ _ hstopped => hstopped)
    refine { hk' with relies := fun r => ?_, queued := fun r hr => ?_, nodup := ?_ }
    · exact (hk'.relies r).mono rfl (fun _ => rfl) (fun _ => rfl) (fun _ _ hc => hc)
        fun _ _ hstopped => hstopped
    · rcases List.mem_append.mp hr with hr | hr
      · exact hk'.queued r hr
      · rw [List.mem_singleton.mp hr]
        exact ⟨hp, by rw [setPc_info_self]; rfl⟩
    · exact hk.nodup.append (List.nodup_singleton p) (List.disjoint_singleton.mpr hnot)
  | leave hexit =>
    refine hk.of_actor hp rfl hpc hstopped (fun _ => ?_) (fun _ _ _ => rfl) rfl rfl hrelies
    rw [setPc_info_self]
    rfl
  | walk hexit =>
    refine hk.of_actor hp (wakeup_tree s _) hpc hstopped (fun hleft => ?_)
      (fun _ _ _ => wakeup_lock s _) (wakeup_destroyed s _) (wakeup_reapQueue s _) hrelies
    rw [hexit] at hleft
    exact Bool.noConfusion hleft
  | _ =>
    refine hk.of_actor hp rfl hpc hstopped (fun hleft => ?_) (fun _ _ _ => rfl) rfl rfl hrelies
    rename (s.info p).pc = _ => hexit
    rw [hexit] at hleft
    exact Bool.noConfusion hleft

theorem sees_of_unlocked {pc : Pc} (h : pc.scans = false) : sees pc = (pointsTo pc).toList := by
  cases pc <;> first | rfl | exact Bool.noConfusion h

theorem Kept.stopped_of_queued (h : Kept s) (hp : p ∈ s.reapQueue) : isStopped s.tree p = true := by
  obtain ⟨hlive, hleft⟩ := h.queued p hp
  exact (h.stopped_iff p hlive).trans (left_stopped hleft)

theorem kept_of_reaped {rest : List Ptr} (hk : Kept s) (hqueue : s.reapQueue = p :: rest)
    (huse : processInUse s p = false)
    (hlocked : ∀ q, s.lock ≠ some (.process q))
    (hnobody : ∀ q, pointsTo (s.info q).pc ≠ some p) :
    Kept { s with
      reapQueue := rest
      pass := s.pass + 1
      tree := ProcessTree.processDestroy s.tree p
      destroyed := Function.update s.destroyed p (s.destroyed p + 1) } := by
  have hmem : p ∈ s.reapQueue := by
    rw [hqueue]
    exact List.mem_cons_self
  have hp := (hk.queued p hmem).1
  have hstopped := hk.stopped_of_queued hmem
  have hp0 : p ≠ 0 := fun h0 => hk.sound.process_ne (h0 ▸ hp)
  have hlive : (ProcessTree.processDestroy s.tree p).processes = s.tree.processes.erase p :=
    ProcessTree.processDestroy_processes hp0 hstopped
  have hflags : ∀ r, isStopped (ProcessTree.processDestroy s.tree p) r = isStopped s.tree r := by
    intro r
    unfold isStopped
    rw [ProcessTree.processDestroy_process]
  obtain ⟨hnot, hnodup⟩ := List.nodup_cons.mp (hqueue ▸ hk.nodup)
  refine ⟨processDestroy_sound hk.sound hp hstopped, ?_, ?_, ?_, ?_, ?_, ?_, hnodup⟩
  · intro r hr
    rw [hlive, Finset.mem_erase] at hr
    exact (hflags r).trans (hk.stopped_iff r hr.2)
  · intro r hr
    rw [hlive, Finset.mem_erase, not_and_or, not_not] at hr
    rcases hr with rfl | hr
    · exact Pc.eq_gone ((hk.stopped_iff r hp).symm.trans hstopped) huse
    · exact hk.dead r hr
  · intro r
    refine (hk.relies r).mono rfl (fun _ => rfl) (fun _ => ?_) (fun c hsees hc => ?_)
      fun c _ hc => ?_
    · rw [ProcessTree.processDestroy_process]
    · have hscans : (s.info r).pc.scans = false :=
        Bool.eq_false_iff.mpr fun hscans => hlocked r ((hk.relies r).locked hscans)
      rw [sees_of_unlocked hscans, Option.mem_toList] at hsees
      rw [hlive]
      exact Finset.mem_erase.mpr ⟨fun hcp => hnobody r (hcp ▸ hsees), hc⟩
    · rw [hflags]
      exact hc
  · intro r hr
    rw [hlive, Finset.mem_erase] at hr
    simp only [Function.update_of_ne hr.1]
    exact hk.fresh r hr.2
  · intro r
    by_cases hrp : r = p
    · rw [hrp]
      simp only [Function.update_self]
      rw [hk.fresh p hp]
    · simp only [Function.update_of_ne hrp]
      exact hk.once r
  · intro r hr
    obtain ⟨hrlive, hrleft⟩ := hk.queued r (by rw [hqueue]; exact List.mem_cons_of_mem _ hr)
    rw [hlive]
    exact ⟨Finset.mem_erase.mpr ⟨ne_of_mem_of_not_mem hr hnot, hrlive⟩, hrleft⟩

theorem kept_of_reaperStep (hk : Kept s) (hlock : s.lock = some .reaper)
    (hcareful : Careful s .reapNext) : Kept (reaperStep s) := by
  have hlocked : ∀ q, s.lock ≠ some (.process q) := by
    intro q hq
    rw [hlock] at hq
    exact Holder.noConfusion (Option.some.inj hq)
  have hrelies : ∀ {s' : State}, s'.tree = s.tree → s'.info = s.info → ∀ q, Relies s' q := by
    intro s' htree hinfo q
    refine (hk.relies q).mono (by rw [hinfo]) (fun hq => absurd hq (hlocked q)) ?_ ?_ ?_ <;>
      rw [htree]
    · exact fun _ => rfl
    · exact fun _ _ hc => hc
    · exact fun _ _ hc => hc
  rcases reaperStep_cases s with hs' | ⟨p, rest, hqueue, ⟨-, hs'⟩ | ⟨-, -, hs'⟩ |
    ⟨hstopped, huse, hdestroys, hs'⟩⟩
  · rw [hs']
    exact { hk with relies := hrelies rfl rfl }
  · rw [hs']
    exact { hk with
      relies := hrelies rfl rfl
      queued := fun r hr => hk.queued r (by rw [hqueue]; exact List.mem_cons_of_mem _ hr)
      nodup := (List.nodup_cons.mp (hqueue ▸ hk.nodup)).2 }
  · rw [hs']
    have hperm : (rest ++ [p]).Perm s.reapQueue := by
      rw [hqueue]
      exact List.perm_append_singleton p rest
    exact { hk with
      relies := hrelies rfl rfl
      queued := fun r hr => hk.queued r (hperm.mem_iff.mp hr)
      nodup := hperm.nodup_iff.mpr hk.nodup }
  · have hp : p ∈ s.tree.processes := (hk.queued p (by rw [hqueue]; exact List.mem_cons_self)).1
    have hp0 : p ≠ 0 := fun h0 => hk.sound.process_ne (h0 ▸ hp)
    have hpass : s.pass < s.reapQueue.length := by
      by_contra hpass
      simp only [Event.destroys, if_neg hpass] at hdestroys
      contradiction
    rw [hs'.trans (if_neg (ProcessTree.destroy_runs hp0 hstopped))]
    refine kept_of_reaped hk hqueue huse hlocked fun q hq => ?_
    have hq' : q ∈ s.tree.processes := hk.live_of_pc fun hgone => by
      rw [hgone] at hq
      contradiction
    rw [hcareful hpass p (by rw [hqueue]; rfl) ⟨q, hq', hq⟩] at huse
    exact Bool.noConfusion huse

theorem kept_of_fork (hk : Kept s) (hfresh : ProcessTree.Fresh s.tree p n)
    (hpc : (s.info q).pc = .user) (hq : q ∈ s.tree.processes) : Kept (fork s q p n pid) := by
  have hdestroyed : ∀ r, r ≠ p → (fork s q p n pid).destroyed r = s.destroyed r := fun r hr =>
    Function.update_of_ne hr _ _
  have hzero : (fork s q p n pid).destroyed p = 0 := Function.update_self _ _ _
  have hne : ∀ r ∈ s.tree.processes, r ≠ p := fun r hr => ne_of_mem_of_not_mem hr hfresh.2.1
  have hflags : ∀ r, r ≠ p → isStopped (fork s q p n pid).tree r = isStopped s.tree r := by
    intro r hr
    unfold isStopped
    rw [fork_process_of_ne hr]
  refine ⟨processCreateStructure_sound hk.sound hfresh hq, fun r hr => ?_, fun r hr => ?_,
    fun r => ?_, fun r hr => ?_, fun r => ?_, fun r hr => ?_, hk.nodup⟩
  · rw [fork_processes, Finset.mem_insert] at hr
    rcases hr with rfl | hr
    · have hsame : ((fork s q r n pid).tree.process r).flags = (s.tree.process q).flags :=
        (ProcessTree.processCreateStructure_process_self _ _ _ _ _).2
      have hstopped := hk.stopped_iff q hq
      rw [hpc] at hstopped
      unfold isStopped at hstopped ⊢
      rw [fork_info_self, hsame]
      exact hstopped
    · rw [hflags r (hne r hr), fork_info_of_ne (hne r hr)]
      exact hk.stopped_iff r hr
  · rw [fork_processes, Finset.mem_insert, not_or] at hr
    rw [fork_info_of_ne hr.1]
    exact hk.dead r hr.2
  · by_cases hrp : r = p
    · subst hrp
      exact relies_of_outside (by rw [fork_info_self]; rfl) (by rw [fork_info_self]; rfl)
    · refine (hk.relies r).mono (by rw [fork_info_of_ne hrp]) (fun _ => rfl)
        (fun _ => by rw [fork_process_of_ne hrp]) (fun c _ hc => ?_) fun c hlive hc => ?_
      · rw [fork_processes]
        exact Finset.mem_insert_of_mem hc
      · rw [hflags c (hne c hlive)]
        exact hc
  · rw [fork_processes, Finset.mem_insert] at hr
    rcases hr with rfl | hr
    · exact hzero
    · rw [hdestroyed r (hne r hr)]
      exact hk.fresh r hr
  · by_cases hrp : r = p
    · rw [hrp, hzero]
      exact Nat.zero_le 1
    · rw [hdestroyed r hrp]
      exact hk.once r
  · obtain ⟨hrlive, hrleft⟩ := hk.queued r hr
    rw [fork_processes, fork_info_of_ne (hne r hrlive)]
    exact ⟨Finset.mem_insert_of_mem hrlive, hrleft⟩

theorem kept_of_exit (hk : Kept s) (hpc : (s.info p).pc = .user) (hp : p ∈ s.tree.processes)
    (status : CInt) :
    Kept { setPc s p (.exitMarked status) with tree := ProcessTree.markStopped s.tree p } := by
  refine ⟨markStopped_sound hk.sound p, fun r hr => ?_, fun r hr => ?_, fun r => ?_, hk.fresh,
    hk.once, fun r hr => ?_, hk.nodup⟩
  · by_cases hrp : r = p
    · subst hrp
      simp only [setPc_info_self, ProcessTree.isStopped_markStopped_self]
      rfl
    · simp only [setPc_info_of_ne s _ hrp, ProcessTree.isStopped_markStopped_of_ne s.tree hrp]
      exact hk.stopped_iff r hr
  · have hrp : r ≠ p := fun he => hr (he ▸ hp)
    simp only [setPc_info_of_ne s _ hrp]
    exact hk.dead r hr
  · by_cases hrp : r = p
    · subst hrp
      exact relies_of_stopped (by simp only [setPc_info_self]; rfl)
    · exact (hk.relies r).mono (congrArg Info.pc (setPc_info_of_ne s _ hrp)) (fun _ => rfl)
        (fun _ => ProcessTree.markStopped_node s.tree p r) (fun _ _ hc => hc)
        fun _ _ hc => ProcessTree.isStopped_markStopped hc
  · obtain ⟨hrlive, hrleft⟩ := hk.queued r hr
    refine ⟨hrlive, ?_⟩
    have hrp : r ≠ p := by
      rintro rfl
      rw [hpc] at hrleft
      exact Bool.noConfusion hrleft
    simp only [setPc_info_of_ne s _ hrp]
    exact hrleft

theorem kept_of_reuse (hk : Kept s) (hp : p ∉ s.tree.processes) (process : ProcessTree.Process)
    (info : Info) :
    Kept { setInfo s p { info with sleep := (s.info p).sleep, pc := (s.info p).pc } with
      tree := ProcessTree.setProcess s.tree p process } := by
  have hne : ∀ r ∈ s.tree.processes, r ≠ p := fun r hr => ne_of_mem_of_not_mem hr hp
  have hold : ∀ r ∈ s.tree.processes,
      (ProcessTree.setProcess s.tree p process).process r = s.tree.process r :=
    fun r hr => Function.update_of_ne (hne r hr) _ _
  have hflags : ∀ r ∈ s.tree.processes,
      isStopped (ProcessTree.setProcess s.tree p process) r = isStopped s.tree r := by
    intro r hr
    unfold isStopped
    rw [hold r hr]
  have hpc := reuse_pc s p info
  refine ⟨setProcess_sound hk.sound hp process, fun r hr => ?_, fun r hr => ?_, fun r => ?_,
    hk.fresh, hk.once, fun r hr => ?_, hk.nodup⟩
  · exact (hflags r hr).trans ((hk.stopped_iff r hr).trans (congrArg Pc.stopped (hpc r)).symm)
  · exact (hpc r).trans (hk.dead r hr)
  · refine (hk.relies r).mono (hpc r) (fun _ => rfl) (fun hinside => ?_) (fun _ _ hc => hc)
      fun c hlive hc => (hflags c hlive).trans hc
    refine congrArg ProcessTree.Process.node (hold r (hk.live_of_pc fun hgone => ?_))
    rw [hgone] at hinside
    exact Bool.noConfusion hinside
  · obtain ⟨hrlive, hrleft⟩ := hk.queued r hr
    exact ⟨hrlive, (congrArg left (hpc r)).trans hrleft⟩

end Steps

section Runs

variable {s₀ s s' : State} {event : Event}

theorem Kept.step (hk : Kept s) (hrun : event.run s = some s') (hcareful : Careful s event) :
    Kept s' := by
  cases event with
  | fork q p n pid =>
    simp only [Event.run] at hrun
    split_ifs at hrun with hcond
    obtain rfl := Option.some.inj hrun
    exact kept_of_fork hk hcond.2.2.1 hcond.1 hcond.2.1
  | waitpid q a =>
    simp only [Event.run] at hrun
    split_ifs at hrun with hcond
    obtain rfl := Option.some.inj hrun
    refine hk.of_actor hcond.2 rfl (fun r hr => congrArg Info.pc (setPc_info_of_ne s _ hr)) ?_
      (fun hleft => ?_) (fun _ _ _ => rfl) rfl rfl ?_
    · rw [setPc_info_self, hcond.1]
      rfl
    · rw [hcond.1] at hleft
      exact Bool.noConfusion hleft
    · exact relies_of_outside (by rw [setPc_info_self]; rfl) (by rw [setPc_info_self]; rfl)
  | wait q id => exact kept_of_waitMove (waitStep_move hrun) hk hcareful
  | wake q =>
    obtain ⟨-, a, hpc, rfl⟩ := wake_cases hrun
    have hstopped : (s.info q).pc.stopped = false := by
      rcases hpc with hpc | hpc
      · rw [hpc]
        rfl
      · rw [hpc]
        rfl
    have hq : q ∈ s.tree.processes := hk.live_of_pc fun hgone => by
      rw [hgone] at hstopped
      exact Bool.noConfusion hstopped
    refine hk.of_actor hq rfl (fun r hr => congrArg Info.pc (setInfo_info_of_ne s _ hr)) ?_
      (fun hleft => ?_) (fun _ _ _ => rfl) rfl rfl ?_
    · rw [setInfo_info_self, hstopped]
      rfl
    · rw [left_stopped hleft] at hstopped
      exact Bool.noConfusion hstopped
    · exact relies_of_outside (by rw [setInfo_info_self]; rfl) (by rw [setInfo_info_self]; rfl)
  | exit p status =>
    simp only [Event.run] at hrun
    split_ifs at hrun with hcond
    obtain rfl := Option.some.inj hrun
    exact kept_of_exit hk hcond.1 hcond.2 status
  | exitNext p => exact kept_of_exitMove (exitStep_move hrun) hk
  | reap =>
    simp only [Event.run] at hrun
    split_ifs at hrun with hcond
    obtain rfl := Option.some.inj hrun
    refine { hk with relies := fun q => ?_ }
    refine (hk.relies q).mono rfl (fun hheld => ?_) (fun _ => rfl) (fun _ _ hc => hc)
      fun _ _ hc => hc
    rw [hcond.1] at hheld
    exact absurd hheld.symm (Option.some_ne_none _)
  | reapNext =>
    simp only [Event.run] at hrun
    split_ifs at hrun with hlock
    obtain rfl := Option.some.inj hrun
    exact kept_of_reaperStep hk hlock hcareful
  | reuse p process info =>
    simp only [Event.run] at hrun
    split_ifs at hrun with hp
    obtain rfl := Option.some.inj hrun
    exact kept_of_reuse hk hp process info

theorem kept_of_quiet (h : Quiet s) : Kept s where
  sound := sound_of_good h.good
  stopped_iff := h.base.stopped_iff
  dead := h.base.dead
  relies q := by
    have hpc : (s.info q).pc = .user ∨ (s.info q).pc = .gone := by
      by_cases hq : q ∈ s.tree.processes
      · exact Or.inl (h.running q hq).2.1
      · exact Or.inr (h.freed q hq).1
    rcases hpc with hpc | hpc
    · exact relies_of_outside (by rw [hpc]; rfl) (by rw [hpc]; rfl)
    · exact relies_of_outside (by rw [hpc]; rfl) (by rw [hpc]; rfl)
  fresh p hp := (h.running p hp).2.2.2.2.1
  once p := by
    by_cases hp : p ∈ s.tree.processes
    · rw [(h.running p hp).2.2.2.2.1]
      exact Nat.zero_le 1
    · exact (h.freed p hp).2
  queued := by
    rw [h.reap_empty]
    exact fun p hp => absurd hp List.not_mem_nil
  nodup := by
    rw [h.reap_empty]
    exact List.nodup_nil

theorem destroy_destroyed {p : Ptr} (hp : p ≠ 0) (hstopped : isStopped s.tree p = true) :
    (destroy s p).destroyed p = s.destroyed p + 1 := by
  unfold destroy
  rw [if_neg (ProcessTree.destroy_runs hp hstopped)]
  exact Function.update_self _ _ _

/-- A wait that destroys its child goes on with a pointer to it. -/
theorem careless_wait {q child : Ptr} {retPid wstatus : CInt} {id : ℕ} (hk : Kept s)
    (hpc : (s.info q).pc = .waitTaken child retPid wstatus) (huse : processInUse s child ≠ true)
    (hrun : (Event.wait q id).run s = some s') : ¬ DestroyedOnce s' := by
  have hchild : child ∈ s.tree.processes := hk.pointed (by rw [hpc]; rfl)
  have hstopped := (hk.relies q).stopped child (by rw [hpc]; rfl)
  have hp0 : child ≠ 0 := fun h0 => hk.sound.process_ne (h0 ▸ hchild)
  simp only [Event.run, waitStep, hpc, if_neg huse, Option.some.injEq] at hrun
  subst hrun
  intro h
  have hzero := h.pointed q child (by simp only [setPc_info_self]; rfl)
  have hone := destroy_destroyed hp0 hstopped
  simp only [setPc, setInfo] at hzero
  omega

/-- The reaper takes a process out of its queue and destroys it while a thread has it. -/
theorem careless_reaper {p q : Ptr} (hk : Kept s) (hpass : s.pass < s.reapQueue.length)
    (hhead : s.reapQueue.head? = some p) (hq : pointsTo (s.info q).pc = some p)
    (huse : processInUse s p ≠ true) : ¬ DestroyedOnce (reaperStep s) := by
  obtain ⟨rest, hqueue⟩ : ∃ rest, s.reapQueue = p :: rest := by
    cases hcons : s.reapQueue with
    | nil =>
      rw [hcons] at hhead
      contradiction
    | cons r rest =>
      rw [hcons] at hhead
      exact ⟨rest, by rw [Option.some.inj hhead]⟩
  have hp : p ∈ s.reapQueue := List.mem_of_mem_head? hhead
  have hstopped := hk.stopped_of_queued hp
  have hp0 : p ≠ 0 := fun h0 => hk.sound.process_ne (h0 ▸ (hk.queued p hp).1)
  have hs' : reaperStep s = destroy { s with reapQueue := rest, pass := s.pass + 1 } p := by
    have huse' : processInUse { s with reapQueue := rest, pass := s.pass + 1 } p ≠ true := huse
    unfold reaperStep
    rw [if_pos hpass, hqueue]
    dsimp only
    rw [if_pos hstopped, if_neg huse']
  intro h
  have hzero := h.pointed q p (by rw [hs', destroy_info]; exact hq)
  have hone : (destroy { s with reapQueue := rest, pass := s.pass + 1 } p).destroyed p =
      s.destroyed p + 1 := destroy_destroyed hp0 hstopped
  rw [hs', hone] at hzero
  omega

/-- An event that is not careful destroys what a thread has. -/
theorem careful_of_destroyedOnce (hk : Kept s) (hrun : event.run s = some s')
    (h : DestroyedOnce s') : Careful s event := by
  cases event with
  | wait q id =>
    intro child hchild
    by_contra huse
    cases hpc : (s.info q).pc <;> rw [hpc] at hchild <;> try contradiction
    obtain rfl := Option.some.inj hchild
    exact careless_wait hk hpc huse hrun h
  | reapNext =>
    rintro hpass p hhead ⟨q, -, hq⟩
    by_contra huse
    simp only [Event.run] at hrun
    split_ifs at hrun with hlock
    obtain rfl := Option.some.inj hrun
    exact careless_reaper hk hpass hhead hq huse h
  | _ => trivial

theorem destroyedOnce_iff_of_kept (hk : Kept s) (events : List Event) :
    (∀ s' ∈ states s events, DestroyedOnce s') ↔ AllCareful s events := by
  induction events generalizing s with
  | nil => simpa [states, AllCareful] using hk.destroyedOnce
  | cons event events ih =>
    simp only [states, AllCareful, List.forall_mem_cons]
    cases hrun : event.run s with
    | none => simpa using hk.destroyedOnce
    | some s' =>
      dsimp only
      constructor
      · rintro ⟨-, hall⟩
        have hself : s' ∈ states s' events := by cases events <;> exact List.mem_cons_self
        have hcareful := careful_of_destroyedOnce hk hrun (hall s' hself)
        exact ⟨hcareful, (ih (hk.step hrun hcareful)).mp hall⟩
      · rintro ⟨hcareful, hall⟩
        exact ⟨hk.destroyedOnce, (ih (hk.step hrun hcareful)).mpr hall⟩

/-- All is destroyed once in a run exactly when every event of it is careful. -/
theorem destroyedOnce_iff_careful (h₀ : Quiet s₀) (events : List Event) :
    (∀ s ∈ states s₀ events, DestroyedOnce s) ↔ AllCareful s₀ events :=
  destroyedOnce_iff_of_kept (kept_of_quiet h₀) events

end Runs

section Family

def exitUnseen (p : Ptr) : List Event :=
  [.exit p 0, .exitNext p, .exitNext p, .exitNext p, .exitNext p]

/-- The reaper destroys a child nobody waited for. Init takes another that is on its way out and in
the reap queue; the reaper puts it back, and destroys it when init has returned. -/
def twoChildren : List Event :=
  exitUnseen 2 ++ [.reap, .reapNext, .reapNext, .fork 1 3 3 3,
    .exit 3 0, .exitNext 3, .exitNext 3, .exitNext 3,
    .waitpid 1 ⟨-1, 0⟩, .wait 1 7, .wait 1 0, .wait 1 0, .wait 1 0,
    .reap, .reapNext, .reapNext, .wait 1 0, .wait 1 0,
    .exitNext 3, .reap, .reapNext, .reapNext]

theorem destroyedOnce_iff_careful_two :
    (∀ s ∈ states family twoChildren, DestroyedOnce s) ∧
      ((states family twoChildren).getLast?.map fun s =>
        (s.destroyed 2, s.destroyed 3, s.reapQueue, s.reports)) = some (1, 1, [], [⟨1, 3, 1, 3⟩]) :=
  ⟨(destroyedOnce_iff_careful family_quiet twoChildren).mpr (by decide +kernel),
    by decide +kernel⟩

/-- The parent takes a child that is in the reap queue; the reaper destroys it again. -/
theorem reaped_and_waited_destroyed_twice :
    ∃ s, Relation.ReflTransGen (Step fun _ _ => True) family s ∧ s.destroyed 2 = 2 ∧
      ¬ DestroyedOnce s := by
  have hfacts : ((runEvents (fun _ _ => true) family (exitUnseen 2 ++ [.waitpid 1 ⟨-1, 0⟩,
      .wait 1 7, .wait 1 0, .wait 1 0, .wait 1 0, .wait 1 0, .wait 1 0, .reap, .reapNext])).map
      fun s => decide (s.destroyed 2 = 2)) = some true := by decide +kernel
  obtain ⟨s, hs, hfact⟩ := Option.map_eq_some_iff.mp hfacts
  have htwice := of_decide_eq_true hfact
  refine ⟨s, run_of_runEvents (fun _ _ _ => trivial) hs, htwice, fun h => ?_⟩
  have honce := h.once 2
  omega

end Family

end ReduceOS.Reaping
