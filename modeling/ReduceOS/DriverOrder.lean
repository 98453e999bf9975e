import Mathlib.Data.Int.Notation
import Mathlib.Data.List.Count
import Mathlib.Logic.Function.Basic
import ReduceOS.Precedence

/-!
The order in which drivers are loaded. The build script sorts the drivers so that each one stands
before those it is to be loaded before, by counting for each driver how many must come first.
-/
namespace ReduceOS.DriverOrder

open Precedence

variable {α : Type*} [DecidableEq α]

inductive SolveError (α : Type*)
  | keyError (name : α)
  | impossible
deriving DecidableEq

/-- `in_degree`, `queue` and `ordered_items`. -/
structure Pass (α : Type*) where
  inDegree : α → Option ℤ
  queue : List α
  ordered : List α

/-- The loop over the constraints, which fills `graph` and `in_degree`. -/
def tally (graph : α → List α) (inDegree : α → Option ℤ) :
    List (α × α) → Except (SolveError α) ((α → List α) × (α → Option ℤ))
  | [] => .ok (graph, inDegree)
  | (before, after) :: constraints =>
      match inDegree after with
      | none => .error (.keyError after)
      | some k =>
          tally (Function.update graph before (graph before ++ [after]))
            (Function.update inDegree after (some (k + 1))) constraints

def visit : List α → Pass α → Except (SolveError α) (Pass α)
  | [], s => .ok s
  | neighbor :: neighbors, s =>
      match s.inDegree neighbor with
      | none => .error (.keyError neighbor)
      | some k =>
          visit neighbors
            { s with
              inDegree := Function.update s.inDegree neighbor (some (k - 1))
              queue := if k - 1 = 0 then s.queue ++ [neighbor] else s.queue }

def drain (graph : α → List α) : ℕ → Pass α → Except (SolveError α) (Pass α)
  | 0, s => .ok s
  | fuel + 1, s =>
      match s.queue with
      | [] => .ok s
      | driver :: queue =>
          (visit (graph driver) { s with queue, ordered := s.ordered ++ [driver] }).bind
            (drain graph fuel)

/-- `solve_driver_constraints`. A driver joins the queue at the start or when its count reaches
zero, so there are no more turns than drivers and constraints. -/
def solveDriverConstraints (driverFilenames : List α) (constraints : List (α × α)) :
    Except (SolveError α) (List α) :=
  (tally (fun _ => []) (fun driver => if driver ∈ driverFilenames then some 0 else none)
    constraints).bind fun (graph, inDegree) =>
  (drain graph (driverFilenames.length + constraints.length)
    { inDegree
      queue := driverFilenames.filter fun driver => inDegree driver = some 0
      ordered := [] }).bind fun s =>
  if s.ordered.length ≠ driverFilenames.length then .error .impossible else .ok s.ordered

section Counts

def after (constraints : List (α × α)) (driver : α) : List α :=
  (constraints.filter (·.1 = driver)).map (·.2)

def waiting (constraints : List (α × α)) (ordered : List α) (driver : α) : ℕ :=
  constraints.countP fun e => e.2 = driver ∧ e.1 ∉ ordered

theorem waiting_eq_zero {E : List (α × α)} {ordered : List α} {b : α} :
    waiting E ordered b = 0 ↔ ∀ e ∈ E, e.2 = b → e.1 ∈ ordered := by
  simp [waiting, List.countP_eq_zero]

theorem waiting_nil (E : List (α × α)) (b : α) : waiting E [] b = E.countP (·.2 = b) := by
  simp [waiting]

/-- Placing a driver lets go of its neighbors, once for each constraint. -/
theorem waiting_append {a : α} {ordered : List α} (ha : a ∉ ordered) (E : List (α × α)) (b : α) :
    waiting E ordered b = waiting E (ordered ++ [a]) b + (after E a).count b := by
  induction E with
  | nil => rfl
  | cons e E ih =>
    simp only [waiting, after, List.countP_cons, List.filter_cons] at ih ⊢
    rw [ih]
    by_cases h₁ : e.1 = a
    · have hout : e.1 ∉ ordered := h₁ ▸ ha
      by_cases h₂ : e.2 = b <;> simp [h₁, h₂, ha]; omega
    · by_cases h₂ : e.2 = b <;> simp [h₁, h₂]; omega

end Counts

section Loops

theorem tally_ok {E : List (α × α)} (graph : α → List α) (inDegree : α → Option ℤ)
    (hknown : ∀ e ∈ E, (inDegree e.2).isSome) :
    ∃ graph' inDegree', tally graph inDegree E = .ok (graph', inDegree') ∧
      (∀ b, graph' b = graph b ++ after E b) ∧
      ∀ b, inDegree' b = (inDegree b).map (· + (E.countP (·.2 = b) : ℤ)) := by
  induction E generalizing graph inDegree with
  | nil => exact ⟨graph, inDegree, rfl, by simp [after], by simp⟩
  | cons e E ih =>
    obtain ⟨before, aft⟩ := e
    obtain ⟨k, hk⟩ := Option.isSome_iff_exists.1 (hknown _ (List.mem_cons_self ..))
    have hknown' : ∀ e ∈ E, (Function.update inDegree aft (some (k + 1)) e.2).isSome := by
      intro e he
      by_cases h : e.2 = aft
      · simp [h]
      · simpa [h] using hknown e (List.mem_cons_of_mem _ he)
    obtain ⟨graph', inDegree', heq, hgraph, hdegree⟩ := ih
      (Function.update graph before (graph before ++ [aft]))
      (Function.update inDegree aft (some (k + 1))) hknown'
    refine ⟨graph', inDegree', by simpa [tally, hk] using heq, fun b => ?_, fun b => ?_⟩
    · rw [hgraph b]
      by_cases hb : b = before
      · subst hb
        simp [after]
      · simp [hb, after, Ne.symm hb]
    · rw [hdegree b]
      by_cases hb : b = aft
      · subst hb
        simp at hk
        simp [hk]
        omega
      · simp [hb, Ne.symm hb]

theorem tally_error {E : List (α × α)} {graph : α → List α} {inDegree : α → Option ℤ}
    {err : SolveError α} (h : tally graph inDegree E = .error err) :
    ∃ e ∈ E, inDegree e.2 = none ∧ err = .keyError e.2 := by
  induction E generalizing graph inDegree with
  | nil => simp [tally] at h
  | cons e E ih =>
    obtain ⟨before, aft⟩ := e
    simp only [tally] at h
    split at h
    · next hnone => exact ⟨_, List.mem_cons_self .., hnone, (Except.error.inj h).symm⟩
    · next k hk =>
      obtain ⟨e, he, hnone, rfl⟩ := ih h
      have hne : e.2 ≠ aft := by
        rintro heq
        simp [heq] at hnone
      exact ⟨e, List.mem_cons_of_mem _ he, by simpa [hne] using hnone, rfl⟩

theorem tally_unknown {E : List (α × α)} {graph : α → List α} {inDegree : α → Option ℤ}
    {r : (α → List α) × (α → Option ℤ)} {e : α × α} (he : e ∈ E) (hout : inDegree e.2 = none) :
    tally graph inDegree E ≠ .ok r := by
  induction E generalizing graph inDegree with
  | nil => simp at he
  | cons f E ih =>
    obtain ⟨before, aft⟩ := f
    simp only [tally]
    rcases List.mem_cons.1 he with rfl | he
    · simp only at hout
      simp [hout]
    · split
      · exact nofun
      · next k hk =>
        refine ih he ?_
        have hne : e.2 ≠ aft := by
          rintro heq
          simp [heq, hk] at hout
        simpa [hne] using hout

/-- The neighbors whose count reaches zero join the queue, each once. -/
theorem visit_ok {ns : List α} {s : Pass α} {d : α → ℕ}
    (hcount : ∀ n ∈ ns, s.inDegree n = some (d n : ℤ) ∧ ns.count n ≤ d n) :
    ∃ s' joined, visit ns s = .ok s' ∧ s'.ordered = s.ordered ∧ s'.queue = s.queue ++ joined ∧
      joined.Nodup ∧ (∀ b, b ∈ joined ↔ b ∈ ns ∧ ns.count b = d b) ∧
      ∀ b, s'.inDegree b = (s.inDegree b).map (· - (ns.count b : ℤ)) := by
  induction ns generalizing s d with
  | nil => exact ⟨s, [], rfl, rfl, by simp, List.nodup_nil, by simp, by simp⟩
  | cons n ns ih =>
    obtain ⟨hn, hle⟩ := hcount n (List.mem_cons_self ..)
    rw [List.count_cons_self] at hle
    have hcount' : ∀ m ∈ ns, Function.update s.inDegree n (some ((d n : ℤ) - 1)) m =
        some ((Function.update d n (d n - 1) m : ℕ) : ℤ) ∧
          ns.count m ≤ Function.update d n (d n - 1) m := by
      intro m hm
      obtain ⟨hdeg, hlem⟩ := hcount m (List.mem_cons_of_mem _ hm)
      by_cases hmn : m = n
      · subst hmn
        simp
        omega
      · simpa [hmn, hdeg, List.count_cons, Ne.symm hmn] using hlem
    obtain ⟨s', joined, heq, hordered, hqueue, hnodup, hmem, hdegree⟩ :=
      ih (d := Function.update d n
      (d n - 1)) (s := { s with
        inDegree := Function.update s.inDegree n (some ((d n : ℤ) - 1))
        queue := if (d n : ℤ) - 1 = 0 then s.queue ++ [n] else s.queue }) hcount'
    have hvisit : visit (n :: ns) s = .ok s' := by simpa [visit, hn] using heq
    have hdegree' : ∀ b, s'.inDegree b =
        (s.inDegree b).map (· - (((n :: ns).count b : ℕ) : ℤ)) := by
      intro b
      rw [hdegree b]
      by_cases hb : b = n
      · subst hb
        simp [hn]
        omega
      · simp [hb, Ne.symm hb]
    by_cases hlast : d n = 1
    · -- the last constraint on this neighbor: none of them is left in the rest
      have hout : n ∉ ns := by
        rw [← List.count_eq_zero]
        omega
      refine ⟨s', n :: joined, hvisit, hordered, by simpa [hlast] using hqueue, ?_, fun b => ?_,
        hdegree'⟩
      · exact List.nodup_cons.2 ⟨fun h => hout ((hmem n).1 h).1, hnodup⟩
      · by_cases hb : b = n
        · subst hb
          simp [hlast, hout, List.count_eq_zero.2 hout]
        · simp [hb, hmem b, Ne.symm hb]
    · have hstays : ¬ ((d n : ℤ) - 1 = 0) := by omega
      refine ⟨s', joined, hvisit, hordered, by simpa [hstays] using hqueue, hnodup, fun b => ?_,
        hdegree'⟩
      by_cases hb : b = n
      · subst hb
        rw [hmem b]
        simp only [Function.update_self, List.count_cons_self, List.mem_cons, true_or, true_and]
        refine ⟨fun ⟨_, h⟩ => by omega, fun h => ⟨List.count_pos_iff.1 (by omega), by omega⟩⟩
      · simp [hb, hmem b, Ne.symm hb]

end Loops

structure Sorted (names : List α) (E : List (α × α)) (s : Pass α) : Prop where
  nodup : (s.ordered ++ s.queue).Nodup
  degree : ∀ b ∈ names, s.inDegree b = some (waiting E s.ordered b : ℤ)
  ready : ∀ b, b ∈ s.ordered ++ s.queue ↔ b ∈ names ∧ waiting E s.ordered b = 0
  respects : ∀ e ∈ E, e.2 ∈ s.ordered ++ s.queue → [e.1, e.2].Sublist (s.ordered ++ s.queue)

namespace Sorted

variable {names : List α} {E : List (α × α)} {s : Pass α}

theorem turn {driver : α} {queue : List α} (hs : Sorted names E s)
    (hknown : ∀ e ∈ E, e.2 ∈ names) (hqueue : s.queue = driver :: queue) :
    ∃ s', visit (after E driver) { s with queue, ordered := s.ordered ++ [driver] } = .ok s' ∧
      s'.ordered = s.ordered ++ [driver] ∧ Sorted names E s' := by
  have hnodup := hs.nodup
  rw [hqueue] at hnodup
  have hfresh : driver ∉ s.ordered := fun h =>
    (List.nodup_append.1 hnodup).2.2 driver h driver (List.mem_cons_self ..) rfl
  have hneighbors : ∀ n ∈ after E driver, n ∈ names := by
    intro n hn
    simp only [after, List.mem_map, List.mem_filter] at hn
    obtain ⟨e, ⟨he, -⟩, rfl⟩ := hn
    exact hknown e he
  have hsplit := waiting_append hfresh E
  have hcount : ∀ n ∈ after E driver, s.inDegree n = some (waiting E s.ordered n : ℤ) ∧
      (after E driver).count n ≤ waiting E s.ordered n := by
    intro n hn
    have := hsplit n
    exact ⟨hs.degree n (hneighbors n hn), by omega⟩
  obtain ⟨s', joined, heq, (hordered : s'.ordered = s.ordered ++ [driver]), hq, hjnodup, hjmem,
    hdegree⟩ := visit_ok (s := { s with queue, ordered := s.ordered ++ [driver] }) hcount
  have hlist : s'.ordered ++ s'.queue = (s.ordered ++ s.queue) ++ joined := by
    rw [hordered, hq, hqueue]
    simp
  have hjoined : ∀ b, b ∈ joined ↔ b ∈ after E driver ∧
      waiting E (s.ordered ++ [driver]) b = 0 := by
    intro b
    rw [hjmem b]
    have := hsplit b
    refine and_congr_right fun _ => ⟨fun h => by omega, fun h => by omega⟩
  have hnew : ∀ b ∈ joined, b ∉ s.ordered ++ s.queue := by
    intro b hb hin
    have hzero := ((hs.ready b).1 hin).2
    have hpos := List.count_pos_iff.2 ((hjmem b).1 hb).1
    have := hsplit b
    omega
  refine ⟨s', heq, hordered, ?_, fun b hb => ?_, fun b => ?_, fun e he hmem => ?_⟩
  · rw [hlist]
    exact List.nodup_append.2 ⟨hs.nodup, hjnodup, fun x hx y hy hxy => hnew y hy (hxy ▸ hx)⟩
  · rw [hdegree b, hs.degree b hb, hordered]
    have := hsplit b
    simp
    omega
  · rw [hlist, List.mem_append, hs.ready b, hjoined b, hordered]
    have := hsplit b
    constructor
    · rintro (⟨hb, hzero⟩ | ⟨hb, hzero⟩)
      · exact ⟨hb, by omega⟩
      · exact ⟨hneighbors b hb, hzero⟩
    · rintro ⟨hb, hzero⟩
      by_cases hin : b ∈ after E driver
      · exact .inr ⟨hin, hzero⟩
      · have hnone := List.count_eq_zero.2 hin
        exact .inl ⟨hb, by omega⟩
  · rw [hlist] at hmem ⊢
    rcases List.mem_append.1 hmem with hold | hadd
    · exact (hs.respects e he hold).trans (List.sublist_append_left ..)
    · -- all that comes before a driver that joins the queue has been placed
      have hfst := waiting_eq_zero.1 ((hjoined e.2).1 hadd).2 e he rfl
      refine pair_sublist_append ?_ hadd
      rw [hqueue]
      rcases List.mem_append.1 hfst with h | h
      · exact List.mem_append_left _ h
      · rw [List.mem_singleton.1 h]
        simp

theorem drained (hs : Sorted names E s) (hknown : ∀ e ∈ E, e.2 ∈ names) {graph : α → List α}
    (hgraph : ∀ b, graph b = after E b) {fuel : ℕ}
    (hfuel : names.length ≤ s.ordered.length + fuel) :
    ∃ s', drain graph fuel s = .ok s' ∧ Sorted names E s' ∧ s'.queue = [] := by
  induction fuel generalizing s with
  | zero =>
    have hsub : s.ordered ++ s.queue ⊆ names := fun b hb => ((hs.ready b).1 hb).1
    have hlen := (hs.nodup.subperm hsub).length_le
    rw [List.length_append] at hlen
    exact ⟨s, rfl, hs, List.length_eq_zero_iff.1 (by omega)⟩
  | succ fuel ih =>
    match hqueue : s.queue with
    | [] => exact ⟨s, by simp [drain, hqueue], hs, hqueue⟩
    | driver :: queue =>
      obtain ⟨s', heq, hordered, hs'⟩ := hs.turn hknown hqueue
      have hfuel' : names.length ≤ s'.ordered.length + fuel := by
        rw [hordered, List.length_append, List.length_singleton]
        omega
      obtain ⟨t, ht, hst, hempty⟩ := ih hs' hfuel'
      exact ⟨t, by simpa [drain, hqueue, hgraph driver, heq, Except.bind] using ht, hst, hempty⟩

/-- When the queue is empty and some drivers are left over, they hold one another back. -/
theorem stuck (hs : Sorted names E s) (hempty : s.queue = []) :
    ∀ r ∈ names, r ∉ s.ordered → ∃ a, (a, r) ∈ E ∧ (a ∈ names → a ∉ s.ordered) := by
  intro r hr hout
  have hwait : waiting E s.ordered r ≠ 0 := by
    intro hzero
    have hin := (hs.ready r).2 ⟨hr, hzero⟩
    rw [hempty, List.append_nil] at hin
    exact hout hin
  rw [Ne, waiting_eq_zero] at hwait
  push Not at hwait
  obtain ⟨⟨a, r'⟩, he, rfl, ha⟩ := hwait
  exact ⟨a, he, fun _ => ha⟩

theorem subperm (hs : Sorted names E s) (hempty : s.queue = []) : s.ordered.Subperm names := by
  have hnodup := hs.nodup
  rw [hempty, List.append_nil] at hnodup
  exact hnodup.subperm fun b hb => ((hs.ready b).1 (List.mem_append_left _ hb)).1

end Sorted

section Solving

variable {names : List α} {E : List (α × α)}

/-- Before the first turn the drivers that nothing comes before are queued. -/
theorem sorted_start (hnodup : names.Nodup) {inDegree : α → Option ℤ}
    (hdegree : ∀ b ∈ names, inDegree b = some (E.countP (·.2 = b) : ℤ)) :
    Sorted names E
      { inDegree, queue := names.filter fun driver => inDegree driver = some 0, ordered := [] }
    where
  nodup := by simpa using hnodup.filter _
  degree b hb := by simpa only [waiting_nil] using hdegree b hb
  ready b := by
    simp only [List.nil_append, List.mem_filter, decide_eq_true_eq, waiting_nil]
    refine and_congr_right fun hb => ?_
    rw [hdegree b hb]
    simp
  respects e he hin := by
    simp only [List.nil_append, List.mem_filter, decide_eq_true_eq] at hin
    have hzero := hin.2
    rw [hdegree e.2 hin.1, Option.some.injEq, Int.natCast_eq_zero, List.countP_eq_zero] at hzero
    simpa using hzero e he

theorem solve_known (hnodup : names.Nodup) (hknown : ∀ e ∈ E, e.2 ∈ names) :
    ∃ s, Sorted names E s ∧ s.queue = [] ∧ solveDriverConstraints names E =
      if s.ordered.length ≠ names.length then .error .impossible else .ok s.ordered := by
  obtain ⟨graph, inDegree, htally, hgraph, hdegree⟩ := tally_ok (E := E) (fun _ => [])
    (fun driver => if driver ∈ names then some 0 else none) (by simpa using hknown)
  have hdegree' : ∀ b ∈ names, inDegree b = some (E.countP (·.2 = b) : ℤ) := fun b hb => by
    simp [hdegree b, hb]
  have hgraph' : ∀ b, graph b = after E b := fun b => by simpa using hgraph b
  obtain ⟨s, hdrain, hs, hempty⟩ := (sorted_start hnodup hdegree').drained hknown hgraph'
    (by simp : names.length ≤ 0 + (names.length + E.length))
  exact ⟨s, hs, hempty, by simp only [solveDriverConstraints, htally, Except.bind, hdrain]⟩

theorem solve_unknown {e : α × α} (he : e ∈ E) (hout : e.2 ∉ names) :
    ∃ name, solveDriverConstraints names E = .error (.keyError name) := by
  match htally : tally (fun _ => []) (fun driver => if driver ∈ names then some 0 else none) E with
  | .error err =>
    obtain ⟨e, -, -, rfl⟩ := tally_error htally
    exact ⟨e.2, by simp only [solveDriverConstraints, htally, Except.bind]⟩
  | .ok (graph, inDegree) => exact absurd htally (tally_unknown he (by simp [hout]))

end Solving

/-- The script finds an order of the drivers exactly when there is one, and otherwise tells whether
a constraint names a driver that is not there. -/
theorem drivers_sorted {names : List α} (E : List (α × α)) (hnodup : names.Nodup) :
    (∀ l, solveDriverConstraints names E = .ok l → Arrangement names E l) ∧
      ∀ err, solveDriverConstraints names E = .error err →
        (∀ l, ¬ Arrangement names E l) ∧ (err = .impossible ↔ ∀ e ∈ E, e.2 ∈ names) := by
  by_cases hknown : ∀ e ∈ E, e.2 ∈ names
  · obtain ⟨s, hs, hempty, hsolve⟩ := solve_known hnodup hknown
    rw [hsolve]
    have hperm : s.ordered.length = names.length → s.ordered.Perm names := fun hlen =>
      (hs.subperm hempty).perm_of_length_le (by omega)
    split
    · next hlen =>
      refine ⟨fun l h => (nomatch h), fun err h => ?_⟩
      obtain rfl := Except.error.inj h
      refine ⟨fun l => no_arrangement hnodup (R := fun r => r ∉ s.ordered) ?_ (hs.stuck hempty) l,
        fun _ => hknown, fun _ => rfl⟩
      by_contra hnone
      push Not at hnone
      have hle := (hs.subperm hempty).length_le
      have hge := (hnodup.subperm hnone).length_le
      exact hlen (by omega)
    · next hlen =>
      refine ⟨fun l h => ?_, fun err h => nomatch h⟩
      obtain rfl := Except.ok.inj h
      have hperm := hperm (not_not.1 hlen)
      refine ⟨hperm, fun e he => ?_⟩
      have hin : e.2 ∈ s.ordered := hperm.mem_iff.2 (hknown e he)
      simpa [hempty] using hs.respects e he (by simp [hin])
  · push Not at hknown
    obtain ⟨e, he, hout⟩ := hknown
    obtain ⟨name, hsolve⟩ := solve_unknown he hout
    rw [hsolve]
    refine ⟨fun l h => (nomatch h), fun err h => ⟨fun l hl => ?_, ?_⟩⟩
    · exact hout (hl.perm.mem_iff.1 (snd_mem_of_pair_sublist (hl.respects e he)))
    · obtain rfl := Except.error.inj h
      exact ⟨fun h => (nomatch h), fun h => absurd (h e he) hout⟩

theorem sample_sorted : Arrangement ["usb_uhci.sys", "ps2.sys", "usb_ehci.sys"]
    [("usb_ehci.sys", "usb_uhci.sys")] ["ps2.sys", "usb_ehci.sys", "usb_uhci.sys"] :=
  (drivers_sorted [("usb_ehci.sys", "usb_uhci.sys")] (by decide)).1 _ (by decide)

end ReduceOS.DriverOrder
