import Mathlib.Logic.Function.Basic
import ReduceOS.TraceRefinement

/-!
Threads that share a state behind one lock. A thread spins on a test-and-set until it has the lock,
then works on the state step by step and gives the lock back with an answer; the steps of all
threads interleave in any order. At most one thread is behind the lock, so the calls act as if each
ran through at once, in the order in which they give the lock back.
-/
namespace ReduceOS.LockedSections

open TraceRefinement

variable {ι κ ℓ ρ σ : Type*}

structure Body (κ ℓ ρ σ : Type*) where
  before : κ → σ → Option ρ
  enter : κ → ℓ
  step : ℓ → σ → (ℓ × σ) ⊕ ρ

inductive Phase (κ ℓ : Type*)
  | idle
  | waits (c : κ)
  | inside (c : κ) (l : ℓ)

def Phase.call : Phase κ ℓ → Option κ
  | .idle => none
  | .waits c | .inside c _ => some c

structure Config (ι κ ℓ σ : Type*) where
  phase : ι → Phase κ ℓ
  locked : Bool
  shared : σ

section Steps

variable [DecidableEq ι]

def Config.goto (c : Config ι κ ℓ σ) (i : ι) (p : Phase κ ℓ) : Config ι κ ℓ σ :=
  { c with phase := Function.update c.phase i p }

/-- One step of a thread, with the call that it answers, if it does. -/
inductive Step (B : Body κ ℓ ρ σ) (c : Config ι κ ℓ σ) :
    Option ((ι × κ) × ρ) → Config ι κ ℓ σ → Prop
  | answer {i : ι} {k : κ} {r : ρ} (hi : c.phase i = .idle) (hr : B.before k c.shared = some r) :
      Step B c (some ((i, k), r)) c
  | call {i : ι} {k : κ} (hi : c.phase i = .idle) (hr : B.before k c.shared = none) :
      Step B c none (c.goto i (.waits k))
  | spin {i : ι} {k : κ} (hi : c.phase i = .waits k) (hlocked : c.locked = true) : Step B c none c
  | acquire {i : ι} {k : κ} (hi : c.phase i = .waits k) (hfree : c.locked = false) :
      Step B c none { c.goto i (.inside k (B.enter k)) with locked := true }
  | work {i : ι} {k : κ} {l l' : ℓ} {s' : σ} (hi : c.phase i = .inside k l)
      (hs : B.step l c.shared = .inl (l', s')) :
      Step B c none { c.goto i (.inside k l') with shared := s' }
  | release {i : ι} {k : κ} {l : ℓ} {r : ρ} (hi : c.phase i = .inside k l)
      (hs : B.step l c.shared = .inr r) :
      Step B c (some ((i, k), r)) { c.goto i .idle with locked := false }

/-- The steps of all threads in any order, with the answers in the order they are given. -/
inductive Exec (B : Body κ ℓ ρ σ) (c : Config ι κ ℓ σ) :
    List ((ι × κ) × ρ) → Config ι κ ℓ σ → Prop
  | start : Exec B c [] c
  | step {tr : List ((ι × κ) × ρ)} {d e : Config ι κ ℓ σ} {o : Option ((ι × κ) × ρ)}
      (hexec : Exec B c tr d) (hstep : Step B d o e) : Exec B c (tr ++ o.toList) e

end Steps

inductive Body.Runs (B : Body κ ℓ ρ σ) : ℓ → σ → ρ → σ → Prop
  | last {l : ℓ} {s : σ} {r : ρ} (hs : B.step l s = .inr r) : Runs B l s r s
  | next {l l' : ℓ} {s s' t : σ} {r : ρ} (hs : B.step l s = .inl (l', s'))
      (hruns : Runs B l' s' r t) : Runs B l s r t

def Body.Keeps (B : Body κ ℓ ρ σ) (P : σ → Prop) : Prop :=
  ∀ l s l' s', B.step l s = .inl (l', s') → P s → P s'

def Body.Atomic (B : Body κ ℓ ρ σ) (P : σ → Prop) (s : σ) (c : ι × κ) (r : ρ) (s' : σ) : Prop :=
  (∃ t, P t ∧ B.before c.2 t = none) ∧ B.Runs (B.enter c.2) s r s' ∨
    s' = s ∧ ∃ t, P t ∧ B.before c.2 t = some r

def quiet (s : σ) : Config ι κ ℓ σ := ⟨fun _ => .idle, false, s⟩

inductive Stands (B : Body κ ℓ ρ σ) (c : Config ι κ ℓ σ) (m : σ) : Prop
  | free (hfree : c.locked = false) (hshared : c.shared = m)
      (hnone : ∀ i k l, c.phase i ≠ .inside k l)
  | held {i : ι} {k : κ} {l : ℓ} (hlocked : c.locked = true) (hi : c.phase i = .inside k l)
      (honly : ∀ j k' l', c.phase j = .inside k' l' → j = i)
      (hruns : ∀ r t, B.Runs l c.shared r t ↔ B.Runs (B.enter k) m r t)

section Runs

variable {B : Body κ ℓ ρ σ} {l l' : ℓ} {s s' t : σ} {r : ρ}

theorem Body.runs_next (hs : B.step l s = .inl (l', s')) :
    B.Runs l s r t ↔ B.Runs l' s' r t := by
  refine ⟨fun hruns => ?_, .next hs⟩
  cases hruns with
  | last hs' => exact absurd (hs.symm.trans hs') Sum.inl_ne_inr
  | next hs' hruns =>
    obtain ⟨rfl, rfl⟩ := Prod.mk.inj (Sum.inl.inj (hs.symm.trans hs'))
    exact hruns

theorem Body.runs_last {r' : ρ} (hs : B.step l s = .inr r') :
    B.Runs l s r t ↔ r = r' ∧ t = s := by
  constructor
  · intro hruns
    cases hruns with
    | last hs' => exact ⟨Sum.inr.inj (hs'.symm.trans hs), rfl⟩
    | next hs' => exact absurd (hs'.symm.trans hs) Sum.inl_ne_inr
  · rintro ⟨rfl, rfl⟩
    exact .last hs

theorem Body.Keeps.runs {P : σ → Prop} (hkeeps : B.Keeps P) (hruns : B.Runs l s r t) (hs : P s) :
    P t := by
  induction hruns with
  | last => exact hs
  | next hstep _ ih => exact ih (hkeeps _ _ _ _ hstep hs)

theorem Body.Keeps.atomic {P : σ → Prop} (hkeeps : B.Keeps P) {k : ι × κ}
    (hatomic : B.Atomic P s k r t) (hs : P s) : P t := by
  rcases hatomic with ⟨-, hruns⟩ | ⟨rfl, -⟩
  · exact hkeeps.runs hruns hs
  · exact hs

end Runs

section Stands

variable {B : Body κ ℓ ρ σ} {c : Config ι κ ℓ σ} {m : σ} {i : ι}

/-- A thread behind the lock is the only one there, on the way from the state that stands. -/
theorem Stands.inside (hc : Stands B c m) {k : κ} {l : ℓ} (hi : c.phase i = .inside k l) :
    c.locked = true ∧ (∀ j k' l', c.phase j = .inside k' l' → j = i) ∧
      ∀ r t, B.Runs l c.shared r t ↔ B.Runs (B.enter k) m r t := by
  cases hc with
  | free hfree hshared hnone => exact absurd hi (hnone i k l)
  | @held j k' l' hlocked hj honly hruns =>
    obtain rfl := honly i k l hi
    obtain ⟨rfl, rfl⟩ := Phase.inside.inj (hi.symm.trans hj)
    exact ⟨hlocked, honly, hruns⟩

theorem Stands.quiet (B : Body κ ℓ ρ σ) (s : σ) :
    Stands B (quiet s : Config ι κ ℓ σ) s :=
  .free rfl rfl fun _ _ _ => nofun

end Stands

section Refine

variable [DecidableEq ι] {B : Body κ ℓ ρ σ} {c d : Config ι κ ℓ σ} {m s : σ} {i j : ι}
  {tr : List ((ι × κ) × ρ)} {p : Phase κ ℓ} {o : Option ((ι × κ) × ρ)}
  {P : σ → Prop}

theorem goto_self (c : Config ι κ ℓ σ) (i : ι) (p : Phase κ ℓ) : (c.goto i p).phase i = p := by
  simp [Config.goto]

theorem goto_of_ne (c : Config ι κ ℓ σ) (p : Phase κ ℓ) (hne : j ≠ i) :
    (c.goto i p).phase j = c.phase j := by
  simp [Config.goto, hne]

structure Passed (B : Body κ ℓ ρ σ) (P : σ → Prop) (c : Config ι κ ℓ σ) : Prop where
  shared : P c.shared
  under : ∀ i k, (c.phase i).call = some k → ∃ t, P t ∧ B.before k t = none

theorem Passed.goto (hc : Passed B P c)
    (hp : ∀ k, p.call = some k → ∃ t, P t ∧ B.before k t = none) : Passed B P (c.goto i p) := by
  refine ⟨hc.shared, fun j k hj => ?_⟩
  by_cases hji : j = i
  · rw [hji, goto_self] at hj
    exact hp k hj
  · rw [goto_of_ne c p hji] at hj
    exact hc.under j k hj

theorem Passed.step (hkeeps : B.Keeps P) (hc : Passed B P c) (hstep : Step B c o d) :
    Passed B P d := by
  cases hstep with
  | answer => exact hc
  | call hi hr =>
    refine hc.goto fun k hk => ?_
    obtain rfl := Option.some.inj hk
    exact ⟨c.shared, hc.shared, hr⟩
  | spin => exact hc
  | @acquire i k hi =>
    have hcall : (c.phase i).call = some k := congrArg Phase.call hi
    have hgoto := hc.goto (i := i) (p := .inside k (B.enter k)) fun k' hk =>
      Option.some.inj hk ▸ hc.under i k hcall
    exact ⟨hgoto.shared, hgoto.under⟩
  | @work i k l l' s' hi hs =>
    have hcall : (c.phase i).call = some k := congrArg Phase.call hi
    have hgoto := hc.goto (i := i) (p := .inside k l') fun k' hk =>
      Option.some.inj hk ▸ hc.under i k hcall
    exact ⟨hkeeps l _ l' s' hs hc.shared, hgoto.under⟩
  | @release i k l r hi =>
    have hgoto := hc.goto (i := i) (p := .idle) fun k' hk => absurd hk.symm (Option.some_ne_none k')
    exact ⟨hgoto.shared, hgoto.under⟩

/-- Threads that go somewhere else than behind the lock change nothing there. -/
theorem Stands.goto (hc : Stands B c m) (hi : ∀ k l, c.phase i ≠ .inside k l)
    (hp : ∀ k l, p ≠ .inside k l) : Stands B (c.goto i p) m := by
  have hback : ∀ j k l, (c.goto i p).phase j = .inside k l → c.phase j = .inside k l := by
    intro j k l hj
    by_cases hji : j = i
    · rw [hji, goto_self] at hj
      exact absurd hj (hp k l)
    · rwa [goto_of_ne c p hji] at hj
  cases hc with
  | free hfree hshared hnone =>
    exact .free hfree hshared fun j k l hj => hnone j k l (hback j k l hj)
  | @held j k l hlocked hj honly hruns =>
    have hji : j ≠ i := fun heq => hi k l (heq ▸ hj)
    refine .held hlocked ((goto_of_ne c p hji).trans hj) (fun j' k' l' hj' => ?_) hruns
    exact honly j' k' l' (hback j' k' l' hj')

/-- A step that gives no answer leaves what stands; one that gives an answer is a whole call. -/
theorem Stands.step (hc : Stands B c m) (hpassed : Passed B P c) (hstep : Step B c o d) :
    match o with
    | none => Stands B d m
    | some (k, r) => ∃ m', B.Atomic P m k r m' ∧ Stands B d m' := by
  cases hstep with
  | answer hi hr => exact ⟨m, Or.inr ⟨rfl, c.shared, hpassed.shared, hr⟩, hc⟩
  | call hi hr =>
    refine hc.goto (fun k l hin => ?_) fun k l => nofun
    rw [hi] at hin
    nomatch hin
  | spin => exact hc
  | @acquire i k hi hfree =>
    cases hc with
    | held hlocked => exact absurd hlocked (by rw [hfree]; exact Bool.false_ne_true)
    | free _ hshared hnone =>
      refine .held rfl (goto_self c i _) (fun j k' l' hj => ?_) fun r t => ?_
      · by_contra hji
        change (c.goto i _).phase j = _ at hj
        rw [goto_of_ne c _ hji] at hj
        exact hnone j k' l' hj
      · rw [← hshared]
        exact Iff.rfl
  | @work i k l l' s' hi hs =>
    obtain ⟨hlocked, honly, hruns⟩ := hc.inside hi
    refine .held hlocked (goto_self c i _) (fun j k' l'' hj => ?_) fun r t => ?_
    · by_contra hji
      change (c.goto i _).phase j = _ at hj
      rw [goto_of_ne c _ hji] at hj
      exact hji (honly j k' l'' hj)
    · exact (Body.runs_next hs).symm.trans (hruns r t)
  | @release i k l r hi hs =>
    obtain ⟨-, honly, hruns⟩ := hc.inside hi
    have hcall : (c.phase i).call = some k := congrArg Phase.call hi
    refine ⟨c.shared, Or.inl ⟨hpassed.under i k hcall, (hruns r _).mp (.last hs)⟩,
      .free rfl rfl fun j k' l' hj => ?_⟩
    change (c.goto i .idle).phase j = _ at hj
    by_cases hji : j = i
    · rw [hji, goto_self] at hj
      nomatch hj
    · rw [goto_of_ne c _ hji] at hj
      exact hji (honly j k' l' hj)

theorem Exec.passed (hkeeps : B.Keeps P) (hs : P s)
    (hexec : Exec B (LockedSections.quiet s) tr c) : Passed B P c := by
  induction hexec with
  | start => exact ⟨hs, fun i k hk => absurd hk.symm (Option.some_ne_none k)⟩
  | step _ hstep ih => exact ih.step hkeeps hstep

/-- However the steps interleave, the answers are those of calls that run through at once, one
after the other. -/
theorem Exec.refines (hkeeps : B.Keeps P) (hs : P s)
    (hexec : Exec B (LockedSections.quiet s) tr c) :
    ∃ m, Run (B.Atomic P) s tr m ∧ Stands B c m := by
  induction hexec with
  | start => exact ⟨s, Run.start, Stands.quiet B s⟩
  | @step tr d e o hexec hstep ih =>
    obtain ⟨m, hrun, hstands⟩ := ih
    have hnext := hstands.step (hexec.passed hkeeps hs) hstep
    cases o with
    | none =>
      rw [Option.toList_none, List.append_nil]
      exact ⟨m, hrun, hnext⟩
    | some a =>
      obtain ⟨m', hatomic, hstands'⟩ := hnext
      exact ⟨m', hrun.call hatomic, hstands'⟩

theorem Exec.trans {tr' : List ((ι × κ) × ρ)} {e : Config ι κ ℓ σ} (hexec : Exec B c tr d)
    (hrest : Exec B d tr' e) : Exec B c (tr ++ tr') e := by
  induction hrest with
  | start =>
    rw [List.append_nil]
    exact hexec
  | step _ hstep ih =>
    rw [← List.append_assoc]
    exact ih.step hstep

/-- The thread that has the lock can come to its answer, if its work ends. -/
theorem Exec.finish {k : κ} {l : ℓ} {r : ρ} {t : σ} (hruns : B.Runs l s r t)
    (hi : c.phase i = .inside k l) (hs : c.shared = s) :
    ∃ d, Exec B c [((i, k), r)] d ∧ d.locked = false ∧ d.phase i = .idle ∧
      ∀ j ≠ i, d.phase j = c.phase j := by
  induction hruns generalizing c with
  | last hstep =>
    subst hs
    refine ⟨_, Exec.start.step (.release hi hstep), rfl, goto_self c i .idle, fun j hji => ?_⟩
    exact goto_of_ne c .idle hji
  | @next l l' s s' t r hstep _ ih =>
    subst hs
    obtain ⟨d, hexec, hfree, hidle, hothers⟩ :=
      ih (c := { c.goto i (.inside k l') with shared := s' }) (goto_self c i _) rfl
    refine ⟨d, (Exec.start.step (.work hi hstep)).trans hexec, hfree, hidle, fun j hji => ?_⟩
    exact (hothers j hji).trans (goto_of_ne c _ hji)

/-- If all work behind the lock ends, no thread is ever stuck: the others can go on so that its
call is answered. -/
theorem Exec.answered (hends : ∀ k s, ∃ r t, B.Runs (B.enter k) s r t)
    (hexec : Exec B (LockedSections.quiet s) tr c) {k : κ} (hi : c.phase i = .waits k) :
    ∃ tr' r d, Exec B c (tr' ++ [((i, k), r)]) d := by
  obtain ⟨m, -, hstands⟩ := hexec.refines (P := fun _ => True) (fun _ _ _ _ _ _ => trivial) trivial
  have hfree : ∀ c : Config ι κ ℓ σ, c.locked = false → c.phase i = .waits k →
      ∃ r d, Exec B c [((i, k), r)] d := by
    intro c hunlocked hi
    obtain ⟨r, t, hruns⟩ := hends k c.shared
    let c' : Config ι κ ℓ σ := { c.goto i (.inside k (B.enter k)) with locked := true }
    obtain ⟨d, hfinish, -⟩ := Exec.finish (c := c') hruns (goto_self c i _) rfl
    exact ⟨r, d, (Exec.start.step (.acquire hi hunlocked)).trans hfinish⟩
  cases hstands with
  | free hunlocked =>
    obtain ⟨r, d, hanswer⟩ := hfree c hunlocked hi
    exact ⟨[], r, d, hanswer⟩
  | @held j k' l' _ hj _ hruns =>
    obtain ⟨r', t, hwork⟩ := hends k' m
    have hji : i ≠ j := by
      rintro rfl
      rw [hi] at hj
      nomatch hj
    obtain ⟨d, hfinish, hunlocked, -, hothers⟩ := Exec.finish ((hruns r' t).mpr hwork) hj rfl
    obtain ⟨r, e, hanswer⟩ := hfree d hunlocked ((hothers i hji).trans hi)
    exact ⟨_, r, e, hfinish.trans hanswer⟩

end Refine

end ReduceOS.LockedSections
