import Mathlib.Logic.Function.Basic
import Mathlib.Algebra.Group.Nat.Defs

/-!
An allocator as its callers see it: blocks, each known by a pointer. A new block lies where no
other one is, and what a caller stores in a block stays in it until the caller gives it back.
-/
namespace ReduceOS.BlockStore

variable {β : Type*}

abbrev Store (β : Type*) := ℕ → Option (List β)

inductive Call (β : Type*)
  | malloc (size : ℕ)
  | calloc (count size : ℕ)
  | realloc (p size : ℕ)
  | free (p : ℕ)
  | store (p i : ℕ) (b : β)

structure New (align top : ℕ) (m : Store β) (p : ℕ) (contents : List β) : Prop where
  ne_zero : p ≠ 0
  aligned : align ∣ p
  below : p + contents.length ≤ top
  unused : m p = none
  apart : ∀ q c, m q = some c → p + contents.length ≤ q ∨ q + c.length ≤ p

/-- What a call may do. A request that is not met is answered with 0; a block of no bytes is lost if
it was to grow. -/
inductive Step (align top : ℕ) (zero : β) (m : Store β) : Call β → ℕ → Store β → Prop
  | malloc {p size : ℕ} {contents : List β} (hnew : New align top m p contents)
      (hsize : contents.length = size) :
      Step align top zero m (.malloc size) p (Function.update m p (some contents))
  | mallocNull {size : ℕ} : Step align top zero m (.malloc size) 0 m
  | calloc {p count size : ℕ} (hnew : New align top m p (List.replicate (count * size) zero)) :
      Step align top zero m (.calloc count size) p
        (Function.update m p (some (List.replicate (count * size) zero)))
  | callocNull {count size : ℕ} : Step align top zero m (.calloc count size) 0 m
  | free {p : ℕ} {contents : List β} (hp : m p = some contents) :
      Step align top zero m (.free p) 0 (Function.update m p none)
  | freeNull : Step align top zero m (.free 0) 0 m
  | reallocNone {p : ℕ} {contents : List β} (hp : m p = some contents) :
      Step align top zero m (.realloc p 0) 0 (Function.update m p none)
  | reallocNull {p size : ℕ} {contents : List β} (hnew : New align top m p contents)
      (hpos : 0 < size) (hsize : contents.length = size) :
      Step align top zero m (.realloc 0 size) p (Function.update m p (some contents))
  | reallocNullNull {size : ℕ} : Step align top zero m (.realloc 0 size) 0 m
  | reallocKeep {p size : ℕ} {contents : List β} (hp : m p = some contents) (hpos : 0 < size)
      (hsize : size ≤ contents.length) :
      Step align top zero m (.realloc p size) p (Function.update m p (some (contents.take size)))
  | reallocMove {p q size : ℕ} {contents more : List β} (hp : m p = some contents)
      (hnew : New align top m q (contents ++ more)) (hmore : more ≠ [])
      (hsize : (contents ++ more).length = size) :
      Step align top zero m (.realloc p size) q
        (Function.update (Function.update m p none) q (some (contents ++ more)))
  | reallocLost {p size : ℕ} (hp : m p = some []) :
      Step align top zero m (.realloc p size) 0 (Function.update m p none)
  | store {p i : ℕ} {b : β} {contents : List β} (hp : m p = some contents)
      (hi : i < contents.length) :
      Step align top zero m (.store p i b) 0 (Function.update m p (some (contents.set i b)))

def sizes (m : Store β) : ℕ → Option ℕ := fun p => (m p).map List.length

def told (live : ℕ → Option ℕ) : Call β → ℕ → ℕ → Option ℕ
  | .malloc size, r => if r = 0 then live else Function.update live r (some size)
  | .calloc count size, r => if r = 0 then live else Function.update live r (some (count * size))
  | .free p, _ => Function.update live p none
  | .realloc p size, r =>
    if r = 0 then Function.update live p none
    else Function.update (Function.update live p none) r (some size)
  | .store _ _ _, _ => live

structure Placed (align top : ℕ) (m : Store β) : Prop where
  ne_zero : ∀ p c, m p = some c → p ≠ 0
  aligned : ∀ p c, m p = some c → align ∣ p
  below : ∀ p c, m p = some c → p + c.length ≤ top
  apart : ∀ p c q d, m p = some c → m q = some d → p ≠ q → p + c.length ≤ q ∨ q + d.length ≤ p

variable {align top : ℕ} {zero : β} {m m' : Store β} {c : Call β} {r p q : ℕ}
  {contents : List β}

theorem sizes_update (p : ℕ) (o : Option (List β)) :
    sizes (Function.update m p o) = Function.update (sizes m) p (o.map List.length) := by
  funext q
  unfold sizes
  by_cases hq : q = p
  · subst hq
    simp
  · simp [hq]

theorem Placed.sizes_zero (h : Placed align top m) : sizes m 0 = none := by
  unfold sizes
  cases hzero : m 0 with
  | none => rfl
  | some c => exact absurd rfl (h.ne_zero 0 c hzero)

theorem Placed.empty : Placed align top (fun _ => none : Store β) where
  ne_zero _ _ h := absurd h (Option.some_ne_none _).symm
  aligned _ _ h := absurd h (Option.some_ne_none _).symm
  below _ _ h := absurd h (Option.some_ne_none _).symm
  apart _ _ _ _ h := absurd h (Option.some_ne_none _).symm

/-- A block is taken out, or made smaller in its place. -/
theorem Placed.shrink (h : Placed align top m) (hp : m p = some contents) {o : Option (List β)}
    (hlen : ∀ c, o = some c → c.length ≤ contents.length) :
    Placed align top (Function.update m p o) := by
  have hshort : ∀ q c, Function.update m p o q = some c →
      ∃ d, m q = some d ∧ c.length ≤ d.length := by
    intro q c hq
    by_cases hqp : q = p
    · subst hqp
      rw [Function.update_self] at hq
      exact ⟨contents, hp, hlen c hq⟩
    · rw [Function.update_of_ne hqp] at hq
      exact ⟨c, hq, Nat.le_refl _⟩
  refine ⟨fun q c hq => ?_, fun q c hq => ?_, fun q c hq => ?_, fun q c q' c' hq hq' hne => ?_⟩
  · obtain ⟨d, hd, -⟩ := hshort q c hq
    exact h.ne_zero q d hd
  · obtain ⟨d, hd, -⟩ := hshort q c hq
    exact h.aligned q d hd
  · obtain ⟨d, hd, hle⟩ := hshort q c hq
    have := h.below q d hd
    omega
  · obtain ⟨d, hd, hle⟩ := hshort q c hq
    obtain ⟨d', hd', hle'⟩ := hshort q' c' hq'
    have := h.apart q d q' d' hd hd' hne
    omega

theorem Placed.add (h : Placed align top m) (hnew : New align top m p contents) :
    Placed align top (Function.update m p (some contents)) := by
  have hcases : ∀ q c, Function.update m p (some contents) q = some c →
      q = p ∧ c = contents ∨ q ≠ p ∧ m q = some c := by
    intro q c hq
    by_cases hqp : q = p
    · subst hqp
      rw [Function.update_self] at hq
      exact Or.inl ⟨rfl, (Option.some.inj hq).symm⟩
    · rw [Function.update_of_ne hqp] at hq
      exact Or.inr ⟨hqp, hq⟩
  refine ⟨fun q c hq => ?_, fun q c hq => ?_, fun q c hq => ?_, fun q c q' c' hq hq' hne => ?_⟩
  · rcases hcases q c hq with ⟨rfl, rfl⟩ | ⟨-, hold⟩
    · exact hnew.ne_zero
    · exact h.ne_zero q c hold
  · rcases hcases q c hq with ⟨rfl, rfl⟩ | ⟨-, hold⟩
    · exact hnew.aligned
    · exact h.aligned q c hold
  · rcases hcases q c hq with ⟨rfl, rfl⟩ | ⟨-, hold⟩
    · exact hnew.below
    · exact h.below q c hold
  · rcases hcases q c hq with ⟨rfl, rfl⟩ | ⟨-, hold⟩
    · rcases hcases q' c' hq' with ⟨rfl, rfl⟩ | ⟨-, hold'⟩
      · exact absurd rfl hne
      · exact hnew.apart q' c' hold'
    · rcases hcases q' c' hq' with ⟨rfl, rfl⟩ | ⟨-, hold'⟩
      · exact (hnew.apart q c hold).symm
      · exact h.apart q c q' c' hold hold' hne

theorem New.without (hnew : New align top m q contents) :
    New align top (Function.update m p none) q contents := by
  have hcases : ∀ x c, Function.update m p none x = some c → m x = some c := by
    intro x c hx
    by_cases hxp : x = p
    · subst hxp
      rw [Function.update_self] at hx
      exact absurd hx (Option.some_ne_none c).symm
    · rwa [Function.update_of_ne hxp] at hx
  refine ⟨hnew.ne_zero, hnew.aligned, hnew.below, ?_, fun x c hx => hnew.apart x c (hcases x c hx)⟩
  by_cases hqp : q = p
  · subst hqp
    rw [Function.update_self]
  · rw [Function.update_of_ne hqp]
    exact hnew.unused

theorem Step.placed (hstep : Step align top zero m c r m') (h : Placed align top m) :
    Placed align top m' := by
  cases hstep with
  | malloc hnew => exact h.add hnew
  | mallocNull => exact h
  | calloc hnew => exact h.add hnew
  | callocNull => exact h
  | free hp => exact h.shrink hp (fun c hc => absurd hc (Option.some_ne_none c).symm)
  | freeNull => exact h
  | reallocNone hp => exact h.shrink hp (fun c hc => absurd hc (Option.some_ne_none c).symm)
  | reallocNull hnew => exact h.add hnew
  | reallocNullNull => exact h
  | reallocLost hp => exact h.shrink hp (fun c hc => absurd hc (Option.some_ne_none c).symm)
  | reallocKeep hp hpos hsize =>
    refine h.shrink hp fun c hc => ?_
    rw [← Option.some.inj hc, List.length_take]
    exact Nat.min_le_right _ _
  | reallocMove hp hnew =>
    exact (h.shrink hp (fun c hc => absurd hc (Option.some_ne_none c).symm)).add hnew.without
  | store hp hi =>
    refine h.shrink hp fun c hc => ?_
    rw [← Option.some.inj hc]
    exact Nat.le_of_eq List.length_set

/-- A caller can tell the sizes of the blocks from the answers. -/
theorem Step.sizes_eq (hstep : Step align top zero m c r m') (h : Placed align top m) :
    sizes m' = told (sizes m) c r := by
  have hnull : Function.update (sizes m) 0 none = sizes m := by
    rw [← h.sizes_zero]
    exact Function.update_eq_self 0 _
  cases hstep with
  | malloc hnew hsize =>
    rw [told, if_neg hnew.ne_zero, sizes_update, Option.map_some, hsize]
  | mallocNull => rw [told, if_pos rfl]
  | calloc hnew => rw [told, if_neg hnew.ne_zero, sizes_update, Option.map_some,
      List.length_replicate]
  | callocNull => rw [told, if_pos rfl]
  | free hp => rw [told, sizes_update, Option.map_none]
  | freeNull => rw [told, hnull]
  | reallocNone hp => rw [told, if_pos rfl, sizes_update, Option.map_none]
  | reallocNull hnew hpos hsize =>
    rw [told, if_neg hnew.ne_zero, hnull, sizes_update, Option.map_some, hsize]
  | reallocNullNull =>
    rw [told, hnull, if_pos rfl]
  | reallocLost hp => rw [told, if_pos rfl, sizes_update, Option.map_none]
  | reallocKeep hp hpos hsize =>
    rw [told, if_neg (h.ne_zero _ _ hp), sizes_update, Option.map_some, List.length_take,
      Nat.min_eq_left hsize, Function.update_idem]
  | reallocMove hp hnew hmore hsize =>
    rw [told, if_neg hnew.ne_zero, sizes_update, sizes_update, Option.map_some, Option.map_none,
      hsize]
  | @store p i b contents hp hi =>
    rw [told, sizes_update, Option.map_some, List.length_set]
    have hself : sizes m p = some contents.length := by
      unfold sizes
      rw [hp]
      rfl
    rw [← hself]
    exact Function.update_eq_self p _

def Call.target : Call β → Option ℕ
  | .malloc _ | .calloc _ _ => none
  | .realloc p _ | .free p | .store p _ _ => some p

/-- A block that a call is not about stays as it is. -/
theorem Step.kept (hstep : Step align top zero m c r m') (hq : m q = some contents)
    (hnot : c.target ≠ some q) : m' q = some contents := by
  have hnew : ∀ {p : ℕ} {d : List β}, New align top m p d →
      Function.update m p (some d) q = some contents := by
    intro p d hnew
    have hne : q ≠ p := by
      rintro rfl
      rw [hnew.unused] at hq
      exact Option.some_ne_none contents hq.symm
    rwa [Function.update_of_ne hne]
  have hother : ∀ {p : ℕ} (o : Option (List β)), some p ≠ some q →
      Function.update m p o q = some contents := by
    intro p o hpq
    have hne : q ≠ p := fun heq => hpq (congrArg some heq.symm)
    rwa [Function.update_of_ne hne]
  cases hstep with
  | malloc h => exact hnew h
  | mallocNull => exact hq
  | calloc h => exact hnew h
  | callocNull => exact hq
  | free hp => exact hother none hnot
  | freeNull => exact hq
  | reallocNone hp => exact hother none hnot
  | reallocNull h => exact hnew h
  | reallocNullNull => exact hq
  | reallocLost hp => exact hother none hnot
  | reallocKeep hp => exact hother _ hnot
  | reallocMove hp h =>
    have hne : q ≠ r := by
      rintro rfl
      rw [h.unused] at hq
      exact Option.some_ne_none contents hq.symm
    rw [Function.update_of_ne hne]
    exact hother none hnot
  | store hp => exact hother _ hnot

end ReduceOS.BlockStore
