import Mathlib.Data.Set.Card

/-!
Cells shared by slots under a reference count. A slot is empty, or holds a cell
either exclusively or as one of its sharers; a count of zero stands for no sharing,
so an exclusively held cell is not counted. `Exact` says that the counts are the
numbers of holders, and each operation of a copy-on-write scheme keeps it.
-/
namespace ReduceOS.Sharing

variable {S F : Type*}

abbrev Holding (S F : Type*) := S → Option (F × Bool)

def holders (m : Holding S F) (f : F) : Set S := {x | ∃ w, m x = some (f, w)}

def Held (m : Holding S F) (f : F) : Prop := ∃ x w, m x = some (f, w)

/-- Exclusive holders are alone and uncounted, shared cells are counted, and outside
`U` every nonzero count is the number of holders. -/
structure Exact (U : Set F) (m : Holding S F) (refs : F → ℕ) : Prop where
  exclusive : ∀ x f, m x = some (f, true) → refs f = 0 ∧ ∀ y w, m y = some (f, w) → y = x
  shared : ∀ x f, m x = some (f, false) → refs f ≠ 0
  count : ∀ f, f ∉ U → refs f ≠ 0 → (holders m f).ncard = refs f
  tracked : ∀ x f w, m x = some (f, w) → f ∉ U

theorem mem_holders {m : Holding S F} {f : F} {x : S} :
    x ∈ holders m f ↔ ∃ w, m x = some (f, w) := Iff.rfl

variable [DecidableEq S] {U : Set F} {m : Holding S F} {refs : F → ℕ} {x y : S} {f : F} {w : Bool}

theorem holders_update_ne {o : Option (F × Bool)} {g : F} (hold : ∀ w, m x ≠ some (g, w))
    (hnew : ∀ w, o ≠ some (g, w)) : holders (Function.update m x o) g = holders m g := by
  ext y
  rw [mem_holders, mem_holders]
  by_cases hy : y = x
  · subst hy
    rw [Function.update_self]
    constructor
    · rintro ⟨w, hw⟩
      exact absurd hw (hnew w)
    · rintro ⟨w, hw⟩
      exact absurd hw (hold w)
  · rw [Function.update_of_ne hy]

theorem holders_update_put (f : F) (w : Bool) :
    holders (Function.update m x (some (f, w))) f = insert x (holders m f) := by
  ext y
  rw [Set.mem_insert_iff, mem_holders, mem_holders]
  by_cases hy : y = x
  · subst hy
    simp
  · rw [Function.update_of_ne hy]
    simp [hy]

theorem holders_update_none : holders (Function.update m x none) f = holders m f \ {x} := by
  ext y
  rw [Set.mem_sdiff, Set.mem_singleton_iff, mem_holders, mem_holders]
  by_cases hy : y = x
  · subst hy
    simp
  · rw [Function.update_of_ne hy]
    simp [hy]

omit [DecidableEq S] in
theorem cell_unique {g : F} {w' : Bool} (hx : m x = some (f, w)) (hx' : m x = some (g, w')) :
    g = f := by
  rw [hx] at hx'
  exact (congrArg Prod.fst (Option.some.inj hx')).symm

section Held

variable {g : F} {o : Option (F × Bool)}

theorem held_update : Held (Function.update m x o) g ↔
    (∃ w, o = some (g, w)) ∨ ∃ y w, y ≠ x ∧ m y = some (g, w) := by
  constructor
  · rintro ⟨y, w, hy⟩
    by_cases hyx : y = x
    · subst hyx
      rw [Function.update_self] at hy
      exact Or.inl ⟨w, hy⟩
    · rw [Function.update_of_ne hyx] at hy
      exact Or.inr ⟨y, w, hyx, hy⟩
  · rintro (⟨w, hw⟩ | ⟨y, w, hyx, hy⟩)
    · exact ⟨x, w, by rw [Function.update_self, hw]⟩
    · exact ⟨y, w, by rw [Function.update_of_ne hyx, hy]⟩

theorem held_put (hx : m x = none) :
    Held (Function.update m x (some (f, w))) g ↔ g = f ∨ Held m g := by
  rw [held_update]
  constructor
  · rintro (⟨w', hw⟩ | ⟨y, w', -, hy⟩)
    · exact Or.inl (congrArg Prod.fst (Option.some.inj hw)).symm
    · exact Or.inr ⟨y, w', hy⟩
  · rintro (rfl | ⟨y, w', hy⟩)
    · exact Or.inl ⟨w, rfl⟩
    · refine Or.inr ⟨y, w', ?_, hy⟩
      rintro rfl
      rw [hx] at hy
      contradiction

theorem held_reput {w' : Bool} (hx : m x = some (f, w)) :
    Held (Function.update m x (some (f, w'))) g ↔ Held m g := by
  rw [held_update]
  constructor
  · rintro (⟨w'', hw⟩ | ⟨y, w'', -, hy⟩)
    · obtain rfl := congrArg Prod.fst (Option.some.inj hw)
      exact ⟨x, w, hx⟩
    · exact ⟨y, w'', hy⟩
  · rintro ⟨y, w'', hy⟩
    by_cases hyx : y = x
    · subst hyx
      obtain rfl := cell_unique hx hy
      exact Or.inl ⟨w', rfl⟩
    · exact Or.inr ⟨y, w'', hyx, hy⟩

theorem held_drop (hx : m x = some (f, w)) (halone : ∀ y w', m y = some (f, w') → y = x) :
    Held (Function.update m x none) g ↔ Held m g ∧ g ≠ f := by
  rw [held_update]
  constructor
  · rintro (⟨w', hw⟩ | ⟨y, w', hyx, hy⟩)
    · contradiction
    · refine ⟨⟨y, w', hy⟩, ?_⟩
      rintro rfl
      exact hyx (halone y w' hy)
  · rintro ⟨⟨y, w', hy⟩, hne⟩
    refine Or.inr ⟨y, w', ?_, hy⟩
    rintro rfl
    exact hne (cell_unique hx hy)

/-- A cell with another holder stays held when a slot lets go of it. -/
theorem held_update_other {y : S} {w' : Bool} (hx : m x = some (f, w)) (hyx : y ≠ x)
    (hy : m y = some (f, w')) :
    Held (Function.update m x o) g ↔ (∃ w, o = some (g, w)) ∨ Held m g := by
  rw [held_update]
  constructor
  · rintro (h | ⟨z, w'', -, hz⟩)
    · exact Or.inl h
    · exact Or.inr ⟨z, w'', hz⟩
  · rintro (h | ⟨z, w'', hz⟩)
    · exact Or.inl h
    · by_cases hzx : z = x
      · subst hzx
        obtain rfl := cell_unique hx hz
        exact Or.inr ⟨y, w', hyx, hy⟩
      · exact Or.inr ⟨z, w'', hzx, hz⟩

end Held

namespace Exact

variable [DecidableEq F]

/-- Where a slot gets a new content, the other slots decide. -/
private theorem of_update {o : Option (F × Bool)} {r : ℕ} (h : Exact U m refs)
    (hnew : ∀ g w, o = some (g, w) → g = f) (hold : ∀ g w, m x = some (g, w) → g = f)
    (hexcl : o = some (f, true) → r = 0 ∧ ∀ y w, y ≠ x → m y ≠ some (f, w))
    (hothers : ∀ y, y ≠ x → m y ≠ some (f, true))
    (hshared : (o = some (f, false) ∨ ∃ y, y ≠ x ∧ m y = some (f, false)) → r ≠ 0)
    (hcount : f ∉ U → r ≠ 0 → (holders (Function.update m x o) f).ncard = r)
    (htracked : ∀ w, o = some (f, w) → f ∉ U) :
    Exact U (Function.update m x o) (Function.update refs f r) := by
  have hoff : ∀ g, g ≠ f → holders (Function.update m x o) g = holders m g := by
    intro g hg
    apply holders_update_ne
    · intro w hw
      exact hg (hold g w hw)
    · intro w hw
      exact hg (hnew g w hw)
  refine ⟨?_, ?_, ?_, ?_⟩
  · intro y g hy
    by_cases hyx : y = x
    · subst hyx
      rw [Function.update_self] at hy
      obtain rfl := hnew g true hy
      obtain ⟨hr, halone⟩ := hexcl hy
      refine ⟨by rw [Function.update_self, hr], ?_⟩
      intro z w hz
      by_contra hzy
      rw [Function.update_of_ne hzy] at hz
      exact halone z w hzy hz
    · rw [Function.update_of_ne hyx] at hy
      obtain ⟨hzero, halone⟩ := h.exclusive y g hy
      by_cases hg : g = f
      · subst hg
        exact absurd hy (hothers y hyx)
      · refine ⟨by rwa [Function.update_of_ne hg], ?_⟩
        intro z w hz
        by_cases hzx : z = x
        · subst hzx
          rw [Function.update_self] at hz
          exact absurd (hnew g w hz) hg
        · rw [Function.update_of_ne hzx] at hz
          exact halone z w hz
  · intro y g hy
    by_cases hyx : y = x
    · subst hyx
      rw [Function.update_self] at hy
      obtain rfl := hnew g false hy
      rw [Function.update_self]
      exact hshared (Or.inl hy)
    · rw [Function.update_of_ne hyx] at hy
      by_cases hg : g = f
      · subst hg
        rw [Function.update_self]
        exact hshared (Or.inr ⟨y, hyx, hy⟩)
      · rw [Function.update_of_ne hg]
        exact h.shared y g hy
  · intro g hU hr
    by_cases hg : g = f
    · subst hg
      rw [Function.update_self] at hr ⊢
      exact hcount hU hr
    · rw [Function.update_of_ne hg] at hr ⊢
      rw [hoff g hg]
      exact h.count g hU hr
  · intro y g w hy
    by_cases hyx : y = x
    · subst hyx
      rw [Function.update_self] at hy
      obtain rfl := hnew g w hy
      exact htracked w hy
    · rw [Function.update_of_ne hyx] at hy
      exact h.tracked y g w hy

omit [DecidableEq S] [DecidableEq F] in
theorem not_exclusive (h : Exact U m refs) (hx : m x = some (f, false)) (y : S) :
    m y ≠ some (f, true) := by
  intro hy
  exact h.shared x f hx (h.exclusive y f hy).1

omit [DecidableEq S] [DecidableEq F] in
theorem last_holder (h : Exact U m refs) (hx : m x = some (f, false)) (hone : refs f = 1)
    (hy : m y = some (f, w)) : y = x := by
  have hcard := h.count f (h.tracked x f false hx) (by omega)
  rw [hone, Set.ncard_eq_one] at hcard
  obtain ⟨z, hz⟩ := hcard
  have hyz : y ∈ holders m f := ⟨w, hy⟩
  have hxz : x ∈ holders m f := ⟨false, hx⟩
  rw [hz] at hyz hxz
  exact hyz.trans hxz.symm

omit [DecidableEq S] [DecidableEq F] in
theorem other_holder (h : Exact U m refs) (hx : m x = some (f, false)) (hone : refs f ≠ 1) :
    ∃ y, y ≠ x ∧ m y = some (f, false) := by
  by_contra hnone
  have hsingle : holders m f = {x} := by
    ext y
    rw [mem_holders, Set.mem_singleton_iff]
    constructor
    · rintro ⟨w, hw⟩
      by_contra hyx
      cases w with
      | true => exact h.not_exclusive hx y hw
      | false => exact hnone ⟨y, hyx, hw⟩
    · rintro rfl
      exact ⟨false, hx⟩
  have hcard := h.count f (h.tracked x f false hx) (h.shared x f hx)
  rw [hsingle, Set.ncard_singleton] at hcard
  exact hone hcard.symm

theorem put (h : Exact U m refs) (hx : m x = none) (hfree : ∀ y w, m y ≠ some (f, w))
    (hrefs : refs f = 0) (hU : f ∉ U) : Exact U (Function.update m x (some (f, true))) refs := by
  have := h.of_update (x := x) (f := f) (o := some (f, true)) (r := refs f)
    (fun g w hg => (congrArg Prod.fst (Option.some.inj hg)).symm)
    (fun g w hg => by rw [hx] at hg; contradiction)
    (fun _ => ⟨hrefs, fun y w _ => hfree y w⟩) (fun y _ => hfree y true)
    (by
      rintro (hbad | ⟨y, -, hy⟩)
      · exact absurd hbad (by simp)
      · exact absurd hy (hfree y false))
    (fun _ hr => absurd hrefs hr) (fun _ _ => hU)
  rwa [Function.update_eq_self] at this

theorem demote (h : Exact U m refs) (hx : m x = some (f, true)) :
    Exact U (Function.update m x (some (f, false))) (Function.update refs f 1) := by
  obtain ⟨-, halone⟩ := h.exclusive x f hx
  apply h.of_update
  · intro g w hg
    exact (congrArg Prod.fst (Option.some.inj hg)).symm
  · intro g w hg
    exact cell_unique hx hg
  · intro hbad
    exact absurd hbad (by simp)
  · intro y hy hbad
    exact hy (halone y true hbad)
  · intro _
    exact Nat.one_ne_zero
  · intro _ _
    rw [holders_update_put, Set.ncard_eq_one]
    refine ⟨x, ?_⟩
    ext y
    rw [Set.mem_insert_iff, Set.mem_singleton_iff, mem_holders]
    constructor
    · rintro (rfl | ⟨w, hw⟩)
      · rfl
      · exact halone y w hw
    · exact Or.inl
  · intro _ _
    exact h.tracked x f true hx

theorem addRef [Finite S] (h : Exact U m refs) (hx : m x = some (f, false)) (hy : m y = none) :
    Exact U (Function.update m y (some (f, false))) (Function.update refs f (refs f + 1)) := by
  have hU := h.tracked x f false hx
  apply h.of_update
  · intro g w hg
    exact (congrArg Prod.fst (Option.some.inj hg)).symm
  · intro g w hg
    rw [hy] at hg
    contradiction
  · intro hbad
    exact absurd hbad (by simp)
  · intro z _
    exact h.not_exclusive hx z
  · intro _
    exact Nat.succ_ne_zero _
  · intro _ _
    have hnot : y ∉ holders m f := by
      rintro ⟨w, hw⟩
      rw [hy] at hw
      contradiction
    rw [holders_update_put, Set.ncard_insert_of_notMem hnot, h.count f hU (h.shared x f hx)]
  · intro _ _
    exact hU

theorem promote (h : Exact U m refs) (hx : m x = some (f, false)) (hone : refs f = 1) :
    Exact U (Function.update m x (some (f, true))) (Function.update refs f 0) := by
  apply h.of_update
  · intro g w hg
    exact (congrArg Prod.fst (Option.some.inj hg)).symm
  · intro g w hg
    exact cell_unique hx hg
  · intro _
    exact ⟨rfl, fun y w hne hy => hne (h.last_holder hx hone hy)⟩
  · intro y hne hy
    exact hne (h.last_holder hx hone hy)
  · rintro (hbad | ⟨y, hne, hy⟩)
    · exact absurd hbad (by simp)
    · exact absurd (h.last_holder hx hone hy) hne
  · intro _ hbad
    exact absurd rfl hbad
  · intro _ _
    exact h.tracked x f false hx

theorem drop (h : Exact U m refs) (hx : m x = some (f, true)) :
    Exact U (Function.update m x none) refs := by
  obtain ⟨hrefs, halone⟩ := h.exclusive x f hx
  have := h.of_update (x := x) (f := f) (o := none) (r := refs f)
    (fun g w hg => absurd hg.symm (Option.some_ne_none _)) (fun g w hg => cell_unique hx hg)
    (fun hbad => absurd hbad.symm (Option.some_ne_none _))
    (fun y hy hbad => hy (halone y true hbad))
    (by
      rintro (hbad | ⟨y, hy, hbad⟩)
      · exact absurd hbad.symm (Option.some_ne_none _)
      · exact absurd (halone y false hbad) hy)
    (fun _ hr => absurd hrefs hr) (fun w hbad => absurd hbad.symm (Option.some_ne_none _))
  rwa [Function.update_eq_self] at this

theorem dropRef (h : Exact U m refs) (hx : m x = some (f, false)) :
    Exact U (Function.update m x none) (Function.update refs f (refs f - 1)) := by
  have hU := h.tracked x f false hx
  have hcard := h.count f hU (h.shared x f hx)
  have hmem : x ∈ holders m f := ⟨false, hx⟩
  apply h.of_update
  · intro g w hg
    exact absurd hg.symm (Option.some_ne_none _)
  · intro g w hg
    exact cell_unique hx hg
  · intro hbad
    exact absurd hbad.symm (Option.some_ne_none _)
  · intro y _
    exact h.not_exclusive hx y
  · rintro (hbad | ⟨y, hne, hy⟩)
    · exact absurd hbad.symm (Option.some_ne_none _)
    · have hone : refs f ≠ 1 := fun hone => hne (h.last_holder hx hone hy)
      have := h.shared x f hx
      omega
  · intro _ _
    rw [holders_update_none, Set.ncard_sdiff_singleton_of_mem hmem, hcard]
  · intro w hbad
    exact absurd hbad.symm (Option.some_ne_none _)

end Exact

end ReduceOS.Sharing
