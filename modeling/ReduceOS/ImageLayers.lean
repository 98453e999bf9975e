import Mathlib.Data.Option.Basic

/-!
Contents that are built in layers. A layer resets some places, which then hold something unknown,
and writes values to some. What is written stays if later layers write the same there, and no place
is reset for the last time by a layer behind which nothing is written to it.
-/
namespace ReduceOS.ImageLayers

variable {α β : Type*}

structure Layer (α β : Type*) where
  resets : α → Prop
  writes : α → Option β

/-- `m'` is what a layer may make of the contents `m`. -/
structure Lays (l : Layer α β) (m m' : α → Option β) : Prop where
  written : ∀ a b, l.writes a = some b → m' a = some b
  reset : ∀ a, l.writes a = none → l.resets a → (m' a).isSome
  kept : ∀ a, l.writes a = none → ¬ l.resets a → m' a = m a

inductive LaysAll : List (Layer α β) → (α → Option β) → (α → Option β) → Prop
  | nil (m : α → Option β) : LaysAll [] m m
  | cons {l : Layer α β} {ls : List (Layer α β)} {m m₁ m' : α → Option β} (hfirst : Lays l m m₁)
      (hrest : LaysAll ls m₁ m') : LaysAll (l :: ls) m m'

def Outlasts (a : α) (b : β) : List (Layer α β) → Prop
  | [] => True
  | l :: ls => (∀ b', l.writes a = some b' → b' = b) ∧
      (l.writes a = none → l.resets a → ∃ l' ∈ ls, l'.writes a = some b) ∧ Outlasts a b ls

def Lasting : List (Layer α β) → Prop
  | [] => True
  | l :: ls => (∀ a b, l.writes a = some b → Outlasts a b ls) ∧ Lasting ls

def Grounded (ground : α → Prop) : List (Layer α β) → Prop
  | [] => True
  | l :: ls => (∀ a b, l.writes a = some b → ground a ∨ l.resets a) ∧
      Grounded (fun a => ground a ∨ l.resets a) ls

variable {l : Layer α β} {ls : List (Layer α β)} {m m' : α → Option β} {a : α} {b : β}

theorem Grounded.mono {ground ground' : α → Prop} (h : Grounded ground ls)
    (hle : ∀ a, ground a → ground' a) : Grounded ground' ls := by
  induction ls generalizing ground ground' with
  | nil => trivial
  | cons l ls ih =>
    exact ⟨fun a b hb => (h.1 a b hb).imp_left (hle a), ih h.2 fun a => Or.imp_left (hle a)⟩

theorem Lays.isSome (h : Lays l m m') (ha : (m a).isSome ∨ l.resets a) : (m' a).isSome := by
  cases hw : l.writes a with
  | some b => rw [h.written a b hw]; rfl
  | none =>
    by_cases hr : l.resets a
    · exact h.reset a hw hr
    · rw [h.kept a hw hr]
      exact ha.resolve_right hr

/-- What is there, or is written once more, is there at the end. -/
theorem LaysAll.outlasts (h : LaysAll ls m m') (hout : Outlasts a b ls)
    (ha : m a = some b ∨ ∃ l ∈ ls, l.writes a = some b) : m' a = some b := by
  induction h with
  | nil m => simpa using ha
  | @cons l ls m m₁ m' hfirst hrest ih =>
    obtain ⟨hsame, hlater, hout⟩ := hout
    refine ih hout ?_
    cases hw : l.writes a with
    | some b' =>
      obtain rfl := hsame b' hw
      exact Or.inl (hfirst.written a b' hw)
    | none =>
      by_cases hr : l.resets a
      · exact Or.inr (hlater hw hr)
      · refine ha.imp (fun hm => (hfirst.kept a hw hr).trans hm) ?_
        rintro ⟨l', hl', hb⟩
        rcases List.mem_cons.mp hl' with rfl | hl'
        · rw [hw] at hb
          contradiction
        · exact ⟨l', hl', hb⟩

theorem LaysAll.lasting (h : LaysAll ls m m') (hlast : Lasting ls) (hl : l ∈ ls)
    (hb : l.writes a = some b) : m' a = some b := by
  induction h with
  | nil m => exact absurd hl List.not_mem_nil
  | @cons l' ls m m₁ m' hfirst hrest ih =>
    rcases List.mem_cons.mp hl with rfl | hl
    · exact hrest.outlasts (hlast.1 a b hb) (Or.inl (hfirst.written a b hb))
    · exact ih hlast.2 hl

end ReduceOS.ImageLayers
