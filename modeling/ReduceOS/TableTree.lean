import Mathlib.Data.List.Infix
import Mathlib.Data.Set.Basic

/-!
Trees of tables in an indexed memory. A table sits in a cell `f : F` and has one
entry per index; an entry leads to the next table, or nowhere. Tables are named by
the root they are reached from and the indices taken. When the cells reached
from the positions of interest are pairwise distinct, changing one entry changes
only the walks that pass through it.
-/
namespace ReduceOS.TableTree

variable {F I E : Type*}

/-- Follow a list of indices from table `f`; `d` is the depth of `f`. -/
def walk (next : ℕ → E → Option F) (mem : F → I → E) : ℕ → F → List I → Option F
  | _, f, [] => some f
  | d, f, i :: p => (next d (mem f i)).bind fun g => walk next mem (d + 1) g p

variable {next : ℕ → E → Option F} {mem mem' : F → I → E}

@[simp] theorem walk_nil (d : ℕ) (f : F) : walk next mem d f [] = some f := rfl

theorem walk_cons (d : ℕ) (f : F) (i : I) (p : List I) :
    walk next mem d f (i :: p) = (next d (mem f i)).bind fun g => walk next mem (d + 1) g p := rfl

theorem walk_append (d : ℕ) (f : F) (p q : List I) :
    walk next mem d f (p ++ q) =
      (walk next mem d f p).bind fun g => walk next mem (d + p.length) g q := by
  induction p generalizing d f with
  | nil => simp
  | cons i p ih =>
    rw [List.cons_append, walk_cons, walk_cons, Option.bind_assoc]
    congr 1
    funext g
    rw [ih (d + 1) g, List.length_cons, show d + 1 + p.length = d + (p.length + 1) by omega]

theorem walk_concat (d : ℕ) (f : F) (p : List I) (i : I) :
    walk next mem d f (p ++ [i]) =
      (walk next mem d f p).bind fun g => next (d + p.length) (mem g i) := by
  rw [walk_append]
  congr 1
  funext g
  simp [walk_cons]

theorem walk_of_prefix {d : ℕ} {f g : F} {p q : List I} (h : walk next mem d f (p ++ q) = some g) :
    ∃ f', walk next mem d f p = some f' := by
  rw [walk_append] at h
  obtain ⟨f', hf', -⟩ := Option.bind_eq_some_iff.mp h
  exact ⟨f', hf'⟩

/-- A walk only depends on where the entries along it lead. -/
theorem walk_congr {next' : ℕ → E → Option F} (d : ℕ) (f : F) (p : List I)
    (h : ∀ q i, q ++ [i] <+: p → ∀ g, walk next mem d f q = some g →
      next' (d + q.length) (mem' g i) = next (d + q.length) (mem g i)) :
    walk next' mem' d f p = walk next mem d f p := by
  induction p generalizing d f with
  | nil => rfl
  | cons i p ih =>
    have hhead := h [] i (by simp) f rfl
    simp only [List.length_nil, Nat.add_zero] at hhead
    rw [walk_cons, walk_cons, hhead]
    cases hnext : next d (mem f i) with
    | none => rfl
    | some g =>
      apply ih
      intro q j hq g' hg'
      have hwalk : walk next mem d f (i :: q) = some g' := by
        rw [walk_cons, hnext]
        exact hg'
      have hstep := h (i :: q) j (by simpa using hq) g' hwalk
      rwa [List.length_cons, show d + (q.length + 1) = d + 1 + q.length by omega] at hstep

structure Domain (F I : Type*) where
  carrier : F → List I → Prop
  closed : ∀ r p q, carrier r (p ++ q) → carrier r p

namespace Domain

theorem ext {D D' : Domain F I} (h : ∀ r p, D.carrier r p ↔ D'.carrier r p) : D = D' := by
  obtain ⟨c, hc⟩ := D
  obtain ⟨c', hc'⟩ := D'
  obtain rfl : c = c' := funext fun r => funext fun p => propext (h r p)
  rfl

def without (D : Domain F I) (r : F) (p : List I) : Domain F I where
  carrier r' q := D.carrier r' q ∧ ¬ (r' = r ∧ p <+: q)
  closed r' q q' h :=
    ⟨D.closed r' q q' h.1, fun hbad => h.2 ⟨hbad.1, hbad.2.trans (List.prefix_append q q')⟩⟩

/-- The domain less what lies below entries `l` of the table at a position. -/
def withoutEntries (D : Domain F I) (r : F) (p : List I) (l : List I) : Domain F I where
  carrier r' q := D.carrier r' q ∧ ∀ i ∈ l, ¬ (r' = r ∧ p ++ [i] <+: q)
  closed r' q q' h :=
    ⟨D.closed r' q q' h.1, fun i hi hbad =>
      h.2 i hi ⟨hbad.1, hbad.2.trans (List.prefix_append q q')⟩⟩

def below (D : Domain F I) (r : F) (p : List I) : Domain F I where
  carrier r' q := D.carrier r' q ∧ ∀ i, ¬ (r' = r ∧ p ++ [i] <+: q)
  closed r' q q' h :=
    ⟨D.closed r' q q' h.1, fun i hbad =>
      h.2 i ⟨hbad.1, hbad.2.trans (List.prefix_append q q')⟩⟩

@[simp] theorem withoutEntries_nil (D : Domain F I) (r : F) (p : List I) :
    D.withoutEntries r p [] = D := by
  apply ext
  intro r' q
  simp [withoutEntries]

theorem withoutEntries_concat (D : Domain F I) (r : F) (p l : List I) (i : I) :
    D.withoutEntries r p (l ++ [i]) = (D.withoutEntries r p l).without r (p ++ [i]) := by
  apply ext
  intro r' q
  simp only [withoutEntries, without, List.mem_append, List.mem_singleton]
  constructor
  · rintro ⟨hD, h⟩
    exact ⟨⟨hD, fun j hj => h j (Or.inl hj)⟩, h i (Or.inr rfl)⟩
  · rintro ⟨⟨hD, h⟩, hi⟩
    refine ⟨hD, fun j hj => ?_⟩
    rcases hj with hj | rfl
    · exact h j hj
    · exact hi

theorem below_without (D : Domain F I) (r : F) (p : List I) :
    (D.below r p).without r p = D.without r p := by
  apply ext
  intro r' q
  simp only [below, without]
  constructor
  · rintro ⟨⟨hD, -⟩, h⟩
    exact ⟨hD, h⟩
  · rintro ⟨hD, h⟩
    exact ⟨⟨hD, fun i hbad => h ⟨hbad.1, (List.prefix_append p [i]).trans hbad.2⟩⟩, h⟩

end Domain

variable (D : Domain F I)

abbrev tableAt (next : ℕ → E → Option F) (mem : F → I → E) (r : F) (p : List I) : Option F :=
  walk next mem 0 r p

def Tree (next : ℕ → E → Option F) (mem : F → I → E) : Prop :=
  ∀ r p r' p' g, D.carrier r p → D.carrier r' p' → tableAt next mem r p = some g →
    tableAt next mem r' p' = some g → r = r' ∧ p = p'

def IsTable (next : ℕ → E → Option F) (mem : F → I → E) (g : F) : Prop :=
  ∃ r p, D.carrier r p ∧ tableAt next mem r p = some g

variable {D}

theorem Tree.of_eq (hT : Tree D next mem)
    (heq : ∀ r p, D.carrier r p → tableAt next mem' r p = tableAt next mem r p) :
    Tree D next mem' := by
  intro r p r' p' g hp hp' hg hg'
  rw [heq r p hp] at hg
  rw [heq r' p' hp'] at hg'
  exact hT r p r' p' g hp hp' hg hg'

/-- The entries the walks of the domain read are the same in `mem'`. -/
def Agree (D : Domain F I) (next : ℕ → E → Option F) (mem mem' : F → I → E) : Prop :=
  ∀ r p i g, D.carrier r (p ++ [i]) → tableAt next mem r p = some g →
    next p.length (mem' g i) = next p.length (mem g i)

theorem Agree.tableAt (h : Agree D next mem mem') {r : F} {p : List I} (hp : D.carrier r p) :
    TableTree.tableAt next mem' r p = TableTree.tableAt next mem r p := by
  apply walk_congr
  rintro q i ⟨q', rfl⟩ g hg
  simpa using h r q i g (D.closed r (q ++ [i]) q' hp) hg

/-- `mem'` is `mem` with at most entry `i` of the table at `(r₀, p₀)` changed, as
far as tables are concerned; that table is cell `g`. -/
structure EntryChange (D : Domain F I) (next : ℕ → E → Option F) (mem mem' : F → I → E)
    (r₀ : F) (p₀ : List I) (g : F) (i : I) : Prop where
  tree : Tree D next mem
  position : D.carrier r₀ p₀
  cell : tableAt next mem r₀ p₀ = some g
  agree : ∀ g' j, IsTable D next mem g' → (g' ≠ g ∨ j ≠ i) → mem' g' j = mem g' j

/-- Where a table has an entry leading nowhere, no walk continues. -/
theorem tableAt_none_of_next {r₀ : F} {p₀ : List I} {g : F} {i : I}
    (hg : tableAt next mem r₀ p₀ = some g) (hnone : next p₀.length (mem g i) = none)
    (q : List I) : tableAt next mem r₀ (p₀ ++ [i] ++ q) = none := by
  have hg' : walk next mem 0 r₀ p₀ = some g := hg
  unfold tableAt
  rw [List.append_assoc, walk_append, hg', Option.bind_some, List.cons_append, walk_cons,
    Nat.zero_add, hnone]
  rfl

namespace EntryChange

variable {r₀ : F} {p₀ : List I} {g : F} {i : I}

/-- A walk changes only if it goes through the changed entry. -/
theorem off (c : EntryChange D next mem mem' r₀ p₀ g i) {r : F} {p : List I}
    (hp : D.carrier r p) (hoff : ¬ (r = r₀ ∧ p₀ ++ [i] <+: p)) :
    tableAt next mem' r p = tableAt next mem r p := by
  apply walk_congr
  intro q j hq g' hg'
  obtain ⟨q', hq'⟩ := hq
  have hDq : D.carrier r q := D.closed r q ([j] ++ q') (by rw [← List.append_assoc, hq']; exact hp)
  by_cases hsame : g' = g ∧ j = i
  · obtain ⟨rfl, rfl⟩ := hsame
    obtain ⟨rfl, rfl⟩ := c.tree r q r₀ p₀ g' hDq c.position hg' c.cell
    exact absurd ⟨rfl, q', hq'⟩ hoff
  · rw [c.agree g' j ⟨r, q, hDq, hg'⟩ (by tauto)]

/-- An entry that keeps leading to the same place keeps every walk. -/
theorem same (c : EntryChange D next mem mem' r₀ p₀ g i)
    (hnext : next p₀.length (mem' g i) = next p₀.length (mem g i))
    {r : F} {p : List I} (hp : D.carrier r p) :
    tableAt next mem' r p = tableAt next mem r p := by
  apply walk_congr
  intro q j hq g' hg'
  obtain ⟨q', hq'⟩ := hq
  have hDq : D.carrier r q := D.closed r q ([j] ++ q') (by rw [← List.append_assoc, hq']; exact hp)
  by_cases hsame : g' = g ∧ j = i
  · obtain ⟨rfl, rfl⟩ := hsame
    obtain ⟨rfl, rfl⟩ := c.tree r q r₀ p₀ g' hDq c.position hg' c.cell
    simpa using hnext
  · rw [c.agree g' j ⟨r, q, hDq, hg'⟩ (by tauto)]

theorem self (c : EntryChange D next mem mem' r₀ p₀ g i) : tableAt next mem' r₀ p₀ = some g := by
  rw [c.off c.position, c.cell]
  rintro ⟨-, q, hq⟩
  have hlen := congrArg List.length hq
  simp only [List.length_append, List.length_cons, List.length_nil] at hlen
  omega

theorem linked (c : EntryChange D next mem mem' r₀ p₀ g i) {h : F}
    (hnext : next p₀.length (mem' g i) = some h) : tableAt next mem' r₀ (p₀ ++ [i]) = some h := by
  have hself : walk next mem' 0 r₀ p₀ = some g := c.self
  unfold tableAt
  rw [walk_concat, hself, Option.bind_some, Nat.zero_add, hnext]

/-- An entry that led nowhere and now leads to a blank table adds one position
and changes no other. -/
theorem link_off (c : EntryChange D next mem mem' r₀ p₀ g i) {h : F}
    (hnext : next p₀.length (mem' g i) = some h) (hold : next p₀.length (mem g i) = none)
    (hblank : ∀ d j, next d (mem' h j) = none) {r : F} {p : List I} (hp : D.carrier r p)
    (hne : ¬ (r = r₀ ∧ p = p₀ ++ [i])) : tableAt next mem' r p = tableAt next mem r p := by
  by_cases hthrough : r = r₀ ∧ p₀ ++ [i] <+: p
  · obtain ⟨rfl, q, rfl⟩ := hthrough
    rw [tableAt_none_of_next c.cell hold q]
    cases q with
    | nil => exact absurd ⟨rfl, by simp⟩ hne
    | cons j q =>
      rw [show p₀ ++ [i] ++ j :: q = p₀ ++ [i] ++ [j] ++ q by simp]
      exact tableAt_none_of_next (c.linked hnext) (hblank _ j) q
  · exact c.off hp hthrough

/-- After linking, a position leads where it led before, or is the new one. -/
theorem link_back (c : EntryChange D next mem mem' r₀ p₀ g i) {h : F}
    (hnext : next p₀.length (mem' g i) = some h) (hold : next p₀.length (mem g i) = none)
    (hblank : ∀ d j, next d (mem' h j) = none) {r f : F} {p : List I} (hp : D.carrier r p)
    (hf : tableAt next mem' r p = some f) :
    (r = r₀ ∧ p = p₀ ++ [i] ∧ f = h) ∨ tableAt next mem r p = some f := by
  by_cases heq : r = r₀ ∧ p = p₀ ++ [i]
  · obtain ⟨rfl, rfl⟩ := heq
    rw [c.linked hnext] at hf
    exact Or.inl ⟨rfl, rfl, (Option.some.inj hf).symm⟩
  · rw [c.link_off hnext hold hblank hp heq] at hf
    exact Or.inr hf

theorem tree_link (c : EntryChange D next mem mem' r₀ p₀ g i) {h : F}
    (hnext : next p₀.length (mem' g i) = some h) (hold : next p₀.length (mem g i) = none)
    (hblank : ∀ d j, next d (mem' h j) = none) (hfresh : ¬ IsTable D next mem h) :
    Tree D next mem' := by
  intro r p r' p' f hp hp' hf hf'
  rcases c.link_back hnext hold hblank hp hf with ⟨hr, hp₁, hf₁⟩ | hf₁
  · rcases c.link_back hnext hold hblank hp' hf' with ⟨hr', hp₂, -⟩ | hf₂
    · exact ⟨hr.trans hr'.symm, hp₁.trans hp₂.symm⟩
    · exact absurd ⟨r', p', hp', hf₁ ▸ hf₂⟩ hfresh
  · rcases c.link_back hnext hold hblank hp' hf' with ⟨-, -, hf₂⟩ | hf₂
    · exact absurd ⟨r, p, hp, hf₂ ▸ hf₁⟩ hfresh
    · exact c.tree r p r' p' f hp hp' hf₁ hf₂

end EntryChange

def Layered (next : ℕ → E → Option F) (mem : F → I → E) (r : F) : Prop :=
  ∀ p q g, tableAt next mem r p = some g → tableAt next mem r q = some g → p.length = q.length

/-- `mem'` is `mem` with an entry that led nowhere now leading to the blank cell `h`, which
was not in the tables of `r`, or still nowhere. -/
structure Grow (next : ℕ → E → Option F) (mem mem' : F → I → E) (r g : F) (i : I) (h : F) :
    Prop where
  fresh : ∀ p, tableAt next mem r p ≠ some h
  old : ∀ d, next d (mem g i) = none
  new : ∀ d f, next d (mem' g i) = some f → f = h
  blank : ∀ d j, next d (mem' h j) = none
  agree : ∀ f j, f ≠ h → f ≠ g ∨ j ≠ i → mem' f j = mem f j

namespace Grow

variable {r g h : F} {i : I}

theorem keep (c : Grow next mem mem' r g i h) {p : List I} {f : F}
    (hf : tableAt next mem r p = some f) : tableAt next mem' r p = some f := by
  rw [← hf]
  apply walk_congr
  rintro q j ⟨q', rfl⟩ f' hf'
  by_cases hsame : f' = g ∧ j = i
  · obtain ⟨rfl, rfl⟩ := hsame
    rw [tableAt_none_of_next hf' (c.old _) q'] at hf
    contradiction
  · rw [c.agree f' j (fun heq => c.fresh q (heq ▸ hf')) (by tauto)]

/-- A walk in `mem'` is one of `mem`, or ends at the new table. -/
theorem back (c : Grow next mem mem' r g i h) {p : List I} {f : F}
    (hf : tableAt next mem' r p = some f) :
    tableAt next mem r p = some f ∨ f = h ∧ ∃ q, p = q ++ [i] ∧ tableAt next mem r q = some g := by
  induction p using List.reverseRecOn generalizing f with
  | nil => exact Or.inl hf
  | append_singleton q j ih =>
    unfold tableAt at hf ih ⊢
    rw [walk_concat] at hf
    obtain ⟨f', hf', hnext⟩ := Option.bind_eq_some_iff.mp hf
    rcases ih hf' with hold | ⟨rfl, -⟩
    · by_cases hsame : f' = g ∧ j = i
      · obtain ⟨rfl, rfl⟩ := hsame
        exact Or.inr ⟨c.new _ f hnext, q, rfl, hold⟩
      · rw [c.agree f' j (fun heq => c.fresh q (heq ▸ hold)) (by tauto)] at hnext
        left
        rw [walk_concat, hold]
        exact hnext
    · rw [c.blank] at hnext
      contradiction

theorem layered (c : Grow next mem mem' r g i h) (hl : Layered next mem r) :
    Layered next mem' r := by
  intro p q f hp hq
  rcases c.back hp with hp₁ | ⟨rfl, p', rfl, hp₁⟩
  · rcases c.back hq with hq₁ | ⟨rfl, -⟩
    · exact hl p q f hp₁ hq₁
    · exact absurd hp₁ (c.fresh p)
  · rcases c.back hq with hq₁ | ⟨-, q', rfl, hq₁⟩
    · exact absurd hq₁ (c.fresh q)
    · simpa using hl p' q' g hp₁ hq₁

theorem tree (c : Grow next mem mem' r g i h) (hroot : ∀ r' p, D.carrier r' p → r' = r)
    (ht : Tree D next mem) : Tree D next mem' := by
  intro r₁ p r₂ q f hDp hDq hp hq
  obtain rfl := hroot r₁ p hDp
  obtain rfl := hroot r₂ q hDq
  refine ⟨rfl, ?_⟩
  rcases c.back hp with hp₁ | ⟨rfl, p', rfl, hp₁⟩
  · rcases c.back hq with hq₁ | ⟨rfl, -⟩
    · exact (ht _ p _ q f hDp hDq hp₁ hq₁).2
    · exact absurd hp₁ (c.fresh p)
  · rcases c.back hq with hq₁ | ⟨-, q', rfl, hq₁⟩
    · exact absurd hq₁ (c.fresh q)
    · rw [(ht _ p' _ q' g (D.closed _ p' [i] hDp) (D.closed _ q' [i] hDq) hp₁ hq₁).2]

end Grow

end ReduceOS.TableTree
