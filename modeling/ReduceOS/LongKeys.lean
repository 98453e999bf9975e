import ReduceOS.Hashmap

/-!
String keys of any length in the hash map. All of a key is hashed but no more than 256 characters
are compared, so keys are told apart by their bucket and by what they begin with. A table of such
keys is exactly a map of these two; it is one of the keys themselves for as long as no call has a
key that begins as another one in its bucket does.
-/
namespace ReduceOS.LongKeys

open Machine CString LinkedSequence Hashmap

@[ext] structure Key where
  chars : Chars
  terminated : 0 ∉ chars

instance : DecidableEq Key := fun a b => decidable_of_iff (a.chars = b.chars) Key.ext_iff.symm

def longKeys : KeyType Key :=
  ⟨fun key => hashmapHash key.chars, fun a b => strncmp a.chars b.chars 256 == 0⟩

def Confusable (size : BitVec 64) (a b : Key) : Prop :=
  a ≠ b ∧ a.chars.take 256 = b.chars.take 256 ∧ longKeys.hash a % size = longKeys.hash b % size

instance (size : BitVec 64) (a b : Key) : Decidable (Confusable size a b) :=
  inferInstanceAs (Decidable (_ ∧ _ ∧ _))

section Calls

variable {K : Type}

/-- The node that a call with a key comes to, `NULL` where it comes to none. -/
def addressed (type : KeyType K) (fuel : ℕ) (s : State K) (key : K) : Option Addr :=
  (search type s key fuel null (s.entries (bucket type s key))).map Prod.snd

def InTable (s : State K) (n : Addr) : Prop :=
  n ≠ null ∧ ∃ i, Relation.ReflTransGen (fun a b => a ≠ null ∧ (s.nodes a).next = b) (s.entries i) n

def Own (fuel : ℕ) (s : State Key) (op : Op Key) : Prop :=
  ∀ key ∈ key? op, ∀ n ∈ addressed longKeys fuel s key, n ≠ null → (s.nodes n).key = key

/-- The key of a call is not one that is taken for another one in the table. -/
def Apart (s : State Key) (op : Op Key) : Prop :=
  ∀ key ∈ key? op, ∀ n, InTable s n → ¬ Confusable s.size (s.nodes n).key key

def Through (fuel : ℕ) (P : State Key → Op Key → Prop) (s : State Key) : List (Op Key) → Prop
  | [] => True
  | op :: ops => P s op ∧
      ∀ s' answer, s.step longKeys fuel op = some (s', answer) → Through fuel P s' ops

end Calls

section Simulation

variable {K K' : Type} {type : KeyType K} {type' : KeyType K'} {g : K → K'} {s : State K}
  {m : Bindings K'} {chains : BitVec 64 → List Addr} {key : K} {value node : Addr} {fuel : ℕ}

def mapKeys (g : K → K') (s : State K) : State K' :=
  ⟨s.size, s.entries, fun n => ⟨g (s.nodes n).key, (s.nodes n).value, (s.nodes n).next⟩,
      s.allocated⟩

def mapOp (g : K → K') : Op K → Op K'
  | .set key value node => .set (g key) value node
  | .get key => .get (g key)
  | .has key => .has (g key)
  | .remove key => .remove (g key)
  | .keys => .keys
  | .values => .values

def mapAnswer (g : K → K') : Answer K → Answer K'
  | .nothing => .nothing
  | .pointer p => .pointer p
  | .flag b => .flag b
  | .keys l => .keys (l.map g)
  | .values l => .values l

/-- The nodes of the chain of a key compare with it as what stands for them does. -/
structure Agrees (type : KeyType K) (type' : KeyType K') (g : K → K') (s : State K)
    (chains : BitVec 64 → List Addr) (key : K) : Prop where
  bucket : bucket type s key = Hashmap.bucket type' (mapKeys g s) (g key)
  compare : ∀ n ∈ chains (Hashmap.bucket type s key),
    type.compare (s.nodes n).key key = type'.compare (g (s.nodes n).key) (g key)

@[simp]
theorem mapKeys_entries (i : BitVec 64) : (mapKeys g s).entries i = s.entries i := rfl

@[simp]
theorem mapKeys_next (n : Addr) : ((mapKeys g s).nodes n).next = (s.nodes n).next := rfl

@[simp]
theorem mapKeys_value (n : Addr) : ((mapKeys g s).nodes n).value = (s.nodes n).value := rfl

@[simp]
theorem mapKeys_key (n : Addr) : ((mapKeys g s).nodes n).key = g (s.nodes n).key := rfl

theorem mapKeys_setEntry (hash : BitVec 64) :
    mapKeys g (s.setEntry hash node) = (mapKeys g s).setEntry hash node := rfl

theorem mapKeys_kfree : mapKeys g (s.kfree node) = (mapKeys g s).kfree node := rfl

theorem mapKeys_newNode :
    mapKeys g (s.newNode node key value) = (mapKeys g s).newNode node (g key) value := by
  simp only [mapKeys, State.newNode, State.mk.injEq, true_and, and_true]
  funext n
  rcases eq_or_ne n node with rfl | hn
  · simp
  · simp [hn]

theorem mapKeys_setNode {f : HashNode K → HashNode K} (f' : HashNode K' → HashNode K')
    (hf : ∀ n, (⟨g (f n).key, (f n).value, (f n).next⟩ : HashNode K') =
      f' ⟨g n.key, n.value, n.next⟩) :
    mapKeys g (s.setNode node f) = (mapKeys g s).setNode node f' := by
  simp only [mapKeys, State.setNode, State.mk.injEq, true_and, and_true]
  funext n
  rcases eq_or_ne n node with rfl | hn
  · simpa using hf (s.nodes n)
  · simp [hn]

theorem search_mapKeys {chain : List Addr}
    (hfollows : Follows null (fun n => (s.nodes n).next) chain) (hnull : null ∉ chain)
    (hcompare : ∀ n ∈ chain,
      type.compare (s.nodes n).key key = type'.compare (g (s.nodes n).key) (g key))
    (last : Addr) :
    search type s key fuel last (headOr null chain) =
      search type' (mapKeys g s) (g key) fuel last (headOr null chain) := by
  induction chain generalizing fuel last with
  | nil => cases fuel <;> simp [search]
  | cons n chain ih =>
    cases fuel with
    | zero => rfl
    | succ fuel =>
      rw [List.mem_cons, not_or] at hnull
      have hnext : (s.nodes n).next = headOr null chain := hfollows.1
      have hn := hcompare n List.mem_cons_self
      have hrest : search type s key fuel n (headOr null chain) =
          search type' (mapKeys g s) (g key) fuel n (headOr null chain) :=
        ih hfollows.2 hnull.2 (fun n' hn' => hcompare n' (List.mem_cons_of_mem n hn')) n
      simp only [headOr_cons, search, hn, mapKeys_next, mapKeys_key, hnext, hrest]

variable (h : Refines type' (mapKeys g s) m chains) (hagrees : Agrees type type' g s chains key)

include h hagrees

theorem search_eq (last : Addr) :
    search type s key fuel last (s.entries (bucket type s key)) =
      search type' (mapKeys g s) (g key) fuel last
        ((mapKeys g s).entries (bucket type' (mapKeys g s) (g key))) := by
  have hentry : s.entries (bucket type s key) = headOr null (chains (bucket type s key)) :=
    h.head (bucket type s key)
  have hfollows : Follows null (fun n => (s.nodes n).next) (chains (bucket type s key)) :=
    h.follows _
  rw [← hagrees.bucket, mapKeys_entries, hentry]
  exact search_mapKeys hfollows (h.nonnull _) hagrees.compare last

theorem addressed_eq :
    addressed type fuel s key = addressed type' fuel (mapKeys g s) (g key) := by
  rw [addressed, addressed, search_eq h hagrees]

theorem hashmapSet_mapKeys :
    (hashmapSet type fuel s key value node).map (mapKeys g) =
      hashmapSet type' fuel (mapKeys g s) (g key) value node := by
  have hsearch : search type s key fuel null (s.entries (bucket type s key)) = _ :=
    search_eq h hagrees null
  simp only [hashmapSet, hsearch, mapKeys_entries, ← hagrees.bucket]
  by_cases hentry : s.entries (bucket type s key) = null
  · simp only [hentry, if_true, Option.map_some, mapKeys_setEntry, mapKeys_newNode]
  · simp only [if_neg hentry]
    cases search type' (mapKeys g s) (g key) fuel null (s.entries (bucket type s key)) with
    | none => rfl
    | some r =>
      obtain ⟨last, found⟩ := r
      by_cases hfound : found = null
      · simp only [hfound, Option.bind_eq_bind, Option.bind_some, ne_eq, not_true_eq_false,
          if_false, Option.map_some]
        rw [mapKeys_setNode ({ · with next := node }) fun n => rfl, mapKeys_newNode]
      · simp only [Option.bind_eq_bind, Option.bind_some, ne_eq, hfound, not_false_eq_true, if_true,
          Option.map_some]
        rw [mapKeys_setNode ({ · with value := value }) fun n => rfl]

theorem hashmapGet_mapKeys :
    hashmapGet type fuel s key = hashmapGet type' fuel (mapKeys g s) (g key) := by
  rw [hashmapGet, hashmapGet, search_eq h hagrees]
  rfl

theorem hashmapHas_mapKeys :
    hashmapHas type fuel s key = hashmapHas type' fuel (mapKeys g s) (g key) := by
  rw [hashmapHas, hashmapHas, search_eq h hagrees]

theorem hashmapRemove_mapKeys :
    (hashmapRemove type fuel s key).map (Prod.map (mapKeys g) id) =
      hashmapRemove type' fuel (mapKeys g s) (g key) := by
  have hsearch : search type s key fuel null (s.entries (bucket type s key)) = _ :=
    search_eq h hagrees null
  simp only [hashmapRemove, hsearch, mapKeys_entries, mapKeys_key, ← hagrees.bucket]
  by_cases hentry : s.entries (bucket type s key) = null
  · simp [hentry]
  · have hfirst : s.entries (bucket type s key) ∈ chains (bucket type s key) := by
      have hhead : s.entries (bucket type s key) = headOr null (chains (bucket type s key)) :=
        h.head (bucket type s key)
      rw [hhead]
      refine headOr_mem fun hnil => hentry ?_
      rw [hhead, hnil, headOr_nil]
    rw [hagrees.compare _ hfirst]
    simp only [if_neg hentry]
    split_ifs with hcompare
    · rfl
    · cases search type' (mapKeys g s) (g key) fuel null (s.entries (bucket type s key)) with
      | none => rfl
      | some r =>
        obtain ⟨last, found⟩ := r
        by_cases hfound : found = null
        · simp [hfound]
        · simp only [Option.bind_eq_bind, Option.bind_some, ne_eq, hfound, not_false_eq_true,
            if_true, Option.map_some, Prod.map_apply, mapKeys_kfree, mapKeys_next, mapKeys_value,
            id_eq]
          rw [mapKeys_setNode ({ · with next := (s.nodes found).next }) fun n => rfl]

end Simulation

section Steps

variable {K K' : Type} {type : KeyType K} {type' : KeyType K'} {g : K → K'} {s : State K}
  {m : Bindings K'} {chains : BitVec 64 → List Addr} {fuel : ℕ} {op : Op K}

/-- A call with a key does to a table what it does to the one with something else for its keys. -/
theorem step_mapKeys (h : Refines type' (mapKeys g s) m chains) (hkey : (key? op).isSome)
    (hagrees : ∀ key ∈ key? op, Agrees type type' g s chains key) :
    (s.step type fuel op).map (Prod.map (mapKeys g) (mapAnswer g)) =
      (mapKeys g s).step type' fuel (mapOp g op) := by
  cases op with
  | set key value node =>
    rw [mapOp, State.step, State.step, ← hashmapSet_mapKeys h (hagrees key rfl), Option.map_map,
      Option.map_map]
    rfl
  | get key =>
    rw [mapOp, State.step, State.step, ← hashmapGet_mapKeys h (hagrees key rfl), Option.map_map]
    rfl
  | has key =>
    rw [mapOp, State.step, State.step, ← hashmapHas_mapKeys h (hagrees key rfl), Option.map_map]
    rfl
  | remove key =>
    rw [mapOp, State.step, State.step, ← hashmapRemove_mapKeys h (hagrees key rfl),
      Option.map_map, Option.map_map]
    rfl
  | keys => exact absurd hkey (by simp [key?])
  | values => exact absurd hkey (by simp [key?])

end Steps

section Slots

abbrev Slot := BitVec 64 × Chars

def slot (size : BitVec 64) (key : Key) : Slot :=
  (longKeys.hash key % size, key.chars.take 256)

def slotKeys : KeyType Slot := ⟨Prod.fst, fun a b => a == b⟩

def exactKeys : KeyType Key := ⟨longKeys.hash, fun a b => a == b⟩

theorem slotKeys_lawful : slotKeys.Lawful := fun _ _ => beq_iff_eq

theorem exactKeys_lawful : exactKeys.Lawful := fun _ _ => beq_iff_eq

theorem longKeys_compare_iff (a b : Key) :
    longKeys.compare a b = true ↔ a.chars.take 256 = b.chars.take 256 := by
  simp only [longKeys, beq_iff_eq]
  exact strncmp_eq_zero_iff_take a.terminated b.terminated

variable {size : BitVec 64} {s : State Key} {chains : BitVec 64 → List Addr}

theorem slot_eq_iff (a b : Key) :
    slot size a = slot size b ↔ a = b ∨ Confusable size a b := by
  rw [slot, slot, Prod.mk.injEq, Confusable]
  constructor
  · rintro ⟨hhash, htake⟩
    by_cases hab : a = b
    · exact Or.inl hab
    · exact Or.inr ⟨hab, htake, hhash⟩
  · rintro (rfl | ⟨-, htake, hhash⟩)
    · exact ⟨rfl, rfl⟩
    · exact ⟨hhash, htake⟩

theorem bucket_slot (s : State Key) (key : Key) :
    bucket slotKeys (mapKeys (slot s.size) s) (slot s.size key) = bucket longKeys s key :=
  BitVec.eq_of_toNat_eq (by simp [bucket, slotKeys, mapKeys, slot])

/-- A table of strings is always one of what is looked at of them. -/
theorem agrees_slot {m : Bindings Slot}
    (h : Refines slotKeys (mapKeys (slot s.size) s) m chains) (key : Key) :
    Agrees longKeys slotKeys (slot s.size) s chains key where
  bucket := (bucket_slot s key).symm
  compare n hn := by
    have hplace : bucket longKeys s (s.nodes n).key = bucket longKeys s key :=
      (bucket_slot s (s.nodes n).key).symm.trans (h.place _ n hn)
    rw [Bool.eq_iff_iff, longKeys_compare_iff, slotKeys_lawful, slot, slot, Prod.mk.injEq]
    exact ⟨fun htake => ⟨hplace, htake⟩, And.right⟩

end Slots

section Runs

variable {s s' : State Key} {m : Bindings Slot} {named : Bindings Key}
  {chains chains' : BitVec 64 → List Addr} {fuel : ℕ} {op : Op Key} {ops : List (Op Key)}
  {P : State Key → Op Key → Prop}

theorem inTable_iff {K' : Type} {type : KeyType K'} {g : Key → K'} {m : Bindings K'}
    (h : Refines type (mapKeys g s) m chains) (n : Addr) : InTable s n ↔ ∃ i, n ∈ chains i := by
  have hmem : ∀ i, n ∈ chains i ↔ n ≠ null ∧ Relation.ReflTransGen
      (fun a b => a ≠ null ∧ (s.nodes a).next = b) (s.entries i) n := by
    intro i
    have hentry : s.entries i = headOr null (chains i) := h.head i
    rw [hentry]
    exact (h.follows i).mem_iff_reaches (h.nonnull i)
  simp only [InTable, hmem, exists_and_left]

theorem through_cons {answer : Answer Key} (hstep : s.step longKeys fuel op = some (s', answer)) :
    Through fuel P s (op :: ops) ↔ P s op ∧ Through fuel P s' ops := by
  refine and_congr_right fun _ => ⟨fun h => h s' answer hstep, fun h s₁ answer₁ hstep₁ => ?_⟩
  rw [hstep, Option.some.injEq, Prod.mk.injEq] at hstep₁
  rwa [← hstep₁.1]

/-- One call on a table of strings, seen as one of what is looked at of them. -/
theorem slot_step (h : Refines slotKeys (mapKeys (slot s.size) s) m chains)
    (hfuel : 2 ^ 64 ≤ fuel) (hkey : (key? op).isSome) (hop : s.Allowed op) :
    ∃ s' m' chains' answer, s.step longKeys fuel op = some (s', answer) ∧ s'.size = s.size ∧
      Refines slotKeys (mapKeys (slot s'.size) s') m' chains' := by
  have hkey' : (key? (mapOp (slot s.size) op)).isSome := by cases op <;> exact hkey
  have hop' : (mapKeys (slot s.size) s).Allowed (mapOp (slot s.size) op) := by
    cases op <;> exact hop
  obtain ⟨s₁, chains₁, answer₁, hstep₁, hsize, h₁, -⟩ :=
    h.step_key slotKeys_lawful hfuel hkey' hop'
  rw [← step_mapKeys h hkey fun key _ => agrees_slot h key, Option.map_eq_some_iff] at hstep₁
  obtain ⟨⟨s', answer⟩, hstep, heq⟩ := hstep₁
  obtain ⟨rfl, rfl⟩ := Prod.mk.inj heq
  have hsize' : s'.size = s.size := hsize
  exact ⟨s', _, chains₁, answer, hstep, hsize', by rwa [hsize']⟩

/-- A sequence of calls with keys comes to its end. -/
theorem slot_run (h : Refines slotKeys (mapKeys (slot s.size) s) m chains)
    (hfuel : 2 ^ 64 ≤ fuel) (hkeys : ∀ op ∈ ops, (key? op).isSome)
    (hops : s.AllAllowed longKeys ops) :
    ∃ s' answers, s.run longKeys fuel ops = some (s', answers) := by
  induction ops generalizing s m chains with
  | nil => exact ⟨s, [], rfl⟩
  | cons op ops ih =>
    obtain ⟨s₁, m₁, chains₁, answer, hstep, -, h₁⟩ :=
      slot_step h hfuel (hkeys op List.mem_cons_self) hops.1
    obtain ⟨s₂, answers, hrun⟩ := ih h₁ (fun op' hop' => hkeys op' (List.mem_cons_of_mem op hop'))
      (hops.2 fuel s₁ answer hstep)
    exact ⟨s₂, answer :: answers, by simp [State.run, hstep, hrun]⟩

/-- A call with a key that is taken for another one in the table comes to the node of that. -/
theorem apart_of_own (h : Refines slotKeys (mapKeys (slot s.size) s) m chains)
    (hfuel : 2 ^ 64 ≤ fuel) (hown : Own fuel s op) : Apart s op := by
  intro key hkey n hn hconfusable
  obtain ⟨i, hmem⟩ := (inTable_iff h n).mp hn
  have hslot : slot s.size (s.nodes n).key = slot s.size key :=
    (slot_eq_iff _ _).mpr (Or.inr hconfusable)
  have hplace : bucket slotKeys (mapKeys (slot s.size) s) (slot s.size key) = i := by
    rw [← hslot]
    exact h.place i n hmem
  have hfound : addressed longKeys fuel s key = some n := by
    rw [addressed_eq h (agrees_slot h key), addressed]
    rcases h.search_cases slotKeys_lawful hfuel (slot s.size key) with
      ⟨xs, n', ys, hsplit, hkey', -, hres⟩ | ⟨habsent, -, -⟩
    · rw [hplace] at hsplit
      have hmem' : n' ∈ chains i := by rw [hsplit]; simp
      rw [hres, h.distinct i n hmem n' hmem' (hslot.trans hkey'.symm), Option.map_some]
    · rw [hplace] at habsent
      exact absurd hslot (habsent n hmem)
  exact hconfusable.1 (hown key hkey n hfound (h.ne_null hmem))

/-- Keys apart, a table of strings is one in which the whole of a key is compared. -/
theorem agrees_exact (h : Refines exactKeys s named chains) (hapart : Apart s op) {key : Key}
    (hkey : key ∈ key? op) : Agrees longKeys exactKeys id s chains key where
  bucket := rfl
  compare n hn := by
    have hplace : bucket longKeys s (s.nodes n).key = bucket longKeys s key := h.place _ n hn
    have hin : InTable s n := (inTable_iff (g := id) h n).mpr ⟨_, hn⟩
    rw [Bool.eq_iff_iff, longKeys_compare_iff, exactKeys_lawful]
    constructor
    · intro htake
      by_contra hne
      exact hapart key hkey n hin ⟨hne, htake, hplace⟩
    · exact fun heq => congrArg (fun key : Key => key.chars.take 256) heq

theorem own_of_apart (h : Refines exactKeys s named chains) (hfuel : 2 ^ 64 ≤ fuel)
    (hapart : Apart s op) : Own fuel s op := by
  intro key hkey n hn hnull
  have heq : addressed longKeys fuel s key = addressed exactKeys fuel s key :=
    addressed_eq (g := id) h (agrees_exact h hapart hkey)
  rw [heq, addressed] at hn
  rcases h.search_cases exactKeys_lawful hfuel key with
    ⟨xs, n', ys, -, hkey', -, hres⟩ | ⟨-, -, hres⟩
  · rw [hres, Option.map_some, Option.mem_some_iff] at hn
    rwa [← hn]
  · rw [hres, Option.map_some, Option.mem_some_iff] at hn
    exact absurd hn.symm hnull

theorem mapOp_id (op : Op Key) : mapOp id op = op := by cases op <;> rfl

theorem mapAnswer_id (answer : Answer Key) : mapAnswer id answer = answer := by
  cases answer <;> simp [mapAnswer]

/-- One call with its key apart answers as a map of strings does. -/
theorem exact_step (h : Refines exactKeys s named chains) (hfuel : 2 ^ 64 ≤ fuel)
    (hkey : (key? op).isSome) (hop : s.Allowed op) (hapart : Apart s op) :
    ∃ s' chains' answer, s.step longKeys fuel op = some (s', answer) ∧
      Refines exactKeys s' (named.step op) chains' ∧ Answers named op answer := by
  obtain ⟨s', chains', answer, hstep, -, h', hanswer⟩ :=
    h.step_key exactKeys_lawful hfuel hkey hop
  have hmap : (s.step longKeys fuel op).map (Prod.map (mapKeys id) (mapAnswer id)) =
      s.step exactKeys fuel (mapOp id op) :=
    step_mapKeys (g := id) h hkey fun key hkey => agrees_exact h hapart hkey
  have hsame : Prod.map (mapKeys id) (mapAnswer id) = (id : State Key × Answer Key → _) := by
    funext r
    exact Prod.ext rfl (mapAnswer_id r.2)
  rw [hsame, Option.map_id, mapOp_id] at hmap
  exact ⟨s', chains', answer, hmap.trans hstep, h', hanswer⟩

theorem run_iff (h : Refines slotKeys (mapKeys (slot s.size) s) m chains)
    (hnamed : Refines exactKeys s named chains') (hfuel : 2 ^ 64 ≤ fuel)
    (hkeys : ∀ op ∈ ops, (key? op).isSome) (hops : s.AllAllowed longKeys ops)
    {answers : List (Answer Key)} (hrun : s.run longKeys fuel ops = some (s', answers)) :
    (Through fuel (Own fuel) s ops ∧ AnswersAll named ops answers) ↔
      Through fuel Apart s ops := by
  induction ops generalizing s m named chains chains' answers with
  | nil =>
    rw [State.run, Option.some.injEq, Prod.mk.injEq] at hrun
    simp [Through, AnswersAll, hrun.2.symm]
  | cons op ops ih =>
    by_cases hapart : Apart s op
    · obtain ⟨s₁, m₁, chains₁, answer, hstep, -, h₁⟩ :=
        slot_step h hfuel (hkeys op List.mem_cons_self) hops.1
      obtain ⟨s₁', chains₁', answer', hstep', hnamed₁, hanswer⟩ :=
        exact_step hnamed hfuel (hkeys op List.mem_cons_self) hops.1 hapart
      rw [hstep, Option.some.injEq, Prod.mk.injEq] at hstep'
      obtain ⟨rfl, rfl⟩ := hstep'
      simp only [State.run, hstep, Option.bind_eq_bind, Option.bind_some] at hrun
      obtain ⟨⟨s₂, rest⟩, hrest, heq⟩ := Option.bind_eq_some_iff.mp hrun
      obtain ⟨rfl, rfl⟩ := Prod.mk.inj (Option.some.inj heq)
      have hrec := ih h₁ hnamed₁ (fun op' hop' => hkeys op' (List.mem_cons_of_mem op hop'))
        (hops.2 fuel s₁ answer hstep) hrest
      have hown := own_of_apart hnamed hfuel hapart
      rw [through_cons hstep, through_cons hstep, ← hrec]
      constructor
      · rintro ⟨⟨-, hthrough⟩, answer', rest', heq, -, hall⟩
        obtain ⟨-, rfl⟩ := List.cons.inj heq
        exact ⟨hapart, hthrough, hall⟩
      · rintro ⟨-, hthrough, hall⟩
        exact ⟨⟨hown, hthrough⟩, answer, rest, rfl, hanswer, hall⟩
    · exact iff_of_false (fun hown => hapart (apart_of_own h hfuel hown.1.1))
        fun hthrough => hapart hthrough.1

end Runs

section Short

variable {s : State Key} {named : Bindings Key} {chains : BitVec 64 → List Addr} {fuel : ℕ}

def Short (named : Bindings Key) : Prop :=
  ∀ key, (named key).isSome → key.chars.length < 256

theorem not_confusable_of_short {size : BitVec 64} {a b : Key} (ha : a.chars.length < 256) :
    ¬ Confusable size a b := by
  rintro ⟨hne, htake, -⟩
  have hlength := congrArg List.length htake
  rw [List.length_take, List.length_take] at hlength
  have hb : b.chars.length < 256 := by omega
  rw [List.take_of_length_le ha.le, List.take_of_length_le hb.le] at htake
  cases a
  cases b
  exact hne (by simpa using htake)

theorem Short.apart (hshort : Short named) (h : Refines exactKeys s named chains) (op : Op Key) :
    Apart s op := by
  intro key _ n hn
  obtain ⟨i, hmem⟩ := (inTable_iff (g := id) h n).mp hn
  exact not_confusable_of_short (hshort _ (by rw [h.value_eq hmem]; rfl))

variable (hshort : Short named) (h : Refines exactKeys s named chains) (hfuel : 2 ^ 64 ≤ fuel)

include hshort h hfuel

theorem Short.get (key : Key) :
    hashmapGet longKeys fuel s key = some ((named key).getD null) := by
  rw [hashmapGet_mapKeys (g := id) h (agrees_exact h (hshort.apart h (.get key)) rfl)]
  exact h.get exactKeys_lawful hfuel key

theorem Short.has (key : Key) : hashmapHas longKeys fuel s key = some (named key).isSome := by
  rw [hashmapHas_mapKeys (g := id) h (agrees_exact h (hshort.apart h (.has key)) rfl)]
  exact h.has exactKeys_lawful hfuel key

theorem Short.set (key : Key) (value : Addr) {node : Addr} (hnode : node ≠ null)
    (hfree : s.allocated node = false) :
    ∃ s' chains', hashmapSet longKeys fuel s key value node = some s' ∧
      Refines exactKeys s' (Function.update named key (some value)) chains' := by
  obtain ⟨s', chains', hset, -, h'⟩ := h.set exactKeys_lawful hfuel hnode hfree key value
  refine ⟨s', chains', ?_, h'⟩
  have hmap : (hashmapSet longKeys fuel s key value node).map (mapKeys id) =
      hashmapSet exactKeys fuel s key value node :=
    hashmapSet_mapKeys (g := id) h (agrees_exact h (hshort.apart h (.set key value node)) rfl)
  have hsame : mapKeys id = (id : State Key → State Key) := rfl
  rwa [hset, hsame, Option.map_id, id_eq] at hmap

end Short

section Tables

/-- Memory that tables are made in, with the addresses that `kmalloc` returns, in turn. -/
structure Heap where
  nodes : Addr → HashNode Key
  allocated : Addr → Bool
  supply : List Addr

def Heap.Fresh (heap : Heap) : Prop :=
  heap.supply.Nodup ∧ ∀ a ∈ heap.supply, a ≠ null ∧ heap.allocated a = false

structure Table where
  map : State Key
  supply : List Addr

def Heap.create (heap : Heap) (size : BitVec 64) : Table :=
  ⟨newMap size heap.nodes heap.allocated, heap.supply⟩

/-- `hashmap_set`; an address is taken also where no node is made. -/
def Table.set (fuel : ℕ) (s : Table) (key : Key) (value : Addr) : Option Table :=
  match s.supply with
  | [] => none
  | node :: supply => (hashmapSet longKeys fuel s.map key value node).map (⟨·, supply⟩)

def keyAt (memory : Chars) : Key := ⟨cstring memory, zero_notMem_cstring memory⟩

structure Table.Holds (s : Table) (named : Bindings Key) : Prop where
  refines : ∃ chains, Refines exactKeys s.map named chains
  short : Short named
  nodup : s.supply.Nodup
  fresh : ∀ a ∈ s.supply, a ≠ null ∧ s.map.allocated a = false

structure Table.Sound (s : Table) : Prop where
  refines : ∃ m chains, Refines slotKeys (mapKeys (slot s.map.size) s.map) m chains
  nodup : s.supply.Nodup
  fresh : ∀ a ∈ s.supply, a ≠ null ∧ s.map.allocated a = false

variable {heap : Heap} {s : Table} {named : Bindings Key} {fuel : ℕ}

theorem Heap.Fresh.holds (h : heap.Fresh) (size : BitVec 64) :
    (heap.create size).Holds fun _ => none where
  refines := ⟨_, refines_create exactKeys size heap.nodes heap.allocated⟩
  short _ hkey := absurd hkey Bool.false_ne_true
  nodup := h.1
  fresh := h.2

theorem Heap.Fresh.sound (h : heap.Fresh) (size : BitVec 64) : (heap.create size).Sound where
  refines := ⟨_, _, refines_create slotKeys size
    (fun n => ⟨slot size (heap.nodes n).key, (heap.nodes n).value, (heap.nodes n).next⟩)
    heap.allocated⟩
  nodup := h.1
  fresh := h.2

theorem Table.Holds.get (h : s.Holds named) (hfuel : 2 ^ 64 ≤ fuel) (key : Key) :
    hashmapGet longKeys fuel s.map key = some ((named key).getD null) := by
  obtain ⟨chains, hrefines⟩ := h.refines
  exact h.short.get hrefines hfuel key

theorem Table.Holds.has (h : s.Holds named) (hfuel : 2 ^ 64 ≤ fuel) (key : Key) :
    hashmapHas longKeys fuel s.map key = some (named key).isSome := by
  obtain ⟨chains, hrefines⟩ := h.refines
  exact h.short.has hrefines hfuel key

theorem fresh_of_set {map : State Key} {key : Key} {value node : Addr} {supply : List Addr}
    (hset : hashmapSet longKeys fuel s.map key value node = some map)
    (hs : s.supply = node :: supply) (hnodup : s.supply.Nodup)
    (hfresh : ∀ a ∈ s.supply, a ≠ null ∧ s.map.allocated a = false) :
    supply.Nodup ∧ ∀ a ∈ supply, a ≠ null ∧ map.allocated a = false := by
  rw [hs] at hnodup hfresh
  obtain ⟨hnode, hsupply⟩ := List.nodup_cons.mp hnodup
  refine ⟨hsupply, fun a ha => ?_⟩
  obtain ⟨hnull, hfree⟩ := hfresh a (List.mem_cons_of_mem node ha)
  have hne : a ≠ node := ne_of_mem_of_not_mem ha hnode
  exact ⟨hnull, by rwa [hashmapSet_allocated hset hne]⟩

theorem Table.Holds.set (h : s.Holds named) (hfuel : 2 ^ 64 ≤ fuel) {key : Key}
    (hkey : key.chars.length < 256) (value : Addr) {node : Addr} {supply : List Addr}
    (hs : s.supply = node :: supply) :
    ∃ s', s.set fuel key value = some s' ∧ s'.Holds (Function.update named key (some value)) ∧
      s'.supply = supply := by
  obtain ⟨chains, hrefines⟩ := h.refines
  obtain ⟨hnull, hfree⟩ := h.fresh node (by rw [hs]; exact List.mem_cons_self)
  obtain ⟨map, chains', hset, hrefines'⟩ := h.short.set hrefines hfuel key value hnull hfree
  obtain ⟨hnodup, hfresh⟩ := fresh_of_set hset hs h.nodup h.fresh
  refine ⟨⟨map, supply⟩, by simp [Table.set, hs, hset], ⟨⟨chains', hrefines'⟩, ?_, hnodup, hfresh⟩,
    rfl⟩
  intro key' hkey'
  rcases eq_or_ne key' key with rfl | hne
  · exact hkey
  · rw [Function.update_of_ne hne] at hkey'
    exact h.short key' hkey'

theorem Table.Sound.set (h : s.Sound) (hfuel : 2 ^ 64 ≤ fuel) (key : Key) (value : Addr)
    {node : Addr} {supply : List Addr} (hs : s.supply = node :: supply) :
    ∃ s', s.set fuel key value = some s' ∧ s'.Sound ∧ s'.supply = supply := by
  obtain ⟨m, chains, hrefines⟩ := h.refines
  have hallowed := h.fresh node (by rw [hs]; exact List.mem_cons_self)
  obtain ⟨map, m', chains', answer, hstep, -, hrefines'⟩ :=
    slot_step hrefines hfuel (rfl : (key? (.set key value node)).isSome = true) hallowed
  obtain ⟨map', hset, heq⟩ := Option.map_eq_some_iff.mp hstep
  obtain ⟨rfl, -⟩ := Prod.mk.inj heq
  obtain ⟨hnodup, hfresh⟩ := fresh_of_set hset hs h.nodup h.fresh
  exact ⟨⟨map', supply⟩, by simp [Table.set, hs, hset], ⟨⟨m', chains', hrefines'⟩, hnodup, hfresh⟩,
    rfl⟩

end Tables

theorem refines_slot_create (size : BitVec 64) (nodes : Addr → HashNode Key)
    (allocated : Addr → Bool) :
    Refines slotKeys (mapKeys (slot size) (newMap size nodes allocated)) (fun _ => none)
      fun _ => [] :=
  refines_create slotKeys size (fun n => ⟨slot size (nodes n).key, (nodes n).value, (nodes n).next⟩)
    allocated

/--
Every sequence of calls with keys on a new table returns. Each call of it comes to no node but
one with its own key, and the answers are those of a map of strings, exactly when no call has a
key that begins as another one in its bucket does.
-/
theorem string_keys_told_apart_iff {size : BitVec 64} (_ : 0 < size) (nodes : Addr → HashNode Key)
    (allocated : Addr → Bool) {ops : List (Op Key)} (hkeys : ∀ op ∈ ops, (key? op).isSome)
    (hops : (newMap size nodes allocated).AllAllowed longKeys ops) {fuel : ℕ}
    (hfuel : 2 ^ 64 ≤ fuel) :
    ∃ s answers, (newMap size nodes allocated).run longKeys fuel ops = some (s, answers) ∧
      ((Through fuel (Own fuel) (newMap size nodes allocated) ops ∧
        AnswersAll (fun _ => none) ops answers) ↔
        Through fuel Apart (newMap size nodes allocated) ops) := by
  have hslot := refines_slot_create size nodes allocated
  obtain ⟨s, answers, hrun⟩ := slot_run hslot hfuel hkeys hops
  have hnamed := refines_create exactKeys size nodes allocated
  exact ⟨s, answers, hrun, run_iff hslot hnamed hfuel hkeys hops hrun⟩

def oneCharacter (c : BitVec 8) (hc : c ≠ 0) : Key := ⟨[c], by simpa using hc.symm⟩

def newTable : State Key :=
  newMap 20 (fun _ => ⟨oneCharacter 97 (by decide), null, null⟩) fun _ => false

def setAndGet : List (Op Key) :=
  [.set (oneCharacter 97 (by decide)) 5 0x1000, .get (oneCharacter 98 (by decide))]

theorem setAndGet_allowed : newTable.AllAllowed longKeys setAndGet :=
  ⟨⟨by decide, rfl⟩, fun _ _ _ _ => ⟨trivial, fun _ _ _ _ => trivial⟩⟩

theorem string_keys_told_apart_of_two :
    ∃ s answers, newTable.run longKeys (2 ^ 64) setAndGet = some (s, answers) ∧
      ((Through (2 ^ 64) (Own (2 ^ 64)) newTable setAndGet ∧
        AnswersAll (fun _ => none) setAndGet answers) ↔
        Through (2 ^ 64) Apart newTable setAndGet) :=
  string_keys_told_apart_iff (by decide) _ _ (by simp [setAndGet, key?]) setAndGet_allowed
    (Nat.le_refl _)

def longKey (c : BitVec 8) (hc : c ≠ 0) : Key where
  chars := List.replicate 256 97 ++ [c]
  terminated h := by
    rcases List.mem_append.mp h with h | h
    · exact absurd (List.eq_of_mem_replicate h) (by decide)
    · exact hc (List.mem_singleton.mp h).symm

/-- One long key is set. What is got, set and removed with another one is its binding. -/
theorem long_keys_confused :
    longKey 97 (by decide) ≠ longKey 117 (by decide) ∧
    ((hashmapSet longKeys 2 newTable (longKey 97 (by decide)) 5 0x1000).bind fun s =>
      hashmapGet longKeys 2 s (longKey 117 (by decide))) = some 5 ∧
    ((hashmapSet longKeys 2 newTable (longKey 97 (by decide)) 5 0x1000).bind fun s =>
      (hashmapSet longKeys 2 s (longKey 117 (by decide)) 6 0x2000).bind fun s =>
        hashmapGet longKeys 2 s (longKey 97 (by decide))) = some 6 ∧
    ((hashmapSet longKeys 2 newTable (longKey 97 (by decide)) 5 0x1000).bind fun s =>
      (hashmapRemove longKeys 2 s (longKey 117 (by decide))).bind fun r =>
        hashmapHas longKeys 2 r.1 (longKey 97 (by decide))) = some false := by
  decide +kernel

end ReduceOS.LongKeys
