import ReduceOS.Machine
import ReduceOS.CString
import ReduceOS.LinkedSequence
import ReduceOS.KernelList
import ReduceOS.Liballoc
import Mathlib.Data.List.Nodup
import Mathlib.Tactic.SplitIfs

/-!
The hash map of `hashmap.c`: a table of buckets, each a chain of nodes in memory. The map
that it stands for is kept beside it, and every call does to the chains what it does to the
map. The table is a block of `kmalloc`, which cuts its size to 32 bits.
-/
namespace ReduceOS.Hashmap

open Machine CString LinkedSequence

/-- What `HASHMAP_HASH` and `HASHMAP_COMPARE` are for the type of the map. -/
structure KeyType (K : Type) where
  hash : K → BitVec 64
  compare : K → K → Bool

def intKeys : KeyType (BitVec 64) := ⟨fun key => key, fun a b => a == b⟩

def hashmapHash (key : Chars) : BitVec 64 :=
  key.foldl (fun hash c => c.signExtend 64 + (hash <<< 6) + (hash <<< 16) - hash) 0

/-- `hashmap_node_t`; a string key is a copy that belongs to the node. -/
structure HashNode (K : Type) where
  key : K
  value : Addr
  next : Addr

/-- A map and the memory its nodes are in; `allocated` says what `kmalloc` has handed out. -/
structure State (K : Type) where
  size : BitVec 64
  entries : BitVec 64 → Addr
  nodes : Addr → HashNode K
  allocated : Addr → Bool

variable {K : Type}

namespace State

def setEntry (s : State K) (hash : BitVec 64) (node : Addr) : State K :=
  { s with entries := Function.update s.entries hash node }

def setNode (s : State K) (p : Addr) (f : HashNode K → HashNode K) : State K :=
  { s with nodes := Function.update s.nodes p (f (s.nodes p)) }

def newNode (s : State K) (node : Addr) (key : K) (value : Addr) : State K :=
  { s with
    nodes := Function.update s.nodes node ⟨key, value, null⟩
    allocated := Function.update s.allocated node true }

def kfree (s : State K) (node : Addr) : State K :=
  { s with allocated := Function.update s.allocated node false }

end State

section Source

variable (type : KeyType K)

def newMap (size : BitVec 64) (nodes : Addr → HashNode K) (allocated : Addr → Bool) : State K :=
  ⟨size, fun _ => null, nodes, allocated⟩

def bucket (s : State K) (key : K) : BitVec 64 := type.hash key % s.size

def search (s : State K) (key : K) : ℕ → Addr → Addr → Option (Addr × Addr)
  | 0, _, _ => none
  | fuel + 1, last, entry =>
    if entry = null then some (last, null)
    else if type.compare (s.nodes entry).key key then some (last, entry)
    else search s key fuel entry (s.nodes entry).next

/-- `hashmap_set`, with the address `kmalloc` returns if it is called. -/
def hashmapSet (fuel : ℕ) (s : State K) (key : K) (value node : Addr) : Option (State K) :=
  let hash := bucket type s key
  let entry := s.entries hash
  if entry = null then some ((s.newNode node key value).setEntry hash node)
  else do
    let (lastNode, found) ← search type s key fuel null entry
    if found ≠ null then some (s.setNode found ({ · with value := value }))
    else some ((s.newNode node key value).setNode lastNode ({ · with next := node }))

def hashmapGet (fuel : ℕ) (s : State K) (key : K) : Option Addr := do
  let (_, found) ← search type s key fuel null (s.entries (bucket type s key))
  if found ≠ null then some (s.nodes found).value else some null

def hashmapHas (fuel : ℕ) (s : State K) (key : K) : Option Bool := do
  let (_, found) ← search type s key fuel null (s.entries (bucket type s key))
  some (decide (found ≠ null))

def hashmapRemove (fuel : ℕ) (s : State K) (key : K) : Option (State K × Addr) :=
  let hash := bucket type s key
  let entry := s.entries hash
  if entry = null then some (s, null)
  else if type.compare (s.nodes entry).key key then
    some ((s.setEntry hash (s.nodes entry).next).kfree entry, (s.nodes entry).value)
  else do
    let (lastNode, found) ← search type s key fuel null entry
    if found ≠ null then
      some ((s.setNode lastNode ({ · with next := (s.nodes found).next })).kfree found,
        (s.nodes found).value)
    else some (s, null)

/-- What the inner loop of `hashmap_keys` and `hashmap_values` appends. -/
def collect {β : Type} (s : State K) (field : HashNode K → β) : ℕ → Addr → Option (List β)
  | 0, _ => none
  | fuel + 1, node =>
    if node = null then some []
    else (collect s field fuel (s.nodes node).next).map (field (s.nodes node) :: ·)

def collectFrom {β : Type} (s : State K) (field : HashNode K → β) (inner : ℕ) :
    ℕ → BitVec 32 → Option (List β)
  | 0, _ => none
  | fuel + 1, i =>
    if i.setWidth 64 < s.size then do
      let first ← collect s field inner (s.entries (i.setWidth 64))
      let rest ← collectFrom s field inner fuel (i + 1)
      some (first ++ rest)
    else some []

def hashmapKeys (fuel : ℕ) (s : State K) : Option (List K) :=
  collectFrom s HashNode.key fuel fuel 0

def hashmapValues (fuel : ℕ) (s : State K) : Option (List Addr) :=
  collectFrom s HashNode.value fuel fuel 0

end Source

/-- The calls; `set` has the address that `kmalloc` returns if it is called. -/
inductive Op (K : Type)
  | set (key : K) (value node : Addr)
  | get (key : K)
  | has (key : K)
  | remove (key : K)
  | keys
  | values

def key? : Op K → Option K
  | .set key _ _ | .get key | .has key | .remove key => some key
  | .keys | .values => none

inductive Answer (K : Type)
  | nothing
  | pointer (p : Addr)
  | flag (b : Bool)
  | keys (l : List K)
  | values (l : List Addr)

def State.step (type : KeyType K) (fuel : ℕ) (s : State K) : Op K → Option (State K × Answer K)
  | .set key value node => (hashmapSet type fuel s key value node).map (·, .nothing)
  | .get key => (hashmapGet type fuel s key).map (s, .pointer ·)
  | .has key => (hashmapHas type fuel s key).map (s, .flag ·)
  | .remove key => (hashmapRemove type fuel s key).map fun r => (r.1, .pointer r.2)
  | .keys => (hashmapKeys fuel s).map (s, .keys ·)
  | .values => (hashmapValues fuel s).map (s, .values ·)

def State.run (type : KeyType K) (fuel : ℕ) (s : State K) :
    List (Op K) → Option (State K × List (Answer K))
  | [] => some (s, [])
  | op :: ops => do
    let (s₁, answer) ← s.step type fuel op
    let (s₂, answers) ← s₁.run type fuel ops
    some (s₂, answer :: answers)

def State.Allowed (s : State K) : Op K → Prop
  | .set _ _ node => node ≠ null ∧ s.allocated node = false
  | _ => True

def State.AllAllowed (type : KeyType K) (s : State K) : List (Op K) → Prop
  | [] => True
  | op :: ops => s.Allowed op ∧
      ∀ fuel s' answer, s.step type fuel op = some (s', answer) → s'.AllAllowed type ops

theorem hashmapSet_allocated {type : KeyType K} {fuel : ℕ} {s s' : State K} {key : K}
    {value node n : Addr} (h : hashmapSet type fuel s key value node = some s') (hn : n ≠ node) :
    s'.allocated n = s.allocated n := by
  unfold hashmapSet at h
  dsimp only at h
  split_ifs at h with hentry
  · rw [← Option.some.inj h]
    exact Function.update_of_ne hn _ _
  · obtain ⟨⟨last, found⟩, -, h⟩ := Option.bind_eq_some_iff.mp h
    split_ifs at h with hfound
    · rw [← Option.some.inj h]
      rfl
    · rw [← Option.some.inj h]
      exact Function.update_of_ne hn _ _

section Map

abbrev Bindings (K : Type) := K → Option Addr

def Lists (m : Bindings K) (keys : List K) : Prop := keys.Nodup ∧ ∀ k, k ∈ keys ↔ (m k).isSome

variable [DecidableEq K]

def Bindings.step (m : Bindings K) : Op K → Bindings K
  | .set key value _ => Function.update m key (some value)
  | .remove key => Function.update m key none
  | _ => m

def Answers (m : Bindings K) : Op K → Answer K → Prop
  | .set _ _ _, answer => answer = .nothing
  | .get key, answer => answer = .pointer ((m key).getD null)
  | .has key, answer => answer = .flag (m key).isSome
  | .remove key, answer => answer = .pointer ((m key).getD null)
  | .keys, answer => ∃ keys, Lists m keys ∧ answer = .keys keys
  | .values, answer =>
    ∃ keys, Lists m keys ∧ answer = .values (keys.map fun k => (m k).getD null)

def AnswersAll (m : Bindings K) : List (Op K) → List (Answer K) → Prop
  | [], answers => answers = []
  | op :: ops, answers => ∃ answer rest, answers = answer :: rest ∧ Answers m op answer ∧
      AnswersAll (m.step op) ops rest

end Map

def KeyType.Lawful (type : KeyType K) : Prop := ∀ a b, type.compare a b = true ↔ a = b

/-- The chains of the table in memory, one for each bucket, hold the bindings of the map. -/
structure Refines (type : KeyType K) (s : State K) (m : Bindings K)
    (chains : BitVec 64 → List Addr) : Prop where
  head : ∀ i, s.entries i = headOr null (chains i)
  follows : ∀ i, Follows null (fun n => (s.nodes n).next) (chains i)
  nodup : ∀ i, (chains i).Nodup
  nonnull : ∀ i, null ∉ chains i
  allocated : ∀ i, ∀ n ∈ chains i, s.allocated n = true
  place : ∀ i, ∀ n ∈ chains i, bucket type s (s.nodes n).key = i
  distinct : ∀ i, ∀ n ∈ chains i, ∀ n' ∈ chains i, (s.nodes n).key = (s.nodes n').key → n = n'
  bound : ∀ k v, m k = some v ↔
    ∃ n ∈ chains (bucket type s k), (s.nodes n).key = k ∧ (s.nodes n).value = v

section Search

variable {type : KeyType K} {s : State K} {m : Bindings K} {chains : BitVec 64 → List Addr}
  {key : K} {fuel : ℕ}

/-- The loop finds the node with the key, with what is before it, or comes to the end. -/
theorem search_cases (hlaw : type.Lawful) {chain : List Addr}
    (hfollows : Follows null (fun n => (s.nodes n).next) chain) (hnull : null ∉ chain)
    (hfuel : chain.length < fuel) (last : Addr) :
    (∃ xs n ys, chain = xs ++ n :: ys ∧ (s.nodes n).key = key ∧
      search type s key fuel last (headOr null chain) = some (lastOr last xs, n)) ∨
    ((∀ n ∈ chain, (s.nodes n).key ≠ key) ∧
      search type s key fuel last (headOr null chain) = some (lastOr last chain, null)) := by
  induction chain generalizing fuel last with
  | nil =>
    obtain ⟨fuel, rfl⟩ := Nat.exists_eq_add_one_of_ne_zero (by omega : fuel ≠ 0)
    exact Or.inr ⟨fun n hn => absurd hn List.not_mem_nil, by simp [search]⟩
  | cons n chain ih =>
    obtain ⟨fuel, rfl⟩ := Nat.exists_eq_add_one_of_ne_zero (by omega : fuel ≠ 0)
    rw [List.mem_cons, not_or] at hnull
    rw [List.length_cons] at hfuel
    have hnext : (s.nodes n).next = headOr null chain := hfollows.1
    rw [headOr_cons, search, if_neg (Ne.symm hnull.1), hnext]
    by_cases hkey : (s.nodes n).key = key
    · exact Or.inl ⟨[], n, chain, rfl, hkey, by rw [if_pos ((hlaw _ _).mpr hkey)]; rfl⟩
    · rw [if_neg (mt (hlaw _ _).mp hkey)]
      have hlt : chain.length < fuel := by omega
      rcases ih hfollows.2 hnull.2 hlt n with ⟨xs, n', ys, hsplit, hn', hres⟩ | ⟨hnone, hres⟩
      · refine Or.inl ⟨n :: xs, n', ys, by rw [hsplit, List.cons_append], hn', ?_⟩
        rw [hres, lastOr_cons]
      · refine Or.inr ⟨fun n' hn' => ?_, by rw [hres, lastOr_cons]⟩
        rcases List.mem_cons.mp hn' with rfl | hmem
        · exact hkey
        · exact hnone n' hmem

theorem Refines.length_lt (h : Refines type s m chains) (i : BitVec 64) :
    (chains i).length < 2 ^ 64 :=
  KernelList.length_lt_of_nodup (h.nodup i) (h.nonnull i)

theorem Refines.search_cases (h : Refines type s m chains) (hlaw : type.Lawful)
    (hfuel : 2 ^ 64 ≤ fuel) (key : K) :
    (∃ xs n ys, chains (bucket type s key) = xs ++ n :: ys ∧ (s.nodes n).key = key ∧
      m key = some (s.nodes n).value ∧
      search type s key fuel null (s.entries (bucket type s key)) = some (lastOr null xs, n)) ∨
    ((∀ n ∈ chains (bucket type s key), (s.nodes n).key ≠ key) ∧ m key = none ∧
      search type s key fuel null (s.entries (bucket type s key)) =
        some (lastOr null (chains (bucket type s key)), null)) := by
  have hlt := (h.length_lt (bucket type s key)).trans_le hfuel
  rw [h.head]
  rcases Hashmap.search_cases hlaw (h.follows _) (h.nonnull _) hlt null with
    ⟨xs, n, ys, hsplit, hkey, hres⟩ | ⟨hnone, hres⟩
  · have hmem : n ∈ chains (bucket type s key) := by simp [hsplit]
    exact Or.inl ⟨xs, n, ys, hsplit, hkey, (h.bound key _).mpr ⟨n, hmem, hkey, rfl⟩, hres⟩
  · refine Or.inr ⟨hnone, ?_, hres⟩
    by_contra hsome
    obtain ⟨v, hv⟩ := Option.ne_none_iff_exists'.mp hsome
    obtain ⟨n, hn, hkey, -⟩ := (h.bound key v).mp hv
    exact hnone n hn hkey

theorem Refines.ne_null (h : Refines type s m chains) {i : BitVec 64} {n : Addr}
    (hn : n ∈ chains i) : n ≠ null :=
  ne_of_mem_of_not_mem hn (h.nonnull i)

theorem Refines.get (h : Refines type s m chains) (hlaw : type.Lawful) (hfuel : 2 ^ 64 ≤ fuel)
    (key : K) : hashmapGet type fuel s key = some ((m key).getD null) := by
  rcases h.search_cases hlaw hfuel key with ⟨xs, n, ys, hsplit, -, hm, hres⟩ | ⟨-, hm, hres⟩
  · have hn : n ≠ null := h.ne_null (by rw [hsplit]; simp)
    simp [hashmapGet, hres, hm, hn]
  · simp [hashmapGet, hres, hm]

theorem Refines.has (h : Refines type s m chains) (hlaw : type.Lawful) (hfuel : 2 ^ 64 ≤ fuel)
    (key : K) : hashmapHas type fuel s key = some (m key).isSome := by
  rcases h.search_cases hlaw hfuel key with ⟨xs, n, ys, hsplit, -, hm, hres⟩ | ⟨-, hm, hres⟩
  · have hn : n ≠ null := h.ne_null (by rw [hsplit]; simp)
    simp [hashmapHas, hres, hm, hn]
  · simp [hashmapHas, hres, hm]

end Search

section Update

variable [DecidableEq K] {type : KeyType K} {s s' : State K} {m : Bindings K}
  {chains : BitVec 64 → List Addr} {key : K} {value node : Addr} {fuel : ℕ} {i : BitVec 64}

omit [DecidableEq K] in
theorem Refines.same_chain (h : Refines type s m chains) {j : BitVec 64} {n : Addr}
    (hi : n ∈ chains i) (hj : n ∈ chains j) : i = j :=
  (h.place i n hi).symm.trans (h.place j n hj)

omit [DecidableEq K] in
/-- The end of a part of one chain lies in no other. -/
theorem Refines.ne_lastOr (h : Refines type s m chains) {j : BitVec 64} {n : Addr}
    {xs : List Addr} (hn : n ∈ chains j) (hj : j ≠ i) (hsub : xs ⊆ chains i) :
    n ≠ lastOr null xs := by
  rintro rfl
  by_cases hempty : xs = []
  · rw [hempty, lastOr_nil] at hn
    exact h.nonnull j hn
  · exact hj (h.same_chain hn (hsub (lastOr_mem hempty)))

theorem mem_update_iff {chain : List Addr} {j : BitVec 64} {n : Addr} :
    n ∈ Function.update chains i chain j ↔ (j = i ∧ n ∈ chain) ∨ (j ≠ i ∧ n ∈ chains j) := by
  rw [Function.update_apply]
  split_ifs with hj <;> simp [hj]

theorem Refines.insert (h : Refines type s m chains) (hi : bucket type s key = i)
    (hnode : node ≠ null) (hfree : s.allocated node = false)
    (habsent : ∀ n ∈ chains i, (s.nodes n).key ≠ key) (hsize : s'.size = s.size)
    (hentries : ∀ j, s'.entries j =
      headOr null (Function.update chains i (chains i ++ [node]) j))
    (hnew : s'.nodes node = ⟨key, value, null⟩)
    (hold : ∀ n ≠ node, n ≠ null → s'.nodes n =
      if n = lastOr null (chains i) then { s.nodes n with next := node } else s.nodes n)
    (halloc : ∀ n, s'.allocated n = true ↔ n = node ∨ s.allocated n = true) :
    Refines type s' (Function.update m key (some value))
      (Function.update chains i (chains i ++ [node])) := by
  have hbucket : ∀ k, bucket type s' k = bucket type s k := fun k => by simp [bucket, hsize]
  have hnotin : ∀ j, node ∉ chains j := by
    intro j hmem
    rw [h.allocated j node hmem] at hfree
    exact absurd hfree (by decide)
  have hkeep : ∀ j, ∀ n ∈ chains j,
      (s'.nodes n).key = (s.nodes n).key ∧ (s'.nodes n).value = (s.nodes n).value := by
    intro j n hn
    rw [hold n (ne_of_mem_of_not_mem hn (hnotin j)) (h.ne_null hn)]
    split_ifs <;> exact ⟨rfl, rfl⟩
  have hmem : ∀ {j n}, n ∈ Function.update chains i (chains i ++ [node]) j ↔
      (j = i ∧ n = node) ∨ n ∈ chains j := by
    intro j n
    rw [mem_update_iff, List.mem_append, List.mem_singleton]
    by_cases hj : j = i
    · subst hj
      simp [or_comm]
    · simp [hj]
  refine ⟨hentries, fun j => ?_, fun j => ?_, fun j => ?_, fun j n hn => ?_, fun j n hn => ?_,
    fun j n hn n' hn' heq => ?_, fun k v => ?_⟩
  · rw [Function.update_apply]
    split_ifs with hj
    · refine (h.follows i).concat (h.nodup i) (h.nonnull i) (by simp [hnew]) fun n hn => ?_
      rw [hold n (ne_of_mem_of_not_mem hn (hnotin i)) (h.ne_null hn)]
      split_ifs <;> rfl
    · refine (h.follows j).congr fun n hn => ?_
      rw [hold n (ne_of_mem_of_not_mem hn (hnotin j)) (h.ne_null hn),
        if_neg (h.ne_lastOr hn hj fun _ => id)]
  · rw [Function.update_apply]
    split_ifs
    · rw [← List.concat_eq_append]
      exact (h.nodup i).concat (hnotin i)
    · exact h.nodup j
  · rw [hmem, not_or]
    exact ⟨fun hnull => hnode hnull.2.symm, h.nonnull j⟩
  · rw [halloc]
    rcases hmem.mp hn with ⟨-, rfl⟩ | hn
    · exact Or.inl rfl
    · exact Or.inr (h.allocated j n hn)
  · rw [hbucket]
    rcases hmem.mp hn with ⟨rfl, rfl⟩ | hn
    · rw [hnew, hi]
    · rw [(hkeep j n hn).1, h.place j n hn]
  · rcases hmem.mp hn with ⟨hj, rfl⟩ | hin <;> rcases hmem.mp hn' with ⟨hj', rfl⟩ | hin'
    · rfl
    · rw [hnew, (hkeep j n' hin').1] at heq
      exact absurd heq.symm (habsent n' (hj ▸ hin'))
    · rw [hnew, (hkeep j n hin).1] at heq
      exact absurd heq (habsent n (hj' ▸ hin))
    · rw [(hkeep j n hin).1, (hkeep j n' hin').1] at heq
      exact h.distinct j n hin n' hin' heq
  · rw [hbucket, Function.update_apply]
    split_ifs with hk
    · subst hk
      constructor
      · intro hv
        obtain rfl := Option.some.inj hv
        exact ⟨node, hmem.mpr (Or.inl ⟨hi, rfl⟩), by rw [hnew], by rw [hnew]⟩
      · rintro ⟨n, hn, hkey, hval⟩
        rcases hmem.mp hn with ⟨-, rfl⟩ | hn
        · rw [hnew] at hval
          exact congrArg some hval
        · rw [(hkeep _ n hn).1] at hkey
          rw [hi] at hn
          exact absurd hkey (habsent n hn)
    · rw [h.bound]
      constructor
      · rintro ⟨n, hn, hkey, hval⟩
        exact ⟨n, hmem.mpr (Or.inr hn), by rw [(hkeep _ n hn).1, hkey],
          by rw [(hkeep _ n hn).2, hval]⟩
      · rintro ⟨n, hn, hkey, hval⟩
        rcases hmem.mp hn with ⟨-, rfl⟩ | hn
        · rw [hnew] at hkey
          exact absurd hkey.symm hk
        · rw [(hkeep _ n hn).1] at hkey
          rw [(hkeep _ n hn).2] at hval
          exact ⟨n, hn, hkey, hval⟩

theorem Refines.erase {xs ys : List Addr} (h : Refines type s m chains)
    (hi : bucket type s key = i) (hsplit : chains i = xs ++ node :: ys)
    (hkey : (s.nodes node).key = key) (hsize : s'.size = s.size)
    (hentries : ∀ j, s'.entries j = headOr null (Function.update chains i (xs ++ ys) j))
    (hold : ∀ n ≠ null, s'.nodes n =
      if n = lastOr null xs then { s.nodes n with next := headOr null ys } else s.nodes n)
    (halloc : ∀ n ≠ node, s'.allocated n = s.allocated n) :
    Refines type s' (Function.update m key none) (Function.update chains i (xs ++ ys)) := by
  have hbucket : ∀ k, bucket type s' k = bucket type s k := fun k => by simp [bucket, hsize]
  have hnd := h.nodup i
  have hnull := h.nonnull i
  have hin : node ∈ chains i := by rw [hsplit]; simp
  rw [hsplit] at hnd hnull
  have hsub : xs ++ ys ⊆ chains i := by
    rw [hsplit]
    exact ((List.sublist_cons_self node ys).append_left xs).subset
  have hkeep : ∀ j, ∀ n ∈ chains j,
      (s'.nodes n).key = (s.nodes n).key ∧ (s'.nodes n).value = (s.nodes n).value := by
    intro j n hn
    rw [hold n (h.ne_null hn)]
    split_ifs <;> exact ⟨rfl, rfl⟩
  have hmem : ∀ {j n}, n ∈ Function.update chains i (xs ++ ys) j ↔ n ∈ chains j ∧ n ≠ node := by
    intro j n
    rw [mem_update_iff]
    constructor
    · rintro (⟨rfl, hn⟩ | ⟨hj, hn⟩)
      · refine ⟨hsub hn, ?_⟩
        rintro rfl
        exact (List.nodup_middle.mp hnd).notMem hn
      · refine ⟨hn, ?_⟩
        rintro rfl
        exact hj (h.same_chain hn hin)
    · rintro ⟨hn, hne⟩
      by_cases hj : j = i
      · subst hj
        rw [hsplit] at hn
        refine Or.inl ⟨rfl, ?_⟩
        simpa [hne] using hn
      · exact Or.inr ⟨hj, hn⟩
  refine ⟨hentries, fun j => ?_, fun j => ?_, fun j hn => ?_, fun j n hn => ?_, fun j n hn => ?_,
    fun j n hn n' hn' heq => ?_, fun k v => ?_⟩
  · rw [Function.update_apply]
    split_ifs with hj
    · have hfollows := h.follows i
      rw [hsplit] at hfollows
      refine hfollows.erase hnd hnull fun n hn => ?_
      rw [hold n (h.ne_null (hsub hn))]
      split_ifs <;> rfl
    · refine (h.follows j).congr fun n hn => ?_
      rw [hold n (h.ne_null hn),
        if_neg (h.ne_lastOr hn hj fun _ hx => hsub (List.mem_append_left ys hx))]
  · rw [Function.update_apply]
    split_ifs
    · exact (List.nodup_middle.mp hnd).of_cons
    · exact h.nodup j
  · exact h.nonnull j (hmem.mp hn).1
  · obtain ⟨hn, hne⟩ := hmem.mp hn
    rw [halloc n hne, h.allocated j n hn]
  · obtain ⟨hn, -⟩ := hmem.mp hn
    rw [hbucket, (hkeep j n hn).1, h.place j n hn]
  · obtain ⟨hn, -⟩ := hmem.mp hn
    obtain ⟨hn', -⟩ := hmem.mp hn'
    rw [(hkeep j n hn).1, (hkeep j n' hn').1] at heq
    exact h.distinct j n hn n' hn' heq
  · have hiff : (∃ n ∈ Function.update chains i (xs ++ ys) (bucket type s k),
        (s'.nodes n).key = k ∧ (s'.nodes n).value = v) ↔
        ∃ n ∈ chains (bucket type s k), n ≠ node ∧ (s.nodes n).key = k ∧ (s.nodes n).value = v := by
      constructor
      · rintro ⟨n, hn, hk, hv⟩
        obtain ⟨hn, hne⟩ := hmem.mp hn
        rw [(hkeep _ n hn).1] at hk
        rw [(hkeep _ n hn).2] at hv
        exact ⟨n, hn, hne, hk, hv⟩
      · rintro ⟨n, hn, hne, hk, hv⟩
        exact ⟨n, hmem.mpr ⟨hn, hne⟩, by rw [(hkeep _ n hn).1, hk], by rw [(hkeep _ n hn).2, hv]⟩
    rw [hbucket, hiff, Function.update_apply]
    split_ifs with hk
    · simp only [false_iff]
      rintro ⟨n, hn, hne, hnk, -⟩
      rw [hk, hi] at hn
      exact hne (h.distinct i n hn node hin (by rw [hnk, hk, hkey]))
    · rw [h.bound]
      constructor
      · rintro ⟨n, hn, hnk, hv⟩
        refine ⟨n, hn, ?_, hnk, hv⟩
        rintro rfl
        exact hk (hnk.symm.trans hkey)
      · rintro ⟨n, hn, -, hnk, hv⟩
        exact ⟨n, hn, hnk, hv⟩

theorem Refines.setValue (h : Refines type s m chains)
    (hin : node ∈ chains (bucket type s key)) (hkey : (s.nodes node).key = key) (value : Addr) :
    Refines type (s.setNode node ({ · with value := value })) (Function.update m key (some value))
      chains := by
  have hnodes : ∀ n, ((s.setNode node ({ · with value := value })).nodes n).key = (s.nodes n).key ∧
      ((s.setNode node ({ · with value := value })).nodes n).next = (s.nodes n).next ∧
      ((s.setNode node ({ · with value := value })).nodes n).value =
        if n = node then value else (s.nodes n).value := by
    intro n
    simp only [State.setNode, Function.update_apply]
    split_ifs with hn
    · exact ⟨by rw [hn], by rw [hn], rfl⟩
    · exact ⟨rfl, rfl, rfl⟩
  refine ⟨h.head, fun j => (h.follows j).congr fun n _ => (hnodes n).2.1, h.nodup, h.nonnull,
    h.allocated, fun j n hn => ?_, fun j n hn n' hn' heq => ?_, fun k v => ?_⟩
  · rw [(hnodes n).1]
    exact h.place j n hn
  · rw [(hnodes n).1, (hnodes n').1] at heq
    exact h.distinct j n hn n' hn' heq
  · change _ ↔ ∃ n ∈ chains (bucket type s k), _
    simp only [hnodes, Function.update_apply]
    split_ifs with hk
    · subst hk
      constructor
      · intro hv
        obtain rfl := Option.some.inj hv
        exact ⟨node, hin, hkey, if_pos rfl⟩
      · rintro ⟨n, hn, hnk, hv⟩
        have heq := h.distinct _ n hn node hin (hnk.trans hkey.symm)
        rw [if_pos heq] at hv
        exact congrArg some hv
    · rw [h.bound]
      refine exists_congr fun n => and_congr_right fun _ => and_congr_right fun hnk => ?_
      have hne : n ≠ node := by
        rintro rfl
        exact hk (hnk.symm.trans hkey)
      rw [if_neg hne]

theorem Refines.set (h : Refines type s m chains) (hlaw : type.Lawful) (hfuel : 2 ^ 64 ≤ fuel)
    (hnode : node ≠ null) (hfree : s.allocated node = false) (key : K) (value : Addr) :
    ∃ s' chains', hashmapSet type fuel s key value node = some s' ∧ s'.size = s.size ∧
      Refines type s' (Function.update m key (some value)) chains' := by
  have hhead := h.head (bucket type s key)
  have hnonnull := h.nonnull (bucket type s key)
  have halloc : ∀ n, Function.update s.allocated node true n = true ↔
      n = node ∨ s.allocated n = true := by
    intro n
    rw [Function.update_apply]
    split_ifs with hn <;> simp [hn]
  unfold hashmapSet
  dsimp only
  by_cases hempty : chains (bucket type s key) = []
  · rw [if_pos (by rw [hhead, hempty, headOr_nil])]
    refine ⟨_, _, rfl, rfl, h.insert rfl hnode hfree (by simp [hempty]) rfl (fun j => ?_)
      (by simp [State.newNode, State.setEntry]) (fun n hn hnull => ?_) halloc⟩
    · simp only [State.setEntry, State.newNode, Function.update_apply, hempty]
      split_ifs
      · rfl
      · exact h.head j
    · simp [State.newNode, State.setEntry, hn, hempty, hnull]
  · rw [if_neg (by rwa [hhead, headOr_eq_null_iff hnonnull])]
    rcases h.search_cases hlaw hfuel key with
      ⟨xs, n, ys, hsplit, hkey, -, hres⟩ | ⟨habsent, -, hres⟩
    · have hin : n ∈ chains (bucket type s key) := by rw [hsplit]; simp
      simp only [hres, Option.bind_eq_bind, Option.bind_some, if_pos (h.ne_null hin)]
      exact ⟨_, chains, rfl, rfl, h.setValue hin hkey value⟩
    · have hlast : lastOr null (chains (bucket type s key)) ∈ chains (bucket type s key) :=
        lastOr_mem hempty
      have hne : lastOr null (chains (bucket type s key)) ≠ node := by
        intro heq
        rw [heq] at hlast
        rw [h.allocated _ _ hlast] at hfree
        exact absurd hfree (by decide)
      simp only [hres, Option.bind_eq_bind, Option.bind_some, ne_eq, not_true_eq_false, if_false]
      refine ⟨_, _, rfl, rfl, h.insert rfl hnode hfree habsent rfl (fun j => ?_) ?_
        (fun n hn hnull => ?_) halloc⟩
      · rw [Function.update_apply]
        split_ifs with hj
        · rw [headOr_append hempty, hj]
          exact hhead
        · exact h.head j
      · simp [State.setNode, State.newNode, hne.symm]
      · simp only [State.setNode, State.newNode, Function.update_apply, if_neg hn, if_neg hne]
        split_ifs with hl
        · rw [hl]
        · rfl

theorem Refines.remove (h : Refines type s m chains) (hlaw : type.Lawful) (hfuel : 2 ^ 64 ≤ fuel)
    (key : K) :
    ∃ s' chains', hashmapRemove type fuel s key = some (s', (m key).getD null) ∧
      s'.size = s.size ∧ Refines type s' (Function.update m key none) chains' := by
  have hhead := h.head (bucket type s key)
  have hnonnull := h.nonnull (bucket type s key)
  unfold hashmapRemove
  dsimp only
  rcases h.search_cases hlaw hfuel key with
    ⟨xs, n, ys, hsplit, hkey, hm, hres⟩ | ⟨habsent, hm, hres⟩
  · have hin : n ∈ chains (bucket type s key) := by rw [hsplit]; simp
    have hfollows := h.follows (bucket type s key)
    rw [hsplit] at hfollows
    have hnext : (s.nodes n).next = headOr null ys := hfollows.at_split
    have hfreed : ∀ n' ≠ n, Function.update s.allocated n false n' = s.allocated n' :=
      fun n' hn' => Function.update_of_ne hn' _ _
    have hentry : ¬ s.entries (bucket type s key) = null := by
      rw [hhead, headOr_eq_null_iff hnonnull]
      exact List.ne_nil_of_mem hin
    rw [if_neg hentry]
    cases xs with
    | nil =>
      have hfirst : s.entries (bucket type s key) = n := by rw [hhead, hsplit]; rfl
      rw [hfirst, if_pos ((hlaw _ _).mpr hkey), hm]
      refine ⟨_, _, rfl, rfl, h.erase rfl hsplit hkey rfl (fun j => ?_)
        (fun n' hn' => ?_) hfreed⟩
      · simp only [State.kfree, State.setEntry, Function.update_apply]
        split_ifs
        · exact hnext
        · exact h.head j
      · rw [lastOr_nil, if_neg hn']
        rfl
    | cons x xs =>
      have hfirst : s.entries (bucket type s key) = x := by rw [hhead, hsplit]; rfl
      have hx : x ∈ chains (bucket type s key) := by rw [hsplit]; simp
      have hne : (s.nodes x).key ≠ key := by
        intro hxkey
        have hnd := h.nodup (bucket type s key)
        have heq := h.distinct _ x hx n hin (hxkey.trans hkey.symm)
        rw [hsplit, List.cons_append, List.nodup_cons, heq] at hnd
        exact hnd.1 (by simp)
      have hcompare : ¬ type.compare (s.nodes (s.entries (bucket type s key))).key key = true := by
        rw [hfirst]
        exact mt (hlaw _ _).mp hne
      rw [if_neg hcompare, hm]
      simp only [hres, Option.bind_eq_bind, Option.bind_some, if_pos (h.ne_null hin)]
      refine ⟨_, _, rfl, rfl, h.erase rfl hsplit hkey rfl (fun j => ?_)
        (fun n' hn' => ?_) hfreed⟩
      · rw [Function.update_apply]
        split_ifs with hj
        · rw [hj, List.cons_append, headOr_cons]
          exact hfirst
        · exact h.head j
      · simp only [State.kfree, State.setNode, Function.update_apply, hnext]
        split_ifs with hl
        · rw [hl]
        · rfl
  · have hsame : Function.update m key none = m := by
      rw [← hm, Function.update_eq_self]
    rw [hm, hsame]
    by_cases hempty : chains (bucket type s key) = []
    · rw [if_pos (by rw [hhead, hempty, headOr_nil])]
      exact ⟨s, chains, rfl, rfl, h⟩
    · have hfirst : headOr null (chains (bucket type s key)) ∈ chains (bucket type s key) :=
        headOr_mem hempty
      rw [if_neg (by rwa [hhead, headOr_eq_null_iff hnonnull]),
        if_neg (by rw [hhead]; exact mt (hlaw _ _).mp (habsent _ hfirst))]
      simp only [hres, Option.bind_eq_bind, Option.bind_some, ne_eq, not_true_eq_false, if_false]
      exact ⟨s, chains, rfl, rfl, h⟩

end Update

section Listing

variable {type : KeyType K} {s : State K} {m : Bindings K} {chains : BitVec 64 → List Addr}
  {fuel inner : ℕ} {β : Type}

theorem collect_eq {chain : List Addr} (field : HashNode K → β)
    (hfollows : Follows null (fun n => (s.nodes n).next) chain) (hnull : null ∉ chain)
    (hfuel : chain.length < fuel) :
    collect s field fuel (headOr null chain) = some (chain.map fun n => field (s.nodes n)) := by
  induction chain generalizing fuel with
  | nil =>
    obtain ⟨fuel, rfl⟩ := Nat.exists_eq_add_one_of_ne_zero (by omega : fuel ≠ 0)
    simp [collect]
  | cons n chain ih =>
    obtain ⟨fuel, rfl⟩ := Nat.exists_eq_add_one_of_ne_zero (by omega : fuel ≠ 0)
    rw [List.mem_cons, not_or] at hnull
    rw [List.length_cons] at hfuel
    have hlt : chain.length < fuel := by omega
    have hnext : (s.nodes n).next = headOr null chain := hfollows.1
    rw [headOr_cons, collect, if_neg (Ne.symm hnull.1), hnext, ih hfollows.2 hnull.2 hlt]
    rfl

theorem counter_lt_iff (i : BitVec 32) (size : BitVec 64) :
    i.setWidth 64 < size ↔ i.toNat < size.toNat := by
  rw [BitVec.lt_def, BitVec.toNat_setWidth_of_le (by decide)]

theorem counter_eq (i : BitVec 32) : i.setWidth 64 = BitVec.ofNat 64 i.toNat := by
  apply BitVec.eq_of_toNat_eq
  rw [BitVec.toNat_setWidth_of_le (by decide), BitVec.toNat_ofNat]
  omega

/-- The buckets from one on, where the counter can count them. -/
theorem Refines.collectFrom_eq (h : Refines type s m chains) (field : HashNode K → β)
    (hsize : s.size.toNat < 2 ^ 32) (hinner : 2 ^ 64 ≤ inner) {i : BitVec 32}
    (hi : i.toNat ≤ s.size.toNat) (hfuel : s.size.toNat - i.toNat < fuel) :
    collectFrom s field inner fuel i =
      some ((List.range' i.toNat (s.size.toNat - i.toNat)).flatMap fun j =>
        (chains (BitVec.ofNat 64 j)).map fun n => field (s.nodes n)) := by
  induction fuel generalizing i with
  | zero => omega
  | succ fuel ih =>
    rw [collectFrom]
    simp only [counter_lt_iff]
    by_cases hlt : i.toNat < s.size.toNat
    · have hsucc : (i + 1).toNat = i.toNat + 1 := by
        rw [BitVec.toNat_add]
        change (i.toNat + 1) % 2 ^ 32 = _
        omega
      have hchain := collect_eq field (h.follows (i.setWidth 64)) (h.nonnull _)
        ((h.length_lt _).trans_le hinner)
      obtain ⟨n, hn⟩ : ∃ n, s.size.toNat - i.toNat = n + 1 := ⟨s.size.toNat - i.toNat - 1, by omega⟩
      have hrest : s.size.toNat - (i + 1).toNat = n := by omega
      have htail := ih (by omega : (i + 1).toNat ≤ s.size.toNat) (by omega)
      rw [hrest, hsucc] at htail
      rw [if_pos hlt, h.head, hchain, htail, hn, List.range'_succ, counter_eq]
      rfl
    · rw [if_neg hlt, Nat.sub_eq_zero_of_le (Nat.le_of_not_lt hlt)]
      rfl

def allKeys (s : State K) (chains : BitVec 64 → List Addr) : List K :=
  (List.range' 0 s.size.toNat).flatMap fun j =>
    (chains (BitVec.ofNat 64 j)).map fun n => (s.nodes n).key

theorem Refines.value_eq (h : Refines type s m chains) {i : BitVec 64} {n : Addr}
    (hn : n ∈ chains i) : m (s.nodes n).key = some (s.nodes n).value :=
  (h.bound _ _).mpr ⟨n, (h.place i n hn).symm ▸ hn, rfl, rfl⟩

theorem Refines.lists_allKeys (h : Refines type s m chains) (hsize : 0 < s.size.toNat) :
    Lists m (allKeys s chains) := by
  constructor
  · unfold allKeys
    rw [List.nodup_flatMap]
    refine ⟨fun j _ => (h.nodup _).map_on fun n hn n' hn' heq => h.distinct _ n hn n' hn' heq, ?_⟩
    refine (List.nodup_range' : (List.range' 0 _).Nodup).imp_of_mem
      fun {j j'} hj hj' hne k hk hk' => hne ?_
    obtain ⟨n, hn, rfl⟩ := List.mem_map.mp hk
    obtain ⟨n', hn', hkey⟩ := List.mem_map.mp hk'
    have hsame : BitVec.ofNat 64 j' = BitVec.ofNat 64 j := by
      rw [← h.place _ n hn, ← h.place _ n' hn', hkey]
    have hmod := congrArg BitVec.toNat hsame
    rw [List.mem_range'_1] at hj hj'
    rw [BitVec.toNat_ofNat, BitVec.toNat_ofNat] at hmod
    omega
  · intro k
    simp only [allKeys, List.mem_flatMap, List.mem_map]
    constructor
    · rintro ⟨j, -, n, hn, rfl⟩
      rw [h.value_eq hn]
      rfl
    · intro hk
      obtain ⟨v, hv⟩ := Option.isSome_iff_exists.mp hk
      obtain ⟨n, hn, hkey, -⟩ := (h.bound k v).mp hv
      refine ⟨(bucket type s k).toNat, ?_, n, by rwa [BitVec.ofNat_toNat, BitVec.setWidth_eq], hkey⟩
      rw [List.mem_range'_1, bucket, BitVec.toNat_umod]
      have hmod := Nat.mod_lt (type.hash k).toNat hsize
      omega

theorem Refines.collectFrom_zero (h : Refines type s m chains) (field : HashNode K → β)
    (hsize : s.size.toNat < 2 ^ 32) (hfuel : 2 ^ 64 ≤ fuel) :
    collectFrom s field fuel fuel 0 = some ((List.range' 0 s.size.toNat).flatMap fun j =>
      (chains (BitVec.ofNat 64 j)).map fun n => field (s.nodes n)) := by
  have hzero : (0 : BitVec 32).toNat = 0 := rfl
  have hall := h.collectFrom_eq field hsize hfuel
    (by omega : (0 : BitVec 32).toNat ≤ s.size.toNat) (by omega : _ < fuel)
  rwa [hzero, Nat.sub_zero] at hall

theorem Refines.keys (h : Refines type s m chains) (hsize : s.size.toNat < 2 ^ 32)
    (hfuel : 2 ^ 64 ≤ fuel) : hashmapKeys fuel s = some (allKeys s chains) :=
  h.collectFrom_zero HashNode.key hsize hfuel

theorem Refines.values (h : Refines type s m chains) (hsize : s.size.toNat < 2 ^ 32)
    (hfuel : 2 ^ 64 ≤ fuel) :
    hashmapValues fuel s = some ((allKeys s chains).map fun k => (m k).getD null) := by
  refine (h.collectFrom_zero HashNode.value hsize hfuel).trans (congrArg some ?_)
  simp only [allKeys, List.map_flatMap, List.map_map]
  refine List.flatMap_congr fun j _ => List.map_congr_left fun n hn => ?_
  simp [h.value_eq hn]

end Listing

section Run

variable [DecidableEq K] {type : KeyType K} {s : State K} {m : Bindings K}
  {chains : BitVec 64 → List Addr} {fuel : ℕ}

omit [DecidableEq K] in
theorem refines_create (type : KeyType K) (size : BitVec 64) (nodes : Addr → HashNode K)
    (allocated : Addr → Bool) :
    Refines type (newMap size nodes allocated) (fun _ => none) fun _ => [] where
  head _ := rfl
  follows _ := trivial
  nodup _ := List.nodup_nil
  nonnull _ := List.not_mem_nil
  allocated _ n hn := absurd hn List.not_mem_nil
  place _ n hn := absurd hn List.not_mem_nil
  distinct _ n hn := absurd hn List.not_mem_nil
  bound k v := by simp

/-- One call with a key answers as the map does, and leaves the table as the map that it leaves. -/
theorem Refines.step_key (h : Refines type s m chains) (hlaw : type.Lawful)
    (hfuel : 2 ^ 64 ≤ fuel) {op : Op K} (hkey : (key? op).isSome) (hop : s.Allowed op) :
    ∃ s' chains' answer, s.step type fuel op = some (s', answer) ∧ s'.size = s.size ∧
      Refines type s' (m.step op) chains' ∧ Answers m op answer := by
  cases op with
  | set key value node =>
    obtain ⟨s', chains', hset, hsame, h'⟩ := h.set hlaw hfuel hop.1 hop.2 key value
    exact ⟨s', chains', .nothing, by simp [State.step, hset], hsame, h', rfl⟩
  | get key =>
    exact ⟨s, chains, _, by rw [State.step, h.get hlaw hfuel]; rfl, rfl, h, rfl⟩
  | has key =>
    exact ⟨s, chains, _, by rw [State.step, h.has hlaw hfuel]; rfl, rfl, h, rfl⟩
  | remove key =>
    obtain ⟨s', chains', hremove, hsame, h'⟩ := h.remove hlaw hfuel key
    exact ⟨s', chains', _, by simp [State.step, hremove], hsame, h', rfl⟩
  | keys => exact absurd hkey Bool.false_ne_true
  | values => exact absurd hkey Bool.false_ne_true

/-- And so does any call, where the keys can be listed. -/
theorem Refines.step (h : Refines type s m chains) (hlaw : type.Lawful)
    (hpos : 0 < s.size.toNat) (hsize : s.size.toNat < 2 ^ 32) (hfuel : 2 ^ 64 ≤ fuel) {op : Op K}
    (hop : s.Allowed op) :
    ∃ s' chains' answer, s.step type fuel op = some (s', answer) ∧ s'.size = s.size ∧
      Refines type s' (m.step op) chains' ∧ Answers m op answer := by
  cases op with
  | set | get | has | remove => exact h.step_key hlaw hfuel rfl hop
  | keys =>
    refine ⟨s, chains, _, by rw [State.step, h.keys hsize hfuel]; rfl, rfl, h, ?_⟩
    exact ⟨_, h.lists_allKeys hpos, rfl⟩
  | values =>
    refine ⟨s, chains, _, by rw [State.step, h.values hsize hfuel]; rfl, rfl, h, ?_⟩
    exact ⟨_, h.lists_allKeys hpos, rfl⟩

theorem Refines.run (h : Refines type s m chains) (hlaw : type.Lawful)
    (hpos : 0 < s.size.toNat) (hsize : s.size.toNat < 2 ^ 32) (hfuel : 2 ^ 64 ≤ fuel)
    {ops : List (Op K)} (hops : s.AllAllowed type ops) :
    ∃ s' answers, s.run type fuel ops = some (s', answers) ∧ AnswersAll m ops answers := by
  induction ops generalizing s m chains with
  | nil => exact ⟨s, [], rfl, rfl⟩
  | cons op ops ih =>
    obtain ⟨s₁, chains₁, answer, hstep, hsame, h₁, hanswer⟩ := h.step hlaw hpos hsize hfuel hops.1
    rw [← hsame] at hpos hsize
    obtain ⟨s₂, answers, hrun, hall⟩ := ih h₁ hpos hsize (hops.2 fuel s₁ answer hstep)
    refine ⟨s₂, answer :: answers, ?_, answer, answers, rfl, hanswer, hall⟩
    simp only [State.run, hstep, hrun, Option.bind_eq_bind, Option.bind_some]

end Run

end ReduceOS.Hashmap
