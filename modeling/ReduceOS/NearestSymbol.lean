import ReduceOS.LongKeys

/-!
Looking up the symbol that an address is behind. `ksym_find_best_symbol` goes through all chains
of the symbol map and keeps the greatest address below the one asked for, with the name of the
node that it is from.
-/
namespace ReduceOS.NearestSymbol

open Machine LinkedSequence Hashmap LongKeys

section Source

variable {K : Type}

abbrev Match (K : Type) := Addr × Option K

def visit (s : State K) (address : Addr) (best : Match K) (node : Addr) : Match K :=
  let symAddr := (s.nodes node).value
  if symAddr < address ∧ symAddr > best.1 then (symAddr, some (s.nodes node).key) else best

def bestInChain (s : State K) (address : Addr) : ℕ → Addr → Match K → Option (Match K)
  | 0, _, _ => none
  | fuel + 1, node, best =>
    if node = null then some best
    else bestInChain s address fuel (s.nodes node).next (visit s address best node)

def bestFrom (s : State K) (address : Addr) (inner : ℕ) :
    ℕ → BitVec 64 → Match K → Option (Match K)
  | 0, _, _ => none
  | fuel + 1, i, best =>
    if i < s.size then do
      let best ← bestInChain s address inner (s.entries i) best
      bestFrom s address inner fuel (i + 1) best
    else some best

def ksymFindBestSymbol (fuel : ℕ) (ksymHashmap : Option (State K)) (address : Addr)
    (name : Option K) : Option (Match K) :=
  match ksymHashmap with
  | none => some (0, name)
  | some s => bestFrom s address fuel fuel 0 (0, name)

end Source

section Best

variable {α K : Type} [LE α] [LT α] [Std.IsLinearOrder α] [Std.LawfulOrderLT α] [DecidableLT α]

structure Best (first limit : α) (entries : List (α × K)) (best : α × Option K) : Prop where
  upper : ∀ e ∈ entries, e.1 < limit → e.1 ≤ best.1
  least : first ≤ best.1
  attained : first < best.1 → best.1 < limit ∧ ∃ name, best.2 = some name ∧ (best.1, name) ∈ entries

variable {first limit : α} {entries : List (α × K)} {best : α × Option K}

omit [DecidableLT α] in
theorem best_nil (first limit : α) (name : Option K) : Best first limit [] (first, name) where
  upper _ he := absurd he List.not_mem_nil
  least := Std.le_refl first
  attained h := absurd h Std.lt_irrefl

theorem Best.concat (h : Best first limit entries best) (e : α × K) :
    Best first limit (entries ++ [e])
      (if e.1 < limit ∧ e.1 > best.1 then (e.1, some e.2) else best) := by
  split_ifs with hbetter
  · have hle := Std.le_of_lt hbetter.2
    refine ⟨?_, Std.le_trans h.least hle, ?_⟩
    · intro e' he' hlimit
      rcases List.mem_append.mp he' with hmem | hmem
      · exact Std.le_trans (h.upper e' hmem hlimit) hle
      · rw [List.mem_singleton.mp hmem]
        exact Std.le_refl e.1
    · exact fun _ => ⟨hbetter.1, e.2, rfl, List.mem_append_right _ List.mem_cons_self⟩
  · refine ⟨?_, h.least, ?_⟩
    · intro e' he' hlimit
      rcases List.mem_append.mp he' with hmem | hmem
      · exact h.upper e' hmem hlimit
      · rw [List.mem_singleton.mp hmem] at hlimit ⊢
        exact Std.not_lt.mp fun hlt => hbetter ⟨hlimit, hlt⟩
    · intro hlt
      obtain ⟨hlimit, name, hname, hmem⟩ := h.attained hlt
      exact ⟨hlimit, name, hname, List.mem_append_left _ hmem⟩

end Best

section Loops

variable {K K' : Type} {type : KeyType K'} {g : K → K'} {s : State K} {m : Bindings K'}
  {chains : BitVec 64 → List Addr} {address : Addr} {best : Match K} {fuel inner : ℕ}

def entry (s : State K) (n : Addr) : Addr × K := ((s.nodes n).value, (s.nodes n).key)

theorem visit_eq (s : State K) (address : Addr) (best : Match K) (n : Addr) :
    visit s address best n = if (entry s n).1 < address ∧ (entry s n).1 > best.1
      then ((entry s n).1, some (entry s n).2) else best := rfl

/-- The loop down a chain goes on with what was found before. -/
theorem bestInChain_best {chain : List Addr} {entries : List (Addr × K)}
    (hfollows : Follows null (fun n => (s.nodes n).next) chain) (hnull : null ∉ chain)
    (hfuel : chain.length < fuel) (hbest : Best 0 address entries best) :
    ∃ best', bestInChain s address fuel (headOr null chain) best = some best' ∧
      Best 0 address (entries ++ chain.map (entry s)) best' := by
  induction chain generalizing fuel best entries with
  | nil =>
    obtain ⟨fuel, rfl⟩ := Nat.exists_eq_add_one_of_ne_zero (by omega : fuel ≠ 0)
    exact ⟨best, by simp [bestInChain], by simpa using hbest⟩
  | cons n chain ih =>
    obtain ⟨fuel, rfl⟩ := Nat.exists_eq_add_one_of_ne_zero (by omega : fuel ≠ 0)
    rw [List.mem_cons, not_or] at hnull
    rw [List.length_cons] at hfuel
    have hnext : (s.nodes n).next = headOr null chain := hfollows.1
    have hvisit := hbest.concat (entry s n)
    rw [← visit_eq] at hvisit
    have hlt : chain.length < fuel := by omega
    obtain ⟨best', hloop, hbest'⟩ := ih hfollows.2 hnull.2 hlt hvisit
    refine ⟨best', ?_, by simpa using hbest'⟩
    rw [headOr_cons, bestInChain, if_neg (Ne.symm hnull.1), hnext, hloop]

def entriesFrom (s : State K) (chains : BitVec 64 → List Addr) (i n : ℕ) : List (Addr × K) :=
  (List.range' i n).flatMap fun j => (chains (BitVec.ofNat 64 j)).map (entry s)

/-- The loop over the buckets from one on, where the number left is `n`. -/
theorem bestFrom_best (h : Refines type (mapKeys g s) m chains) (hinner : 2 ^ 64 ≤ inner)
    {entries : List (Addr × K)} {i : BitVec 64} {n : ℕ} (hn : i.toNat + n = s.size.toNat)
    (hfuel : n < fuel) (hbest : Best 0 address entries best) :
    ∃ best', bestFrom s address inner fuel i best = some best' ∧
      Best 0 address (entries ++ entriesFrom s chains i.toNat n) best' := by
  induction n generalizing fuel i entries best with
  | zero =>
    obtain ⟨fuel, rfl⟩ := Nat.exists_eq_add_one_of_ne_zero (by omega : fuel ≠ 0)
    have hend : ¬ i < s.size := by
      rw [BitVec.lt_def]
      omega
    exact ⟨best, by rw [bestFrom, if_neg hend], by simpa [entriesFrom] using hbest⟩
  | succ n ih =>
    obtain ⟨fuel, rfl⟩ := Nat.exists_eq_add_one_of_ne_zero (by omega : fuel ≠ 0)
    have hlt : i < s.size := by
      rw [BitVec.lt_def]
      omega
    have hsucc : (i + 1).toNat = i.toNat + 1 := by
      have hsize := s.size.isLt
      rw [BitVec.toNat_add]
      change (i.toNat + 1) % 2 ^ 64 = _
      omega
    have hhead : s.entries i = headOr null (chains i) := h.head i
    have hfollows : Follows null (fun n => (s.nodes n).next) (chains i) := h.follows i
    have hlength : (chains i).length < inner := (h.length_lt i).trans_le hinner
    obtain ⟨best₁, hchain, hbest₁⟩ := bestInChain_best hfollows (h.nonnull i) hlength hbest
    have hrest : (i + 1).toNat + n = s.size.toNat := by omega
    have hlt' : n < fuel := by omega
    obtain ⟨best', hloop, hbest'⟩ := ih hrest hlt' hbest₁
    refine ⟨best', ?_, ?_⟩
    · rw [bestFrom, if_pos hlt, hhead, hchain, Option.bind_eq_bind, Option.bind_some, hloop]
    · have hi : BitVec.ofNat 64 i.toNat = i := by rw [BitVec.ofNat_toNat, BitVec.setWidth_eq]
      rw [hsucc] at hbest'
      simpa [entriesFrom, List.range'_succ, hi] using hbest'

theorem value_of_mem_entriesFrom (h : Refines type (mapKeys g s) m chains) {i n : ℕ} {a : Addr}
    {key : K} (hmem : (a, key) ∈ entriesFrom s chains i n) : m (g key) = some a := by
  simp only [entriesFrom, List.mem_flatMap, List.mem_map] at hmem
  obtain ⟨j, -, n, hn, heq⟩ := hmem
  obtain ⟨rfl, rfl⟩ := Prod.mk.inj heq
  exact h.value_eq hn

theorem mem_entriesFrom_iff (h : Refines type (mapKeys g s) m chains) (hsize : 0 < s.size.toNat)
    (a : Addr) : (∃ key, (a, key) ∈ entriesFrom s chains 0 s.size.toNat) ↔
      ∃ key, m (g key) = some a := by
  constructor
  · rintro ⟨key, hmem⟩
    exact ⟨key, value_of_mem_entriesFrom h hmem⟩
  · rintro ⟨key, hkey⟩
    obtain ⟨n, hn, -, hvalue⟩ := (h.bound _ _).mp hkey
    simp only [entriesFrom, List.mem_flatMap, List.mem_map]
    refine ⟨(s.nodes n).key, (bucket type (mapKeys g s) (g key)).toNat, ?_, n, ?_, ?_⟩
    · rw [List.mem_range'_1, bucket, BitVec.toNat_umod]
      have hmod := Nat.mod_lt (type.hash (g key)).toNat hsize
      have hsame : (mapKeys g s).size = s.size := rfl
      rw [hsame]
      omega
    · rwa [BitVec.ofNat_toNat, BitVec.setWidth_eq]
    · have hv : (s.nodes n).value = a := hvalue
      rw [entry, hv]

end Loops

section Maps

variable {fuel : ℕ} {s : State Key} {m : Bindings Slot} {chains : BitVec 64 → List Addr}
  {ksymHashmap : Option (State Key)} {address a : Addr}

/-- The symbol map: none yet, or a table with some buckets after any calls with names on it. -/
inductive SymbolMap (fuel : ℕ) : Option (State Key) → Prop
  | missing : SymbolMap fuel none
  | built {size : BitVec 64} {nodes : Addr → HashNode Key} {allocated : Addr → Bool}
      {ops : List (Op Key)} {s : State Key} {answers : List (Answer Key)} (hsize : size ≠ 0)
      (hkeys : ∀ op ∈ ops, (key? op).isSome)
      (hops : (newMap size nodes allocated).AllAllowed longKeys ops)
      (hrun : (newMap size nodes allocated).run longKeys fuel ops = some (s, answers)) :
      SymbolMap fuel (some s)

def Bound (fuel : ℕ) (ksymHashmap : Option (State Key)) (key : Key) (a : Addr) : Prop :=
  ∃ s ∈ ksymHashmap, hashmapGet longKeys fuel s key = some a

/-- A symbol's address strictly between 0 and the one asked for. -/
def Candidate (fuel : ℕ) (ksymHashmap : Option (State Key)) (address a : Addr) : Prop :=
  0 < a ∧ a < address ∧ ∃ key, Bound fuel ksymHashmap key a

/-- A run of calls leaves a table of what is looked at of the names. -/
theorem refines_of_run {ops : List (Op Key)} {s' : State Key} {answers : List (Answer Key)}
    (h : Refines slotKeys (mapKeys (slot s.size) s) m chains) (hfuel : 2 ^ 64 ≤ fuel)
    (hkeys : ∀ op ∈ ops, (key? op).isSome) (hops : s.AllAllowed longKeys ops)
    (hrun : s.run longKeys fuel ops = some (s', answers)) : s'.size = s.size ∧
      ∃ m' chains', Refines slotKeys (mapKeys (slot s'.size) s') m' chains' := by
  induction ops generalizing s m chains answers with
  | nil =>
    obtain ⟨rfl, -⟩ := Prod.mk.inj (Option.some.inj hrun)
    exact ⟨rfl, m, chains, h⟩
  | cons op ops ih =>
    obtain ⟨s₁, m₁, chains₁, answer, hstep, hsize, h₁⟩ :=
      slot_step h hfuel (hkeys op List.mem_cons_self) hops.1
    simp only [State.run, hstep, Option.bind_eq_bind, Option.bind_some] at hrun
    obtain ⟨⟨s₂, rest⟩, hrest, heq⟩ := Option.bind_eq_some_iff.mp hrun
    obtain ⟨rfl, rfl⟩ := Prod.mk.inj (Option.some.inj heq)
    obtain ⟨hsize', hrefines⟩ := ih h₁ (fun op' hop' => hkeys op' (List.mem_cons_of_mem op hop'))
      (hops.2 fuel s₁ answer hstep) hrest
    exact ⟨hsize'.trans hsize, hrefines⟩

theorem SymbolMap.refines (h : SymbolMap fuel (some s)) (hfuel : 2 ^ 64 ≤ fuel) :
    0 < s.size.toNat ∧ ∃ m chains, Refines slotKeys (mapKeys (slot s.size) s) m chains := by
  cases h with
  | @built size nodes allocated ops s answers hsize hkeys hops hrun =>
    obtain ⟨hsame, hrefines⟩ :=
      refines_of_run (refines_slot_create size nodes allocated) hfuel hkeys hops hrun
    refine ⟨?_, hrefines⟩
    rw [hsame, Nat.pos_iff_ne_zero]
    exact fun hzero => hsize (BitVec.eq_of_toNat_eq hzero)

/-- `ksym_resolve` gives what the table binds. -/
theorem bound_iff (h : Refines slotKeys (mapKeys (slot s.size) s) m chains)
    (hfuel : 2 ^ 64 ≤ fuel) (key : Key) (ha : a ≠ 0) :
    Bound fuel (some s) key a ↔ m (slot s.size key) = some a := by
  have hget : hashmapGet longKeys fuel s key = some ((m (slot s.size key)).getD null) := by
    rw [hashmapGet_mapKeys h (agrees_slot h key)]
    exact h.get slotKeys_lawful hfuel _
  simp only [Bound, Option.mem_some_iff, exists_eq_left', hget, Option.some.injEq]
  constructor
  · intro heq
    cases hm : m (slot s.size key) with
    | none =>
      rw [hm] at heq
      exact absurd heq.symm ha
    | some v =>
      rw [hm] at heq
      exact congrArg some heq
  · intro hm
    rw [hm, Option.getD_some]

/-- The symbol with the greatest address below one is found, with a name of it, whatever calls
have built the map and however many buckets it has; if there is none, the result is 0. -/
theorem nearest_symbol (hfuel : 2 ^ 64 ≤ fuel) (h : SymbolMap fuel ksymHashmap) (address : Addr)
    (name : Option Key) :
    ∃ best name', ksymFindBestSymbol fuel ksymHashmap address name = some (best, name') ∧
      ((∃ a, Candidate fuel ksymHashmap address a) →
        Candidate fuel ksymHashmap address best ∧
        (∀ a, Candidate fuel ksymHashmap address a → a ≤ best) ∧
        ∃ key, name' = some key ∧ Bound fuel ksymHashmap key best) ∧
      ((¬ ∃ a, Candidate fuel ksymHashmap address a) → best = 0) := by
  cases ksymHashmap with
  | none =>
    refine ⟨0, name, rfl, ?_, fun _ => rfl⟩
    rintro ⟨a, -, -, key, s, hs, -⟩
    exact absurd hs (by simp)
  | some s =>
    obtain ⟨hsize, m, chains, hrefines⟩ := h.refines hfuel
    have hzero : (0 : BitVec 64).toNat + s.size.toNat = s.size.toNat := Nat.zero_add _
    have hlt : s.size.toNat < fuel := s.size.isLt.trans_le hfuel
    obtain ⟨⟨best, name'⟩, hfind, hbest⟩ :=
      bestFrom_best hrefines hfuel hzero hlt (best_nil 0 address name)
    rw [List.nil_append] at hbest
    have hcandidate : ∀ a, Candidate fuel (some s) address a ↔ 0 < a ∧ a < address ∧
        ∃ key, (a, key) ∈ entriesFrom s chains 0 s.size.toNat := by
      intro a
      refine and_congr_right fun hpos => and_congr_right fun _ => ?_
      rw [mem_entriesFrom_iff hrefines hsize]
      exact exists_congr fun key =>
          bound_iff hrefines hfuel key ((BitVec.pos_iff_ne_zero a).mp hpos)
    refine ⟨best, name', hfind, ?_, ?_⟩
    · rintro ⟨a, ha⟩
      obtain ⟨hpos, hbelow, key, hmem⟩ := (hcandidate a).mp ha
      have hbpos : 0 < best := Std.lt_of_lt_of_le hpos (hbest.upper _ hmem hbelow)
      obtain ⟨hlimit, key', hname, hmem'⟩ := hbest.attained hbpos
      refine ⟨(hcandidate best).mpr ⟨hbpos, hlimit, key', hmem'⟩, ?_, key', hname, ?_⟩
      · intro b hb
        obtain ⟨-, hblow, key'', hmem''⟩ := (hcandidate b).mp hb
        exact hbest.upper _ hmem'' hblow
      · rw [bound_iff hrefines hfuel key' ((BitVec.pos_iff_ne_zero best).mp hbpos)]
        exact value_of_mem_entriesFrom hrefines hmem'
    · intro hnone
      by_contra hne
      have hbpos : 0 < best := (BitVec.pos_iff_ne_zero best).mpr hne
      obtain ⟨hlimit, key', -, hmem'⟩ := hbest.attained hbpos
      exact hnone ⟨best, (hcandidate best).mpr ⟨hbpos, hlimit, key', hmem'⟩⟩

def bindTwo : List (Op Key) :=
  [.set (oneCharacter 99 (by decide)) 0x100 0x1000,
    .set (oneCharacter 100 (by decide)) 0x200 0x1018]

def twoSymbols : State Key :=
  ((newTable.newNode 0x1000 (oneCharacter 99 (by decide)) 0x100).setEntry 19 0x1000
    |>.newNode 0x1018 (oneCharacter 100 (by decide)) 0x200).setEntry 0 0x1018

theorem run_bindTwo :
    newTable.run longKeys (2 ^ 64) bindTwo = some (twoSymbols, [.nothing, .nothing]) := rfl

theorem bindTwo_allowed : newTable.AllAllowed longKeys bindTwo := by
  refine ⟨⟨by decide, rfl⟩, fun fuel s answer hstep => ⟨⟨by decide, ?_⟩, fun _ _ _ _ => trivial⟩⟩
  rw [State.step, Option.map_eq_some_iff] at hstep
  obtain ⟨s', hset, heq⟩ := hstep
  obtain ⟨rfl, -⟩ := Prod.mk.inj heq
  have hother : (0x1018 : Addr) ≠ 0x1000 := by decide
  exact hashmapSet_allocated hset hother

theorem nearest_symbol_of_two :
    ∃ name, ksymFindBestSymbol (2 ^ 64) (some twoSymbols) 0x250 none = some (0x200, name) ∧
      ∃ key, name = some key ∧ Bound (2 ^ 64) (some twoSymbols) key 0x200 := by
  have hmap : SymbolMap (2 ^ 64) (some twoSymbols) :=
    .built (by decide) (by simp [bindTwo, key?]) bindTwo_allowed run_bindTwo
  have hsecond : Candidate (2 ^ 64) (some twoSymbols) 0x250 0x200 :=
    ⟨by decide, by decide, oneCharacter 100 (by decide), twoSymbols, rfl, rfl⟩
  obtain ⟨best, name, hfind, hgreatest, -⟩ :=
    nearest_symbol (Nat.le_refl _) hmap 0x250 none
  obtain ⟨-, -, key, hname, hbound⟩ := hgreatest ⟨_, hsecond⟩
  have hbest : best = 0x200 := by
    have hvalue : ksymFindBestSymbol (2 ^ 64) (some twoSymbols) 0x250 none =
        some (0x200, some (oneCharacter 100 (by decide))) := rfl
    rw [hvalue, Option.some.injEq, Prod.mk.injEq] at hfind
    exact hfind.1.symm
  subst hbest
  exact ⟨name, hfind, key, hname, hbound⟩

end Maps

end ReduceOS.NearestSymbol
