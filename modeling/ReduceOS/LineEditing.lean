import ReduceOS.BoundedScan
import ReduceOS.CString

/-!
The line editor of the shell. What is typed is put into a buffer that grows after a store, and a
backspace only moves the index back. The index is an `int`, and a line of 2^31 characters is one
too many for it.
-/
namespace ReduceOS.LineEditing

open Machine BoundedScan
open CString (Chars)

section Source

def storeAt {α : Type} (buffer : List α) (i : CInt) (a : α) : Option (List α) :=
  store buffer (i.signExtend 64).toNat a

structure Realloc where
  realloc : Chars → BitVec 64 → Chars
  length_eq : ∀ buffer bufsz, (realloc buffer bufsz).length = bufsz.toNat
  preserves : ∀ buffer bufsz, buffer.length ≤ bufsz.toNat → buffer <+: realloc buffer bufsz

def defaultBufsize : BitVec 64 := 128

/-- The variables of `shell_readBuffer`, and what it has put out. -/
structure State where
  bufsz : BitVec 64
  buffer : Chars
  i : CInt
  output : Chars

def State.put (t : State) (chars : Chars) : State := { t with output := t.output ++ chars }

@[simp] theorem State.put_bufsz (t : State) (chars : Chars) : (t.put chars).bufsz = t.bufsz := rfl

@[simp] theorem State.put_buffer (t : State) (chars : Chars) :
    (t.put chars).buffer = t.buffer := rfl

@[simp] theorem State.put_i (t : State) (chars : Chars) : (t.put chars).i = t.i := rfl

def State.csrShow (t : State) : State := t.put [24]

def State.csrHide (t : State) : State := t.put [8]

def State.initial : State := ⟨defaultBufsize, List.replicate 128 0, 0, []⟩

variable (r : Realloc)

def backspaceCase (t : State) : State :=
  let t := t.csrHide
  if (0 : CInt).slt t.i then ({ t with i := t.i - 1 } : State).put [8] else t

def newlineCase (t : State) : Option State := do
  let buffer ← storeAt t.buffer t.i 0
  some (({ t with buffer := buffer } : State).csrHide.put [10])

def defaultCase (t : State) (c : BitVec 8) : Option State := do
  let t := t.put [8, c]
  let buffer ← storeAt t.buffer t.i c
  let t := { t with buffer := buffer, i := t.i + 1 }
  if t.bufsz ≤ t.i.signExtend 64 then
    let bufsz := t.bufsz + defaultBufsize
    some { t with bufsz := bufsz, buffer := r.realloc t.buffer bufsz }
  else some t

def readLoop : Chars → State → Option State
  | [], _ => none
  | c :: typed, t =>
    let t := t.csrShow
    if c = 8 then readLoop typed (backspaceCase t)
    else if c = 10 then newlineCase t
    else do
      let t ← defaultCase r t c
      readLoop typed t

def shellReadBuffer (typed : Chars) : Option Chars :=
  (readLoop r typed State.initial).map State.buffer

end Source

def edit (line : Chars) (c : BitVec 8) : Chars := if c = 8 then line.dropLast else line ++ [c]

def edited (typed : Chars) : Chars := typed.foldl edit []

/-- The line is read as it was edited, with its terminator, and no store is outside of the
buffer. -/
def ReadRight (r : Realloc) (typed rest : Chars) : Prop :=
  ∃ buffer, shellReadBuffer r (typed ++ 10 :: rest) = some buffer ∧ edited typed ++ [0] <+: buffer

def Short (typed : Chars) : Prop := ∀ front, front <+: typed → (edited front).length < 2 ^ 31

section Stores

variable {α : Type} {buffer : List α} {k : ℕ}

theorem storeAt_ofNat (hk : k < 2 ^ 31) (a : α) :
    storeAt buffer (BitVec.ofNat 32 k) a = store buffer k a := by
  rw [storeAt, toNat_signExtend_ofNat hk]

/-- The index after the greatest one is far outside of any buffer. -/
theorem storeAt_wrapped (hlength : buffer.length < 2 ^ 61) (a : α) :
    storeAt buffer (BitVec.ofNat 32 (2 ^ 31)) a = none := by
  have hindex : ((BitVec.ofNat 32 (2 ^ 31)).signExtend 64).toNat = 2 ^ 64 - 2 ^ 31 := by decide
  rw [storeAt, hindex, store, if_neg (by omega)]

end Stores

section Steps

variable {r : Realloc} {t : State} {line typed rest : Chars} {c : BitVec 8}

structure Holds (t : State) (line : Chars) : Prop where
  index : t.i = BitVec.ofNat 32 line.length
  prefix_eq : ∃ free, t.buffer = line ++ free
  room : line.length < t.bufsz.toNat
  length : t.buffer.length = t.bufsz.toNat
  short : line.length < 2 ^ 31
  bound : t.bufsz.toNat < 2 ^ 31 + 128

structure Wrapped (t : State) : Prop where
  index : t.i = BitVec.ofNat 32 (2 ^ 31)
  length : t.buffer.length < 2 ^ 61

theorem holds_initial : Holds State.initial [] where
  index := rfl
  prefix_eq := ⟨_, rfl⟩
  room := by decide
  length := rfl
  short := by decide
  bound := by decide

theorem Holds.put (h : Holds t line) (chars : Chars) : Holds (t.put chars) line :=
  ⟨h.index, h.prefix_eq, h.room, h.length, h.short, h.bound⟩

theorem Wrapped.put (h : Wrapped t) (chars : Chars) : Wrapped (t.put chars) := ⟨h.index, h.length⟩

theorem zero_slt_iff {k : ℕ} (hk : k < 2 ^ 31) :
    (0 : CInt).slt (BitVec.ofNat 32 k) = true ↔ 0 < k := by
  have hint : (BitVec.ofNat 32 k).toInt = k := by
    rw [BitVec.toInt_eq_toNat_cond, BitVec.toNat_ofNat]
    omega
  have hzero : (0 : CInt).toInt = 0 := rfl
  rw [BitVec.slt_iff_toInt_lt, hint, hzero]
  omega

/-- A backspace drops the last character if there is one. -/
theorem Holds.backspace (h : Holds t line) : Holds (backspaceCase t) line.dropLast := by
  have hpositive : (0 : CInt).slt t.csrHide.i = true ↔ 0 < line.length := by
    rw [State.csrHide, State.put_i, h.index, zero_slt_iff h.short]
  unfold backspaceCase
  dsimp only
  by_cases hpos : 0 < line.length
  · rw [if_pos (hpositive.mpr hpos)]
    have hroom := h.room
    have hshort := h.short
    have hmoved : Holds { t.csrHide with i := t.csrHide.i - 1 } line.dropLast := by
      refine ⟨?_, ?_, ?_, h.length, ?_, h.bound⟩
      · have hsucc : line.length = line.length - 1 + 1 := by omega
        change t.i - 1 = _
        rw [List.length_dropLast, h.index, hsucc, BitVec.ofNat_add, Nat.add_sub_cancel]
        exact BitVec.add_sub_cancel _ _
      · obtain ⟨free, hfree⟩ := h.prefix_eq
        have hne : line ≠ [] := List.length_pos_iff.mp hpos
        refine ⟨line.getLast hne :: free, ?_⟩
        change t.buffer = _
        rw [hfree]
        conv_lhs => rw [← List.dropLast_append_getLast hne]
        simp
      · rw [List.length_dropLast]
        change _ < t.bufsz.toNat
        omega
      · rw [List.length_dropLast]
        omega
    exact hmoved.put [8]
  · rw [if_neg (mt hpositive.mp hpos)]
    have hnil : line = [] := List.length_eq_zero_iff.mp (by omega)
    subst hnil
    exact h.put [8]

theorem Holds.store (h : Holds t line) (c : BitVec 8) : ∃ free,
    storeAt t.buffer t.i c = some (line ++ c :: free) ∧
      (line ++ c :: free).length = t.bufsz.toNat := by
  obtain ⟨free, hfree⟩ := h.prefix_eq
  have hlength := h.length
  have hroom := h.room
  rw [hfree, List.length_append] at hlength
  cases free with
  | nil =>
    rw [List.length_nil] at hlength
    omega
  | cons d free =>
    refine ⟨free, ?_, by simpa using hlength⟩
    rw [h.index, storeAt_ofNat h.short, hfree]
    exact store_append line d c free

/-- A character is stored behind the line, and the buffer grows if it is full. -/
theorem Holds.default (h : Holds t line) (hc : line.length + 1 < 2 ^ 31) :
    ∃ t', defaultCase r t c = some t' ∧ Holds t' (line ++ [c]) := by
  obtain ⟨free, hstore, hlength⟩ := (h.put [8, c]).store c
  have hroom := h.room
  have hindex : t.i + 1 = BitVec.ofNat 32 (line.length + 1) := by
    rw [h.index, BitVec.ofNat_add]
    rfl
  have hlast : (line ++ [c]).length = line.length + 1 := by simp
  have hcells : line ++ c :: free = line ++ [c] ++ free := by simp
  rw [State.put_bufsz] at hlength
  unfold defaultCase
  dsimp only
  rw [hstore]
  simp only [Option.bind_eq_bind, Option.bind_some, State.put_bufsz, State.put_i]
  have hfull : t.bufsz ≤ (t.i + 1).signExtend 64 ↔ t.bufsz.toNat ≤ line.length + 1 := by
    rw [BitVec.le_def, hindex, toNat_signExtend_ofNat hc]
  by_cases hgrow : t.bufsz.toNat ≤ line.length + 1
  · have hsize : (t.bufsz + defaultBufsize).toNat = t.bufsz.toNat + 128 := by
      have hbound := h.bound
      rw [BitVec.toNat_add]
      exact Nat.mod_eq_of_lt (by change _ + 128 < _; omega)
    have hle : (line ++ c :: free).length ≤ (t.bufsz + defaultBufsize).toNat := by
      rw [hsize, hlength]
      exact Nat.le_add_right _ _
    obtain ⟨more, hmore⟩ := r.preserves _ _ hle
    refine ⟨_, if_pos (hfull.mpr hgrow),
      ⟨hindex.trans (by rw [hlast]), ⟨free ++ more, ?_⟩, ?_, ?_, ?_, ?_⟩⟩
    · change r.realloc _ _ = _
      rw [← hmore, hcells, List.append_assoc]
    · change _ < (t.bufsz + defaultBufsize).toNat
      omega
    · exact r.length_eq _ _
    · omega
    · change (t.bufsz + defaultBufsize).toNat < _
      omega
  · refine ⟨_, if_neg (mt hfull.mp hgrow),
      ⟨hindex.trans (by rw [hlast]), ⟨free, hcells⟩, ?_, hlength, ?_, h.bound⟩⟩
    · change _ < t.bufsz.toNat
      omega
    · omega

/-- At the greatest index the character is stored too, but the next index is negative. -/
theorem Holds.default_wraps (h : Holds t line) (hc : line.length + 1 = 2 ^ 31) :
    ∃ t', defaultCase r t c = some t' ∧ Wrapped t' := by
  obtain ⟨free, hstore, hlength⟩ := (h.put [8, c]).store c
  have hbound := h.bound
  have hindex : t.i + 1 = BitVec.ofNat 32 (2 ^ 31) := by
    rw [h.index, ← hc, BitVec.ofNat_add]
    rfl
  rw [State.put_bufsz] at hlength
  unfold defaultCase
  dsimp only
  rw [hstore]
  simp only [Option.bind_eq_bind, Option.bind_some, State.put_bufsz, State.put_i]
  have hfull : t.bufsz ≤ (t.i + 1).signExtend 64 := by
    have hnegative : ((BitVec.ofNat 32 (2 ^ 31)).signExtend 64).toNat = 2 ^ 64 - 2 ^ 31 := by
      decide
    rw [BitVec.le_def, hindex, hnegative]
    omega
  refine ⟨_, if_pos hfull, ⟨hindex, ?_⟩⟩
  change (r.realloc _ _).length < _
  rw [r.length_eq, BitVec.toNat_add]
  change (t.bufsz.toNat + 128) % 2 ^ 64 < _
  omega

theorem Holds.newline (h : Holds t line) :
    ∃ t', newlineCase t = some t' ∧ line ++ [0] <+: t'.buffer := by
  obtain ⟨free, hstore, -⟩ := h.store 0
  refine ⟨_, by rw [newlineCase, hstore]; rfl, free, ?_⟩
  rw [List.append_assoc]
  rfl

theorem Wrapped.backspace (h : Wrapped t) : Wrapped (backspaceCase t) := by
  have hnegative : ¬ (0 : CInt).slt t.csrHide.i = true := by
    rw [State.csrHide, State.put_i, h.index]
    decide
  unfold backspaceCase
  dsimp only
  rw [if_neg hnegative]
  exact h.put [8]

/-- From then on every store is outside of the buffer. -/
theorem readLoop_wrapped (h : Wrapped t) (typed : Chars) : readLoop r typed t = none := by
  induction typed generalizing t with
  | nil => rfl
  | cons c typed ih =>
    have hshow : Wrapped t.csrShow := h.put [24]
    rw [readLoop]
    split_ifs
    · exact ih hshow.backspace
    · rw [newlineCase, hshow.index, storeAt_wrapped hshow.length]
      rfl
    · have hstore := storeAt_wrapped hshow.length c
      simp only [defaultCase, State.put_i, State.put_buffer, hshow.index, hstore,
        Option.bind_eq_bind, Option.bind_none]

end Steps

section Lines

variable {r : Realloc} {t : State} {line typed rest : Chars} {c : BitVec 8}

theorem readLoop_of_short (h : Holds t line) (hnewline : 10 ∉ typed)
    (hshort : ∀ front, front <+: typed → (front.foldl edit line).length < 2 ^ 31) :
    ∃ t', readLoop r (typed ++ 10 :: rest) t = some t' ∧
      typed.foldl edit line ++ [0] <+: t'.buffer := by
  induction typed generalizing t line with
  | nil =>
    have hshow : Holds t.csrShow line := h.put [24]
    exact hshow.newline
  | cons c typed ih =>
    have hshow : Holds t.csrShow line := h.put [24]
    rw [List.mem_cons, not_or] at hnewline
    have hrest : ∀ front, front <+: typed → (front.foldl edit (edit line c)).length < 2 ^ 31 :=
      fun front hfront => hshort (c :: front) (List.cons_prefix_cons.mpr ⟨rfl, hfront⟩)
    rw [List.cons_append, readLoop, List.foldl_cons]
    by_cases hback : c = 8
    · rw [if_pos hback]
      rw [edit, if_pos hback] at hrest ⊢
      exact ih hshow.backspace hnewline.2 hrest
    · rw [if_neg hback, if_neg (Ne.symm hnewline.1)]
      rw [edit, if_neg hback] at hrest ⊢
      have hlength := hrest [] List.nil_prefix
      simp only [List.foldl_nil, List.length_append, List.length_singleton] at hlength
      obtain ⟨t', hcase, hholds⟩ := hshow.default (r := r) (c := c) hlength
      rw [hcase]
      exact ih hholds hnewline.2 hrest

theorem readLoop_of_long (h : Holds t line) (hnewline : 10 ∉ typed) {front : Chars}
    (hfront : front <+: typed) (hlong : 2 ^ 31 ≤ (front.foldl edit line).length) :
    readLoop r (typed ++ 10 :: rest) t = none := by
  induction typed generalizing t line front with
  | nil =>
    rw [List.prefix_nil.mp hfront, List.foldl_nil] at hlong
    exact absurd h.short (Nat.not_lt.mpr hlong)
  | cons c typed ih =>
    have hshow : Holds t.csrShow line := h.put [24]
    rw [List.mem_cons, not_or] at hnewline
    cases front with
    | nil => exact absurd h.short (Nat.not_lt.mpr hlong)
    | cons d front =>
      obtain ⟨rfl, hrest⟩ := List.cons_prefix_cons.mp hfront
      rw [List.foldl_cons] at hlong
      rw [List.cons_append, readLoop]
      by_cases hback : d = 8
      · rw [if_pos hback]
        rw [edit, if_pos hback] at hlong
        exact ih hshow.backspace hnewline.2 hrest hlong
      · rw [if_neg hback, if_neg (Ne.symm hnewline.1)]
        rw [edit, if_neg hback] at hlong
        by_cases hlength : line.length + 1 < 2 ^ 31
        · obtain ⟨t', hcase, hholds⟩ := hshow.default (r := r) (c := d) hlength
          rw [hcase]
          exact ih hholds hnewline.2 hrest hlong
        · -- the index wraps around here
          have hshort := h.short
          obtain ⟨t', hcase, hwrapped⟩ :=
            hshow.default_wraps (r := r) (c := d) (by omega : line.length + 1 = 2 ^ 31)
          rw [hcase]
          exact readLoop_wrapped hwrapped _

theorem length_foldl_edit_le (line typed : Chars) :
    (typed.foldl edit line).length ≤ line.length + typed.length := by
  induction typed generalizing line with
  | nil => exact Nat.le_refl _
  | cons c typed ih =>
    have hedit : (edit line c).length ≤ line.length + 1 := by
      rw [edit]
      split_ifs
      · rw [List.length_dropLast]
        omega
      · rw [List.length_append, List.length_singleton]
    have hrest := ih (edit line c)
    rw [List.foldl_cons, List.length_cons]
    omega

/-- Fewer than 2^31 characters never are too long a line. -/
theorem short_of_length (h : typed.length < 2 ^ 31) : Short typed := by
  intro front hfront
  have hle := length_foldl_edit_le [] front
  have hfewer := hfront.length_le
  rw [List.length_nil] at hle
  rw [edited]
  omega

theorem readRight_of_short (r : Realloc) (rest : Chars) (hnewline : 10 ∉ typed)
    (hshort : Short typed) : ReadRight r typed rest := by
  obtain ⟨t', hread, hextends⟩ : ∃ t', readLoop r (typed ++ 10 :: rest) State.initial = some t' ∧
      typed.foldl edit [] ++ [0] <+: t'.buffer := readLoop_of_short holds_initial hnewline hshort
  exact ⟨t'.buffer, by rw [shellReadBuffer, hread, Option.map_some], hextends⟩

theorem not_readRight (r : Realloc) (rest : Chars) (hnewline : 10 ∉ typed)
    (hlong : ¬ Short typed) : ¬ ReadRight r typed rest := by
  rintro ⟨buffer, hread, -⟩
  simp only [Short, not_forall, Nat.not_lt] at hlong
  obtain ⟨front, hfront, hlength⟩ := hlong
  rw [shellReadBuffer, readLoop_of_long holds_initial hnewline hfront hlength] at hread
  exact absurd hread (by simp)

/-- A line is read as it is edited exactly if it never has 2^31 characters. -/
theorem read_line_iff (r : Realloc) (rest : Chars) (hnewline : 10 ∉ typed) :
    ReadRight r typed rest ↔ Short typed :=
  ⟨fun h => by_contra fun hlong => not_readRight r rest hnewline hlong h,
    readRight_of_short r rest hnewline⟩

def zeroRealloc : Realloc where
  realloc buffer bufsz := buffer.take bufsz.toNat ++ List.replicate (bufsz.toNat - buffer.length) 0
  length_eq buffer bufsz := by
    rw [List.length_append, List.length_take, List.length_replicate]
    omega
  preserves buffer bufsz h := by
    rw [List.take_of_length_le h]
    exact List.prefix_append _ _

/-- `a`, a backspace and `b` -/
theorem read_line_corrected : ReadRight zeroRealloc [97, 8, 98] [] :=
  (read_line_iff zeroRealloc [] (by decide)).mpr (short_of_length (by decide))

/-- The character `a`, 2^31 times. -/
theorem long_line_leaves_buffer :
    ¬ ReadRight zeroRealloc (List.replicate (2 ^ 31) 97) [] := by
  refine not_readRight zeroRealloc [] ?_ fun hshort => ?_
  · intro hmem
    exact absurd (List.eq_of_mem_replicate hmem) (by decide)
  · have hedited : ∀ n, edited (List.replicate n 97) = List.replicate n 97 := by
      intro n
      induction n with
      | zero => rfl
      | succ n ih =>
        have hlast : List.replicate (n + 1) (97 : BitVec 8) = List.replicate n 97 ++ [97] :=
          List.replicate_succ'
        rw [hlast, edited, List.foldl_concat, ← edited, ih]
        rfl
    have hlength := hshort _ List.prefix_rfl
    rw [hedited, List.length_replicate] at hlength
    exact absurd hlength (lt_irrefl _)

end Lines

end ReduceOS.LineEditing
