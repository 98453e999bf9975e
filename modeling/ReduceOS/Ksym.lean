import ReduceOS.BoundedScan
import ReduceOS.LongKeys
import ReduceOS.Numerals

/-!
Loading the symbol map of the kernel. The tokenizer takes the lines of a file from a buffer of just
its length, and a line apart in a copy of it. No terminator stands behind the buffer, so it reads
on there; and the first line is given up for the next one before it is looked at.
-/
namespace ReduceOS.Ksym

open Machine CString BoundedScan Numerals Hashmap LongKeys

def newline : BitVec 8 := 10

def space : BitVec 8 := 32

section Source

/-- `strtok_r` where there is an end to what can be read: a pointer is all that can be read from
there on. -/
def boundedStrtokR (str : Option Chars) (sep : BitVec 8) (lasts : Option Chars) :
    Option (Option Chars × Option Chars) :=
  match str.or lasts with
  | none => some (none, lasts)
  | some str => do
    -- `strspn`
    let n ← advance (fun c => c ≠ 0 ∧ c = sep) str
    let token := str.drop n
    if deref token = 0 then some (none, some token)
    else do
      -- `strcspn`, by `strpbrk`
      let m ← advance (fun c => c ≠ 0 ∧ c ≠ sep) token
      let str := token.drop m
      if deref str = 0 then some (some (token.take m), none)
      else some (some (token.take m), some str.tail)

def parseLine (token : Chars) : Option (Option (Key × Addr)) := do
  let (address, save) ← boundedStrtokR (some (token ++ [0])) space none
  match address with
  | none => some none
  | some address => do
    let (type, save) ← boundedStrtokR none space save
    match type with
    | none => some none
    | some _ => do
      let (symname, _) ← boundedStrtokR none space save
      some (symname.map fun symname => (keyAt (symname ++ [0]), strtoullHex address))

def ksymBindSymbol (inner : ℕ) (s : Table) (symname : Key) (address : Addr) : Option Table := do
  let bound ← hashmapHas longKeys inner s.map symname
  if bound then some s else s.set inner symname address

def loadLoop (inner : ℕ) : ℕ → Option Chars → Table → CInt → Option (Table × CInt)
  | 0, _, _, _ => none
  | fuel + 1, save, s, symbols => do
    let (token, save) ← boundedStrtokR none newline save
    match token with
    | none => some (s, symbols)
    | some token => do
      match ← parseLine token with
      | none => loadLoop inner fuel save s symbols
      | some (symname, addr) => do
        let s ← ksymBindSymbol inner s symname addr
        loadLoop inner fuel save s (symbols + 1)

/-- What `fs_read` puts into the buffer, of the length of the file, and what it returns. -/
structure SymbolFile where
  symbuf : Chars
  read : BitVec 64

def einval : CInt := 22

def ealready : CInt := 120

def ksymLoad (fuel : ℕ) (heap : Heap) (hashmap : Option Table) (file : Option SymbolFile)
    (behind : Chars) : Option (Option Table × CInt) :=
  match file with
  | none => some (hashmap, -einval)
  | some file =>
    if hashmap.isSome then some (hashmap, -ealready)
    else
      let s := heap.create 20
      if file.read ≠ BitVec.ofNat 64 file.symbuf.length then some (some s, -einval)
      else do
        let (token, save) ← boundedStrtokR (some (file.symbuf ++ behind)) newline none
        if token.isSome then
          let (s, symbols) ← loadLoop fuel fuel save s 0
          some (some s, symbols)
        else some (some s, 0)

def ksymResolve (fuel : ℕ) (s : Table) (symname : Key) : Option Addr :=
  hashmapGet longKeys fuel s.map symname

end Source

section Tokens

variable {sep : BitVec 8} {str buffer behind : Chars} {first lasts first' lasts' : Option Chars}

/-- On a string with its terminator, `strtok_r` is what it is on the string. -/
theorem advance_strspn (hsep : sep ≠ 0) (str behind : Chars) :
    advance (fun c => c ≠ 0 ∧ c = sep) (str ++ 0 :: behind) = some (strspn str sep) := by
  induction str with
  | nil => simp [advance, strspn]
  | cons c str ih =>
    rw [List.cons_append, advance, strspn, ih]
    by_cases hc : c = sep
    · rw [if_pos hc, if_pos (decide_eq_true ⟨hc ▸ hsep, hc⟩), Option.map_some]
    · rw [if_neg hc, if_neg (by simp [hc])]

theorem strcspn_cons (c : BitVec 8) (str : Chars) :
    strcspn (c :: str) sep = if c = sep then 0 else strcspn str sep + 1 := by
  have hle : (strchrnul str sep).length ≤ str.length := by
    induction str with
    | nil => simp [strchrnul]
    | cons d str ih =>
      rw [strchrnul]
      split_ifs
      · exact Nat.le_refl _
      · exact ih.trans (by simp)
  rw [strcspn, strchrnul]
  split_ifs with hc
  · simp
  · rw [strcspn, List.length_cons]
    omega

theorem advance_strcspn (h0 : 0 ∉ str) (behind : Chars) :
    advance (fun c => c ≠ 0 ∧ c ≠ sep) (str ++ 0 :: behind) = some (strcspn str sep) := by
  induction str with
  | nil => simp [advance, strcspn, strchrnul]
  | cons c str ih =>
    rw [List.mem_cons, not_or] at h0
    rw [List.cons_append, advance, strcspn_cons, ih h0.2]
    by_cases hc : c = sep
    · rw [if_pos hc, if_neg (by simp [hc])]
    · rw [if_neg hc, if_pos (decide_eq_true ⟨Ne.symm h0.1, hc⟩), Option.map_some]

theorem strspn_le (str : Chars) (sep : BitVec 8) : strspn str sep ≤ str.length := by
  induction str with
  | nil => exact Nat.le_refl 0
  | cons c str ih =>
    rw [strspn]
    split_ifs
    · exact Nat.succ_le_succ ih
    · exact Nat.zero_le _

theorem strcspn_le (str : Chars) (sep : BitVec 8) : strcspn str sep ≤ str.length :=
  Nat.sub_le _ _

theorem deref_append (str behind : Chars) : deref (str ++ 0 :: behind) = deref str := by
  cases str <;> rfl

theorem boundedStrtokR_terminated (hsep : sep ≠ 0) (h0 : 0 ∉ str)
    (hstr : first.or lasts = some str) (hstr' : first'.or lasts' = some (str ++ 0 :: behind)) :
    boundedStrtokR first' sep lasts' = some ((strtokR first sep lasts).1,
      (strtokR first sep lasts).2.map (· ++ 0 :: behind)) := by
  have hdrop : (str ++ 0 :: behind).drop (strspn str sep) =
      str.drop (strspn str sep) ++ 0 :: behind := List.drop_append_of_le_length (strspn_le str sep)
  have hmem : 0 ∉ str.drop (strspn str sep) := fun h => h0 (List.mem_of_mem_drop h)
  unfold boundedStrtokR strtokR
  simp only [hstr, hstr', advance_strspn hsep, hdrop, deref_append, Option.bind_eq_bind,
    Option.bind_some]
  generalize str.drop (strspn str sep) = token at hmem ⊢
  by_cases hend : deref token = 0
  · simp only [if_pos hend, Option.map_some]
  · have hle := strcspn_le token sep
    simp only [if_neg hend, advance_strcspn hmem, Option.bind_some, strpbrk,
      List.drop_append_of_le_length hle, List.take_append_of_le_length hle, deref_append]
    generalize strcspn token sep = m at hle ⊢
    by_cases hlast : deref (token.drop m) = 0
    · have hnil := (deref_eq_zero_iff fun h => hmem (List.mem_of_mem_drop h)).mp hlast
      have hall := List.take_of_length_le (List.drop_eq_nil_iff.mp hnil)
      simp only [if_pos hlast, hall, strchr_eq_none hmem, Option.map_none]
    · have hne : token.drop m ≠ [] := fun hnil => hlast (by rw [hnil]; rfl)
      simp only [if_neg hlast, Option.map_some, List.tail_append_of_ne_nil hne, List.length_drop,
        Nat.sub_sub_self hle]

variable {token : Chars}

theorem boundedStrtokR_append (hsep : sep ≠ 0) (hne : token ≠ []) (h : sep ∉ token)
    (h0 : 0 ∉ token ++ sep :: str)
    (hstr : first.or lasts = some (token ++ sep :: str ++ 0 :: behind)) :
    boundedStrtokR first sep lasts = some (some token, some (str ++ 0 :: behind)) := by
  have htoken : 0 ∉ token := fun hmem => h0 (List.mem_append_left _ hmem)
  have hplain : strtokR (some (token ++ sep :: str)) sep none = (some token, some str) :=
    strtokR_append hsep hne htoken h rfl
  have hwhole : (some (token ++ sep :: str)).or none = some (token ++ sep :: str) := rfl
  rw [boundedStrtokR_terminated hsep h0 hwhole hstr, hplain]
  rfl

theorem boundedStrtokR_last (hsep : sep ≠ 0) (hne : token ≠ []) (h : sep ∉ token)
    (h0 : 0 ∉ token) (hstr : first.or lasts = some (token ++ 0 :: behind)) :
    boundedStrtokR first sep lasts = some (some token, none) := by
  have hplain : strtokR (some token) sep none = (some token, none) := strtokR_last hne h0 h rfl
  have hwhole : (some token).or none = some token := rfl
  rw [boundedStrtokR_terminated hsep h0 hwhole hstr, hplain]
  rfl

/-- Without a terminator there is always something left that is neither. -/
theorem boundedStrtokR_unterminated (sep : BitVec 8) (h0 : 0 ∉ buffer)
    (hstr : first.or lasts = some buffer) :
    boundedStrtokR first sep lasts = none ∨ ∃ token rest, 0 ∉ rest ∧
      boundedStrtokR first sep lasts = some (some token, some rest) := by
  cases hresult : boundedStrtokR first sep lasts with
  | none => exact Or.inl rfl
  | some result =>
    right
    unfold boundedStrtokR at hresult
    simp only [hstr, Option.bind_eq_bind] at hresult
    obtain ⟨n, hn, hresult⟩ := Option.bind_eq_some_iff.mp hresult
    obtain ⟨spaces, c, rest, rfl, rfl, -, -⟩ := advance_eq_some_iff.mp hn
    rw [List.drop_left] at hresult
    have hmem : 0 ∉ c :: rest := fun h => h0 (List.mem_append_right _ h)
    rw [if_neg (mt (deref_eq_zero_iff hmem).mp (List.cons_ne_nil _ _))] at hresult
    obtain ⟨m, hm, hresult⟩ := Option.bind_eq_some_iff.mp hresult
    obtain ⟨token, d, rest', hsplit, rfl, -, -⟩ := advance_eq_some_iff.mp hm
    rw [hsplit] at hresult hmem
    rw [List.drop_left] at hresult
    have hmem' : 0 ∉ d :: rest' := fun h => hmem (List.mem_append_right _ h)
    rw [if_neg (mt (deref_eq_zero_iff hmem').mp (List.cons_ne_nil _ _))] at hresult
    exact ⟨_, rest', fun h => hmem' (List.mem_cons_of_mem d h), hresult.symm⟩

end Tokens

section Unterminated

variable {inner fuel : ℕ} {heap : Heap} {buffer : Chars} {s : Table} {symbols : CInt}

theorem loadLoop_unterminated (h0 : 0 ∉ buffer) :
    loadLoop inner fuel (some buffer) s symbols = none := by
  induction fuel generalizing buffer s symbols with
  | zero => rfl
  | succ fuel ih =>
    rw [loadLoop]
    rcases boundedStrtokR_unterminated newline h0 Option.none_or with
      hnone | ⟨token, rest, hrest, hsome⟩
    · rw [hnone]
      rfl
    · rw [hsome]
      simp only [Option.bind_eq_bind, Option.bind_some]
      cases parseLine token with
      | none => rfl
      | some entry =>
        cases entry with
        | none => exact ih hrest
        | some entry =>
          simp only [Option.bind_some]
          cases ksymBindSymbol inner s entry.1 entry.2 with
          | none => rfl
          | some s' => exact ih hrest

/-- No file without a terminator of its own is read within its length. -/
theorem ksymLoad_unterminated (h0 : 0 ∉ buffer) :
    ksymLoad fuel heap none (some ⟨buffer, BitVec.ofNat 64 buffer.length⟩) [] = none := by
  unfold ksymLoad
  simp only [Option.isSome_none, Bool.false_eq_true, if_false, ne_eq, not_true_eq_false,
    List.append_nil]
  have hwhole : (some buffer).or none = some buffer := rfl
  rcases boundedStrtokR_unterminated newline h0 hwhole with hnone | ⟨token, rest, hrest, hsome⟩
  · rw [hnone]
    rfl
  · rw [hsome]
    simp [loadLoop_unterminated hrest]

end Unterminated

section Lines

def Plain (part : Chars) : Prop := part ≠ [] ∧ 0 ∉ part ∧ newline ∉ part ∧ space ∉ part

def Hexadecimal (c : BitVec 8) : Prop :=
  (48 ≤ c.toNat ∧ c.toNat ≤ 57) ∨ (65 ≤ c.toNat ∧ c.toNat ≤ 70) ∨ (97 ≤ c.toNat ∧ c.toNat ≤ 102)

instance (c : BitVec 8) : Decidable (Hexadecimal c) := inferInstanceAs (Decidable (_ ∨ _))

def digit (c : BitVec 8) : ℕ :=
  if c.toNat ≤ 57 then c.toNat - 48 else if c.toNat ≤ 70 then c.toNat - 55 else c.toNat - 87

def hexValue (digits : Chars) : ℕ := digits.foldl (fun n c => n * 16 + digit c) 0

structure Line where
  address : Chars
  type : Chars
  name : Chars
  digits : address.length = 16 ∧ ∀ c ∈ address, Hexadecimal c
  plainType : Plain type
  plainName : Plain name
  short : name.length < 256

namespace Line

def text (line : Line) : Chars := line.address ++ space :: (line.type ++ space :: line.name)

def key (line : Line) : Key := ⟨line.name, line.plainName.2.1⟩

def value (line : Line) : Addr := BitVec.ofNat 64 (hexValue line.address)

end Line

def contents (ended : Bool) : List Line → Chars
  | [] => []
  | line :: lines =>
    line.text ++ if lines.isEmpty ∧ ¬ ended then [] else newline :: contents ended lines

def symbolFile (ended : Bool) (lines : List Line) : SymbolFile :=
  ⟨contents ended lines, BitVec.ofNat 64 (contents ended lines).length⟩

def Loads (heap : Heap) (ended : Bool) (lines : List Line) : Prop :=
  ∃ fuel s, ksymLoad fuel heap none (some (symbolFile ended lines)) [] =
      some (some s, BitVec.ofNat 32 lines.length) ∧
    ∀ key, ∀ line ∈ lines.find? (·.key = key), ksymResolve fuel s key = some line.value

def bindFirst (named : Bindings Key) (lines : List Line) : Bindings Key := fun key =>
  (named key).or ((lines.find? (·.key = key)).map Line.value)

theorem Hexadecimal.converts {c : BitVec 8} (hc : Hexadecimal c) :
    isvalid 16 c ∧ (if isdigit c then BitVec.ofInt 64 (c.toInt - 48)
      else BitVec.ofInt 64 (tolower c - 97 + 10)) = BitVec.ofNat 64 (digit c) := by
  revert c
  decide +kernel

theorem Hexadecimal.not_special {c : BitVec 8} (hc : Hexadecimal c) :
    ¬ isspace c ∧ c ≠ 45 ∧ c ≠ 43 ∧ c ≠ 120 ∧ c ≠ 88 ∧ c ≠ 0 ∧ c ≠ newline ∧ c ≠ space := by
  revert c
  decide +kernel

theorem strtoullLoop_hex {digits : Chars} (hdigits : ∀ c ∈ digits, Hexadecimal c) (n : ℕ) :
    strtoullLoop 16 digits (BitVec.ofNat 64 n) =
      BitVec.ofNat 64 (digits.foldl (fun n c => n * 16 + digit c) n) := by
  induction digits generalizing n with
  | nil => rfl
  | cons c digits ih =>
    obtain ⟨hc, hrest⟩ := List.forall_mem_cons.mp hdigits
    obtain ⟨hvalid, hvalue⟩ := hc.converts
    rw [strtoullLoop, if_pos hvalid]
    dsimp only
    rw [List.foldl_cons, ← ih hrest, BitVec.ofNat_add, BitVec.ofNat_mul, ← hvalue]
    split_ifs <;> rfl

theorem strtoullHex_eq {digits : Chars} (hdigits : ∀ c ∈ digits, Hexadecimal c)
    (hne : digits ≠ []) : strtoullHex digits = BitVec.ofNat 64 (hexValue digits) := by
  cases digits with
  | nil => exact absurd rfl hne
  | cons c digits =>
    obtain ⟨hc, hrest⟩ := List.forall_mem_cons.mp hdigits
    obtain ⟨hspace, hminus, hplus, -⟩ := hc.not_special
    unfold strtoullHex
    rw [List.dropWhile_cons_of_neg hspace]
    simp only [deref, List.headD_cons, hminus, hplus, or_self, if_false, List.tail_cons]
    split_ifs with hzero hx
    · cases digits with
      | nil => exact absurd hx (by decide)
      | cons d digits =>
        obtain ⟨-, -, -, hx1, hx2, -⟩ := (List.forall_mem_cons.mp hrest).1.not_special
        exact absurd hx (not_or.mpr ⟨hx1, hx2⟩)
    · -- a zero in front adds nothing
      have hloop := strtoullLoop_hex hrest 0
      rw [hexValue, List.foldl_cons, hzero]
      exact hloop
    · exact strtoullLoop_hex hdigits 0

variable {ended : Bool} {line : Line} {lines : List Line} {behind : Chars}
  {first lasts : Option Chars}

namespace Line

theorem plainAddress (line : Line) : Plain line.address := by
  obtain ⟨hlength, hdigits⟩ := line.digits
  refine ⟨fun hnil => by simp [hnil] at hlength, fun h => ?_, fun h => ?_, fun h => ?_⟩ <;>
    have hspecial := (hdigits _ h).not_special
  · exact hspecial.2.2.2.2.2.1 rfl
  · exact hspecial.2.2.2.2.2.2.1 rfl
  · exact hspecial.2.2.2.2.2.2.2 rfl

theorem text_ne_nil (line : Line) : line.text ≠ [] := by
  simp [text, line.plainAddress.1]

theorem zero_notMem_text (line : Line) : 0 ∉ line.text := by
  simp only [text, List.mem_append, List.mem_cons, not_or]
  exact ⟨line.plainAddress.2.1, by decide, line.plainType.2.1, by decide, line.plainName.2.1⟩

theorem newline_notMem_text (line : Line) : newline ∉ line.text := by
  simp only [text, List.mem_append, List.mem_cons, not_or]
  exact ⟨line.plainAddress.2.2.1, by decide, line.plainType.2.2.1, by decide,
    line.plainName.2.2.1⟩

end Line

theorem parseLine_text (line : Line) :
    parseLine line.text = some (some (line.key, line.value)) := by
  have h0 := line.zero_notMem_text
  have hrest : 0 ∉ line.type ++ space :: line.name := by
    intro h
    exact h0 (List.mem_append_right _ (List.mem_cons_of_mem _ h))
  have haddress : boundedStrtokR (some (line.text ++ [0])) space none =
      some (some line.address, some (line.type ++ space :: line.name ++ [0])) :=
    boundedStrtokR_append (by decide) line.plainAddress.1 line.plainAddress.2.2.2 h0 rfl
  have htype : boundedStrtokR none space (some (line.type ++ space :: line.name ++ [0])) =
      some (some line.type, some (line.name ++ [0])) :=
    boundedStrtokR_append (by decide) line.plainType.1 line.plainType.2.2.2 hrest rfl
  have hname : boundedStrtokR none space (some (line.name ++ [0])) = some (some line.name, none) :=
    boundedStrtokR_last (by decide) line.plainName.1 line.plainName.2.2.2 line.plainName.2.1 rfl
  have hkey : keyAt (line.name ++ [0]) = line.key := by
    simp only [keyAt, Line.key, cstring_append line.plainName.2.1]
  unfold parseLine
  simp only [haddress, htype, hname, Option.bind_eq_bind, Option.bind_some, Option.map_some, hkey,
    strtoullHex_eq line.digits.2 line.plainAddress.1]
  rfl

theorem zero_notMem_contents (ended : Bool) (lines : List Line) : 0 ∉ contents ended lines := by
  induction lines with
  | nil => exact List.not_mem_nil
  | cons line lines ih =>
    rw [contents, List.mem_append, not_or]
    refine ⟨line.zero_notMem_text, ?_⟩
    split_ifs
    · exact List.not_mem_nil
    · rw [List.mem_cons, not_or]
      exact ⟨by decide, ih⟩

def remaining (ended : Bool) (lines : List Line) : Option Chars :=
  if lines.isEmpty ∧ ¬ ended then none else some (contents ended lines)

theorem boundedStrtokR_line
    (hstr : first.or lasts = some (contents ended (line :: lines) ++ 0 :: behind)) :
    boundedStrtokR first newline lasts =
      some (some line.text, (remaining ended lines).map (· ++ 0 :: behind)) := by
  have h0 := zero_notMem_contents ended (line :: lines)
  rw [contents] at hstr h0
  unfold remaining
  split_ifs at hstr h0 ⊢
  · rw [List.append_nil] at hstr
    exact boundedStrtokR_last (by decide) line.text_ne_nil line.newline_notMem_text
      line.zero_notMem_text hstr
  · exact boundedStrtokR_append (by decide) line.text_ne_nil line.newline_notMem_text h0 hstr

theorem boundedStrtokR_end (ended : Bool) (behind : Chars) :
    ∃ save, boundedStrtokR none newline ((remaining ended []).map (· ++ 0 :: behind)) =
      some (none, save) := by
  cases ended with
  | false => exact ⟨none, rfl⟩
  | true => exact ⟨some (0 :: behind), rfl⟩

theorem bindFirst_cons (named : Bindings Key) (line : Line) (lines : List Line) :
    bindFirst named (line :: lines) = bindFirst
      (if (named line.key).isSome then named
        else Function.update named line.key (some line.value)) lines := by
  funext key
  unfold bindFirst
  rw [List.find?_cons]
  rcases eq_or_ne key line.key with rfl | hne
  · cases hnamed : named line.key with
    | none => simp
    | some value => simp [hnamed]
  · have hkey : (line.key = key) = False := eq_false (Ne.symm hne)
    simp only [hkey, decide_false]
    split_ifs
    · rfl
    · rw [Function.update_of_ne hne]

variable {heap : Heap} {inner fuel : ℕ} {s : Table} {named : Bindings Key} {symbols : CInt}

theorem ksymBindSymbol_holds (h : s.Holds named) (hinner : 2 ^ 64 ≤ inner) (line : Line)
    {count : ℕ} (hsupply : count + 1 ≤ s.supply.length) :
    ∃ s', ksymBindSymbol inner s line.key line.value = some s' ∧
      s'.Holds (if (named line.key).isSome then named
        else Function.update named line.key (some line.value)) ∧ count ≤ s'.supply.length := by
  unfold ksymBindSymbol
  simp only [h.has hinner, Option.bind_eq_bind, Option.bind_some]
  split_ifs with hbound
  · exact ⟨s, rfl, h, by omega⟩
  · cases hs : s.supply with
    | nil => simp [hs] at hsupply
    | cons node supply =>
      have hshort : line.key.chars.length < 256 := line.short
      obtain ⟨s', hset, hholds, hrest⟩ := h.set hinner hshort line.value hs
      refine ⟨s', hset, hholds, ?_⟩
      rw [hs, List.length_cons] at hsupply
      rw [hrest]
      omega

/-- With a terminator behind it, the lines left are counted and bound. -/
theorem loadLoop_terminated (h : s.Holds named) (hinner : 2 ^ 64 ≤ inner)
    (hsupply : lines.length ≤ s.supply.length) (hfuel : lines.length < fuel) :
    ∃ s', loadLoop inner fuel ((remaining ended lines).map (· ++ 0 :: behind)) s symbols =
      some (s', symbols + BitVec.ofNat 32 lines.length) ∧ s'.Holds (bindFirst named lines) := by
  induction lines generalizing fuel s named symbols with
  | nil =>
    obtain ⟨fuel, rfl⟩ := Nat.exists_eq_add_one_of_ne_zero (by omega : fuel ≠ 0)
    obtain ⟨save, hend⟩ := boundedStrtokR_end ended behind
    have hnone : bindFirst named [] = named := funext fun key => Option.or_none
    refine ⟨s, ?_, by rwa [hnone]⟩
    rw [loadLoop, hend]
    simp
  | cons line lines ih =>
    obtain ⟨fuel, rfl⟩ := Nat.exists_eq_add_one_of_ne_zero (by omega : fuel ≠ 0)
    rw [List.length_cons] at hsupply hfuel
    have hline : boundedStrtokR none newline
        ((remaining ended (line :: lines)).map (· ++ 0 :: behind)) =
        some (some line.text, (remaining ended lines).map (· ++ 0 :: behind)) :=
      boundedStrtokR_line rfl
    obtain ⟨s₁, hbind, h₁, hsupply₁⟩ := ksymBindSymbol_holds h hinner line hsupply
    obtain ⟨s', hloop, h'⟩ : ∃ s', loadLoop inner fuel
        ((remaining ended lines).map (· ++ 0 :: behind)) s₁ (symbols + 1) =
          some (s', symbols + 1 + BitVec.ofNat 32 lines.length) ∧ s'.Holds (bindFirst _ lines) :=
      ih h₁ hsupply₁ (by omega)
    refine ⟨s', ?_, by rwa [bindFirst_cons]⟩
    have hcount : symbols + 1 + BitVec.ofNat 32 lines.length =
        symbols + BitVec.ofNat 32 (lines.length + 1) := by
      rw [Nat.add_comm lines.length, BitVec.ofNat_add, BitVec.add_assoc]
      rfl
    rw [loadLoop, hline, List.length_cons, ← hcount, ← hloop]
    simp only [Option.bind_eq_bind, Option.bind_some, parseLine_text, hbind]

/-- With a terminator behind the buffer, all lines but the first are counted and bound. -/
theorem ksymLoad_terminated (hheap : heap.Fresh) (hsupply : lines.length ≤ heap.supply.length)
    (hfuel : 2 ^ 64 ≤ fuel) (ended : Bool) (behind : Chars) :
    ∃ s, ksymLoad fuel heap none (some (symbolFile ended lines)) (0 :: behind) =
      some (some s, BitVec.ofNat 32 (lines.length - 1)) ∧
      ∀ key, ksymResolve fuel s key =
        some (((lines.tail.find? (·.key = key)).map Line.value).getD null) := by
  have hnew := hheap.holds 20
  have hlength : heap.supply.length < 2 ^ 64 :=
    KernelList.length_lt_of_nodup hheap.1 fun hnull => (hheap.2 null hnull).1 rfl
  have hlines : lines.length ≤ fuel := by omega
  unfold ksymLoad
  simp only [symbolFile, Option.isSome_none, Bool.false_eq_true, if_false, ne_eq,
    not_true_eq_false]
  cases lines with
  | nil => exact ⟨heap.create 20, rfl, hnew.get hfuel⟩
  | cons line lines =>
    rw [List.length_cons] at hsupply hlines
    obtain ⟨s, hloop, hs⟩ : ∃ s, loadLoop fuel fuel
        ((remaining ended lines).map (· ++ 0 :: behind)) (heap.create 20) 0 =
          some (s, 0 + BitVec.ofNat 32 lines.length) ∧ s.Holds (bindFirst _ lines) :=
      loadLoop_terminated hnew hfuel (Nat.le_of_succ_le hsupply) hlines
    refine ⟨s, ?_, fun key => ?_⟩
    · rw [boundedStrtokR_line rfl]
      simp only [Option.bind_eq_bind, Option.bind_some, Option.isSome_some, if_true, hloop]
      rw [List.length_cons, Nat.add_sub_cancel]
      simp
    · rw [ksymResolve, hs.get hfuel]
      rfl

theorem not_loads (heap : Heap) (ended : Bool) (lines : List Line) : ¬ Loads heap ended lines := by
  rintro ⟨fuel, s, hload, -⟩
  have hnone : ksymLoad fuel heap none (some (symbolFile ended lines)) [] = none :=
    ksymLoad_unterminated (zero_notMem_contents ended lines)
  exact absurd (hload.symm.trans hnone) (Option.some_ne_none _)

/--
No symbol file is loaded within its length. With a terminator behind the buffer it is loaded, but
for its first line: that one is not counted, and names are bound to the first of the others.
-/
theorem symbol_files_not_loaded (heap : Heap) (ended : Bool) (lines : List Line) :
    ¬ Loads heap ended lines ∧
      (heap.Fresh → lines.length ≤ heap.supply.length → ∀ fuel, 2 ^ 64 ≤ fuel → ∀ behind,
        ∃ s, ksymLoad fuel heap none (some (symbolFile ended lines)) (0 :: behind) =
          some (some s, BitVec.ofNat 32 (lines.length - 1)) ∧
          ∀ key, ksymResolve fuel s key =
            some (((lines.tail.find? (·.key = key)).map Line.value).getD null)) :=
  ⟨not_loads heap ended lines, fun hheap hsupply _ hfuel behind =>
    ksymLoad_terminated hheap hsupply hfuel ended behind⟩

def exampleLine (c d : BitVec 8) (hc : Hexadecimal c) (hd : Plain [d]) : Line where
  address := List.replicate 15 48 ++ [c]
  type := [84]
  name := [d]
  digits := ⟨rfl, fun c' h => by
    rcases List.mem_append.mp h with h | h
    · rw [List.eq_of_mem_replicate h]
      decide
    · rwa [List.mem_singleton.mp h]⟩
  plainType := ⟨by decide, by decide, by decide, by decide⟩
  plainName := hd
  short := Nat.one_lt_succ_succ 254

def firstLine : Line := exampleLine 97 120 (by decide) ⟨by decide, by decide, by decide, by decide⟩

def secondLine : Line := exampleLine 98 121 (by decide) ⟨by decide, by decide, by decide, by decide⟩

def smallHeap : Heap := ⟨fun _ => ⟨firstLine.key, null, null⟩, fun _ => false, [0x1000, 0x2000]⟩

theorem symbol_files_not_loaded_two :
    ¬ Loads smallHeap true [firstLine, secondLine] ∧
      ∃ s, ksymLoad (2 ^ 64) smallHeap none (some (symbolFile true [firstLine, secondLine])) [0] =
        some (some s, 1) ∧ ∀ key, ksymResolve (2 ^ 64) s key =
          some ((([secondLine].find? (·.key = key)).map Line.value).getD null) := by
  obtain ⟨hloads, hload⟩ := symbol_files_not_loaded smallHeap true [firstLine, secondLine]
  have hfresh : smallHeap.Fresh := ⟨by decide, by simp [smallHeap, null]⟩
  exact ⟨hloads, hload hfresh (Nat.le_refl 2) (2 ^ 64) (Nat.le_refl (2 ^ 64)) []⟩

/-- Of two lines, the file is not loaded within its length, and with a terminator behind it the
first one's name is not bound. -/
theorem first_line_lost :
    ¬ Loads smallHeap true [firstLine, secondLine] ∧
      (ksymLoad 5 smallHeap none (some (symbolFile true [firstLine, secondLine])) [0]).map
        Prod.snd = some 1 ∧
      (ksymLoad 5 smallHeap none (some (symbolFile true [firstLine, secondLine])) [0]).bind
        (fun r => r.1.bind fun s => ksymResolve 5 s firstLine.key) = some null ∧
      firstLine.value = 10 :=
  ⟨not_loads _ _ _, by decide +kernel, by decide +kernel, by decide +kernel⟩

end Lines

end ReduceOS.Ksym
