import ReduceOS.BoundedScan
import ReduceOS.LongKeys

/-!
The arguments of the kernel. `kargs_init` goes over the text once. It ends keys and values where
they stand, and brings a quoted value together with a second cursor that never passes the first.
-/
namespace ReduceOS.Kargs

open Machine CString BoundedScan Hashmap LongKeys

def space : BitVec 8 := 32

def quote : BitVec 8 := 34

def equals : BitVec 8 := 61

def backslash : BitVec 8 := 92

/-- The map of the arguments, and the strings that `strdup` has made. -/
structure Arguments where
  table : Table
  strings : Addr → Key

section Source

def stringAt (text : Chars) (p : ℕ) : Option Key :=
  (advance (· ≠ 0) (text.drop p)).map fun _ => keyAt (text.drop p)

def strdup (s : Arguments) (str : Key) : Option (Addr × Arguments) :=
  match s.table.supply with
  | [] => none
  | p :: supply => some (p, ⟨⟨s.table.map, supply⟩, Function.update s.strings p str⟩)

def setArg (fuel : ℕ) (s : Arguments) (arg : Key) (argValue : Option Key) : Option Arguments := do
  let (value, s) ← match argValue with
    | none => some (null, s)
    | some str => strdup s str
  let table ← s.table.set fuel arg value
  some ⟨table, s.strings⟩

/-- The loop over a quoted value, with both cursors; `none` inside is the jump to `_done`. -/
def unescape : ℕ → Chars → ℕ → ℕ → Option (Option (Chars × ℕ × ℕ))
  | 0, _, _, _ => none
  | fuel + 1, text, x, y => do
    let c ← text[x]?
    if c = 0 ∨ c = quote then some (some (text, x, y))
    else if c = backslash then do
      let c ← text[x + 1]?
      if c = quote ∨ c = backslash then
        let text ← store text y c
        unescape fuel text (x + 2) (y + 1)
      else if c = 0 then some none
      else do
        let text ← store text y backslash
        let c ← text[x + 1]?
        let text ← store text (y + 1) c
        unescape fuel text (x + 2) (y + 2)
    else do
      let text ← store text y c
      unescape fuel text (x + 1) (y + 1)

/-- A value, from behind the `=` on: the text and the cursor afterwards, and where the value is. -/
def parseValue (fuel : ℕ) (text : Chars) (x : ℕ) : Option (Option (Chars × ℕ × ℕ)) := do
  let c ← text[x]?
  if c = quote then do
    match ← unescape fuel text (x + 1) (x + 1) with
    | none => some none
    | some (text, stop, y) => do
      let c ← text[stop]?
      if c = quote then do
        let text ← store text y 0
        some (some (text, stop + 1, x + 1))
      else some (some (text, stop, x + 1))
  else do
    let n ← advance (fun c => c ≠ 0 ∧ c ≠ space) (text.drop x)
    let c ← text[x + n]?
    if c = space then do
      let text ← store text (x + n) 0
      some (some (text, x + n + 1, x))
    else some (some (text, x + n, x))

def parseArg (fuel : ℕ) (text : Chars) (x : ℕ) : Option (Option (Chars × ℕ × Option ℕ)) := do
  let n ← advance (fun c => c ≠ 0 ∧ c ≠ space ∧ c ≠ equals) (text.drop x)
  let c ← text[x + n]?
  if c = equals then do
    let text ← store text (x + n) 0
    match ← parseValue fuel text (x + n + 1) with
    | none => some none
    | some (text, x, argValue) => some (some (text, x, some argValue))
  else if c = space then do
    let text ← store text (x + n) 0
    some (some (text, x + n + 1, none))
  else some (some (text, x + n, none))

def valueAt (text : Chars) : Option ℕ → Option (Option Key)
  | none => some none
  | some p => (stringAt text p).map some

def argsLoop (inner : ℕ) : ℕ → Chars → ℕ → Arguments → Option Arguments
  | 0, _, _, _ => none
  | fuel + 1, text, x, s => do
    let n ← advance (fun c => c ≠ 0 ∧ c = space) (text.drop x)
    let c ← text[x + n]?
    if c = 0 then some s
    else do
      match ← parseArg inner text (x + n) with
      | none => some s
      | some (text, x', argValue) => do
        let arg ← stringAt text (x + n)
        let value ← valueAt text argValue
        let s ← setArg inner s arg value
        argsLoop inner fuel text x' s

/-- `kargs_init`, of `NULL` or a text, with all of it that may be read and written. -/
def kargsInit (fuel : ℕ) (heap : Heap) (strings : Addr → Key) (args : Option Chars) :
    Option (Option Arguments) :=
  match args with
  | none => some none
  | some args => (argsLoop fuel fuel args 0 ⟨heap.create 10, strings⟩).map some

def kargsGet (fuel : ℕ) (kargs : Option Arguments) (arg : Key) : Option Addr :=
  match kargs with
  | none => some null
  | some s => hashmapGet longKeys fuel s.table.map arg

def kargsHas (fuel : ℕ) (kargs : Option Arguments) (arg : Key) : Option Bool :=
  match kargs with
  | none => some false
  | some s => hashmapHas longKeys fuel s.table.map arg

end Source

section Rendering

def escape (value : Chars) : Chars :=
  value.flatMap fun c => if c = quote ∨ c = backslash then [backslash, c] else [c]

inductive Form
  | bare
  | plain (value : Key) (spaceless : space ∉ value.chars)
      (unquoted : value.chars.head? ≠ some quote)
  | quoted (value : Key)

structure Arg where
  key : Key
  nonempty : key.chars ≠ []
  spaceless : space ∉ key.chars
  equalsless : equals ∉ key.chars
  short : key.chars.length < 256
  form : Form

namespace Arg

def value (arg : Arg) : Option Key :=
  match arg.form with
  | .bare => none
  | .plain value _ _ => some value
  | .quoted value => some value

def text (arg : Arg) : Chars :=
  match arg.form with
  | .bare => arg.key.chars
  | .plain value _ _ => arg.key.chars ++ equals :: value.chars
  | .quoted value => arg.key.chars ++ equals :: quote :: (escape value.chars ++ [quote])

end Arg

inductive Rendered : List Arg → Chars → Prop
  | nil : Rendered [] []
  | space {args text} : Rendered args text → Rendered args (Kargs.space :: text)
  | last (arg) : Rendered [arg] arg.text
  | cons (arg) {args text} : Rendered args text →
      Rendered (arg :: args) (arg.text ++ Kargs.space :: text)

def lastOf (args : List Arg) (key : Key) : Option (Option Key) :=
  (args.reverse.find? (·.key = key)).map Arg.value

end Rendering

section Scanning

variable {before text rest value : Chars} {c : BitVec 8} {key : Key} {fuel : ℕ}

@[simp]
theorem get_append (before : Chars) (c : BitVec 8) (rest : Chars) :
    (before ++ c :: rest)[before.length]? = some c := by
  simp

theorem stringAt_append (before : Chars) (key : Key) (rest : Chars) :
    stringAt (before ++ key.chars ++ 0 :: rest) before.length = some key := by
  have hdrop : (before ++ key.chars ++ 0 :: rest).drop before.length = key.chars ++ 0 :: rest := by
    rw [List.append_assoc, List.drop_left]
  have hall : ∀ c ∈ key.chars, decide (c ≠ 0) = true := fun c hc =>
    decide_eq_true (ne_of_mem_of_not_mem hc key.terminated)
  have hkey : keyAt (key.chars ++ 0 :: rest) = key := by
    simp only [keyAt, cstring_append key.terminated]
  rw [stringAt, hdrop, advance_stops hall (by decide), Option.map_some, hkey]

variable {text' : Chars} {x y : ℕ}

theorem unescape_end (hget : text[x]? = some c) (hc : c = 0 ∨ c = quote) :
    unescape (fuel + 1) text x y = some (some (text, x, y)) := by
  rw [unescape, hget]
  simp only [Option.bind_eq_bind, Option.bind_some, if_pos hc]

theorem unescape_plain (hget : text[x]? = some c) (hzero : c ≠ 0) (hquote : c ≠ quote)
    (hbackslash : c ≠ backslash) (hstore : store text y c = some text') :
    unescape (fuel + 1) text x y = unescape fuel text' (x + 1) (y + 1) := by
  rw [unescape, hget]
  simp only [Option.bind_eq_bind, Option.bind_some, hzero, hquote, hbackslash, or_self, if_false,
    hstore]

theorem unescape_backslash (hget : text[x]? = some backslash) (hget' : text[x + 1]? = some c)
    (hc : c = quote ∨ c = backslash) (hstore : store text y c = some text') :
    unescape (fuel + 1) text x y = unescape fuel text' (x + 2) (y + 1) := by
  have hne : ¬ (backslash = 0 ∨ backslash = quote) := by decide
  rw [unescape, hget]
  simp only [Option.bind_eq_bind, Option.bind_some, if_neg hne, if_true, hget', if_pos hc, hstore]

/-- Both cursors over a quoted value: what is between them is left over. -/
theorem unescape_escape (hvalue : 0 ∉ value) (before gap rest : Chars)
    (hx : x = before.length + gap.length) (hy : y = before.length) (hfuel : value.length < fuel) :
    ∃ gap', unescape fuel (before ++ gap ++ (escape value ++ quote :: rest)) x y =
      some (some (before ++ value ++ gap' ++ quote :: rest,
        (before ++ value ++ gap').length, (before ++ value).length)) := by
  induction value generalizing before gap fuel x y with
  | nil =>
    obtain ⟨fuel, rfl⟩ := Nat.exists_eq_add_one_of_ne_zero (by omega : fuel ≠ 0)
    have hget := get_append (before ++ gap) quote rest
    rw [List.length_append, ← hx] at hget
    refine ⟨gap, ?_⟩
    rw [List.append_nil, List.length_append, ← hx, ← hy]
    exact unescape_end hget (Or.inr rfl)
  | cons c value ih =>
    obtain ⟨fuel, rfl⟩ := Nat.exists_eq_add_one_of_ne_zero (by omega : fuel ≠ 0)
    rw [List.mem_cons, not_or] at hvalue
    rw [List.length_cons] at hfuel
    have hlt : value.length < fuel := by omega
    have hmoved : before ++ [c] ++ value = before ++ c :: value := by simp
    have hy' : y + 1 = (before ++ [c]).length := by simp [hy]
    by_cases hc : c = quote ∨ c = backslash
    · -- the character goes before the gap, the one that it is in place of joins it
      have htext : before ++ gap ++ (escape (c :: value) ++ quote :: rest) =
          before ++ gap ++ backslash :: c :: (escape value ++ quote :: rest) := by
        simp [escape, hc]
      obtain ⟨gap₁, hlength, hstore⟩ := store_gap before gap backslash c
        (c :: (escape value ++ quote :: rest))
      have hx' : x + 2 = (before ++ [c]).length + (gap₁ ++ [c]).length := by
        simp only [List.length_append, List.length_singleton]
        omega
      obtain ⟨gap', hrest⟩ := ih hvalue.2 (before ++ [c]) (gap₁ ++ [c]) hx' hy' hlt
      have hstored : before ++ c :: (gap₁ ++ c :: (escape value ++ quote :: rest)) =
          before ++ [c] ++ (gap₁ ++ [c]) ++ (escape value ++ quote :: rest) := by simp
      have hget := get_append (before ++ gap) backslash (c :: (escape value ++ quote :: rest))
      have hget' := get_append (before ++ gap ++ [backslash]) c (escape value ++ quote :: rest)
      rw [List.append_assoc (before ++ gap), List.singleton_append] at hget'
      rw [List.length_append, ← hx] at hget
      rw [List.length_append, List.length_append, ← hx, List.length_singleton] at hget'
      rw [← hy] at hstore
      refine ⟨gap', ?_⟩
      rw [htext, unescape_backslash hget hget' hc hstore, hstored, hrest, hmoved]
    · have htext : before ++ gap ++ (escape (c :: value) ++ quote :: rest) =
          before ++ gap ++ c :: (escape value ++ quote :: rest) := by
        simp [escape, hc]
      obtain ⟨gap₁, hlength, hstore⟩ := store_gap before gap c c (escape value ++ quote :: rest)
      have hx' : x + 1 = (before ++ [c]).length + gap₁.length := by
        simp only [List.length_append, List.length_singleton]
        omega
      obtain ⟨gap', hrest⟩ := ih hvalue.2 (before ++ [c]) gap₁ hx' hy' hlt
      have hstored : before ++ c :: (gap₁ ++ (escape value ++ quote :: rest)) =
          before ++ [c] ++ gap₁ ++ (escape value ++ quote :: rest) := by simp
      have hget := get_append (before ++ gap) c (escape value ++ quote :: rest)
      rw [List.length_append, ← hx] at hget
      rw [← hy] at hstore
      rw [not_or] at hc
      refine ⟨gap', ?_⟩
      rw [htext, unescape_plain hget (Ne.symm hvalue.1) hc.1 hc.2 hstore, hstored, hrest, hmoved]

def Leaves (c : BitVec 8) (rest rest' : Chars) : Prop :=
  rest' = c :: rest ∨ (c = space ∧ rest' = rest)

theorem parseValue_quoted (hvalue : 0 ∉ value) (before rest : Chars) (hx : x = before.length)
    (hfuel : value.length < fuel) :
    ∃ left, parseValue fuel (before ++ quote :: (escape value ++ quote :: rest)) x =
      some (some (before ++ [quote] ++ value ++ 0 :: (left ++ rest),
        (before ++ [quote] ++ value ++ 0 :: left).length, x + 1)) := by
  have hlength : x + 1 = (before ++ [quote]).length := by simp [hx]
  obtain ⟨gap, hgap⟩ := unescape_escape hvalue (before ++ [quote]) [] rest
    (hlength.trans (Nat.add_zero _).symm) hlength hfuel
  obtain ⟨left, hleft, hstore⟩ := store_gap (before ++ [quote] ++ value) gap quote 0 rest
  have htext : before ++ quote :: (escape value ++ quote :: rest) =
      before ++ [quote] ++ [] ++ (escape value ++ quote :: rest) := by simp
  have hget := get_append before quote (escape value ++ quote :: rest)
  have hend := get_append (before ++ [quote] ++ value ++ gap) quote rest
  refine ⟨left, ?_⟩
  rw [← hx, htext] at hget
  rw [parseValue, htext, hget]
  simp only [Option.bind_eq_bind, Option.bind_some, if_true, hgap, hend, hstore]
  simp only [List.length_append, List.length_cons, hleft, Nat.add_assoc]

theorem advance_to {p : BitVec 8 → Bool} (before : Chars) (hvalue : ∀ c ∈ value, p c = true)
    (hc : p c = false) (rest : Chars) (hx : x = before.length) :
    advance p ((before ++ value ++ c :: rest).drop x) = some value.length ∧
      (before ++ value ++ c :: rest)[x + value.length]? = some c := by
  subst hx
  constructor
  · rw [List.append_assoc, List.drop_left, advance_stops hvalue hc]
  · rw [← List.length_append, get_append]

theorem parseValue_plain (fuel : ℕ) (hvalue : 0 ∉ value) (hspace : space ∉ value)
    (hquote : value.head? ≠ some quote) (before rest : Chars) (hc : c = 0 ∨ c = space)
    (hx : x = before.length) :
    ∃ before' rest' more, Leaves c rest rest' ∧ before' ++ rest' = before ++ value ++ 0 :: more ∧
      parseValue fuel (before ++ value ++ c :: rest) x =
        some (some (before' ++ rest', before'.length, x)) := by
  have hall : ∀ d ∈ value, decide (d ≠ 0 ∧ d ≠ space) = true := fun d hd =>
    decide_eq_true ⟨ne_of_mem_of_not_mem hd hvalue, ne_of_mem_of_not_mem hd hspace⟩
  have hstop : decide (c ≠ 0 ∧ c ≠ space) = false := by
    rcases hc with rfl | rfl <;> decide
  obtain ⟨hadvance, hget⟩ := advance_to before hall hstop rest hx
  obtain ⟨d, hfirst, hd⟩ : ∃ d, (before ++ value ++ c :: rest)[x]? = some d ∧ d ≠ quote := by
    cases value with
    | nil =>
      refine ⟨c, by rw [hx, List.append_nil, get_append], ?_⟩
      rcases hc with rfl | rfl <;> decide
    | cons d value =>
      refine ⟨d, ?_, fun heq => hquote (congrArg some heq)⟩
      rw [hx, List.append_assoc, List.cons_append, get_append]
  have hlength : x + value.length = (before ++ value).length := by rw [List.length_append, hx]
  rw [parseValue, hfirst]
  simp only [Option.bind_eq_bind, Option.bind_some, if_neg hd, hadvance, hget]
  rcases hc with rfl | rfl
  · refine ⟨before ++ value, 0 :: rest, rest, Or.inl rfl, rfl, ?_⟩
    rw [if_neg (by decide), hlength]
  · refine ⟨before ++ value ++ [0], rest, rest, Or.inr ⟨rfl, rfl⟩, by simp, ?_⟩
    rw [if_pos rfl, hlength, store_append]
    simp [Nat.add_assoc]

theorem advance_key (arg : Arg) (before : Chars) (hc : c = 0 ∨ c = space ∨ c = equals)
    (rest : Chars) (hx : x = before.length) :
    advance (fun c => c ≠ 0 ∧ c ≠ space ∧ c ≠ equals)
        ((before ++ arg.key.chars ++ c :: rest).drop x) = some arg.key.chars.length ∧
      (before ++ arg.key.chars ++ c :: rest)[x + arg.key.chars.length]? = some c := by
  have hall : ∀ d ∈ arg.key.chars, decide (d ≠ 0 ∧ d ≠ space ∧ d ≠ equals) = true :=
    fun d hd => decide_eq_true ⟨ne_of_mem_of_not_mem hd arg.key.terminated,
      ne_of_mem_of_not_mem hd arg.spaceless, ne_of_mem_of_not_mem hd arg.equalsless⟩
  have hstop : decide (c ≠ 0 ∧ c ≠ space ∧ c ≠ equals) = false := by
    rcases hc with rfl | rfl | rfl <;> decide
  exact advance_to before hall hstop rest hx

theorem parseArg_bare (fuel : ℕ) (arg : Arg) (before rest : Chars) (hc : c = 0 ∨ c = space)
    (hx : x = before.length) :
    ∃ before' rest' more, Leaves c rest rest' ∧
      before' ++ rest' = before ++ arg.key.chars ++ 0 :: more ∧
      parseArg fuel (before ++ arg.key.chars ++ c :: rest) x =
        some (some (before' ++ rest', before'.length, none)) := by
  have hlength : x + arg.key.chars.length = (before ++ arg.key.chars).length := by
    rw [List.length_append, hx]
  have hne : c ≠ equals := by
    rcases hc with rfl | rfl <;> decide
  obtain ⟨hadvance, hget⟩ := advance_key arg before (hc.imp_right Or.inl) rest hx
  rw [parseArg, hadvance]
  simp only [Option.bind_eq_bind, Option.bind_some, hget, if_neg hne]
  rcases hc with rfl | rfl
  · refine ⟨before ++ arg.key.chars, 0 :: rest, rest, Or.inl rfl, rfl, ?_⟩
    rw [if_neg (by decide), hlength]
  · refine ⟨before ++ arg.key.chars ++ [0], rest, rest, Or.inr ⟨rfl, rfl⟩, by simp, ?_⟩
    rw [if_pos rfl, hlength, store_append]
    simp [Nat.add_assoc]

/-- An argument with a value goes on behind the `=`. -/
theorem parseArg_equals (arg : Arg) (before more : Chars) (hx : x = before.length) :
    parseArg fuel (before ++ arg.key.chars ++ equals :: more) x =
      (parseValue fuel (before ++ arg.key.chars ++ [0] ++ more)
        (x + arg.key.chars.length + 1)).map (Option.map fun r => (r.1, r.2.1, some r.2.2)) := by
  have hlength : x + arg.key.chars.length = (before ++ arg.key.chars).length := by
    rw [List.length_append, hx]
  have hstore : store (before ++ arg.key.chars ++ equals :: more) (x + arg.key.chars.length) 0 =
      some (before ++ arg.key.chars ++ [0] ++ more) := by
    rw [hlength, store_append, List.append_assoc (before ++ arg.key.chars), List.singleton_append]
  obtain ⟨hadvance, hget⟩ := advance_key arg before (Or.inr (Or.inr rfl)) more hx
  rw [parseArg, hadvance]
  simp only [Option.bind_eq_bind, Option.bind_some, hget, if_true, hstore]
  cases parseValue fuel (before ++ arg.key.chars ++ [0] ++ more)
      (x + arg.key.chars.length + 1) with
  | none => rfl
  | some result => cases result <;> rfl

/-- An argument is taken from the text, with its value where it is found. -/
theorem parseArg_text (arg : Arg) (before rest : Chars) (hc : c = 0 ∨ c = space)
    (hx : x = before.length) (hfuel : ∀ value ∈ arg.value, value.chars.length < fuel) :
    ∃ before' rest' argValue, Leaves c rest rest' ∧
      parseArg fuel (before ++ arg.text ++ c :: rest) x =
        some (some (before' ++ rest', before'.length, argValue)) ∧
      stringAt (before' ++ rest') x = some arg.key ∧
      valueAt (before' ++ rest') argValue = some arg.value := by
  have hnext : x + arg.key.chars.length + 1 = (before ++ arg.key.chars ++ [0]).length := by
    rw [List.length_append, List.length_append, hx, List.length_singleton]
  cases hform : arg.form with
  | bare =>
    have htext : arg.text = arg.key.chars := by rw [Arg.text, hform]
    have hvalue : arg.value = none := by rw [Arg.value, hform]
    obtain ⟨before', rest', more, hleaves, hend, hparse⟩ :=
      parseArg_bare fuel arg before rest hc hx
    refine ⟨before', rest', none, hleaves, by rw [htext, hparse], ?_, by rw [hvalue]; rfl⟩
    rw [hend, hx, stringAt_append]
  | plain value spaceless unquoted =>
    have htext : before ++ arg.text ++ c :: rest =
        before ++ arg.key.chars ++ equals :: (value.chars ++ c :: rest) := by
      simp [Arg.text, hform]
    have hvalue : arg.value = some value := by rw [Arg.value, hform]
    obtain ⟨before', rest', more, hleaves, hend, hparse⟩ := parseValue_plain fuel
      value.terminated spaceless unquoted (before ++ arg.key.chars ++ [0]) rest hc hnext
    have hkey : before ++ arg.key.chars ++ [0] ++ value.chars ++ 0 :: more =
        before ++ arg.key.chars ++ 0 :: (value.chars ++ 0 :: more) := by simp
    refine ⟨before', rest', some (x + arg.key.chars.length + 1), hleaves, ?_, ?_, ?_⟩
    · rw [htext, parseArg_equals arg before _ hx, ← List.append_assoc _ value.chars, hparse]
      rfl
    · rw [hend, hkey, hx, stringAt_append]
    · rw [hend, hvalue, valueAt, hnext, stringAt_append]
      rfl
  | quoted value =>
    have htext : before ++ arg.text ++ c :: rest = before ++ arg.key.chars ++
        equals :: (quote :: (escape value.chars ++ quote :: c :: rest)) := by
      simp [Arg.text, hform]
    have hvalue : arg.value = some value := by rw [Arg.value, hform]
    obtain ⟨left, hparse⟩ := parseValue_quoted value.terminated (before ++ arg.key.chars ++ [0])
      (c :: rest) hnext (hfuel value hvalue)
    have hsplit : before ++ arg.key.chars ++ [0] ++ [quote] ++ value.chars ++ 0 :: left ++
        c :: rest = before ++ arg.key.chars ++ [0] ++ [quote] ++ value.chars ++
          0 :: (left ++ c :: rest) := by simp
    have hkey : before ++ arg.key.chars ++ [0] ++ [quote] ++ value.chars ++
        0 :: (left ++ c :: rest) = before ++ arg.key.chars ++
          0 :: (quote :: (value.chars ++ 0 :: (left ++ c :: rest))) := by simp
    have hplace : x + arg.key.chars.length + 1 + 1 =
        (before ++ arg.key.chars ++ [0] ++ [quote]).length := by
      rw [List.length_append, ← hnext, List.length_singleton]
    refine ⟨before ++ arg.key.chars ++ [0] ++ [quote] ++ value.chars ++ 0 :: left, c :: rest,
      some (x + arg.key.chars.length + 1 + 1), Or.inl rfl, ?_, ?_, ?_⟩
    · rw [htext, parseArg_equals arg before _ hx, hparse, hsplit]
      rfl
    · rw [hsplit, hkey, hx, stringAt_append]
    · rw [hsplit, hvalue, valueAt, hplace, stringAt_append]
      rfl

end Scanning

section Setting

variable {s : Arguments} {m : Key → Option (Option Key)} {key : Key} {fuel : ℕ}

/-- What the table has for a key, by what is bound to it: `NULL` or a copy of the value. -/
def Represents (s : Arguments) (bound : Option Addr) : Option (Option Key) → Prop
  | none => bound = none
  | some none => bound = some null
  | some (some value) =>
    ∃ p, bound = some p ∧ p ≠ null ∧ s.strings p = value ∧ p ∉ s.table.supply

def Binds (s : Arguments) (m : Key → Option (Option Key)) : Prop :=
  ∃ named, s.table.Holds named ∧ ∀ key, Represents s (named key) (m key)

theorem Represents.mono {s' : Arguments} {bound : Option Addr} {value : Option (Option Key)}
    (h : Represents s bound value) (hsupply : s'.table.supply ⊆ s.table.supply)
    (hstrings : ∀ p, p ∉ s.table.supply → s'.strings p = s.strings p) :
    Represents s' bound value := by
  cases value with
  | none => exact h
  | some value =>
    cases value with
    | none => exact h
    | some value =>
      obtain ⟨p, hbound, hnull, hstring, hp⟩ := h
      exact ⟨p, hbound, hnull, (hstrings p hp).trans hstring, fun hmem => hp (hsupply hmem)⟩

/-- Setting an argument takes two addresses at most. -/
theorem exists_two {supply : List Addr} {count : ℕ} (h : count + 2 ≤ supply.length) :
    ∃ p node rest, supply = p :: node :: rest := by
  rcases supply with _ | ⟨p, _ | ⟨node, rest⟩⟩
  · exact absurd h (by simp)
  · exact absurd h (by simp)
  · exact ⟨p, node, rest, rfl⟩

theorem Binds.setArg (h : Binds s m) (hfuel : 2 ^ 64 ≤ fuel) (hkey : key.chars.length < 256)
    (argValue : Option Key) {count : ℕ} (hsupply : count + 2 ≤ s.table.supply.length) :
    ∃ s', Kargs.setArg fuel s key argValue = some s' ∧
      Binds s' (Function.update m key (some argValue)) ∧ count ≤ s'.table.supply.length := by
  obtain ⟨named, hholds, hrepresents⟩ := h
  obtain ⟨p, node, supply, hs⟩ := exists_two hsupply
  rw [hs, List.length_cons, List.length_cons] at hsupply
  cases argValue with
  | none =>
    obtain ⟨table, hset, hholds', hrest⟩ := hholds.set hfuel hkey null hs
    refine ⟨⟨table, s.strings⟩, by simp [Kargs.setArg, hset], ⟨_, hholds', fun key' => ?_⟩, ?_⟩
    · rcases eq_or_ne key' key with rfl | hne
      · simp [Represents]
      · rw [Function.update_of_ne hne, Function.update_of_ne hne]
        refine (hrepresents key').mono ?_ fun _ _ => rfl
        rw [hrest, hs]
        exact List.subset_cons_self p _
    · rw [hrest, List.length_cons]
      omega
  | some value =>
    have hp := hholds.fresh p (by rw [hs]; exact List.mem_cons_self)
    have hnodup := hholds.nodup
    rw [hs, List.nodup_cons] at hnodup
    have hleft : (⟨s.table.map, node :: supply⟩ : Table).Holds named :=
      ⟨hholds.refines, hholds.short, hnodup.2, fun a ha =>
        hholds.fresh a (by rw [hs]; exact List.mem_cons_of_mem p ha)⟩
    obtain ⟨table, hset, hholds', hrest⟩ := hleft.set hfuel hkey p rfl
    refine ⟨⟨table, Function.update s.strings p value⟩, by simp [Kargs.setArg, strdup, hs, hset],
      ⟨_, hholds', fun key' => ?_⟩, by rw [hrest]; omega⟩
    rcases eq_or_ne key' key with rfl | hne
    · rw [Function.update_self, Function.update_self]
      refine ⟨p, rfl, hp.1, Function.update_self .., fun hmem => hnodup.1 ?_⟩
      rw [hrest] at hmem
      exact List.mem_cons_of_mem node hmem
    · rw [Function.update_of_ne hne, Function.update_of_ne hne]
      refine (hrepresents key').mono ?_ fun q hq => Function.update_of_ne ?_ _ _
      · rw [hrest, hs]
        exact fun a ha => List.mem_cons_of_mem p (List.mem_cons_of_mem node ha)
      · rintro rfl
        exact hq (by rw [hs]; exact List.mem_cons_self)

end Setting

section Loop

variable {inner fuel x : ℕ} {s : Arguments} {m : Key → Option (Option Key)} {c : BitVec 8}
  {args : List Arg} {text : Chars}

theorem argsLoop_end (before : Chars) (s : Arguments) (hx : x = before.length) :
    argsLoop inner (fuel + 1) (before ++ [0]) x s = some s := by
  subst hx
  rw [argsLoop, List.drop_left]
  simp [advance]

/-- A space in front of what is left makes no difference. -/
theorem argsLoop_space (before rest : Chars) (s : Arguments) (hx : x = before.length) :
    argsLoop inner (fuel + 1) (before ++ space :: rest) x s =
      argsLoop inner (fuel + 1) (before ++ space :: rest) (x + 1) s := by
  have hdrop : (before ++ space :: rest).drop x = space :: rest := by rw [hx, List.drop_left]
  have hdrop' : (before ++ space :: rest).drop (x + 1) = rest := by
    have hsplit : before ++ space :: rest = before ++ [space] ++ rest := by simp
    rw [hsplit, hx]
    exact List.drop_left' (by simp)
  rw [argsLoop, argsLoop, hdrop, hdrop', advance, if_pos (by decide)]
  cases advance (fun c => c ≠ 0 ∧ c = space) rest with
  | none => rfl
  | some n =>
    have hplace : x + (n + 1) = x + 1 + n := by omega
    simp only [Option.map_some, Option.bind_eq_bind, Option.bind_some, hplace]

theorem Arg.exists_text (arg : Arg) :
    ∃ d tail, arg.text = d :: tail ∧ d ≠ 0 ∧ d ≠ space := by
  obtain ⟨d, tail, hkey⟩ := List.exists_cons_of_ne_nil arg.nonempty
  have hd : d ∈ arg.key.chars := by rw [hkey]; exact List.mem_cons_self
  have hne : d ≠ 0 ∧ d ≠ space :=
    ⟨ne_of_mem_of_not_mem hd arg.key.terminated, ne_of_mem_of_not_mem hd arg.spaceless⟩
  cases hform : arg.form with
  | bare => exact ⟨d, tail, by rw [Arg.text, hform, ← hkey], hne⟩
  | plain value spaceless unquoted =>
    exact ⟨d, tail ++ equals :: value.chars, by rw [Arg.text, hform, hkey]; rfl, hne⟩
  | quoted value =>
    exact ⟨d, tail ++ equals :: quote :: (escape value.chars ++ [quote]),
      by rw [Arg.text, hform, hkey]; rfl, hne⟩

/-- An argument is set, and the loop goes on behind it. -/
theorem argsLoop_arg (fuel : ℕ) (arg : Arg) (before rest : Chars) (hc : c = 0 ∨ c = space)
    (hx : x = before.length) (hinner : ∀ value ∈ arg.value, value.chars.length < inner) :
    ∃ before' rest', Leaves c rest rest' ∧ ∀ s,
      argsLoop inner (fuel + 1) (before ++ arg.text ++ c :: rest) x s =
        (setArg inner s arg.key arg.value).bind
          (argsLoop inner fuel (before' ++ rest') before'.length) := by
  obtain ⟨before', rest', argValue, hleaves, hparse, hkey, hvalue⟩ :=
    parseArg_text arg before rest hc hx hinner
  refine ⟨before', rest', hleaves, fun s => ?_⟩
  obtain ⟨d, tail, htext, hzero, hspace⟩ := arg.exists_text
  have hadvance : advance (fun c => c ≠ 0 ∧ c = space)
      ((before ++ arg.text ++ c :: rest).drop x) = some 0 := by
    rw [hx, List.append_assoc, List.drop_left, htext]
    exact advance_of_neg (by simp [hspace])
  have hget : (before ++ arg.text ++ c :: rest)[x]? = some d := by
    rw [hx, htext, List.append_assoc, List.cons_append, get_append]
  rw [argsLoop, hadvance]
  simp only [Option.bind_eq_bind, Option.bind_some, Nat.add_zero, hget, if_neg hzero, hparse,
    hkey, hvalue]

theorem length_le_escape (value : Chars) : value.length ≤ (escape value).length := by
  induction value with
  | nil => exact Nat.le_refl 0
  | cons c value ih =>
    have hone : 1 ≤ (if c = quote ∨ c = backslash then [backslash, c] else [c]).length := by
      split_ifs <;> simp
    rw [escape, List.flatMap_cons, List.length_append, List.length_cons, ← escape]
    omega

theorem Arg.value_length_lt (arg : Arg) :
    ∀ value ∈ arg.value, value.chars.length < arg.text.length := by
  intro value hvalue
  unfold Arg.value at hvalue
  cases hform : arg.form with
  | bare => simp [hform] at hvalue
  | plain value' spaceless unquoted =>
    rw [hform] at hvalue
    obtain rfl := Option.some.inj hvalue
    simp only [Arg.text, hform, List.length_append, List.length_cons]
    omega
  | quoted value' =>
    rw [hform] at hvalue
    obtain rfl := Option.some.inj hvalue
    have hescape := length_le_escape value'.chars
    simp only [Arg.text, hform, List.length_append, List.length_cons]
    omega

/-- Every argument of a rendering is set, in order. -/
theorem argsLoop_rendered (h : Rendered args text) (hinner : 2 ^ 64 ≤ inner)
    (hlength : text.length < inner) (hfuel : args.length < fuel) (hbinds : Binds s m)
    (hsupply : 2 * args.length ≤ s.table.supply.length) (before : Chars)
    (hx : x = before.length) :
    ∃ s', argsLoop inner fuel (before ++ text ++ [0]) x s = some s' ∧
      Binds s' (args.foldl (fun m arg => Function.update m arg.key (some arg.value)) m) := by
  obtain ⟨fuel, rfl⟩ := Nat.exists_eq_add_one_of_ne_zero (by omega : fuel ≠ 0)
  induction h generalizing before x s m fuel with
  | nil => exact ⟨s, by rw [List.append_nil, argsLoop_end before s hx], hbinds⟩
  | @space args text h ih =>
    rw [List.length_cons] at hlength
    have hx' : x + 1 = (before ++ [space]).length := by simp [hx]
    obtain ⟨s', hloop, hbinds'⟩ := ih (by omega) hbinds hsupply (before ++ [space]) hx' fuel hfuel
    refine ⟨s', ?_, hbinds'⟩
    rw [List.append_assoc, List.cons_append, argsLoop_space before (text ++ [0]) s hx, ← hloop]
    simp
  | last arg =>
    rw [List.length_singleton] at hfuel hsupply
    obtain ⟨fuel, rfl⟩ := Nat.exists_eq_add_one_of_ne_zero (by omega : fuel ≠ 0)
    obtain ⟨before', rest', hleaves, hstep⟩ := argsLoop_arg (fuel + 1) arg before []
      (Or.inl rfl) hx fun value hvalue => (arg.value_length_lt value hvalue).trans hlength
    obtain ⟨s₁, hset, hbinds₁, -⟩ := hbinds.setArg hinner arg.short arg.value
      (by omega : 0 + 2 ≤ s.table.supply.length)
    have hrest : rest' = [0] := by
      rcases hleaves with rfl | ⟨hzero, -⟩
      · rfl
      · exact absurd hzero (by decide)
    refine ⟨s₁, ?_, hbinds₁⟩
    rw [hstep, hset, Option.bind_some, hrest, argsLoop_end before' s₁ rfl]
  | @cons arg args text h ih =>
    rw [List.length_cons] at hfuel hsupply
    rw [List.length_append, List.length_cons] at hlength
    obtain ⟨fuel, rfl⟩ := Nat.exists_eq_add_one_of_ne_zero (by omega : fuel ≠ 0)
    have hvalue : ∀ value ∈ arg.value, value.chars.length < inner := fun value hvalue => by
      have hlt := arg.value_length_lt value hvalue
      omega
    obtain ⟨before', rest', hleaves, hstep⟩ :=
      argsLoop_arg (fuel + 1) arg before (text ++ [0]) (Or.inr rfl) hx hvalue
    obtain ⟨s₁, hset, hbinds₁, hsupply₁⟩ := hbinds.setArg hinner arg.short arg.value
      (by omega : 2 * args.length + 2 ≤ s.table.supply.length)
    have htext : before ++ (arg.text ++ space :: text) ++ [0] =
        before ++ arg.text ++ space :: (text ++ [0]) := by simp
    rw [htext, hstep, hset, Option.bind_some]
    rcases hleaves with rfl | ⟨-, rfl⟩
    · obtain ⟨s', hloop, hbinds'⟩ := ih (by omega) hbinds₁ hsupply₁ (before' ++ [space])
        rfl fuel (by omega)
      refine ⟨s', ?_, hbinds'⟩
      rw [argsLoop_space before' (text ++ [0]) s₁ rfl, ← hloop]
      simp
    · obtain ⟨s', hloop, hbinds'⟩ := ih (by omega) hbinds₁ hsupply₁ before' rfl fuel (by omega)
      exact ⟨s', by rw [← List.append_assoc, hloop], hbinds'⟩

end Loop

section Termination

variable {before body text : Chars} {c d : BitVec 8} {fuel inner x y : ℕ} {s : Arguments}

theorem unescape_cut (hget : text[x]? = some backslash) (hget' : text[x + 1]? = some 0) :
    unescape (fuel + 1) text x y = some none := by
  have hne : ¬ (backslash = 0 ∨ backslash = quote) := by decide
  have hzero : ¬ ((0 : BitVec 8) = quote ∨ (0 : BitVec 8) = backslash) := by decide
  rw [unescape, hget]
  simp only [Option.bind_eq_bind, Option.bind_some, if_neg hne, if_true, hget', if_neg hzero]

/-- A backslash in front of another character stays. -/
theorem unescape_kept {text₁ text₂ : Chars} (hget : text[x]? = some backslash)
    (hget' : text[x + 1]? = some c) (hzero : c ≠ 0) (hc : ¬ (c = quote ∨ c = backslash))
    (hstore : store text y backslash = some text₁) (hget₁ : text₁[x + 1]? = some d)
    (hstore₁ : store text₁ (y + 1) d = some text₂) :
    unescape (fuel + 1) text x y = unescape fuel text₂ (x + 2) (y + 2) := by
  have hne : ¬ (backslash = 0 ∨ backslash = quote) := by decide
  rw [unescape, hget]
  simp only [Option.bind_eq_bind, Option.bind_some, if_neg hne, if_true, hget', if_neg hc,
    if_neg hzero, hstore, hget₁, hstore₁]

def At (text : Chars) (x left : ℕ) : Prop :=
  ∃ before body, text = before ++ (body ++ [0]) ∧ 0 ∉ body ∧ before.length = x ∧ body.length = left

theorem at_append (before : Chars) (hbody : 0 ∉ body) (hx : x = before.length) :
    At (before ++ (body ++ [0])) x body.length :=
  ⟨before, body, rfl, hbody, hx.symm, rfl⟩

theorem get_body (before : Chars) (c : BitVec 8) (body : Chars) (hx : x = before.length) :
    (before ++ (c :: body ++ [0]))[x]? = some c := by
  rw [hx]
  exact get_append before c (body ++ [0])

/-- A quoted value is gone over in the text, the second cursor behind the first. -/
theorem unescape_total (before : Chars) (hbody : 0 ∉ body) (hx : x = before.length) (hy : y ≤ x)
    (hfuel : body.length < fuel) :
    unescape fuel (before ++ (body ++ [0])) x y = some none ∨
      ∃ text' x' y' left, unescape fuel (before ++ (body ++ [0])) x y =
        some (some (text', x', y')) ∧ At text' x' left ∧ left ≤ body.length ∧ x ≤ x' ∧ y' ≤ x' := by
  induction fuel generalizing before body x y with
  | zero => omega
  | succ fuel ih =>
    rcases body with _ | ⟨c, tail⟩
    · have hget : (before ++ ([] ++ [0]))[x]? = some 0 := by rw [hx]; exact get_append before 0 []
      exact Or.inr ⟨_, x, y, 0, unescape_end hget (Or.inl rfl), at_append before hbody hx,
        Nat.le_refl 0, Nat.le_refl x, hy⟩
    have hget := get_body before c tail hx
    have htext : before ++ (c :: tail ++ [0]) = before ++ c :: (tail ++ [0]) := rfl
    have hstore : ∀ b, ∃ before₁ : Chars, before₁.length = before.length + 1 ∧
        store (before ++ (c :: tail ++ [0])) y b = some (before₁ ++ (tail ++ [0])) := by
      rw [htext]
      exact store_behind before c (tail ++ [0]) (by omega)
    have hzero := hbody
    rw [List.mem_cons, not_or] at hzero
    rw [List.length_cons] at hfuel ⊢
    by_cases hquote : c = quote
    · exact Or.inr ⟨_, x, y, tail.length + 1, unescape_end hget (Or.inr hquote),
        at_append before hbody hx, Nat.le_refl _, Nat.le_refl x, hy⟩
    by_cases hbackslash : c = backslash
    · subst hbackslash
      rcases tail with _ | ⟨d, tail⟩
      · have hnext : (before ++ ([backslash] ++ [0]))[x + 1]? = some 0 := by
          have hlast := get_append (before ++ [backslash]) 0 []
          rw [List.length_append, ← hx, List.length_singleton, List.append_assoc] at hlast
          exact hlast
        exact Or.inl (unescape_cut hget hnext)
      have hnext : (before ++ (backslash :: d :: tail ++ [0]))[x + 1]? = some d := by
        have hsplit : before ++ (backslash :: d :: tail ++ [0]) =
            before ++ [backslash] ++ (d :: tail ++ [0]) := by simp
        rw [hsplit]
        exact get_body (before ++ [backslash]) d tail (by simp [hx])
      have hd := hzero.2
      rw [List.mem_cons, not_or] at hd
      rw [List.length_cons] at hfuel ⊢
      by_cases hescaped : d = quote ∨ d = backslash
      · obtain ⟨before₁, hlength₁, hstored⟩ := hstore d
        have hsplit : before₁ ++ (d :: tail ++ [0]) = before₁ ++ [d] ++ (tail ++ [0]) := by simp
        rw [unescape_backslash hget hnext hescaped hstored, hsplit]
        rcases ih (before₁ ++ [d]) hd.2 (by simp; omega : x + 2 = _) (by omega : y + 1 ≤ x + 2)
          (by omega) with hnone | ⟨text', x', y', left, hsome, hat, hleft, hle, hy'⟩
        · exact Or.inl hnone
        · exact Or.inr ⟨text', x', y', left, hsome, hat, by omega, by omega, hy'⟩
      · obtain ⟨before₁, hlength₁, hstored⟩ := hstore backslash
        have hagain := get_body before₁ d tail (by omega : x + 1 = before₁.length)
        obtain ⟨before₂, hlength₂, hstored₂⟩ :=
          store_behind before₁ d (tail ++ [0]) (by omega : y + 1 ≤ before₁.length) d
        rw [unescape_kept hget hnext (Ne.symm hd.1) hescaped hstored hagain hstored₂]
        rcases ih before₂ hd.2 (by omega : x + 2 = _) (by omega : y + 2 ≤ x + 2) (by omega) with
          hnone | ⟨text', x', y', left, hsome, hat, hleft, hle, hy'⟩
        · exact Or.inl hnone
        · exact Or.inr ⟨text', x', y', left, hsome, hat, by omega, by omega, hy'⟩
    · obtain ⟨before₁, hlength₁, hstored⟩ := hstore c
      rw [unescape_plain hget (Ne.symm hzero.1) hquote hbackslash hstored]
      rcases ih before₁ hzero.2 (by omega : x + 1 = _) (by omega : y + 1 ≤ x + 1) (by omega) with
        hnone | ⟨text', x', y', left, hsome, hat, hleft, hle, hy'⟩
      · exact Or.inl hnone
      · exact Or.inr ⟨text', x', y', left, hsome, hat, by omega, by omega, hy'⟩

/-- A loop stops within what is left, or at the terminator. -/
theorem advance_body {p : BitVec 8 → Bool} (hp : p 0 = false) (hbody : 0 ∉ body) (before : Chars)
    (hx : x = before.length) :
    (advance p ((before ++ (body ++ [0])).drop x) = some body.length ∧
      (before ++ (body ++ [0]))[x + body.length]? = some 0) ∨
    ∃ token c tail, body = token ++ c :: tail ∧ p c = false ∧ c ≠ 0 ∧ 0 ∉ tail ∧
      advance p ((before ++ (body ++ [0])).drop x) = some token.length ∧
      (before ++ (body ++ [0]))[x + token.length]? = some c := by
  have htext : before ++ (body ++ [0]) = before ++ body ++ 0 :: [] := by simp
  by_cases hall : ∀ c ∈ body, p c = true
  · left
    rw [htext]
    exact advance_to before hall hp [] hx
  · right
    push Not at hall
    obtain ⟨b, hb, hpb⟩ := hall
    obtain ⟨token, c, tail, rfl, htoken, hc, -⟩ := exists_advance hb (Bool.eq_false_iff.mpr hpb)
    have hsplit : before ++ (token ++ c :: tail ++ [0]) =
        before ++ token ++ c :: (tail ++ [0]) := by simp
    obtain ⟨hadvance, hget⟩ := advance_to before htoken hc (tail ++ [0]) hx
    rw [List.mem_append, List.mem_cons, not_or, not_or] at hbody
    rw [← hsplit] at hadvance hget
    exact ⟨token, c, tail, rfl, hc, Ne.symm hbody.2.1, hbody.2.2, hadvance, hget⟩

theorem store_end (before token : Chars) (c : BitVec 8) (tail : Chars) (hx : x = before.length) :
    store (before ++ (token ++ c :: tail ++ [0])) (x + token.length) 0 =
        some (before ++ token ++ [0] ++ (tail ++ [0])) ∧
      x + token.length + 1 = (before ++ token ++ [0]).length := by
  have hsplit : before ++ (token ++ c :: tail ++ [0]) = before ++ token ++ c :: (tail ++ [0]) := by
    simp
  have hnext : before ++ token ++ 0 :: (tail ++ [0]) = before ++ token ++ [0] ++ (tail ++ [0]) := by
    simp
  rw [hsplit, hx, ← List.length_append, store_append, hnext]
  exact ⟨rfl, by simp [Nat.add_assoc]⟩

theorem parseValue_total (before : Chars) (hbody : 0 ∉ body) (hx : x = before.length)
    (hfuel : body.length < fuel) :
    parseValue fuel (before ++ (body ++ [0])) x = some none ∨
      ∃ text' x' p left, parseValue fuel (before ++ (body ++ [0])) x =
        some (some (text', x', p)) ∧ At text' x' left ∧ left ≤ body.length ∧ x ≤ x' ∧ p ≤ x' := by
  obtain ⟨c, hget⟩ : ∃ c, (before ++ (body ++ [0]))[x]? = some c := by
    cases body with
    | nil => exact ⟨0, by rw [hx]; exact get_append before 0 []⟩
    | cons c tail => exact ⟨c, get_body before c tail hx⟩
  rw [parseValue, hget]
  simp only [Option.bind_eq_bind, Option.bind_some]
  split_ifs with hquote
  · obtain ⟨tail, rfl⟩ : ∃ tail, body = c :: tail := by
      cases body with
      | nil =>
        have hzero := get_append before 0 []
        rw [← hx, List.nil_append] at *
        exact absurd (Option.some.inj (hget.symm.trans hzero)) (by rw [hquote]; decide)
      | cons d tail =>
        exact ⟨tail, by rw [Option.some.inj (hget.symm.trans (get_body before d tail hx))]⟩
    have hsplit : before ++ (c :: tail ++ [0]) = before ++ [c] ++ (tail ++ [0]) := by simp
    rw [List.mem_cons, not_or] at hbody
    rw [List.length_cons] at hfuel ⊢
    rw [hsplit]
    rcases unescape_total (before ++ [c]) hbody.2 (by simp [hx] : x + 1 = _) (Nat.le_refl _)
      (by omega : tail.length < fuel) with
      hnone | ⟨text', x', y', left, hsome, ⟨before', body', rfl, hbody', rfl, rfl⟩, hleft, hle, hy'⟩
    · rw [hnone]
      exact Or.inl rfl
    · right
      rw [hsome]
      cases body' with
      | nil =>
        have hend := get_append before' 0 []
        refine ⟨before' ++ ([] ++ [0]), before'.length, x + 1, 0, ?_, at_append before' hbody' rfl,
          by omega, by omega, hle⟩
        simp only [Option.bind_some, List.nil_append, hend]
        rw [if_neg (by decide)]
      | cons d tail' =>
        have hend := get_body before' d tail' rfl
        rw [List.length_cons] at hleft
        rw [List.mem_cons, not_or] at hbody'
        obtain ⟨before₁, hlength₁, hstored⟩ :=
          store_behind before' d (tail' ++ [0]) (by omega : y' ≤ before'.length) 0
        have htext : before' ++ (d :: tail' ++ [0]) = before' ++ d :: (tail' ++ [0]) := rfl
        simp only [Option.bind_some, hend]
        split_ifs
        · rw [htext, hstored]
          exact ⟨_, _, _, tail'.length, rfl, at_append before₁ hbody'.2 hlength₁.symm, by omega,
            by omega, by omega⟩
        · have hmem : 0 ∉ d :: tail' := List.not_mem_cons_of_ne_of_not_mem hbody'.1 hbody'.2
          exact ⟨_, _, _, tail'.length + 1, rfl, at_append before' hmem rfl, by omega, by omega,
            hle⟩
  · right
    rcases advance_body (p := fun c => c ≠ 0 ∧ c ≠ space) (by decide) hbody before hx with
      ⟨hadvance, hend⟩ | ⟨token, d, tail, rfl, hd, hzero, htail, hadvance, hend⟩
    · have hsplit : before ++ (body ++ [0]) = before ++ body ++ ([] ++ [0]) := by simp
      rw [hadvance, Option.bind_some, hend, Option.bind_some, if_neg (by decide), hsplit]
      exact ⟨_, _, _, 0, rfl, at_append _ List.not_mem_nil (by simp [hx]), by omega, by omega,
        by omega⟩
    · have hspace : d = space := not_not.mp fun hne => of_decide_eq_false hd ⟨hzero, hne⟩
      obtain ⟨hstored, hnext⟩ := store_end before token d tail hx
      rw [hadvance, Option.bind_some, hend, Option.bind_some, if_pos hspace, hstored]
      exact ⟨_, _, _, tail.length, rfl, at_append _ htail hnext, by simp; omega, by omega,
        by omega⟩

/-- An argument takes up something of what is left. -/
theorem parseArg_total (before : Chars) (hbody : 0 ∉ body) (hne : body ≠ [])
    (hx : x = before.length) (hfuel : body.length < fuel) :
    parseArg fuel (before ++ (body ++ [0])) x = some none ∨
      ∃ text' x' argValue left, parseArg fuel (before ++ (body ++ [0])) x =
        some (some (text', x', argValue)) ∧ At text' x' left ∧ left < body.length ∧ x ≤ x' ∧
        ∀ p ∈ argValue, p ≤ x' := by
  have hpos := List.length_pos_iff.mpr hne
  rw [parseArg]
  rcases advance_body (p := fun c => c ≠ 0 ∧ c ≠ space ∧ c ≠ equals) (by decide) hbody
      before hx with
    ⟨hadvance, hend⟩ | ⟨token, c, tail, rfl, hc, hzero, htail, hadvance, hend⟩
  · right
    have hsplit : before ++ (body ++ [0]) = before ++ body ++ ([] ++ [0]) := by simp
    simp only [Option.bind_eq_bind]
    rw [hadvance, Option.bind_some, hend, Option.bind_some, if_neg (by decide),
      if_neg (by decide), hsplit]
    exact ⟨_, _, _, 0, rfl, at_append _ List.not_mem_nil (by simp [hx]), by omega, by omega,
      by simp⟩
  · obtain ⟨hstored, hnext⟩ := store_end before token c tail hx
    rw [List.length_append, List.length_cons] at hfuel ⊢
    simp only [Option.bind_eq_bind]
    rw [hadvance, Option.bind_some, hend, Option.bind_some]
    by_cases hequals : c = equals
    · rw [if_pos hequals, hstored, Option.bind_some]
      rcases parseValue_total (before ++ token ++ [0]) htail hnext
        (by omega : tail.length < fuel) with
        hnone | ⟨text', x', p, left, hsome, hat, hleft, hle, hp⟩
      · rw [hnone]
        exact Or.inl rfl
      · rw [hsome]
        exact Or.inr ⟨_, _, _, left, rfl, hat, by omega, by omega, by simpa using hp⟩
    · have hspace : c = space :=
        not_not.mp fun hne => of_decide_eq_false hc ⟨hzero, hne, hequals⟩
      rw [if_neg hequals, if_pos hspace, hstored]
      exact Or.inr ⟨_, _, _, tail.length, rfl, at_append _ htail hnext, by omega, by omega,
        by simp⟩

theorem stringAt_total {left p : ℕ} (hat : At text x left) (hp : p ≤ x) :
    ∃ str, stringAt text p = some str := by
  obtain ⟨before, body, rfl, -, rfl, -⟩ := hat
  have hmem : 0 ∈ (before ++ (body ++ [0])).drop p := by
    rw [List.drop_append_of_le_length hp]
    simp
  obtain ⟨token, a, rest, -, -, -, hadvance⟩ :=
    exists_advance (p := fun c => decide (c ≠ 0)) hmem (by decide)
  exact ⟨_, by rw [stringAt, hadvance, Option.map_some]⟩

theorem setArg_total (h : s.table.Sound) (hinner : 2 ^ 64 ≤ inner) (arg : Key)
    (argValue : Option Key) {count : ℕ} (hsupply : count + 2 ≤ s.table.supply.length) :
    ∃ s', setArg inner s arg argValue = some s' ∧ s'.table.Sound ∧
      count ≤ s'.table.supply.length := by
  obtain ⟨p, node, supply, hs⟩ := exists_two hsupply
  rw [hs, List.length_cons, List.length_cons] at hsupply
  cases argValue with
  | none =>
    obtain ⟨table, hset, hsound, hrest⟩ := h.set hinner arg null hs
    exact ⟨⟨table, s.strings⟩, by simp [setArg, hset], hsound, by simp [hrest]; omega⟩
  | some value =>
    have hnodup := h.nodup
    rw [hs] at hnodup
    have hleft : (⟨s.table.map, node :: supply⟩ : Table).Sound :=
      ⟨h.refines, hnodup.of_cons, fun a ha =>
        h.fresh a (by rw [hs]; exact List.mem_cons_of_mem p ha)⟩
    obtain ⟨table, hset, hsound, hrest⟩ := hleft.set hinner arg p rfl
    exact ⟨⟨table, Function.update s.strings p value⟩, by simp [setArg, strdup, hs, hset], hsound,
      by simp [hrest]; omega⟩

/-- The loop comes to its end on any text, and stays within it. -/
theorem argsLoop_total (h : s.table.Sound) (hinner : 2 ^ 64 ≤ inner) (before : Chars)
    (hbody : 0 ∉ body) (hx : x = before.length) (hlength : body.length < inner)
    (hfuel : body.length < fuel) (hsupply : 2 * body.length ≤ s.table.supply.length) :
    ∃ s', argsLoop inner fuel (before ++ (body ++ [0])) x s = some s' := by
  induction fuel generalizing before body x s with
  | zero => omega
  | succ fuel ih =>
    rw [argsLoop]
    simp only [Option.bind_eq_bind]
    rcases advance_body (p := fun c => c ≠ 0 ∧ c = space) (by decide) hbody before hx with
      ⟨hadvance, hend⟩ | ⟨token, c, tail, rfl, hc, hzero, htail, hadvance, hend⟩
    · rw [hadvance, Option.bind_some, hend, Option.bind_some, if_pos rfl]
      exact ⟨s, rfl⟩
    · rw [hadvance, Option.bind_some, hend, Option.bind_some, if_neg hzero]
      have hsplit : before ++ (token ++ c :: tail ++ [0]) =
          before ++ token ++ (c :: tail ++ [0]) := by simp
      have harg : 0 ∉ c :: tail := List.not_mem_cons_of_ne_of_not_mem (Ne.symm hzero) htail
      rw [List.length_append] at hlength hfuel hsupply
      rw [hsplit]
      rcases parseArg_total (before ++ token) harg (List.cons_ne_nil c tail)
        (by simp [hx] : x + token.length = _) (by omega : _ < inner) with
        hnone | ⟨text', x', argValue, left, hsome, hat, hleft, hle, hp⟩
      · rw [hnone]
        exact ⟨s, rfl⟩
      · obtain ⟨arg, harg⟩ := stringAt_total hat hle
        obtain ⟨value, hvalue⟩ : ∃ value, valueAt text' argValue = some value := by
          cases argValue with
          | none => exact ⟨none, rfl⟩
          | some p =>
            obtain ⟨str, hstr⟩ := stringAt_total hat (hp p rfl)
            exact ⟨some str, by rw [valueAt, hstr, Option.map_some]⟩
        obtain ⟨s₁, hset, hsound, hcount⟩ := setArg_total h hinner arg value
          (by omega : 2 * left + 2 ≤ s.table.supply.length)
        obtain ⟨before', body', rfl, hbody', rfl, rfl⟩ := hat
        obtain ⟨s', hloop⟩ := ih hsound before' hbody' rfl (by omega) (by omega) hcount
        refine ⟨s', ?_⟩
        rw [hsome]
        simp only [Option.bind_some, harg, hvalue, hset, hloop]

end Termination

section Arguments

variable {heap : Heap} {strings : Addr → Key} {args : List Arg} {text : Chars} {fuel : ℕ}

def Returns (s : Arguments) (p : Addr) : Option Key → Prop
  | none => p = null
  | some value => p ≠ null ∧ s.strings p = value

theorem foldl_eq_lastOf (args : List Arg) (key : Key) :
    args.foldl (fun (m : Key → Option (Option Key)) arg =>
      Function.update m arg.key (some arg.value)) (fun _ => none) key = lastOf args key := by
  induction args using List.reverseRecOn with
  | nil => rfl
  | append_singleton args arg ih =>
    rw [List.foldl_append, lastOf, List.reverse_append, List.reverse_singleton,
      List.singleton_append, List.find?_cons]
    rcases eq_or_ne key arg.key with rfl | hne
    · simp
    · have hkey : decide (arg.key = key) = false := decide_eq_false (Ne.symm hne)
      rw [hkey, List.foldl_cons, List.foldl_nil, Function.update_of_ne hne, ih]
      rfl

theorem isSome_lastOf (args : List Arg) (key : Key) :
    (lastOf args key).isSome = decide (key ∈ args.map Arg.key) := by
  rw [lastOf, Option.isSome_map, Bool.eq_iff_iff, List.find?_isSome, decide_eq_true_eq,
    List.mem_map]
  simp only [List.mem_reverse, decide_eq_true_eq]

theorem Rendered.length_le (h : Rendered args text) : args.length ≤ text.length := by
  have hpos : ∀ arg : Arg, 0 < arg.text.length := fun arg => by
    obtain ⟨d, tail, htext, -⟩ := arg.exists_text
    simp [htext]
  induction h with
  | nil => exact Nat.le_refl 0
  | space h ih => exact ih.trans (Nat.le_succ _)
  | last arg => exact hpos arg
  | cons arg h ih =>
    rw [List.length_cons, List.length_append, List.length_cons]
    omega

theorem Binds.answers {s : Arguments} {m : Key → Option (Option Key)} (h : Binds s m)
    (hfuel : 2 ^ 64 ≤ fuel) (key : Key) :
    kargsHas fuel (some s) key = some (m key).isSome ∧
      ∃ p, kargsGet fuel (some s) key = some p ∧ Returns s p (m key).join := by
  obtain ⟨named, hholds, hrepresents⟩ := h
  have hkey := hrepresents key
  rw [kargsHas, kargsGet, hholds.has hfuel, hholds.get hfuel]
  cases hm : m key with
  | none =>
    rw [hm, Represents] at hkey
    rw [hkey]
    exact ⟨rfl, null, rfl, rfl⟩
  | some value =>
    rw [hm] at hkey
    cases value with
    | none =>
      rw [Represents] at hkey
      rw [hkey]
      exact ⟨rfl, null, rfl, rfl⟩
    | some value =>
      obtain ⟨p, hbound, hnull, hstring, -⟩ := hkey
      rw [hbound]
      exact ⟨rfl, p, rfl, hnull, hstring⟩

/--
The arguments that are rendered in a text are what is found afterwards: a key is there if an
argument has it, with a copy of the value of the last one. On any text the parser comes to its end,
and neither reads nor writes behind the terminator.
-/
theorem kargs_init_inverts_rendering (hheap : heap.Fresh) (strings : Addr → Key)
    (hfuel : 2 ^ 64 ≤ fuel) :
    (∀ args text, Rendered args text → 2 * args.length ≤ heap.supply.length → text.length < fuel →
      ∃ s, kargsInit fuel heap strings (some (text ++ [0])) = some (some s) ∧
        ∀ key, kargsHas fuel (some s) key = some (decide (key ∈ args.map Arg.key)) ∧
          ∃ p, kargsGet fuel (some s) key = some p ∧ Returns s p (lastOf args key).join) ∧
    ∀ text, 0 ∉ text → 2 * text.length ≤ heap.supply.length → text.length < fuel →
      (kargsInit fuel heap strings (some (text ++ [0]))).isSome := by
  constructor
  · intro args text hrendered hsupply hlength
    have hnew : Binds ⟨heap.create 10, strings⟩ fun _ => none :=
      ⟨_, hheap.holds 10, fun _ => rfl⟩
    have hargs : args.length < fuel := hrendered.length_le.trans_lt hlength
    obtain ⟨s, hloop, hbinds⟩ := argsLoop_rendered hrendered hfuel hlength hargs hnew hsupply
      [] (rfl : 0 = _)
    rw [List.nil_append] at hloop
    refine ⟨s, by rw [kargsInit, hloop, Option.map_some], fun key => ?_⟩
    obtain ⟨hhas, hget⟩ := hbinds.answers hfuel key
    rw [foldl_eq_lastOf] at hhas hget
    exact ⟨by rw [hhas, isSome_lastOf], hget⟩
  · intro text htext hsupply hlength
    have hnew : (⟨heap.create 10, strings⟩ : Arguments).table.Sound := hheap.sound 10
    obtain ⟨s, hloop⟩ := argsLoop_total hnew hfuel [] htext (rfl : 0 = _) hlength hlength hsupply
    rw [List.nil_append] at hloop
    rw [kargsInit, hloop]
    rfl

def sampleArg (c : BitVec 8) (hc : c ≠ 0 ∧ c ≠ space ∧ c ≠ equals) (form : Form) : Arg where
  key := ⟨[c], by simpa using hc.1.symm⟩
  nonempty := List.cons_ne_nil _ _
  spaceless := by simpa using hc.2.1.symm
  equalsless := by simpa using hc.2.2.symm
  short := by simp
  form := form

/-- `x"y z` and a backslash. -/
def quotedWords : Key := ⟨[120, 34, 121, 32, 122], by decide⟩

def backslashOnly : Key := ⟨[92], by decide⟩

/-- `a` twice, `q` with a quotation mark and a space in its value, and `d` without a value. -/
def sampleArgs : List Arg :=
  [sampleArg 97 (by decide) (.plain ⟨[98], by decide⟩ (by decide) (by decide)),
    sampleArg 113 (by decide) (.quoted quotedWords), sampleArg 100 (by decide) .bare,
    sampleArg 97 (by decide) (.quoted backslashOnly)]

/-- ` a=b q="x\"y z" d a="\\"` -/
def sampleLine : Chars :=
  [32, 97, 61, 98, 32, 113, 61, 34, 120, 92, 34, 121, 32, 122, 34, 32, 100, 32, 97, 61, 34, 92, 92,
    34]

theorem sampleLine_rendered : Rendered sampleArgs sampleLine :=
  .space (.cons _ (.cons _ (.cons _ (.last _))))

def sampleHeap : Heap :=
  ⟨fun _ => ⟨quotedWords, null, null⟩, fun _ => false,
    [0x1000, 0x2000, 0x3000, 0x4000, 0x5000, 0x6000, 0x7000, 0x8000]⟩

/-- The last value of `a` counts, the escapes of `q` are undone, and `d` has no value. A quotation
that is not ended is parsed as well. -/
theorem kargs_init_inverts_rendering_sample :
    (∃ s, kargsInit (2 ^ 64) sampleHeap (fun _ => quotedWords) (some (sampleLine ++ [0])) =
        some (some s) ∧
      (∃ p, kargsGet (2 ^ 64) (some s) ⟨[97], by decide⟩ = some p ∧
        Returns s p (some backslashOnly)) ∧
      (∃ p, kargsGet (2 ^ 64) (some s) ⟨[113], by decide⟩ = some p ∧
        Returns s p (some quotedWords)) ∧
      kargsHas (2 ^ 64) (some s) ⟨[100], by decide⟩ = some true ∧
      kargsGet (2 ^ 64) (some s) ⟨[100], by decide⟩ = some null ∧
      kargsHas (2 ^ 64) (some s) ⟨[98], by decide⟩ = some false) ∧
    (kargsInit (2 ^ 64) sampleHeap (fun _ => quotedWords) (some [97, 61, 34, 0])).isSome := by
  have hfresh : sampleHeap.Fresh := ⟨by decide, by simp [sampleHeap, null]⟩
  obtain ⟨hrendered, htotal⟩ :=
    kargs_init_inverts_rendering hfresh (fun _ => quotedWords) (Nat.le_refl (2 ^ 64))
  refine ⟨?_, htotal [97, 61, 34] (by decide) (by decide) (by simp)⟩
  obtain ⟨s, hinit, hkeys⟩ := hrendered sampleArgs sampleLine sampleLine_rendered (by decide)
    (by simp [sampleLine])
  obtain ⟨hhas, p, hget, hnull⟩ := hkeys ⟨[100], by decide⟩
  obtain rfl : p = null := hnull
  refine ⟨s, hinit, (hkeys ⟨[97], by decide⟩).2, (hkeys ⟨[113], by decide⟩).2, hhas, hget, ?_⟩
  exact (hkeys ⟨[98], by decide⟩).1

end Arguments

end ReduceOS.Kargs
