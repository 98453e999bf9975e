import ReduceOS.Machine
import Mathlib.Data.Int.Notation
import Mathlib.Tactic.SplitIfs
import Mathlib.Data.List.Infix

/-!
The terminal of the kernel. `terminal_putchar` moves a cursor and draws glyphs, and what it does
with a character depends on how much of an ANSI escape sequence it has seen. A tab and a
backspace are made of spaces that are put in the same way.
-/
namespace ReduceOS.Terminal

open Machine

structure Color where
  r : BitVec 8
  g : BitVec 8
  b : BitVec 8
deriving DecidableEq

def colorBlack : Color := ⟨0, 0, 0⟩
def colorBlue : Color := ⟨0, 0, 170⟩
def colorGreen : Color := ⟨0, 170, 0⟩
def colorCyan : Color := ⟨0, 170, 170⟩
def colorRed : Color := ⟨170, 0, 0⟩
def colorPurple : Color := ⟨170, 0, 170⟩
def colorYellow : Color := ⟨255, 255, 85⟩
def colorWhite : Color := ⟨255, 255, 255⟩

def defaultFg : Color := ⟨255, 255, 255⟩

def defaultBg : Color := ⟨0, 0, 0⟩

structure Glyph where
  c : CInt
  x : ℤ
  y : ℤ
  fg : Color
  bg : Color
deriving DecidableEq

structure State where
  width : ℤ
  height : ℤ
  x : ℤ
  y : ℤ
  fg : Color
  bg : Color
  /-- `ansi_escape_code`: 1 after `\033`, 2 after the `[`. -/
  escapeCode : ℕ
  /-- `ansi_color_code` -/
  colorCode : CInt
  drawn : List Glyph
deriving DecidableEq

/-- `video_driver_t` and the font, as far as `terminal_init` asks for them. -/
structure Display where
  screenWidth : ℕ
  screenHeight : ℕ
  fontWidth : ℕ
  fontHeight : ℕ

/-- `terminal_init`, which refuses without a driver or a font. The escape codes stay as they
are. -/
def terminalInit (t : State) (display : Option Display) (fg bg : Color) : Option State :=
  display.bind fun display =>
    if display.fontHeight = 0 ∨ display.fontWidth = 0 then none
    else some { t with
      width := display.screenWidth / display.fontWidth
      height := display.screenHeight / display.fontHeight
      fg := fg
      bg := bg
      x := 0
      y := 0
      drawn := [] }

def terminalScroll (t : State) : State := { t with y := t.y - 1 }

def terminalParseANSI (t : State) : State :=
  if t.colorCode = 0 then
    { t with fg := defaultFg, bg := defaultBg, colorCode := 0, escapeCode := 0 }
  else
    let bg := (40 : CInt).sle t.colorCode
    let code := (t.colorCode - if bg then 40 else 30).toInt
    if code > 7 ∨ code < 0 then { t with colorCode := 0, escapeCode := 0 }
    else
      let color :=
        match code with
        | 0 => colorBlack
        | 1 => colorRed
        | 2 => colorGreen
        | 3 => colorYellow
        | 4 => colorBlue
        | 5 => colorPurple
        | 6 => colorCyan
        | _ => colorWhite
      if bg then { t with bg := color, colorCode := 0, escapeCode := 0 }
      else { t with fg := color, colorCode := 0, escapeCode := 0 }

def putDefault (t : State) (c : CInt) : State :=
  if t.escapeCode = 2 then { t with colorCode := t.colorCode * 10 + (c - 48) }
  else { t with
    escapeCode := if t.escapeCode = 1 then 0 else t.escapeCode
    drawn := t.drawn ++ [⟨c, t.x, t.y, t.fg, t.bg⟩]
    x := t.x + 1 }

/-- The cases `m`, `[` and `;` fall through, each to the next and then to the default. -/
def putSemicolon (t : State) (c : CInt) : State :=
  if t.escapeCode = 2 then { t with colorCode := 0 } else putDefault t c

def putBracket (t : State) (c : CInt) : State :=
  if t.escapeCode ≠ 0 then { t with escapeCode := 2 } else putSemicolon t c

def putM (t : State) (c : CInt) : State :=
  if t.escapeCode = 2 then terminalParseANSI t else putBracket t c

/-- What `terminal_putchar` does after its switch: the end of the line and of the screen. -/
def wrap (t : State) : State :=
  let t := if t.x ≥ t.width then { t with y := t.y + 1, x := 0 } else t
  if t.y ≥ t.height then terminalScroll t else t

def putSpace (t : State) : State :=
  if t.width = 0 ∨ t.height = 0 then t else wrap (putDefault t 32)

def terminalBackspace (t : State) : State :=
  if t.x ≤ 0 then t
  else
    let t := putSpace { t with x := t.x - 1 }
    { t with x := t.x - 1 }

def putCase (t : State) (c : CInt) : State :=
  if c = 10 then { t with x := 0, y := t.y + 1 }
  else if c = 8 then terminalBackspace t
  else if c = 0 then t
  else if c = 9 then putSpace (putSpace (putSpace (putSpace t)))
  else if c = 13 then { t with x := 0 }
  else if c = 27 then { t with escapeCode := 1 }
  else if c = 109 then putM t c
  else if c = 91 then putBracket t c
  else if c = 59 then putSemicolon t c
  else putDefault t c

def terminalPutchar (t : State) (c : CInt) : State :=
  if t.width = 0 ∨ t.height = 0 then t else wrap (putCase t c)

def run (t : State) (chars : List CInt) : State := chars.foldl terminalPutchar t

theorem run_concat (t : State) (chars : List CInt) (c : CInt) :
    run t (chars ++ [c]) = terminalPutchar (run t chars) c := by
  simp [run]

section Cursor

variable {t t' : State} {c : CInt}

def OnScreen (t : State) (x y : ℤ) : Prop := 0 ≤ x ∧ x < t.width ∧ 0 ≤ y ∧ y < t.height

structure Inside (t : State) : Prop where
  cursor : OnScreen t t.x t.y
  drawn : ∀ g ∈ t.drawn, OnScreen t g.x g.y

/-- What a case of the switch leaves, if it goes well: the cursor may be one past the end of the
line or, at the beginning of a line, one below the screen. -/
structure Moved (t t' : State) : Prop where
  width : t'.width = t.width
  height : t'.height = t.height
  x_nonneg : 0 ≤ t'.x
  y_nonneg : 0 ≤ t'.y
  reach : (t'.x ≤ t'.width ∧ t'.y < t'.height) ∨ (t'.x = 0 ∧ t'.y ≤ t'.height)
  drawn : ∀ g ∈ t'.drawn, OnScreen t g.x g.y

/-- The escape sequence swallows the space of a backspace in the second column. -/
def Swallowed (t : State) (c : CInt) : Prop := c = 8 ∧ t.escapeCode = 2 ∧ t.x = 1

theorem putDefault_x (t : State) (c : CInt) :
    (putDefault t c).x = if t.escapeCode = 2 then t.x else t.x + 1 := by
  unfold putDefault
  by_cases hcode : t.escapeCode = 2
  · rw [if_pos hcode, if_pos hcode]
  · rw [if_neg hcode, if_neg hcode]

theorem putDefault_width (t : State) (c : CInt) : (putDefault t c).width = t.width := by
  unfold putDefault
  by_cases hcode : t.escapeCode = 2
  · rw [if_pos hcode]
  · rw [if_neg hcode]

theorem Inside.moved (h : Inside t) (hw : t'.width = t.width) (hh : t'.height = t.height)
    (hx : t'.x = t.x) (hy : t'.y = t.y) (hd : t'.drawn = t.drawn) : Moved t t' := by
  obtain ⟨⟨h1, h2, h3, h4⟩, hdrawn⟩ := h
  exact ⟨hw, hh, by omega, by omega, by omega, by rwa [hd]⟩

theorem moved_putDefault (h : Inside t) (c : CInt) : Moved t (putDefault t c) := by
  unfold putDefault
  by_cases hcode : t.escapeCode = 2
  · rw [if_pos hcode]
    exact h.moved rfl rfl rfl rfl rfl
  · rw [if_neg hcode]
    obtain ⟨⟨h1, h2, h3, h4⟩, hdrawn⟩ := h
    refine ⟨rfl, rfl, ?_, h3, Or.inl ⟨?_, h4⟩, ?_⟩
    · change 0 ≤ t.x + 1
      omega
    · change t.x + 1 ≤ t.width
      omega
    · intro g hg
      rcases List.mem_append.mp hg with hg | hg
      · exact hdrawn g hg
      · obtain rfl := List.mem_singleton.mp hg
        exact ⟨h1, h2, h3, h4⟩

theorem moved_parseANSI (h : Inside t) : Moved t (terminalParseANSI t) := by
  unfold terminalParseANSI
  dsimp only
  split_ifs <;> exact h.moved rfl rfl rfl rfl rfl

theorem moved_putSemicolon (h : Inside t) (c : CInt) : Moved t (putSemicolon t c) := by
  unfold putSemicolon
  split_ifs
  · exact h.moved rfl rfl rfl rfl rfl
  · exact moved_putDefault h c

theorem moved_putBracket (h : Inside t) (c : CInt) : Moved t (putBracket t c) := by
  unfold putBracket
  split_ifs
  · exact h.moved rfl rfl rfl rfl rfl
  · exact moved_putSemicolon h c

theorem moved_putM (h : Inside t) (c : CInt) : Moved t (putM t c) := by
  unfold putM
  split_ifs
  · exact moved_parseANSI h
  · exact moved_putBracket h c

theorem wrap_x (t : State) : (wrap t).x = if t.x ≥ t.width then 0 else t.x := by
  unfold wrap terminalScroll
  dsimp only
  split_ifs <;> rfl

theorem wrap_y (t : State) :
    (wrap t).y = (if t.x ≥ t.width then t.y + 1 else t.y) -
      if (if t.x ≥ t.width then t.y + 1 else t.y) ≥ t.height then 1 else 0 := by
  unfold wrap terminalScroll
  dsimp only
  split_ifs <;> simp_all

theorem wrap_frame (t : State) :
    (wrap t).width = t.width ∧ (wrap t).height = t.height ∧ (wrap t).drawn = t.drawn := by
  unfold wrap terminalScroll
  dsimp only
  split_ifs <;> exact ⟨rfl, rfl, rfl⟩

/-- The end of `terminal_putchar` brings the cursor back. -/
theorem inside_wrap (h : Moved t t') (hw : 1 ≤ t.width) (hh : 1 ≤ t.height) :
    Inside (wrap t') ∧ (wrap t').width = t.width ∧ (wrap t').height = t.height := by
  obtain ⟨hwidth, hheight, hx, hy, hreach, hdrawn⟩ := h
  obtain ⟨hw', hh', hd'⟩ := wrap_frame t'
  refine ⟨⟨⟨?_, ?_, ?_, ?_⟩, fun g hg => ?_⟩, hw'.trans hwidth, hh'.trans hheight⟩
  · rw [wrap_x]
    split_ifs <;> omega
  · rw [wrap_x]
    split_ifs <;> omega
  · rw [wrap_y]
    split_ifs <;> omega
  · rw [wrap_y]
    split_ifs <;> omega
  · rw [OnScreen, hw', hh', hwidth, hheight]
    exact hdrawn g (hd' ▸ hg)

/-- A space that is put from inside is put like any other. -/
theorem inside_putSpace (h : Inside t) (hw : 1 ≤ t.width) (hh : 1 ≤ t.height) :
    Inside (putSpace t) ∧ (putSpace t).width = t.width ∧ (putSpace t).height = t.height := by
  unfold putSpace
  rw [if_neg (by omega)]
  exact inside_wrap (moved_putDefault h 32) hw hh

def State.left (t : State) : State := { t with x := t.x - 1 }

/-- The space of a backspace ends where the cursor was, if it is drawn. -/
theorem putSpace_left (h : Inside t) :
    (putSpace t.left).x = if t.escapeCode = 2 then t.x - 1 else t.x := by
  obtain ⟨⟨h1, h2, h3, h4⟩, -⟩ := h
  have hsize : ¬ (t.left.width = 0 ∨ t.left.height = 0) := by
    change ¬ (t.width = 0 ∨ t.height = 0)
    omega
  unfold putSpace
  rw [if_neg hsize, wrap_x, putDefault_x, putDefault_width]
  change (if (if t.escapeCode = 2 then t.x - 1 else t.x - 1 + 1) ≥ t.width then 0
    else if t.escapeCode = 2 then t.x - 1 else t.x - 1 + 1) = _
  split_ifs <;> omega

theorem inside_left (h : Inside t) (hx : 0 < t.x) : Inside t.left := by
  obtain ⟨⟨h1, h2, h3, h4⟩, hdrawn⟩ := h
  exact ⟨⟨show 0 ≤ t.x - 1 by omega, show t.x - 1 < t.width by omega, h3, h4⟩, hdrawn⟩

theorem moved_backspace (h : Inside t) (hw : 1 ≤ t.width) (hh : 1 ≤ t.height)
    (hkept : ¬ (t.escapeCode = 2 ∧ t.x = 1)) : Moved t (terminalBackspace t) := by
  unfold terminalBackspace
  split_ifs with hx
  · exact h.moved rfl rfl rfl rfl rfl
  · have hspace := putSpace_left h
    obtain ⟨⟨⟨h5, h6, h7, h8⟩, hdrawn⟩, hwidth, hheight⟩ :=
      inside_putSpace (inside_left h (by omega)) hw hh
    change Moved t (putSpace t.left).left
    generalize putSpace t.left = s at *
    change s.width = t.width at hwidth
    change s.height = t.height at hheight
    refine ⟨hwidth, hheight, ?_, h7, Or.inl ⟨?_, h8⟩, ?_⟩
    · change 0 ≤ s.x - 1
      split_ifs at hspace <;> omega
    · change s.x - 1 ≤ s.width
      omega
    · intro g hg
      rw [OnScreen, ← hwidth, ← hheight]
      exact hdrawn g hg

theorem moved_tab (h : Inside t) (hw : 1 ≤ t.width) (hh : 1 ≤ t.height) :
    Moved t (putSpace (putSpace (putSpace (putSpace t)))) := by
  obtain ⟨i1, w1, e1⟩ := inside_putSpace h hw hh
  obtain ⟨i2, w2, e2⟩ := inside_putSpace i1 (by omega) (by omega)
  obtain ⟨i3, w3, e3⟩ := inside_putSpace i2 (by omega) (by omega)
  obtain ⟨⟨⟨h1, h2, h3, h4⟩, hdrawn⟩, w4, e4⟩ := inside_putSpace i3 (by omega) (by omega)
  have hwidth := w4.trans (w3.trans (w2.trans w1))
  have hheight := e4.trans (e3.trans (e2.trans e1))
  refine ⟨hwidth, hheight, h1, h3, Or.inl ⟨by omega, h4⟩, fun g hg => ?_⟩
  rw [OnScreen, ← hwidth, ← hheight]
  exact hdrawn g hg

theorem moved_ite {p : Prop} [Decidable p] {a b : State} (ha : p → Moved t a)
    (hb : ¬p → Moved t b) : Moved t (if p then a else b) :=
  iteInduction ha hb

/-- Each case of the switch, when no escape sequence swallows the space of a backspace. -/
theorem moved_putCase (h : Inside t) (hw : 1 ≤ t.width) (hh : 1 ≤ t.height)
    (hkept : ¬ Swallowed t c) : Moved t (putCase t c) := by
  unfold putCase
  refine moved_ite (fun _ => ?_) fun _ => moved_ite (fun hc => ?_) fun _ =>
    moved_ite (fun _ => ?_) fun _ => moved_ite (fun _ => ?_) fun _ =>
    moved_ite (fun _ => ?_) fun _ => moved_ite (fun _ => ?_) fun _ =>
    moved_ite (fun _ => ?_) fun _ => moved_ite (fun _ => ?_) fun _ =>
    moved_ite (fun _ => ?_) fun _ => ?_
  · obtain ⟨⟨h1, h2, h3, h4⟩, hdrawn⟩ := h
    exact ⟨rfl, rfl, Int.le_refl 0, show 0 ≤ t.y + 1 by omega,
      Or.inr ⟨rfl, show t.y + 1 ≤ t.height by omega⟩, hdrawn⟩
  · exact moved_backspace h hw hh fun hbad => hkept ⟨hc, hbad⟩
  · exact h.moved rfl rfl rfl rfl rfl
  · exact moved_tab h hw hh
  · obtain ⟨⟨h1, h2, h3, h4⟩, hdrawn⟩ := h
    exact ⟨rfl, rfl, Int.le_refl 0, h3, Or.inr ⟨rfl, Int.le_of_lt h4⟩, hdrawn⟩
  · exact h.moved rfl rfl rfl rfl rfl
  · exact moved_putM h c
  · exact moved_putBracket h c
  · exact moved_putSemicolon h c
  · exact moved_putDefault h c

theorem inside_putchar (h : Inside t) (hw : 1 ≤ t.width) (hh : 1 ≤ t.height)
    (hkept : ¬ Swallowed t c) :
    Inside (terminalPutchar t c) ∧ (terminalPutchar t c).width = t.width ∧
      (terminalPutchar t c).height = t.height := by
  unfold terminalPutchar
  rw [if_neg (by omega)]
  exact inside_wrap (moved_putCase h hw hh hkept) hw hh

/-- The backspace then steps back twice, to the left of the screen. -/
theorem Swallowed.x_eq (hbad : Swallowed t c) (h : Inside t) (hw : 1 ≤ t.width)
    (hh : 1 ≤ t.height) : (terminalPutchar t c).x = -1 := by
  obtain ⟨rfl, hcode, hx⟩ := hbad
  have hspace := putSpace_left h
  rw [if_pos hcode] at hspace
  have hcase : putCase t 8 = (putSpace t.left).left := by
    change terminalBackspace t = _
    unfold terminalBackspace
    rw [if_neg (by omega)]
    rfl
  have hwidth : (putSpace t.left).width = t.width :=
    (inside_putSpace (inside_left h (by omega)) hw hh).2.1
  unfold terminalPutchar
  rw [if_neg (by omega), hcase, wrap_x]
  change (if (putSpace t.left).x - 1 ≥ (putSpace t.left).width then 0
    else (putSpace t.left).x - 1) = -1
  rw [if_neg (by omega)]
  omega

theorem terminalInit_inside {t₀ : State} {display : Option Display} {fg bg : Color}
    (hinit : terminalInit t₀ display fg bg = some t) (hw : 1 ≤ t.width) (hh : 1 ≤ t.height) :
    Inside t := by
  obtain ⟨display, -, hinit⟩ := Option.bind_eq_some_iff.mp hinit
  split_ifs at hinit
  obtain rfl := Option.some.inj hinit
  exact ⟨⟨Int.le_refl 0, by dsimp only at hw ⊢; omega, Int.le_refl 0, by dsimp only at hh ⊢; omega⟩,
    fun g hg => absurd hg List.not_mem_nil⟩

/-- Any run of characters on a terminal that is inside. -/
theorem inside_run (h : Inside t) (hw : 1 ≤ t.width) (hh : 1 ≤ t.height) {chars : List CInt}
    (hkept : ∀ pre c, pre ++ [c] <+: chars → ¬ Swallowed (run t pre) c) :
    Inside (run t chars) ∧ (run t chars).width = t.width ∧ (run t chars).height = t.height := by
  induction chars using List.reverseRecOn with
  | nil => exact ⟨h, rfl, rfl⟩
  | append_singleton chars c ih =>
    obtain ⟨hrun, hwidth, hheight⟩ :=
      ih fun pre c' hpre => hkept pre c' (hpre.trans (List.prefix_append chars [c]))
    obtain ⟨hput, hwidth', hheight'⟩ := inside_putchar hrun (by omega) (by omega)
      (hkept chars c (List.prefix_refl _))
    rw [run_concat]
    exact ⟨hput, hwidth'.trans hwidth, hheight'.trans hheight⟩

/-- The cursor and the glyphs stay on the screen through a run if and only if no space of a
backspace is swallowed in the second column. -/
theorem cursor_inside_iff {t₀ : State} {display : Option Display} {fg bg : Color}
    (hinit : terminalInit t₀ display fg bg = some t) (hw : 1 ≤ t.width) (hh : 1 ≤ t.height)
    (chars : List CInt) :
    (∀ pre, pre <+: chars → Inside (run t pre)) ↔
      ∀ pre c, pre ++ [c] <+: chars → ¬ Swallowed (run t pre) c := by
  have hfresh := terminalInit_inside hinit hw hh
  constructor
  · intro hinside pre c hpre hbad
    have hbefore := hinside pre ((List.prefix_append pre [c]).trans hpre)
    have hafter := (hinside (pre ++ [c]) hpre).cursor
    obtain ⟨h1, h2, h3, h4⟩ := hbefore.cursor
    have hx := hbad.x_eq hbefore (by omega) (by omega)
    rw [run_concat, OnScreen, hx] at hafter
    omega
  · intro hkept pre hpre
    exact (inside_run hfresh hw hh fun pre' c hpre' => hkept pre' c (hpre'.trans hpre)).1

def console : Display := ⟨800, 600, 8, 16⟩

def blank : State := ⟨0, 0, 0, 0, defaultFg, defaultBg, 0, 0, []⟩

def freshTerminal : State := ⟨100, 37, 0, 0, defaultFg, defaultBg, 0, 0, []⟩

theorem terminalInit_console :
    terminalInit blank (some console) defaultFg defaultBg = some freshTerminal := by decide

theorem cursor_inside_hello :
    (∀ pre, pre <+: ([72, 105, 10] : List CInt) → Inside (run freshTerminal pre)) ↔
      ∀ pre c, pre ++ [c] <+: ([72, 105, 10] : List CInt) →
        ¬ Swallowed (run freshTerminal pre) c :=
  cursor_inside_iff terminalInit_console (by decide) (by decide) _

/-- A letter, `\033[` and a backspace take the cursor to column -1, where the next letter after
the sequence is drawn. -/
theorem backspace_in_sequence :
    (run freshTerminal [65, 27, 91, 8]).x = -1 ∧
      (run freshTerminal [65, 27, 91, 8, 109, 66]).drawn =
        [⟨65, 0, 0, defaultFg, defaultBg⟩, ⟨66, -1, 0, defaultFg, defaultBg⟩] ∧
      ¬ Inside (run freshTerminal [65, 27, 91, 8]) := by
  refine ⟨by decide, by decide, fun hinside => ?_⟩
  exact absurd hinside.cursor.1 (by decide)

end Cursor

end ReduceOS.Terminal
