import KernelOld.Lib.ByteBits
import KernelOld.Lib.CountedLoop
import KernelOld.Lib.MachineWord
import KernelOld.Util.Stdlib
import Mathlib.Data.Int.ModEq

/-!
# The console

`console_putchar`, `console_clear` and `conwrite` of `sys/console.c`, with `video_putchar` of
`drivers/gfx/fb/fb.c`. A cell that begins on the screen is taken to lie on it. The tabulator does
not wrap, the backspace does not stop at column 0, and the glyph of a negative `char` is looked up
before the font.
-/

namespace KernelOld.Console
open MachineWord ByteMemory Stdlib CountedLoop List

structure VidMode where
  width : ℕ
  height : ℕ
  depth : ℕ
  width_lt : width < 2 ^ 32
  height_lt : height < 2 ^ 32

structure Psf1Font where
  cSize : ℕ
  glyphBuf : Mem

def Psf1Font.byte (font : Psf1Font) (idx : ℤ) : Option UInt8 :=
  if 0 ≤ idx ∧ idx < 256 * font.cSize then some (font.glyphBuf idx.toNat) else none

def rgbtopix (r g b : UInt8) : ℕ := r.toNat <<< 16 ||| g.toNat <<< 8 ||| b.toNat

def storePix (mode : VidMode) (fb : Mem) (idx pix : ℕ) : Option Mem :=
  if idx < mode.width * mode.height then some (store fb (idx * 4) 4 pix) else none

def drawDot (mode : VidMode) (font : Psf1Font) (c : Int8) (x y pix j : ℕ) (fb : Mem) (i : ℕ) :
    Option Mem :=
  (font.byte (c.toInt * font.cSize + (j - y : ℕ))).bind fun face =>
    if ByteBits.bit face (i - x) then storePix mode fb (i + j * mode.width) pix else some fb

/-- `video_putchar`. The bounds of the loops are computed in 32 bits. -/
def videoPutchar (mode : VidMode) (font : Psf1Font) (c : Int8) (x y pix : ℕ) (fb : Mem) :
    Option Mem :=
  (List.range' y (u32 (y + 16) - y)).foldlM (fun fb j =>
    (List.range' x (u32 (x + 8) - x)).foldlM (drawDot mode font c x y pix j) fb) fb

structure Con where
  fb : Mem
  cursX : ℕ
  cursY : ℕ

def consoleClear (mode : VidMode) (con : Con) : Con :=
  ⟨memset con.fb 0 0 (u32 (mode.width * mode.height * (mode.depth / 8))), 0, 0⟩

def advance (mode : VidMode) (con : Con) : Con :=
  let con := { con with cursX := u32 (con.cursX + 1) }
  if mode.width ≤ u32 (con.cursX * 8) then
    { con with cursX := 0, cursY := u32 (con.cursY + 1) }
  else con

def putOrMove (mode : VidMode) (font : Psf1Font) (con : Con) (c : Int8) (r g b : UInt8) :
    Option Con :=
  if c = 10 then some { con with cursY := u32 (con.cursY + 1), cursX := 0 }
  else if c = 9 then some { con with cursX := u32 (con.cursX + 4) }
  else if c = 8 then some { con with cursX := sub32 con.cursX 1 }
  else
    (videoPutchar mode font c (u32 (con.cursX * 8)) (u32 (con.cursY * 16)) (rgbtopix r g b)
      con.fb).map fun fb => advance mode { con with fb := fb }

def consolePutchar (mode : VidMode) (font : Psf1Font) (con : Con) (c : Int8) (r g b : UInt8) :
    Option Con :=
  (putOrMove mode font con c r g b).map fun con =>
    if mode.height ≤ u32 (con.cursY * 16) then consoleClear mode con else con

def conwrite (mode : VidMode) (font : Psf1Font) (con : Con) (bytes : List UInt8) : Option Con :=
  bytes.foldlM (fun con b => consolePutchar mode font con b.toInt8 255 255 255) con

/-! ## What is asked of it -/

def Con.Inside (mode : VidMode) (con : Con) : Prop :=
  con.cursX * 8 < mode.width ∧ con.cursY * 16 < mode.height

/-- Nothing outside of the framebuffer or the glyphs is accessed, and the cursor stays on the
screen. -/
def OnScreen (mode : VidMode) (font : Psf1Font) (con : Con) (bytes : List UInt8) : Prop :=
  ∀ written, written <+: bytes →
    ∃ con', conwrite mode font con written = some con' ∧ con'.Inside mode

def FitsByte (cols x : ℕ) (b : UInt8) : Prop :=
  if b = 10 then True else if b = 9 then x + 4 < cols else if b = 8 then 0 < x else b.toNat < 128

def nextCol (cols x : ℕ) (b : UInt8) : ℕ :=
  if b = 10 then 0 else if b = 9 then x + 4 else if b = 8 then x - 1
  else if x + 1 = cols then 0 else x + 1

/-- No tabulator in the last four columns, no backspace in column 0, and otherwise only the first
128 characters. -/
def Fits (cols : ℕ) : ℕ → List UInt8 → Prop
  | _, [] => True
  | x, b :: bytes => FitsByte cols x b ∧ Fits cols (nextCol cols x b) bytes

/-- Neither a tab nor a backspace, and ASCII. -/
def Plain (b : UInt8) : Prop := b ≠ 9 ∧ b ≠ 8 ∧ b.toNat < 128

variable {mode : VidMode} {font : Psf1Font} {con con' : Con} {bytes written : List UInt8}
  {c : Int8} {r g b : UInt8} {x y cols rows : ℕ} {fb : Mem}

/-! ## Drawing -/

def DotOk (mode : VidMode) (font : Psf1Font) (c : Int8) (x y j i : ℕ) : Prop :=
  ∃ face, font.byte (c.toInt * font.cSize + (j - y : ℕ)) = some face ∧
    (ByteBits.bit face (i - x) = true → i + j * mode.width < mode.width * mode.height)

theorem isSome_drawDot (mode : VidMode) (font : Psf1Font) (c : Int8) (x y pix j : ℕ) (fb : Mem)
    (i : ℕ) :
    (drawDot mode font c x y pix j fb i).isSome ↔ DotOk mode font c x y j i := by
  rw [drawDot, DotOk]
  cases font.byte (c.toInt * font.cSize + (j - y : ℕ)) with
  | none => simp
  | some face => by_cases hbit : ByteBits.bit face (i - x) = true <;> simp [hbit, storePix]

theorem isSome_videoPutchar (pix : ℕ) (fb : Mem) :
    (videoPutchar mode font c x y pix fb).isSome ↔
      ∀ j, y ≤ j → j < u32 (y + 16) → ∀ i, x ≤ i → i < u32 (x + 8) →
        DotOk mode font c x y j i := by
  have hrange (a n k : ℕ) : k ∈ List.range' a (n - a) ↔ a ≤ k ∧ k < n := by
    rw [mem_range'_1]
    omega
  have hrow (fb : Mem) (j : ℕ) := isSome_foldlM (isSome_drawDot mode font c x y pix j)
    (List.range' x (u32 (x + 8) - x)) fb
  rw [videoPutchar, isSome_foldlM hrow]
  simp only [hrange, and_imp]

theorem isSome_videoPutchar_cell (hx : x * 8 + 8 < 2 ^ 32) (hy : y * 16 + 16 < 2 ^ 32) (pix : ℕ)
    (fb : Mem) :
    (videoPutchar mode font c (u32 (x * 8)) (u32 (y * 16)) pix fb).isSome ↔
      ∀ row : ℕ, row < 16 → ∀ k < 8, ∃ face,
        font.byte (c.toInt * font.cSize + row) = some face ∧
        (ByteBits.bit face k = true →
          x * 8 + k + (y * 16 + row) * mode.width < mode.width * mode.height) := by
  rw [isSome_videoPutchar, u32_of_lt (show x * 8 < 2 ^ 32 by omega),
    u32_of_lt (show y * 16 < 2 ^ 32 by omega), u32_of_lt hx, u32_of_lt hy]
  constructor
  · intro hall row hrow k hk
    have hdot := hall (y * 16 + row) (Nat.le_add_right _ _) (by omega) (x * 8 + k)
      (Nat.le_add_right _ _) (by omega)
    rwa [DotOk, Nat.add_sub_cancel_left, Nat.add_sub_cancel_left] at hdot
  · intro hall j hlo hhi i hleft hright
    obtain ⟨row, rfl⟩ := Nat.exists_eq_add_of_le hlo
    obtain ⟨k, rfl⟩ := Nat.exists_eq_add_of_le hleft
    rw [DotOk, Nat.add_sub_cancel_left, Nat.add_sub_cancel_left]
    exact hall row (by omega) k (by omega)

/-! ## The cursor -/

def Con.cursor (con : Con) : ℕ × ℕ := (con.cursX, con.cursY)

def stepCursor (mode : VidMode) (cur : ℕ × ℕ) (c : Int8) : ℕ × ℕ :=
  if c = 10 then (0, u32 (cur.2 + 1))
  else if c = 9 then (u32 (cur.1 + 4), cur.2)
  else if c = 8 then (sub32 cur.1 1, cur.2)
  else if mode.width ≤ u32 (u32 (cur.1 + 1) * 8) then (0, u32 (cur.2 + 1))
  else (u32 (cur.1 + 1), cur.2)

def settle (mode : VidMode) (cur : ℕ × ℕ) : ℕ × ℕ :=
  if mode.height ≤ u32 (cur.2 * 16) then (0, 0) else cur

def moveCursor (mode : VidMode) (cur : ℕ × ℕ) (c : Int8) : ℕ × ℕ :=
  settle mode (stepCursor mode cur c)

theorem cursor_advance (mode : VidMode) (con : Con) :
    (advance mode con).cursor =
      if mode.width ≤ u32 (u32 (con.cursX + 1) * 8) then (0, u32 (con.cursY + 1))
      else (u32 (con.cursX + 1), con.cursY) := by
  unfold advance
  dsimp only
  split <;> rfl

theorem cursor_putOrMove (h : putOrMove mode font con c r g b = some con') :
    con'.cursor = stepCursor mode con.cursor c := by
  unfold putOrMove at h
  unfold stepCursor
  by_cases hnl : c = 10
  · rw [if_pos hnl] at h ⊢
    rw [← Option.some.inj h]
    rfl
  rw [if_neg hnl] at h ⊢
  by_cases htab : c = 9
  · rw [if_pos htab] at h ⊢
    rw [← Option.some.inj h]
    rfl
  rw [if_neg htab] at h ⊢
  by_cases hbs : c = 8
  · rw [if_pos hbs] at h ⊢
    rw [← Option.some.inj h]
    rfl
  rw [if_neg hbs] at h ⊢
  obtain ⟨fb, -, rfl⟩ := Option.map_eq_some_iff.mp h
  exact cursor_advance mode _

theorem cursor_consolePutchar (h : consolePutchar mode font con c r g b = some con') :
    con'.cursor = moveCursor mode con.cursor c := by
  obtain ⟨con₁, hput, rfl⟩ := Option.map_eq_some_iff.mp h
  rw [moveCursor, ← cursor_putOrMove hput, settle]
  change _ = if mode.height ≤ u32 (con₁.cursY * 16) then _ else _
  split <;> rfl

theorem isSome_consolePutchar (mode : VidMode) (font : Psf1Font) (con : Con) (c : Int8)
    (r g b : UInt8) :
    (consolePutchar mode font con c r g b).isSome ↔
      (c ≠ 10 → c ≠ 9 → c ≠ 8 → (videoPutchar mode font c (u32 (con.cursX * 8))
        (u32 (con.cursY * 16)) (rgbtopix r g b) con.fb).isSome) := by
  rw [consolePutchar, Option.isSome_map, putOrMove]
  by_cases hnl : c = 10
  · simp [hnl]
  by_cases htab : c = 9
  · simp [htab]
  by_cases hbs : c = 8
  · simp [hbs]
  simp [hnl, htab, hbs]

/-! ## Runs -/

theorem conwrite_cons (mode : VidMode) (font : Psf1Font) (con : Con) (b : UInt8)
    (bytes : List UInt8) :
    conwrite mode font con (b :: bytes) =
      (consolePutchar mode font con b.toInt8 255 255 255).bind
        fun con' => conwrite mode font con' bytes :=
  foldlM_cons

theorem conwrite_append (mode : VidMode) (font : Psf1Font) (con : Con)
    (written bytes : List UInt8) :
    conwrite mode font con (written ++ bytes) =
      (conwrite mode font con written).bind fun con' => conwrite mode font con' bytes :=
  foldlM_append

def runCursor (mode : VidMode) (cur : ℕ × ℕ) (bytes : List UInt8) : ℕ × ℕ :=
  bytes.foldl (fun cur b => moveCursor mode cur b.toInt8) cur

theorem cursor_conwrite (h : conwrite mode font con bytes = some con') :
    con'.cursor = runCursor mode con.cursor bytes := by
  induction bytes generalizing con with
  | nil => rw [← Option.some.inj h, runCursor, foldl_nil]
  | cons b bytes ih =>
    rw [conwrite_cons] at h
    obtain ⟨con₁, hput, hrest⟩ := Option.bind_eq_some_iff.mp h
    rw [ih hrest, cursor_consolePutchar hput, runCursor, runCursor, foldl_cons]

theorem OnScreen.inside (h : OnScreen mode font con bytes) : con.Inside mode := by
  obtain ⟨con', hnil, hinside⟩ := h [] nil_prefix
  exact Option.some.inj hnil ▸ hinside

theorem onScreen_cons :
    OnScreen mode font con (b :: bytes) ↔
      con.Inside mode ∧ ∃ con', consolePutchar mode font con b.toInt8 255 255 255 = some con' ∧
        OnScreen mode font con' bytes := by
  constructor
  · intro h
    obtain ⟨con₁, hone, -⟩ := h [b] (cons_prefix_cons.mpr ⟨rfl, nil_prefix⟩)
    rw [conwrite_cons] at hone
    obtain ⟨con', hput, -⟩ := Option.bind_eq_some_iff.mp hone
    refine ⟨h.inside, con', hput, ?_⟩
    intro written hwritten
    have hrest := h (b :: written) (cons_prefix_cons.mpr ⟨rfl, hwritten⟩)
    rwa [conwrite_cons, hput, Option.bind_some] at hrest
  · rintro ⟨hinside, con', hput, hrest⟩ written hwritten
    cases written with
    | nil => exact ⟨con, rfl, hinside⟩
    | cons b' written =>
      obtain ⟨rfl, htail⟩ := cons_prefix_cons.mp hwritten
      rw [conwrite_cons, hput, Option.bind_some]
      exact hrest written htail

theorem onScreen_nil : OnScreen mode font con [] ↔ con.Inside mode := by
  constructor
  · exact OnScreen.inside
  · intro hinside written hwritten
    rw [prefix_nil.mp hwritten]
    exact ⟨con, rfl, hinside⟩

/-! ## Resolutions that are a multiple of the cell -/

theorem toInt_toInt8 (b : UInt8) :
    b.toInt8.toInt = if 2 * b.toNat < 2 ^ 8 then (b.toNat : ℤ) else b.toNat - (2 ^ 8 : ℕ) :=
  BitVec.toInt_eq_toNat_cond b.toBitVec

theorem toInt8_eq_iff (b b' : UInt8) : b.toInt8 = b'.toInt8 ↔ b = b' := by
  constructor
  · intro h
    exact UInt8.toBitVec_inj.mp (congrArg Int8.toBitVec h)
  · rintro rfl
    rfl

theorem toInt8_eq_newline (b : UInt8) : b.toInt8 = 10 ↔ b = 10 := toInt8_eq_iff b 10

theorem toInt8_eq_tab (b : UInt8) : b.toInt8 = 9 ↔ b = 9 := toInt8_eq_iff b 9

theorem toInt8_eq_backspace (b : UInt8) : b.toInt8 = 8 ↔ b = 8 := toInt8_eq_iff b 8

structure Cells (mode : VidMode) (cols rows : ℕ) : Prop where
  width : mode.width = cols * 8
  height : mode.height = rows * 16

theorem Cells.settle (h : Cells mode cols rows) (hy : y ≤ rows) :
    settle mode (x, y) = if y = rows then (0, 0) else (x, y) := by
  have hlt := mode.height_lt
  have hh := h.height
  have hword : u32 (y * 16) = y * 16 := u32_of_lt (by omega)
  rw [Console.settle, hword]
  by_cases hlast : y = rows
  · rw [if_pos hlast, if_pos (by omega)]
  · rw [if_neg hlast, if_neg (by omega)]

theorem Cells.settle_of_lt (h : Cells mode cols rows) (hy : y < rows) (x : ℕ) :
    Console.settle mode (x, y) = (x, y) := by
  rw [h.settle hy.le, if_neg hy.ne]

theorem Cells.settle_snd_lt (h : Cells mode cols rows) (hrows : 0 < rows) (hy : y ≤ rows) :
    (Console.settle mode (x, y)).2 < rows := by
  rw [h.settle hy]
  split
  · exact hrows
  · exact lt_of_le_of_ne hy ‹_›

theorem Cells.inside_iff (h : Cells mode cols rows) :
    con.Inside mode ↔ con.cursX < cols ∧ con.cursY < rows := by
  have hw := h.width
  have hh := h.height
  unfold Con.Inside
  omega

theorem stepCursor_toInt8 (mode : VidMode) (cur : ℕ × ℕ) (b : UInt8) :
    stepCursor mode cur b.toInt8 =
      if b = 10 then (0, u32 (cur.2 + 1))
      else if b = 9 then (u32 (cur.1 + 4), cur.2)
      else if b = 8 then (sub32 cur.1 1, cur.2)
      else if mode.width ≤ u32 (u32 (cur.1 + 1) * 8) then (0, u32 (cur.2 + 1))
      else (u32 (cur.1 + 1), cur.2) := by
  simp only [stepCursor, toInt8_eq_newline, toInt8_eq_tab, toInt8_eq_backspace]

theorem nextCol_lt (hx : x < cols) (hb : FitsByte cols x b) : nextCol cols x b < cols := by
  unfold FitsByte at hb
  unfold nextCol
  split_ifs at hb ⊢ <;> omega

theorem Cells.moveCursor (h : Cells mode cols rows) (hx : x < cols) (hy : y < rows)
    (hb : FitsByte cols x b) :
    (moveCursor mode (x, y) b.toInt8).1 = nextCol cols x b ∧
      (moveCursor mode (x, y) b.toInt8).2 < rows := by
  have hw := h.width
  have hh := h.height
  have hwlt := mode.width_lt
  have hhlt := mode.height_lt
  have hrows : 0 < rows := Nat.zero_lt_of_lt hy
  have hline : u32 (y + 1) = y + 1 := u32_of_lt (by omega)
  have hstart : (Console.settle mode (0, y + 1)).1 = 0 := by
    rw [h.settle hy]
    split <;> rfl
  have hcol : u32 (x + 1) = x + 1 := u32_of_lt (by omega)
  have hfull : mode.width ≤ u32 ((x + 1) * 8) ↔ x + 1 = cols := by
    rw [u32_of_lt (by omega)]
    omega
  rw [Console.moveCursor, stepCursor_toInt8, nextCol]
  unfold FitsByte at hb
  simp only [hline, hcol, hfull]
  split_ifs at hb ⊢
  · exact ⟨hstart, h.settle_snd_lt hrows hy⟩
  · rw [u32_of_lt (show x + 4 < 2 ^ 32 by omega), h.settle_of_lt hy]
    exact ⟨rfl, hy⟩
  · rw [sub32_of_le (by omega) hb, h.settle_of_lt hy]
    exact ⟨rfl, hy⟩
  · exact ⟨hstart, h.settle_snd_lt hrows hy⟩
  · rw [h.settle_of_lt hy]
    exact ⟨rfl, hy⟩

/-- A cell of the screen is drawn for the glyphs of the first 128 characters only: the others are
negative. -/
theorem Cells.draws_iff (h : Cells mode cols rows) (hfont : font.cSize = 16) (hx : x < cols)
    (hy : y < rows) (pix : ℕ) (fb : Mem) :
    (videoPutchar mode font b.toInt8 (u32 (x * 8)) (u32 (y * 16)) pix fb).isSome ↔
      b.toNat < 128 := by
  have hw := h.width
  have hh := h.height
  have hwlt := mode.width_lt
  have hhlt := mode.height_lt
  have hbyte := b.toNat_lt
  rw [isSome_videoPutchar_cell (by omega) (by omega)]
  constructor
  · intro hall
    obtain ⟨face, hface, -⟩ := hall 0 (by decide) 0 (by decide)
    rw [Psf1Font.byte, Option.ite_none_right_eq_some, hfont, toInt_toInt8] at hface
    by_contra hneg
    rw [if_neg (by omega)] at hface
    omega
  · intro hb row hrow k hk
    refine ⟨_, if_pos ?_, ?_⟩
    · rw [hfont, toInt_toInt8, if_pos (by omega)]
      omega
    · intro _
      have hcol : x * 8 + k < mode.width := by omega
      have hline : y * 16 + row + 1 ≤ mode.height := by omega
      calc x * 8 + k + (y * 16 + row) * mode.width
          < (y * 16 + row + 1) * mode.width := by rw [Nat.succ_mul]; omega
        _ ≤ mode.height * mode.width := Nat.mul_le_mul_right _ hline
        _ = mode.width * mode.height := Nat.mul_comm _ _

theorem sub32_zero_one : sub32 0 1 = 2 ^ 32 - 1 := by decide

theorem Cells.fitsByte_of_lt (h : Cells mode cols rows) (hx : x < cols) (hy : y < rows)
    (hcol : (Console.moveCursor mode (x, y) b.toInt8).1 < cols)
    (hascii : b ≠ 10 → b ≠ 9 → b ≠ 8 → b.toNat < 128) : FitsByte cols x b := by
  have hw := h.width
  have hwlt := mode.width_lt
  rw [Console.moveCursor, stepCursor_toInt8] at hcol
  unfold FitsByte
  by_cases hnl : b = 10
  · rw [if_pos hnl]
    trivial
  rw [if_neg hnl] at hcol ⊢
  by_cases htab : b = 9
  · rw [if_pos htab] at hcol ⊢
    rwa [h.settle_of_lt hy, u32_of_lt (by omega)] at hcol
  rw [if_neg htab] at hcol ⊢
  by_cases hbs : b = 8
  · rw [if_pos hbs] at hcol ⊢
    rw [h.settle_of_lt hy] at hcol
    by_contra hzero
    -- from column 0 the cursor goes to `2 ^ 32 - 1`
    rw [Nat.eq_zero_of_not_pos hzero, sub32_zero_one] at hcol
    omega
  rw [if_neg hbs]
  exact hascii hnl htab hbs

theorem Cells.putchar_iff (h : Cells mode cols rows) (hfont : font.cSize = 16)
    (hx : con.cursX < cols) (hy : con.cursY < rows) :
    (∃ con', consolePutchar mode font con b.toInt8 255 255 255 = some con' ∧ con'.Inside mode) ↔
      FitsByte cols con.cursX b := by
  have hdraws := isSome_consolePutchar mode font con b.toInt8 255 255 255
  rw [h.draws_iff hfont hx hy, Ne, Ne, Ne, toInt8_eq_newline, toInt8_eq_tab,
    toInt8_eq_backspace] at hdraws
  constructor
  · rintro ⟨con', hput, hinside⟩
    have hcol : con'.cursor.1 < cols := (h.inside_iff.mp hinside).1
    rw [cursor_consolePutchar hput] at hcol
    exact h.fitsByte_of_lt hx hy hcol (hdraws.mp (Option.isSome_iff_exists.mpr ⟨con', hput⟩))
  · intro hb
    have hascii : ¬b = 10 → ¬b = 9 → ¬b = 8 → b.toNat < 128 := by
      intro h10 h9 h8
      rwa [FitsByte, if_neg h10, if_neg h9, if_neg h8] at hb
    obtain ⟨con', hput⟩ := Option.isSome_iff_exists.mp (hdraws.mpr hascii)
    obtain ⟨hcol, hrow⟩ := h.moveCursor hx hy hb
    refine ⟨con', hput, h.inside_iff.mpr ?_⟩
    change con'.cursor.1 < cols ∧ con'.cursor.2 < rows
    rw [cursor_consolePutchar hput]
    exact ⟨lt_of_eq_of_lt hcol (nextCol_lt hx hb), hrow⟩

theorem Cells.onScreen_iff (h : Cells mode cols rows) (hfont : font.cSize = 16)
    (hx : con.cursX < cols) (hy : con.cursY < rows) :
    OnScreen mode font con bytes ↔ Fits cols con.cursX bytes := by
  induction bytes generalizing con with
  | nil => exact ⟨fun _ => trivial, fun _ => onScreen_nil.mpr (h.inside_iff.mpr ⟨hx, hy⟩)⟩
  | cons b bytes ih =>
    have hnext {con' : Con} (hb : FitsByte cols con.cursX b)
        (hput : consolePutchar mode font con b.toInt8 255 255 255 = some con') :
        con'.cursX = nextCol cols con.cursX b :=
      (congrArg Prod.fst (cursor_consolePutchar hput)).trans (h.moveCursor hx hy hb).1
    rw [onScreen_cons, Fits]
    constructor
    · rintro ⟨-, con', hput, hrest⟩
      have hb := (h.putchar_iff hfont hx hy).mp ⟨con', hput, hrest.inside⟩
      obtain ⟨hx', hy'⟩ := h.inside_iff.mp hrest.inside
      exact ⟨hb, hnext hb hput ▸ (ih hx' hy').mp hrest⟩
    · rintro ⟨hb, hrest⟩
      obtain ⟨con', hput, hinside⟩ := (h.putchar_iff hfont hx hy).mpr hb
      obtain ⟨hx', hy'⟩ := h.inside_iff.mp hinside
      refine ⟨h.inside_iff.mpr ⟨hx, hy⟩, con', hput, (ih hx' hy').mpr ?_⟩
      rwa [hnext hb hput]

theorem fits_of_plain (hplain : ∀ b ∈ bytes, Plain b) : Fits cols x bytes := by
  induction bytes generalizing x with
  | nil => trivial
  | cons b bytes ih =>
    obtain ⟨⟨htab, hbs, hascii⟩, hrest⟩ := forall_mem_cons.mp hplain
    refine ⟨?_, ih hrest⟩
    rw [FitsByte, if_neg htab, if_neg hbs]
    split
    · trivial
    · exact hascii

/-! ## Other resolutions -/

def solidFont : Psf1Font := ⟨16, fun _ => 0xff⟩

theorem settle_of_lt (h : u32 (y * 16) < mode.height) : settle mode (x, y) = (x, y) :=
  if_neg (not_le_of_gt h)

theorem moveCursor_newline (hy : y + 1 < 2 ^ 32) (hline : u32 ((y + 1) * 16) < mode.height) :
    moveCursor mode (x, y) (10 : UInt8).toInt8 = (0, y + 1) := by
  rw [moveCursor, stepCursor_toInt8, if_pos rfl, u32_of_lt hy, settle_of_lt hline]

theorem moveCursor_letter (hx : x + 1 < 2 ^ 32) (hcol : u32 ((x + 1) * 8) < mode.width)
    (hline : u32 (y * 16) < mode.height) :
    moveCursor mode (x, y) (65 : UInt8).toInt8 = (x + 1, y) := by
  rw [moveCursor, stepCursor_toInt8, if_neg (by decide), if_neg (by decide), if_neg (by decide),
    u32_of_lt hx, if_neg (not_le_of_gt hcol), settle_of_lt hline]

theorem runCursor_append (cur : ℕ × ℕ) (written bytes : List UInt8) :
    runCursor mode cur (written ++ bytes) = runCursor mode (runCursor mode cur written) bytes :=
  foldl_append

theorem runCursor_concat (cur : ℕ × ℕ) (written : List UInt8) (b : UInt8) :
    runCursor mode cur (written ++ [b]) = moveCursor mode (runCursor mode cur written) b.toInt8 :=
  runCursor_append cur written [b]

theorem runCursor_newlines {n : ℕ} (hn : n * 16 < mode.height) :
    runCursor mode (0, 0) (List.replicate n 10) = (0, n) := by
  have hlt := mode.height_lt
  induction n with
  | zero => rfl
  | succ n ih =>
    rw [replicate_succ', runCursor_concat, ih (by omega), moveCursor_newline (by omega)]
    rwa [u32_of_lt (by omega)]

theorem runCursor_letters {n : ℕ} (hn : n * 8 < mode.width) (hy : y * 16 < mode.height) :
    runCursor mode (0, y) (List.replicate n 65) = (n, y) := by
  have hwlt := mode.width_lt
  have hhlt := mode.height_lt
  induction n with
  | zero => rfl
  | succ n ih =>
    rw [replicate_succ', runCursor_concat, ih (by omega), moveCursor_letter (by omega)]
    · rwa [u32_of_lt (by omega)]
    · rwa [u32_of_lt (by omega)]

theorem OnScreen.runCursor_lt (h : OnScreen mode font con bytes)
    (hcur : runCursor mode con.cursor bytes = (x, y)) :
    x * 8 < mode.width ∧ y * 16 < mode.height := by
  obtain ⟨con', hwrite, hinside⟩ := h bytes prefix_rfl
  have heq : con'.cursor = (x, y) := (cursor_conwrite hwrite).trans hcur
  obtain ⟨rfl, rfl⟩ := Prod.mk.inj heq
  exact hinside

theorem OnScreen.pixel_lt (h : OnScreen mode solidFont con (bytes ++ [65]))
    (hcur : runCursor mode con.cursor bytes = (x, y)) (hx : x * 8 + 8 < 2 ^ 32)
    (hy : y * 16 + 16 < 2 ^ 32) {k row : ℕ} (hk : k < 8) (hrow : row < 16) :
    x * 8 + k + (y * 16 + row) * mode.width < mode.width * mode.height := by
  obtain ⟨con₂, hwrite, -⟩ := h (bytes ++ [65]) prefix_rfl
  rw [conwrite_append] at hwrite
  obtain ⟨con₁, hbefore, hletter⟩ := Option.bind_eq_some_iff.mp hwrite
  rw [conwrite_cons] at hletter
  obtain ⟨con', hput, -⟩ := Option.bind_eq_some_iff.mp hletter
  have heq : con₁.cursor = (x, y) := (cursor_conwrite hbefore).trans hcur
  obtain ⟨rfl, rfl⟩ := Prod.mk.inj heq
  have hdraws := (isSome_consolePutchar mode solidFont con₁ _ 255 255 255).mp
    (Option.isSome_iff_exists.mpr ⟨con', hput⟩) (by decide) (by decide) (by decide)
  rw [isSome_videoPutchar_cell hx hy] at hdraws
  obtain ⟨face, hface, hpixel⟩ := hdraws row hrow k hk
  rw [Psf1Font.byte, Option.ite_none_right_eq_some] at hface
  refine hpixel ?_
  rw [← Option.some.inj hface.2]
  exact ByteBits.bit_full hk

theorem plain_newline : Plain 10 := by unfold Plain; decide

theorem plain_letter : Plain 65 := by unfold Plain; decide

theorem dvd_height (hall : ∀ bytes, (∀ b ∈ bytes, Plain b) →
    OnScreen mode solidFont ⟨fb, 0, 0⟩ bytes) : 16 ∣ mode.height := by
  by_contra hdvd
  have hlt := mode.height_lt
  obtain ⟨n, hn⟩ : ∃ n, n = mode.height / 16 := ⟨_, rfl⟩
  have hlines : runCursor mode (0, 0) (List.replicate n 10) = (0, n) :=
    runCursor_newlines (by omega)
  have hplain : ∀ b ∈ List.replicate n (10 : UInt8), Plain b := by
    intro b hb
    rw [eq_of_mem_replicate hb]
    exact plain_newline
  by_cases hwrap : n * 16 + 16 < 2 ^ 32
  · have hon := hall (List.replicate n 10 ++ [65])
      (forall_mem_append.mpr ⟨hplain, forall_mem_singleton.mpr plain_letter⟩)
    have hpixel := hon.pixel_lt hlines (by decide) hwrap (show 0 < 8 by decide)
      (show 15 < 16 by decide)
    have hbelow : mode.height ≤ n * 16 + 15 := by omega
    have hout := Nat.mul_le_mul_left mode.width hbelow
    rw [Nat.mul_comm mode.width (n * 16 + 15)] at hout
    omega
  · -- the line behind the last one begins at `2 ^ 32`, which is 0 for the comparison
    have hedge : (n + 1) * 16 = 2 ^ 32 := by omega
    have hon := hall (List.replicate n 10 ++ [10])
      (forall_mem_append.mpr ⟨hplain, forall_mem_singleton.mpr plain_newline⟩)
    have hcur : runCursor mode (0, 0) (List.replicate n 10 ++ [10]) = (0, n + 1) := by
      rw [runCursor_concat, hlines, moveCursor_newline (by omega)]
      rw [hedge]
      exact lt_of_le_of_lt (Nat.zero_le _) (show 0 < mode.height by omega)
    have hinside := (hon.runCursor_lt hcur).2
    omega

/-- If the last cell of a line does not lie on the screen as a whole, the lower right corner of a
letter in the last line does not either. -/
theorem dvd_width (hall : ∀ bytes, (∀ b ∈ bytes, Plain b) →
    OnScreen mode solidFont ⟨fb, 0, 0⟩ bytes) (hlast : 16 ≤ mode.height) : 8 ∣ mode.width := by
  by_contra hdvd
  have hwlt := mode.width_lt
  obtain ⟨rows, hrows⟩ := dvd_height hall
  obtain ⟨y, rfl⟩ : ∃ y, rows = y + 1 := Nat.exists_eq_add_of_le' (by omega)
  have hhlt := mode.height_lt
  obtain ⟨n, hn⟩ : ∃ n, n = mode.width / 8 := ⟨_, rfl⟩
  have hline : y * 16 < mode.height := by omega
  have hcells : runCursor mode (0, 0) (List.replicate y 10 ++ List.replicate n 65) = (n, y) := by
    rw [runCursor_append, runCursor_newlines hline, runCursor_letters (by omega) hline]
  have hplain : ∀ b ∈ List.replicate y 10 ++ List.replicate n 65 ++ [(65 : UInt8)], Plain b := by
    intro b hb
    simp only [mem_append, mem_replicate, mem_singleton] at hb
    rcases hb with (⟨-, rfl⟩ | ⟨-, rfl⟩) | rfl
    · exact plain_newline
    · exact plain_letter
    · exact plain_letter
  have hon := hall _ hplain
  by_cases hwrap : n * 8 + 8 < 2 ^ 32
  · have hpixel := hon.pixel_lt hcells hwrap (by omega) (show 7 < 8 by decide)
      (show 15 < 16 by decide)
    have hsum : mode.width * mode.height = mode.width + (y * 16 + 15) * mode.width := by
      rw [hrows]
      ring
    omega
  · -- the cell behind the last one begins at `2 ^ 32`, which is 0 for the comparison
    have hedge : (n + 1) * 8 = 2 ^ 32 := by omega
    have hcur : runCursor mode (0, 0) (List.replicate y 10 ++ List.replicate n 65 ++ [65]) =
        (n + 1, y) := by
      rw [runCursor_concat, hcells, moveCursor_letter (by omega)]
      · rw [hedge]
        exact lt_of_le_of_lt (Nat.zero_le _) (show 0 < mode.width by omega)
      · rwa [u32_of_lt (by omega)]
    have hinside := (hon.runCursor_lt hcur).1
    omega

/-- Plain text stays on the screen in every font if and only if the resolution is a multiple of
the cell, and then exactly the texts that fit do. -/
theorem console_on_screen_iff (mode : VidMode) (fb : Mem) (hwidth : 8 ≤ mode.width)
    (hheight : 16 ≤ mode.height) :
    ((∀ font : Psf1Font, font.cSize = 16 → ∀ bytes, (∀ b ∈ bytes, Plain b) →
        OnScreen mode font ⟨fb, 0, 0⟩ bytes) ↔ 8 ∣ mode.width ∧ 16 ∣ mode.height) ∧
    (8 ∣ mode.width → 16 ∣ mode.height → ∀ font : Psf1Font, font.cSize = 16 → ∀ bytes,
        (OnScreen mode font ⟨fb, 0, 0⟩ bytes ↔ Fits (mode.width / 8) 0 bytes)) := by
  have hfits : 8 ∣ mode.width → 16 ∣ mode.height → ∀ font : Psf1Font, font.cSize = 16 →
      ∀ bytes, (OnScreen mode font ⟨fb, 0, 0⟩ bytes ↔ Fits (mode.width / 8) 0 bytes) := by
    intro hw hh font hfont bytes
    have hcells : Cells mode (mode.width / 8) (mode.height / 16) :=
      ⟨(Nat.div_mul_cancel hw).symm, (Nat.div_mul_cancel hh).symm⟩
    exact hcells.onScreen_iff hfont (Nat.div_pos hwidth (by decide))
      (Nat.div_pos hheight (by decide))
  refine ⟨⟨?_, ?_⟩, hfits⟩
  · intro hall
    have hsolid := hall solidFont rfl
    exact ⟨dvd_width hsolid hheight, dvd_height hsolid⟩
  · rintro ⟨hw, hh⟩ font hfont bytes hplain
    exact (hfits hw hh font hfont bytes).mpr (fits_of_plain hplain)

/-- The mode that `limine.cfg` asks for, of which the width is no multiple of 8. -/
def limineMode : VidMode := ⟨1366, 768, 32, by decide, by decide⟩

def vgaMode : VidMode := ⟨640, 480, 32, by decide, by decide⟩

theorem console_on_screen_iff_modes :
    (¬∀ font : Psf1Font, font.cSize = 16 → ∀ bytes, (∀ b ∈ bytes, Plain b) →
      OnScreen limineMode font ⟨fun _ => 0, 0, 0⟩ bytes) ∧
    OnScreen vgaMode solidFont ⟨fun _ => 0, 0, 0⟩ [72, 105, 9, 8, 33, 10] := by
  constructor
  · rw [(console_on_screen_iff limineMode (fun _ => 0) (by decide) (by decide)).1]
    decide
  · refine ((console_on_screen_iff vgaMode (fun _ => 0) (by decide) (by decide)).2 (by decide)
      (by decide) solidFont rfl _).mpr ?_
    simp [Fits, FitsByte, nextCol, vgaMode]

/-- A backspace as the first character takes `curs_x` to `2 ^ 32 - 1`. -/
theorem backspace_leaves_screen :
    conwrite limineMode solidFont ⟨fun _ => 0, 0, 0⟩ [8] =
        some ⟨fun _ => 0, 2 ^ 32 - 1, 0⟩ ∧
      ¬OnScreen limineMode solidFont ⟨fun _ => 0, 0, 0⟩ [8] := by
  have hwrite : conwrite limineMode solidFont ⟨fun _ => 0, 0, 0⟩ [8] =
      some ⟨fun _ => 0, 2 ^ 32 - 1, 0⟩ := by
    rw [← sub32_zero_one]
    rfl
  refine ⟨hwrite, ?_⟩
  intro hon
  obtain ⟨con, hcon, hinside⟩ := hon [8] prefix_rfl
  rw [← Option.some.inj (hwrite.symm.trans hcon)] at hinside
  have hcol : (2 ^ 32 - 1) * 8 < 1366 := hinside.1
  omega

end KernelOld.Console
