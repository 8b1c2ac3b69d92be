import KernelOld.Lib.Trace
import KernelOld.Util.Stdlib

/-!
# Bitmap images

The loader of `util/bmp.c`. The file, the palette and the result are blocks with addresses from 0
on. The two row loops differ in how the colour of a pixel is read. The rows of the file are padded
to a multiple of four bytes: the loops index with the unpadded row, and move `data` by the padding
after each one.
-/

namespace KernelOld.Bmp
open ByteMemory MachineWord Trace Stdlib List

/-! ## The row loops -/

inductive Event where
  | src (a : ℕ)
  | pal (k : ℕ)
  | out (a : ℕ)
deriving DecidableEq

structure Pix where
  data : ℕ
  ptr : ℕ
  mem : Mem

def put (s : Pix) (b : UInt8) : Traced Event Pix := do
  Traced.emit (.out s.ptr)
  pure { s with ptr := s.ptr + 1, mem := Function.update s.mem s.ptr b }

abbrev Reader := ℕ → ℕ → ℕ → Traced Event (List UInt8)

def loadPixel (pixel : Reader) (i : ℕ) (s : Pix) (j : ℕ) : Traced Event Pix := do
  let rgb ← pixel s.data i j
  (rgb ++ [0xff]).foldlM put s

def loadRow (pixel : Reader) (w pad : ℕ) (s : Pix) (i : ℕ) : Traced Event Pix := do
  let s ← (List.range w).foldlM (loadPixel pixel i) s
  pure { s with data := s.data + pad }

/-- The counters are unsigned and are compared with `w` and `h` as such. -/
def loadRows (pixel : Reader) (w h pad : ℕ) (s : Pix) : Traced Event Pix :=
  (List.range h).foldlM (loadRow pixel w pad) s

/-- The step of `data`. The remainder of an `int` has its sign. -/
def padding (r : ℤ) : ℕ := if r ≠ 0 then (4 - r).toNat else 0

def pixel8 (file pal : Mem) (w : ℕ) : Reader := fun data i j => do
  let a := data + u32 (i * w + j)
  Traced.emit (.src a)
  let pix := (file a).toNat
  Traced.emit (.pal pix)
  pure [pal (4 * pix), pal (4 * pix + 1), pal (4 * pix + 2)]

def pixel24 (file : Mem) (w : ℕ) : Reader := fun data i j => do
  let a := data + u32 (i * 3 * w + j * 3)
  Traced.emit (.src a)
  Traced.emit (.src (a + 1))
  Traced.emit (.src (a + 2))
  pure [file (a + 2), file (a + 1), file a]

/-- `w` and `h` are the words of the two `int`s. -/
def bmpLoadPix8 (file : Mem) (data w h : ℕ) (pal dst : Mem) : Traced Event Pix :=
  loadRows (pixel8 file pal w) w h (padding ((toInt32 w).tmod 4)) ⟨data, 0, dst⟩

def bmpLoadPix24 (file : Mem) (data w h : ℕ) (dst : Mem) : Traced Event Pix :=
  loadRows (pixel24 file w) w h (padding ((toInt32 (u32 (w * 3))).tmod 4)) ⟨data, 0, dst⟩

variable {file pal dst : Mem} {w h pad data i j n a : ℕ}

theorem foldlM_put (bs : List UInt8) (s : Pix) :
    bs.foldlM put s = ⟨(List.range' s.ptr bs.length).map .out,
      some ⟨s.data, s.ptr + bs.length, putBytes s.mem s.ptr bs⟩⟩ := by
  induction bs generalizing s with
  | nil => rfl
  | cons b bs ih =>
    rw [foldlM_cons, put, Traced.emit_bind, Traced.pure_eq, Traced.bind_some, ih]
    simp only [length_cons, range'_succ, map_cons, cons_append, nil_append,
      putBytes, Nat.add_right_comm s.ptr 1, Nat.add_assoc]

theorem mem_outs {e : Event} {b n : ℕ} :
    e ∈ (List.range' b n).map Event.out ↔ ∃ c < n, e = .out (b + c) := by
  simp only [mem_map, mem_range', Nat.one_mul]
  constructor
  · rintro ⟨_, ⟨c, hc, rfl⟩, rfl⟩
    exact ⟨c, hc, rfl⟩
  · rintro ⟨c, hc, rfl⟩
    exact ⟨b + c, ⟨c, hc, rfl⟩, rfl⟩

def paint (cell : ℕ → List UInt8) (dst : Mem) (n : ℕ) : Mem := fun a =>
  if a < 4 * n then (cell (a / 4)).getD (a % 4) 0 else dst a

theorem paint_zero (cell : ℕ → List UInt8) (dst : Mem) : paint cell dst 0 = dst := by
  funext a
  exact if_neg (Nat.not_lt_zero a)

theorem paint_apply {cell : ℕ → List UInt8} {k c : ℕ} (hk : k < n) (hc : c < 4) :
    paint cell dst n (4 * k + c) = (cell k).getD c 0 := by
  have hdiv : (4 * k + c) / 4 = k := by omega
  have hmod : (4 * k + c) % 4 = c := by omega
  rw [paint, if_pos (by omega), hdiv, hmod]

theorem putBytes_paint {cell : ℕ → List UInt8} (hcell : (cell n).length = 4) :
    putBytes (paint cell dst n) (4 * n) (cell n) = paint cell dst (n + 1) := by
  funext a
  by_cases hin : 4 * n ≤ a ∧ a < 4 * n + 4
  · obtain ⟨c, rfl⟩ := Nat.exists_eq_add_of_le hin.1
    have hc : c < (cell n).length := by omega
    rw [putBytes_apply_add hc, paint_apply (Nat.lt_succ_self n) (by omega),
      getD_eq_getElem?_getD, getElem?_eq_getElem hc, Option.getD_some]
  · rw [putBytes_of_notMem (by omega), paint, paint]
    by_cases hlt : a < 4 * n
    · rw [if_pos hlt, if_pos (by omega)]
    · rw [if_neg hlt, if_neg (by omega)]

theorem pixel_div (hj : j < w) : (i * w + j) / w = i := by
  rw [Nat.add_comm, Nat.add_mul_div_right j i (Nat.zero_lt_of_lt hj), Nat.div_eq_of_lt hj,
    Nat.zero_add]

theorem pixel_mod (hj : j < w) : (i * w + j) % w = j := by
  rw [Nat.add_comm, Nat.add_mul_mod_self_right, Nat.mod_eq_of_lt hj]

theorem pixel_lt (hi : i < h) (hj : j < w) : i * w + j < w * h :=
  calc i * w + j < i * w + w := Nat.add_lt_add_left hj _
    _ = (i + 1) * w := (Nat.succ_mul i w).symm
    _ ≤ h * w := Nat.mul_le_mul_right w hi
    _ = w * h := Nat.mul_comm h w

/-- The bytes of the pixels are those in front of the end. -/
theorem exists_pixel_iff :
    (∃ i < h, ∃ j < w, ∃ c < 4, a = 4 * (i * w + j) + c) ↔ a < w * h * 4 := by
  constructor
  · rintro ⟨i, hi, j, hj, c, hc, rfl⟩
    have hlt := pixel_lt hi hj
    omega
  · intro ha
    have hlt : a / 4 < w * h := by omega
    have hw : 0 < w := Nat.pos_of_mul_pos_right (Nat.zero_lt_of_lt hlt)
    refine ⟨a / 4 / w, Nat.div_lt_of_lt_mul hlt, a / 4 % w, Nat.mod_lt _ hw, a % 4,
      Nat.mod_lt _ (by decide), ?_⟩
    rw [Nat.div_add_mod', Nat.div_add_mod]

structure Reads (pixel : Reader) (src : ℕ → ℕ → ℕ → ℕ) (ev : ℕ → List Event)
    (colour : ℕ → List UInt8) : Prop where
  eq : ∀ d i j, ∃ rgb, pixel d i j = ⟨ev (src d i j), some rgb⟩ ∧
    rgb ++ [0xff] = colour (src d i j)
  length : ∀ x, (colour x).length = 4
  out_notMem : ∀ x a, .out a ∉ ev x

section Rows
variable (src : ℕ → ℕ → ℕ → ℕ) (colour : ℕ → List UInt8) (data w pad : ℕ)

def cell (n : ℕ) : List UInt8 := colour (src (data + n / w * pad) (n / w) (n % w))

theorem cell_eq (i : ℕ) (hj : j < w) :
    cell src colour data w pad (i * w + j) = colour (src (data + i * pad) i j) := by
  rw [cell, pixel_div hj, pixel_mod hj]

def Pix.at (dst : Mem) (i j : ℕ) : Pix :=
  ⟨data + i * pad, 4 * (i * w + j), paint (cell src colour data w pad) dst (i * w + j)⟩

theorem Pix.at_zero (dst : Mem) : Pix.at src colour data w pad dst 0 0 = ⟨data, 0, dst⟩ := by
  simp only [Pix.at, Nat.zero_mul, Nat.add_zero, Nat.mul_zero, paint_zero]

theorem Pix.at_next (dst : Mem) (i : ℕ) :
    { Pix.at src colour data w pad dst i w with data := data + i * pad + pad } =
      Pix.at src colour data w pad dst (i + 1) 0 := by
  simp only [Pix.at, Nat.succ_mul, Nat.add_zero, Nat.add_assoc]

variable {src colour data w pad} {pixel : Reader} {ev : ℕ → List Event}
  (hpixel : Reads pixel src ev colour)
include hpixel

theorem loadPixel_at (hj : j < w) :
    loadPixel pixel i (.at src colour data w pad dst i j) j =
      ⟨ev (src (data + i * pad) i j) ++ (List.range' (4 * (i * w + j)) 4).map .out,
        some (.at src colour data w pad dst i (j + 1))⟩ := by
  obtain ⟨rgb, hread, hrgb⟩ := hpixel.eq (data + i * pad) i j
  have hcell := cell_eq src colour data w pad i hj
  have hlen : (cell src colour data w pad (i * w + j)).length = 4 := by
    rw [hcell, hpixel.length]
  rw [loadPixel, Pix.at, hread, Traced.bind_some, foldlM_put, hrgb, ← hcell, hlen,
    putBytes_paint hlen]
  rfl

theorem loadRow_at (i : ℕ) :
    (loadRow pixel w pad (.at src colour data w pad dst i 0) i).result =
        some (.at src colour data w pad dst (i + 1) 0) ∧
      ∀ e, e ∈ (loadRow pixel w pad (.at src colour data w pad dst i 0) i).events ↔
        ∃ j < w, e ∈ ev (src (data + i * pad) i j) ∨ ∃ c < 4, e = .out (4 * (i * w + j) + c) := by
  have hround : ∀ j < w, loadPixel pixel i (.at src colour data w pad dst i j) j = _ :=
    fun j hj => loadPixel_at hpixel hj
  obtain ⟨hresult, hevents⟩ := Traced.foldlM_range_of_states
    (f := loadPixel pixel i) (s := .at src colour data w pad dst i) fun j hj => by rw [hround j hj]
  constructor
  · -- The padding leads from the end of the row to the start of the next.
    rw [loadRow, Traced.result_bind, hresult, ← Pix.at_next]
    rfl
  · intro e
    rw [loadRow, Traced.mem_events_bind, hevents]
    simp only [Traced.pure_eq, not_mem_nil, and_false, exists_false, or_false]
    refine exists_congr fun j => and_congr_right fun hj => ?_
    rw [hround j hj, mem_append, mem_outs]

/-- What the loops leave behind. -/
theorem loadRows_spec (w h pad data : ℕ) (dst : Mem) :
    (loadRows pixel w h pad ⟨data, 0, dst⟩).result = some (.at src colour data w pad dst h 0) ∧
      ∀ e, e ∈ (loadRows pixel w h pad ⟨data, 0, dst⟩).events ↔
        ∃ i < h, ∃ j < w, e ∈ ev (src (data + i * pad) i j) ∨
          ∃ c < 4, e = .out (4 * (i * w + j) + c) := by
  obtain ⟨hresult, hevents⟩ := Traced.foldlM_range_of_states (n := h)
    (f := loadRow pixel w pad) (s := fun i => .at src colour data w pad dst i 0)
    fun i _ => (loadRow_at hpixel i).1
  rw [Pix.at_zero] at hresult hevents
  refine ⟨hresult, fun e => (hevents e).trans ?_⟩
  exact exists_congr fun i => and_congr_right fun _ => (loadRow_at hpixel i).2 e

theorem out_mem_loadRows :
    .out a ∈ (loadRows pixel w h pad ⟨data, 0, dst⟩).events ↔ a < w * h * 4 := by
  rw [(loadRows_spec hpixel w h pad data dst).2, ← exists_pixel_iff]
  simp only [hpixel.out_notMem, false_or, Event.out.injEq]

theorem pal_mem_loadRows {k : ℕ} :
    .pal k ∈ (loadRows pixel w h pad ⟨data, 0, dst⟩).events ↔
      ∃ i < h, ∃ j < w, .pal k ∈ ev (src (data + i * pad) i j) := by
  rw [(loadRows_spec hpixel w h pad data dst).2]
  simp only [reduceCtorEq, and_false, exists_false, or_false]

end Rows

def colour8 (file pal : Mem) (a : ℕ) : List UInt8 :=
  let pix := (file a).toNat
  [pal (4 * pix), pal (4 * pix + 1), pal (4 * pix + 2), 0xff]

def colour24 (file : Mem) (a : ℕ) : List UInt8 :=
  [file (a + 2), file (a + 1), file a, 0xff]

theorem reads_pixel8 (file pal : Mem) (w : ℕ) :
    Reads (pixel8 file pal w) (fun d i j => d + u32 (i * w + j))
      (fun x => [.src x, .pal (file x).toNat]) (colour8 file pal) :=
  ⟨fun _ _ _ => ⟨_, rfl, rfl⟩, fun _ => rfl, by simp⟩

theorem reads_pixel24 (file : Mem) (w : ℕ) :
    Reads (pixel24 file w) (fun d i j => d + u32 (i * 3 * w + j * 3))
      (fun x => [.src x, .src (x + 1), .src (x + 2)]) (colour24 file) :=
  ⟨fun _ _ _ => ⟨_, rfl, rfl⟩, fun _ => rfl, by simp⟩

/-! ## Rows with padding -/

def stride (B w : ℕ) : ℕ := (w * B + 3) / 4 * 4

/-- The run fills the first `w * h * 4` bytes of the result from rows with padding, of which it
reads nothing else. -/
structure Decodes (B data w h : ℕ) (colour : ℕ → List UInt8) (dst : Mem) (run : Traced Event Pix) :
    Prop where
  written : ∀ a, .out a ∈ run.events ↔ a < w * h * 4
  read : ∀ a, .src a ∈ run.events → data ≤ a ∧ a < data + h * stride B w
  result : ∃ s, run.result = some s ∧ s.ptr = w * h * 4 ∧
    (∀ i < h, ∀ j < w, ∀ c < 4,
      s.mem (4 * (i * w + j) + c) = (colour (data + i * stride B w + j * B)).getD c 0) ∧
    ∀ a, w * h * 4 ≤ a → s.mem a = dst a

theorem add_padding {x : ℕ} (hx : x < 2 ^ 31) :
    x + padding ((toInt32 x).tmod 4) = (x + 3) / 4 * 4 := by
  have hmod : (toInt32 x).tmod 4 = ((x % 4 : ℕ) : ℤ) := by
    rw [toInt32_of_lt hx]
    exact Int.ofNat_tmod x 4
  rw [hmod, padding]
  split <;> omega

theorem row_end {B : ℕ} (hi : i < h) (hj : j < w) :
    i * stride B w + j * B + B ≤ h * stride B w := by
  have hcol : (j + 1) * B ≤ w * B := Nat.mul_le_mul_right B hj
  have hrow : (i + 1) * stride B w ≤ h * stride B w := Nat.mul_le_mul_right _ hi
  have hstride : w * B ≤ stride B w := by
    rw [stride]
    omega
  rw [Nat.succ_mul] at hcol hrow
  omega

section Offsets
variable {B : ℕ} (hB : B ≤ 3) (hsize : w * h * 4 < 2 ^ 31) (hi : i < h)
include hB hsize hi

theorem row_lt : w * B < 2 ^ 31 := by
  have hw : w ≤ w * h := Nat.le_mul_of_pos_right w (Nat.zero_lt_of_lt hi)
  have hrow : w * B ≤ w * 3 := Nat.mul_le_mul_left w hB
  omega

/-- The sum over the rows: `data` has moved by the padding of `i` of them. -/
theorem row_offset (data : ℕ) (hj : j < w) :
    data + i * padding ((toInt32 (w * B)).tmod 4) + u32 (i * w * B + j * B) =
      data + i * stride B w + j * B := by
  have hlt := pixel_lt hi hj
  have hsmall : (i * w + j) * B ≤ (i * w + j) * 3 := Nat.mul_le_mul_left _ hB
  rw [← Nat.add_mul, u32_of_lt (by omega), stride, ← add_padding (row_lt hB hsize hi)]
  ring

end Offsets

theorem decodes_loadRows {B : ℕ} {pixel : Reader} {src : ℕ → ℕ → ℕ → ℕ} {ev : ℕ → List Event}
    {colour : ℕ → List UInt8} (hpixel : Reads pixel src ev colour)
    (hsrc : ∀ x a, .src a ∈ ev x → x ≤ a ∧ a < x + B)
    (hoffset : ∀ i < h, ∀ j < w, src (data + i * pad) i j = data + i * stride B w + j * B) :
    Decodes B data w h colour dst (loadRows pixel w h pad ⟨data, 0, dst⟩) := by
  obtain ⟨hresult, hevents⟩ := loadRows_spec hpixel w h pad data dst
  refine ⟨fun a => out_mem_loadRows hpixel, fun a ha => ?_, _, hresult, ?_,
    fun i hi j hj c hc => ?_, fun a ha => ?_⟩
  · obtain ⟨i, hi, j, hj, ha | ⟨c, -, ha⟩⟩ := (hevents _).mp ha
    · have hrange := hsrc _ a ha
      have hend : i * stride B w + j * B + B ≤ h * stride B w := row_end hi hj
      rw [hoffset i hi j hj] at hrange
      omega
    · cases ha
  · simp only [Pix.at]
    ring
  · have hin : i * w + j < h * w + 0 := by
      rw [Nat.add_zero, Nat.mul_comm h w]
      exact pixel_lt hi hj
    rw [← hoffset i hi j hj, ← cell_eq src colour data w pad i hj]
    exact paint_apply hin hc
  · refine if_neg ?_
    rw [Nat.add_zero, Nat.mul_comm h w]
    omega

theorem decodes_bmpLoadPix8 (file pal dst : Mem) (data : ℕ) (hsize : w * h * 4 < 2 ^ 31) :
    Decodes 1 data w h (colour8 file pal) dst (bmpLoadPix8 file data w h pal dst) := by
  apply decodes_loadRows (reads_pixel8 file pal w)
  · intro x a ha
    have hbyte : a = x := by simpa using ha
    omega
  · intro i hi j hj
    simpa only [Nat.mul_one] using row_offset (show 1 ≤ 3 by decide) hsize hi data hj

theorem decodes_bmpLoadPix24 (file dst : Mem) (data : ℕ) (hsize : w * h * 4 < 2 ^ 31) :
    Decodes 3 data w h (colour24 file) dst (bmpLoadPix24 file data w h dst) := by
  apply decodes_loadRows (reads_pixel24 file w)
  · intro x a ha
    have hbyte : a = x ∨ a = x + 1 ∨ a = x + 2 := by simpa using ha
    omega
  · intro i hi j hj
    have hrow : w * 3 < 2 ^ 31 := row_lt (Nat.le_refl 3) hsize hi
    rw [u32_of_lt (show w * 3 < 2 ^ 32 by omega), Nat.mul_right_comm i 3 w]
    exact row_offset (Nat.le_refl 3) hsize hi data hj

/-- Both loops decode every image of less than 2 GiB. -/
theorem bmpLoadPix_decodes (file pal dst : Mem) (data : ℕ) {w h : ℕ} (hsize : w * h * 4 < 2 ^ 31) :
    Decodes 1 data w h (colour8 file pal) dst (bmpLoadPix8 file data w h pal dst) ∧
      Decodes 3 data w h (colour24 file) dst (bmpLoadPix24 file data w h dst) :=
  ⟨decodes_bmpLoadPix8 file pal dst data hsize, decodes_bmpLoadPix24 file dst data hsize⟩

theorem bmpLoadPix_decodes_padded :
    5 * 2 * 4 < 2 ^ 31 ∧
      Decodes 3 54 5 2 (colour24 UInt8.ofNat) (fun _ => 0)
        (bmpLoadPix24 UInt8.ofNat 54 5 2 fun _ => 0) :=
  ⟨by decide, (bmpLoadPix_decodes UInt8.ofNat (fun _ => 0) (fun _ => 0) 54 (by decide)).2⟩

/-! ## The loader -/

section Header
variable (file : Mem)

def off : ℕ := load file 10 4

def hdrSize : ℕ := load file 14 4

def width : ℕ := load file 18 4

def height : ℕ := load file 22 4

def bpp : ℕ := load file 28 2

def palette : ℕ := load file 46 4

end Header

/-- `if (inf->bpp == bits && inf->palette == 0) inf->palette = count;` -/
def defaultPalette (bits count : ℕ) (file : Mem) : Mem :=
  if bpp file = bits ∧ palette file = 0 then store file 46 4 count else file

def defaultPalettes (file : Mem) : Mem :=
  if bpp file ≤ 8 then
    defaultPalette 8 256 (defaultPalette 4 16 (defaultPalette 1 2 file))
  else file

/-- The sizes, those of the two blocks, the palette in entries, and what the row loops do. -/
structure Loaded where
  w : ℕ
  h : ℕ
  size : ℕ
  entries : ℕ
  rows : Traced Event Pix

/-- `palBlock` and `bufBlock` are the blocks from `kmalloc`. The first one is freed at the end. -/
def bmpLoad (file palBlock bufBlock : Mem) : Option Loaded :=
  if file 0 ≠ 66 ∨ file 1 ≠ 77 then none
  else
    let w := width file
    let h := height file
    let file := defaultPalettes file
    let entries := if bpp file ≤ 8 then palette file else 0
    let pal := blit palBlock 0 file (14 + hdrSize file) (4 * entries)
    let data := off file
    let size := u32 (w * h * 4)
    let buf := memset bufBlock 0 0 size
    let rows :=
      -- Other formats are only reported.
      if bpp file = 8 then bmpLoadPix8 file data w h pal buf
      else if bpp file = 24 then bmpLoadPix24 file data w h buf
      else pure ⟨data, 0, buf⟩
    some ⟨w, h, size, entries, rows⟩

def Event.Inside (size entries : ℕ) : Event → Prop
  | .src _ => True
  | .pal k => k < entries
  | .out a => a < size

/-- The row loops stay inside the file, the palette and the result. -/
def Safe (r : Option Loaded) : Prop :=
  ∀ l, r = some l → l.rows.Ensures (Event.Inside l.size l.entries) fun _ => True

/-- Every byte that is taken for a pixel is the index of a colour. -/
def PaletteCovers (file : Mem) : Prop :=
  ∀ i < height file, ∀ j < width file,
    (file (off file + i * padding ((toInt32 (width file)).tmod 4) +
      u32 (i * width file + j))).toNat < palette file

theorem load_defaultPalettes {b : ℕ} (h : Apart 46 4 a b) :
    load (defaultPalettes file) a b = load file a b := by
  have hone : ∀ bits count f, load (defaultPalette bits count f) a b = load f a b := by
    intro bits count f
    rw [defaultPalette]
    split
    · exact load_store_of_apart h
    · rfl
  rw [defaultPalettes]
  split
  · rw [hone, hone, hone]
  · rfl

theorem ensures_inside_iff {run : Traced Event Pix} {s : Pix} (hresult : run.result = some s)
    {size entries : ℕ} : run.Ensures (Event.Inside size entries) (fun _ => True) ↔
      (∀ a, .out a ∈ run.events → a < size) ∧ ∀ k, .pal k ∈ run.events → k < entries := by
  constructor
  · rintro ⟨hevents, -⟩
    exact ⟨fun a ha => hevents _ ha, fun k hk => hevents _ hk⟩
  · rintro ⟨hout, hpal⟩
    refine ⟨fun e he => ?_, s, hresult, trivial⟩
    cases e with
    | src a => trivial
    | pal k => exact hpal k he
    | out a => exact hout a he

theorem fits_iff {x : ℕ} : (∀ a < x, a < u32 x) ↔ x < 2 ^ 32 := by
  constructor
  · intro hall
    by_contra hx
    -- The first byte behind the block.
    have hover : u32 x < x := Nat.lt_of_lt_of_le (u32_lt x) (Nat.le_of_not_lt hx)
    exact Nat.lt_irrefl _ (hall (u32 x) hover)
  · intro hx a ha
    rwa [u32_of_lt hx]

theorem inside_bmpLoadPix8_iff {entries : ℕ} :
    (bmpLoadPix8 file data w h pal dst).Ensures (Event.Inside (u32 (w * h * 4)) entries)
        (fun _ => True) ↔
      w * h * 4 < 2 ^ 32 ∧ ∀ i < h, ∀ j < w,
        (file (data + i * padding ((toInt32 w).tmod 4) + u32 (i * w + j))).toNat < entries := by
  have hreads := reads_pixel8 file pal w
  rw [bmpLoadPix8, ensures_inside_iff (loadRows_spec hreads _ _ _ _ _).1]
  simp only [out_mem_loadRows hreads, pal_mem_loadRows hreads, fits_iff]
  refine and_congr_right fun _ => ?_
  constructor
  · intro hall i hi j hj
    exact hall _ ⟨i, hi, j, hj, by simp⟩
  · rintro hall k ⟨i, hi, j, hj, hk⟩
    simp only [mem_cons, reduceCtorEq, Event.pal.injEq, not_mem_nil, false_or,
      or_false] at hk
    rw [hk]
    exact hall i hi j hj

theorem inside_bmpLoadPix24_iff {entries : ℕ} :
    (bmpLoadPix24 file data w h dst).Ensures (Event.Inside (u32 (w * h * 4)) entries)
        (fun _ => True) ↔ w * h * 4 < 2 ^ 32 := by
  have hreads := reads_pixel24 file w
  rw [bmpLoadPix24, ensures_inside_iff (loadRows_spec hreads _ _ _ _ _).1]
  simp only [out_mem_loadRows hreads, pal_mem_loadRows hreads, fits_iff]
  simp

/-- The loader stays inside of its blocks unless the size is too large for 32 bits, or the image
uses a colour that the palette does not have. -/
theorem bmpLoad_safe_iff (file palBlock bufBlock : Mem) :
    Safe (bmpLoad file palBlock bufBlock) ↔
      (file 0 ≠ 66 ∨ file 1 ≠ 77) ∨
        (bpp file = 8 ∨ bpp file = 24 → width file * height file * 4 < 2 ^ 32) ∧
          (bpp file = 8 → PaletteCovers (defaultPalettes file)) := by
  by_cases hmagic : file 0 ≠ 66 ∨ file 1 ≠ 77
  · have hnone : bmpLoad file palBlock bufBlock = none := if_pos hmagic
    rw [hnone, Safe]
    exact iff_of_true (fun l hl => by cases hl) (Or.inl hmagic)
  · have hbpp : bpp (defaultPalettes file) = bpp file := load_defaultPalettes (by decide)
    have hwidth : width (defaultPalettes file) = width file := load_defaultPalettes (by decide)
    have hheight : height (defaultPalettes file) = height file := load_defaultPalettes (by decide)
    rw [or_iff_right hmagic, bmpLoad, if_neg hmagic, PaletteCovers, hwidth, hheight]
    simp only [Safe, Option.some.injEq, forall_eq', hbpp]
    by_cases h8 : bpp file = 8
    · simp only [h8, le_refl, if_true, true_or, forall_const, inside_bmpLoadPix8_iff]
    by_cases h24 : bpp file = 24
    · rw [if_neg h8, if_pos h24, inside_bmpLoadPix24_iff]
      simp only [h24, or_true, forall_const, Nat.reduceEqDiff, IsEmpty.forall_iff, and_true]
    · rw [if_neg h8, if_neg h24]
      exact iff_of_true (Traced.ensures_pure trivial)
        ⟨fun h => absurd h (not_or.mpr ⟨h8, h24⟩), fun h => absurd h h8⟩

def image (off w h bits palette : ℕ) : Mem :=
  store (store (store (store (store (putBytes (fun _ => 0) 0 [66, 77]) 10 4 off) 18 4 w) 22 4 h)
    28 2 bits) 46 4 palette

/-- The result of an image of 32768 by 32768 pixels has no bytes. And one pixel is enough to use an
entry that is not in a palette with one entry. -/
theorem bmpLoad_overruns :
    (∃ l, bmpLoad (image 54 32768 32768 24 0) (fun _ => 0) (fun _ => 0) = some l ∧
        l.size = 0 ∧ .out 0 ∈ l.rows.events) ∧
      ∃ l, bmpLoad (Function.update (image 58 1 1 8 1) 58 5) (fun _ => 0) (fun _ => 0) = some l ∧
        l.entries = 1 ∧ .pal 5 ∈ l.rows.events := by
  constructor
  · have hbpp : bpp (defaultPalettes (image 54 32768 32768 24 0)) = 24 := by decide +kernel
    refine ⟨_, if_neg (by decide +kernel), by decide +kernel, ?_⟩
    rw [hbpp, if_neg (show ¬24 = 8 by decide), if_pos rfl, bmpLoadPix24,
      out_mem_loadRows (reads_pixel24 _ _)]
    decide +kernel
  · exact ⟨_, if_neg (by decide +kernel), by decide +kernel, by decide +kernel⟩

end KernelOld.Bmp
