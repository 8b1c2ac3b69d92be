import KernelOld.Lib.ByteBits
import KernelOld.Lib.MachineWord
import KernelOld.Util.Stdlib

/-!
# The physical memory manager

A model of `mem/pmm.c`: one bit for each 4096-byte frame of physical memory, set
when the frame is in use. The array `mapbuffer` is a function of the byte index,
of which the indices below `BUFFER_SIZE` are its elements.
-/

namespace KernelOld.Pmm
open ByteMemory ByteBits MachineWord Stdlib

def bufferSize : ℕ := 2097952

def pageSize : ℕ := 4096

def capacity : ℕ := bufferSize * 8

structure Bitmap where
  bitmapsize : ℕ
  mapbuffer : ℕ → UInt8

def bitmapGet (s : Bitmap) (idx : ℕ) : Bool :=
  s.mapbuffer (idx / 8) &&& mask (idx % 8) != 0

def bitmapSet (s : Bitmap) (idx : ℕ) (v : Bool) : Bitmap :=
  let bytes := idx / 8
  let bits := mask (idx % 8)
  let buf := Function.update s.mapbuffer bytes (s.mapbuffer bytes &&& ~~~bits)
  let buf := if v then Function.update buf bytes (buf bytes ||| bits) else buf
  { s with mapbuffer := buf }

/-! ## Single frames -/

def pmmAlloc (s : Bitmap) (addr : ℕ) : Bitmap := bitmapSet s (addr / pageSize) true
def pmmFree (s : Bitmap) (addr : ℕ) : Bitmap := bitmapSet s (addr / pageSize) false
def pmmReserve (s : Bitmap) (addr : ℕ) : Bitmap := bitmapSet s (addr / pageSize) true
def pmmRelease (s : Bitmap) (addr : ℕ) : Bitmap := bitmapSet s (addr / pageSize) false

/-! ## Ranges of frames -/

def forEachPage (op : Bitmap → ℕ → Bitmap) (s : Bitmap) (addr : ℕ) : ℕ → Bitmap
  | 0 => s
  | cnt + 1 => op (forEachPage op s addr cnt) (u64 (addr + cnt * pageSize))

def pmmAllocM (s : Bitmap) (addr cnt : ℕ) : Bitmap := forEachPage pmmAlloc s addr cnt
def pmmFreeM (s : Bitmap) (addr cnt : ℕ) : Bitmap := forEachPage pmmFree s addr cnt
def pmmReserveM (s : Bitmap) (addr cnt : ℕ) : Bitmap := forEachPage pmmReserve s addr cnt
def pmmReleaseM (s : Bitmap) (addr cnt : ℕ) : Bitmap := forEachPage pmmRelease s addr cnt

/-! ## Requests -/

def pmmRequestFrom (s : Bitmap) : ℕ → ℕ → Bitmap × ℕ
  | 0, _ => (s, 0)
  | left + 1, i =>
    if bitmapGet s i then pmmRequestFrom s left (i + 1)
    else (pmmAlloc s (u64 (i * pageSize)), u64 (i * pageSize))

def pmmRequest (s : Bitmap) : Bitmap × ℕ := pmmRequestFrom s (u64 (s.bitmapsize * 8)) 0

/-- `pmm_init`. Its argument is not used. -/
def pmmInit (s : Bitmap) : Bitmap :=
  let s := { s with bitmapsize := bufferSize }
  let s := { s with mapbuffer := memset s.mapbuffer 0 0 s.bitmapsize }
  pmmReserveM s 0 (bufferSize / 8)

end KernelOld.Pmm
