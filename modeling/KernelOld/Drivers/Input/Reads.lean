import KernelOld.Drivers.Input.Ps2
import KernelOld.Lib.ByteMemory

/-!
# Reading the input devices

`kb_read`, `mouse_vfs_read` and, on top of the first, `conread` of `sys/console.c`. An event takes
four bytes, but the pointer to the next one is a `void*` and goes on by one. `conread` translates
as many bytes as it asked for, not as many as it was given.
-/

namespace KernelOld.Input
open ByteMemory Function List

variable {α : Type*}

def readLoop (bytes : α → Mem) : ℕ → ℕ → Slots α → Mem → ℕ × Slots α × Mem
  | 0, _, q, m => (0, q, m)
  | left + 1, ptr, q, m =>
    match q.pop with
    | (q, none) => (0, q, m)
    | (q, some x) =>
      let r := readLoop bytes left (ptr + 1) q (blit m ptr (bytes x) 0 4)
      (r.1 + 1, r.2)

def keyBytes (key : UInt32) : Mem := fun i => UInt8.ofNat (key.toNat / 256 ^ i)

def packetBytes (packet : MousePacket) : Mem := fun i =>
  [packet.btns.toUInt8, packet.xmov.toUInt8, packet.ymov.toUInt8, packet.scroll.toUInt8].getD i 0

def kbRead (q : Slots UInt32) (m : Mem) (ptr size : ℕ) : ℕ × Slots UInt32 × Mem :=
  readLoop keyBytes size ptr q m

def mouseVfsRead (q : Slots MousePacket) (m : Mem) (ptr size : ℕ) :
    ℕ × Slots MousePacket × Mem :=
  readLoop packetBytes size ptr q m

def taken (q : Slots α) (size : ℕ) : List α := q.contents.reverse.take size

def storeEach (bytes : α → Mem) (m : Mem) (ptr : ℕ) : List α → Mem
  | [] => m
  | x :: xs => storeEach bytes (blit m ptr (bytes x) 0 4) (ptr + 1) xs

variable {bytes : α → Mem} {m : Mem} {ptr size a i : ℕ} {q : Slots α} {xs : List α} {x : α}

/-! ## What a read does -/

theorem taken_succ {q' : Slots α} (h : q.contents = q'.contents ++ [x]) (size : ℕ) :
    taken q (size + 1) = x :: taken q' size := by
  rw [taken, h, reverse_append]
  rfl

theorem readLoop_eq (bytes : α → Mem) (h : q.InRange) (m : Mem) (ptr size : ℕ) :
    ∃ q', readLoop bytes size ptr q m =
        ((taken q size).length, q', storeEach bytes m ptr (taken q size)) ∧
      q'.contents = q.contents.take (q.contents.length - size) := by
  induction size generalizing ptr q m with
  | zero => exact ⟨q, rfl, by simp⟩
  | succ size ih =>
    obtain ⟨hempty, hpop⟩ | ⟨q₁, x, hpop, hrange, hcontents⟩ := h.pop
    · refine ⟨q, ?_, ?_⟩
      · rw [readLoop, hpop, taken, hempty]
        rfl
      · rw [hempty, take_nil]
    · obtain ⟨q', hrest, hq'⟩ := ih hrange (blit m ptr (bytes x) 0 4) (ptr + 1)
      refine ⟨q', ?_, ?_⟩
      · rw [readLoop, hpop, taken_succ hcontents, storeEach]
        dsimp only
        rw [hrest]
        rfl
      · rw [hq', hcontents, length_append, length_singleton, Nat.add_sub_add_right,
          take_append_of_le_length (Nat.sub_le _ _)]

theorem storeEach_concat (xs : List α) (x : α) :
    storeEach bytes m ptr (xs ++ [x]) =
      blit (storeEach bytes m ptr xs) (ptr + xs.length) (bytes x) 0 4 := by
  induction xs generalizing m ptr with
  | nil => rfl
  | cons y xs ih =>
    rw [cons_append, storeEach, ih, storeEach, length_cons, Nat.add_right_comm,
      Nat.add_assoc ptr]

theorem storeEach_last (xs : List α) (x : α) (hi : i < 4) :
    storeEach bytes m ptr (xs ++ [x]) (ptr + xs.length + i) = bytes x i := by
  rw [storeEach_concat, blit_apply_add hi, Nat.zero_add]

theorem storeEach_low (hi : i < xs.length) :
    storeEach bytes m ptr xs (ptr + i) = bytes xs[i] 0 := by
  induction xs using List.reverseRecOn with
  | nil => cases hi
  | append_singleton xs x ih =>
    rw [length_append, length_singleton] at hi
    rcases Nat.lt_succ_iff_lt_or_eq.mp hi with hi | rfl
    · rw [storeEach_concat, blit_apply_of_notMem (by omega), ih hi, getElem_append_left hi]
    · rw [getElem_concat_length rfl]
      exact storeEach_last xs x (show 0 < 4 by decide)

theorem storeEach_of_notMem (ha : a < ptr ∨ ptr + xs.length + 3 ≤ a) :
    storeEach bytes m ptr xs a = m a := by
  induction xs using List.reverseRecOn with
  | nil => rfl
  | append_singleton xs x ih =>
    rw [length_append, length_singleton] at ha
    rw [storeEach_concat, blit_apply_of_notMem (by omega), ih (by omega)]

theorem length_taken (q : Slots α) (size : ℕ) :
    (taken q size).length = min size q.contents.length := by
  rw [taken, length_take, length_reverse]

theorem readLoop_mem (h : q.InRange) (m : Mem) (ptr size : ℕ) :
    (readLoop bytes size ptr q m).2.2 = storeEach bytes m ptr (taken q size) := by
  obtain ⟨q', hread, -⟩ := readLoop_eq bytes h m ptr size
  rw [hread]

theorem readLoop_count (h : q.InRange) (m : Mem) (ptr size : ℕ) :
    (readLoop bytes size ptr q m).1 = (taken q size).length := by
  obtain ⟨q', hread, -⟩ := readLoop_eq bytes h m ptr size
  rw [hread]

/-! ## The drivers -/

/-- The read stores nothing outside the buffer that was passed. -/
def KbReadInside (q : Slots UInt32) (ptr size : ℕ) : Prop :=
  ∀ (m : Mem) (a : ℕ), a < ptr ∨ ptr + size ≤ a → (kbRead q m ptr size).2.2 a = m a

/-- The packets lie one behind the other in the buffer, and nothing else is written. -/
structure MouseReadsBack (q : Slots MousePacket) (ptr size : ℕ) : Prop where
  count : ∀ m, (mouseVfsRead q m ptr size).1 = (taken q size).length
  stored : ∀ (m : Mem) (i j : ℕ) (p : MousePacket), (taken q size)[i]? = some p → j < 4 →
    (mouseVfsRead q m ptr size).2.2 (ptr + 4 * i + j) = packetBytes p j
  inside : ∀ (m : Mem) (a : ℕ), a < ptr ∨ ptr + 4 * (taken q size).length ≤ a →
    (mouseVfsRead q m ptr size).2.2 a = m a

theorem kbReadInside_iff {q : Slots UInt32} (h : q.InRange) (ptr size : ℕ) :
    KbReadInside q ptr size ↔ size = 0 ∨ q.contents = [] ∨ q.contents.length + 3 ≤ size := by
  have hmem (m : Mem) : (kbRead q m ptr size).2.2 = storeEach keyBytes m ptr (taken q size) :=
    readLoop_mem h m ptr size
  have hlen := length_taken q size
  constructor
  · intro hinside
    rcases eq_nil_or_concat' (taken q size) with hnil | ⟨xs, x, hxs⟩
    · rw [hnil, length_nil] at hlen
      rw [← length_eq_zero_iff]
      omega
    · rw [hxs, length_append, length_singleton] at hlen
      by_contra hout
      rw [not_or, not_or] at hout
      obtain ⟨i, hi, hsize⟩ : ∃ i < 4, ptr + xs.length + i = ptr + size :=
        ⟨size - xs.length, by omega, by omega⟩
      have hbyte := hinside (fun _ => keyBytes x i + 1) (ptr + size) (Or.inr (Nat.le_refl _))
      rw [hmem, hxs, ← hsize, storeEach_last xs x hi] at hbyte
      exact absurd hbyte (by simp)
  · rintro hcase m a ha
    rw [hmem]
    by_cases hnil : taken q size = []
    · rw [hnil]
      rfl
    · have hpos := length_pos_iff.mpr hnil
      rcases hcase with hzero | hnone | hroom
      · omega
      · rw [hnone, length_nil] at hlen
        omega
      · exact storeEach_of_notMem (by omega)

theorem mouseReadsBack_iff {q : Slots MousePacket} (h : q.InRange) (ptr size : ℕ) :
    MouseReadsBack q ptr size ↔ size ≤ 1 ∨ q.contents.length ≤ 1 := by
  have hmem (m : Mem) :
      (mouseVfsRead q m ptr size).2.2 = storeEach packetBytes m ptr (taken q size) :=
    readLoop_mem h m ptr size
  have hlen := length_taken q size
  constructor
  · intro hback
    rcases eq_nil_or_concat' (taken q size) with hnil | ⟨xs, x, hxs⟩
    · rw [hnil, length_nil] at hlen
      omega
    · rw [hxs, length_append, length_singleton] at hlen
      by_contra hmany
      -- the last byte of the last packet is where nothing has been stored
      have hlast : (taken q size)[xs.length]? = some x := by
        rw [hxs]
        exact getElem?_concat_length
      have hsame (m : Mem) : m (ptr + 4 * xs.length + 3) = packetBytes x 3 := by
        rw [← hback.stored m _ 3 x hlast (by decide), hmem, storeEach_of_notMem]
        rw [hxs, length_append, length_singleton]
        omega
      exact absurd ((hsame fun _ => 0).trans (hsame fun _ => 1).symm) (by decide)
  · intro hcase
    have hone : (taken q size).length ≤ 1 := by omega
    have hcount (m : Mem) : (mouseVfsRead q m ptr size).1 = (taken q size).length :=
      readLoop_count h m ptr size
    rcases eq_nil_or_concat' (taken q size) with hnil | ⟨xs, x, hxs⟩
    · refine ⟨hcount, fun m i j p hp hj => ?_, fun m a ha => ?_⟩
      · rw [hnil] at hp
        cases hp
      · rw [hmem, hnil]
        rfl
    · have hxs₀ : xs = [] := by
        rw [hxs, length_append, length_singleton] at hone
        exact length_eq_zero_iff.mp (by omega)
      rw [hxs₀] at hxs
      refine ⟨hcount, fun m i j p hp hj => ?_, fun m a ha => ?_⟩
      · rw [hxs] at hp
        cases i with
        | zero =>
          obtain rfl : x = p := Option.some.inj hp
          rw [hmem, hxs]
          exact storeEach_last [] x hj
        | succ i => cases hp
      · rw [hmem, hxs]
        rw [hxs] at ha
        exact storeEach_of_notMem ha

/-- A read of the keyboard stays in the buffer if it takes no key, or if there is room for three
bytes more; the packets of a read of the mouse can be read back if there is at most one. -/
theorem input_reads_iff {keys : Slots UInt32} {packets : Slots MousePacket} (hkeys : keys.InRange)
    (hpackets : packets.InRange) (ptr size : ℕ) :
    (KbReadInside keys ptr size ↔
        size = 0 ∨ keys.contents = [] ∨ keys.contents.length + 3 ≤ size) ∧
      (MouseReadsBack packets ptr size ↔ size ≤ 1 ∨ packets.contents.length ≤ 1) :=
  ⟨kbReadInside_iff hkeys ptr size, mouseReadsBack_iff hpackets ptr size⟩

def oneKey : Slots UInt32 := ⟨fun _ => 30, 0⟩

def clicks (last : ℤ) : Slots MousePacket := ⟨fun _ => ⟨1, 0, 0, 0⟩, last⟩

theorem oneKey_inRange : oneKey.InRange := ⟨by decide, by decide⟩

theorem input_reads_single : KbReadInside oneKey 4096 4 ∧ MouseReadsBack (clicks 0) 4096 4 := by
  have hreads := input_reads_iff oneKey_inRange
    (show (clicks 0).InRange from ⟨by decide, by decide⟩) 4096 4
  exact ⟨hreads.1.mpr (by decide), hreads.2.mpr (by decide)⟩

/-- One key is read into a buffer of one byte, and two packets into one of eight. -/
theorem input_reads_spill : ¬KbReadInside oneKey 4096 1 ∧ ¬MouseReadsBack (clicks 1) 4096 8 := by
  rw [kbReadInside_iff oneKey_inRange, mouseReadsBack_iff ⟨by decide, by decide⟩]
  decide

/-! ## The console -/

def scancodeToascii : List UInt8 :=
  "c~1234567890-=\x08\tqwertyuiop[]\n~asdfghjkl;'`~\\zxcvbnm,./~*~ ~".toList.map
    (fun c => UInt8.ofNat c.toNat) ++ List.replicate 67 99

def translateLoop (buffer : ℕ) : ℕ → ℕ → ℕ → Mem → ℕ × Mem
  | 0, _, _, m => (0, m)
  | left + 1, i, ptr, m =>
    if 88 < m (buffer + i) then translateLoop buffer left (i + 1) ptr m
    else
      let c := scancodeToascii.getD (m (buffer + i)).toNat 0
      let r := translateLoop buffer left (i + 1) (ptr + 1) (update m ptr c)
      (r.1 + 1, r.2)

/-- The loop ends when `int i` has gone through its positive values, or at `size`. -/
def conread (q : Slots UInt32) (m : Mem) (buffer ptr size : ℕ) : ℕ × Slots UInt32 × Mem :=
  let r := kbRead q m buffer size
  if r.1 ≠ 0 then
    let t := translateLoop buffer (min size (2 ^ 31)) 0 ptr r.2.2
    (t.1, r.2.1, t.2)
  else (0, r.2.1, r.2.2)

def translated (codes : List UInt8) : List UInt8 :=
  (codes.filter (· ≤ 88)).map fun code => scancodeToascii.getD code.toNat 0

/-- The keys are taken and their characters returned, and only the block is written. -/
structure ConreadExact (q : Slots UInt32) (buffer room ptr size : ℕ) (chars : List UInt8) :
    Prop where
  consumed : ∀ m, (conread q m buffer ptr size).2.1.contents =
    q.contents.take (q.contents.length - size)
  count : ∀ m, (conread q m buffer ptr size).1 = chars.length
  stored : ∀ (m : Mem) (i : ℕ) (c : UInt8), chars[i]? = some c →
    (conread q m buffer ptr size).2.2 (ptr + i) = c
  others : ∀ (m : Mem) (a : ℕ), a < ptr ∨ ptr + chars.length ≤ a →
    a < buffer ∨ buffer + room ≤ a → (conread q m buffer ptr size).2.2 a = m a

theorem translated_cons (code : UInt8) (codes : List UInt8) :
    translated (code :: codes) =
      if 88 < code then translated codes
      else scancodeToascii.getD code.toNat 0 :: translated codes := by
  by_cases h : 88 < code
  · rw [if_pos h, translated, filter_cons_of_neg (by simpa using h)]
    rfl
  · rw [if_neg h, translated, filter_cons_of_pos (by simpa using h)]
    rfl

theorem length_translated_le (codes : List UInt8) : (translated codes).length ≤ codes.length := by
  rw [translated, length_map]
  exact length_filter_le _ _

theorem translateLoop_eq {buffer ptr i : ℕ} {codes : List UInt8} {m : Mem}
    (hcodes : ∀ (j : ℕ) (hj : j < codes.length), m (buffer + (i + j)) = codes[j])
    (hapart : Apart ptr codes.length (buffer + i) codes.length) :
    translateLoop buffer codes.length i ptr m =
      ((translated codes).length, putBytes m ptr (translated codes)) := by
  induction codes generalizing i ptr m with
  | nil => rfl
  | cons code codes ih =>
    have hfirst : m (buffer + i) = code := hcodes 0 (Nat.succ_pos _)
    have hrest (j : ℕ) (hj : j < codes.length) : m (buffer + (i + 1 + j)) = codes[j] := by
      rw [Nat.add_assoc i, Nat.add_comm 1 j]
      exact hcodes (j + 1) (Nat.succ_lt_succ hj)
    rw [length_cons, Apart] at hapart
    rw [length_cons, translateLoop, hfirst, translated_cons]
    by_cases hskip : 88 < code
    · rw [if_pos hskip, if_pos hskip]
      exact ih hrest (by rw [Apart]; omega)
    · rw [if_neg hskip, if_neg hskip]
      dsimp only
      rw [ih (fun j hj => ?_) (by rw [Apart]; omega)]
      · rfl
      · rw [update_of_ne (by omega)]
        exact hrest j hj

theorem translated_append (codes codes' : List UInt8) :
    translated (codes ++ codes') = translated codes ++ translated codes' := by
  rw [translated, filter_append, map_append]
  rfl

def charsOf (keys : List UInt32) : List UInt8 :=
  (keys.filter (· ≤ 88)).map fun key => scancodeToascii.getD key.toNat 0

theorem charsOf_eq {keys : List UInt32} (h : ∀ key ∈ keys, key.toNat < 256) :
    charsOf keys = translated (keys.map fun key => keyBytes key 0) := by
  induction keys with
  | nil => rfl
  | cons key keys ih =>
    obtain ⟨hkey, hkeys⟩ := forall_mem_cons.mp h
    have hbyte : (keyBytes key 0).toNat = key.toNat := by
      rw [keyBytes, Nat.pow_zero, Nat.div_one, UInt8.toNat_ofNat']
      exact Nat.mod_eq_of_lt hkey
    have hiff : 88 < keyBytes key 0 ↔ ¬key ≤ 88 := by
      rw [UInt8.lt_iff_toNat_lt, hbyte, UInt32.le_iff_toNat_le]
      exact Nat.not_le.symm
    rw [map_cons, translated_cons, ← ih hkeys, hbyte, charsOf]
    by_cases hle : key ≤ 88
    · rw [filter_cons_of_pos (by simpa using hle), if_neg fun h => hiff.mp h hle]
      rfl
    · rw [filter_cons_of_neg (by simpa using hle), if_pos (hiff.mpr hle)]
      rfl

def found (m : Mem) (buffer size : ℕ) (keys : List UInt32) : List UInt8 :=
  if keys = [] then []
  else (List.range (min size (2 ^ 31))).map fun i => storeEach keyBytes m buffer keys (buffer + i)

theorem conread_eq {q : Slots UInt32} {buffer ptr size : ℕ} (h : q.InRange)
    (hapart : Apart ptr size buffer size) (m : Mem) :
    ∃ q', conread q m buffer ptr size = ((translated (found m buffer size (taken q size))).length,
        q', putBytes (storeEach keyBytes m buffer (taken q size)) ptr
          (translated (found m buffer size (taken q size)))) ∧
      q'.contents = q.contents.take (q.contents.length - size) := by
  obtain ⟨q', hread, hq'⟩ := readLoop_eq keyBytes h m buffer size
  refine ⟨q', ?_, hq'⟩
  rw [conread, kbRead, hread, found]
  dsimp only
  by_cases hnil : taken q size = []
  · rw [if_pos hnil, hnil]
    rfl
  · rw [if_neg hnil, if_pos (length_pos_iff.mpr hnil).ne']
    generalize hcodes : (List.range (min size (2 ^ 31))).map _ = codes
    have hlen : codes.length = min size (2 ^ 31) := by
      rw [← hcodes, length_map, length_range]
    rw [← hlen, translateLoop_eq]
    · intro j hj
      simp [← hcodes]
    · rw [Apart] at hapart ⊢
      omega

theorem conreadExact_iff {q : Slots UInt32} {buffer room ptr size : ℕ} {chars : List UInt8}
    (h : q.InRange) (hapart : Apart ptr size buffer size) :
    ConreadExact q buffer room ptr size chars ↔
      (∀ m, translated (found m buffer size (taken q size)) = chars) ∧
        ∀ (m : Mem) (a : ℕ), a < ptr ∨ ptr + chars.length ≤ a → a < buffer ∨ buffer + room ≤ a →
          storeEach keyBytes m buffer (taken q size) a = m a := by
  constructor
  · intro hexact
    have hsame (m : Mem) : translated (found m buffer size (taken q size)) = chars := by
      obtain ⟨q', hread, -⟩ := conread_eq h hapart m
      have hcount := hexact.count m
      rw [hread] at hcount
      refine ext_getElem hcount fun i hi hi' => ?_
      have hstored := hexact.stored m i _ (getElem?_eq_getElem hi')
      rw [hread] at hstored
      rw [← hstored]
      exact (putBytes_apply_add hi).symm
    refine ⟨hsame, fun m a ha hout => ?_⟩
    obtain ⟨q', hread, -⟩ := conread_eq h hapart m
    have hothers := hexact.others m a ha hout
    rw [hread, hsame] at hothers
    rw [← hothers]
    exact (putBytes_of_notMem ha).symm
  · rintro ⟨hsame, hothers⟩
    have hread (m : Mem) : ∃ q', conread q m buffer ptr size = (chars.length, q',
        putBytes (storeEach keyBytes m buffer (taken q size)) ptr chars) ∧
        q'.contents = q.contents.take (q.contents.length - size) := by
      have hread := conread_eq h hapart m
      rwa [hsame] at hread
    refine ⟨fun m => ?_, fun m => ?_, fun m i c hc => ?_, fun m a ha hout => ?_⟩
    · obtain ⟨q', hread, hq'⟩ := hread m
      rw [hread, hq']
    · obtain ⟨q', hread, -⟩ := hread m
      rw [hread]
    · obtain ⟨q', hread, -⟩ := hread m
      obtain ⟨hi, hc⟩ := List.getElem?_eq_some_iff.mp hc
      rw [hread, ← hc]
      exact putBytes_apply_add hi
    · obtain ⟨q', hread, -⟩ := hread m
      rw [hread, ← hothers m a ha hout]
      exact putBytes_of_notMem ha

theorem found_eq {keys : List UInt32} (m : Mem) (buffer : ℕ) (hlen : keys.length ≤ 2 ^ 31) :
    found m buffer keys.length keys = keys.map fun key => keyBytes key 0 := by
  rw [found]
  split
  · rename_i hnil
    rw [hnil]
    rfl
  · rw [min_eq_left hlen]
    refine ext_getElem (by simp) fun i hi hi' => ?_
    rw [length_map, length_range] at hi
    rw [getElem_map, getElem_range, getElem_map]
    exact storeEach_low hi

theorem keyBytes_of_lt {key : UInt32} (h : key.toNat < 256) (hi : 0 < i) : keyBytes key i = 0 := by
  have hpow : 256 ^ 1 ≤ 256 ^ i := Nat.pow_le_pow_right (by decide) hi
  rw [keyBytes, Nat.div_eq_of_lt (by omega)]
  rfl

theorem found_of_lt {keys : List UInt32} {size : ℕ} (m : Mem) (buffer : ℕ)
    (hcodes : ∀ key ∈ keys, key.toNat < 256) (hne : keys ≠ []) (hlt : keys.length < size)
    (hlen : keys.length < 2 ^ 31) :
    ∃ rest, found m buffer size keys = (keys.map fun key => keyBytes key 0) ++ 0 :: rest := by
  obtain ⟨r, hr⟩ := Nat.exists_eq_add_of_lt (lt_min hlt hlen)
  have hzero : storeEach keyBytes m buffer keys (buffer + keys.length) = 0 := by
    obtain ⟨xs, x, rfl⟩ := (eq_nil_or_concat' keys).resolve_left hne
    rw [length_append, length_singleton, ← Nat.add_assoc, storeEach_last xs x (by decide)]
    exact keyBytes_of_lt (hcodes x (by simp)) (by decide)
  have hfront := found_eq m buffer hlen.le
  rw [found, if_neg hne, min_eq_left hlen.le] at hfront
  rw [found, if_neg hne, hr, Nat.add_assoc, range_add, map_append, hfront, map_map,
    range_succ_eq_map, map_cons, Function.comp_apply, Nat.add_zero, hzero]
  exact ⟨_, rfl⟩

/-- `conread` returns the pressed keys if none is there, if none is asked for, or if there are as
many as are asked for and the block that it reads them into is three bytes longer. -/
theorem conread_exact_iff {q : Slots UInt32} {buffer room ptr size : ℕ} (h : q.InRange)
    (hcodes : ∀ key ∈ q.contents, key.toNat < 256) (hroom : size ≤ room)
    (hapart : Apart ptr size buffer (room + 3)) :
    ConreadExact q buffer room ptr size (charsOf (taken q size)) ↔
      q.contents = [] ∨ size = 0 ∨ size ≤ q.contents.length ∧ size + 3 ≤ room := by
  have hlen := length_taken q size
  have hcap : q.contents.length ≤ 512 := by
    have hcount := h.length_eq
    have hlast : q.last < 512 := h.2
    omega
  have htaken : ∀ key ∈ taken q size, key.toNat < 256 := fun key hkey =>
    hcodes key (mem_reverse.mp (mem_of_mem_take hkey))
  rw [Apart] at hapart
  rw [conreadExact_iff h (by rw [Apart]; omega), charsOf_eq htaken, ← length_eq_zero_iff]
  by_cases hnil : taken q size = []
  · refine iff_of_true ?_ ?_
    · rw [hnil]
      exact ⟨fun _ => rfl, fun _ _ _ _ => rfl⟩
    · rw [hnil, length_nil] at hlen
      omega
  have hpos := length_pos_iff.mpr hnil
  have hchars : (translated ((taken q size).map fun key => keyBytes key 0)).length ≤ size :=
    (length_translated_le _).trans (by rw [length_map]; omega)
  constructor
  · rintro ⟨hsame, hothers⟩
    have hle : size ≤ q.contents.length := by
      by_contra hlt
      -- the zero behind the keys is translated too
      obtain ⟨rest, hfound⟩ := found_of_lt (fun _ => 0) buffer htaken hnil
        (show (taken q size).length < size by omega) (by omega)
      have heq := congrArg List.length (hsame fun _ => 0)
      rw [hfound, translated_append, translated_cons, if_neg (by decide), length_append,
        length_cons] at heq
      omega
    refine Or.inr (Or.inr ⟨hle, ?_⟩)
    by_contra hlt
    -- one of the three zeros of the last key is the first byte behind the block
    obtain ⟨xs, x, hxs⟩ := (eq_nil_or_concat' (taken q size)).resolve_left hnil
    rw [hxs] at htaken
    rw [hxs, length_append, length_singleton] at hlen
    obtain ⟨i, hpos, hi, haddr⟩ : ∃ i, 0 < i ∧ i < 4 ∧ buffer + xs.length + i = buffer + room :=
      ⟨room - xs.length, by omega, by omega, by omega⟩
    have hbyte := hothers (fun _ => 1) (buffer + room) (by omega) (by omega)
    rw [← haddr, hxs, storeEach_last xs x hi, keyBytes_of_lt (htaken x (by simp)) hpos] at hbyte
    exact absurd hbyte (by decide)
  · rintro (hzero | hzero | ⟨hle, hspare⟩)
    · omega
    · omega
    · have hsize : (taken q size).length = size := by omega
      refine ⟨fun m => ?_, fun m a _ hout => storeEach_of_notMem (by omega)⟩
      have hfound := found_eq m buffer (show (taken q size).length ≤ 2 ^ 31 by omega)
      rw [hsize] at hfound
      rw [hfound]

theorem conread_exact_iff_single :
    ConreadExact oneKey 8192 16 4096 1 [97] ∧ ¬ConreadExact oneKey 8192 3 4096 1 [97] := by
  have hcodes (key : UInt32) (hkey : key ∈ oneKey.contents) : key.toNat < 256 := by
    rw [show oneKey.contents = [30] from rfl, mem_singleton] at hkey
    rw [hkey]
    decide
  exact ⟨(conread_exact_iff oneKey_inRange hcodes (by decide) (by decide)).mpr (by decide),
    (conread_exact_iff oneKey_inRange hcodes (by decide) (by decide)).not.mpr (by decide)⟩

/-- Two characters for one key, because two were asked for. -/
theorem conread_invents_key :
    (conread oneKey (fun _ => 0) 8192 4096 2).1 = 2 ∧ oneKey.contents.length = 1 ∧
      ¬ConreadExact oneKey 8192 16 4096 2 (charsOf (taken oneKey 2)) := by
  have htwo : (conread oneKey (fun _ => 0) 8192 4096 2).1 = 2 := by decide
  refine ⟨htwo, by decide, fun hexact => ?_⟩
  have hcount := hexact.count fun _ => 0
  rw [htwo] at hcount
  exact absurd hcount (by decide)

end KernelOld.Input
