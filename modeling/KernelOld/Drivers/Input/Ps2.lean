import KernelOld.Drivers.Input.EventQueue

/-!
# The PS/2 keyboard and mouse

The interrupt handlers and the readers of `drivers/input/keyboard/ps2kb.c` and
`drivers/input/mouse/ps2mouse.c`. Both handlers test for a full array, and both tests are off by
one: with 512 unread events the next one is stored behind the array.
-/

namespace KernelOld.Input

/-! ## The keyboard -/

def kbInterruptHandler (q : Slots UInt32) (scanCode : UInt8) : Option (Slots UInt32) :=
  if q.last > (queueSize : ℤ) - 1 then some q
  else q.push scanCode.toUInt32

def kbGetKey (q : Slots UInt32) : Slots UInt32 × Option UInt32 := q.pop

def kbStep (h : History UInt32) : Event UInt8 → Option (History UInt32)
  | .arrive scanCode => (kbInterruptHandler h.queue scanCode).map fun q =>
      ⟨q, h.received ++ [scanCode.toUInt32], h.returned⟩
  | .get => some ⟨(kbGetKey h.queue).1, h.received, h.returned ++ (kbGetKey h.queue).2.toList⟩

def kbSteps (h : History UInt32) : List (Event UInt8) → Option (History UInt32)
  | [] => some h
  | e :: evs => (kbStep h e).bind fun h' => kbSteps h' evs

def kbRun (keys : ℕ → UInt32) (evs : List (Event UInt8)) : Option (History UInt32) :=
  kbSteps (History.start keys) evs

/-! ## The mouse -/

structure MousePacket where
  btns : Int8
  xmov : Int8
  ymov : Int8
  scroll : Int8
  deriving DecidableEq

structure PacketReader where
  data0 : Int8
  data1 : Int8
  data2 : Int8
  cycle : UInt8

structure Mouse extends PacketReader where
  queue : Slots MousePacket

/-- `mouse_handler`. `scroll` is what lies where `pack` is, of which this field is not set. -/
def mouseHandler (m : Mouse) (byte : UInt8) (scroll : Int8) : Option Mouse :=
  if m.cycle = 0 then
    let m := { m with data0 := byte.toInt8 }
    if m.data0 &&& 0x8 = 0 then some m else some { m with cycle := m.cycle + 1 }
  else if m.cycle = 1 then
    some { m with data1 := byte.toInt8, cycle := m.cycle + 1 }
  else if m.cycle = 2 then
    let m := { m with data2 := byte.toInt8, cycle := 0 }
    let pack : MousePacket := ⟨m.data0 &&& 7, m.data1, -m.data2, scroll⟩
    (m.queue.push pack).map fun q =>
      { m with queue := if q.last > (queueSize : ℤ) then { q with last := -1 } else q }
  else some { m with cycle := 0 }

def mouseGetPacket (q : Slots MousePacket) : Slots MousePacket × Option MousePacket := q.pop

inductive MouseEvent where
  | interrupt (byte : UInt8) (scroll : Int8)
  | get

def PacketReader.packet (r : PacketReader) (byte : UInt8) (scroll : Int8) : MousePacket :=
  ⟨r.data0 &&& 7, r.data1, -byte.toInt8, scroll⟩

structure MouseHistory where
  mouse : Mouse
  received : List MousePacket
  returned : List MousePacket

def MouseHistory.history (h : MouseHistory) : History MousePacket :=
  ⟨h.mouse.queue, h.received, h.returned⟩

def mouseStep (h : MouseHistory) : MouseEvent → Option MouseHistory
  | .interrupt byte scroll => (mouseHandler h.mouse byte scroll).map fun m =>
      ⟨m, if h.mouse.cycle = 2 then h.received ++ [h.mouse.packet byte scroll] else h.received,
        h.returned⟩
  | .get => some
      ⟨{ h.mouse with queue := (mouseGetPacket h.mouse.queue).1 }, h.received,
        h.returned ++ (mouseGetPacket h.mouse.queue).2.toList⟩

def mouseSteps (h : MouseHistory) : List MouseEvent → Option MouseHistory
  | [] => some h
  | e :: evs => (mouseStep h e).bind fun h' => mouseSteps h' evs

def mouseRun (r : PacketReader) (packets : ℕ → MousePacket) (evs : List MouseEvent) :
    Option (History MousePacket) :=
  (mouseSteps ⟨⟨r, ⟨packets, -1⟩⟩, [], []⟩ evs).map MouseHistory.history

/-! ## The keyboard as a queue -/

def kbTranslation : Translation Unit (Event UInt8) UInt32 where
  event _ e := some <| match e with
    | .arrive scanCode => .arrive scanCode.toUInt32
    | .get => .get
  next _ _ := ()

def kbEvents (evs : List (Event UInt8)) : List (Event UInt32) := kbTranslation.events () evs

theorem kbInterruptHandler_eq {q : Slots UInt32} (hrange : q.InRange) (scanCode : UInt8) :
    kbInterruptHandler q scanCode = q.push scanCode.toUInt32 := by
  have hlast := hrange.2
  exact if_neg (by omega)

theorem kbSteps_eq {h : History UInt32} (hrange : h.queue.InRange) (evs : List (Event UInt8)) :
    kbSteps h evs = h.run (kbEvents evs) := by
  induction evs generalizing h with
  | nil => rfl
  | cons e evs ih =>
    have hstep : ∃ ev, kbTranslation.event () e = some ev ∧ kbStep h e = h.step ev := by
      cases e with
      | arrive scanCode =>
        refine ⟨_, rfl, ?_⟩
        rw [kbStep, kbInterruptHandler_eq hrange]
        rfl
      | get => exact ⟨_, rfl, rfl⟩
    obtain ⟨ev, hev, hstep⟩ := hstep
    rw [kbSteps, kbEvents, Translation.events, hev, hstep]
    refine Option.bind_congr fun h' hh' => ?_
    exact ih (h.step_inRange hrange hh')

def kbDriver (keys : ℕ → UInt32) : Driver Unit (Event UInt8) UInt32 where
  toTranslation := kbTranslation
  init := ()
  slots := keys
  run := kbRun keys
  run_eq := kbSteps_eq (queued_start keys).inRange

/-! ## The mouse as a queue -/

def PacketReader.next (r : PacketReader) (byte : UInt8) : PacketReader :=
  if r.cycle = 0 then
    if byte.toInt8 &&& 0x8 = 0 then { r with data0 := byte.toInt8 }
    else { r with data0 := byte.toInt8, cycle := r.cycle + 1 }
  else if r.cycle = 1 then { r with data1 := byte.toInt8, cycle := r.cycle + 1 }
  else if r.cycle = 2 then { r with data2 := byte.toInt8, cycle := 0 }
  else { r with cycle := 0 }

def mouseTranslation : Translation PacketReader MouseEvent MousePacket where
  event
    | r, .interrupt byte scroll =>
      if r.cycle = 2 then some (.arrive (r.packet byte scroll)) else none
    | _, .get => some .get
  next
    | r, .interrupt byte _ => r.next byte
    | r, .get => r

def mouseEvents (r : PacketReader) (evs : List MouseEvent) : List (Event MousePacket) :=
  mouseTranslation.events r evs

theorem mouseHandler_eq (m : Mouse) (byte : UInt8) (scroll : Int8) :
    mouseHandler m byte scroll =
      if m.cycle = 2 then
        (m.queue.push (m.packet byte scroll)).map fun q => ⟨m.next byte, q⟩
      else some ⟨m.next byte, m.queue⟩ := by
  rw [mouseHandler, PacketReader.next]
  by_cases h0 : m.cycle = 0
  · have h2 : m.cycle ≠ 2 := by
      rw [h0]
      decide
    rw [if_pos h0, if_pos h0, if_neg h2]
    by_cases hbit : byte.toInt8 &&& 0x8 = 0
    · rw [if_pos hbit, if_pos hbit]
    · rw [if_neg hbit, if_neg hbit]
  rw [if_neg h0, if_neg h0]
  by_cases h1 : m.cycle = 1
  · have h2 : m.cycle ≠ 2 := by
      rw [h1]
      decide
    rw [if_pos h1, if_pos h1, if_neg h2]
  rw [if_neg h1, if_neg h1]
  by_cases h2 : m.cycle = 2
  · rw [if_pos h2, if_pos h2, if_pos h2]
    refine Option.map_congr fun q hq => ?_
    have hlast : q.last < queueSize := Slots.push_last_lt hq
    rw [if_neg (by omega)]
  · rw [if_neg h2, if_neg h2, if_neg h2]

theorem mouseSteps_eq (h : MouseHistory) (evs : List MouseEvent) :
    (mouseSteps h evs).map MouseHistory.history =
      h.history.run (mouseEvents h.mouse.toPacketReader evs) := by
  induction evs generalizing h with
  | nil => rfl
  | cons e evs ih =>
    rw [mouseSteps, mouseEvents, Translation.events]
    cases e with
    | get =>
      exact ih _
    | interrupt byte scroll =>
      have hrun := fun m received => ih ⟨m, received, h.returned⟩
      rw [mouseStep, mouseHandler_eq]
      by_cases h2 : h.mouse.cycle = 2
      · have hev : mouseTranslation.event h.mouse.toPacketReader (.interrupt byte scroll) =
            some (.arrive (h.mouse.packet byte scroll)) := if_pos h2
        rw [if_pos h2, if_pos h2, hev, Option.toList_some, List.singleton_append, History.run,
          History.step]
        cases hpush : h.history.queue.push (h.mouse.packet byte scroll) with
        | none =>
          have hnone : h.mouse.queue.push (h.mouse.packet byte scroll) = none := hpush
          rw [hnone]
          rfl
        | some q =>
          have hsome : h.mouse.queue.push (h.mouse.packet byte scroll) = some q := hpush
          rw [hsome]
          exact hrun ⟨h.mouse.next byte, q⟩ _
      · have hev : mouseTranslation.event h.mouse.toPacketReader (.interrupt byte scroll) = none :=
          if_neg h2
        rw [if_neg h2, if_neg h2, hev]
        exact hrun ⟨h.mouse.next byte, h.mouse.queue⟩ _

def mouseDriver (r : PacketReader) (packets : ℕ → MousePacket) :
    Driver PacketReader MouseEvent MousePacket where
  toTranslation := mouseTranslation
  init := r
  slots := packets
  run := mouseRun r packets
  run_eq := mouseSteps_eq ⟨⟨r, ⟨packets, -1⟩⟩, [], []⟩

/-! ## All runs -/

theorem kbRun_staysInArray_iff (keys : ℕ → UInt32) (evs : List (Event UInt8)) :
    StaysInArray (kbRun keys) evs ↔ Fits queueSize 0 (kbEvents evs) :=
  (kbDriver keys).staysInArray_iff evs

theorem mouseRun_staysInArray_iff (r : PacketReader) (packets : ℕ → MousePacket)
    (evs : List MouseEvent) :
    StaysInArray (mouseRun r packets) evs ↔ Fits queueSize 0 (mouseEvents r evs) :=
  (mouseDriver r packets).staysInArray_iff evs

/-- For both drivers, all stores are inside the array, and the end index is always between -1
and 511, exactly in the runs in which no event arrives while 512 are unread. -/
theorem input_stays_in_array_iff (keys : ℕ → UInt32) (kbEvs : List (Event UInt8))
    (r : PacketReader) (packets : ℕ → MousePacket) (mouseEvs : List MouseEvent) :
    (StaysInArray (kbRun keys) kbEvs ↔ Fits queueSize 0 (kbEvents kbEvs)) ∧
      (StaysInArray (mouseRun r packets) mouseEvs ↔ Fits queueSize 0 (mouseEvents r mouseEvs)) :=
  ⟨kbRun_staysInArray_iff keys kbEvs, mouseRun_staysInArray_iff r packets mouseEvs⟩

/-- A key held down for 513 interrupts, and 513 movements of the mouse. -/
theorem input_leaves_array :
    ¬StaysInArray (kbRun fun _ => 0) (List.replicate 513 (.arrive 0x1e)) ∧
      ¬StaysInArray (mouseRun ⟨0, 0, 0, 0⟩ fun _ => ⟨0, 0, 0, 0⟩)
        (List.replicate 513 [.interrupt 8 0, .interrupt 1 0, .interrupt 1 0]).flatten := by
  rw [kbRun_staysInArray_iff, mouseRun_staysInArray_iff]
  decide +kernel

theorem kbRun_inOrder_spec (keys : ℕ → UInt32) (evs : List (Event UInt8))
    (hfits : Fits 511 0 (kbEvents evs)) :
    (ReadsSingle 0 (kbEvents evs) → InOrder (kbRun keys) evs) ∧
      ((arrivals (kbEvents evs)).Nodup →
        (InOrder (kbRun keys) evs ↔ ReadsSingle 0 (kbEvents evs))) :=
  (kbDriver keys).inOrder_spec evs hfits

theorem mouseRun_inOrder_spec (r : PacketReader) (packets : ℕ → MousePacket)
    (evs : List MouseEvent) (hfits : Fits 511 0 (mouseEvents r evs)) :
    (ReadsSingle 0 (mouseEvents r evs) → InOrder (mouseRun r packets) evs) ∧
      ((arrivals (mouseEvents r evs)).Nodup →
        (InOrder (mouseRun r packets) evs ↔ ReadsSingle 0 (mouseEvents r evs))) :=
  (mouseDriver r packets).inOrder_spec evs hfits

/-- For both drivers and all runs in which at most 511 events are unread, the events returned
are the first of those received if no read finds two unread events, and for different events
only then. -/
theorem input_in_order_iff (keys : ℕ → UInt32) {kbEvs : List (Event UInt8)} {r : PacketReader}
    (packets : ℕ → MousePacket) {mouseEvs : List MouseEvent}
    (hkb : Fits 511 0 (kbEvents kbEvs)) (hmouse : Fits 511 0 (mouseEvents r mouseEvs)) :
    ((ReadsSingle 0 (kbEvents kbEvs) → InOrder (kbRun keys) kbEvs) ∧
      ((arrivals (kbEvents kbEvs)).Nodup →
        (InOrder (kbRun keys) kbEvs ↔ ReadsSingle 0 (kbEvents kbEvs)))) ∧
    (ReadsSingle 0 (mouseEvents r mouseEvs) → InOrder (mouseRun r packets) mouseEvs) ∧
      ((arrivals (mouseEvents r mouseEvs)).Nodup →
        (InOrder (mouseRun r packets) mouseEvs ↔ ReadsSingle 0 (mouseEvents r mouseEvs))) :=
  ⟨kbRun_inOrder_spec keys kbEvs hkb, mouseRun_inOrder_spec r packets mouseEvs hmouse⟩

/-- A reader that takes each event before the next one arrives. -/
theorem input_in_order_iff_alternating :
    InOrder (kbRun fun _ => 0) [.arrive 0x1e, .get, .arrive 0x30, .get] ∧
      InOrder (mouseRun ⟨0, 0, 0, 0⟩ fun _ => ⟨0, 0, 0, 0⟩)
        [.interrupt 8 0, .interrupt 1 0, .interrupt 1 0, .get] := by
  have hkb : Fits 511 0 (kbEvents [.arrive 0x1e, .get, .arrive 0x30, .get]) := by decide +kernel
  have hmouse : Fits 511 0 (mouseEvents ⟨0, 0, 0, 0⟩
      [.interrupt 8 0, .interrupt 1 0, .interrupt 1 0, .get]) := by decide +kernel
  obtain ⟨⟨-, hiff⟩, hsingle, -⟩ :=
    input_in_order_iff (fun _ => 0) (fun _ => ⟨0, 0, 0, 0⟩) hkb hmouse
  exact ⟨(hiff (by decide +kernel)).mpr (by decide +kernel), hsingle (by decide +kernel)⟩

/-- Two events and then a read: the second one comes first. -/
theorem input_reverses_burst :
    ¬InOrder (kbRun fun _ => 0) [.arrive 0x1e, .arrive 0x30, .get] ∧
      ¬InOrder (mouseRun ⟨0, 0, 0, 0⟩ fun _ => ⟨0, 0, 0, 0⟩)
        [.interrupt 8 0, .interrupt 1 0, .interrupt 1 0,
          .interrupt 8 0, .interrupt 2 0, .interrupt 2 0, .get] := by
  rw [(kbRun_inOrder_spec _ _ (by decide +kernel)).2 (by decide +kernel),
    (mouseRun_inOrder_spec _ _ _ (by decide +kernel)).2 (by decide +kernel)]
  decide +kernel

end KernelOld.Input
