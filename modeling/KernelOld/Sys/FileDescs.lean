import KernelOld.Util.List

/-!
# The file descriptors of a process

`procgetfd`, `sys_open`, `sys_close`, `sys_read`, `sys_write` and `sys_ioctl` of
`src/sys/syscall/syscall.c`, with `vfs_open` and `vfs_close`. No file system sets the `open` and
`close` hooks of a node, so the one always allocates the descriptor and the other always frees it.
-/

namespace KernelOld.FileDescs
open LinkedList MachineWord Function List

structure FsFd where
  node : ℕ
  pos : ℕ
  flags : ℕ
  mode : ℕ

/-- The list, the descriptors that are allocated, and what was passed to `kfree`, in order. -/
structure Proc where
  fileDescs : ListT ℕ
  objs : ℕ → Option FsFd
  kfreed : List ℕ

def minusOne : ℕ := 2 ^ 64 - 1

def procgetfd (fileDescs : ListT ℕ) (fdnum : ℤ) : Option ℕ :=
  if fdnum < 0 ∨ (fileDescs.cnt : ℤ) ≤ fdnum then some 0
  else do
    let node ← listGet fileDescs fdnum.toNat
    fileDescs.val node

def kfree (p : Proc) (ptr : ℕ) : Proc :=
  { p with objs := update p.objs ptr none, kfreed := p.kfreed ++ [ptr] }

def vfsOpen (p : Proc) (file flags mode fd : ℕ) : Proc :=
  let obj : FsFd := { node := file, pos := 0, flags := flags, mode := mode }
  { p with objs := update p.objs fd (some obj) }

/-- `vfs_close`, which reads the node of the descriptor first: `none` when the descriptor has
been freed. -/
def vfsClose (p : Proc) (file : ℕ) : Option Proc := do
  let _ ← p.objs file
  some (kfree p file)

/-- `file` is what `vfs_resolve_path` found; `fd` and `node` are new. -/
def sysOpen (p : Proc) (file : Option ℕ) (flags mode fd node : ℕ) : Proc × ℕ :=
  match file with
  | none => (p, minusOne)
  | some file =>
    let p := vfsOpen p file flags mode fd
    let fileDescs := listPushBack p.fileDescs fd node
    ({ p with fileDescs := fileDescs }, sub32 fileDescs.cnt 1)

def sysClose (p : Proc) (fdno : ℤ) : Option (Proc × ℕ) := do
  let fd ← procgetfd p.fileDescs fdno
  if fd = 0 then some (p, minusOne)
  else
    let p ← vfsClose p fd
    some (kfree p fd, 0)

def onNode (p : Proc) (fdno : ℤ) (hook : ℕ → ℕ) : Option ℕ := do
  let fd ← procgetfd p.fileDescs fdno
  if fd = 0 then some minusOne
  else (p.objs fd).map fun file => hook file.node

def sysRead (vfsRead : ℕ → ℕ → ℕ → ℕ → ℕ) (p : Proc) (fdno : ℤ) (ptr len : ℕ) : Option ℕ :=
  onNode p fdno fun node => vfsRead node ptr 0 len

def sysWrite (vfsWrite : ℕ → ℕ → ℕ → ℕ → ℕ) (p : Proc) (fdno : ℤ) (ptr len : ℕ) : Option ℕ :=
  onNode p fdno fun node => vfsWrite node ptr 0 len

def sysIoctl (vfsIoctl : ℕ → ℕ → ℕ → ℕ) (p : Proc) (fdno : ℤ) (cmd argp : ℕ) : Option ℕ :=
  onNode p fdno fun node => vfsIoctl node cmd argp

/-! ## Runs and the ledger -/

inductive Call where
  | opens (file : Option ℕ) (flags mode fd node : ℕ)
  | closes (fdno : ℤ)

def Call.exec (p : Proc) : Call → Option (Proc × ℕ)
  | opens file flags mode fd node => some (sysOpen p file flags mode fd node)
  | closes fdno => sysClose p fdno

/-- The descriptor that is open under each number, and those that were closed, in order. -/
structure Ledger where
  opened : ℤ → Option ℕ
  closed : List ℕ

/-- There is no entry when `sys_open` hands out a number that is open, or `sys_close` succeeds on
one that is not. -/
def Ledger.record (led : Ledger) : Call → ℕ → Option Ledger
  | .opens none _ _ _ _, _ => some led
  | .opens (some _) _ _ fd _, ret =>
    if led.opened (toInt32 ret) = none then
      some { led with opened := update led.opened (toInt32 ret) (some fd) }
    else none
  | .closes fdno, ret =>
    if ret = minusOne then some led
    else
      match led.opened fdno with
      | none => none
      | some fd => some { opened := update led.opened fdno none, closed := led.closed ++ [fd] }

/-- The process, with the ledger of its calls. -/
structure Sys where
  proc : Proc
  led : Ledger

def Sys.step (s : Sys) (call : Call) : Option Sys := do
  let (proc, ret) ← call.exec s.proc
  let led ← s.led.record call ret
  some { proc := proc, led := led }

def Sys.run (s : Sys) (calls : List Call) : Option Sys := calls.foldlM Sys.step s

/-- Every open number refers to its descriptor, every other is refused, and exactly the closed
descriptors have been freed, each once. -/
structure Keeps (s : Sys) : Prop where
  refers : ∀ k, procgetfd s.proc.fileDescs k = some ((s.led.opened k).getD 0)
  refuses : ∀ k, s.led.opened k = none → sysClose s.proc k = some (s.proc, minusOne) ∧
    (∀ vfsRead ptr len, sysRead vfsRead s.proc k ptr len = some minusOne) ∧
    (∀ vfsWrite ptr len, sysWrite vfsWrite s.proc k ptr len = some minusOne) ∧
    ∀ vfsIoctl cmd argp, sysIoctl vfsIoctl s.proc k cmd argp = some minusOne
  freed : s.proc.kfreed = s.led.closed

def Fresh (p : Proc) : Call → Prop
  | .opens _ _ _ fd node =>
    (fd ≠ 0 ∧ p.objs fd = none) ∧ node ≠ 0 ∧ p.fileDescs.val node = none
  | .closes _ => True

/-- `sys_close` is given no open number, and the number that `sys_open` returns is an `int`. -/
def Harmless (s : Sys) : Call → Prop
  | .opens file _ _ _ _ => file ≠ none → s.proc.fileDescs.cnt < 2 ^ 31
  | .closes fdno => s.led.opened fdno = none

/-- Every call of the run meets the condition in the state it finds. -/
def Meets : Sys → List Call → Prop
  | _, [] => True
  | s, call :: calls =>
    (Fresh s.proc call ∧ Harmless s call) ∧ ∀ s', s.step call = some s' → Meets s' calls

/-- The list of descriptors is what the ledger says was opened, and nothing was freed. -/
structure Table (s : Sys) (nodes xs : List ℕ) : Prop where
  holds : Holds s.proc.fileDescs nodes xs
  cnt_eq : s.proc.fileDescs.cnt = xs.length
  length_le : xs.length ≤ 2 ^ 31
  live : ∀ x ∈ xs, x ≠ 0 ∧ (s.proc.objs x).isSome
  opened_eq : ∀ k, s.led.opened k = if k < 0 then none else xs[k.toNat]?
  freed : s.proc.kfreed = []
  closed : s.led.closed = []

variable {s s' : Sys} {nodes xs : List ℕ}

theorem Holds.procgetfd_eq {l : ListT ℕ} (h : Holds l nodes xs) (hcnt : l.cnt = xs.length)
    (hlen : xs.length < 2 ^ 32) (k : ℤ) :
    procgetfd l k = some ((if k < 0 then none else xs[k.toNat]?).getD 0) := by
  rw [procgetfd]
  by_cases hneg : k < 0
  · rw [if_pos (Or.inl hneg), if_pos hneg]
    rfl
  rw [if_neg hneg]
  by_cases hout : (l.cnt : ℤ) ≤ k
  · rw [if_pos (Or.inr hout), getElem?_eq_none (by omega)]
    rfl
  -- the node at the index splits the chain, which is what `list_get` walks
  have hk : k.toNat < nodes.length := by
    rw [h.length_eq]
    omega
  have hkx : k.toNat < xs.length := by omega
  have hsplit : nodes = nodes.take k.toNat ++ nodes[k.toNat] :: nodes.drop (k.toNat + 1) := by
    rw [getElem_cons_drop, take_append_drop]
  have htake : (nodes.take k.toNat).length = k.toNat := length_take_of_le hk.le
  have hget : listGet l k.toNat = some nodes[k.toNat] := by
    have hlong : nodes.length < 2 ^ 64 := by
      rw [h.length_eq]
      omega
    rw [hsplit] at h hlong
    have := h.listGet_eq hlong (by omega) (by omega)
    rwa [htake] at this
  have hval : l.val nodes[k.toNat] = some xs[k.toNat] := by
    have := congrArg (fun vs => vs[k.toNat]?) h.vals
    simpa [hk, hkx] using this
  rw [if_neg (by simp [hneg, hout]), hget, getElem?_eq_getElem hkx]
  exact hval

theorem keeps_of_refers (hrefers : ∀ k, procgetfd s.proc.fileDescs k =
    some ((s.led.opened k).getD 0)) (hfreed : s.proc.kfreed = s.led.closed) : Keeps s := by
  have hnode : ∀ k hook, s.led.opened k = none → onNode s.proc k hook = some minusOne := by
    intro k hook hk
    rw [onNode, hrefers k, hk]
    rfl
  refine ⟨hrefers, fun k hk => ⟨?_, ?_, ?_, ?_⟩, hfreed⟩
  · rw [sysClose, hrefers k, hk]
    rfl
  · intro vfsRead ptr len
    exact hnode k _ hk
  · intro vfsWrite ptr len
    exact hnode k _ hk
  · intro vfsIoctl cmd argp
    exact hnode k _ hk

theorem Table.keeps (h : Table s nodes xs) : Keeps s := by
  refine keeps_of_refers (fun k => ?_) (h.freed.trans h.closed.symm)
  have hlen := h.length_le
  rw [Holds.procgetfd_eq h.holds h.cnt_eq (by omega), h.opened_eq]

theorem numbered_append {opened : ℤ → Option ℕ} {fd : ℕ}
    (h : ∀ k, opened k = if k < 0 then none else xs[k.toNat]?) (k : ℤ) :
    update opened xs.length (some fd) k = if k < 0 then none else (xs ++ [fd])[k.toNat]? := by
  by_cases hk : k = xs.length
  · rw [hk, update_self, if_neg (by omega)]
    simp
  rw [update_of_ne hk, h]
  by_cases hneg : k < 0
  · rw [if_pos hneg, if_pos hneg]
  rw [if_neg hneg, if_neg hneg, getElem?_append]
  by_cases hin : k.toNat < xs.length
  · rw [if_pos hin]
  · rw [if_neg hin, getElem?_eq_none (by omega), getElem?_eq_none]
    rw [length_singleton]
    omega

theorem Table.opens {file flags mode fd node : ℕ} (h : Table s nodes xs)
    (hfresh : Fresh s.proc (.opens (some file) flags mode fd node))
    (hcnt : s.proc.fileDescs.cnt < 2 ^ 31) :
    ∃ s', s.step (.opens (some file) flags mode fd node) = some s' ∧
      Table s' (nodes ++ [node]) (xs ++ [fd]) := by
  obtain ⟨⟨hfd, -⟩, hnode, hval⟩ := hfresh
  have hlen : xs.length < 2 ^ 31 := h.cnt_eq ▸ hcnt
  have hnew : node ∉ nodes := by
    intro hmem
    have hsome := h.holds.val_isSome hmem
    rw [hval] at hsome
    cases hsome
  have hcnt' : (listPushBack s.proc.fileDescs fd node).cnt = xs.length + 1 := by
    rw [listPushBack_cnt, h.cnt_eq, u32_of_lt (by omega)]
  have hret : toInt32 (sub32 (listPushBack s.proc.fileDescs fd node).cnt 1) = xs.length := by
    rw [hcnt', sub32_of_le (by omega) (by omega), Nat.add_sub_cancel, toInt32_of_lt hlen]
  have hunused : s.led.opened xs.length = none := by
    rw [h.opened_eq, if_neg (by omega)]
    simp
  refine ⟨{ proc := (sysOpen s.proc (some file) flags mode fd node).1
            led := { s.led with opened := update s.led.opened xs.length (some fd) } },
    ?_, h.holds.listPushBack hnode hnew, ?_, ?_, ?_, ?_, h.freed, h.closed⟩
  · simp only [Sys.step, Call.exec, sysOpen, vfsOpen, Ledger.record, Option.bind_eq_bind,
      Option.bind_some, hret, if_pos hunused]
  · show (listPushBack s.proc.fileDescs fd node).cnt = _
    rw [hcnt', length_append, length_singleton]
  · rw [length_append, length_singleton]
    omega
  · intro x hx
    show x ≠ 0 ∧ (update s.proc.objs fd _ x).isSome
    by_cases hxfd : x = fd
    · rw [hxfd, update_self]
      exact ⟨hfd, rfl⟩
    · rw [update_of_ne hxfd]
      have hmem : x ∈ xs := by simpa [hxfd] using hx
      exact h.live x hmem
  · exact numbered_append fun k => h.opened_eq k

/-- A number that is not open is refused, and nothing changes. -/
theorem Table.refuses {k : ℤ} (h : Table s nodes xs) (hk : s.led.opened k = none) :
    s.step (.closes k) = some s := by
  have hrefused := (h.keeps.refuses k hk).1
  simp only [Sys.step, Call.exec, hrefused, Option.bind_eq_bind, Option.bind_some,
    Ledger.record, if_pos]

theorem Table.step {call : Call} (h : Table s nodes xs) (hfresh : Fresh s.proc call)
    (hharmless : Harmless s call) :
    ∃ s' nodes' xs', s.step call = some s' ∧ Table s' nodes' xs' := by
  cases call with
  | opens file flags mode fd node =>
    cases file with
    | none => exact ⟨s, nodes, xs, rfl, h⟩
    | some file =>
      obtain ⟨s', hstep, htable⟩ := h.opens hfresh (hharmless (by simp))
      exact ⟨s', _, _, hstep, htable⟩
  | closes fdno => exact ⟨s, nodes, xs, h.refuses hharmless, h⟩

theorem Table.run {calls : List Call} (h : Table s nodes xs) (hmeets : Meets s calls) :
    ∃ s' nodes' xs', s.run calls = some s' ∧ Table s' nodes' xs' := by
  induction calls generalizing s nodes xs with
  | nil => exact ⟨s, nodes, xs, rfl, h⟩
  | cons call calls ih =>
    obtain ⟨⟨hfresh, hharmless⟩, hrest⟩ := hmeets
    obtain ⟨s₁, nodes₁, xs₁, hstep, h₁⟩ := h.step hfresh hharmless
    obtain ⟨s₂, nodes₂, xs₂, hrun, h₂⟩ := ih h₁ (hrest s₁ hstep)
    refine ⟨s₂, nodes₂, xs₂, ?_, h₂⟩
    rw [Sys.run, foldlM_cons, hstep]
    exact hrun

theorem Table.closes {k : ℤ} {fd : ℕ} (h : Table s nodes xs) (hopen : s.led.opened k = some fd) :
    ∃ s', s.step (.closes k) = some s' ∧ s'.led.opened k = none ∧ s'.led.closed = [fd] ∧
      procgetfd s'.proc.fileDescs k = some fd ∧ s'.proc.kfreed = [fd, fd] := by
  have hmem : fd ∈ xs := by
    rw [h.opened_eq] at hopen
    split at hopen
    · cases hopen
    · exact mem_of_getElem? hopen
  obtain ⟨hfd, hlive⟩ := h.live fd hmem
  obtain ⟨obj, hobj⟩ := Option.isSome_iff_exists.mp hlive
  have hget : procgetfd s.proc.fileDescs k = some fd := by
    rw [h.keeps.refers, hopen]
    rfl
  have hclose : sysClose s.proc k = some (kfree (kfree s.proc fd) fd, 0) := by
    rw [sysClose, hget]
    simp [hfd, vfsClose, hobj]
  refine ⟨{ proc := kfree (kfree s.proc fd) fd
            led := { opened := update s.led.opened k none, closed := s.led.closed ++ [fd] } },
    ?_, update_self .., ?_, hget, ?_⟩
  · simp [Sys.step, Call.exec, hclose, Ledger.record, hopen, minusOne]
  · rw [h.closed]
    rfl
  · simp [kfree, h.freed]

theorem not_keeps_of_twice {fd : ℕ} (hclosed : s.led.closed = [fd])
    (hfreed : s.proc.kfreed = [fd, fd]) : ¬Keeps s := by
  intro hkeeps
  have htwice := hkeeps.freed
  rw [hfreed, hclosed] at htwice
  simp at htwice

/-- In every run in which no open number is passed to `sys_close`, the descriptors behave as
they should in every state; the first `sys_close` of an open number breaks this. -/
theorem descriptors_kept (h : Table s nodes xs) (calls : List Call) (hmeets : Meets s calls) :
    ∃ s', s.run calls = some s' ∧ Keeps s' ∧
      ∀ k, s'.led.opened k ≠ none → ∃ t, s'.step (.closes k) = some t ∧ ¬Keeps t := by
  obtain ⟨s', nodes', xs', hrun, h'⟩ := h.run hmeets
  refine ⟨s', hrun, h'.keeps, fun k hopen => ?_⟩
  obtain ⟨fd, hfd⟩ := Option.ne_none_iff_exists'.mp hopen
  obtain ⟨t, hstep, -, hclosed, -, hfreed⟩ := h'.closes hfd
  exact ⟨t, hstep, not_keeps_of_twice hclosed hfreed⟩

def newProc : Sys :=
  { proc := { fileDescs := listCreate, objs := fun _ => none, kfreed := [] }
    led := { opened := fun _ => none, closed := [] } }

theorem table_newProc : Table newProc [] [] :=
  ⟨holds_listCreate, rfl, by decide, by simp, by simp [newProc], rfl, rfl⟩

theorem fresh_newProc : Fresh newProc.proc (.opens (some 9) 0 0 64 128) :=
  ⟨⟨by decide, rfl⟩, by decide, rfl⟩

/-- One file is opened, and a number that was never handed out is closed. -/
theorem descriptors_kept_newProc :
    ∃ s', newProc.run [.opens (some 9) 0 0 64 128, .closes 5] = some s' ∧ Keeps s' ∧
      ∀ k, s'.led.opened k ≠ none → ∃ t, s'.step (.closes k) = some t ∧ ¬Keeps t := by
  refine descriptors_kept table_newProc _ ⟨⟨fresh_newProc, fun _ => by decide⟩, ?_⟩
  intro s₁ hs₁
  obtain ⟨s', hstep, h'⟩ := table_newProc.opens fresh_newProc (by decide)
  obtain rfl := Option.some.inj (hstep.symm.trans hs₁)
  refine ⟨⟨trivial, ?_⟩, fun _ _ => trivial⟩
  exact h'.opened_eq 5

/-- Opening one file and closing it: the descriptor is freed twice, and the number still
refers to it. -/
theorem sysClose_frees_twice :
    ∃ s', newProc.run [.opens (some 9) 0 0 64 128, .closes 0] = some s' ∧
      s'.led.opened 0 = none ∧ s'.led.closed = [64] ∧
      procgetfd s'.proc.fileDescs 0 = some 64 ∧ s'.proc.kfreed = [64, 64] ∧ ¬Keeps s' := by
  obtain ⟨s₁, hopens, h₁⟩ := table_newProc.opens fresh_newProc (by decide)
  have hopen : s₁.led.opened 0 = some 64 := h₁.opened_eq 0
  obtain ⟨s₂, hcloses, hnone, hclosed, hget, hfreed⟩ := h₁.closes hopen
  refine ⟨s₂, ?_, hnone, hclosed, hget, hfreed, not_keeps_of_twice hclosed hfreed⟩
  rw [Sys.run, foldlM_cons, hopens]
  show List.foldlM Sys.step s₁ [.closes 0] = some s₂
  rw [foldlM_cons, hcloses]
  rfl

end KernelOld.FileDescs
