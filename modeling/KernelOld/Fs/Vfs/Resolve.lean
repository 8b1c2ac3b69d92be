import KernelOld.Fs.Vfs.MountTable

/-!
# Path resolution

`vfs_resolve_path` of `fs/vfs/vfs.c`. It looks up the mount for the canonical path and then walks
down from there, but along all components of the path, those that lead to the mount included. `none`
stands for a null pointer and for what `vfs_mk_canonpath` and `strtok` get wrong.
-/

namespace KernelOld.Vfs
open LinkedList Strings List

def fsChardev : ℕ := 0x04

def fsBlkdev : ℕ := 0x08

def resolveLoop (finddir : ℕ → Str → Option ℕ) : TokenLoop ℕ (Option ℕ) where
  step node token :=
    match finddir node token with
    | none => some (.inr none)
    | some next => some (.inl next)
  finish node := some (some node)

def vfsResolvePath (new : ListT Str → ℕ) (rest : ℕ → UInt8) (flags : ℕ → ℕ)
    (finddir : ℕ → Str → Option ℕ) (tree : MountTree ℕ) (pathstr : Str) (workingDir : Option Str) :
    Option (Option ℕ) := do
  let path ← vfsMkCanonpath new rest pathstr workingDir
  let file ← vfsGetMountpoint tree (fun _ => 0) path
  let mount ← file
  if flags mount = fsBlkdev ∨ flags mount = fsChardev then some (some mount)
  else (resolveLoop finddir).runOn mount path (fun _ => 0) 1

variable {new : ListT Str → ℕ} {rest : ℕ → UInt8} {flags : ℕ → ℕ} {finddir : ℕ → Str → Option ℕ}
  {ms : List (Mount ℕ)} {cs : List Str} {path : Str} {working : Option Str} {dev : ℕ}

theorem feed_resolveLoop (node : ℕ) (hshort : ∀ c ∈ cs, c.length < 1000) :
    (resolveLoop finddir).feed node cs = some (cs.foldlM finddir node) := by
  induction cs generalizing node with
  | nil => rfl
  | cons c cs ih =>
    obtain ⟨hc, hrest⟩ := forall_mem_cons.mp hshort
    rw [TokenLoop.feed, if_pos hc, foldlM_cons]
    cases hfind : finddir node c with
    | none => simp [resolveLoop, hfind]
    | some next => simpa [resolveLoop, hfind] using ih next hrest

theorem vfsResolvePath_eq (hcanon : vfsMkCanonpath new rest path working = some (render cs))
    (hcs : ∀ c ∈ cs, Component c) (hshort : ∀ c ∈ cs, c.length < 1000) :
    vfsResolvePath new rest flags finddir (mountTree ms) path working =
      (table ms (cs.take (reach ms cs))).bind fun mount =>
        if flags mount = fsBlkdev ∨ flags mount = fsChardev then some (some mount)
        else some (cs.foldlM finddir mount) := by
  obtain ⟨u, -, hfile, hgood, -⟩ := vfsGetMountpoint_mountTree ms (fun _ => 0) rfl hcs
  have hlookup := hgood fun c hc => hshort c (mem_of_mem_take hc)
  have hwalk : ∀ mount, (resolveLoop finddir).runOn mount (render cs) (fun _ => 0) 1 =
      some (cs.foldlM finddir mount) := by
    intro mount
    rw [TokenLoop.runOn_eq (notMem_render hcs) rfl (Nat.succ_le_succ (Nat.zero_le _)),
      tokens_render hcs, feed_resolveLoop mount hshort]
  rw [vfsResolvePath, hcanon, ← hfile]
  simp only [Option.bind_eq_bind, Option.bind_some, hlookup, hwalk]

end KernelOld.Vfs
