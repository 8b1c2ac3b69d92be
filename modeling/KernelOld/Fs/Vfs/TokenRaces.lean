import Mathlib.Logic.Function.Basic
import Mathlib.Logic.Relation
import KernelOld.Fs.Vfs.Path

/-!
# Token loops on several CPUs

`strtok` keeps its position in the static variable `olds`, which all CPUs share. Here any number
of CPUs each run a token loop on a string of their own, and one step is one call of `strtok` with
what the loop does up to the next call.
-/

namespace KernelOld.Vfs
open Strings LinkedList Relation

/-- Before the first call, before a later one, or at the end with the result or an error. -/
inductive Phase (σ ρ : Type) where
  | first (st : σ) (s : Ptr)
  | next (st : σ)
  | done (result : Option ρ)

/-- A loop over tokens, and the tokens that it got. -/
structure Cpu (σ ρ : Type) where
  phase : Phase σ ρ
  got : List (Option Str)

section
variable {σ ρ : Type} (L : TokenLoop σ ρ)

def Cpu.Running (cpu : Cpu σ ρ) : Prop := ∀ r, cpu.phase ≠ .done r

/-- What follows a call of `strtok`. If it fails, `olds` has the value `pos`. -/
def Cpu.proceed (cpu : Cpu σ ρ) (st : σ) (pos : Option Ptr) :
    Option (Option Str × Option Ptr) → Cpu σ ρ × Option Ptr
  | none => ({ cpu with phase := .done none }, pos)
  | some (none, olds) => (⟨.done (L.finish st), cpu.got ++ [none]⟩, olds)
  | some (some t, olds) =>
    match L.step st t with
    | none => (⟨.done none, cpu.got ++ [some t]⟩, olds)
    | some (.inl st) => (⟨.next st, cpu.got ++ [some t]⟩, olds)
    | some (.inr r) => (⟨.done (some r), cpu.got ++ [some t]⟩, olds)

def Cpu.call (cpu : Cpu σ ρ) (olds : Option Ptr) : Cpu σ ρ × Option Ptr :=
  match cpu.phase with
  | .first st s => cpu.proceed L st (some s) (strtok (some s) olds)
  | .next st => cpu.proceed L st olds (strtok none olds)
  | .done _ => (cpu, olds)

def alone (st : σ) (s : Ptr) : ℕ → Cpu σ ρ × Option Ptr
  | 0 => (⟨.first st s, []⟩, none)
  | n + 1 => (alone st s n).1.call L (alone st s n).2

end

/-- All of them use the one `olds` of `strtok`. -/
structure Cpus (κ : Type) (σ ρ : κ → Type) where
  cpu : ∀ c, Cpu (σ c) (ρ c)
  olds : Option Ptr
  last : Option κ

section
variable {κ : Type} [DecidableEq κ] {σ ρ : κ → Type} (L : ∀ c, TokenLoop (σ c) (ρ c))

def Cpus.start (st : ∀ c, σ c) (s : κ → Ptr) (olds : Option Ptr) : Cpus κ σ ρ :=
  ⟨fun c => ⟨.first (st c) (s c), []⟩, olds, none⟩

def Cpus.call (w : Cpus κ σ ρ) (c : κ) : Cpus κ σ ρ where
  cpu := Function.update w.cpu c ((w.cpu c).call (L c) w.olds).1
  olds := ((w.cpu c).call (L c) w.olds).2
  last := some c

/-- A call with a null pointer comes right after a call of the same CPU. -/
def Follows (w : Cpus κ σ ρ) (c : κ) : Prop := ∀ st, (w.cpu c).phase = .next st → w.last = some c

/-- One of the CPUs makes its next call. -/
inductive CallStep (admits : Cpus κ σ ρ → κ → Prop) (w : Cpus κ σ ρ) : Cpus κ σ ρ → Prop
  | call (c : κ) (hrun : (w.cpu c).Running) (hadmits : admits w c) :
    CallStep admits w (w.call L c)

end

section
variable {σ ρ : Type} {L : TokenLoop σ ρ} {cpu : Cpu σ ρ} {st : σ} {s : Ptr}
  {p pos olds : Option Ptr}

theorem Cpu.proceed_run (cpu : Cpu σ ρ) (st : σ) (p pos olds : Option Ptr) :
    (∃ r, (cpu.proceed L st pos (strtok p olds)).1.phase = .done r ∧
        ∀ k, L.run (k + 1) st p olds = r) ∨
      ∃ st', (cpu.proceed L st pos (strtok p olds)).1.phase = .next st' ∧
        ∀ k, L.run (k + 1) st p olds =
          L.run k st' none (cpu.proceed L st pos (strtok p olds)).2 := by
  simp only [TokenLoop.run]
  obtain _ | ⟨_ | t, olds'⟩ := strtok p olds
  · exact Or.inl ⟨none, rfl, fun _ => rfl⟩
  · exact Or.inl ⟨L.finish st, rfl, fun _ => rfl⟩
  · simp only [Cpu.proceed, Option.bind_eq_bind, Option.bind_some]
    obtain _ | st' | r := L.step st t
    · exact Or.inl ⟨none, rfl, fun _ => rfl⟩
    · exact Or.inr ⟨st', rfl, fun _ => rfl⟩
    · exact Or.inl ⟨some r, rfl, fun _ => rfl⟩

def Tracks (L : TokenLoop σ ρ) (st : σ) (s : Ptr) (n : ℕ) (x : Cpu σ ρ × Option Ptr) : Prop :=
  match x.1.phase with
  | .first st' s' => n = 0 ∧ st' = st ∧ s' = s
  | .next st' => ∀ k, L.run (n + k) st (some s) none = L.run k st' none x.2
  | .done r => ∀ k, L.run (n + k) st (some s) none = r

theorem tracks_proceed {n : ℕ} (st' : σ)
    (h : ∀ k, L.run (n + (k + 1)) st (some s) none = L.run (k + 1) st' p olds) :
    Tracks L st s (n + 1) (cpu.proceed L st' pos (strtok p olds)) := by
  rw [Tracks]
  obtain ⟨r, hphase, hrun⟩ | ⟨st'', hphase, hrun⟩ := cpu.proceed_run st' p pos olds
  · rw [hphase]
    intro k
    rw [Nat.add_assoc, Nat.add_comm 1 k, h, hrun]
  · rw [hphase]
    intro k
    rw [Nat.add_assoc, Nat.add_comm 1 k, h, hrun]

theorem tracks_alone (L : TokenLoop σ ρ) (st : σ) (s : Ptr) (n : ℕ) :
    Tracks L st s n (alone L st s n) := by
  induction n with
  | zero => exact ⟨rfl, rfl, rfl⟩
  | succ n ih =>
    rw [alone, Cpu.call]
    rw [Tracks] at ih
    cases hphase : (alone L st s n).1.phase with
    | first st' s' =>
      rw [hphase] at ih
      obtain ⟨rfl, rfl, rfl⟩ := ih
      refine tracks_proceed st' fun k => ?_
      rw [Nat.zero_add]
      rfl
    | next st' =>
      rw [hphase] at ih
      exact tracks_proceed st' fun k => ih (k + 1)
    | done r =>
      rw [hphase] at ih
      rw [Tracks, hphase]
      intro k
      rw [Nat.add_assoc]
      exact ih (1 + k)

theorem Cpu.call_first (h : cpu.phase = .first st s) (olds olds' : Option Ptr) :
    cpu.call L olds = cpu.call L olds' := by
  rw [Cpu.call, Cpu.call, h]
  rfl

end

section
variable {κ : Type} [DecidableEq κ] {σ ρ : κ → Type} {L : ∀ c, TokenLoop (σ c) (ρ c)}
  {st : ∀ c, σ c} {s : κ → Ptr} {w w' : Cpus κ σ ρ} {c d : κ}

/-- The CPU is where it would be alone, and so is `olds` if the last call was its own. -/
def Own (L : ∀ c, TokenLoop (σ c) (ρ c)) (st : ∀ c, σ c) (s : κ → Ptr) (w : Cpus κ σ ρ) (c : κ) :
    Prop :=
  ∃ n, w.cpu c = (alone (L c) (st c) (s c) n).1 ∧
    (w.last = some c → w.olds = (alone (L c) (st c) (s c) n).2)

theorem Own.call_self (h : Own L st s w c) (hrun : (w.cpu c).Running) (hfollows : Follows w c) :
    Own L st s (w.call L c) c := by
  obtain ⟨n, hcpu, holds⟩ := h
  have hcall : (w.cpu c).call (L c) w.olds = alone (L c) (st c) (s c) (n + 1) := by
    rw [alone, ← hcpu]
    cases hphase : (w.cpu c).phase with
    | first st' s' => exact Cpu.call_first hphase ..
    | next st' => rw [holds (hfollows st' hphase)]
    | done r => exact absurd hphase (hrun r)
  refine ⟨n + 1, ?_, fun _ => ?_⟩
  · rw [← hcall]
    exact Function.update_self ..
  · rw [← hcall]
    rfl

theorem Own.call_other (h : Own L st s w d) (hne : d ≠ c) : Own L st s (w.call L c) d := by
  obtain ⟨n, hcpu, -⟩ := h
  refine ⟨n, ?_, fun hlast => absurd (Option.some.inj hlast).symm hne⟩
  rw [← hcpu]
  exact Function.update_of_ne hne ..

theorem Own.step (h : ∀ d, Own L st s w d) (hstep : CallStep L Follows w w') (d : κ) :
    Own L st s w' d := by
  obtain ⟨c, hrun, hfollows⟩ := hstep
  by_cases hd : d = c
  · subst hd
    exact (h d).call_self hrun hfollows
  · exact (h d).call_other hd

theorem own_of_run {olds : Option Ptr}
    (hrun : ReflTransGen (CallStep L Follows) (Cpus.start st s olds) w) (d : κ) :
    Own L st s w d := by
  induction hrun generalizing d with
  | refl => exact ⟨0, rfl, fun h => nomatch h⟩
  | tail _ hstep ih => exact Own.step ih hstep d

/-- In a run in which nobody calls `strtok` between two calls of one loop, each CPU has got what it
gets alone, and its result is that of the loop alone. -/
theorem tokens_undisturbed {olds : Option Ptr}
    (hrun : ReflTransGen (CallStep L Follows) (Cpus.start st s olds) w) (c : κ) :
    ∃ n, w.cpu c = (alone (L c) (st c) (s c) n).1 ∧
      ∀ r, (w.cpu c).phase = .done r →
        ∀ k, (L c).run (n + k) (st c) (some (s c)) none = r := by
  obtain ⟨n, hcpu, -⟩ := own_of_run hrun c
  refine ⟨n, hcpu, fun r hdone => ?_⟩
  have htracks := tracks_alone (L c) (st c) (s c) n
  rw [hcpu] at hdone
  rw [Tracks, hdone] at htracks
  exact htracks

end

def twoStrings (c : Fin 2) : Ptr :=
  ⟨cbuf (if c = 0 then [97, 47, 98] else [99, 47, 100]) fun _ => 0, 0⟩

def twoLoops (_ : Fin 2) : TokenLoop Canon Str := canonLoop fun l => l.cnt + 1

def twoPaths : Cpus (Fin 2) (fun _ => Canon) (fun _ => Str) :=
  .start (fun _ => ⟨listCreate, 1⟩) twoStrings none

theorem tokens_undisturbed_two :
    ∃ w, ReflTransGen (CallStep twoLoops Follows) twoPaths w ∧
      ∃ n, w.cpu 0 = (alone (twoLoops 0) ⟨listCreate, 1⟩ (twoStrings 0) n).1 := by
  have hrun : ReflTransGen (CallStep twoLoops Follows) twoPaths
      (((twoPaths.call twoLoops 0).call twoLoops 0).call twoLoops 1) := by
    refine .tail (.tail (.single (.call 0 ?_ ?_)) (.call 0 ?_ ?_)) (.call 1 ?_ ?_)
    · exact fun r h => nomatch h
    · exact fun st h => nomatch h
    · exact fun r h => nomatch h
    · exact fun _ _ => rfl
    · exact fun r h => nomatch h
    · exact fun st h => nomatch h
  obtain ⟨n, hn, -⟩ := tokens_undisturbed hrun 0
  exact ⟨_, hrun, n, hn⟩

/-- The CPU 1 starts between two calls of the CPU 0, which then gets the token `d` instead of `b`
and the path `/a/d`. -/
theorem tokens_mixed :
    ∃ w, ReflTransGen (CallStep twoLoops fun _ _ => True) twoPaths w ∧
      w.cpu 0 = ⟨.done (some [47, 97, 47, 100]), [some [97], some [100], none]⟩ ∧
      (alone (twoLoops 0) ⟨listCreate, 1⟩ (twoStrings 0) 3).1 =
        ⟨.done (some [47, 97, 47, 98]), [some [97], some [98], none]⟩ := by
  refine ⟨_, .tail (.tail (.tail (.single (.call 0 ?_ trivial)) (.call 1 ?_ trivial))
    (.call 0 ?_ trivial)) (.call 0 ?_ trivial), ?_, ?_⟩
  · exact fun r h => nomatch h
  · exact fun r h => nomatch h
  · exact fun r h => nomatch h
  · exact fun r h => nomatch h
  · rfl
  · rfl

end KernelOld.Vfs
