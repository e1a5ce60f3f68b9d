/-
  Subject: THE IDS OF TASKS: the calls of kernel/syscall.c that set them, by any tasks in any order, and `sys_fork`.

  * `IdCall` -- the calls, with their results; `IdStep` -- one of them, a fork or the end of a task;
  * `root_iff` -- where no task is root, one becomes root if and only if some task calls `setreuid` with an effective
    id of 0: `setuid` and `setgid` ask for root, `setreuid` and `setregid` for nothing.

  `suid` and `sgid` are read by none of them and left out.
-/
import OreUnix.Proc.Exec
import OreUnix.Lib.Run

namespace OreUnix.Exec

open Function (update update_self update_of_ne)
open Lts

inductive IdCall where
  | setuid (uid : Nat)
  | setgid (gid : Nat)
  | setreuid (uid euid : Nat)
  | setregid (gid egid : Nat)

def IdCall.exec (c : Cred) : IdCall → Int × Cred
  | .setuid u => if c.euid = 0 then (0, { c with uid := u, euid := u }) else (-EPERM, c)
  | .setgid g => if c.euid = 0 then (0, { c with gid := g, egid := g }) else (-EPERM, c)
  | .setreuid u e => (0, { c with uid := u, euid := e })
  | .setregid g e => (0, { c with gid := g, egid := e })

/-- The ids of every task that is there. -/
abbrev Ids := Nat → Option Cred

inductive IdEvent where
  | call (c : IdCall)
  | fork (child : Nat)
  | exit

/-- Task `t` makes a call; a child has the ids of its parent. -/
inductive IdStep (s : Ids) : Nat × IdEvent → Ids → Prop
  | call {t : Nat} {c : Cred} (call : IdCall) (ht : s t = some c) :
      IdStep s (t, .call call) (update s t (some (call.exec c).2))
  | fork {t child : Nat} {c : Cred} (ht : s t = some c) (hnew : s child = none) :
      IdStep s (t, .fork child) (update s child (some c))
  | exit {t : Nat} : IdStep s (t, .exit) (update s t none)

def Rootless (s : Ids) : Prop := ∀ t c, s t = some c → c.euid ≠ 0

variable {s s' : Ids} {e : Nat × IdEvent} {es : List (Nat × IdEvent)} {t : Nat}

theorem Rootless.update {o : Option Cred} (h : Rootless s) (ho : ∀ c ∈ o, c.euid ≠ 0) : Rootless (update s t o) := by
  intro u c' hu
  by_cases hut : u = t
  · rw [hut, update_self] at hu
    exact ho c' hu
  · rw [update_of_ne hut] at hu
    exact h u c' hu

theorem Rootless.step (h : Rootless s) (hs : IdStep s e s') (hno : ∀ u, e.2 ≠ .call (.setreuid u 0)) : Rootless s' := by
  cases hs with
  | @call t c call ht =>
    have hc := h t c ht
    refine h.update ?_
    cases call with
    | setreuid u e =>
      rintro _ ⟨⟩ (rfl : e = 0)
      exact hno u rfl
    | _ => simp [IdCall.exec, hc]
  | fork ht hnew => exact h.update fun _ hc => h _ _ (ht.trans hc)
  | exit => exact h.update (by simp)

/-- **Who becomes root**: in a run from a state without root there is a state with one if and only if the run has a
    `setreuid` with an effective id of 0. -/
theorem root_iff (h : Rootless s) (hr : Run IdStep s es s') :
    (∃ es₁ es₂ v, es = es₁ ++ es₂ ∧ Run IdStep s es₁ v ∧ ¬ Rootless v) ↔
      ∃ t u, (t, .call (.setreuid u 0)) ∈ es := by
  constructor
  · rintro ⟨es₁, es₂, v, rfl, hr₁, hroot⟩
    by_contra hnone
    have hno : ∀ e ∈ es₁, ∀ u, e.2 ≠ .call (.setreuid u 0) := fun e he u heq =>
      hnone ⟨e.1, u, List.mem_append_left _ (heq ▸ he)⟩
    refine hroot ((hr₁.and_mem (P := fun _ e => ∀ u, e.2 ≠ .call (.setreuid u 0)) fun _ => hno).invariant
      (I := Rootless) (fun _ _ _ h hs => h.step hs.2 hs.1) h)
  · rintro ⟨t, u, hmem⟩
    obtain ⟨as, bs, rfl⟩ := List.append_of_mem hmem
    obtain ⟨v, hra, hrb⟩ := hr.split
    cases hrb with
    | @cons _ v' _ _ _ hs _ =>
      refine ⟨as ++ [(t, .call (.setreuid u 0))], bs, v', by simp, hra.snoc hs, fun hno => ?_⟩
      cases hs with
      | call call ht => exact hno t _ (update_self ..) rfl

/-- Task 1 asks for root with `setuid` and is refused; its child asks with `setreuid`. -/
theorem root_iff_child : ∃ s s' : Ids, ∃ es, Rootless s ∧ Run IdStep s es s' ∧
    ∃ es₁ es₂ v, es = es₁ ++ es₂ ∧ Run IdStep s es₁ v ∧ ¬ Rootless v := by
  have h : Rootless (update (fun _ => none) 1 (some ⟨1000, 1000, 100, 100⟩)) :=
    Rootless.update (fun _ _ => by simp) (by simp)
  have hr : Run IdStep (update (fun _ => none) 1 (some ⟨1000, 1000, 100, 100⟩))
      [(1, .call (.setuid 0)), (1, .fork 2), (2, .call (.setreuid 1000 0))] _ :=
    .cons (.call (.setuid 0) rfl) (.cons (.fork (update_self ..) rfl) (.cons (.call _ (update_self ..)) (.nil _)))
  exact ⟨_, _, _, h, hr, (root_iff h hr).mpr ⟨2, 1000, .tail _ (.tail _ (.head _))⟩⟩

end OreUnix.Exec
