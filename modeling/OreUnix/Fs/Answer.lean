/-
  Subject: WHAT A LOOKUP ANSWERS: path resolution with the errors of `vfs_lookup`.

  * `answer` -- the dentry a path names or the error code, as a function of the tree and of the next allocation; no
    answer where the source recurses without end or overruns a buffer;
  * `resolve_answer` -- `resolve` is the dentry of the answer;
  * `answer_error` -- no error code is 0.

  That `vfs_lookup` gives this answer is the subject of LookupSpec.lean.
-/
import OreUnix.Fs.Lookup

namespace OreUnix.Vfs

/-! ## 1. Answers -/

/-- The dentry or the error, if there is an answer. -/
abbrev Answer := Option (Except Int Nat)

def Answer.dentry (a : Answer) : Option Nat := a.bind Except.toOption

/-- An error is the end, a dentry is where it goes on. -/
def Answer.andThen (a : Answer) (k : Nat → Answer) : Answer :=
  match a with
  | none => none
  | some (.error e) => some (.error e)
  | some (.ok d) => k d

def answerWith (s : Fs) (go : Nat → Str → Answer) (path : Str) (cwd : Option Nat) : Answer :=
  if path = [] then some (.error (-EINVAL))
  else (startOf s path cwd).bind fun d => go d path

/-- What a symlink leads to, for the rest of a path. -/
def answerTarget (s : Fs) (go : Nat → Str → Answer) (x : Dentry) (y : Inode) (rest : Str) : Answer :=
  if y.ops = none then some (.error (-EINVAL))
  else y.priv.bind fun ri =>
    match ri.symlinkTarget with
    | none => some (.error (-EINVAL))
    | some t => (answerWith s go (t.take (pathMax - 1)) x.parent).andThen fun lde => go lde rest

def answerLink (s : Fs) (go : Nat → Str → Answer) (de : Nat) (rest : Str) : Answer :=
  (s.dentries de).bind fun x =>
    match x.inode with
    | none => go de rest
    | some i => (s.inodes i).bind fun y =>
      if isLnk y.mode ∧ rest ≠ [] then answerTarget s go x y rest else go de rest

/-- A name that is not among the children: a dentry is allocated for it all the same. -/
def notThere (s : Fs) : Int := if s.oracle.headD true then -ENOENT else -ENOMEM

def answerInto (s : Fs) (go : Nat → Str → Answer) (de : Nat) (component rest : Str) : Answer :=
  (s.dentries de).bind fun x =>
    match x.inode with
    | none => some (.error (-ENOENT))
    | some i => (s.inodes i).bind fun y =>
      if isDir y.mode then
        match childNamed s component x.children with
        | none => some (.error (notThere s))
        | some c => answerLink s go c rest
      else some (.error (-ENOTDIR))

/-- The directory above, or the dentry itself. -/
def above (x : Dentry) (de : Nat) : Nat := x.parent.getD de

def answerFrom (s : Fs) : Nat → Nat → Str → Answer
  | 0, _, _ => none
  | fuel + 1, de, path =>
    match nextComponent path with
    | none => some (.ok de)
    | some (component, rest) =>
      if component.length > nameMax then none
      else if component = dot then answerFrom s fuel de rest
      else if component = dotdot then (s.dentries de).bind fun x => answerFrom s fuel (above x de) rest
      else answerInto s (answerFrom s fuel) de component rest

/-- The answer to a lookup of `path`. -/
def answer (s : Fs) (fuel : Nat) (path : Str) (cwd : Option Nat) : Answer := answerWith s (answerFrom s fuel) path cwd

section Answers

variable {s : Fs} {go go' : Nat → Str → Answer} {path rest component : Str} {cwd : Option Nat}
    {de d fuel : Nat} {x : Dentry}
  {y : Inode} {e : Int}

/-! ## 2. `resolve` is the dentry of the answer -/

theorem dentry_andThen (a : Answer) (k : Nat → Answer) :
    (a.andThen k).dentry = a.dentry.bind fun d => (k d).dentry := by
  rcases a with _ | ⟨e⟩ | ⟨d⟩ <;> rfl

theorem resolveWith_answer :
    resolveWith s (fun d p => (go d p).dentry) path cwd = (answerWith s go path cwd).dentry := by
  unfold resolveWith answerWith
  by_cases hp : path = []
  · rw [if_pos hp, if_pos hp]
    rfl
  · rw [if_neg hp, if_neg hp]
    cases startOf s path cwd <;> rfl

theorem resolveTarget_answer :
    resolveTarget s (fun d p => (go d p).dentry) x y rest = (answerTarget s go x y rest).dentry := by
  unfold resolveTarget answerTarget
  cases hops : y.ops with
  | none => rfl
  | some o =>
    rw [if_neg (Option.some_ne_none o)]
    cases hri : y.priv with
    | none => rfl
    | some ri =>
      simp only [Option.bind_eq_bind, Option.bind_some]
      cases hst : ri.symlinkTarget with
      | none => rfl
      | some t =>
        rw [dentry_andThen, ← resolveWith_answer]
        rfl

theorem resolveLink_answer : resolveLink s (fun d p => (go d p).dentry) de rest = (answerLink s go de rest).dentry := by
  unfold resolveLink answerLink
  cases hx : s.dentries de with
  | none => rfl
  | some x =>
    simp only [Option.bind_eq_bind, Option.bind_some]
    cases hi : x.inode with
    | none => rfl
    | some i =>
      dsimp only
      cases hy : s.inodes i with
      | none => rfl
      | some y =>
        simp only [Option.bind_some]
        split
        · exact resolveTarget_answer
        · rfl

theorem resolveInto_answer :
    resolveInto s (fun d p => (go d p).dentry) de component rest = (answerInto s go de component rest).dentry := by
  unfold resolveInto answerInto
  cases hx : s.dentries de with
  | none => rfl
  | some x =>
    simp only [Option.bind_eq_bind, Option.bind_some]
    cases hi : x.inode with
    | none => rfl
    | some i =>
      simp only [Option.bind_some]
      cases hy : s.inodes i with
      | none => rfl
      | some y =>
        simp only [Option.bind_some]
        split
        · cases hc : childNamed s component x.children with
          | none => rfl
          | some c => exact resolveLink_answer
        · rfl

theorem resolveFrom_answer : resolveFrom s fuel de path = (answerFrom s fuel de path).dentry := by
  induction fuel generalizing de path with
  | zero => rfl
  | succ fuel ih =>
    have hgo : resolveFrom s fuel = fun d p => (answerFrom s fuel d p).dentry := funext fun d => funext fun p => ih
    rw [resolveFrom, answerFrom]
    cases nextComponent path with
    | none => rfl
    | some cr =>
      obtain ⟨component, rest⟩ := cr
      dsimp only
      split
      · rfl
      split
      · exact ih
      split
      · cases hx : s.dentries de with
        | none => rfl
        | some x =>
          simp only [Option.bind_eq_bind, Option.bind_some, above]
          cases x.parent with
          | none => exact ih
          | some p => exact ih
      · rw [hgo]
        exact resolveInto_answer

/-- **`resolve` is the dentry of the answer.** -/
theorem resolve_answer : resolve s fuel path cwd = (answer s fuel path cwd).dentry := by
  have hgo : resolveFrom s fuel = fun d p => (answerFrom s fuel d p).dentry :=
    funext fun d => funext fun p => resolveFrom_answer
  rw [resolve, hgo]
  exact resolveWith_answer

/-! ## 3. Errors -/

/-- No answer is the error 0. -/
def Errs (go : Nat → Str → Answer) : Prop := ∀ d p e, go d p = some (.error e) → e ≠ 0

theorem notThere_ne (s : Fs) : notThere s ≠ 0 := by
  unfold notThere
  split <;> decide

theorem answerWith_error (hgo : Errs go) (h : answerWith s go path cwd = some (.error e)) : e ≠ 0 := by
  unfold answerWith at h
  split at h
  · cases h
    decide
  · obtain ⟨d, _, h⟩ := Option.bind_eq_some_iff.mp h
    exact hgo _ _ _ h

theorem answerTarget_error (hgo : Errs go) (h : answerTarget s go x y rest = some (.error e)) : e ≠ 0 := by
  unfold answerTarget at h
  split at h
  · cases h
    decide
  · obtain ⟨ri, _, h⟩ := Option.bind_eq_some_iff.mp h
    split at h
    · cases h
      decide
    · rename_i t _
      cases hw : answerWith s go (t.take (pathMax - 1)) x.parent with
      | none =>
        rw [hw] at h
        cases h
      | some b =>
        rw [hw] at h
        cases b with
        | error e' =>
          cases h
          exact answerWith_error hgo hw
        | ok lde => exact hgo _ _ _ h

theorem answerLink_error (hgo : Errs go) (h : answerLink s go de rest = some (.error e)) : e ≠ 0 := by
  unfold answerLink at h
  obtain ⟨x, _, h⟩ := Option.bind_eq_some_iff.mp h
  split at h
  · exact hgo _ _ _ h
  · obtain ⟨y, _, h⟩ := Option.bind_eq_some_iff.mp h
    split at h
    · exact answerTarget_error hgo h
    · exact hgo _ _ _ h

theorem answerInto_error (hgo : Errs go) (h : answerInto s go de component rest = some (.error e)) : e ≠ 0 := by
  unfold answerInto at h
  obtain ⟨x, _, h⟩ := Option.bind_eq_some_iff.mp h
  split at h
  · cases h
    decide
  · obtain ⟨y, _, h⟩ := Option.bind_eq_some_iff.mp h
    split at h
    · split at h
      · cases h
        exact notThere_ne s
      · exact answerLink_error hgo h
    · cases h
      decide

theorem answerFrom_error : Errs (answerFrom s fuel) := by
  induction fuel with
  | zero => exact fun _ _ _ h => nomatch h
  | succ fuel ih =>
    intro d p e h
    rw [answerFrom] at h
    split at h
    · cases h
    · split at h
      · cases h
      split at h
      · exact ih _ _ _ h
      split at h
      · obtain ⟨x, _, h⟩ := Option.bind_eq_some_iff.mp h
        exact ih _ _ _ h
      · exact answerInto_error ih h

/-- **No error code is 0.** -/
theorem answer_error (h : answer s fuel path cwd = some (.error e)) : e ≠ 0 := answerWith_error answerFrom_error h

end Answers

end OreUnix.Vfs
