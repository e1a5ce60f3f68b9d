/-
  Subject: THE CLOSE-ON-EXEC BITS: a bitmap beside the array of descriptors.

  * `Reslotted`, `Grown` -- what a call does to the descriptors, with the bits left alone; one rule for each call;
  * `Event.flags` -- the flag each descriptor should have: what F_SETFD set last since the descriptor was made, a copy
    of the parent's for an inherited one;
  * `flags_of_tidy_run` -- the bits are those flags as long as no marked descriptor is closed, replaced or inherited;
    then `exec` closes the marked ones and no others;
  * `reopened_starts_marked` -- nothing else clears a bit: a descriptor opened where a marked one was closed is
    marked.

  What the calls do to files, dentries and pipes is in References.lean; here a call may stop in any way.
-/
import OreUnix.Fs.References

namespace OreUnix.Fd

open Tally Wp Lts
open Vfs (Crash)
open Function (update update_of_ne update_self update_apply update_idem)

variable {s s' s'' : State} {f d i p q : Nat} {fd : Int}
variable {b : Nat → Bool} {e : Event} {is : List Nat} {o : Option Nat}

/-! ## 1. Calls and descriptors -/

/-- Whatever ends a call. -/
abbrev Lax : Crash → Prop := fun _ => True

theorem wp_lax {α : Type} {m : M α} {E : Crash → Prop} {Q : α → State → Prop} (h : wp E m Q s) : wp Lax m Q s :=
  wp_mono h (fun _ _ hq => hq) fun _ _ => trivial

/-- The call leaves the tables alone. -/
def Untabled {α : Type} (m : M α) : Prop := ∀ s, wp Lax m (fun _ s' => s'.tables = s.tables) s

theorem Untabled.pure {α : Type} (a : α) : Untabled (pure a : M α) := fun _ => rfl

theorem Untabled.throw {α : Type} (c : Crash) : Untabled (throw c : M α) := fun _ => trivial

theorem Untabled.modify {g : State → State} (h : ∀ s, (g s).tables = s.tables) : Untabled (modify g) := h

theorem Untabled.get : Untabled (get : M State) := fun _ => rfl

theorem Untabled.bind {α β : Type} {m : M α} {k : α → M β} (hm : Untabled m) (hk : ∀ a, Untabled (k a)) :
    Untabled (m >>= k) := by
  intro s
  refine wp_seq (hm s) fun a s1 h1 => ?_
  exact wp_imp (hk a s1) fun _ s2 h2 => h2.trans h1

theorem Untabled.getFile (f : Nat) : Untabled (getFile f) := by
  intro s
  unfold wp Fd.getFile
  by_cases hf : (s.files f).live = true
  · simp only [if_pos hf]
  · simp only [if_neg hf]
    trivial

theorem Untabled.setFile (f : Nat) (c : Cell File) : Untabled (setFile f c) := .modify fun _ => rfl

theorem inodePut_tables (s : State) (i : Nat) : (s.inodePut i).tables = s.tables := by rw [inodePut_eq]

theorem dentryPut_tables (s : State) (d : Nat) : (s.dentryPut d).tables = s.tables := by
  obtain ⟨D, I, heq, _⟩ := dentryPut_keeps s d
  rw [heq]

theorem Untabled.pipeRelease (close : Fs.Pipe → Fs.Pipe) (x : File) : Untabled (pipeRelease close x) := by
  intro s
  unfold Fd.pipeRelease
  refine wp_get_then ?_
  cases (s.dentries x.dentry).val.inode with
  | none => trivial
  | some i =>
    dsimp only
    cases (s.inodes i).val.priv with
    | none => trivial
    | some q =>
      refine (wp_set ..).mpr ?_
      split
      · rfl
      · rfl

theorem Untabled.release (f : Nat) (x : File) : Untabled (release f x) := by
  have hlog : Untabled (modifyGet fun s : State => ((), { s with released := s.released ++ [f] })) :=
      .modify fun _ => rfl
  rw [Fd.release]
  cases x.ops with
  | pipeRead => exact .bind hlog fun _ => .pipeRelease _ x
  | pipeWrite => exact .bind hlog fun _ => .pipeRelease _ x
  | ramfs => exact .bind hlog fun _ => .pure _
  | other => exact fun _ => rfl

theorem Untabled.filePut (f : Nat) : Untabled (filePut f) := by
  refine .bind (.getFile f) fun x => ?_
  split
  · refine .bind (.getFile f) fun x => .bind (.release f x) fun _ => .bind ?_ fun _ => .setFile f _
    exact .modify fun s => dentryPut_tables s x.dentry
  · exact .setFile f _

theorem Untabled.fileGet (f : Nat) : Untabled (fileGet f) := .bind (.getFile f) fun _ => .setFile f _

theorem Untabled.fileAlloc (d : Nat) (ops : FileOps) (pipe : Nat) : Untabled (fileAlloc d ops pipe) := fun _ => rfl

theorem Untabled.openDentry (target : Target) : Untabled (openDentry target) := by
  induction target with
  | missing => exact .pure _
  | found d => exact .bind (.modify fun _ => rfl) fun _ => .pure _
  | existing d => exact .pure _
  | created d i ok =>
    refine .bind (.modify fun _ => rfl) fun _ => ?_
    cases ok with
    | true => exact .bind (.modify fun _ => rfl) fun _ => .pure _
    | false => exact .bind (.modify fun s => dentryPut_tables s d) fun _ => .pure _
  | through m r rest ih => exact .bind (.modify fun s => dentryPut_tables (s.dentryGet m) r) fun _ => ih

theorem Untabled.vfsOpen (target : Target) (refused ok : Bool) : Untabled (vfsOpen target refused ok) := by
  refine .bind (.openDentry target) fun o => ?_
  cases o with
  | none => exact .pure _
  | some d =>
    refine .bind .get fun s => ?_
    have hput : Untabled (modifyGet fun s : State => ((), s.dentryPut d)) := .modify fun s => dentryPut_tables s d
    cases (s.dentries d).val.inode with
    | none => exact .bind hput fun _ => .pure _
    | some i =>
      dsimp only
      split
      · exact .bind hput fun _ => .pure _
      · exact .bind (.fileAlloc _ _ _) fun _ => .pure _

theorem Untabled.vfsPipe (inode rde wde : Option Nat) (rf wf : Bool) : Untabled (vfsPipe inode rde wde rf wf) := by
  cases inode with
  | none => exact .pure _
  | some i =>
    refine .bind .get fun s => .bind (.modify fun _ => rfl) fun _ => ?_
    split
    · refine .bind (.modify fun _ => rfl) fun _ => .bind (.fileAlloc _ _ _) fun r =>
        .bind (.modify fun _ => rfl) fun _ => ?_
      refine .bind (.fileAlloc _ _ _) fun w => .bind ?_ fun _ => .pure _
      exact .modify fun s => inodePut_tables s i
    · exact .throw _

/-! ## 2. What a call does to the descriptors -/

/-- The close-on-exec bits of a process. -/
def bits (s : State) (p : Nat) : Option (Nat → Bool) := (s.tables p).map Table.closeOnExec

/-- The bits are the same and the descriptors are `v`. -/
structure Reslotted (v : Nat × Nat → Option Nat) (s s' : State) : Prop where
  sameBits : ∀ q, bits s' q = bits s q
  newSlots : slots s' = v

theorem Reslotted.refl (s : State) : Reslotted (slots s) s s := ⟨fun _ => rfl, rfl⟩

theorem Reslotted.of_tables (h : s'.tables = s.tables) : Reslotted (slots s) s s' := by
  refine ⟨fun q => by rw [bits, bits, h], ?_⟩
  funext x
  rw [slots, slots, slot, slot, h]

theorem Reslotted.trans {v v' : Nat × Nat → Option Nat} (h : Reslotted v s s') (h' : Reslotted v' s' s'') :
    Reslotted v' s s'' :=
  ⟨fun q => (h'.sameBits q).trans (h.sameBits q), h'.newSlots⟩

theorem wp_untabled {α β : Type} {m : M α} {k : α → M β} {Q : β → State → Prop} (hm : Untabled m)
    (hk : ∀ a s', Reslotted (slots s) s s' → wp Lax (k a) Q s') : wp Lax (m >>= k) Q s :=
  wp_seq (hm s) fun a s' h => hk a s' (.of_tables h)

theorem wp_setFd_slots (hi : i < openMax) :
    wp Lax (setFd p i o) (fun _ s' => Reslotted (update (slots s) (p, i) o) s s') s := by
  have hslots := wp_setFd (s := s) (p := p) (o := o) hi (Q := fun _ s' => slots s' = update (slots s) (p, i) o)
    fun T _ h => h
  have hbits : wp Lax (setFd p i o) (fun _ s' => ∀ q, bits s' q = bits s q) s := by
    refine wp_then (wp_lax (wp_fdArray fun fd hfd => (wp_modify ..).mpr fun q => ?_))
    obtain ⟨t, ht, _⟩ := Option.bind_eq_some_iff.mp hfd
    change (update s.tables p _ q).map Table.closeOnExec = (s.tables q).map Table.closeOnExec
    by_cases hq : q = p
    · simp [hq, ht]
    · simp [hq]
  exact wp_mono (wp_and hslots hbits) (fun _ _ h => ⟨h.2, h.1⟩) fun _ _ => trivial

theorem wp_freeSlot_slots (hi : i < openMax) :
    wp Lax (freeSlot p i) (fun _ s' => Reslotted (update (slots s) (p, i) none) s s') s := by
  refine wp_then (wp_lax (wp_fdArray fun fd hfd => ?_))
  have hslot : slot s p i = fd i := slot_eq hfd hi
  cases hf : fd i with
  | none =>
    refine (wp_pure ..).mpr ⟨fun _ => rfl, ?_⟩
    rw [eq_comm, Function.update_eq_self_iff]
    exact (hslot.trans hf).symm
  | some f =>
    refine wp_untabled (.filePut f) fun _ s1 h1 => ?_
    refine wp_imp (wp_setFd_slots hi) fun _ s2 h2 => ?_
    rw [h1.newSlots] at h2
    exact h1.trans h2

/-- New descriptors of one process at places that were free. -/
structure Grown (p : Nat) (s s' : State) : Prop where
  sameBits : ∀ q, bits s' q = bits s q
  kept : ∀ q i, q ≠ p ∨ slot s q i ≠ none → slot s' q i = slot s q i

theorem Reslotted.grown (h : Reslotted (slots s) s s') : Grown p s s' :=
  ⟨h.sameBits, fun q i _ => congrFun h.newSlots (q, i)⟩

theorem Grown.trans (h : Grown p s s') (h' : Grown p s' s'') : Grown p s s'' := by
  refine ⟨fun q => (h'.sameBits q).trans (h.sameBits q), fun q i hq => ?_⟩
  have hone := h.kept q i hq
  rw [h'.kept q i (hone.symm ▸ hq), hone]

/-- A descriptor is put into a free place. -/
theorem Reslotted.filled (hfree : slot s p i = none) (h : Reslotted (update (slots s) (p, i) o) s s') :
    Grown p s s' := by
  refine ⟨h.sameBits, fun q j hq => ?_⟩
  have hat := congrFun h.newSlots (q, j)
  rw [update_apply] at hat
  refine hat.trans (if_neg fun heq => ?_)
  obtain ⟨rfl, rfl⟩ := Prod.mk.inj heq
  rcases hq with hq | hq
  · exact hq rfl
  · exact hq hfree

theorem wp_installed (hi : i < openMax) (hfree : slot s p i = none) (f : Nat) (r : Int) :
    wp Lax (do setFd p i (some f); pure r) (fun _ s' => Grown p s s') s :=
  wp_seq (wp_setFd_slots hi) fun _ _ h => (wp_pure ..).mpr (h.filled hfree)

theorem wp_grown {α : Type} {m : M α} (h : Grown p s s') (hm : wp Lax m (fun _ s'' => Grown p s' s'') s') :
    wp Lax m (fun _ s'' => Grown p s s'') s' :=
  wp_imp hm fun _ _ h' => h.trans h'

theorem wp_sysOpen_grown (p : Nat) (target : Target) (refused ok : Bool) :
    wp Lax (sysOpen p target refused ok) (fun _ s' => Grown p s s') s := by
  refine wp_untabled (.vfsOpen target refused ok) fun o s1 h1 => wp_grown h1.grown ?_
  cases o with
  | none => exact (Reslotted.refl s1).grown
  | some f =>
    refine wp_then (wp_lax (wp_filesAllocFd ?_ fun i hi hfree _ => ?_))
    · exact wp_untabled (.filePut f) fun _ s2 h2 => (wp_pure ..).mpr h2.grown
    · exact wp_installed hi hfree f i

theorem wp_sysDup_grown (p : Nat) (fd : Int) : wp Lax (sysDup p fd) (fun _ s' => Grown p s s') s := by
  have hsame := (Reslotted.refl s).grown (p := p)
  refine wp_then (wp_lax (wp_fdToFile hsame fun f _ _ _ => ?_))
  refine wp_then (wp_lax (wp_filesAllocFd hsame fun i hi hfree _ => ?_))
  refine wp_lax (E := Lax) (wp_untabled (.fileGet f) fun _ s1 h1 => wp_grown h1.grown ?_)
  exact wp_installed hi ((congrFun h1.newSlots (p, i)).trans hfree) f i

theorem wp_fcntlDupfd_grown (p : Nat) (fd : Int) : wp Lax (fcntlDupfd p fd) (fun _ s' => Grown p s s') s := by
  refine wp_then (wp_lax (wp_fdToFile ?_ fun f _ _ _ => wp_sysDup_grown p fd))
  exact (Reslotted.refl s).grown

theorem wp_filesFreeFd_slots (p : Nat) (hfd : 0 ≤ fd ∧ fd < openMax) :
    wp Lax (filesFreeFd p fd) (fun _ s' => Reslotted (update (slots s) (p, fd.toNat) none) s s') s := by
  have hi : fd.toNat < openMax := by omega
  rw [filesFreeFd, if_pos hfd]
  exact wp_freeSlot_slots hi

theorem wp_sysPipe_grown (p : Nat) (inode rde wde : Option Nat) (rf wf : Bool) :
    wp Lax (sysPipe p inode rde wde rf wf) (fun _ s' => Grown p s s') s := by
  refine wp_untabled (.vfsPipe inode rde wde rf wf) fun o s1 h1 => wp_grown h1.grown ?_
  cases o with
  | none => exact (Reslotted.refl s1).grown
  | some x =>
    obtain ⟨r, w⟩ := x
    refine wp_then (wp_lax (wp_filesAllocFd ?_ fun i hi hfree _ => ?_))
    · refine wp_untabled (.filePut r) fun _ s2 h2 => wp_grown h2.grown ?_
      exact wp_untabled (.filePut w) fun _ s3 h3 => (wp_pure ..).mpr h3.grown
    · obtain ⟨fd, hfd⟩ : ∃ fd : Int, fd = i := ⟨_, rfl⟩
      have hrange : 0 ≤ fd ∧ fd < openMax := by omega
      dsimp only
      rw [← hfd]
      refine wp_seq (wp_setFd_slots hi) fun _ s2 h2 => ?_
      refine wp_then (wp_lax (wp_filesAllocFd ?_ fun j hj hfree' _ => ?_))
      · -- the read end is closed again
        refine wp_seq (wp_filesFreeFd_slots p hrange) fun _ s3 h3 => ?_
        rw [hfd, Int.toNat_natCast] at h3
        have hback : Reslotted (slots s1) s1 s3 := by
          refine ⟨fun q => (h3.sameBits q).trans (h2.sameBits q), ?_⟩
          rw [h3.newSlots, h2.newSlots, update_idem, Function.update_eq_self_iff]
          exact hfree.symm
        refine wp_grown hback.grown ?_
        exact wp_untabled (.filePut w) fun _ s4 h4 => (wp_pure ..).mpr h4.grown
      · exact wp_grown (h2.filled hfree) (wp_installed hj hfree' w 0)

theorem wp_sysClose_slots (p : Nat) (fd : Int) : wp Lax (sysClose p fd) (fun _ s' =>
    Reslotted (slots s) s s' ∨ 0 ≤ fd ∧ Reslotted (update (slots s) (p, fd.toNat) none) s s') s := by
  refine wp_then (wp_lax (wp_fdToFile (.inl (.refl s)) fun f _ hlow hhigh => ?_))
  refine wp_seq (wp_filesFreeFd_slots p ⟨hlow, hhigh⟩) fun _ s1 h1 => ?_
  exact (.inr ⟨hlow, h1⟩)

/-- The file a descriptor number stands for. -/
def entryOf (s : State) (p : Nat) (fd : Int) : Option Nat := if 0 ≤ fd then slot s p fd.toNat else none

theorem wp_fdToFile_entry (p : Nat) (fd : Int) :
    wp Lax (fdToFile p fd) (fun o s' => s' = s ∧ o = entryOf s p fd) s := by
  refine wp_get_then ?_
  split
  · rename_i hnone
    refine (wp_pure ..).mpr ⟨rfl, ?_⟩
    rw [entryOf, slot, Option.isNone_iff_eq_none.mp hnone, Option.bind_none, ite_self]
  · split
    · rename_i hrange
      refine (wp_pure ..).mpr ⟨rfl, ?_⟩
      rw [entryOf]
      split
      · exact (slot_beyond (by omega)).symm
      · rfl
    · rename_i hrange
      refine wp_then (wp_lax (wp_fdArray fun fd' hfd => (wp_pure ..).mpr ⟨rfl, ?_⟩))
      rw [entryOf, if_pos (by omega), slot_eq hfd (by omega)]

/-- The call `dup2` goes through. -/
def Replaces (s : State) (p : Nat) (old new : Int) : Prop :=
  old ≠ new ∧ (entryOf s p old).isSome = true ∧ 0 ≤ new ∧ new < openMax

instance (s : State) (p : Nat) (old new : Int) : Decidable (Replaces s p old new) :=
  inferInstanceAs (Decidable (_ ∧ _))

theorem wp_sysDup2_slots (p : Nat) (old new : Int) : wp Lax (sysDup2 p old new) (fun _ s' =>
    Reslotted (if Replaces s p old new then update (slots s) (p, new.toNat) (entryOf s p old) else slots s) s s')
    s := by
  unfold sysDup2
  split
  · rename_i heq
    rw [if_neg fun h => h.1 heq]
    exact (.refl s)
  · rename_i hne
    refine wp_seq (wp_fdToFile_entry p old) fun o s1 h => ?_
    obtain ⟨rfl, ho⟩ := h
    cases o with
    | none =>
      rw [if_neg fun h => absurd h.2.1 (by rw [← ho]; decide)]
      exact (.refl s1)
    | some f =>
      dsimp only
      split
      · rw [if_neg fun h => by have := h.2.2; omega]
        exact (.refl s1)
      · rename_i hrange
        have hnew : 0 ≤ new ∧ new < openMax := by omega
        have hi : new.toNat < openMax := by omega
        rw [if_pos ⟨hne, by rw [← ho]; rfl, hnew⟩, ← ho]
        refine wp_seq (wp_filesFreeFd_slots p hnew) fun _ s2 h2 => ?_
        refine wp_untabled (.fileGet f) fun _ s3 h3 => ?_
        refine wp_seq (wp_setFd_slots hi) fun _ s4 h4 => (wp_pure ..).mpr ?_
        rw [h3.newSlots, h2.newSlots, update_idem] at h4
        exact h2.trans (h3.trans h4)

theorem wp_fcntlSetfd_bits (p : Nat) (fd : Int) (on : Bool) : wp Lax (fcntlSetfd p fd on) (fun _ s' =>
    slots s' = slots s ∧ (∀ q, q ≠ p → bits s' q = bits s q) ∧
      bits s' p = if (entryOf s p fd).isSome then (bits s p).map fun b => update b fd.toNat on else bits s p) s := by
  refine wp_seq (wp_fdToFile_entry p fd) fun o s1 h => ?_
  obtain ⟨rfl, ho⟩ := h
  cases o with
  | none =>
    rw [← ho]
    exact (wp_pure ..).mpr ⟨rfl, fun _ _ => rfl, rfl⟩
  | some f =>
    refine wp_modify_then ((wp_pure ..).mpr ⟨?_, fun q hq => ?_, ?_⟩)
    · funext x
      rw [slots, slots, slot, slot]
      change (update s1.tables p _ x.1).bind _ = _
      by_cases hx : x.1 = p
      · rw [hx, update_self]
        cases s1.tables p with
        | none => rfl
        | some t => rfl
      · rw [update_of_ne hx]
    · rw [bits, bits]
      change (update s1.tables p _ q).map _ = _
      rw [update_of_ne hq]
    · rw [← ho, if_pos Option.isSome_some, bits, bits]
      change (update s1.tables p _ p).map _ = _
      rw [update_self, Option.map_map, Option.map_map]
      rfl

theorem wp_cloneSlots_slots (his : ∀ i ∈ is, i < openMax) (hpq : p ≠ q) :
    wp Lax (cloneSlots p q is) (fun _ s' => (∀ x, bits s' x = bits s x) ∧ (∀ x i, x ≠ q → slot s' x i = slot s x i) ∧
      ∀ i, slot s' q i = if i ∈ is ∧ (slot s p i).isSome then slot s p i else slot s q i) s := by
  induction is generalizing s with
  | nil => exact (wp_pure ..).mpr ⟨fun _ => rfl, fun _ _ _ => rfl, fun i => by simp⟩
  | cons j js ih =>
    obtain ⟨hj, hjs⟩ := List.forall_mem_cons.mp his
    refine wp_then (wp_lax (wp_fdArray fun fd hfd => ?_))
    have hslot : slot s p j = fd j := slot_eq hfd hj
    cases hf : fd j with
    | none =>
      refine wp_pure_then (wp_imp (ih hjs) fun _ s' h => ⟨h.1, h.2.1, fun i => ?_⟩)
      rw [h.2.2 i]
      by_cases hij : i = j
      · simp [hij, hslot, hf]
      · simp [hij]
    | some f =>
      refine wp_untabled (.fileGet f) fun _ s1 h1 => ?_
      refine wp_seq (wp_setFd_slots hj) fun _ s2 h2 => ?_
      have hat : ∀ x i, slot s2 x i = if (x, i) = (q, j) then some f else slot s x i := by
        intro x i
        have h := congrFun (h1.trans h2).newSlots (x, i)
        rw [h1.newSlots, update_apply] at h
        exact h
      refine wp_imp (ih hjs) fun _ s' h =>
        ⟨fun x => (h.1 x).trans ((h1.trans h2).sameBits x), fun x i hx => ?_, fun i => ?_⟩
      · rw [h.2.1 x i hx, hat, if_neg fun heq => hx (Prod.mk.inj heq).1]
      · have hp : slot s2 p i = slot s p i := by rw [hat, if_neg fun heq => hpq (Prod.mk.inj heq).1]
        rw [h.2.2 i, hp, hat]
        by_cases hij : i = j
        · simp [hij, hslot, hf]
        · simp [hij]

/-- `files_clone`: the descriptors are copied, the bits are not. -/
theorem wp_filesClone_slots {ok : Bool} (hpq : p ≠ q) :
    wp Lax (filesClone p q ok) (fun _ s' => (∀ x, x ≠ q → bits s' x = bits s x) ∧ bits s' q = some (fun _ => false) ∧
      (∀ x i, x ≠ q → slot s' x i = slot s x i) ∧ ∀ i, slot s' q i = slot s p i) s := by
  have hmem : ∀ i, i ∈ List.range openMax ↔ i < openMax := fun i => List.mem_range
  unfold filesClone
  generalize List.range openMax = is at hmem
  refine wp_modify_then ?_
  generalize hs1 : ({ s.setTable q (some ⟨if ok then some fun _ => none else none, fun _ => false⟩) with
    procs := insert q s.procs } : State) = s1
  have hother : ∀ x, x ≠ q → s1.tables x = s.tables x := by
    intro x hx
    rw [← hs1]
    exact update_of_ne hx ..
  have hnew : s1.tables q = some ⟨if ok then some fun _ => none else none, fun _ => false⟩ := by
    rw [← hs1]
    exact update_self ..
  have hempty : ∀ i, slot s1 q i = none := by
    intro i
    rw [slot, hnew]
    cases ok with
    | false => rfl
    | true => simp
  have hslot : ∀ x i, x ≠ q → slot s1 x i = slot s x i := fun x i hx => by rw [slot, slot, hother x hx]
  refine wp_imp (wp_cloneSlots_slots (fun i hi => (hmem i).mp hi) hpq) fun _ s' h => ?_
  obtain ⟨hbits, hkept, hcopy⟩ := h
  refine ⟨fun x hx => ?_, ?_, fun x i hx => (hkept x i hx).trans (hslot x i hx), fun i => ?_⟩
  · rw [hbits x, bits, bits, hother x hx]
  · rw [hbits q, bits, hnew]
    rfl
  · rw [hcopy i, hempty, hslot p i hpq]
    by_cases hi : i < openMax
    · cases slot s p i with
      | none => simp
      | some f => simp [(hmem i).mpr hi]
    · rw [slot_beyond hi]
      simp

/-- The loop of `sys_exec`: what is marked is closed. -/
theorem wp_closeOnExec_slots (his : ∀ i ∈ is, i < openMax) (hb : bits s p = some b) :
    wp Lax (closeOnExec p is) (fun _ s' => (∀ x, bits s' x = bits s x) ∧
      ∀ x i, slot s' x i = if x = p ∧ i ∈ is ∧ b i = true then none else slot s x i) s := by
  induction is generalizing s with
  | nil => exact (wp_pure ..).mpr ⟨fun _ => rfl, fun x i => by simp⟩
  | cons j js ih =>
    obtain ⟨hj, hjs⟩ := List.forall_mem_cons.mp his
    obtain ⟨t, ht, htb⟩ := Option.map_eq_some_iff.mp hb
    refine wp_get_then ?_
    rw [ht, Option.map_some, Option.getD_some, htb]
    split
    · rename_i hmark
      refine wp_seq (wp_freeSlot_slots hj) fun _ s1 h1 => ?_
      have hat : ∀ x i, slot s1 x i = if (x, i) = (p, j) then none else slot s x i := by
        intro x i
        have h := congrFun h1.newSlots (x, i)
        rw [update_apply] at h
        exact h
      refine wp_imp (ih hjs ((h1.sameBits p).trans hb)) fun _ s' h =>
        ⟨fun x => (h.1 x).trans (h1.sameBits x), fun x i => ?_⟩
      rw [h.2 x i, hat]
      by_cases hx : x = p
      · by_cases hij : i = j
        · simp [hx, hij, hmark]
        · simp [hx, hij]
      · simp [hx]
    · rename_i hmark
      refine wp_pure_then (wp_imp (ih hjs hb) fun _ s' h => ⟨h.1, fun x i => ?_⟩)
      rw [h.2 x i]
      by_cases hij : i = j
      · simp [hij, hmark]
      · simp [hij]

theorem wp_closeOnExec_noTable (h : s.tables p = none) : wp Lax (closeOnExec p is) (fun _ s' => s' = s) s := by
  induction is with
  | nil => exact rfl
  | cons j js ih =>
    refine wp_get_then ?_
    rw [h]
    exact wp_pure_then ih

/-- `exec` closes the descriptors whose bit is set. -/
theorem wp_execFiles_slots (hb : bits s p = some b) :
    wp Lax (execFiles p) (fun _ s' => ∀ i < openMax, slot s' p i = if b i = true then none else slot s p i) s := by
  have hmem : ∀ i, i ∈ List.range openMax ↔ i < openMax := fun i => List.mem_range
  unfold execFiles
  generalize List.range openMax = is at hmem
  refine wp_imp (wp_closeOnExec_slots (fun i hi => (hmem i).mp hi) hb) fun _ s' h i hi => ?_
  rw [h.2 p i]
  simp [(hmem i).mpr hi]

/-! ## 3. The flags descriptors should have -/

/-- The state, and for each descriptor the last value F_SETFD set since it was made. -/
structure Flagged where
  sys : State
  flag : Nat → Nat → Bool

/-- The flags after a call. What is made is not marked; an inherited descriptor has its parent's flag. -/
def Event.flags (s : State) (flag : Nat → Nat → Bool) : Event → Nat → Nat → Bool
  | .open p .. | .dup p _ | .dupfd p _ | .pipe p .. => fun q i => if q = p ∧ slot s q i = none then false else flag q i
  | .dup2 p old new => if Replaces s p old new then update flag p (update (flag p) new.toNat false) else flag
  | .setfd p fd on => if (entryOf s p fd).isSome then update flag p (update (flag p) fd.toNat on) else flag
  | .fork p q _ => update flag q (flag p)
  | .close .. | .exec .. | .exit .. | .read .. | .write .. => flag

/-- The calls the flags are about. -/
def Event.Descriptor : Event → Prop
  | .exec .. | .exit .. | .read .. | .write .. => False
  | _ => True

def FlagStep (x : Flagged) (e : Event) (y : Flagged) : Prop :=
  e.Descriptor ∧ Step x.sys e y.sys ∧ y.flag = e.flags x.sys x.flag

/-- **The bit is set iff the descriptor is open and marked.** -/
def FlagsRight (x : Flagged) : Prop :=
  ∀ p b, bits x.sys p = some b → ∀ i < openMax, (b i = true ↔ (slot x.sys p i).isSome = true ∧ x.flag p i = true)

/-- The bit of a descriptor number. -/
def marked (s : State) (p : Nat) (fd : Int) : Bool := decide (0 ≤ fd) && ((bits s p).map (· fd.toNat)).getD false

/-- The condition: a marked descriptor is neither closed nor replaced nor inherited, and F_SETFD is not asked for a
    number beyond the table. -/
def Event.Tidy (s : State) : Event → Prop
  | .close p fd => marked s p fd = false
  | .dup2 p old new => Replaces s p old new → marked s p new = false
  | .fork p _ _ => ∀ i < openMax, marked s p i = false
  | .setfd _ fd _ => 0 ≤ fd ∧ fd < openMax
  | _ => True

/-! ## 4. Runs -/

section Steps

variable {x y : Flagged} {b : Nat → Bool}

theorem marked_eq (hb : bits s p = some b) (i : Nat) : marked s p i = b i := by
  rw [marked, hb]
  simp

theorem marked_clear (hlow : 0 ≤ fd) (hb : bits s p = some b) (h : marked s p fd = false) : b fd.toNat = false := by
  simpa [marked, hb, hlow] using h

theorem FlagsRight.same (h : FlagsRight x) (hs : Reslotted (slots x.sys) x.sys y.sys) (hflag : y.flag = x.flag) :
    FlagsRight y := by
  intro q b hb i hi
  rw [hs.sameBits q] at hb
  have hslot : slot y.sys q i = slot x.sys q i := congrFun hs.newSlots (q, i)
  rw [hslot, hflag]
  exact h q b hb i hi

/-- New descriptors in places where nothing was marked. -/
theorem FlagsRight.grown (h : FlagsRight x) (hg : Grown p x.sys y.sys)
    (hflag : y.flag = fun q i => if q = p ∧ slot x.sys q i = none then false else x.flag q i) : FlagsRight y := by
  intro q b hb i hi
  rw [hg.sameBits q] at hb
  have hold := h q b hb i hi
  rw [hflag]
  by_cases hnone : slot x.sys q i = none
  · have hclear : b i = false := by simpa [hnone] using hold
    by_cases hq : q = p
    · simp [hclear, hq, hq ▸ hnone]
    · rw [hg.kept q i (.inl hq)]
      simp [hclear, hnone]
  · rw [hg.kept q i (.inr hnone)]
    simpa [hnone] using hold

/-- A descriptor that is not marked gets new content, and no mark. -/
theorem FlagsRight.replaced {j : Nat} (h : FlagsRight x) (hs : Reslotted (update (slots x.sys) (p, j) o) x.sys y.sys)
    (hclear : ∀ b, bits x.sys p = some b → b j = false) (hflag : ∀ q i, (q, i) ≠ (p, j) → y.flag q i = x.flag q i)
    (hnew : o = none ∨ y.flag p j = false) :
    FlagsRight y := by
  intro q b hb i hi
  rw [hs.sameBits q] at hb
  have hold := h q b hb i hi
  have hat := congrFun hs.newSlots (q, i)
  rw [update_apply] at hat
  have hslot : slot y.sys q i = if (q, i) = (p, j) then o else slot x.sys q i := hat
  rw [hslot]
  by_cases heq : (q, i) = (p, j)
  · obtain ⟨rfl, rfl⟩ := Prod.mk.inj heq
    rw [if_pos rfl, hclear b hb]
    rcases hnew with ho | hf
    · simp [ho]
    · simp [hf]
  · rw [if_neg heq, hflag q i heq]
    exact hold

theorem FlagsRight.set {on : Bool} (h : FlagsRight x) (hslots : slots y.sys = slots x.sys)
    (hother : ∀ q, q ≠ p → bits y.sys q = bits x.sys q)
    (hbits : bits y.sys p =
      if (entryOf x.sys p fd).isSome then (bits x.sys p).map fun b => update b fd.toNat on else bits x.sys p)
    (hflag : y.flag = (Event.setfd p fd on).flags x.sys x.flag) : FlagsRight y := by
  intro q b hb i hi
  have hslot : slot y.sys q i = slot x.sys q i := congrFun hslots (q, i)
  rw [hslot, hflag, Event.flags]
  by_cases hq : q = p
  · subst hq
    rw [hbits] at hb
    by_cases ho : (entryOf x.sys q fd).isSome = true
    · rw [if_pos ho] at hb ⊢
      obtain ⟨b0, hb0, rfl⟩ := Option.map_eq_some_iff.mp hb
      have hold := h q b0 hb0 i hi
      by_cases hij : i = fd.toNat
      · have hopen : (slot x.sys q i).isSome = true := by
          rw [entryOf] at ho
          split at ho
          · rw [hij]
            exact ho
          · cases ho
        simp [hij, hij ▸ hopen]
      · simpa [hij] using hold
    · rw [if_neg ho] at hb ⊢
      exact h q b hb i hi
  · rw [hother q hq] at hb
    have hold := h q b hb i hi
    split
    · rw [update_of_ne hq]
      exact hold
    · exact hold

/-- A process with unmarked descriptors has a child. -/
theorem FlagsRight.forked (h : FlagsRight x) (hother : ∀ r, r ≠ q → bits y.sys r = bits x.sys r)
    (hnew : bits y.sys q = some fun _ => false) (hkept : ∀ r i, r ≠ q → slot y.sys r i = slot x.sys r i)
    (hcopy : ∀ i, slot y.sys q i = slot x.sys p i) (hclear : ∀ i < openMax, marked x.sys p i = false)
    (hflag : y.flag = update x.flag q (x.flag p)) : FlagsRight y := by
  intro r b hb i hi
  rw [hflag]
  by_cases hr : r = q
  · subst hr
    rw [hnew] at hb
    cases hb
    rw [update_self, hcopy]
    refine iff_of_false Bool.false_ne_true fun hmark => ?_
    -- the parent has a table, as it has the descriptor
    cases hp : x.sys.tables p with
    | none =>
      rw [slot, hp] at hmark
      cases hmark.1
    | some t =>
      have hbp : bits x.sys p = some t.closeOnExec := by rw [bits, hp]; rfl
      have hbit := (h p _ hbp i hi).mpr hmark
      have hfalse := hclear i hi
      rw [marked_eq hbp, hbit] at hfalse
      cases hfalse
  · rw [hother r hr] at hb
    rw [update_of_ne hr, hkept r i hr]
    exact h r b hb i hi

theorem void_post {α : Type} {m : M α} {Q : State → Prop} (h : wp Lax m (fun _ s' => Q s') s)
    (hc : void m s = .ok ((), s')) : Q s' := by
  have hvoid : wp Lax (void m) (fun _ s' => Q s') s := wp_seq h fun _ _ hq => (wp_pure ..).mpr hq
  exact wp_ok hvoid hc

/-- **One call** that meets the condition. -/
theorem FlagsRight.step {e : Event} (h : FlagsRight x) (ht : e.Tidy x.sys) (hs : FlagStep x e y) : FlagsRight y := by
  obtain ⟨hkind, ⟨hoffer, hcall⟩, hflag⟩ := hs
  cases e with
  | «open» p target refused ok => exact h.grown (void_post (wp_sysOpen_grown p target refused ok) hcall) hflag
  | dup p fd => exact h.grown (void_post (wp_sysDup_grown p fd) hcall) hflag
  | dupfd p fd => exact h.grown (void_post (wp_fcntlDupfd_grown p fd) hcall) hflag
  | pipe p inode rde wde rf wf => exact h.grown (void_post (wp_sysPipe_grown p inode rde wde rf wf) hcall) hflag
  | close p fd =>
    have hflag : y.flag = x.flag := hflag
    rcases void_post (wp_sysClose_slots p fd) hcall with hsame | ⟨hlow, hclosed⟩
    · exact h.same hsame hflag
    · exact h.replaced hclosed (fun b hb => marked_clear hlow hb ht) (fun q i _ => by rw [hflag]) (.inl rfl)
  | dup2 p old new =>
    have hpost := void_post (wp_sysDup2_slots p old new) hcall
    rw [Event.flags] at hflag
    by_cases hr : Replaces x.sys p old new
    · rw [if_pos hr] at hpost hflag
      refine h.replaced hpost (fun b hb => marked_clear hr.2.2.1 hb (ht hr)) (fun q i hne => ?_) (.inr ?_)
      · rw [hflag]
        by_cases hq : q = p
        · have hi : i ≠ new.toNat := fun hi => hne (by rw [hq, hi])
          simp [hq, hi]
        · simp [hq]
      · simp [hflag]
    · rw [if_neg hr] at hpost hflag
      exact h.same hpost hflag
  | setfd p fd on =>
    obtain ⟨hslots, hother, hbits⟩ := void_post (wp_fcntlSetfd_bits p fd on) hcall
    exact h.set hslots hother hbits hflag
  | fork p q ok =>
    obtain ⟨hother, hnew, hkept, hcopy⟩ := wp_ok (wp_filesClone_slots hoffer.1) hcall
    exact h.forked hother hnew hkept hcopy ht hflag
  | exec p => exact hkind.elim
  | exit p => exact hkind.elim
  | read p fd count => exact hkind.elim
  | write p fd bytes => exact hkind.elim

end Steps

/-- A call that meets the condition. -/
def TidyStep (x : Flagged) (e : Event) (y : Flagged) : Prop := e.Tidy x.sys ∧ FlagStep x e y

/-- **Close-on-exec flags belong to the descriptor** in every run whose calls meet the condition: the bits are the
    flags, and `exec` closes exactly the descriptors that are marked. -/
theorem flags_of_tidy_run {x₀ x : Flagged} {es : List Event} (h₀ : FlagsRight x₀) (hrun : Run TidyStep x₀ es x) :
    FlagsRight x ∧ ∀ p s', execFiles p x.sys = .ok ((), s') → ∀ i < openMax,
      slot s' p i = if x.flag p i = true then none else slot x.sys p i := by
  have hright : FlagsRight x := hrun.invariant (I := FlagsRight) (fun _ _ _ h hs => h.step hs.1 hs.2) h₀
  refine ⟨hright, fun p s' hexec i hi => ?_⟩
  cases hb : bits x.sys p with
  | none =>
    have hnone : x.sys.tables p = none := Option.map_eq_none_iff.mp hb
    have hsame : slot x.sys p i = none := by rw [slot, hnone]; rfl
    unfold execFiles at hexec
    rw [wp_ok (wp_closeOnExec_noTable hnone) hexec, hsame, ite_self]
  | some b =>
    have hclosed := wp_ok (wp_execFiles_slots hb) hexec i hi
    have hbit := hright p b hb i hi
    rw [hclosed]
    cases hslot : slot x.sys p i with
    | none => simp
    | some f =>
      rw [hslot] at hbit
      simp [hbit]

/-- The state with the flags, after a call that comes back. -/
def nextFlagged (x : Flagged) (e : Event) : Option Flagged :=
  (next x.sys e).map fun s => ⟨s, e.flags x.sys x.flag⟩

theorem step_of_nextFlagged {x y : Flagged} (hk : e.Descriptor) (h : nextFlagged x e = some y) : FlagStep x e y := by
  obtain ⟨s, hs, rfl⟩ := Option.map_eq_some_iff.mp h
  exact ⟨hk, step_of_next hs, rfl⟩

/-- The booted machine, with no flag set. -/
def bootedFlags : Flagged := ⟨booted, fun _ _ => false⟩

theorem bootedFlags_right : FlagsRight bootedFlags := by
  intro p b hb i _
  obtain ⟨t, ht, rfl⟩ := Option.map_eq_some_iff.mp hb
  have ht : (if p = 0 then some ⟨some fun _ => none, fun _ => false⟩ else none) = some t := ht
  split at ht
  · cases ht
    simp [bootedFlags]
  · cases ht

theorem run_nextFlagged (es : List Event) (hk : ∀ e ∈ es, e.Descriptor) (P : Flagged → Prop) [DecidablePred P]
    (h : (es.foldlM nextFlagged bootedFlags).any (fun x => decide (P x)) = true) :
    ∃ x, Run FlagStep bootedFlags es x ∧ P x := by
  have hstep : ∀ x e y, nextFlagged x e = some y → ofFun nextFlagged x e y := fun _ _ _ hs => hs
  obtain ⟨x, hrun, hx⟩ := exists_run hstep bootedFlags es P h
  exact ⟨x, (hrun.and_mem (P := fun _ e => e.Descriptor) fun _ e he => hk e he).mono fun _ _ _ hs =>
    step_of_nextFlagged hs.1 hs.2, hx⟩

/-- A descriptor is marked and copied. -/
def markedCopied : List Event := [.open 0 (.found 0) false true, .setfd 0 0 true, .dup 0 0]

theorem flags_of_tidy_run_copied : ∃ x, FlagsRight bootedFlags ∧ Run TidyStep bootedFlags markedCopied x ∧
    x.flag 0 0 = true ∧ (slot x.sys 0 1).isSome = true ∧ FlagsRight x := by
  obtain ⟨x, hrun, hflag, hcopy⟩ := run_nextFlagged markedCopied (by simp [markedCopied, Event.Descriptor])
    (fun x => x.flag 0 0 = true ∧ (slot x.sys 0 1).isSome = true) (by decide +kernel)
  have htidy : Run TidyStep bootedFlags markedCopied x := hrun.and_mem fun s e he => by
    simp only [markedCopied, List.mem_cons, List.not_mem_nil, or_false] at he
    rcases he with rfl | rfl | rfl
    · trivial
    · exact ⟨by decide, by decide⟩
    · trivial
  exact ⟨x, bootedFlags_right, htidy, hflag, hcopy, (flags_of_tidy_run bootedFlags_right htidy).1⟩

/-- A descriptor is marked and closed, and another one opened. -/
def markedReopened : List Event :=
  [.open 0 (.found 0) false true, .setfd 0 0 true, .close 0 0, .open 0 (.found 0) false true]

/-- **The new descriptor starts marked**: closing the old one has left its bit. -/
theorem reopened_starts_marked : ∃ x b, FlagsRight bootedFlags ∧ Run FlagStep bootedFlags markedReopened x ∧
    bits x.sys 0 = some b ∧ b 0 = true ∧ (slot x.sys 0 0).isSome = true ∧ x.flag 0 0 = false ∧ ¬ FlagsRight x := by
  obtain ⟨x, hrun, hbit, hopen, hflag⟩ := run_nextFlagged markedReopened (by simp [markedReopened, Event.Descriptor])
    (fun x => (bits x.sys 0).map (· 0) = some true ∧ (slot x.sys 0 0).isSome = true ∧ x.flag 0 0 = false)
      (by decide +kernel)
  obtain ⟨b, hb, hb0⟩ := Option.map_eq_some_iff.mp hbit
  refine ⟨x, b, bootedFlags_right, hrun, hb, hb0, hopen, hflag, fun hright => ?_⟩
  have hmark := ((hright 0 b hb 0 (by decide)).mp hb0).2
  rw [hflag] at hmark
  cases hmark

end OreUnix.Fd
