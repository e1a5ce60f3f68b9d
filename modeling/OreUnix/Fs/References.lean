/-
  Subject: REFERENCES ARE ACCOUNTED FOR: every call on descriptors, from any reachable state.

  * `Mid` -- the four relations of DescriptorsSpec.lean inside a call, which may hold references of its own; with `b =
    false` only those that need no care about dentries;
  * one rule for each function, then `call_mid` for every call;
  * `descriptors_accounted` -- counts and release operations are right in every run; the end of a pipe is seen at the
    right time in every run without an `open(O_CREAT)` of an existing name;
  * `open_end_reads_eof` -- what such an open leads to.
-/
import OreUnix.Fs.DescriptorsSpec
import OreUnix.Lib.Run

namespace OreUnix.Fd

open Tally Wp Lts
open Fs (Pipe)
open Vfs (Crash)
open Function (update update_of_ne update_self update_apply update_idem)

variable {s s' : State} {v : Nat × Nat → Option Nat} {held ed : List Nat} {f d i p q : Nat} {b : Bool}
variable {bytes : List UInt8} {e : Event} {es : List Event} {inode : Option Nat} {is : List Nat} {n : Nat}
  {ok refused rf wf : Bool} {t : State} {target : Target}

/-! ## 1. Inside a call -/

structure Mid (b : Bool) (v : Nat × Nat → Option Nat) (held ed : List Nat) (s : State) : Prop where
  counted : Counted v held s
  tabled : ∀ p, (s.tables p).isSome = true → p ∈ s.procs
  logged : Logged s
  rooted : b = true → Rooted ed [] s
  piped : b = true → Piped s

/-- A call may follow a NULL pointer; it never touches a freed file. -/
def NullOnly (c : Crash) : Prop := c = .null

def SameTables (s s' : State) : Prop := s'.tables = s.tables ∧ s'.procs = s.procs

theorem SameTables.slots (h : SameTables s s') : slots s' = slots s := by
  funext x
  rw [Fd.slots, Fd.slots, slot, slot, h.1]

theorem wp_getFile {E : Crash → Prop} {Q : File → State → Prop} (hf : Live s f) (hQ : Q (s.files f).val s) :
    wp E (getFile f) Q s := by
  rw [wp, getFile, if_pos (show (s.files f).live = true from hf)]
  exact hQ

theorem wp_fileGet (h : Mid b v held ed s) (hf : Live s f) :
    wp NullOnly (fileGet f) (fun _ s' => Mid b v (f :: held) ed s' ∧ SameTables s s') s := by
  refine wp_then (wp_getFile hf ?_)
  refine ⟨⟨h.counted.get hf, h.tabled, h.logged.withRefs hf _, fun hb => ?_, fun hb => ?_⟩, rfl, rfl⟩
  · exact (h.rooted hb).withRefs hf _
  · exact (h.piped hb).withRefs hf _

theorem Mid.dentryPut (h : Mid b v held (d :: ed) s) :
    Mid b v held ed (s.dentryPut d) ∧ SameTables s (s.dentryPut d) := by
  obtain ⟨D, I, heq, _⟩ := dentryPut_keeps s d
  have hr := fun hb => (h.rooted hb).put
  have hp := fun hb => (h.piped hb).dentryPut d
  rw [heq] at hr hp ⊢
  exact ⟨⟨h.counted.frame rfl rfl rfl, h.tabled, h.logged.frame rfl rfl rfl, hr, hp⟩, rfl, rfl⟩

/-! ## 2. Dropping a file -/

/-- What the release operation leaves: pipes and the pointers to them may have changed. -/
structure Released (b : Bool) (f : Nat) (s s' : State) : Prop where
  files : s'.files = s.files
  nextFile : s'.nextFile = s.nextFile
  tables : SameTables s s'
  dentries : s'.dentries = s.dentries
  inodes : ∀ i, inodeRefs (s'.inodes i) = inodeRefs (s.inodes i)
  released : s'.released =
    if (s.files f).val.ops.hasRelease then s.released ++ [f] else s.released
  piped : b = true → Piped (s'.withFile f ⟨false, (s.files f).val⟩)

/-- A file that is no pipe's end. -/
theorem Piped.dropOther (h : Piped s)
    (hend : ¬ IsEnd (s.files f).val.ops) : Piped (s.withFile f ⟨false, (s.files f).val⟩) := by
  have hlive : ∀ {g}, Live (s.withFile f ⟨false, (s.files f).val⟩) g →
      (s.withFile f ⟨false, (s.files f).val⟩).files g = s.files g ∧ Live s g := by
    intro g hg
    rw [Live, files_withFile] at hg
    rw [files_withFile]
    split at hg
    · cases hg
    · rename_i hne
      exact ⟨if_neg hne, hg⟩
  have hnone : ∀ {o} (c : Cell File), c.val = (s.files f).val → IsEnd o → endOf o c = none := by
    intro o c hc ho
    refine if_neg fun h => hend ?_
    rw [← hc, h.2]
    exact ho
  refine ⟨fun hg hge => ?_, fun hg hge => ?_, fun {o} ho q hq => ?_⟩
  · obtain ⟨hc, hg⟩ := hlive hg
    rw [hc] at hge ⊢
    exact h.ends hg hge
  · obtain ⟨hc, hg⟩ := hlive hg
    rw [hc] at hge ⊢
    exact h.known hg hge
  · have hcomp : endOf o ∘ (s.withFile f ⟨false, (s.files f).val⟩).files = endOf o ∘ s.files := by
      change endOf o ∘ update s.files f _ = _
      rw [Function.comp_update]
      refine Function.update_eq_self_iff.mpr ?_
      rw [hnone ⟨false, (s.files f).val⟩ rfl ho]
      exact (hnone (s.files f) rfl ho).symm
    rw [hcomp]
    exact h.count ho q hq

theorem wp_pipeRelease (hp : b = true → Piped s) (hf : Live s f) (hb : ∀ {f}, Live s f → f < s.nextFile)
    (hend : IsEnd (s.files f).val.ops) :
    wp NullOnly (pipeRelease (s.files f).val.ops.close (s.files f).val) (fun _ s' =>
      s'.files = s.files ∧ s'.nextFile = s.nextFile ∧ SameTables s s' ∧ s'.dentries = s.dentries ∧
      (∀ i, inodeRefs (s'.inodes i) = inodeRefs (s.inodes i)) ∧ s'.released = s.released ∧
      (b = true → Piped (s'.withFile f ⟨false, (s.files f).val⟩))) s := by
  refine wp_get_then ?_
  cases hi : (s.dentries (s.files f).val.dentry).val.inode with
  | none => exact rfl
  | some i =>
    dsimp only
    cases hq : (s.inodes i).val.priv with
    | none => exact rfl
    | some q =>
      refine (wp_set ..).mpr ?_
      split
      · rename_i hclosed
        refine ⟨rfl, rfl, ⟨rfl, rfl⟩, rfl, fun j => ?_, rfl, fun hbt => ?_⟩
        · rw [inodes_setInode]
          split
          · rename_i heq
            rw [heq]
            rfl
          · rfl
        · refine (hp hbt).closeEnd hf hb rfl hend hi hq rfl rfl rfl rfl rfl fun j => ?_
          change (update s.inodes i _ j).val.priv = _
          rw [update_apply]
          by_cases hj : j = i
          · rw [if_pos hj, if_pos ⟨hj, hclosed⟩]
          · rw [if_neg hj, if_neg fun hc => hj hc.1]
      · rename_i hopen
        refine ⟨rfl, rfl, ⟨rfl, rfl⟩, rfl, fun _ => rfl, rfl, fun hbt => ?_⟩
        refine (hp hbt).closeEnd hf hb rfl hend hi hq rfl rfl rfl rfl rfl fun j => ?_
        rw [if_neg fun hc => hopen hc.2]
        rfl

theorem wp_release (hp : b = true → Piped s) (hf : Live s f) (hb : ∀ {f}, Live s f → f < s.nextFile) :
    wp NullOnly (release f (s.files f).val) (fun _ s' => Released b f s s') s := by
  -- the log does not matter to the pipe
  have hlog : ∀ rel, (b = true → Piped { s with released := rel }) := fun rel hbt =>
    (hp hbt).frame (fun _ => ⟨rfl, rfl, rfl, rfl⟩) rfl rfl (fun _ hi => ⟨hi, rfl⟩) fun _ _ => rfl
  have hendCase : ∀ {o}, (s.files f).val.ops = o → IsEnd o → o.hasRelease = true →
      wp NullOnly (pipeRelease o.close (s.files f).val) (fun _ s' => Released b f s s')
        { s with released := s.released ++ [f] } := by
    intro o ho hend hrel
    have hwp := @wp_pipeRelease { s with released := s.released ++ [f] } f b (hlog _) hf hb (ho ▸ hend)
    rw [show ({ s with released := s.released ++ [f] } : State).files f = s.files f from rfl, ho] at hwp
    refine wp_imp hwp fun _ s' hs' => ?_
    obtain ⟨h1, h2, h3, h4, h5, h6, h7⟩ := hs'
    refine ⟨h1, h2, h3, h4, h5, ?_, h7⟩
    rw [ho, hrel, if_pos rfl]
    exact h6
  have hother : ∀ rel, ¬ IsEnd (s.files f).val.ops →
      rel = (if (s.files f).val.ops.hasRelease then s.released ++ [f] else s.released) →
      Released b f s { s with released := rel } := by
    intro rel hend hrel
    exact ⟨rfl, rfl, ⟨rfl, rfl⟩, rfl, fun _ => rfl, hrel,
      fun hbt => @Piped.dropOther { s with released := rel } f (hlog rel hbt) hend⟩
  rw [release]
  cases ho : (s.files f).val.ops with
  | pipeRead =>
    have hclose : pipeReadRelease (s.files f).val = pipeRelease FileOps.pipeRead.close (s.files f).val := rfl
    refine wp_modify_then ?_
    dsimp only
    rw [hclose]
    exact hendCase ho (.inl rfl) rfl
  | pipeWrite =>
    have hclose : pipeWriteRelease (s.files f).val = pipeRelease FileOps.pipeWrite.close (s.files f).val := rfl
    refine wp_modify_then ?_
    dsimp only
    rw [hclose]
    exact hendCase ho (.inr rfl) rfl
  | ramfs =>
    refine wp_modify_then ((wp_pure ..).mpr ?_)
    exact hother _ (by rw [ho]; rintro (h | h) <;> cases h) (by rw [ho]; rfl)
  | other =>
    refine wp_pure_then ((wp_pure ..).mpr ?_)
    exact hother s.released (by rw [ho]; rintro (h | h) <;> cases h) (by rw [ho]; rfl)

theorem dentryPut_withFile (s : State) (d f : Nat) (c : Cell File) :
    (s.withFile f c).dentryPut d = (s.dentryPut d).withFile f c := by
  have hcell : (s.withFile f c).dentries d = s.dentries d := rfl
  rw [State.dentryPut, State.dentryPut, hcell]
  split
  · rw [State.dentryFree, State.dentryFree, hcell]
    cases (s.dentries d).val.inode with
    | none => rfl
    | some i =>
      have hput : (s.withFile f c).inodePut i = (s.inodePut i).withFile f c := by
        rw [State.inodePut, State.inodePut]
        change (if (s.inodes i).val.refcount = 1 then _ else _) = _
        split <;> rfl
      dsimp only
      rw [hput]
      rfl
  · rfl

/-- The last reference to a file is dropped. -/
theorem wp_fileFree (h : Mid b v (f :: held) [] s) (hone : refs s f = 1) :
    wp NullOnly (fileFree f) (fun _ s' => Mid b v held [] s' ∧ SameTables s s') s := by
  have hf : Live s f := h.counted.held_live (.head _)
  have hbound : ∀ {f}, Live s f → f < s.nextFile := h.counted.bound
  refine wp_then (wp_getFile hf ?_)
  refine wp_seq (wp_release h.piped hf hbound) fun _ s1 hs1 => ?_
  refine wp_modify_then ((wp_modify ..).mpr ?_)
  obtain ⟨D, I, heq, _⟩ := dentryPut_keeps s1 (s.files f).val.dentry
  generalize hs2 : s1.dentryPut (s.files f).val.dentry = s2 at *
  have hfiles2 : s2.files = s.files := by
    rw [heq]
    exact hs1.files
  have hnext2 : s2.nextFile = s.nextFile := by
    rw [heq]
    exact hs1.nextFile
  have htab2 : SameTables s s2 := by
    rw [heq]
    exact hs1.tables
  have hrel2 : s2.released = s1.released := by rw [heq]
  have hcomm : (s1.withFile f ⟨false, (s.files f).val⟩).dentryPut (s.files f).val.dentry =
      s2.withFile f ⟨false, (s.files f).val⟩ := by
    rw [dentryPut_withFile, hs2]
  have hcounted := h.counted.frame hfiles2 hnext2 htab2.2
  refine ⟨⟨hcounted.drop (by rw [refs, hfiles2]; exact hone) rfl, ?_, ?_, fun hbt => ?_, fun hbt => ?_⟩, htab2⟩
  · intro p hp
    change p ∈ s2.procs
    rw [htab2.2]
    refine h.tabled p ?_
    rw [← htab2.1]
    exact hp
  · refine h.logged.drop hf (hbound hf) rfl ?_ hnext2 (hrel2.trans hs1.released)
    change update s2.files f _ = _
    rw [hfiles2]
  · have hdrop := (h.rooted hbt).drop (x := (s.files f).val) hf (hbound hf)
    have hframe : Rooted [(s.files f).val.dentry] [] (s1.withFile f ⟨false, (s.files f).val⟩) := by
      refine hdrop.frame ?_ hs1.nextFile hs1.dentries hs1.inodes
      change dentryOf ∘ update s1.files f _ = dentryOf ∘ update s.files f _
      rw [hs1.files]
    have hput := hframe.put
    rw [hcomm] at hput
    exact hput
  · have hput := (hs1.piped hbt).dentryPut (s.files f).val.dentry
    rw [hcomm] at hput
    exact hput

/-- **`file_put`** drops a reference the call holds. -/
theorem wp_filePut (h : Mid b v (f :: held) [] s) :
    wp NullOnly (filePut f) (fun _ s' => Mid b v held [] s' ∧ SameTables s s') s := by
  have hf : Live s f := h.counted.held_live (.head _)
  refine wp_then (wp_getFile hf ?_)
  split
  · exact wp_fileFree h ‹_›
  · rename_i hone
    refine ⟨⟨h.counted.put hone, h.tabled, h.logged.withRefs hf _, fun hbt => ?_, fun hbt => ?_⟩, rfl, rfl⟩
    · exact (h.rooted hbt).withRefs hf _
    · exact (h.piped hbt).withRefs hf _

/-! ## 3. Tables -/

/-- The same processes, each with a table if it had one. -/
def SameShape (s s' : State) : Prop :=
  s'.procs = s.procs ∧ ∀ q, (s'.tables q).isSome = (s.tables q).isSome

theorem SameTables.shape (h : SameTables s s') : SameShape s s' := ⟨h.2, fun q => by rw [h.1]⟩

theorem SameShape.trans {s'' : State} (h : SameShape s s') (h' : SameShape s' s'') : SameShape s s'' :=
  ⟨h'.1.trans h.1, fun q => (h'.2 q).trans (h.2 q)⟩

theorem slot_eq {fd : Nat → Option Nat} (h : (s.tables p).bind Table.fd = some fd) (hi : i < openMax) :
    slot s p i = fd i := by
  obtain ⟨t, ht, hfd⟩ := Option.bind_eq_some_iff.mp h
  rw [slot, ht, Option.bind_some, hfd, Option.bind_some, if_pos hi]

theorem slot_beyond (hi : ¬ i < openMax) : slot s p i = none := by
  rw [slot]
  cases s.tables p with
  | none => rfl
  | some t =>
    rw [Option.bind_some]
    cases t.fd with
    | none => rfl
    | some fd =>
      rw [Option.bind_some]
      exact if_neg hi

theorem Mid.withTables {T : Nat → Option Table} (h : Mid b v held ed s)
    (hT : ∀ q, (T q).isSome = true → q ∈ s.procs) : Mid b v held ed { s with tables := T } :=
  ⟨h.counted.frame rfl rfl rfl, hT, h.logged.frame rfl rfl rfl,
    fun hbt => (h.rooted hbt).frame rfl rfl rfl fun _ => rfl,
    fun hbt => (h.piped hbt).frame (fun _ => ⟨rfl, rfl, rfl, rfl⟩) rfl rfl (fun _ hi => ⟨hi, rfl⟩) fun _ _ => rfl⟩

theorem wp_fdArray {Q : (Nat → Option Nat) → State → Prop}
    (hQ : ∀ fd, (s.tables p).bind Table.fd = some fd → Q fd s) : wp NullOnly (fdArray p) Q s := by
  refine wp_get_then ?_
  cases hfd : (s.tables p).bind Table.fd with
  | none => exact rfl
  | some fd => exact (hQ fd hfd)

theorem wp_setFd {o : Option Nat} {Q : Unit → State → Prop} (hi : i < openMax)
    (hQ : ∀ T, SameShape s { s with tables := T } → slots { s with tables := T } = update (slots s) (p, i) o →
      Q () { s with tables := T }) : wp NullOnly (setFd p i o) Q s := by
  refine wp_then (wp_fdArray fun fd hfd => (wp_modify ..).mpr (hQ _ ⟨rfl, fun q => ?_⟩ ?_))
  · change (update s.tables p _ q).isSome = _
    rw [update_apply]
    split
    · rename_i heq
      rw [heq, Option.isSome_map]
    · rfl
  · obtain ⟨t, ht, _⟩ := Option.bind_eq_some_iff.mp hfd
    funext ⟨q, j⟩
    rw [update_apply]
    change slot { s with tables := update s.tables p _ } q j = if _ then _ else slot s q j
    by_cases hq : q = p
    · subst hq
      have hnew : (({ s with tables := update s.tables q ((s.tables q).map fun t =>
          { t with fd := some (update fd i o) }) } : State).tables q).bind Table.fd = some (update fd i o) := by
        change (update s.tables q _ q).bind Table.fd = _
        rw [update_self, ht]
        rfl
      by_cases hj : j < openMax
      · rw [slot_eq hnew hj, update_apply]
        by_cases hji : j = i
        · rw [if_pos hji, if_pos (by rw [hji])]
        · rw [if_neg hji, if_neg fun h => hji (Prod.mk.inj h).2, slot_eq hfd hj]
      · rw [slot_beyond hj, slot_beyond hj, if_neg fun (h : (q, j) = (q, i)) => hj ((Prod.mk.inj h).2 ▸ hi)]
    · rw [if_neg fun h => hq (Prod.mk.inj h).1, slot, slot]
      change (update s.tables p _ q).bind _ = _
      rw [update_of_ne hq]

theorem wp_install (h : Mid b (slots s) (f :: held) ed s) (hi : i < openMax) (hfree : slot s p i = none)
    (hp : p ∈ s.procs) :
    wp NullOnly (setFd p i (some f)) (fun _ s' => Mid b (slots s') held ed s' ∧ SameShape s s' ∧
      slots s' = update (slots s) (p, i) (some f)) s := by
  refine wp_setFd hi fun T hshape hslots => ⟨?_, hshape, hslots⟩
  have hplace : (p, i) ∈ places s := Finset.mem_product.mpr ⟨hp, Finset.mem_range.mpr hi⟩
  have hstore : Mid b (update (slots s) (p, i) (some f)) held ed s :=
    ⟨h.counted.store hplace hfree, h.tabled, h.logged, h.rooted, h.piped⟩
  rw [hslots]
  refine hstore.withTables fun q hq => h.tabled q ?_
  rw [← hshape.2 q]
  exact hq

/-- **A descriptor is closed.** -/
theorem wp_freeSlot (h : Mid b (slots s) held [] s) (hi : i < openMax) :
    wp NullOnly (freeSlot p i) (fun _ s' => Mid b (slots s') held [] s' ∧ SameShape s s' ∧
      slots s' = update (slots s) (p, i) none) s := by
  refine wp_then (wp_fdArray fun fd hfd => ?_)
  have hslot : slots s (p, i) = fd i := slot_eq hfd hi
  cases hfi : fd i with
  | none =>
    refine (wp_pure ..).mpr ⟨h, ⟨rfl, fun _ => rfl⟩, ?_⟩
    rw [hfi] at hslot
    rw [← hslot, Function.update_eq_self]
  | some f =>
    rw [hfi] at hslot
    have htake : Mid b (update (slots s) (p, i) none) (f :: held) [] s :=
      ⟨h.counted.take hslot, h.tabled, h.logged, h.rooted, h.piped⟩
    refine wp_seq (wp_filePut htake) fun _ s1 hs1 => ?_
    obtain ⟨hmid, hsame⟩ := hs1
    refine wp_setFd hi fun T hshape hslots => ?_
    have hslots' : slots { s1 with tables := T } = update (slots s) (p, i) none := by
      rw [hslots, hsame.slots]
    refine ⟨?_, hsame.shape.trans hshape, hslots'⟩
    rw [hslots']
    refine hmid.withTables fun q hq => hmid.tabled q ?_
    rw [← hshape.2 q]
    exact hq

theorem wp_freeSlots (his : ∀ i ∈ is, i < openMax) (h : Mid b (slots s) held [] s) :
    wp NullOnly (freeSlots p is) (fun _ s' => Mid b (slots s') held [] s' ∧ SameShape s s' ∧
      ∀ x, slots s' x = if x.1 = p ∧ x.2 ∈ is then none else slots s x) s := by
  induction is generalizing s with
  | nil =>
    refine (wp_pure ..).mpr ⟨h, ⟨rfl, fun _ => rfl⟩, fun x => ?_⟩
    rw [if_neg fun hx => List.not_mem_nil hx.2]
  | cons i is ih =>
    refine wp_seq (wp_freeSlot h (his i (.head _))) fun _ s1 hs1 => ?_
    obtain ⟨hmid, hshape, hslots⟩ := hs1
    refine wp_imp (ih (fun j hj => his j (.tail _ hj)) hmid) fun _ s2 hs2 => ?_
    obtain ⟨hmid2, hshape2, hslots2⟩ := hs2
    refine ⟨hmid2, hshape.trans hshape2, fun x => ?_⟩
    rw [hslots2, hslots, update_apply]
    by_cases hx : x = (p, i)
    · subst hx
      simp
    · rw [if_neg hx]
      have hiff : (x.1 = p ∧ x.2 ∈ i :: is) ↔ x.1 = p ∧ x.2 ∈ is := by
        refine and_congr_right fun hp => ?_
        rw [List.mem_cons, or_iff_right]
        exact fun hxi => hx (Prod.ext hp hxi)
      simp only [hiff]

/-- **`files_destroy`** closes every descriptor before the table goes. -/
theorem wp_filesDestroy (h : Mid b (slots s) held [] s) :
    wp NullOnly (filesDestroy p) (fun _ s' => Mid b (slots s') held [] s' ∧ s'.procs = s.procs ∧
      ∀ x, slots s' x = if x.1 = p then none else slots s x) s := by
  have hmem : ∀ i, i ∈ List.range openMax ↔ i < openMax := fun i => List.mem_range
  unfold filesDestroy
  generalize List.range openMax = is at hmem
  refine wp_seq (wp_freeSlots (fun i hi => (hmem i).mp hi) h) fun _ s1 hs1 => ?_
  obtain ⟨hmid, hshape, hslots⟩ := hs1
  have hrow : ∀ x, slots s1 x = if x.1 = p then none else slots s x := by
    intro x
    rw [hslots]
    by_cases hx : x.1 = p
    · rw [if_pos hx]
      split
      · rfl
      · rename_i hnot
        exact slot_beyond fun hlt => hnot ⟨hx, (hmem x.2).mpr hlt⟩
    · rw [if_neg hx, if_neg fun hc => hx hc.1]
  have hgone : slots (s1.setTable p none) = slots s1 := by
    funext x
    rw [slots, slot]
    change (update s1.tables p none x.1).bind _ = _
    rw [update_apply]
    split
    · rename_i hx
      rw [hrow, if_pos hx]
      rfl
    · rfl
  refine (wp_modify ..).mpr ⟨?_, hshape.1, ?_⟩
  · rw [hgone]
    refine hmid.withTables fun q hq => ?_
    rw [update_apply] at hq
    split at hq
    · cases hq
    · exact hmid.tabled q hq
  · rw [hgone]
    exact hrow

theorem wp_closeOnExec (his : ∀ i ∈ is, i < openMax) (h : Mid b (slots s) [] [] s) :
    wp NullOnly (closeOnExec p is) (fun _ s' => Mid b (slots s') [] [] s') s := by
  induction is generalizing s with
  | nil => exact h
  | cons i is ih =>
    have his' : ∀ j ∈ is, j < openMax := fun j hj => his j (.tail _ hj)
    refine wp_get_then ?_
    split
    · refine wp_seq (wp_freeSlot h (his i (.head _))) fun _ s1 hs1 => ?_
      exact ih his' hs1.1
    · refine wp_pure_then ?_
      exact ih his' h

/-- `files_create`: the new table holds nothing. -/
theorem wp_filesCreate (h : Mid b (slots s) held ed s) (hq : (s.tables q).isNone = true) :
    wp NullOnly (filesCreate q ok) (fun _ s' => Mid b (slots s') held ed s' ∧ slots s' = slots s ∧
      s'.procs = insert q s.procs ∧ s'.files = s.files) s := by
  refine (wp_modify ..).mpr ?_
  have hslots : slots { s.setTable q (some ⟨if ok then some fun _ => none else none, fun _ => false⟩) with
      procs := insert q s.procs } = slots s := by
    funext x
    rw [slots, slots, slot, slot]
    change (update s.tables q _ x.1).bind _ = _
    rw [update_apply]
    split
    · rename_i hx
      rw [hx, Option.isNone_iff_eq_none.mp hq, Option.bind_some, Option.bind_none]
      cases ok
      · rfl
      · simp
    · rfl
  refine ⟨?_, hslots, rfl, rfl⟩
  rw [hslots]
  have hsub : places s ⊆ places { s.setTable q (some ⟨if ok then some fun _ => none else none,
      fun _ => false⟩) with procs := insert q s.procs } :=
    Finset.product_subset_product_left (Finset.subset_insert ..)
  refine ⟨⟨fun {f} hf => ?_, h.counted.pos, h.counted.live, h.counted.held_live, h.counted.bound,
    fun hx => hsub (h.counted.inside hx)⟩, fun r hr => ?_, h.logged.frame rfl rfl rfl, fun hbt => ?_, fun hbt => ?_⟩
  · rw [tally_subset hsub fun x _ hx => ?_]
    · exact h.counted.count hf
    · cases hv : slots s x with
      | none => rfl
      | some g => exact absurd (h.counted.inside hv) hx
  · change (update s.tables q _ r).isSome = true at hr
    rw [update_apply] at hr
    split at hr
    · rename_i heq
      rw [heq]
      exact Finset.mem_insert_self ..
    · exact Finset.mem_insert_of_mem (h.tabled r hr)
  · exact (h.rooted hbt).frame rfl rfl rfl fun _ => rfl
  · exact (h.piped hbt).frame (fun _ => ⟨rfl, rfl, rfl, rfl⟩) rfl rfl (fun _ hi => ⟨hi, rfl⟩) fun _ _ => rfl

theorem wp_cloneSlots (hnd : is.Nodup) (his : ∀ i ∈ is, i < openMax) (h : Mid b (slots s) held ed s)
    (hq : q ∈ s.procs) (hfree : ∀ i ∈ is, slot s q i = none) :
    wp NullOnly (cloneSlots p q is) (fun _ s' => Mid b (slots s') held ed s') s := by
  induction is generalizing s with
  | nil => exact h
  | cons i is ih =>
    obtain ⟨hni, hnd⟩ := List.nodup_cons.mp hnd
    obtain ⟨hi, his'⟩ := List.forall_mem_cons.mp his
    have hfree' : ∀ j ∈ is, slot s q j = none := fun j hj => hfree j (.tail _ hj)
    refine wp_then (wp_fdArray fun fd hfd => ?_)
    cases hfi : fd i with
    | none => exact wp_pure_then (ih hnd his' h hq hfree')
    | some f =>
      have hlive : Live s f := h.counted.live (x := (p, i)) ((slot_eq hfd hi).trans hfi)
      refine wp_seq (wp_fileGet h hlive) fun _ s1 hs1 => ?_
      obtain ⟨hmid, hsame⟩ := hs1
      rw [← hsame.slots] at hmid
      have hslot : ∀ j, slot s1 q j = slot s q j := fun j => congrFun hsame.slots (q, j)
      refine wp_seq (wp_install hmid hi ((hslot i).trans (hfree i (.head _))) (hsame.2 ▸ hq)) ?_
      rintro _ s2 ⟨hmid2, hshape2, hslots2⟩
      refine ih hnd his' hmid2 ?_ fun j hj => ?_
      · rw [hshape2.1, hsame.2]
        exact hq
      · have hne : (q, j) ≠ (q, i) := fun he => hni ((Prod.mk.inj he).2 ▸ hj)
        have hget := congrFun hslots2 (q, j)
        rw [update_of_ne hne] at hget
        exact hget.trans ((hslot j).trans (hfree' j hj))

theorem wp_filesClone (h : Mid b (slots s) held ed s) (hq : (s.tables q).isNone = true) :
    wp NullOnly (filesClone p q ok) (fun _ s' => Mid b (slots s') held ed s') s := by
  have hmem : ∀ i ∈ List.range openMax, i < openMax := fun _ => List.mem_range.mp
  have hnd : (List.range openMax).Nodup := List.nodup_range
  unfold filesClone
  generalize List.range openMax = is at hmem hnd
  refine wp_seq (wp_filesCreate h hq) fun _ s1 hs1 => ?_
  obtain ⟨hmid, hslots, hprocs, _⟩ := hs1
  have hfree : ∀ i, slot s1 q i = none := by
    intro i
    refine (congrFun hslots (q, i)).trans ?_
    rw [slots, slot, Option.isNone_iff_eq_none.mp hq]
    rfl
  exact wp_cloneSlots hnd hmem hmid (hprocs ▸ Finset.mem_insert_self ..) fun i _ => hfree i

/-! ## 4. Calls -/

variable {fd : Int}

theorem wp_fdToFile {Q : Option Nat → State → Prop} (hnone : Q none s)
    (hsome : ∀ f, slot s p fd.toNat = some f → 0 ≤ fd → fd < openMax → Q (some f) s) :
    wp NullOnly (fdToFile p fd) Q s := by
  refine wp_get_then ?_
  split
  · exact hnone
  · split
    · exact hnone
    · rename_i hrange
      have hlt : fd.toNat < openMax := by omega
      refine wp_then (wp_fdArray fun fd' hfd => (wp_pure ..).mpr ?_)
      cases hf : fd' fd.toNat with
      | none => exact hnone
      | some f => exact hsome f ((slot_eq hfd hlt).trans hf) (by omega) (by omega)

theorem wp_filesAllocFd {Q : Option Nat → State → Prop} (hnone : Q none s)
    (hsome : ∀ i < openMax, slot s p i = none → (s.tables p).isSome = true → Q (some i) s) :
    wp NullOnly (filesAllocFd p) Q s := by
  have hmem : ∀ i ∈ List.range openMax, i < openMax := fun _ => List.mem_range.mp
  unfold filesAllocFd
  generalize List.range openMax = is at hmem
  refine wp_then (wp_fdArray fun fd hfd => (wp_pure ..).mpr ?_)
  cases hfind : is.find? fun i => (fd i).isNone with
  | none => exact hnone
  | some i =>
    have hi := hmem i (List.mem_of_find?_eq_some hfind)
    have hfree := List.find?_some hfind
    obtain ⟨t, ht, _⟩ := Option.bind_eq_some_iff.mp hfd
    refine hsome i hi ?_ (by rw [ht]; rfl)
    rw [slot_eq hfd hi]
    exact Option.isNone_iff_eq_none.mp hfree

theorem Mid.perm {held' : List Nat} (h : Mid b v held ed s) (hp : held.Perm held') : Mid b v held' ed s := by
  obtain ⟨h1, h2, h3, h4, h5, h6⟩ := h.counted
  refine ⟨⟨fun hf => ?_, h2, h3, fun hm => h4 (hp.mem_iff.mpr hm), h5, h6⟩, h.tabled, h.logged, h.rooted, h.piped⟩
  rw [← hp.count_eq]
  exact h1 hf

theorem wp_fileAlloc {o : FileOps} (h : Mid b v held [d] s) (ho : ¬ IsEnd o) :
    wp NullOnly (fileAlloc d o 0) (fun f s' => Mid b v (f :: held) [] s' ∧ SameTables s s') s := by
  refine ⟨⟨h.counted.new rfl, h.tabled, h.logged.new, fun hbt => ?_, fun hbt => ?_⟩, rfl, rfl⟩
  · exact (h.rooted hbt).new
  · exact (h.piped hbt).new ho

/-- A target that comes with a reference to its dentry, and not through a mount. -/
def Target.Counted : Target → Prop
  | .existing _ => False
  | .through .. => False
  | _ => True

/-- Dentries and inodes are given out; nothing else happens. -/
theorem Mid.fresh {ed' : List Nat} (h : Mid b v held ed s) (hf : s'.files = s.files)
    (hn : s'.nextFile = s.nextFile) (hs : SameTables s s') (hr : s'.released = s.released)
    (hnp : s'.nextPipe = s.nextPipe) (hp : s'.pipes = s.pipes)
    (hd : ∀ d, (s.dentries d).live = true → (s'.dentries d).val.inode = (s.dentries d).val.inode)
    (hi : ∀ i, (s.inodes i).live = true → (s'.inodes i).val.priv = (s.inodes i).val.priv)
    (hrooted : b = true → Rooted ed' [] s') : Mid b v held ed' s' := by
  refine ⟨h.counted.frame hf hn hs.2, fun q hq => ?_, h.logged.frame hf hn hr, hrooted, fun hbt => ?_⟩
  · rw [hs.1] at hq
    rw [hs.2]
    exact h.tabled q hq
  · exact (h.piped hbt).fresh (h.rooted hbt) h.counted.bound hf hn hnp hp hd hi

theorem wp_openDentry (h : Mid b v held [] s) (ho : target.Offered s) (hc : b = true → target.Counted) :
    wp NullOnly (openDentry target) (fun r s' => (∀ d, r = some d → Mid b v held [d] s') ∧
      (r = none → Mid b v held [] s') ∧ SameTables s s') s := by
  induction target generalizing s with
  | missing => exact (wp_pure ..).mpr ⟨nofun, fun _ => h, rfl, rfl⟩
  | found d =>
    refine wp_modify_then ((wp_pure ..).mpr ⟨fun e he => ?_, nofun, rfl, rfl⟩)
    cases he
    refine h.fresh rfl rfl ⟨rfl, rfl⟩ rfl rfl rfl (fun e _ => ?_) (fun _ _ => rfl) fun hbt => ?_
    · rw [State.dentryGet, dentries_setDentry]
      split
      · rename_i heq
        rw [heq]
      · rfl
    · exact (h.rooted hbt).get ho.1
  | existing d =>
    refine (wp_pure ..).mpr ⟨fun e he => ?_, nofun, rfl, rfl⟩
    exact ⟨h.counted, h.tabled, h.logged, fun hbt => (hc hbt).elim, fun hbt => (hc hbt).elim⟩
  | created d i ok =>
    have hdead : (s.dentries d).live = false := Bool.eq_false_iff.mpr ho.1
    have hdeadI : (s.inodes i).live = false := Bool.eq_false_iff.mpr ho.2
    have hcell : ∀ (c : Cell Dentry) e, (s.dentries e).live = true →
        (update s.dentries d c e).val.inode = (s.dentries e).val.inode := by
      intro c e he
      rw [update_of_ne]
      rintro rfl
      rw [hdead] at he
      cases he
    refine wp_modify_then ?_
    cases ok with
    | true =>
      refine wp_modify_then ((wp_pure ..).mpr ⟨fun e he => ?_, nofun, rfl, rfl⟩)
      cases he
      have hidem : (((s.setDentry d ⟨true, ⟨none, 1, true⟩⟩).setInode i ⟨true, ⟨2, true, none⟩⟩).setDentry d
          ⟨true, ⟨some i, 1, true⟩⟩) = (s.setInode i ⟨true, ⟨2, true, none⟩⟩).setDentry d
            ⟨true, ⟨some i, 1, true⟩⟩ := by
        simp only [State.setDentry, State.setInode, update_idem]
      rw [hidem]
      refine h.fresh rfl rfl ⟨rfl, rfl⟩ rfl rfl rfl (hcell _) (fun j hj => ?_) fun hbt => ?_
      · change (update s.inodes i _ j).val.priv = _
        rw [update_of_ne]
        rintro rfl
        rw [hdeadI] at hj
        cases hj
      · have hino : Rooted [] [i, i] (s.setInode i ⟨true, ⟨2, true, none⟩⟩) :=
          (h.rooted hbt).newInode (x := ⟨2, true, none⟩) hdeadI
        exact hino.forget.newDentry (x := ⟨some i, 1, true⟩) hdead rfl
    | false =>
      refine wp_modify_then ((wp_pure ..).mpr ?_)
      have hnew : Mid b v held [d] (s.setDentry d ⟨true, ⟨none, 1, true⟩⟩) := by
        refine h.fresh rfl rfl ⟨rfl, rfl⟩ rfl rfl rfl (hcell _) (fun _ _ => rfl) fun hbt => ?_
        exact Rooted.newDentry (x := ⟨none, 1, true⟩) (h.rooted hbt) hdead rfl
      obtain ⟨hput, hsame⟩ := hnew.dentryPut
      exact ⟨nofun, fun _ => hput, hsame⟩
  | through m r rest ih =>
    -- the counts of dentries are off from here on; those of files are not
    obtain rfl : b = false := Bool.eq_false_iff.mpr fun hbt => hc hbt
    have hoff : ∀ {P : Prop}, false = true → P := fun hf => absurd hf Bool.false_ne_true
    have hget : Mid false v held [r] (s.dentryGet m) :=
      ⟨h.counted.frame rfl rfl rfl, h.tabled, h.logged.frame rfl rfl rfl, hoff, hoff⟩
    obtain ⟨hput, hsame⟩ := hget.dentryPut
    refine wp_modify_then (wp_imp (ih hput ho.2 hoff) fun _ s' hs' => ⟨hs'.1, hs'.2.1, ?_⟩)
    exact ⟨hs'.2.2.1.trans hsame.1, hs'.2.2.2.trans hsame.2⟩

/-- **`vfs_open`** returns with a reference to a new file, or leaves nothing behind. -/
theorem wp_vfsOpen (h : Mid b v held [] s) (ho : target.Offered s) (hc : b = true → target.Counted) :
    wp NullOnly (vfsOpen target refused ok) (fun r s' => (∀ f, r = some f → Mid b v (f :: held) [] s') ∧
      (r = none → Mid b v held [] s') ∧ SameTables s s') s := by
  refine wp_seq (wp_openDentry h ho hc) fun r s1 hs1 => ?_
  obtain ⟨hsome, hnone, hsame⟩ := hs1
  cases r with
  | none => exact (wp_pure ..).mpr ⟨nofun, hnone, hsame⟩
  | some d =>
    have hmid := hsome d rfl
    have hdrop : wp NullOnly (do modify fun s => s.dentryPut d; pure (none : Option Nat)) (fun r s' =>
        (∀ f, r = some f → Mid b v (f :: held) [] s') ∧ (r = none → Mid b v held [] s') ∧ SameTables s s') s1 := by
      refine wp_modify_then ((wp_pure ..).mpr ?_)
      obtain ⟨hput, hsame'⟩ := hmid.dentryPut
      exact ⟨nofun, fun _ => hput, hsame'.1.trans hsame.1, hsame'.2.trans hsame.2⟩
    refine wp_get_then ?_
    cases (s1.dentries d).val.inode with
    | none => exact hdrop
    | some i =>
      dsimp only
      split
      · exact hdrop
      · refine wp_seq (wp_fileAlloc hmid ?_) fun f s2 hs2 => (wp_pure ..).mpr ?_
        · split <;> rintro (h | h) <;> cases h
        · obtain ⟨hnew, hsame'⟩ := hs2
          refine ⟨fun g hg => ?_, nofun, hsame'.1.trans hsame.1, hsame'.2.trans hsame.2⟩
          cases hg
          exact hnew

theorem wp_newFile {o : FileOps} {pipe : Nat} {Q : Nat → State → Prop} :
    wp NullOnly (fileAlloc d o pipe) Q s ↔ Q s.nextFile (s.withNew ⟨d, o, 1, pipe⟩) := Iff.rfl

/-- The state in which `vfs_pipe` returns, written in the order in which the references are handed on: two from the
    inode to the dentries, one from each dentry to its file. -/
def State.withPipe (s : State) (i rde wde : Nat) : State :=
  { ((((s.setInode i ⟨true, ⟨2, false, some s.nextPipe⟩⟩).setDentry rde ⟨true, ⟨some i, 1, false⟩⟩).withNew
      ⟨rde, .pipeRead, 1, s.nextPipe⟩).setDentry wde ⟨true, ⟨some i, 1, false⟩⟩).withNew
      ⟨wde, .pipeWrite, 1, s.nextPipe⟩ with
    pipes := update s.pipes s.nextPipe (Pipe.new fun _ => 0), nextPipe := s.nextPipe + 1 }

theorem Rooted.withPipe {rde wde : Nat} (h : Rooted [] [] s) (hi : (s.inodes i).live = false)
    (hr : (s.dentries rde).live = false) (hw : (s.dentries wde).live = false) (hne : wde ≠ rde) :
    Rooted [] [] (s.withPipe i rde wde) := by
  have h1 : Rooted [] [i, i] (s.setInode i ⟨true, ⟨2, false, some s.nextPipe⟩⟩) :=
    h.newInode (x := ⟨2, false, some s.nextPipe⟩) hi
  have h2 := Rooted.newDentry (x := ⟨some i, 1, false⟩) h1 hr rfl
  have h3 : Rooted [] [i] _ := Rooted.new (x := ⟨rde, .pipeRead, 1, s.nextPipe⟩) h2
  have hw' : ((((s.setInode i ⟨true, ⟨2, false, some s.nextPipe⟩⟩).setDentry rde
      ⟨true, ⟨some i, 1, false⟩⟩).withNew ⟨rde, .pipeRead, 1, s.nextPipe⟩).dentries wde).live = false := by
    change (update s.dentries rde _ wde).live = false
    rw [update_of_ne hne]
    exact hw
  have h4 := Rooted.newDentry (x := ⟨some i, 1, false⟩) h3 hw' rfl
  have h5 : Rooted [] [] _ := Rooted.new (x := ⟨wde, .pipeWrite, 1, s.nextPipe⟩) h4
  exact h5.frame rfl rfl rfl fun _ => rfl

theorem Piped.withPipe {rde wde : Nat} (h : Piped s) (hroot : Rooted [] [] s)
    (hbound : ∀ {f}, Live s f → f < s.nextFile) (hi : (s.inodes i).live = false) (hr : (s.dentries rde).live = false)
    (hw : (s.dentries wde).live = false) (hne : wde ≠ rde) :
    Piped (s.withPipe i rde wde) := by
  refine h.newPipe (i := i) hroot hbound rfl rfl rfl rfl ?_ ?_ ?_ (fun d hd => ?_) fun j hj => ?_
  · change (update (update s.dentries rde _) wde _ rde).val.inode = _
    rw [update_of_ne hne.symm, update_self]
  · change (update (update s.dentries rde _) wde _ wde).val.inode = _
    rw [update_self]
  · change (update s.inodes i _ i).val.priv = _
    rw [update_self]
  · have hdr : d ≠ rde := by
      rintro rfl
      rw [hr] at hd
      cases hd
    have hdw : d ≠ wde := by
      rintro rfl
      rw [hw] at hd
      cases hd
    change (update (update s.dentries rde _) wde _ d).val.inode = _
    rw [update_of_ne hdw, update_of_ne hdr]
  · have hji : j ≠ i := by
      rintro rfl
      rw [hi] at hj
      cases hj
    change (update s.inodes i _ j).val.priv = _
    rw [update_of_ne hji]

theorem Mid.withPipe {rde wde : Nat} (h : Mid b v held [] s) (hi : (s.inodes i).live = false)
    (hr : (s.dentries rde).live = false) (hw : (s.dentries wde).live = false) (hne : wde ≠ rde) :
    Mid b v (s.nextFile :: (s.nextFile + 1) :: held) [] (s.withPipe i rde wde) := by
  have hcount : Counted v ((s.nextFile + 1) :: s.nextFile :: held) (s.withPipe i rde wde) :=
    ((h.counted.new (x := ⟨rde, .pipeRead, 1, s.nextPipe⟩) rfl).new
      (x := ⟨wde, .pipeWrite, 1, s.nextPipe⟩) rfl).frame rfl rfl rfl
  have hlog := (h.logged.new (x := ⟨rde, .pipeRead, 1, s.nextPipe⟩)).new (x := ⟨wde, .pipeWrite, 1, s.nextPipe⟩)
  refine Mid.perm ⟨hcount, h.tabled, hlog.frame rfl rfl rfl, fun hbt => ?_, fun hbt => ?_⟩ (.swap ..)
  · exact (h.rooted hbt).withPipe hi hr hw hne
  · exact (h.piped hbt).withPipe (h.rooted hbt) h.counted.bound hi hr hw hne

/-- **`vfs_pipe`** returns with a reference to each end, or leaves nothing behind. -/
theorem wp_vfsPipe {rde wde : Option Nat} (h : Mid b v held [] s) (hi : ∀ i ∈ inode, ¬ (s.inodes i).live)
    (hr : ∀ d ∈ rde, ¬ (s.dentries d).live) (hw : ∀ d ∈ wde, ¬ (s.dentries d).live) (hne : rde = wde → rde = none) :
    wp NullOnly (vfsPipe inode rde wde rf wf) (fun r s' =>
      (∀ x, r = some x → Mid b v (x.1 :: x.2 :: held) [] s') ∧ (r = none → Mid b v held [] s') ∧
        SameTables s s') s := by
  cases inode with
  | none => exact (wp_pure ..).mpr ⟨(fun _ hx => by cases hx), fun _ => h, rfl, rfl⟩
  | some i =>
    refine wp_get_then (wp_modify_then ?_)
    -- a failed allocation of a dentry or a file is not tested by the source
    rcases rde with _ | rde
    · exact rfl
    rcases wde with _ | wde
    · exact rfl
    cases rf with
    | false => exact rfl
    | true =>
      cases wf with
      | false => exact rfl
      | true =>
        have hrw : wde ≠ rde := fun he => Option.some_ne_none _ (hne (congrArg some he.symm))
        have hmid := h.withPipe (Bool.eq_false_iff.mpr (hi i rfl)) (Bool.eq_false_iff.mpr (hr rde rfl))
          (Bool.eq_false_iff.mpr (hw wde rfl)) hrw
        refine wp_modify_then (wp_then (wp_newFile.mpr ?_))
        refine wp_modify_then (wp_then (wp_newFile.mpr ?_))
        refine wp_modify_then ((wp_pure ..).mpr ?_)
        generalize hend : State.inodePut _ i = t
        have ht : t = s.withPipe i rde wde := by
          rw [← hend]
          simp [State.inodePut, State.withPipe, State.setInode, State.setDentry, State.withNew, update_idem]
        rw [ht]
        refine ⟨fun x hx => ?_, (fun hx => by cases hx), rfl, rfl⟩
        cases hx
        exact hmid

/-- The invariant between two calls. -/
abbrev Between (b : Bool) (s : State) : Prop := Mid b (slots s) [] [] s

theorem wp_installFree (h : Mid b (slots s) (f :: held) ed s) (hi : i < openMax) (hfree : slot s p i = none)
    (ht : (s.tables p).isSome = true) :
    wp NullOnly (setFd p i (some f)) (fun _ s' => Mid b (slots s') held ed s') s :=
  wp_imp (wp_install h hi hfree (h.tabled p ht)) fun _ _ hs => hs.1

theorem wp_sysOpen (h : Between b s) (ho : target.Offered s) (hc : b = true → target.Counted) :
    wp NullOnly (sysOpen p target refused ok) (fun _ s' => Between b s') s := by
  refine wp_seq (wp_vfsOpen h ho hc) fun r s1 hs1 => ?_
  obtain ⟨hsome, hnone, hsame⟩ := hs1
  rw [← hsame.slots] at hsome hnone
  cases r with
  | none => exact (hnone rfl)
  | some f =>
    have hmid := hsome f rfl
    refine wp_then (wp_filesAllocFd ?_ fun i hi hfree ht => ?_)
    · refine wp_seq (wp_filePut hmid) fun _ s2 hs2 => (wp_pure ..).mpr ?_
      rw [← hs2.2.slots] at hs2
      exact hs2.1
    · refine wp_seq (wp_installFree hmid hi hfree ht) fun _ s2 hs2 => ?_
      exact hs2

theorem wp_filesFreeFd (h : Mid b (slots s) held [] s) :
    wp NullOnly (filesFreeFd p fd) (fun _ s' => Mid b (slots s') held [] s' ∧ SameShape s s' ∧
      (0 ≤ fd → fd < openMax → slots s' = update (slots s) (p, fd.toNat) none)) s := by
  unfold filesFreeFd
  split
  · refine wp_imp (wp_freeSlot h (by omega)) fun _ s1 hs1 => ?_
    exact ⟨hs1.1, hs1.2.1, fun _ _ => hs1.2.2⟩
  · rename_i hout
    exact (wp_pure ..).mpr ⟨h, ⟨rfl, fun _ => rfl⟩, fun h0 h1 => absurd ⟨h0, h1⟩ hout⟩

section Calls

variable (h : Between b s)

include h

theorem wp_sysClose : wp NullOnly (sysClose p fd) (fun _ s' => Between b s') s := by
  refine wp_then (wp_fdToFile h fun f _ _ _ => ?_)
  refine wp_seq (wp_filesFreeFd h) fun _ s1 hs1 => ?_
  exact hs1.1

theorem wp_sysDup : wp NullOnly (sysDup p fd) (fun _ s' => Between b s') s := by
  refine wp_then (wp_fdToFile h fun f hf _ _ => ?_)
  refine wp_then (wp_filesAllocFd h fun i hi hfree ht => ?_)
  have hlive : Live s f := h.counted.live (x := (p, fd.toNat)) hf
  refine wp_seq (wp_fileGet h hlive) fun _ s1 hs1 => ?_
  obtain ⟨hmid, hsame⟩ := hs1
  rw [← hsame.slots] at hmid
  have hfree1 : slot s1 p i = none := (congrFun hsame.slots (p, i)).trans hfree
  refine wp_seq (wp_installFree hmid hi hfree1 (hsame.1 ▸ ht)) fun _ s2 hs2 => ?_
  exact hs2

/-- **`dup2`** drops the file under the new number before it takes its reference; the old number keeps the file alive
    meanwhile. -/
theorem wp_sysDup2 {old new : Int} : wp NullOnly (sysDup2 p old new) (fun _ s' => Between b s') s := by
  unfold sysDup2
  split
  · exact h
  · rename_i hne
    refine wp_then (wp_fdToFile h fun f hf h0 _ => ?_)
    dsimp only
    split
    · exact h
    · have hrange : 0 ≤ new ∧ new < openMax := by omega
      have htable : (s.tables p).isSome = true := by
        cases ht : s.tables p with
        | none =>
          rw [slot, ht] at hf
          cases hf
        | some t => rfl
      refine wp_seq (wp_filesFreeFd h) fun _ s1 hs1 => ?_
      obtain ⟨hmid, hshape, hslots⟩ := hs1
      have hslots := hslots hrange.1 hrange.2
      have hold : slots s1 (p, old.toNat) = some f := by
        rw [hslots, update_of_ne]
        · exact hf
        · intro he
          have := (Prod.mk.inj he).2
          omega
      refine wp_seq (wp_fileGet hmid (hmid.counted.live hold)) fun _ s2 hs2 => ?_
      obtain ⟨hmid2, hsame2⟩ := hs2
      rw [← hsame2.slots] at hmid2
      have hfree : slot s2 p new.toNat = none := by
        refine (congrFun (hsame2.slots.trans hslots) (p, new.toNat)).trans ?_
        rw [update_self]
      have ht : (s2.tables p).isSome = true := by
        rw [hsame2.1, hshape.2 p]
        exact htable
      refine wp_seq (wp_installFree hmid2 (by omega) hfree ht) fun _ s3 hs3 => ?_
      exact hs3

/-- **`pipe`**, with its exits for no free number and for a single one. -/
theorem wp_sysPipe {rde wde : Option Nat} (ho : (Event.pipe p inode rde wde rf wf).Offered s) :
    wp NullOnly (sysPipe p inode rde wde rf wf) (fun _ s' => Between b s') s := by
  obtain ⟨hi, hr, hw, hne⟩ := ho
  refine wp_seq (wp_vfsPipe h hi hr hw hne) fun x s1 hs1 => ?_
  obtain ⟨hsome, hnone, hsame⟩ := hs1
  rw [← hsame.slots] at hsome hnone
  cases x with
  | none => exact (hnone rfl)
  | some x =>
    obtain ⟨r, w⟩ := x
    have hmid := hsome (r, w) rfl
    refine wp_then (wp_filesAllocFd ?_ fun i hi hfree ht => ?_)
    · refine wp_seq (wp_filePut hmid) fun _ s2 hs2 => ?_
      refine wp_seq (wp_filePut hs2.1) fun _ s3 hs3 => (wp_pure ..).mpr ?_
      rw [← hs2.2.slots, ← hs3.2.slots] at hs3
      exact hs3.1
    · refine wp_seq (wp_installFree hmid hi hfree ht) fun _ s2 hmid2 => ?_
      refine wp_then (wp_filesAllocFd ?_ fun j hj hfree2 ht2 => ?_)
      · generalize (i : Int) = rfd
        refine wp_seq (wp_filesFreeFd hmid2) fun _ s3 hs3 => ?_
        refine wp_seq (wp_filePut hs3.1) fun _ s4 hs4 => (wp_pure ..).mpr ?_
        rw [← hs4.2.slots] at hs4
        exact hs4.1
      · refine wp_seq (wp_installFree hmid2 hj hfree2 ht2) fun _ s3 hs3 => ?_
        exact hs3

theorem wp_fcntlSetfd {on : Bool} : wp NullOnly (fcntlSetfd p fd on) (fun _ s' => Between b s') s := by
  refine wp_then (wp_fdToFile h fun f _ _ _ => ?_)
  refine wp_modify_then ((wp_pure ..).mpr ?_)
  generalize hT : s.setTable p _ = t
  have htable : ∀ q, (t.tables q).map Table.fd = (s.tables q).map Table.fd := by
    intro q
    rw [← hT]
    change (update s.tables p _ q).map Table.fd = _
    rw [update_apply]
    split
    · rename_i heq
      rw [heq, Option.map_map]
      rfl
    · rfl
  have hslots : slots t = slots s := by
    funext x
    have hx := htable x.1
    rw [slots, slots, slot, slot]
    revert hx
    cases t.tables x.1 <;> cases s.tables x.1 <;> intro hx
    · rfl
    · cases hx
    · cases hx
    · rw [Option.bind_some, Option.bind_some, Option.some.inj hx]
  have hmid : Mid b (slots s) [] [] t := by
    rw [← hT]
    refine h.withTables fun q hq => h.tabled q ?_
    have hq' := htable q
    rw [← hT] at hq'
    rw [← Option.isSome_map (f := Table.fd), ← hq', Option.isSome_map]
    exact hq
  rw [Between, hslots]
  exact hmid

/-- A pipe's content changes; who holds its ends does not. -/
theorem Between.transfer {x : Nat} {y : Pipe} (hr : y.readers = (s.pipes x).readers)
    (hw : y.writers = (s.pipes x).writers) : Between b { s with pipes := update s.pipes x y } := by
  refine ⟨h.counted.frame rfl rfl rfl, h.tabled, h.logged.frame rfl rfl rfl,
    fun hbt => (h.rooted hbt).frame rfl rfl rfl fun _ => rfl, fun hbt => ?_⟩
  refine (h.piped hbt).frame (fun _ => ⟨rfl, rfl, rfl, rfl⟩) rfl rfl (fun _ hi => ⟨hi, rfl⟩) fun o q => ?_
  change o.ends (update s.pipes x y q) = _
  rw [update_apply]
  split
  · rename_i heq
    rw [heq]
    cases o
    · exact hr
    · exact hw
    · rfl
    · rfl
  · rfl

theorem wp_pipeRead (hf : Live s f) : wp NullOnly (pipeRead f n) (fun _ s' => Between b s') s := by
  refine wp_then (wp_getFile hf (wp_get_then ?_))
  cases (s.dentries (s.files f).val.dentry).val.inode with
  | none => exact rfl
  | some i =>
    dsimp only
    cases (s.inodes i).val.priv with
    | none => exact h
    | some x =>
      obtain ⟨hr, hw⟩ := (s.pipes x).readChunk_ends n
      refine wp_then ((wp_set ..).mpr ?_)
      have hafter := h.transfer hr hw
      split
      · exact hafter
      · exact hafter
      · exact hafter

theorem wp_pipeWrite (hf : Live s f) : wp NullOnly (pipeWrite f bytes) (fun _ s' => Between b s') s := by
  refine wp_then (wp_getFile hf (wp_get_then ?_))
  cases (s.dentries (s.files f).val.dentry).val.inode with
  | none => exact rfl
  | some i =>
    dsimp only
    cases (s.inodes i).val.priv with
    | none => exact h
    | some x =>
      dsimp only
      split
      · exact h
      · obtain ⟨hr, hw⟩ := (s.pipes x).writeChunk_ends bytes
        exact wp_then ((wp_set ..).mpr ((wp_pure ..).mpr (h.transfer hr hw)))

theorem wp_sysRead : wp NullOnly (sysRead p fd n) (fun _ s' => Between b s') s := by
  refine wp_then (wp_fdToFile h fun f hf _ _ => ?_)
  have hlive : Live s f := h.counted.live (x := (p, fd.toNat)) hf
  refine wp_then (wp_getFile hlive ?_)
  split
  · exact wp_pipeRead h hlive
  · exact h

theorem wp_sysWrite : wp NullOnly (sysWrite p fd bytes) (fun _ s' => Between b s') s := by
  refine wp_then (wp_fdToFile h fun f hf _ _ => ?_)
  have hlive : Live s f := h.counted.live (x := (p, fd.toNat)) hf
  refine wp_then (wp_getFile hlive ?_)
  split
  · exact wp_pipeWrite h hlive
  · exact h

end Calls

/-! ## 5. Runs -/

/-- An open that meets an existing name with `O_CREAT` takes the dentry without a reference, and one through a mount
    drops a reference that nobody took. -/
def Event.Counted : Event → Prop
  | .open _ target _ _ => target.Counted
  | _ => True

theorem wp_void {α : Type} {m : M α} (h : wp NullOnly m (fun _ s' => Between b s') s) :
    wp NullOnly (void m) (fun _ s' => Between b s') s :=
  wp_seq h fun _ _ hs => (wp_pure ..).mpr hs

theorem wp_execFiles (h : Between b s) : wp NullOnly (execFiles p) (fun _ s' => Between b s') s := by
  have hmem : ∀ i ∈ List.range openMax, i < openMax := fun _ => List.mem_range.mp
  unfold execFiles
  generalize List.range openMax = is at hmem
  exact wp_closeOnExec hmem h

/-- **Every call keeps the accounts.** -/
theorem call_mid (h : Between b s) (ho : e.Offered s) (hc : b = true → e.Counted) :
    wp NullOnly e.call (fun _ s' => Between b s') s := by
  cases e with
  | «open» p target refused ok => exact wp_void (wp_sysOpen h ho hc)
  | close p fd => exact wp_void (wp_sysClose h)
  | dup p fd => exact wp_void (wp_sysDup h)
  | dup2 p old new => exact wp_void (wp_sysDup2 h)
  | pipe p inode rde wde rf wf => exact wp_void (wp_sysPipe h ho)
  | dupfd p fd =>
    refine wp_void (wp_then (wp_fdToFile h fun f _ _ _ => ?_))
    exact wp_sysDup h
  | setfd p fd on => exact wp_void (wp_fcntlSetfd h)
  | fork p q ok => exact wp_filesClone h ho.2
  | exec p => exact wp_execFiles h
  | exit p => exact wp_imp (wp_filesDestroy h) fun _ _ hs => hs.1
  | read p fd n => exact wp_void (wp_sysRead h)
  | write p fd bytes => exact wp_void (wp_sysWrite h)

theorem run_between (hr : Run Step s es t) (hc : b = true → ∀ e ∈ es, e.Counted) (h : Between b s) : Between b t := by
  induction hr with
  | nil s => exact h
  | cons hstep hr ih =>
    obtain ⟨ho, hcall⟩ := hstep
    have hmid := call_mid h ho fun hbt => hc hbt _ (.head _)
    rw [wp, hcall] at hmid
    exact ih (fun hbt e he => hc hbt e (.tail _ he)) hmid

/-- No file has been opened, and every dentry of the tree has a reference to its inode. -/
structure Start (s : State) : Prop where
  files : ∀ f, (s.files f).live = false
  nextFile : s.nextFile = 0
  nextPipe : s.nextPipe = 0
  tabled : ∀ p, (s.tables p).isSome = true → p ∈ s.procs
  free : ∀ p i, slot s p i = none
  released : s.released = []
  tree : ∃ S : Finset Nat, (∀ d, (s.dentries d).live = true → d ∈ S) ∧
    ∀ i, tally S (inodeOf ∘ s.dentries) i ≤ inodeRefs (s.inodes i)

theorem Start.between (h : Start s) : Between b s := by
  have hdead : ∀ {f}, ¬ Live s f := fun {f} hf => Bool.false_ne_true ((h.files f).symm.trans hf)
  have hslots : ∀ {x f}, slots s x ≠ some f := fun {x f} hx => by
    rw [slots, h.free] at hx
    cases hx
  refine ⟨⟨fun hf => (hdead hf).elim, fun hf => (hdead hf).elim, fun hx => (hslots hx).elim, nofun,
    fun hf => (hdead hf).elim, fun hx => (hslots hx).elim⟩, h.tabled, ⟨fun f hf => ?_, fun f hf => ?_⟩,
    fun _ => ?_, fun _ => ?_⟩
  · rw [h.nextFile] at hf
    exact absurd hf (Nat.not_lt_zero f)
  · rw [h.released] at hf
    exact absurd hf List.not_mem_nil
  · obtain ⟨S, hS, hi⟩ := h.tree
    refine ⟨fun d => ?_, S, hS, hi⟩
    rw [h.nextFile]
    exact Nat.zero_le _
  · refine ⟨fun hf => (hdead hf).elim, fun hf => (hdead hf).elim, fun _ q hq => ?_⟩
    rw [h.nextPipe] at hq
    exact absurd hq (Nat.not_lt_zero q)

/-- How many descriptors, of all processes, hold the file. -/
def descriptors (s : State) (f : Nat) : Nat := tally (places s) (slots s) f

theorem Mid.refs_eq (h : Between b s) (hf : Live s f) : refs s f = descriptors s f := h.counted.count hf

theorem Mid.released_eq (h : Between b s) (hf : f < s.nextFile) (ho : (s.files f).val.ops.hasRelease = true) :
    s.released.count f = if descriptors s f = 0 then 1 else 0 := by
  rw [h.logged.once f hf ho]
  by_cases hl : Live s f
  · have hpos := h.counted.pos hl
    rw [h.refs_eq hl] at hpos
    rw [if_pos (show (s.files f).live = true from hl), if_neg (Nat.ne_of_gt hpos)]
  · have hzero : descriptors s f = 0 := tally_zero fun x _ hx => hl (h.counted.live hx)
    rw [if_neg (show ¬ (s.files f).live = true from hl), if_pos hzero]

/-- An end of file on an empty pipe means that nobody holds its other end. -/
theorem Mid.eof {r w : Nat} (h : Between true s) (hr : Live s r) (hor : (s.files r).val.ops = .pipeRead)
    (hw : Live s w) (how : (s.files w).val.ops = .pipeWrite) (hempty : (s.pipes (s.files r).val.pipe).size = 0)
    (hread : pipeRead r n s = .ok (some 0, t)) :
    (s.files w).val.pipe ≠ (s.files r).val.pipe := by
  intro hsame
  obtain ⟨i, hi, hpriv⟩ := (h.piped rfl).ends hr (.inl hor)
  have hcount := (h.piped rfl).count (.inr rfl) _ ((h.piped rfl).known hr (.inl hor))
  have hpos : 0 < tally (Finset.range s.nextFile) (endOf .pipeWrite ∘ s.files) (s.files r).val.pipe := by
    refine tally_pos (Finset.mem_range.mpr (h.counted.bound hw)) ?_
    rw [Function.comp, endOf, if_pos ⟨hw, how⟩, hsame]
  have hwriters : (s.pipes (s.files r).val.pipe).writers ≠ 0 := by
    change (s.pipes (s.files r).val.pipe).writers = _ at hcount
    omega
  have hwait : wp NullOnly (pipeRead r n) (fun x _ => x = none) s := by
    refine wp_then (wp_getFile hr (wp_get_then ?_))
    rw [hi]
    dsimp only
    rw [hpriv]
    dsimp only
    rw [Pipe.readChunk_empty n hempty, if_neg hwriters]
    exact wp_then ((wp_set ..).mpr rfl)
  rw [wp, hread] at hwait
  cases hwait

/-- **References to open files are accounted for.** In every run, whatever fails in it: the count of an open file is
    the number of descriptors that hold it, no descriptor holds a freed file and no call touches one, and the release
    operation has run once for a file that no descriptor holds and not at all for the others. If moreover no `open`
    with `O_CREAT` met an existing name, a read from an empty pipe returns 0 only when no process holds the write end.
    -/
theorem descriptors_accounted {s₀ : State} {es : List Event} (hs : Start s₀) (hr : Run Step s₀ es s) :
    (∀ f, Live s f → refs s f = descriptors s f) ∧
    (∀ p i f, slot s p i = some f → Live s f) ∧
    (∀ f < s.nextFile, (s.files f).val.ops.hasRelease = true →
      s.released.count f = if descriptors s f = 0 then 1 else 0) ∧
    (∀ (e : Event) c, e.Offered s → e.call s = .error c → c = .null) ∧
    ((∀ e ∈ es, e.Counted) → ∀ p i r q j w n t, slot s p i = some r → (s.files r).val.ops = .pipeRead →
      slot s q j = some w → (s.files w).val.ops = .pipeWrite → (s.pipes (s.files r).val.pipe).size = 0 →
      pipeRead r n s = .ok (some 0, t) → (s.files w).val.pipe ≠ (s.files r).val.pipe) := by
  have h : Between false s := run_between hr nofun hs.between
  refine ⟨fun f hf => h.refs_eq hf, fun p i f hf => h.counted.live (x := (p, i)) hf,
    fun f hf ho => h.released_eq hf ho, fun e c ho he => ?_, fun hc p i r q j w n t hpr hor hqw how hempty hread => ?_⟩
  · have hcall := call_mid h ho nofun
    rw [wp, he] at hcall
    exact hcall
  · have hall : Between true s := run_between hr (fun _ => hc) hs.between
    exact hall.eof (hall.counted.live (x := (p, i)) hpr) hor (hall.counted.live (x := (q, j)) hqw) how hempty hread

instance Target.decidableOffered : ∀ (s : State) (t : Target), Decidable (t.Offered s)
  | _, .missing => .isTrue trivial
  | s, .found d => inferInstanceAs (Decidable ((s.dentries d).live = true ∧ (s.dentries d).val.named = true))
  | s, .existing d => inferInstanceAs (Decidable ((s.dentries d).live = true ∧ (s.dentries d).val.named = true))
  | s, .created d i _ => inferInstanceAs (Decidable (¬ (s.dentries d).live = true ∧ ¬ (s.inodes i).live = true))
  | s, .through m r rest =>
    have := decidableOffered ((s.dentryGet m).dentryPut r) rest
    inferInstanceAs (Decidable (((s.dentries m).live = true ∧ (s.dentries r).live = true) ∧ rest.Offered _))

instance (s : State) : ∀ e : Event, Decidable (e.Offered s)
  | .open _ target _ _ => inferInstanceAs (Decidable (target.Offered s))
  | .pipe _ inode rde wde _ _ => inferInstanceAs (Decidable ((∀ i ∈ inode, ¬ (s.inodes i).live = true) ∧
      (∀ d ∈ rde, ¬ (s.dentries d).live = true) ∧ (∀ d ∈ wde, ¬ (s.dentries d).live = true) ∧ (rde = wde → rde = none)))
  | .fork p q _ => inferInstanceAs (Decidable (p ≠ q ∧ (s.tables q).isNone = true))
  | .close .. | .dup .. | .dup2 .. | .dupfd .. | .setfd .. | .exec .. | .exit .. | .read .. | .write .. =>
    .isTrue trivial

/-- The state after a call that comes back. -/
def next (s : State) (e : Event) : Option State :=
  if e.Offered s then (e.call s).toOption.map Prod.snd else none

theorem step_of_next (h : next s e = some s') : Step s e s' := by
  unfold next at h
  split at h
  · rename_i ho
    refine ⟨ho, ?_⟩
    cases hc : e.call s with
    | error c =>
      rw [hc] at h
      cases h
    | ok x =>
      rw [hc] at h
      cases h
      rfl
  · cases h

theorem run_next (s : State) (es : List Event) (P : State → Prop) [DecidablePred P]
    (h : (es.foldlM next s).any (fun t => decide (P t)) = true) : ∃ t, Run Step s es t ∧ P t :=
  exists_run (fun _ _ _ => step_of_next) s es P h

/-- One process with an empty table, and the root of the tree. -/
def booted : State where
  files _ := ⟨false, ⟨0, .other, 0, 0⟩⟩
  nextFile := 0
  dentries d := if d = 0 then ⟨true, ⟨some 0, 1, true⟩⟩ else ⟨false, ⟨none, 0, false⟩⟩
  inodes i := if i = 0 then ⟨true, ⟨1, true, none⟩⟩ else ⟨false, ⟨0, false, none⟩⟩
  pipes _ := Pipe.new fun _ => 0
  nextPipe := 0
  tables p := if p = 0 then some ⟨some fun _ => none, fun _ => false⟩ else none
  procs := {0}
  released := []

theorem booted_start : Start booted := by
  refine ⟨fun _ => rfl, rfl, rfl, fun p hp => ?_, fun p i => ?_, rfl, {0}, fun d hd => ?_, fun i => ?_⟩
  · change (if p = 0 then some _ else none : Option Table).isSome = true at hp
    split at hp
    · rename_i h0
      rw [h0]
      exact Finset.mem_singleton_self 0
    · cases hp
  · change (if p = 0 then some _ else none : Option Table).bind _ = none
    split
    · simp
    · rfl
  · change (if d = 0 then _ else _ : Cell Dentry).live = true at hd
    split at hd
    · rename_i h0
      rw [h0]
      exact Finset.mem_singleton_self 0
    · cases hd
  · change tally {0} (inodeOf ∘ booted.dentries) i ≤ inodeRefs (if i = 0 then _ else _ : Cell Inode)
    split
    · rename_i h0
      rw [h0]
      decide
    · rename_i h0
      refine Nat.le_of_eq (tally_zero fun d hd hi => ?_)
      rw [Finset.mem_singleton] at hd
      rw [hd] at hi
      exact h0 (Option.some.inj hi).symm

/-- A pipe whose write end is copied, inherited by a child, closed by the parent and left by the child. -/
def inheritedPipe : List Event :=
  [.pipe 0 (some 1) (some 1) (some 2) true true, .dup 0 1, .fork 0 1 true, .close 0 1, .close 0 2, .exit 1]

theorem descriptors_accounted_inheritedPipe : ∃ s, Run Step booted inheritedPipe s ∧
    (∀ f, Live s f → refs s f = descriptors s f) ∧ s.released.count 1 = 1 := by
  obtain ⟨s, hr, hnext, hops, hzero⟩ := run_next booted inheritedPipe
    (fun s => s.nextFile = 2 ∧ (s.files 1).val.ops = .pipeWrite ∧ descriptors s 1 = 0) (by decide +kernel)
  obtain ⟨hcount, _, hreleased, _⟩ := descriptors_accounted booted_start hr
  refine ⟨s, hr, hcount, ?_⟩
  rw [hreleased 1 (by omega) (by rw [hops]; rfl), hzero]
  rfl

/-- `/f` is created and opened once more with `O_CREAT`, so that two files share one reference to its dentry 1. That
    dentry becomes the write end of a pipe, is freed under it by the second close, and becomes the read end of a
    second pipe; the close of the first pipe's write end then counts at the second pipe. -/
def sharedDentry : List Event :=
  [.open 0 (.created 1 1 true) false true, .open 0 (.existing 1) false true, .open 0 (.created 2 2 true) false true,
    .close 0 0, .close 0 2, .pipe 0 (some 3) (some 2) (some 1) true true, .close 0 1,
    .pipe 0 (some 4) (some 1) (some 3) true true, .close 0 2]

/-- The process holds both ends of an empty pipe, and reads an end of file from it. -/
theorem open_end_reads_eof : ∃ s r w t, Start booted ∧ Run Step booted sharedDentry s ∧
    slot s 0 1 = some r ∧ (s.files r).val.ops = .pipeRead ∧ slot s 0 3 = some w ∧
    (s.files w).val.ops = .pipeWrite ∧ (s.files w).val.pipe = (s.files r).val.pipe ∧
    (s.pipes (s.files r).val.pipe).size = 0 ∧ pipeRead r 1 s = .ok (some 0, t) := by
  obtain ⟨s, hr, hfd1, hop5, hfd3, hop6, hpipe, hsize, hread⟩ := run_next booted sharedDentry
    (fun s => slot s 0 1 = some 5 ∧ (s.files 5).val.ops = .pipeRead ∧ slot s 0 3 = some 6 ∧
      (s.files 6).val.ops = .pipeWrite ∧ (s.files 6).val.pipe = (s.files 5).val.pipe ∧
      (s.pipes (s.files 5).val.pipe).size = 0 ∧ (pipeRead 5 1 s).toOption.map Prod.fst = some (some 0))
    (by decide +kernel)
  cases hcall : pipeRead 5 1 s with
  | error c =>
    rw [hcall] at hread
    cases hread
  | ok x =>
    obtain ⟨o, t⟩ := x
    rw [hcall] at hread
    cases hread
    exact ⟨s, 5, 6, t, booted_start, hr, hfd1, hop5, hfd3, hop6, hpipe, hsize, hcall⟩

end OreUnix.Fd
