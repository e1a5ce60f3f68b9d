/-
  Subject: A COPY OF A FILE TABLE AND ITS END: `files_clone` and `files_destroy` written out.

  * `wp_cloneSlots_eq`, `wp_freeSlots_eq` -- the state after the two loops: each descriptor adds one to the count of
    its file, or takes one away;
  * `wp_filesClone_eq`, `wp_filesDestroy_copy` -- a copy that is destroyed leaves everything as it was;
  * `wp_filesDestroy_all` -- in a state where the references are accounted for, closing every descriptor of a process
    meets no NULL pointer.
-/
import OreUnix.Fs.References

namespace OreUnix.Fd

open Tally Wp
open Vfs (Crash)
open Function (update update_of_ne update_self update_apply update_idem update_eq_self)

variable {E : Crash → Prop}

/-- No crash at all. -/
abbrev Never : Crash → Prop := fun _ => False

variable {s s' : State} {f i p q : Nat} {fd g : Nat → Option Nat} {c c' : Nat → Bool} {is : List Nat}

/-! ## 1. The loops written out -/

/-- How many of the entries `is` hold the file. -/
def uses (fd : Nat → Option Nat) (is : List Nat) (f : Nat) : Nat := is.countP fun i => fd i = some f

theorem uses_cons (fd : Nat → Option Nat) (i : Nat) (is : List Nat) (f : Nat) :
    uses fd (i :: is) f = uses fd is f + if fd i = some f then 1 else 0 := by
  rw [uses, List.countP_cons, uses]
  simp only [decide_eq_true_eq]

/-- The files with their counts changed. -/
def recount (k : Nat → Nat → Nat) (files : Nat → Cell File) (f : Nat) : Cell File :=
  ⟨(files f).live, { (files f).val with refcount := k f (files f).val.refcount }⟩

/-- Nothing but counts and tables has changed. -/
structure Recounted (k : Nat → Nat → Nat) (T : Nat → Option Table) (s s' : State) : Prop where
  rest : s' = { s with files := s'.files, tables := s'.tables }
  files : s'.files = recount k s.files
  tables : s'.tables = T

theorem Recounted.trans {k k' : Nat → Nat → Nat} {T T' : Nat → Option Table} {s'' : State}
    (h : Recounted k T s s') (h' : Recounted k' T' s' s'') :
    Recounted (fun f n => k' f (k f n)) T' s s'' := by
  refine ⟨?_, ?_, h'.tables⟩
  · have hrest := h'.rest
    rw [h.rest] at hrest
    exact hrest
  · rw [h'.files, h.files]
    rfl

theorem wp_fdArray_some {Q : (Nat → Option Nat) → State → Prop} (h : s.tables p = some ⟨some fd, c⟩) (hQ : Q fd s) :
    wp E (fdArray p) Q s := by
  refine wp_get_then ?_
  rw [h]
  exact hQ

theorem wp_setFd_some {o : Option Nat} (h : s.tables p = some ⟨some fd, c⟩) : wp E (setFd p i o) (fun _ s' =>
      Recounted (fun _ n => n) (update s.tables p (some ⟨some (update fd i o), c⟩)) s s') s := by
  refine wp_then (wp_fdArray_some h ((wp_modify ..).mpr ⟨rfl, rfl, ?_⟩))
  change update s.tables p _ = _
  rw [h]
  rfl

theorem wp_fileGet_eq (hf : Live s f) :
    wp E (fileGet f) (fun _ s' => Recounted (fun g n => if f = g then n + 1 else n) s.tables s s') s := by
  refine wp_then (wp_getFile hf ((wp_modify ..).mpr ⟨rfl, ?_, rfl⟩))
  funext g
  change update s.files f _ g = recount _ s.files g
  rw [update_apply, recount]
  by_cases hg : g = f
  · rw [if_pos hg, hg, if_pos rfl, hf]
  · rw [if_neg hg, if_neg (Ne.symm hg)]

/-- A reference that is not the last one is dropped. -/
theorem wp_filePut_eq (hf : Live s f) (hrefs : 1 < refs s f) :
    wp E (filePut f) (fun _ s' => Recounted (fun g n => if f = g then n - 1 else n) s.tables s s') s := by
  refine wp_then (wp_getFile hf ?_)
  rw [if_neg (show ¬ (s.files f).val.refcount = 1 from Nat.ne_of_gt hrefs)]
  refine (wp_modify ..).mpr ⟨rfl, ?_, rfl⟩
  funext g
  change update s.files f _ g = recount _ s.files g
  rw [update_apply, recount]
  by_cases hg : g = f
  · rw [if_pos hg, hg, if_pos rfl, hf]
  · rw [if_neg hg, if_neg (Ne.symm hg)]

/-- The entries `is` of `fd` over those of `g`. -/
def overlay (fd g : Nat → Option Nat) (is : List Nat) (i : Nat) : Option Nat :=
  if i ∈ is ∧ (fd i).isSome then fd i else g i

theorem overlay_cons_none (h : fd i = none) : overlay fd g (i :: is) = overlay fd g is := by
  funext j
  unfold overlay
  by_cases hj : j = i
  · rw [hj, h]
    simp
  · simp [hj]

theorem overlay_cons_some (h : fd i = some f) : overlay fd g (i :: is) = overlay fd (update g i (some f)) is := by
  funext j
  unfold overlay
  by_cases hj : j = i
  · rw [hj, h]
    simp
  · simp [hj]

/-- **The loop of `files_clone`**: the counts grow by the number of descriptors copied. -/
theorem wp_cloneSlots_eq (hpq : p ≠ q) (hp : s.tables p = some ⟨some fd, c⟩) (hq : s.tables q = some ⟨some g, c'⟩)
    (hlive : ∀ i ∈ is, ∀ f, fd i = some f → Live s f) :
    wp E (cloneSlots p q is) (fun _ s' => Recounted (fun f n => n + uses fd is f)
      (update s.tables q (some ⟨some (overlay fd g is), c'⟩)) s s') s := by
  induction is generalizing s g with
  | nil =>
    refine (wp_pure ..).mpr ⟨rfl, rfl, ?_⟩
    have hnil : overlay fd g [] = g := funext fun j => if_neg fun hc => List.not_mem_nil hc.1
    rw [hnil, ← hq, update_eq_self]
  | cons i is ih =>
    have hlive' : ∀ j ∈ is, ∀ f, fd j = some f → Live s f := fun j hj => hlive j (.tail _ hj)
    refine wp_then (wp_fdArray_some hp ?_)
    cases hfi : fd i with
    | none =>
      refine wp_pure_then (wp_imp (ih hp hq hlive') fun _ s' hs' => ?_)
      rw [overlay_cons_none hfi]
      have huses : uses fd (i :: is) = uses fd is := funext fun f => by
        rw [uses_cons, hfi]
        rfl
      rw [huses]
      exact hs'
    | some f =>
      refine wp_seq (wp_fileGet_eq (hlive i (.head _) f hfi)) fun _ s1 h1 => ?_
      have hq1 : s1.tables q = some ⟨some g, c'⟩ := by
        rw [h1.tables]
        exact hq
      refine wp_seq (wp_setFd_some hq1) fun _ s2 h2 => ?_
      have hlive2 : ∀ j ∈ is, ∀ f, fd j = some f → Live s2 f := by
        intro j hj f' hf'
        rw [Live, h2.files, h1.files]
        exact hlive' j hj f' hf'
      have hp2 : s2.tables p = some ⟨some fd, c⟩ := by
        rw [h2.tables, update_of_ne hpq, h1.tables]
        exact hp
      have hq2 : s2.tables q = some ⟨some (update g i (some f)), c'⟩ := by
        rw [h2.tables, update_self]
      refine wp_imp (ih hp2 hq2 hlive2) fun _ s3 h3 => ?_
      have hall := (h1.trans h2).trans h3
      rw [h2.tables, h1.tables, update_idem, ← overlay_cons_some hfi] at hall
      have hcount : (fun f' n => (if f = f' then n + 1 else n) + uses fd is f') =
          fun f' n => n + uses fd (i :: is) f' := by
        funext f' n
        rw [uses_cons, hfi]
        simp only [Option.some.injEq]
        split <;> omega
      rw [hcount] at hall
      exact hall

/-- **The loop of `files_destroy`** over a table none of whose files loses its last reference. -/
theorem wp_freeSlots_eq (hnd : is.Nodup) (hp : s.tables p = some ⟨some fd, c⟩)
    (hlive : ∀ i ∈ is, ∀ f, fd i = some f → Live s f ∧ uses fd is f < refs s f) :
    wp E (freeSlots p is) (fun _ s' => Recounted (fun f n => n - uses fd is f)
      (update s.tables p (some ⟨some fun i => if i ∈ is then none else fd i, c⟩)) s s') s := by
  induction is generalizing s fd with
  | nil =>
    refine (wp_pure ..).mpr ⟨rfl, rfl, ?_⟩
    simp only [List.not_mem_nil, if_false]
    rw [← hp, update_eq_self]
  | cons i is ih =>
    obtain ⟨hni, hnd⟩ := List.nodup_cons.mp hnd
    refine wp_then (wp_then (wp_fdArray_some hp ?_))
    cases hfi : fd i with
    | none =>
      have huses : uses fd (i :: is) = uses fd is := funext fun f => by
        rw [uses_cons, hfi]
        rfl
      have hlive' : ∀ j ∈ is, ∀ f, fd j = some f → Live s f ∧ uses fd is f < refs s f := by
        intro j hj f hf
        rw [← huses]
        exact hlive j (.tail _ hj) f hf
      have hrow : (fun j => if j ∈ i :: is then none else fd j) = fun j => if j ∈ is then none else fd j := by
        funext j
        by_cases hj : j = i
        · rw [hj, hfi, if_pos (.head _), if_neg hni]
        · simp [hj]
      rw [huses, hrow]
      exact (ih hnd hp hlive')
    | some f =>
      obtain ⟨hf, hrefs⟩ := hlive i (.head _) f hfi
      have huses : ∀ f', uses fd (i :: is) f' = uses fd is f' + if f = f' then 1 else 0 := by
        intro f'
        rw [uses_cons, hfi]
        simp only [Option.some.injEq]
      rw [huses, if_pos rfl] at hrefs
      refine wp_seq (wp_filePut_eq hf (by omega)) fun _ s1 h1 => ?_
      have hp1 : s1.tables p = some ⟨some fd, c⟩ := by
        rw [h1.tables]
        exact hp
      refine wp_imp (wp_setFd_some hp1) fun _ s2 h2 => ?_
      have hp2 : s2.tables p = some ⟨some (update fd i none), c⟩ := by
        rw [h2.tables, update_self]
      have hother : ∀ j ∈ is, update fd i none j = fd j := by
        rintro j hj
        refine update_of_ne ?_ ..
        rintro rfl
        exact hni hj
      have huses2 : uses (update fd i none) is = uses fd is := by
        funext f'
        refine List.countP_congr fun j hj => ?_
        rw [hother j hj]
      have hlive2 : ∀ j ∈ is, ∀ f', update fd i none j = some f' →
          Live s2 f' ∧ uses (update fd i none) is f' < refs s2 f' := by
        intro j hj f' hf'
        rw [hother j hj] at hf'
        obtain ⟨hl, hr⟩ := hlive j (.tail _ hj) f' hf'
        rw [huses] at hr
        rw [huses2, Live, refs, h2.files, h1.files]
        refine ⟨hl, ?_⟩
        change _ < if f = f' then (s.files f').val.refcount - 1 else (s.files f').val.refcount
        change _ < (s.files f').val.refcount at hr
        split at hr <;> split <;> omega
      refine wp_imp (ih hnd hp2 hlive2) fun _ s3 h3 => ?_
      have hall := (h1.trans h2).trans h3
      rw [h2.tables, h1.tables, update_idem, huses2] at hall
      have hrow : (fun j => if j ∈ is then none else update fd i none j) =
          fun j => if j ∈ i :: is then none else fd j := by
        funext j
        by_cases hj : j = i
        · rw [hj, if_neg hni, update_self, if_pos (.head _)]
        · simp [hj]
      have hcount : (fun f' n => (if f = f' then n - 1 else n) - uses fd is f') =
          fun f' n => n - uses fd (i :: is) f' := by
        funext f' n
        rw [huses]
        split <;> omega
      rw [hrow, hcount] at hall
      exact hall

/-! ## 2. A copy and its end -/

theorem recount_cancel (k : Nat → Nat) (files : Nat → Cell File) :
    recount (fun f n => n + k f - k f) files = files := by
  funext f
  simp only [recount, Nat.add_sub_cancel]

/-- The table of the process `q` after `files_clone`. -/
def copyOf (fd : Nat → Option Nat) : Table :=
  ⟨some (overlay fd (fun _ => none) (List.range openMax)), fun _ => false⟩

/-- **`files_clone`** with its array. -/
theorem wp_filesClone_eq (hpq : p ≠ q) (hp : s.tables p = some ⟨some fd, c⟩)
    (hlive : ∀ i < openMax, ∀ f, fd i = some f → Live s f) :
    wp E (filesClone p q true) (fun _ s' => Recounted (fun f n => n + uses fd (List.range openMax) f)
      (update s.tables q (some (copyOf fd))) { s with procs := insert q s.procs } s') s := by
  have hmem : ∀ i ∈ List.range openMax, ∀ f, fd i = some f → Live s f := fun i hi => hlive i (List.mem_range.mp hi)
  unfold filesClone copyOf
  generalize List.range openMax = is at hmem
  refine wp_modify_then ?_
  generalize hs1 : ({ s.setTable q (some ⟨if true then some fun _ => none else none, fun _ => false⟩) with
    procs := insert q s.procs } : State) = s1
  have hp1 : s1.tables p = some ⟨some fd, c⟩ := by
    rw [← hs1]
    change update s.tables q _ p = _
    rw [update_of_ne hpq]
    exact hp
  have hq1 : s1.tables q = some ⟨some fun _ => none, fun _ => false⟩ := by
    rw [← hs1]
    change update s.tables q _ q = _
    rw [update_self]
    rfl
  have hfiles : s1.files = s.files := by rw [← hs1]; rfl
  refine wp_imp (wp_cloneSlots_eq hpq hp1 hq1 fun i hi f hf => ?_) fun _ s' hs' => ⟨?_, ?_, ?_⟩
  · rw [Live, hfiles]
    exact hmem i hi f hf
  · have hrest := hs'.rest
    rw [← hs1] at hrest
    exact hrest
  · rw [hs'.files, hfiles]
  · rw [hs'.tables, ← hs1]
    change update (update s.tables q _) q _ = _
    rw [update_idem]

/-- **A copy that is destroyed leaves no trace.** -/
theorem wp_filesDestroy_copy (hq : s.tables q = none)
    (hlive : ∀ i < openMax, ∀ f, fd i = some f → Live s f ∧ 0 < refs s f)
    (hs' : Recounted (fun f n => n + uses fd (List.range openMax) f) (update s.tables q (some (copyOf fd))) s s') :
    wp E (filesDestroy q) (fun _ s'' => s'' = s) s' := by
  have hmem : ∀ i ∈ List.range openMax, ∀ f, fd i = some f → Live s f ∧ 0 < refs s f :=
    fun i hi => hlive i (List.mem_range.mp hi)
  have hnd : (List.range openMax).Nodup := List.nodup_range
  unfold copyOf at hs'
  unfold filesDestroy
  generalize List.range openMax = is at hmem hnd hs'
  have hrow : ∀ i ∈ is, overlay fd (fun _ => none) is i = fd i := by
    intro i hi
    unfold overlay
    split
    · rfl
    · rename_i hnone
      have : (fd i).isSome = false := Bool.eq_false_iff.mpr fun h => hnone ⟨hi, h⟩
      rw [Option.isSome_eq_false_iff, Option.isNone_iff_eq_none] at this
      exact this.symm
  have huses : uses (overlay fd (fun _ => none) is) is = uses fd is := by
    funext f
    refine List.countP_congr fun i hi => ?_
    rw [hrow i hi]
  have hq' : s'.tables q = some ⟨some (overlay fd (fun _ => none) is), fun _ => false⟩ := by
    rw [hs'.tables, update_self]
  refine wp_seq (wp_freeSlots_eq hnd hq' fun i hi f hf => ?_) fun _ s1 h1 => ?_
  · rw [hrow i hi] at hf
    obtain ⟨hl, hr⟩ := hmem i hi f hf
    rw [huses, Live, refs, hs'.files]
    refine ⟨hl, ?_⟩
    change _ < (s.files f).val.refcount + uses fd is f
    exact Nat.lt_add_of_pos_left hr
  · have hall := hs'.trans h1
    rw [huses] at hall
    refine (wp_modify ..).mpr ?_
    have hfiles : s1.files = s.files := hall.files.trans (recount_cancel ..)
    have htables : update s1.tables q none = s.tables := by
      rw [h1.tables, hs'.tables, update_idem, update_idem, ← hq, update_eq_self]
    rw [State.setTable, hall.rest]
    dsimp only
    rw [hfiles, htables]

/-! ## 3. Closing every descriptor -/

def HasArray (s : State) (p : Nat) : Prop := ((s.tables p).bind Table.fd).isSome = true

theorem wp_total {α : Type} {m : M α} {Q R : α → State → Prop} (h : wp E m Q s) (ht : wp Never m R s) :
    wp Never m (fun a s' => Q a s' ∧ R a s') s := by
  rcases (wp_iff m).mp ht with ⟨a, s', hm, hr⟩ | ⟨e, _, he⟩
  · exact wp_of_ok hm ⟨wp_ok h hm, hr⟩
  · exact he.elim

theorem pipeRelease_returns (h : Piped s) (hf : Live s f) (hend : IsEnd (s.files f).val.ops)
    (close : Fs.Pipe → Fs.Pipe) :
    wp Never (pipeRelease close (s.files f).val) (fun _ _ => True) s := by
  obtain ⟨i, hi, hpriv⟩ := h.ends hf hend
  refine wp_get_then ?_
  rw [hi]
  dsimp only
  rw [hpriv]
  exact (wp_set ..).mpr trivial

theorem release_returns (h : Piped s) (hf : Live s f) : wp Never (release f (s.files f).val) (fun _ _ => True) s := by
  have hlog : Piped { s with released := s.released ++ [f] } :=
    h.frame (fun _ => ⟨rfl, rfl, rfl, rfl⟩) rfl rfl (fun _ hi => ⟨hi, rfl⟩) fun _ _ => rfl
  rw [release]
  cases ho : (s.files f).val.ops with
  | pipeRead =>
    refine wp_modify_then ?_
    exact pipeRelease_returns hlog hf (.inl ho) _
  | pipeWrite =>
    refine wp_modify_then ?_
    exact pipeRelease_returns hlog hf (.inr ho) _
  | ramfs => exact wp_modify_then trivial
  | other => exact wp_pure_then ((wp_pure ..).mpr trivial)

theorem filePut_returns (h : Piped s) (hf : Live s f) : wp Never (filePut f) (fun _ _ => True) s := by
  refine wp_then (wp_getFile hf ?_)
  split
  · refine wp_then (wp_getFile hf (wp_seq (release_returns h hf) fun _ s1 _ => ?_))
    exact wp_modify_then ((wp_modify ..).mpr trivial)
  · exact (wp_modify ..).mpr trivial

theorem freeSlot_returns (h : Mid true (slots s) [] [] s) (hi : i < openMax) (ha : HasArray s p) :
    wp Never (freeSlot p i) (fun _ s' => HasArray s' p) s := by
  obtain ⟨fd, hfd⟩ := Option.isSome_iff_exists.mp ha
  obtain ⟨⟨_, c⟩, ht, rfl⟩ := Option.bind_eq_some_iff.mp hfd
  refine wp_then (wp_fdArray_some ht ?_)
  cases hfi : fd i with
  | none => exact ha
  | some f =>
    have hslot : slots s (p, i) = some f := (slot_eq hfd hi).trans hfi
    have htake : Mid true (update (slots s) (p, i) none) [f] [] s :=
      ⟨h.counted.take hslot, h.tabled, h.logged, h.rooted, h.piped⟩
    have hput := wp_total (wp_filePut htake) (filePut_returns (h.piped rfl) (h.counted.live hslot))
    refine wp_seq hput fun _ s1 hs1 => ?_
    have ht1 : s1.tables p = some ⟨some fd, c⟩ := by
      rw [hs1.1.2.1]
      exact ht
    refine wp_imp (wp_setFd_some ht1) fun _ s2 h2 => ?_
    rw [HasArray, h2.tables, update_self]
    rfl

theorem wp_freeSlots_all (his : ∀ i ∈ is, i < openMax) (h : Mid true (slots s) [] [] s) (ha : HasArray s p) :
    wp Never (freeSlots p is) (fun _ _ => True) s := by
  induction is generalizing s with
  | nil => exact trivial
  | cons i is ih =>
    have hi := his i (.head _)
    refine wp_seq (wp_total (wp_freeSlot h hi) (freeSlot_returns h hi ha)) fun _ s1 hs1 => ?_
    exact ih (fun j hj => his j (.tail _ hj)) hs1.1.1 hs1.2

/-- **`files_destroy`** comes back where references are accounted for. -/
theorem wp_filesDestroy_all (h : Between true s) (ha : HasArray s p) :
    wp Never (filesDestroy p) (fun _ _ => True) s := by
  have hmem : ∀ i ∈ List.range openMax, i < openMax := fun _ => List.mem_range.mp
  unfold filesDestroy
  generalize List.range openMax = is at hmem
  exact wp_seq (wp_freeSlots_all hmem h ha) fun _ s1 _ => (wp_modify ..).mpr trivial

/-! ## 4. A table without its array -/

theorem wp_cloneSlots_noArray (hq : ¬ HasArray s q) :
    wp (fun _ => True) (cloneSlots p q is) (fun _ s' => ¬ HasArray s' q) s := by
  induction is generalizing s with
  | nil => exact hq
  | cons i is ih =>
    have hnone : (s.tables q).bind Table.fd = none := by
      rw [HasArray, Option.not_isSome_iff_eq_none] at hq
      exact hq
    refine wp_then (wp_get_then ?_)
    cases (s.tables p).bind Table.fd with
    | none => exact trivial
    | some fd =>
      refine (wp_pure ..).mpr ?_
      cases fd i with
      | none => exact wp_pure_then (ih hq)
      | some f =>
        -- the entry of the copy is behind a NULL pointer
        by_cases hf : Live s f
        · refine wp_seq (wp_fileGet_eq hf) fun _ s1 h1 => ?_
          refine wp_then (wp_then (wp_get_then ?_))
          rw [h1.tables, hnone]
          exact trivial
        · refine wp_then (wp_then ?_)
          rw [wp, getFile, if_neg (show ¬ (s.files f).live = true from hf)]
          trivial

theorem wp_filesClone_noArray : wp (fun _ => True) (filesClone p q false) (fun _ s' => ¬ HasArray s' q) s := by
  unfold filesClone
  generalize List.range openMax = is
  refine wp_modify_then (wp_cloneSlots_noArray ?_)
  change ¬ (((update s.tables q _ q).bind Table.fd).isSome = true)
  rw [update_self]
  exact Bool.false_ne_true

/-- Destroying it follows the NULL pointer. -/
theorem wp_filesDestroy_noArray (hq : ¬ HasArray s q) : wp (fun _ => True) (filesDestroy q) (fun _ _ => False) s := by
  have hnone : (s.tables q).bind Table.fd = none := by
    rw [HasArray, Option.not_isSome_iff_eq_none] at hq
    exact hq
  have hcons : List.range openMax = 0 :: List.range' 1 (openMax - 1) := by
    rw [List.range_eq_range', show openMax = openMax - 1 + 1 from rfl, List.range'_succ]
    rfl
  unfold filesDestroy
  rw [hcons]
  generalize List.range' 1 (openMax - 1) = is
  refine wp_then (wp_then (wp_then (wp_get_then ?_)))
  rw [hnone]
  exact trivial

end OreUnix.Fd
