/-
  Subject: THE BOOT INFORMATION: the loop of `kmain` over the Multiboot2 tags, and what becomes of the memory of the
  initial ramdisk it finds.

  * `parseTags` -- the loop, in at most as many rounds as given; `readTag` -- what one tag sets;
  * `Tags` -- a chain of whole tags up to the end tag or the end of the information;
  * `initrd_first` -- the ramdisk is the first module with a start other than 0;
  * `ramdisk_kept` -- on a chain the loop ends with the first module as the ramdisk, and the page allocator never hands
    out a page of it.

  The information is read through the direct map, `pmm_init` goes back to physical addresses.
-/
import OreUnix.Mm.PmmInit

namespace OreUnix.Multiboot

open ByteMem Bitmap Pmm Lts

/-! ## 1. The loop -/

/-- The locals and globals of `kmain` that tags set, with their defaults. -/
structure BootInfo where
  memLower : Nat := 640
  memUpper : Nat := 32 * 1024
  mmapAddr : Nat := 0
  mmapLen : Nat := 0
  initrdPhys : Nat := 0
  initrdSize : Nat := 0
  cmdline : List UInt8 := []

/-- The `switch` for the tag at `p`. -/
def readTag (m : Mem) (b : BootInfo) (p : Nat) : BootInfo :=
  if word m p = 1 then { b with cmdline := cString m (p + 8) 255 }
  else if word m p = 4 then { b with memLower := word m (p + 8), memUpper := word m (p + 12) }
  else if word m p = 6 then { b with mmapAddr := sub32 p kernelVirtBase, mmapLen := word m (p + 4) }
  else if word m p = 3 ∧ b.initrdPhys = 0 then
    { b with initrdPhys := word m (p + 8), initrdSize := sub32 (word m (p + 12)) (word m (p + 8)) }
  else b

/-- The loop from the tag at `p`. -/
def parseTags (m : Mem) (fin : Nat) : Nat → Nat → BootInfo → Option BootInfo
  | 0, _, _ => none
  | n + 1, p, b =>
    if p < fin ∧ word m p ≠ 0 then parseTags m fin n (u32 (p + alignUp (word m (p + 4)) 8)) (readTag m b p)
    else some b

/-! ## 2. Chains of tags -/

/-- The tags from `p` on stand at `ps`: each has its header, and ends, with its padding, before `fin`. -/
inductive Tags (m : Mem) (fin : Nat) : Nat → List Nat → Prop
  | stop {p : Nat} (h : fin ≤ p ∨ word m p = 0) : Tags m fin p []
  | tag {p : Nat} {ps : List Nat} (htype : word m p ≠ 0) (hsize : 8 ≤ word m (p + 4))
      (hfit : p + (word m (p + 4) + 7) / 8 * 8 ≤ fin) (h : Tags m fin (p + (word m (p + 4) + 7) / 8 * 8) ps) :
      Tags m fin p (p :: ps)

variable {m : Mem} {fin p n : Nat} {ps : List Nat} {b : BootInfo}

/-- A round for each tag, and one to stop. -/
theorem parseTags_eq (h : Tags m fin p ps) (hfin : fin < 2 ^ 32) (hn : ps.length < n) :
    parseTags m fin n p b = some (ps.foldl (readTag m) b) := by
  induction h generalizing n b with
  | @stop p h =>
    obtain ⟨n, rfl⟩ := Nat.exists_eq_succ_of_ne_zero (Nat.ne_zero_of_lt hn)
    have hend : ¬ (p < fin ∧ word m p ≠ 0) := fun hgo => h.elim (fun hle => by omega) hgo.2
    rw [parseTags, if_neg hend]
    rfl
  | @tag p ps htype hsize hfit _ ih =>
    obtain ⟨n, rfl⟩ := Nat.exists_eq_succ_of_ne_zero (Nat.ne_zero_of_lt hn)
    have hnext : u32 (p + alignUp (word m (p + 4)) 8) = p + (word m (p + 4) + 7) / 8 * 8 := by
      unfold alignUp u32
      omega
    rw [parseTags, if_pos ⟨by omega, htype⟩, hnext]
    exact ih (Nat.lt_of_succ_lt_succ hn)

/-- There are at most as many tags as headers fit. -/
theorem Tags.length_le (h : Tags m fin p ps) : ps.length * 8 ≤ fin - p := by
  induction h with
  | stop h => exact Nat.zero_le _
  | tag htype hsize hfit _ ih =>
    rw [List.length_cons]
    omega

/-- The ramdisk: once it has been set, it stays. -/
theorem foldl_initrd (hb : b.initrdPhys ≠ 0) :
    (ps.foldl (readTag m) b).initrdPhys = b.initrdPhys ∧ (ps.foldl (readTag m) b).initrdSize = b.initrdSize := by
  induction ps generalizing b with
  | nil => exact ⟨rfl, rfl⟩
  | cons p ps ih =>
    have hkeep : (readTag m b p).initrdPhys = b.initrdPhys ∧ (readTag m b p).initrdSize = b.initrdSize := by
      unfold readTag
      split_ifs <;> simp_all
    rw [List.foldl_cons, ← hkeep.1, ← hkeep.2]
    exact ih (hkeep.1 ▸ hb)

/-- A module with a start. -/
def isModule (m : Mem) (p : Nat) : Bool := word m p = 3 ∧ word m (p + 8) ≠ 0

theorem initrd_first (hb : b.initrdPhys = 0) (h : ps.find? (isModule m) = some p) :
    (ps.foldl (readTag m) b).initrdPhys = word m (p + 8) ∧
    (ps.foldl (readTag m) b).initrdSize = sub32 (word m (p + 12)) (word m (p + 8)) := by
  induction ps generalizing b with
  | nil => cases h
  | cons q ps ih =>
    rw [List.foldl_cons]
    cases hq : isModule m q with
    | true =>
      obtain ⟨htype, hstart⟩ := of_decide_eq_true hq
      have hread : readTag m b q =
          { b with initrdPhys := word m (q + 8), initrdSize := sub32 (word m (q + 12)) (word m (q + 8)) } := by
        simp [readTag, htype, hb]
      rw [List.find?_cons_of_pos hq] at h
      cases h
      rw [hread]
      exact foldl_initrd hstart
    | false =>
      have hskip : (readTag m b q).initrdPhys = 0 := by
        have hno : word m q = 3 → word m (q + 8) = 0 := fun h3 => not_not.mp fun h => of_decide_eq_false hq ⟨h3, h⟩
        unfold readTag
        split_ifs <;> simp_all
      rw [List.find?_cons_of_neg (by simp [hq])] at h
      exact ih hskip h

/-! ## 3. The ramdisk and the page allocator -/

/-- The pages after `pmm_init`. -/
def bootMapped (m : Mem) (kend : Nat) (b : BootInfo) : Pages :=
  (bootInit (fun a => m (u32 (a + kernelVirtBase))) kend b.mmapAddr b.mmapLen).toPages

/-- The pages after the `pmm_mark_used` that follows it. -/
def bootPages (m : Mem) (kend : Nat) (b : BootInfo) : Pages :=
  if b.initrdPhys ≠ 0 then
    pmmMarkUsed (bootMapped m kend b) b.initrdPhys (alignUp (u32 (b.initrdPhys + b.initrdSize)) pageSize)
  else bootMapped m kend b

theorem reserved_exec {s : State} {i : Nat} (h : s.reserved i = true) (c : Call) : (exec s c).reserved i = true := by
  cases c with
  | freeContiguous phys n =>
    have hkeep : ∀ as : List Nat, ∀ s : State, (as.foldl freeOne s).reserved = s.reserved := by
      intro as
      induction as with
      | nil => exact fun _ => rfl
      | cons a as ih => exact fun s => ih (freeOne s a)
    exact (congrFun (hkeep _ s) i).trans h
  | markUsed st fin => exact Bool.or_eq_true_iff.mpr (.inl h)
  | _ => exact h

/-- From the start the bits of its pages are clear, so they count as reserved all along. -/
theorem initrd_reserved {kend i : Nat} {m0 : Mem} {calls : List Call} {s : State} (h0 : b.initrdPhys ≠ 0)
    (hc : (bootMapped m kend b).freePagesCount = (freePages (bootMapped m kend b)).card)
    (hend : b.initrdPhys + b.initrdSize + pageSize ≤ 2 ^ 32) (hlow : b.initrdPhys < (i + 1) * pageSize)
    (hhigh : i * pageSize < b.initrdPhys + b.initrdSize)
    (hr : Run OwnerStep (start (bootPages m kend b) m0) calls s) : Owned s ∧
      (i < bitmapBits → s.reserved i = true) := by
  have hcount : Counted (bootPages m kend b) := by
    rw [bootPages, if_pos h0]
    exact counted_foldl_markPage ⟨hc, by rw [bootMapped, bootInit, tst_clr]; simp⟩ _
  have hmark : i ∈ markPages b.initrdPhys (alignUp (u32 (b.initrdPhys + b.initrdSize)) pageSize) := by
    unfold pageSize at hlow hhigh hend
    unfold markPages alignUp alignDown u32 pageSize
    rw [List.mem_range'_1]
    omega
  refine hr.invariant (I := fun s => Owned s ∧ (i < bitmapBits → s.reserved i = true)) ?_
    ⟨owned_start m0 hcount, fun hlt => ?_⟩
  · rintro s c s' ⟨hown, hres⟩ ⟨hheld, haligned, rfl⟩
    exact ⟨owned_exec hown haligned hheld, fun hlt => reserved_exec (hres hlt) c⟩
  · change (!tst (bootPages m kend b).bitmap i) = true
    rw [bootPages, if_pos h0, pmmMarkUsed, tst_foldl_markPage _ _ hlt, decide_eq_false (not_not.mpr hmark),
      Bool.and_false, Bool.not_false]

/-- **The ramdisk is found and kept.** On every chain of tags the loop ends within a round for each 8 bytes, with the
    first module that has a start as the ramdisk. If this does not end before its start nor in the last page of the
    address space, and the counter is right after `pmm_init`, no page of it is handed out in any run of the allocator
    in which only pages handed out and not yet freed are freed. -/
theorem ramdisk_kept (h : Tags m fin p ps) (hfin : fin < 2 ^ 32) :
    ∃ b : BootInfo, (∀ n, (fin - p) / 8 < n → parseTags m fin n p {} = some b) ∧
      ∀ q, ps.find? (isModule m) = some q →
        (b.initrdPhys = word m (q + 8) ∧ b.initrdSize = sub32 (word m (q + 12)) (word m (q + 8))) ∧
        (word m (q + 8) ≤ word m (q + 12) → word m (q + 12) + pageSize ≤ 2 ^ 32 → ∀ kend m0 calls s,
          (bootMapped m kend b).freePagesCount = (freePages (bootMapped m kend b)).card →
          Run OwnerStep (start (bootPages m kend b) m0) calls s →
          ∀ r ∈ s.held, ∀ i ∈ r, (i + 1) * pageSize ≤ word m (q + 8) ∨ word m (q + 12) ≤ i * pageSize) := by
  have hlen := h.length_le
  refine ⟨_, fun n hn => parseTags_eq h hfin (by omega), fun q hq => ?_⟩
  obtain ⟨hphys, hsize⟩ := initrd_first (b := {}) rfl hq
  refine ⟨⟨hphys, hsize⟩, fun hle hend kend m0 calls s hc hr r hrm i hi => ?_⟩
  generalize ps.foldl (readTag m) {} = b at hphys hsize hc hr
  rw [← hphys, sub32_of_le (hphys ▸ hle) (word_lt ..)] at hsize
  have hmodule : isModule m q = true := List.find?_some hq
  obtain ⟨_, hstart⟩ := of_decide_eq_true hmodule
  rw [← hphys] at hstart hle ⊢
  by_contra hin
  obtain ⟨hown, hres⟩ := initrd_reserved (i := i) hstart hc (by omega) (by omega) (by omega) hr
  obtain ⟨hlt, _, _, hfree⟩ := hown.held i (List.mem_flatten.mpr ⟨r, hrm, hi⟩)
  exact absurd (hres hlt) (by rw [hfree]; decide)

/-- 16 MB from 2 MB on, a module of 0x123 bytes at 4 MB, and the end tag. -/
def bootTags : Mem :=
  wordsAt 3221229568 [6, 40, 24, 0, 0x200000, 0, 0x1000000, 0, 1, 0, 3, 16, 0x400000, 0x400123, 0, 8]

/-- One page is taken; it is none of those of the module. -/
theorem ramdisk_kept_alloc : ∃ b s, parseTags bootTags 3221229632 9 3221229568 {} = some b ∧
    (b.initrdPhys = 0x400000 ∧ b.initrdSize = 0x123) ∧
    Run OwnerStep (start (bootPages bootTags 0x200000 b) fun _ => 0) [.alloc] s ∧
    ∀ r ∈ s.held, ∀ i ∈ r, (i + 1) * pageSize ≤ 0x400000 ∨ 0x400123 ≤ i * pageSize := by
  have h : Tags bootTags 3221229632 3221229568 [3221229568, 3221229608] :=
    .tag (by decide) (by decide) (by decide) (.tag (by decide) (by decide) (by decide) (.stop (.inr (by decide))))
  obtain ⟨b, hparse, hfound⟩ := ramdisk_kept h (by decide)
  obtain ⟨hdisk, hkept⟩ := hfound 3221229608 (by decide)
  have hmap : (b.mmapAddr, b.mmapLen) = (4096, 40) := by
    have hsome : parseTags bootTags 3221229632 9 3221229568 {} = some _ := rfl
    cases (hparse 9 (by decide)).symm.trans hsome
    decide
  have hes : mmapEntries (fun a => bootTags (u32 (a + kernelVirtBase))) 4096 40 = [⟨0x200000, 0x1000000, 1⟩] := by
    decide +kernel
  have hr : Run OwnerStep (start (bootPages bootTags 0x200000 b) fun _ => 0) [.alloc] _ :=
    .cons ⟨trivial, trivial, rfl⟩ (.nil _)
  refine ⟨b, _, hparse 9 (by decide), hdisk, hr,
    hkept (by decide) (by decide) 0x200000 (fun _ => 0) _ _ ?_ hr⟩
  rw [bootMapped, (Prod.mk.inj hmap).1, (Prod.mk.inj hmap).2]
  refine ((accounted_iff_apart (by decide) (by decide) (by rw [hes]; decide)).mpr ⟨?_, ?_⟩).free
  · rw [hes]
    exact List.pairwise_singleton ..
  · rw [toFinset_mapPages (by rw [hes]; decide) (inMapMod_of_low (by rw [hes]; decide))]

end OreUnix.Multiboot
