/-
  Subject: THE STACK A NEW PROGRAM STARTS WITH.

  * `Contained` -- a file whose segments lie in the user half and have their bytes on their own pages or on those of
    earlier segments, and `contained_iff`: the loader's actions then stay inside;
  * `argumentCopies` -- where `push_strings` puts the strings and the arrays of pointers to them;
  * `Stacked` -- the stack is mapped, which the copies keep as long as they spare the page tables;
  * `pushWords_spec`, `esp_words` -- what lies at the stack pointer in the end: `argc`, and the auxiliary vector right
    after it;
  * `Decodes` -- the layout of the System V ABI for i386, and `stack_never_decodes`: no program is started with it.
-/
import OreUnix.Mm.UserMemory
import OreUnix.Proc.ExecLoad

namespace OreUnix.Exec

open ByteMem Pmm Vmm Bitmap FramePool

variable {s s' s1 : Vm} {x va f g sp : Nat} {A D : Set Nat} {M : Nat → Option UInt8} {file : List UInt8}
variable {bytes : List UInt8} {pd : Nat} {strs : List (List UInt8)} {s₀ : Vm}

/-! ## 1. Contained files -/

/-- The numbers of a segment's pages. -/
def Phdr.pageNumbers (ph : Phdr) : Set Nat := {n | ∃ p ∈ ph.pages, n = p / pageSize}

/-- Every segment is mapped in the user half, and the bytes the file has for it go to user addresses on pages of its
    own or of a segment before it. `D` are the pages mapped so far. -/
def Contained (file : List UInt8) : Set Nat → List Phdr → Prop
  | _, [] => True
  | D, ph :: phs => (∀ p ∈ ph.pages, p < kernelVirtBase) ∧
      (∀ o < ph.filesz, ph.offset + o < file.length →
        u32 (ph.vaddr + o) < kernelVirtBase ∧ u32 (ph.vaddr + o) / pageSize ∈ D ∪ ph.pageNumbers) ∧
      Contained file (D ∪ ph.pageNumbers) phs

theorem image_copies_isSome {dst src n : Nat} (h : Paged M) (hin : AllInside M (copies file dst src n)) (b : Nat) :
    (imageOf M (copies file dst src n) b).isSome = (M b).isSome := by
  induction n using Nat.strongRecOn generalizing M dst src with
  | ind n ih =>
    by_cases hn : n = 0
    · rw [hn, copies_zero]
      rfl
    · have hpos := chunkSize_pos dst hn
      rw [copies_pos file dst src hn] at hin ⊢
      have hsome := h.overwrite_isSome hin.1 (chunk_fits file dst src n)
      have hpaged : Paged (overwrite M dst (readAt file src (chunkSize dst n))) := fun a b hab => by
        rw [hsome a, hsome b, h a b hab]
      exact (ih _ (by omega) hpaged hin.2).trans (hsome b)

/-- The actions of a file stay inside if and only if the file is contained. -/
theorem allInside_contained {phs : List Phdr} (hM : ∀ va, (M va).isSome ↔ va / pageSize ∈ D)
    (hv : ∀ ph ∈ phs, ph.vaddr < 2 ^ 32) :
    AllInside M (phs.flatMap (Phdr.actions file)) ↔ Contained file D phs := by
  induction phs generalizing M D with
  | nil => exact Iff.rfl
  | cons ph phs ih =>
    have hpaged : Paged M := fun a b hab => by rw [Bool.eq_iff_iff, hM, hM, hab]
    have hmapped : ∀ va, (imageOf M (ph.pages.map (Action.map · ph.vmFlags)) va).isSome ↔
        va / pageSize ∈ D ∪ ph.pageNumbers := by
      intro va
      rw [image_maps, Set.mem_union]
      by_cases hpage : ∃ p ∈ ph.pages, va / pageSize = p / pageSize
      · rw [if_pos hpage]
        exact iff_of_true rfl (.inr hpage)
      · rw [if_neg hpage, hM]
        exact (or_iff_left hpage).symm
    rw [List.flatMap_cons, allInside_append, Phdr.actions, allInside_append, allInside_maps, imageOf_append, Contained,
      and_assoc]
    refine and_congr_right fun _ => ?_
    have hcopies : AllInside (imageOf M (ph.pages.map (Action.map · ph.vmFlags)))
        (copies file ph.vaddr ph.offset ph.filesz) ↔ _ := allInside_copies (hpaged.maps _ _) (hv ph (.head _))
    have hrest := fun q hq => hv q (.tail _ hq)
    constructor
    · intro hall
      obtain ⟨hin, hlater⟩ := hall
      refine ⟨fun o ho hlen => ?_, (ih (fun va => ?_) hrest).mp hlater⟩
      · obtain ⟨hlow, hsome⟩ := hcopies.mp hin o ho hlen
        exact ⟨hlow, (hmapped _).mp hsome⟩
      · rw [image_copies_isSome (hpaged.maps _ _) hin]
        exact hmapped va
    · intro hcont
      obtain ⟨hbytes, hlater⟩ := hcont
      have hin := hcopies.mpr fun o ho hlen => ⟨(hbytes o ho hlen).1, (hmapped _).mpr (hbytes o ho hlen).2⟩
      refine ⟨hin, (ih (fun va => ?_) hrest).mpr hlater⟩
      rw [image_copies_isSome (hpaged.maps _ _) hin]
      exact hmapped va

theorem vaddr_lt {ph : Phdr} (h : ph ∈ segments file) : ph.vaddr < 2 ^ 32 := by
  rw [segments] at h
  split at h
  · obtain ⟨i, _, rfl⟩ := List.mem_map.mp (List.mem_filter.mp h).1
    exact word_lt _ _
  · exact absurd h List.not_mem_nil

theorem contained_iff : AllInside (fun _ => none) ((segments file).flatMap (Phdr.actions file)) ↔
    Contained file ∅ (segments file) :=
  allInside_contained (fun _ => iff_of_false Bool.false_ne_true (Set.notMem_empty _)) fun _ hph => vaddr_lt hph

/-! ## 2. Where the arguments go -/

/-- The bytes of the strings, each with its end. -/
def bytesOf (strs : List (List UInt8)) : Nat := (strs.map fun str => str.length + 1).sum

/-- Where each string begins when they are put below `sp`. -/
def slots : List (List UInt8) → Nat → List Nat
  | [], _ => []
  | str :: strs, sp => (sp - bytesOf (str :: strs)) :: slots strs sp

def slotCopies : List (List UInt8) → Nat → List (Nat × List UInt8)
  | [], _ => []
  | str :: strs, sp => slotCopies strs sp ++ [(sp - bytesOf (str :: strs), str ++ [0])]

/-- The stack pointer after `push_strings`. -/
def descend (strs : List (List UInt8)) (sp : Nat) : Nat := (sp - bytesOf strs) / 4 * 4 - 4 * (strs.length + 1)

/-- The copies `push_strings` makes. -/
def stringCopies (strs : List (List UInt8)) (sp : Nat) : List (Nat × List UInt8) :=
  slotCopies strs sp ++ [(descend strs sp, wordBytes (slots strs sp ++ [0]))]

def argumentCopies (argv envp : List (List UInt8)) : List (Nat × List UInt8) :=
  stringCopies envp userStackTop ++ stringCopies argv (descend envp userStackTop)

/-- The words that `sys_exec` pushes last. -/
def lastWords : Nat := 21

/-- The stack pointer of the new program. -/
def initialSp (argv envp : List (List UInt8)) : Nat :=
  descend argv (descend envp userStackTop) / 16 * 16 - 4 * lastWords

/-- The arguments fit in the stack. -/
def FitsStack (argv envp : List (List UInt8)) : Prop := userStackTop - userStackSize ≤ initialSp argv envp

theorem bytesOf_cons (str : List UInt8) (strs : List (List UInt8)) :
    bytesOf (str :: strs) = str.length + 1 + bytesOf strs := List.sum_cons

theorem pushEach_eq (pd : Nat) (h : bytesOf strs ≤ sp) (hsp : sp < 2 ^ 32) (s : Vm) : pushEach pd strs sp s =
      (slots strs sp, sp - bytesOf strs, (slotCopies strs sp).foldl (fun s c => copyOut pd c.1 c.2 s) s) := by
  induction strs with
  | nil => rfl
  | cons str strs ih =>
    rw [bytesOf_cons] at h
    have hsub : sub32 (sp - bytesOf strs) (str.length + 1) = sp - bytesOf (str :: strs) := by
      rw [sub32_of_le (by omega) (by omega), bytesOf_cons]
      omega
    rw [pushEach, ih (by omega)]
    dsimp only
    rw [hsub, slots, slotCopies, List.foldl_append]
    rfl

theorem pushStrings_eq (pd : Nat) (hsp : sp < 2 ^ 32) (h : 0 < descend strs sp) (s : Vm) :
    pushStrings pd sp strs s = if (kmallocOk ((strs.length + 1) * 4) s).1 then
      (descend strs sp, (stringCopies strs sp).foldl (fun s c => copyOut pd c.1 c.2 s)
        (kmallocOk ((strs.length + 1) * 4) s).2)
    else (0, (kmallocOk ((strs.length + 1) * 4) s).2) := by
  have hfit : bytesOf strs ≤ sp ∧ 4 * (strs.length + 1) ≤ (sp - bytesOf strs) / 4 * 4 := by
    unfold descend at h
    omega
  have hsub : sub32 (alignDown (sp - bytesOf strs) 4) ((strs.length + 1) * 4) = descend strs sp := by
    rw [alignDown, sub32_of_le (by omega) (by omega), descend]
    omega
  unfold pushStrings
  dsimp only
  split
  · rw [pushEach_eq pd hfit.1 hsp]
    dsimp only
    rw [hsub, stringCopies, List.foldl_append]
    rfl
  · rfl

/-- The copies of the strings lie between the end and the beginning. -/
theorem slotCopies_range (h : bytesOf strs ≤ sp) : ∀ c ∈ slotCopies strs sp, sp - bytesOf strs ≤ c.1 ∧ c.1 < sp := by
  induction strs with
  | nil => exact fun c hc => absurd hc List.not_mem_nil
  | cons str strs ih =>
    have hcons := bytesOf_cons str strs
    intro c hc
    rw [slotCopies] at hc
    rcases List.mem_append.mp hc with hc | hc
    · have hrange := ih (by omega) c hc
      omega
    · rw [List.mem_singleton.mp hc]
      dsimp only
      omega

theorem stringCopies_range (h : 0 < descend strs sp) :
    ∀ c ∈ stringCopies strs sp, descend strs sp ≤ c.1 ∧ c.1 < sp := by
  intro c hc
  unfold descend at h
  rcases List.mem_append.mp hc with hc | hc
  · have hrange := slotCopies_range (by omega) c hc
    unfold descend
    omega
  · rw [List.mem_singleton.mp hc, descend]
    omega

theorem descend_le (strs : List (List UInt8)) (sp : Nat) : descend strs sp ≤ sp := by
  unfold descend
  omega

/-! ## 3. Copies that spare the page tables -/

/-- The stack is mapped, in frames of `A`. -/
structure Stacked (A : Set Nat) (x : Nat) (s : Vm) : Prop where
  holds : Holds A x (userByte s x) s
  mapped : ∀ va, userStackTop - userStackSize ≤ va → va < userStackTop → ∃ f, frameAt s x (pageSlot va) = some f

/-- The frames that `n` bytes run over from the frame of address `a` on are pages, if they belong to the address
    space. A copy within one page always spares its tables. -/
def Spares (x : Nat) (s : Vm) (a n : Nat) : Prop :=
  ∀ f, frameAt s x (pageSlot a) = some f → ∀ i < n, ∀ k,
    frameAt s x k = some ((f * pageSize + a % pageSize + i) / pageSize) → ∃ di pi, k = .page di pi

section Framed

variable (hf : frameAt s x (pageSlot va) = some f)

include hf

theorem virtToPhysPd_of_frame : virtToPhysPd (x * pageSize) va s = f * pageSize + va % pageSize := by
  obtain ⟨_, _, t, ht, hp⟩ := table_of_page hf
  rw [virtToPhysPd_some ht hp, or_flags (Nat.mod_lt _ (by decide))]

theorem ensurePage_of_frame (h0 : f ≠ 0) : ensurePage (x * pageSize) va s = s := by
  have hslot : pageSlot (alignDown va pageSize) = pageSlot va := by
    refine pageSlot_eq_iff.mpr ?_
    change va / 4096 * 4096 / 4096 = va / 4096
    omega
  have hne : virtToPhysPd (x * pageSize) (alignDown va pageSize) s ≠ 0 := by
    rw [virtToPhysPd_of_frame (hslot ▸ hf), pageSize_eq]
    omega
  rw [ensurePage, if_neg hne]

theorem copyOut_of_frame (h0 : f ≠ 0) (bytes : List UInt8) :
    copyOut (x * pageSize) va bytes s = { s with mem := storeList s.mem (f * pageSize + va % pageSize) bytes } := by
  unfold copyOut
  dsimp only
  rw [ensurePage_of_frame hf h0, virtToPhysPd_of_frame hf]

/-- **A copy that spares the tables** changes nothing about what is mapped. -/
theorem frameAt_copied (hspare : Spares x s va bytes.length) (k : Slot) :
    frameAt { s with mem := storeList s.mem (f * pageSize + va % pageSize) bytes } x k = frameAt s x k := by
  have hcell : ∀ t k, frameAt s x k = some t → (∀ di pi, k ≠ .page di pi) →
      pool.cell { s with mem := storeList s.mem (f * pageSize + va % pageSize) bytes } t = pool.cell s t := by
    intro t k hk hpage
    funext ⟨o, ho⟩
    have ho : o < 4096 := ho
    generalize hstart : f * pageSize + va % pageSize = start
    refine storeList_of_ne _ _ _ ?_
    change t * 4096 + o < start ∨ start + bytes.length ≤ t * 4096 + o
    by_contra hin
    have heq : (start + (t * 4096 + o - start)) / pageSize = t := by
      change (start + (t * 4096 + o - start)) / 4096 = t
      omega
    obtain ⟨di, pi, hk'⟩ := hspare f hf (t * 4096 + o - start) (by omega) k (by rw [hstart, heq]; exact hk)
    exact hpage di pi hk'
  exact frameAt_congr (hcell x .dir rfl fun _ _ hk => by cases hk) (fun dj t hdj ht =>
    hcell t (.table dj) ((frameAt_table hdj).trans ht) fun _ _ hk => by cases hk) k

end Framed

theorem Stacked.copyOut (h : Stacked A x s) (h0 : 0 ∉ A) (hlo : userStackTop - userStackSize ≤ va)
    (hhi : va < userStackTop) (hspare : Spares x s va bytes.length) :
    Stacked A x (copyOut (x * pageSize) va bytes s) ∧
      ∀ k, frameAt (Exec.copyOut (x * pageSize) va bytes s) x k = frameAt s x k := by
  obtain ⟨f, hf⟩ := h.mapped va hlo hhi
  have hf0 : f ≠ 0 := fun heq => h0 (heq ▸ h.holds.was_free hf)
  rw [copyOut_of_frame hf hf0]
  have hat := frameAt_copied hf hspare
  refine ⟨⟨⟨fun {k k' g} hk hk' => ?_, fun {k g} hk => ?_, fun {k g} hk => ?_, h.holds.sub, fun _ _ => rfl⟩,
    fun a hlo hhi => ?_⟩, hat⟩
  · rw [hat] at hk hk'
    exact h.holds.distinct hk hk'
  · rw [hat] at hk
    exact h.holds.used hk
  · rw [hat] at hk
    exact h.holds.was_free hk
  · rw [hat]
    exact h.mapped a hlo hhi

theorem Stacked.copies {cs : List (Nat × List UInt8)} (h : Stacked A x s) (h0 : 0 ∉ A)
    (hrange : ∀ c ∈ cs, userStackTop - userStackSize ≤ c.1 ∧ c.1 < userStackTop)
    (hspare : ∀ c ∈ cs, Spares x s c.1 c.2.length) :
    Stacked A x (cs.foldl (fun s c => Exec.copyOut (x * pageSize) c.1 c.2 s) s) ∧
      ∀ k, frameAt (cs.foldl (fun s c => Exec.copyOut (x * pageSize) c.1 c.2 s) s) x k = frameAt s x k := by
  induction cs generalizing s with
  | nil => exact ⟨h, fun _ => rfl⟩
  | cons c cs ih =>
    have hc := hrange c (.head _)
    obtain ⟨h1, hat⟩ := h.copyOut h0 hc.1 hc.2 (hspare c (.head _))
    rw [List.foldl_cons]
    generalize Exec.copyOut (x * pageSize) c.1 c.2 s = s1 at h1 hat
    obtain ⟨h2, hat2⟩ := ih h1 (fun e he => hrange e (.tail _ he)) fun e he => by
      intro f hf i hi k hk
      rw [hat] at hf hk
      exact hspare e (.tail _ he) f hf i hi k hk
    exact ⟨h2, fun k => (hat2 k).trans (hat k)⟩

theorem Stacked.slab (h : Stacked A x s) (slab : List Bool) : Stacked A x { s with slab := slab } :=
  ⟨⟨h.holds.distinct, h.holds.used, h.holds.was_free, h.holds.sub, fun _ _ => rfl⟩, h.mapped⟩

/-- **`push_strings`** on a stack with room for the strings. -/
theorem Stacked.pushStrings (h : Stacked A x s) (h0 : 0 ∉ A) (hsp : sp ≤ userStackTop)
    (hfit : userStackTop - userStackSize ≤ descend strs sp)
    (hspare : ∀ c ∈ stringCopies strs sp, Spares x s c.1 c.2.length)
    (hne : (pushStrings (x * pageSize) sp strs s).1 ≠ 0) :
    (Exec.pushStrings (x * pageSize) sp strs s).1 = descend strs sp ∧
      Stacked A x (Exec.pushStrings (x * pageSize) sp strs s).2 ∧
      ∀ k, frameAt (Exec.pushStrings (x * pageSize) sp strs s).2 x k = frameAt s x k := by
  have hbase : 0xBF7FF000 ≤ descend strs sp := hfit
  have htop : sp ≤ 0xBFFFF000 := hsp
  obtain ⟨slab, _, hslab⟩ := kmallocOk_eq ((strs.length + 1) * 4) s
  rw [pushStrings_eq (x * pageSize) (by omega) (by omega : 0 < descend strs sp), hslab] at hne ⊢
  split at hne
  · rename_i hok
    rw [if_pos hok]
    have hrange : ∀ c ∈ stringCopies strs sp, userStackTop - userStackSize ≤ c.1 ∧ c.1 < userStackTop := by
      intro c hc
      obtain ⟨hlo, hhi⟩ := stringCopies_range (by omega) c hc
      exact ⟨hfit.trans hlo, hhi.trans_le hsp⟩
    obtain ⟨h', hat⟩ := (h.slab slab).copies h0 hrange hspare
    exact ⟨rfl, h', hat⟩
  · exact absurd rfl hne

/-! ## 4. Words pushed -/

/-- The word of an image at an address. -/
def wordAt (M : Nat → Option UInt8) (a : Nat) : Option Nat :=
  match M a, M (a + 1), M (a + 2), M (a + 3) with
  | some b0, some b1, some b2, some b3 =>
    some (b0.toNat + 2 ^ 8 * b1.toNat + 2 ^ 16 * b2.toNat + 2 ^ 24 * b3.toNat)
  | _, _, _, _ => none

theorem wordAt_congr {M' : Nat → Option UInt8} {a : Nat} (h : ∀ i < 4, M' (a + i) = M (a + i)) :
    wordAt M' a = wordAt M a := by
  have h0 : M' a = M a := h 0 (by decide)
  rw [wordAt, wordAt, h0, h 1 (by decide), h 2 (by decide), h 3 (by decide)]

theorem wordAt_bytes {a v : Nat} (h : ∀ i < 4, M (a + i) = some ((wordBytes [v]).getD i 0)) :
    wordAt M a = some (u32 v) := by
  have h0 : M a = some ((wordBytes [v]).getD 0 0) := h 0 (by decide)
  have hv0 : ((wordBytes [v]).getD 0 0).toNat = v % 2 ^ 8 := UInt8.toNat_ofNat'
  have hv1 : ((wordBytes [v]).getD 1 0).toNat = v / 2 ^ 8 % 2 ^ 8 := UInt8.toNat_ofNat'
  have hv2 : ((wordBytes [v]).getD 2 0).toNat = v / 2 ^ 16 % 2 ^ 8 := UInt8.toNat_ofNat'
  have hv3 : ((wordBytes [v]).getD 3 0).toNat = v / 2 ^ 24 % 2 ^ 8 := UInt8.toNat_ofNat'
  rw [wordAt, h0, h 1 (by decide), h 2 (by decide), h 3 (by decide)]
  dsimp only
  rw [hv0, hv1, hv2, hv3, Option.some.injEq, u32]
  omega

theorem wordAt_overwrite (M : Nat → Option UInt8) (a v : Nat) :
    wordAt (overwrite M a (wordBytes [v])) a = some (u32 v) := by
  refine wordAt_bytes fun i hi => ?_
  have hlen : (wordBytes [v]).length = 4 := rfl
  rw [overwrite, if_pos (by omega), Nat.add_sub_cancel_left]

theorem storeWord_eq (m : Mem) (a v : Nat) : storeWord m a v = storeList m a (wordBytes [v]) := by
  funext i
  have hlen : (wordBytes [v]).length = 4 := rfl
  unfold storeWord storeList
  rw [hlen]
  by_cases hin : a ≤ i ∧ i < a + 4
  · rw [if_pos hin]
    obtain ⟨k, rfl⟩ := Nat.exists_eq_add_of_le hin.1
    have hk : k = 0 ∨ k = 1 ∨ k = 2 ∨ k = 3 := by omega
    rw [Nat.add_sub_cancel_left]
    rcases hk with rfl | rfl | rfl | rfl <;> simp [wordBytes]
  · rw [if_neg hin, if_neg (by omega), if_neg (by omega), if_neg (by omega), if_neg (by omega)]

theorem stackPush32_eq (h : Holds A x M s) (h0 : 0 ∉ A) (hsp : 4 ≤ sp) (hlt : sp < 2 ^ 32)
    (hf : frameAt s x (pageSlot (sp - 4)) = some f) (v : Nat) :
    stackPush32 (x * pageSize) sp v s = (sp - 4, copyChunk (x * pageSize) (sp - 4) (wordBytes [v]) s) := by
  have hf0 : f ≠ 0 := fun heq => h0 (heq ▸ h.was_free hf)
  unfold stackPush32
  dsimp only
  rw [sub32_of_le hsp hlt, ensurePage_of_frame hf hf0, storeWord_eq, virtToPhysPd_of_frame hf, copyChunk,
    destination_of_frame hf]

/-- **Words pushed on a stack that is mapped**: each is where it belongs, and nothing above is touched. -/
theorem pushWords_spec {ws : List Nat} (h : Holds A x M s) (h0 : 0 ∉ A) (hroom : 4 * ws.length ≤ sp)
    (htop : sp ≤ kernelVirtBase) (hal : sp % 4 = 0)
    (hmapped : ∀ va, sp - 4 * ws.length ≤ va → va < sp → (M va).isSome) :
    ∃ M', Holds A x M' (pushWords (x * pageSize) ws sp s).2 ∧
      (pushWords (x * pageSize) ws sp s).1 = sp - 4 * ws.length ∧ (∀ va, sp ≤ va → M' va = M va) ∧
      ∀ i w, ws[i]? = some w → wordAt M' (sp - 4 * (i + 1)) = some (u32 w) := by
  induction ws generalizing s sp M with
  | nil =>
    refine ⟨M, h, rfl, fun _ _ => rfl, fun i w hi => ?_⟩
    rw [List.getElem?_nil] at hi
    cases hi
  | cons v ws ih =>
    rw [List.length_cons] at hroom hmapped ⊢
    have htop' : sp ≤ 0xC0000000 := htop
    have hlow : sp - 4 < kernelVirtBase := by
      change sp - 4 < 0xC0000000
      omega
    obtain ⟨f, hf⟩ := (h.mapped_iff hlow).mp (hmapped (sp - 4) (by omega) (by omega))
    have hfit : (sp - 4) % pageSize + (wordBytes [v]).length ≤ pageSize := by
      change (sp - 4) % 4096 + 4 ≤ 4096
      omega
    have h1 := h.copied hf hfit
    have hkeep : ∀ va, (overwrite M (sp - 4) (wordBytes [v]) va).isSome = true ∨
        overwrite M (sp - 4) (wordBytes [v]) va = M va := by
      intro va
      unfold overwrite
      split
      · exact .inl rfl
      · exact .inr rfl
    have habove : ∀ va, sp ≤ va → overwrite M (sp - 4) (wordBytes [v]) va = M va := by
      intro va hva
      have hlen : (wordBytes [v]).length = 4 := rfl
      rw [overwrite, if_neg (by omega)]
    rw [pushWords, stackPush32_eq h h0 (by omega) (by omega) hf]
    dsimp only
    have hroom1 : 4 * ws.length ≤ sp - 4 := by omega
    obtain ⟨M', h', hsp', habove', hwords⟩ := ih h1 hroom1 (Nat.le_of_lt hlow) (by omega) fun va hlo hhi => by
      rcases hkeep va with hsome | hsame
      · exact hsome
      · rw [hsame]
        exact hmapped va (by omega) (by omega)
    refine ⟨M', h', by omega, fun va hva => (habove' va (by omega)).trans (habove va hva), fun i w hi => ?_⟩
    cases i with
    | zero =>
      obtain rfl : v = w := Option.some.inj hi
      rw [wordAt_congr (M := overwrite M (sp - 4) (wordBytes [v])) fun i _ => habove' _ (by omega)]
      exact wordAt_overwrite M _ v
    | succ i =>
      have hnext := hwords i w hi
      have heq : sp - 4 - 4 * (i + 1) = sp - 4 * (i + 1 + 1) := by omega
      rw [heq] at hnext
      exact hnext

/-! ## 5. What is at the stack pointer -/

section Loader

variable {kernelPgdir : Nat} {im : Image} {cred : Cred} {argv envp : List (List UInt8)}

theorem stackPages_split : ∃ ps, stackPages = ps ++ [0xBFFFD000] ++ [0xBFFFE000] := by
  have hsize : userStackSize / pageSize = 2046 + 1 + 1 := rfl
  unfold stackPages
  rw [hsize, List.range_succ, List.range_succ, List.map_append, List.map_append]
  exact ⟨_, rfl⟩

/-- Once all pages of the stack have found a frame, they are all mapped: the last one shares its table with the one
    before. -/
theorem Stacked.mapped_all (h : Holds A x M s) (h0 : 0 ∉ A)
    (hstack : (stackPages.map (Action.map · stackFlags)).foldlM (Action.exec (x * pageSize)) s = some s') :
    Stacked A x s' := by
  obtain ⟨ps, hps⟩ := stackPages_split
  suffices hend : Holds A x (imageOf M (stackPages.map (Action.map · stackFlags))) s' by
    have hself : Holds A x (userByte s' x) s' := ⟨hend.distinct, hend.used, hend.was_free, hend.sub, fun _ _ => rfl⟩
    refine ⟨hself, fun va hlo hhi => (hend.mapped_iff (hhi.trans (by decide))).mp ?_⟩
    rw [image_maps, if_pos (stackPages_cover hlo hhi)]
    rfl
  have hrun := hstack
  have hin := stack_inside M
  have hfit := stack_fits
  rw [hps, List.map_append] at hrun hin hfit
  rw [List.foldlM_append] at hrun
  obtain ⟨s1, hfirst, hlast⟩ := Option.bind_eq_some_iff.mp hrun
  obtain ⟨_, hexec, ⟨⟩⟩ := Option.bind_eq_some_iff.mp hlast
  have h1 := (h.run h0 (allInside_append.mp hin).1 (List.forall_mem_append.mp hfit).1 hfirst).resolve_right
    (free_of_map hexec)
  obtain ⟨hgot, rfl⟩ := exec_map hexec
  have hlow : 0xBFFFE000 < kernelVirtBase := by decide
  have himage : imageOf M (stackPages.map (Action.map · stackFlags)) =
      clearPage (imageOf M ((ps ++ [0xBFFFD000]).map (Action.map · stackFlags))) 0xBFFFE000 := by
    rw [hps, List.map_append, imageOf_append]
    rfl
  rw [himage]
  rcases mapFresh_cases h1.space h1.apart hlow stackFlags with ⟨hfail, _⟩ | ⟨g, N, _, _, hm⟩ | ⟨_, hnone, _⟩
  · exact absurd hfail hgot
  · exact h1.mapped hlow hm
  · -- the page before has been mapped through that table
    have hprev : (imageOf M ((ps ++ [0xBFFFD000]).map (Action.map · stackFlags)) 0xBFFFD000).isSome := by
      rw [image_maps, if_pos ⟨0xBFFFD000, List.mem_append_right _ (.head _), rfl⟩]
      rfl
    obtain ⟨f, hf⟩ := (h1.mapped_iff (by decide)).mp hprev
    obtain ⟨_, _, t, ht, _⟩ := table_of_page hf
    have hsame : pdIndex 0xBFFFD000 = pdIndex 0xBFFFE000 := by decide
    rw [hsame, hnone] at ht
    cases ht

/-- The word of user memory at an address. -/
def userWord (s : Vm) (x a : Nat) : Option Nat := wordAt (userByte s x) a

theorem length_auxWords (im : Image) (cred : Cred) : (auxWords im cred).length = 20 := rfl

theorem lastWords_spec {top : Nat} (h : Stacked A x s) (h0 : 0 ∉ A) (hroom : 0xBF7FF000 + 84 ≤ top / 16 * 16)
    (htop : top ≤ 0xBFFFF000)
    (hexec : (match pushWords (x * pageSize) ((auxWords im cred).reverse ++ [argv.length]) (alignDown top 16) s with
      | (sp, s) => (Except.ok sp, s)) = ((.ok sp, s') : Except Int Nat × Vm)) :
    sp = top / 16 * 16 - 4 * lastWords ∧ ∀ i w, (argv.length :: auxWords im cred)[i]? = some w →
      userWord s' x (sp + 4 * i) = some (u32 w) := by
  have hlen : ((auxWords im cred).reverse ++ [argv.length]).length = 21 := by
    rw [List.length_append, List.length_reverse, length_auxWords]
    rfl
  have hrev : argv.length :: auxWords im cred = ((auxWords im cred).reverse ++ [argv.length]).reverse := by
    rw [List.reverse_append, List.reverse_reverse]
    rfl
  generalize (auxWords im cred).reverse ++ [argv.length] = ws at hexec hlen hrev
  rw [hrev]
  have hneed : 4 * ws.length ≤ top / 16 * 16 := by omega
  have hbelow : top / 16 * 16 ≤ kernelVirtBase := by
    change top / 16 * 16 ≤ 0xC0000000
    omega
  obtain ⟨M', h', hsp, _, hwords⟩ := pushWords_spec h.holds h0 hneed hbelow (by omega) fun va hlo hhi => by
    refine (h.holds.mapped_iff (?_ : va < 0xC0000000)).mpr
      (h.mapped va (?_ : 0xBF7FF000 ≤ va) (?_ : va < 0xBFFFF000)) <;>
      omega
  rw [alignDown] at hexec
  generalize pushWords (x * pageSize) ws (top / 16 * 16) s = r at hexec h' hsp
  obtain ⟨sp1, s1⟩ := r
  cases hexec
  dsimp only at hsp h'
  refine ⟨by rw [hsp, hlen]; rfl, fun i w hi => ?_⟩
  have hilt : i < ws.length := by
    rw [← List.length_reverse]
    exact (List.getElem?_eq_some_iff.mp hi).1
  rw [List.getElem?_reverse hilt] at hi
  have hword := hwords _ w hi
  have haddr : top / 16 * 16 - 4 * (ws.length - 1 - i + 1) = sp + 4 * i := by omega
  rw [haddr] at hword
  rw [userWord, ← hword]
  refine wordAt_congr fun j hj => h'.bytes _ ?_
  change sp + 4 * i + j < 0xC0000000
  omega

/-- **What the new program finds at its stack pointer**: `argc`, and right after it the auxiliary vector. -/
theorem esp_words (h : Stacked A im.mm.dir s) (hdir : im.mm.pgdir = im.mm.dir * pageSize) (h0 : 0 ∉ A)
    (hfit : FitsStack argv envp) (hspare : ∀ c ∈ argumentCopies argv envp, Spares im.mm.dir s c.1 c.2.length)
    (hexec : execStack kernelPgdir im cred argv envp s = (.ok sp, s')) :
    sp = initialSp argv envp ∧ ∀ i w, (argv.length :: auxWords im cred)[i]? = some w →
      userWord s' im.mm.dir (sp + 4 * i) = some (u32 w) := by
  have hbase : 0xBF7FF000 ≤ initialSp argv envp := hfit
  have hargv : 0xBF7FF000 + 84 ≤ descend argv (descend envp userStackTop) / 16 * 16 := by
    unfold initialSp lastWords at hbase
    omega
  have hargvLe := descend_le argv (descend envp userStackTop)
  have henvpLe : descend envp userStackTop ≤ 0xBFFFF000 := descend_le envp userStackTop
  have hspares : (∀ c ∈ stringCopies envp userStackTop, Spares im.mm.dir s c.1 c.2.length) ∧
      ∀ c ∈ stringCopies argv (descend envp userStackTop), Spares im.mm.dir s c.1 c.2.length :=
    List.forall_mem_append.mp hspare
  have hfitE : userStackTop - userStackSize ≤ descend envp userStackTop := by
    change 0xBF7FF000 ≤ _
    omega
  have hfitA : userStackTop - userStackSize ≤ descend argv (descend envp userStackTop) := by
    change 0xBF7FF000 ≤ _
    omega
  unfold execStack at hexec
  rw [hdir] at hexec
  have henvp := h.pushStrings h0 le_rfl hfitE hspares.1
  generalize pushStrings (im.mm.dir * pageSize) userStackTop envp s = r at hexec henvp
  obtain ⟨envpSp, s1⟩ := r
  dsimp only at hexec henvp
  split at hexec
  · cases hexec
  · rename_i hne
    obtain ⟨rfl, h1, hat1⟩ := henvp hne
    have hspares1 : ∀ c ∈ stringCopies argv (descend envp userStackTop), Spares im.mm.dir s1 c.1 c.2.length := by
      intro c hc f hf i hi k hk
      rw [hat1] at hf hk
      exact hspares.2 c hc f hf i hi k hk
    have hargs := h1.pushStrings h0 (descend_le envp userStackTop) hfitA hspares1
    generalize pushStrings (im.mm.dir * pageSize) (descend envp userStackTop) argv s1 = r at hexec hargs
    obtain ⟨argvSp, s2⟩ := r
    dsimp only at hexec hargs
    split at hexec
    · cases hexec
    · rename_i hne'
      obtain ⟨rfl, h2, _⟩ := hargs hne'
      exact lastWords_spec h2 h0 hargv (by omega) hexec

/-! ## 6. The layout of the ABI -/

/-- The string at an address of user memory, with its end. -/
def IsString (s : Vm) (x p : Nat) (str : List UInt8) : Prop :=
  ∀ i b, (str ++ [0])[i]? = some b → userByte s x (p + i) = some b

/-- From `a` on pointers to the strings, which lie above `sp` on the stack, and a null pointer. -/
def PointersTo (s : Vm) (x sp a : Nat) (strs : List (List UInt8)) : Prop :=
  (∀ i str, strs[i]? = some str → ∃ p, userWord s x (a + 4 * i) = some p ∧ sp < p ∧ p < userStackTop ∧
    IsString s x p str) ∧ userWord s x (a + 4 * strs.length) = some 0

/-- **The initial stack of the System V ABI**: at the stack pointer `argc`, then the pointers of `argv`, those of
    `envp`, and the auxiliary vector; the strings further up. -/
structure Decodes (s : Vm) (x sp : Nat) (argv envp : List (List UInt8)) (aux : List Nat) : Prop where
  argc : userWord s x sp = some argv.length
  argvPointers : PointersTo s x sp (sp + 4) argv
  envpPointers : PointersTo s x sp (sp + 8 + 4 * argv.length) envp
  auxv : ∀ i w, aux[i]? = some w → userWord s x (sp + 12 + 4 * argv.length + 4 * envp.length + 4 * i) = some w

/-- The stack is mapped after the load of a contained file. -/
theorem Stacked.loaded (h0 : 0 ∉ pool.free s₀) (hcont : Contained file ∅ (segments file))
    (hload : execLoad kernelPgdir file s₀ = (.ok im, s)) :
    im.mm.pgdir = im.mm.dir * pageSize ∧ Stacked (pool.free s₀) im.mm.dir s := by
  obtain ⟨mm, slab, s1, s2, hmm, hpgdir, hrun, hstack⟩ := execLoad_parts hload
  obtain ⟨hdir, hholds⟩ := Holds.created hmm
  have hmmdir : im.mm.dir = mm.dir := congrArg (· / pageSize) hpgdir
  rw [hdir] at hrun hstack
  have hholds2 := (hholds.run h0 (contained_iff.mpr hcont) (segments_fit file _) hrun).resolve_right
    (free_of_stack hstack)
  rw [hmmdir, hpgdir]
  exact ⟨hdir, .mapped_all hholds2 h0 hstack⟩

/-- **No program is started with the stack of the ABI**, whatever its arguments: after `argc` comes the auxiliary
    vector, whose first word is AT_PAGESZ, neither a null pointer nor one into the stack. -/
theorem stack_never_decodes {s₀ : Vm} (h0 : 0 ∉ pool.free s₀) (hcont : Contained file ∅ (segments file))
    (hload : execLoad kernelPgdir file s₀ = (.ok im, s)) (hfit : FitsStack argv envp)
    (hspare : ∀ c ∈ argumentCopies argv envp, Spares im.mm.dir s c.1 c.2.length)
    (hexec : execStack kernelPgdir im cred argv envp s = (.ok sp, s')) :
    ¬ Decodes s' im.mm.dir sp argv envp (auxWords im cred) := by
  intro hdec
  obtain ⟨hdir, hstacked⟩ := Stacked.loaded h0 hcont hload
  obtain ⟨hsp, hwords⟩ := esp_words hstacked hdir h0 hfit hspare hexec
  have hnext : userWord s' im.mm.dir (sp + 4) = some 6 := hwords 1 6 rfl
  have hbase : 0xBF7FF000 ≤ sp := hsp ▸ hfit
  obtain ⟨hpointers, hnull⟩ := hdec.argvPointers
  cases argv with
  | nil =>
    have hzero : userWord s' im.mm.dir (sp + 4) = some 0 := hnull
    rw [hnext] at hzero
    cases hzero
  | cons str strs =>
    obtain ⟨p, hp, hlt, _⟩ := hpointers 0 str rfl
    have hsix : (6 : Nat) = p := Option.some.inj (hnext.symm.trans hp)
    omega

/-! ## 7. A program with one argument -/

/-- The machine of 64 MiB after `paging_init`. -/
theorem sixtyFourMib_booted : ∃ s, s.slab = [] ∧ KernelDir s 768 ∧ ∀ f, f ∈ pool.free s ↔ 770 ≤ f ∧ f < 16384 := by
  obtain ⟨s, _, hwin, hfree⟩ := pagingInit_interval (n := 768) (by decide) (by decide) fun g =>
    mem_free.symm.trans mem_sixtyFourMib
  exact ⟨{ s with slab := [] }, rfl, hwin.kernelDir.congr (fun _ _ => rfl) hwin.kernelDir.used,
    fun f => mem_free.trans (hfree f)⟩

theorem exec_slab {a : Action} (h : a.exec pd s = some s') : s'.slab = s.slab := by
  cases a with
  | map va flags =>
    obtain ⟨hgot, rfl⟩ := exec_map h
    rw [mapFresh, if_neg hgot]
    exact mapPage_slab pd va _ flags s.allocZero.2
  | copy va bytes =>
    cases h
    rfl

theorem run_slab {as : List Action} (h : as.foldlM (Action.exec pd) s = some s') : s'.slab = s.slab := by
  induction as generalizing s with
  | nil =>
    cases h
    rfl
  | cons a as ih =>
    obtain ⟨s1, hexec, hrun⟩ := Option.bind_eq_some_iff.mp h
    exact (ih hrun).trans (exec_slab hexec)

/-- Loading asks the object caches for nothing that they refuse. -/
theorem execLoad_slab (hslab : s.slab = []) (h : execLoad kernelPgdir file s = (.ok im, s')) : s'.slab = [] := by
  obtain ⟨eh, mm, s1, hcreate, hfill⟩ := execLoad_ok h
  obtain ⟨_, slab, hgrant, hmm⟩ := execCreate_ok hcreate
  obtain ⟨_, s2, hrun, hstack⟩ := fillSpace_ok hfill
  exact (run_slab hstack).trans ((run_slab hrun).trans (mmCreate_slab (hgrant hslab) hmm))

theorem copyOut_slab (pd va : Nat) (bytes : List UInt8) (s : Vm) : (copyOut pd va bytes s).slab = s.slab := by
  unfold copyOut ensurePage
  dsimp only
  split
  · exact mapPage_slab pd _ _ stackFlags s.allocZero.2
  · rfl

theorem pushStrings_granted (pd : Nat) (hslab : s.slab = []) (hsp : sp < 2 ^ 32) (h : 0 < descend strs sp) :
    (pushStrings pd sp strs s).1 = descend strs sp ∧ (pushStrings pd sp strs s).2.slab = [] := by
  have hkmalloc : kmallocOk ((strs.length + 1) * 4) s = (true, s) := by
    rw [kmallocOk, if_neg (by omega), Vm.slabAlloc, hslab]
  have hslabs : ∀ (cs : List (Nat × List UInt8)) (s : Vm),
      (cs.foldl (fun s c => copyOut pd c.1 c.2 s) s).slab = s.slab := by
    intro cs
    induction cs with
    | nil => exact fun _ => rfl
    | cons c cs ih => exact fun s => (ih _).trans (copyOut_slab pd c.1 c.2 s)
  rw [pushStrings_eq pd hsp h, hkmalloc]
  exact ⟨rfl, (hslabs _ s).trans hslab⟩

/-- When the arguments fit and the object caches give, the stack is made. -/
theorem execStack_goes (kernelPgdir : Nat) (im : Image) (cred : Cred) (hslab : s.slab = [])
    (hfit : FitsStack argv envp) :
    ∃ sp s', execStack kernelPgdir im cred argv envp s = (.ok sp, s') := by
  have hbase : 0xBF7FF000 ≤ initialSp argv envp := hfit
  have hargv : 0 < descend argv (descend envp userStackTop) := by
    unfold initialSp lastWords at hbase
    omega
  have hargvLe := descend_le argv (descend envp userStackTop)
  have henvpLe : descend envp userStackTop ≤ 0xBFFFF000 := descend_le envp userStackTop
  obtain ⟨henvp, hslab1⟩ := pushStrings_granted im.mm.pgdir hslab (by decide) (by omega : 0 < descend envp userStackTop)
  unfold execStack
  generalize pushStrings im.mm.pgdir userStackTop envp s = r at henvp hslab1
  obtain ⟨envpSp, s1⟩ := r
  dsimp only at henvp hslab1 ⊢
  subst henvp
  obtain ⟨hargs, _⟩ := pushStrings_granted im.mm.pgdir hslab1 (by omega) hargv
  rw [if_neg (by omega)]
  generalize pushStrings im.mm.pgdir (descend envp userStackTop) argv s1 = r at hargs
  obtain ⟨argvSp, s2⟩ := r
  dsimp only at hargs ⊢
  subst hargs
  rw [if_neg (by omega)]
  exact ⟨_, _, rfl⟩

/-- A copy within one page spares the tables. -/
theorem Stacked.spares {a n : Nat} (h : Stacked A x s) (hfit : a % pageSize + n ≤ pageSize) : Spares x s a n := by
  intro f hf i hi k hk
  have hfit : a % 4096 + n ≤ 4096 := hfit
  have heq : (f * pageSize + a % pageSize + i) / pageSize = f := by
    change (f * 4096 + a % 4096 + i) / 4096 = f
    omega
  rw [heq] at hk
  exact ⟨_, _, h.holds.distinct hk hf⟩

/-- The argument "a", and no environment. -/
def oneArg : List (List UInt8) := [[97]]

theorem oneArg_copies : argumentCopies oneArg [] =
    [(0xBFFFEFFC, [0, 0, 0, 0]), (0xBFFFEFFA, [97, 0]), (0xBFFFEFF0, [0xFA, 0xEF, 0xFF, 0xBF, 0, 0, 0, 0])] := by
  decide +kernel

def root : Cred := ⟨0, 0, 0, 0⟩

/-- A program is started with it on the machine of 64 MiB. -/
theorem oneArg_started : ∃ s₀ im s sp s', 0 ∉ pool.free s₀ ∧
    Contained (smallFile 0x1000) ∅ (segments (smallFile 0x1000)) ∧
    execLoad (768 * pageSize) (smallFile 0x1000) s₀ = (.ok im, s) ∧ FitsStack oneArg [] ∧
    (∀ c ∈ argumentCopies oneArg [], Spares im.mm.dir s c.1 c.2.length) ∧
    execStack (768 * pageSize) im root oneArg [] s = (.ok sp, s') := by
  obtain ⟨s₀, hslab, _, hfree⟩ := sixtyFourMib_booted
  have h0 : 0 ∉ pool.free s₀ := fun hm => absurd ((hfree 0).mp hm).1 (by decide)
  obtain ⟨_, hlegal, _⟩ := smallFile_legal (.inr (Eq.refl 0x1000))
  have hcont := contained_iff.mp (Paged.allInside_segments (M := fun _ => none) (fun _ _ _ => rfl) hlegal)
  obtain ⟨im, s, hload⟩ := smallFile_goes (768 * pageSize)
    (.inr rfl) h0 hslab (by rw [frames_of_interval hfree]; decide)
  obtain ⟨_, hstacked⟩ := Stacked.loaded h0 hcont hload
  have hfit : FitsStack oneArg [] := by
    unfold FitsStack
    decide +kernel
  obtain ⟨sp, s', hexec⟩ := execStack_goes (768 * pageSize) im root (execLoad_slab hslab hload) hfit
  refine ⟨s₀, im, s, sp, s', h0, hcont, hload, hfit, fun c hc => hstacked.spares ?_, hexec⟩
  rw [oneArg_copies] at hc
  have hpage : ∀ c ∈ [(0xBFFFEFFC, [0, 0, 0, 0]), (0xBFFFEFFA, [97, 0]),
      (0xBFFFEFF0, [(0xFA : UInt8), 0xEF, 0xFF, 0xBF, 0, 0, 0, 0])], c.1 % pageSize + c.2.length ≤ pageSize := by decide
  exact hpage c hc

theorem stack_never_decodes_oneArg : ∃ im s sp s', execStack (768 * pageSize) im root oneArg [] s = (.ok sp, s') ∧
    ¬ Decodes s' im.mm.dir sp oneArg [] (auxWords im root) := by
  obtain ⟨s₀, im, s, sp, s', h0, hcont, hload, hfit, hspare, hexec⟩ := oneArg_started
  exact ⟨im, s, sp, s', hexec, stack_never_decodes h0 hcont hload hfit hspare hexec⟩

/-- **After the count of one argument comes 6**, which is AT_PAGESZ and no pointer to the argument. -/
theorem argument_pointer_missing : ∃ s₀ im s sp s', execLoad (768 * pageSize) (smallFile 0x1000) s₀ = (.ok im, s) ∧
    execStack (768 * pageSize) im root oneArg [] s = (.ok sp, s') ∧ sp = 0xBFFFEF9C ∧
    userWord s' im.mm.dir sp = some 1 ∧ userWord s' im.mm.dir (sp + 4) = some 6 := by
  obtain ⟨s₀, im, s, sp, s', h0, hcont, hload, hfit, hspare, hexec⟩ := oneArg_started
  obtain ⟨hdir, hstacked⟩ := Stacked.loaded h0 hcont hload
  obtain ⟨hsp, hwords⟩ := esp_words hstacked hdir h0 hfit hspare hexec
  have hinit : initialSp oneArg [] = 0xBFFFEF9C := by decide +kernel
  exact ⟨s₀, im, s, sp, s', hload, hexec, hsp.trans hinit, hwords 0 1 rfl, hwords 1 6 rfl⟩

end Loader

end OreUnix.Exec
