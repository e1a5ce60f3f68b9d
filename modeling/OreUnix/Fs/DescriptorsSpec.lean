/-
  Subject: WHAT REFERENCES STAND FOR: files and descriptors, dentries and files, inodes and dentries, pipes and their
  ends.

  * `Counted` -- a file's count is the number of descriptors that hold it, plus the references the call in progress
    holds;
  * `Logged` -- the release operation has run once for every file that is gone, and for no other;
  * `Rooted` -- a dentry has at least as many references as files on it, an inode at least as many as dentries on it,
    so that neither is freed under a file;
  * `Piped` -- an open end leads to its pipe, and the pipe counts its open ends.

  The first two hold in every run. `Rooted`, on which `Piped` rests, takes a reference for every file that is opened.
-/
import OreUnix.Fs.Descriptors
import OreUnix.Lib.Tally
import OreUnix.Lib.Wp
import Mathlib.Data.Finset.Prod

namespace OreUnix.Fd

open Tally
open Fs (Pipe)
open Function (update update_apply comp_update update_eq_self_iff)

variable {s s' : State} {v : Nat × Nat → Option Nat} {held ed ei : List Nat} {f g d i p : Nat}
variable {c : Cell File} {o : FileOps} {q : Nat}

def Live (s : State) (f : Nat) : Prop := (s.files f).live = true

def refs (s : State) (f : Nat) : Nat := (s.files f).val.refcount

/-- All descriptors. -/
def slots (s : State) (x : Nat × Nat) : Option Nat := slot s x.1 x.2

/-- The places of descriptors. -/
def places (s : State) : Finset (Nat × Nat) := s.procs ×ˢ Finset.range openMax

/-- The state with the cell of a file written. -/
def State.withFile (s : State) (f : Nat) (c : Cell File) : State := { s with files := update s.files f c }

theorem files_withFile (s : State) (f : Nat) (c : Cell File) (g : Nat) :
    (s.withFile f c).files g = if g = f then c else s.files g := update_apply ..

/-! ## 1. Files and descriptors -/

/-- The count of each file is the number of places `v` holds it in, plus its references in `held`. -/
structure Counted (v : Nat × Nat → Option Nat) (held : List Nat) (s : State) : Prop where
  count : ∀ {f}, Live s f → refs s f = tally (places s) v f + held.count f
  pos : ∀ {f}, Live s f → 0 < refs s f
  live : ∀ {x f}, v x = some f → Live s f
  held_live : ∀ {f}, f ∈ held → Live s f
  bound : ∀ {f}, Live s f → f < s.nextFile
  inside : ∀ {x f}, v x = some f → x ∈ places s

/-- Dentries, inodes and pipes have no part in it. -/
theorem Counted.frame (h : Counted v held s) (hf : s'.files = s.files) (hn : s'.nextFile = s.nextFile)
    (hp : s'.procs = s.procs) : Counted v held s' := by
  have hlive : ∀ f, Live s' f ↔ Live s f := fun f => by rw [Live, Live, hf]
  have hrefs : ∀ f, refs s' f = refs s f := fun f => by rw [refs, refs, hf]
  have hplaces : places s' = places s := by rw [places, places, hp]
  refine ⟨fun hl => ?_, fun hl => ?_, fun hv => (hlive _).mpr (h.live hv),
    fun hm => (hlive _).mpr (h.held_live hm), fun hl => ?_, fun hv => ?_⟩
  · rw [hrefs, hplaces]
    exact h.count ((hlive _).mp hl)
  · rw [hrefs]
    exact h.pos ((hlive _).mp hl)
  · rw [hn]
    exact h.bound ((hlive _).mp hl)
  · rw [hplaces]
    exact h.inside hv

theorem live_withFile : Live (s.withFile f c) g ↔ if g = f then c.live = true else Live s g := by
  rw [Live, files_withFile]
  split <;> rfl

theorem refs_withFile : refs (s.withFile f c) g = if g = f then c.val.refcount else refs s g := by
  rw [refs, files_withFile]
  split <;> rfl

/-- The cell of a live file with another count. -/
def withRefs (s : State) (f n : Nat) : State := s.withFile f ⟨true, { (s.files f).val with refcount := n }⟩

theorem live_withRefs (hf : Live s f) (n : Nat) : Live (withRefs s f n) g ↔ Live s g := by
  rw [withRefs, live_withFile]
  by_cases hg : g = f
  · subst hg
    exact ⟨fun _ => hf, fun _ => if_pos rfl ▸ rfl⟩
  · rw [if_neg hg]

theorem refs_withRefs (n : Nat) : refs (withRefs s f n) g = if g = f then n else refs s g := refs_withFile

/-- A count and the references it stands for move together. -/
theorem Counted.recount {v' : Nat × Nat → Option Nat} {held' : List Nat} {n : Nat} (h : Counted v held s)
    (hf : Live s f) (hn : n = tally (places s) v' f + held'.count f) (hpos : 0 < n)
    (hsame : ∀ g, g ≠ f → tally (places s) v' g + held'.count g = tally (places s) v g + held.count g)
    (hlive : ∀ {x g}, v' x = some g → Live s g ∧ x ∈ places s) (hheld : ∀ {g}, g ∈ held' → Live s g) :
    Counted v' held' (withRefs s f n) := by
  have hl : ∀ {g}, Live (withRefs s f n) g ↔ Live s g := live_withRefs hf n
  refine ⟨fun {g} hg => ?_, fun {g} hg => ?_, fun hv => hl.mpr (hlive hv).1, fun hm => hl.mpr (hheld hm),
    fun hg => h.bound (hl.mp hg), fun hv => (hlive hv).2⟩
  · rw [refs_withRefs]
    split
    · rename_i heq
      rw [heq]
      exact hn
    · rename_i hne
      rw [h.count (hl.mp hg)]
      exact (hsame g hne).symm
  · rw [refs_withRefs]
    split
    · exact hpos
    · exact h.pos (hl.mp hg)

theorem Counted.get (h : Counted v held s) (hf : Live s f) : Counted v (f :: held) (withRefs s f (refs s f + 1)) := by
  refine h.recount hf ?_ (Nat.succ_pos _) (fun g hg => ?_) (fun hv => ⟨h.live hv, h.inside hv⟩) fun hm => ?_
  · rw [h.count hf, List.count_cons_self, Nat.add_assoc]
  · rw [List.count_cons_of_ne hg.symm]
  · rcases List.mem_cons.mp hm with rfl | hm
    · exact hf
    · exact h.held_live hm

/-- A held reference of several is dropped. -/
theorem Counted.put (h : Counted v (f :: held) s) (hn : refs s f ≠ 1) :
    Counted v held (withRefs s f (refs s f - 1)) := by
  have hf : Live s f := h.held_live (.head _)
  have hcount := h.count hf
  have hpos := h.pos hf
  rw [List.count_cons_self] at hcount
  refine h.recount hf (by omega) (by omega) (fun g hg => ?_) (fun hv => ⟨h.live hv, h.inside hv⟩)
    fun hm => h.held_live (.tail _ hm)
  rw [List.count_cons_of_ne hg.symm]

/-- The only reference is dropped: nothing else holds the file. -/
theorem Counted.drop {c : Cell File} (h : Counted v (f :: held) s) (hn : refs s f = 1)
    (hc : c.live = false) : Counted v held (s.withFile f c) := by
  have hf : Live s f := h.held_live (.head _)
  have hcount := h.count hf
  rw [hn, List.count_cons_self] at hcount
  have hv : ∀ {x g}, v x = some g → g ≠ f := by
    rintro x g hx rfl
    have := tally_pos (h.inside hx) hx
    omega
  have hheld : f ∉ held := fun hm => by
    have := List.count_pos_iff.mpr hm
    omega
  have hl : ∀ {g}, Live (s.withFile f c) g ↔ g ≠ f ∧ Live s g := by
    intro g
    rw [live_withFile, hc]
    by_cases hg : g = f <;> simp [hg]
  refine ⟨fun {g} hg => ?_, fun {g} hg => ?_, fun hx => hl.mpr ⟨hv hx, h.live hx⟩,
    fun {g} hm => hl.mpr ⟨fun he => hheld (he ▸ hm), h.held_live (.tail _ hm)⟩,
    fun hg => h.bound (hl.mp hg).2, h.inside⟩
  · obtain ⟨hne, hg⟩ := hl.mp hg
    have hcg := h.count hg
    rw [List.count_cons_of_ne hne.symm] at hcg
    rw [refs_withFile, if_neg hne]
    exact hcg
  · obtain ⟨hne, hg⟩ := hl.mp hg
    rw [refs_withFile, if_neg hne]
    exact h.pos hg

/-- The state with a new file. -/
def State.withNew (s : State) (x : File) : State :=
  { s with files := update s.files s.nextFile ⟨true, x⟩, nextFile := s.nextFile + 1 }

variable {x : File}

theorem Counted.new (h : Counted v held s) (hx : x.refcount = 1) : Counted v (s.nextFile :: held) (s.withNew x) := by
  have hnew : ∀ {g}, Live s g → g ≠ s.nextFile := fun hg => Nat.ne_of_lt (h.bound hg)
  have hfile : ∀ g, (s.withNew x).files g = if g = s.nextFile then ⟨true, x⟩ else s.files g :=
    fun g => update_apply ..
  have hl : ∀ {g}, Live (s.withNew x) g ↔ g = s.nextFile ∨ Live s g := by
    intro g
    rw [Live, hfile]
    by_cases hg : g = s.nextFile
    · simp [hg]
    · rw [if_neg hg]
      simp [hg, Live]
  have htally : tally (places s) v s.nextFile = 0 := tally_zero fun y _ hy => hnew (h.live hy) rfl
  have hcount : held.count s.nextFile = 0 := List.count_eq_zero.mpr fun hm => hnew (h.held_live hm) rfl
  refine ⟨fun {g} hg => ?_, fun {g} hg => ?_, fun hv => hl.mpr (.inr (h.live hv)), fun hm => ?_,
    fun hg => ?_, h.inside⟩
  · rw [refs, hfile]
    change _ = tally (places s) v g + _
    by_cases heq : g = s.nextFile
    · rw [if_pos heq, heq, htally, List.count_cons_self, hcount]
      exact hx
    · rw [if_neg heq, List.count_cons_of_ne (Ne.symm heq)]
      exact h.count ((hl.mp hg).resolve_left heq)
  · rw [refs, hfile]
    by_cases heq : g = s.nextFile
    · rw [if_pos heq, hx]
      exact Nat.one_pos
    · rw [if_neg heq]
      exact h.pos ((hl.mp hg).resolve_left heq)
  · rcases List.mem_cons.mp hm with rfl | hm
    · exact hl.mpr (.inl rfl)
    · exact hl.mpr (.inr (h.held_live hm))
  · rcases hl.mp hg with rfl | hg
    · exact Nat.lt_succ_self _
    · exact Nat.lt_succ_of_lt (h.bound hg)

/-- A held reference goes to a place that holds nothing. -/
theorem Counted.store {x : Nat × Nat} (h : Counted v (f :: held) s) (hx : x ∈ places s) (hv : v x = none) :
    Counted (update v x (some f)) held s := by
  have hcount : ∀ g, tally (places s) (update v x (some f)) g + held.count g =
      tally (places s) v g + (f :: held).count g := by
    intro g
    have hup := tally_update hx v (some f) g
    rw [hv, holds_none] at hup
    by_cases hg : g = f
    · subst hg
      rw [holds_self] at hup
      rw [List.count_cons_self]
      omega
    · rw [holds_of_ne (fun he => hg (Option.some.inj he).symm)] at hup
      rw [List.count_cons_of_ne (Ne.symm hg)]
      omega
  have hcase : ∀ {y g}, update v x (some f) y = some g → (y = x ∧ g = f) ∨ v y = some g := by
    intro y g hy
    rw [update_apply] at hy
    split at hy
    · exact .inl ⟨‹_›, (Option.some.inj hy).symm⟩
    · exact .inr hy
  refine ⟨fun {g} hg => (h.count hg).trans (hcount g).symm, h.pos, fun hy => ?_,
    fun hm => h.held_live (.tail _ hm), h.bound, fun hy => ?_⟩
  · rcases hcase hy with ⟨_, rfl⟩ | hy
    · exact h.held_live (.head _)
    · exact h.live hy
  · rcases hcase hy with ⟨rfl, _⟩ | hy
    · exact hx
    · exact h.inside hy

/-- The reference of a place becomes one the call holds. -/
theorem Counted.take {x : Nat × Nat} (h : Counted v held s) (hv : v x = some f) :
    Counted (update v x none) (f :: held) s := by
  have hcount : ∀ g, tally (places s) (update v x none) g + (f :: held).count g =
      tally (places s) v g + held.count g := by
    intro g
    have hup := tally_update (h.inside hv) v none g
    rw [hv, holds_none] at hup
    by_cases hg : g = f
    · subst hg
      rw [holds_self] at hup
      rw [List.count_cons_self]
      omega
    · rw [holds_of_ne (fun he => hg (Option.some.inj he).symm)] at hup
      rw [List.count_cons_of_ne (Ne.symm hg)]
      omega
  have hcase : ∀ {y g}, update v x none y = some g → v y = some g := by
    intro y g hy
    rw [update_apply] at hy
    split at hy
    · cases hy
    · exact hy
  refine ⟨fun {g} hg => (h.count hg).trans (hcount g).symm, h.pos, fun hy => h.live (hcase hy),
    fun hm => ?_, h.bound, fun hy => h.inside (hcase hy)⟩
  rcases List.mem_cons.mp hm with rfl | hm
  · exact h.live hv
  · exact h.held_live hm

/-! ## 2. The release operation -/

/-- The release operation of a file has run if and only if the file is gone, and then once. -/
structure Logged (s : State) : Prop where
  once : ∀ f < s.nextFile, (s.files f).val.ops.hasRelease = true →
    s.released.count f = if (s.files f).live then 0 else 1
  bound : ∀ f ∈ s.released, f < s.nextFile

theorem Logged.frame (h : Logged s) (hf : s'.files = s.files) (hn : s'.nextFile = s.nextFile)
    (hr : s'.released = s.released) : Logged s' := by
  obtain ⟨h1, h2⟩ := h
  exact ⟨by rw [hf, hn, hr]; exact h1, by rw [hn, hr]; exact h2⟩

theorem Logged.withRefs (h : Logged s) (hf : Live s f) (n : Nat) : Logged (withRefs s f n) := by
  refine ⟨fun g hg hrel => ?_, h.bound⟩
  have hfile : (Fd.withRefs s f n).files g = if g = f then _ else s.files g := files_withFile ..
  have hrel' : (s.files g).val.ops.hasRelease = true := by
    rw [hfile] at hrel
    split at hrel
    · rename_i heq
      rw [heq]
      exact hrel
    · exact hrel
  have hlive : ((Fd.withRefs s f n).files g).live = (s.files g).live := by
    rw [hfile]
    split
    · rename_i heq
      rw [heq]
      exact hf.symm
    · rfl
  rw [hlive]
  exact h.once g hg hrel'

theorem Logged.new (h : Logged s) : Logged (s.withNew x) := by
  refine ⟨fun g hg hrel => ?_, fun g hg => Nat.lt_succ_of_lt (h.bound g hg)⟩
  have hfile : (s.withNew x).files g = if g = s.nextFile then ⟨true, x⟩ else s.files g := update_apply ..
  rw [hfile] at hrel ⊢
  by_cases heq : g = s.nextFile
  · rw [if_pos heq, heq]
    exact List.count_eq_zero.mpr fun hm => Nat.lt_irrefl _ (h.bound _ hm)
  · rw [if_neg heq] at hrel ⊢
    have hg : g < s.nextFile + 1 := hg
    exact h.once g (by omega) hrel

/-- A file goes, and its release operation, if it has one, has been run. -/
theorem Logged.drop (h : Logged s) (hf : Live s f) (hlt : f < s.nextFile)
    (hx : x = (s.files f).val) (hfiles : s'.files = update s.files f ⟨false, x⟩)
    (hn : s'.nextFile = s.nextFile)
    (hr : s'.released = if x.ops.hasRelease then s.released ++ [f] else s.released) : Logged s' := by
  have hfile : ∀ g, s'.files g = if g = f then ⟨false, x⟩ else s.files g := fun g => by
    rw [hfiles, update_apply]
  refine ⟨fun g hg hrel => ?_, fun g hg => ?_⟩
  · rw [hn] at hg
    rw [hfile] at hrel ⊢
    by_cases heq : g = f
    · subst heq
      rw [if_pos rfl] at hrel ⊢
      have hone := h.once g hg (hx ▸ hrel)
      rw [show (s.files g).live = true from hf, if_pos rfl] at hone
      rw [hr, show x.ops.hasRelease = true from hrel, if_pos rfl, List.count_append, hone]
      simp
    · rw [if_neg heq] at hrel ⊢
      rw [hr]
      split
      · rw [List.count_append, List.count_singleton, if_neg (by simpa using Ne.symm heq), Nat.add_zero]
        exact h.once g hg hrel
      · exact h.once g hg hrel
  · rw [hn]
    rw [hr] at hg
    split at hg
    · rcases List.mem_append.mp hg with hg | hg
      · exact h.bound g hg
      · rw [List.mem_singleton.mp hg]
        exact hlt
    · exact h.bound g hg

/-! ## 3. Dentries and inodes -/

/-- The dentry of a live file. -/
def dentryOf (c : Cell File) : Option Nat := if c.live then some c.val.dentry else none

/-- The inode of a live dentry. -/
def inodeOf (c : Cell Dentry) : Option Nat := if c.live then c.val.inode else none

/-- The references a live dentry can lose before it is freed. -/
def dentryRefs (c : Cell Dentry) : Nat := if c.live then c.val.refcount else 0

def inodeRefs (c : Cell Inode) : Nat := if c.live then c.val.refcount else 0

/-- Every file on a dentry has a reference to it, and so has every dentry on an inode; the call in progress holds the
    references `ed` to dentries and `ei` to inodes besides. -/
structure Rooted (ed ei : List Nat) (s : State) : Prop where
  dentry : ∀ d, tally (Finset.range s.nextFile) (dentryOf ∘ s.files) d + ed.count d ≤ dentryRefs (s.dentries d)
  inode : ∃ S : Finset Nat, (∀ d, (s.dentries d).live = true → d ∈ S) ∧
    ∀ i, tally S (inodeOf ∘ s.dentries) i + ei.count i ≤ inodeRefs (s.inodes i)

theorem Rooted.frame (h : Rooted ed ei s) (hf : dentryOf ∘ s'.files = dentryOf ∘ s.files)
    (hn : s'.nextFile = s.nextFile) (hd : s'.dentries = s.dentries)
    (hi : ∀ i, inodeRefs (s'.inodes i) = inodeRefs (s.inodes i)) : Rooted ed ei s' := by
  obtain ⟨h1, S, h2, h3⟩ := h
  refine ⟨?_, S, ?_, fun i => ?_⟩
  · rw [hf, hn, hd]
    exact h1
  · rw [hd]
    exact h2
  · rw [hd, hi]
    exact h3 i

theorem Rooted.forget (h : Rooted ed (i :: ei) s) : Rooted ed ei s := by
  obtain ⟨S, hS, hle⟩ := h.inode
  refine ⟨h.dentry, S, hS, fun j => ?_⟩
  have hj := hle j
  rw [List.count_cons] at hj
  omega

/-- The dentry of a live file is live. -/
theorem Rooted.dentry_live (h : Rooted ed ei s) (hf : Live s f) (hlt : f < s.nextFile) :
    (s.dentries (s.files f).val.dentry).live = true := by
  have hof : (dentryOf ∘ s.files) f = some (s.files f).val.dentry := if_pos hf
  have hpos := tally_pos (Finset.mem_range.mpr hlt) hof
  have hle := h.dentry (s.files f).val.dentry
  by_contra hdead
  rw [dentryRefs, if_neg hdead] at hle
  omega

/-- The inode of a live dentry is live. -/
theorem Rooted.inode_live (h : Rooted ed ei s) (hd : (s.dentries d).live = true)
    (hi : (s.dentries d).val.inode = some i) : (s.inodes i).live = true := by
  obtain ⟨S, hS, hle⟩ := h.inode
  have hof : (inodeOf ∘ s.dentries) d = some i := (if_pos hd).trans hi
  have hpos := tally_pos (hS d hd) hof
  have hlei := hle i
  by_contra hdead
  rw [inodeRefs, if_neg hdead] at hlei
  omega

theorem dentryOf_withRefs (hf : Live s f) (n : Nat) : dentryOf ∘ (withRefs s f n).files = dentryOf ∘ s.files := by
  change dentryOf ∘ update s.files f _ = _
  rw [comp_update]
  refine update_eq_self_iff.mpr ?_
  change some (s.files f).val.dentry = dentryOf (s.files f)
  exact (if_pos hf).symm

theorem Rooted.withRefs (h : Rooted ed ei s) (hf : Live s f) (n : Nat) : Rooted ed ei (withRefs s f n) :=
  h.frame (dentryOf_withRefs hf n) rfl rfl fun _ => rfl

/-- A file goes and leaves its reference to the call. -/
theorem Rooted.drop (h : Rooted ed ei s) (hf : Live s f) (hlt : f < s.nextFile) :
    Rooted ((s.files f).val.dentry :: ed) ei (s.withFile f ⟨false, x⟩) := by
  have hof : (dentryOf ∘ s.files) f = some (s.files f).val.dentry := if_pos hf
  have hfiles : dentryOf ∘ (s.withFile f ⟨false, x⟩).files = update (dentryOf ∘ s.files) f none := comp_update ..
  refine ⟨fun d => ?_, h.inode⟩
  have hup := tally_update (Finset.mem_range.mpr hlt) (dentryOf ∘ s.files) none d
  have hle := h.dentry d
  rw [hof, holds_none] at hup
  rw [hfiles]
  change tally (Finset.range s.nextFile) _ d + _ ≤ dentryRefs (s.dentries d)
  by_cases hd : d = (s.files f).val.dentry
  · subst hd
    rw [holds_self] at hup
    rw [List.count_cons_self]
    omega
  · rw [holds_of_ne fun he => hd (Option.some.inj he).symm] at hup
    rw [List.count_cons_of_ne (Ne.symm hd)]
    omega

/-- A new file takes over a reference of the call. -/
theorem Rooted.new (h : Rooted (x.dentry :: ed) ei s) : Rooted ed ei (s.withNew x) := by
  have hfiles : dentryOf ∘ (s.withNew x).files = update (dentryOf ∘ s.files) s.nextFile (some x.dentry) :=
    comp_update ..
  refine ⟨fun d => ?_, h.inode⟩
  have hup := tally_fill (S := Finset.range s.nextFile) (i := s.nextFile) (f := dentryOf ∘ s.files)
    (fun hm => absurd hm Finset.notMem_range_self) (some x.dentry) d
  have hle := h.dentry d
  rw [hfiles]
  change tally (Finset.range (s.nextFile + 1)) _ d + _ ≤ dentryRefs (s.dentries d)
  rw [Finset.range_add_one, hup]
  by_cases hd : d = x.dentry
  · subst hd
    rw [List.count_cons_self] at hle
    rw [holds_self]
    omega
  · rw [List.count_cons_of_ne (Ne.symm hd)] at hle
    rw [holds_of_ne fun he => hd (Option.some.inj he).symm]
    omega

/-- An inode that was free comes with the references of its count. -/
theorem Rooted.newInode {x : Inode} (h : Rooted ed ei s) (hi : (s.inodes i).live = false) :
    Rooted ed (List.replicate x.refcount i ++ ei) (s.setInode i ⟨true, x⟩) := by
  obtain ⟨S, hS, hle⟩ := h.inode
  refine ⟨h.dentry, S, hS, fun j => ?_⟩
  have hj := hle j
  have hcell : (s.setInode i ⟨true, x⟩).inodes j = if j = i then ⟨true, x⟩ else s.inodes j := update_apply ..
  change tally S (inodeOf ∘ s.dentries) j + _ ≤ _
  rw [hcell, List.count_append]
  by_cases heq : j = i
  · subst heq
    rw [inodeRefs, hi, if_neg (by decide)] at hj
    rw [if_pos rfl, List.count_replicate_self, inodeRefs, if_pos rfl]
    dsimp only
    omega
  · rw [if_neg heq, List.count_replicate, if_neg (by simpa using Ne.symm heq)]
    omega

theorem inodes_setInode (s : State) (i : Nat) (c : Cell Inode) (j : Nat) :
    (s.setInode i c).inodes j = if j = i then c else s.inodes j := update_apply ..

theorem dentries_setDentry (s : State) (d : Nat) (c : Cell Dentry) (e : Nat) :
    (s.setDentry d c).dentries e = if e = d then c else s.dentries e := update_apply ..

/-- A dentry that was free, on an inode the call has a reference to, or on none. -/
theorem Rooted.newDentry {x : Dentry} (h : Rooted ed (x.inode.toList ++ ei) s)
    (hd : (s.dentries d).live = false) (hx : x.refcount = 1) :
    Rooted (d :: ed) ei (s.setDentry d ⟨true, x⟩) := by
  obtain ⟨S, hS, hle⟩ := h.inode
  have hinodes : inodeOf ∘ (s.setDentry d ⟨true, x⟩).dentries = update (inodeOf ∘ s.dentries) d x.inode :=
    comp_update ..
  have hnone : (inodeOf ∘ s.dentries) d = none := if_neg (by rw [hd]; decide)
  refine ⟨fun e => ?_, insert d S, fun e he => ?_, fun i => ?_⟩
  · have he := h.dentry e
    rw [dentries_setDentry]
    change tally (Finset.range s.nextFile) (dentryOf ∘ s.files) e + _ ≤ _
    by_cases heq : e = d
    · subst heq
      rw [dentryRefs, hd, if_neg (by decide)] at he
      rw [if_pos rfl, dentryRefs, if_pos rfl, hx, List.count_cons_self]
      omega
    · rw [if_neg heq, List.count_cons_of_ne (Ne.symm heq)]
      exact he
  · rw [dentries_setDentry] at he
    split at he
    · rename_i heq
      exact heq ▸ Finset.mem_insert_self ..
    · exact Finset.mem_insert_of_mem (hS e he)
  · have hi := hle i
    rw [List.count_append] at hi
    rw [hinodes, tally_fill (fun _ => hnone)]
    change _ ≤ inodeRefs (s.inodes i)
    have hcount : holds x.inode i = x.inode.toList.count i := by
      cases x.inode with
      | none => rfl
      | some j =>
        rw [Option.toList_some, List.count_singleton]
        by_cases heq : j = i
        · subst heq
          simp
        · rw [holds_of_ne fun he => heq (Option.some.inj he), if_neg (by simpa using heq)]
    omega

theorem Rooted.get (h : Rooted ed ei s) (hd : (s.dentries d).live = true) : Rooted (d :: ed) ei (s.dentryGet d) := by
  have hinodes : inodeOf ∘ (s.dentryGet d).dentries = inodeOf ∘ s.dentries := by
    change inodeOf ∘ update s.dentries d _ = _
    rw [comp_update]
    refine update_eq_self_iff.mpr ?_
    rfl
  obtain ⟨S, hS, hle⟩ := h.inode
  refine ⟨fun e => ?_, S, fun e he => ?_, fun i => ?_⟩
  · have he := h.dentry e
    rw [State.dentryGet, dentries_setDentry]
    change tally (Finset.range s.nextFile) (dentryOf ∘ s.files) e + _ ≤ _
    by_cases heq : e = d
    · subst heq
      rw [dentryRefs, if_pos hd] at he
      rw [if_pos rfl, dentryRefs, if_pos hd, List.count_cons_self]
      dsimp only
      omega
    · rw [if_neg heq, List.count_cons_of_ne (Ne.symm heq)]
      exact he
  · rw [State.dentryGet, dentries_setDentry] at he
    split at he
    · rename_i heq
      exact hS e (heq ▸ hd)
    · exact hS e he
  · rw [hinodes]
    exact hle i

/-- The inode's reference of a dentry that goes is given back. -/
theorem inodePut_refs (hle : 0 < inodeRefs (s.inodes i)) :
    inodeRefs ((s.inodePut i).inodes i) + 1 = inodeRefs (s.inodes i) := by
  have hlive : (s.inodes i).live = true := by
    by_contra hdead
    rw [inodeRefs, if_neg hdead] at hle
    omega
  have hcount : inodeRefs (s.inodes i) = (s.inodes i).val.refcount := if_pos hlive
  rw [hcount] at hle ⊢
  rw [State.inodePut]
  split
  · rename_i hone
    rw [inodes_setInode, if_pos rfl, inodeRefs, if_neg Bool.false_ne_true, hone]
  · rw [inodes_setInode, if_pos rfl, inodeRefs, if_pos hlive]
    dsimp only
    omega

theorem inodePut_other {j : Nat} (h : j ≠ i) : (s.inodePut i).inodes j = s.inodes j := by
  rw [State.inodePut]
  split <;> exact Function.update_of_ne h ..

theorem inodePut_eq (s : State) (i : Nat) : s.inodePut i = { s with inodes := (s.inodePut i).inodes } := by
  rw [State.inodePut]
  split <;> rfl

/-- A dentry is freed; its inode loses a reference. -/
theorem Rooted.free (h : Rooted (d :: ed) ei s) (hone : (s.dentries d).val.refcount = 1) :
    Rooted ed ei (s.dentryFree d) := by
  have hlive : (s.dentries d).live = true := by
    have hle := h.dentry d
    by_contra hdead
    rw [dentryRefs, if_neg hdead, List.count_cons_self] at hle
    omega
  obtain ⟨S, hS, hle⟩ := h.inode
  -- what is left of the dentry holds no inode
  have hgone : ∀ (t : State) (c : Cell Dentry), c.live = false → t.dentries = s.dentries →
      inodeOf ∘ (t.setDentry d c).dentries = update (inodeOf ∘ s.dentries) d none := by
    intro t c hc ht
    have hnone : inodeOf c = none := if_neg (by rw [hc]; decide)
    rw [State.setDentry, ht, ← hnone]
    exact comp_update ..
  have hdentry : ∀ (t : State) (c : Cell Dentry), t.files = s.files → t.nextFile = s.nextFile →
      t.dentries = s.dentries → ∀ e, tally (Finset.range t.nextFile) (dentryOf ∘ t.files) e + ed.count e ≤
        dentryRefs ((t.setDentry d c).dentries e) := by
    intro t c hf hn ht e
    have he := h.dentry e
    rw [dentries_setDentry, hf, hn, ht]
    by_cases heq : e = d
    · subst heq
      rw [dentryRefs, if_pos hlive, hone, List.count_cons_self] at he
      omega
    · rw [List.count_cons_of_ne (Ne.symm heq)] at he
      rw [if_neg heq]
      exact he
  have hmem : ∀ (t : State) (c : Cell Dentry), c.live = false → t.dentries = s.dentries → ∀ e,
      ((t.setDentry d c).dentries e).live = true → e ∈ S := by
    intro t c hc ht e he
    rw [dentries_setDentry, ht] at he
    split at he
    · rw [hc] at he
      cases he
    · exact hS e he
  have hup := fun j => tally_update (hS d hlive) (inodeOf ∘ s.dentries) none j
  have hof : (inodeOf ∘ s.dentries) d = (s.dentries d).val.inode := if_pos hlive
  rw [State.dentryFree]
  cases hi : (s.dentries d).val.inode with
  | none =>
    refine ⟨hdentry s _ rfl rfl rfl, S, hmem s _ rfl rfl, fun j => ?_⟩
    have hj := hup j
    have hlej := hle j
    rw [hof, hi, holds_none] at hj
    rw [hgone s _ rfl rfl]
    change _ ≤ inodeRefs (s.inodes j)
    omega
  | some i =>
    have heq := inodePut_eq s i
    have hd' : (s.inodePut i).dentries = s.dentries := by rw [heq]
    refine ⟨hdentry _ _ (by rw [heq]) (by rw [heq]) hd', S, hmem _ _ rfl hd', fun j => ?_⟩
    have hj := hup j
    have hlej := hle j
    rw [hof, hi, holds_none] at hj
    rw [hgone _ _ rfl hd']
    change _ ≤ inodeRefs ((s.inodePut i).inodes j)
    by_cases hji : j = i
    · subst hji
      rw [holds_self] at hj
      have hput := @inodePut_refs s j (by omega)
      omega
    · rw [holds_of_ne fun he => hji (Option.some.inj he).symm] at hj
      rw [inodePut_other hji]
      omega

/-- A reference to a dentry is dropped. -/
theorem Rooted.put (h : Rooted (d :: ed) ei s) : Rooted ed ei (s.dentryPut d) := by
  rw [State.dentryPut]
  split
  · exact h.free ‹_›
  · rename_i hone
    obtain ⟨S, hS, hle⟩ := h.inode
    have hinodes : inodeOf ∘ (s.setDentry d ⟨(s.dentries d).live,
        { (s.dentries d).val with refcount := (s.dentries d).val.refcount - 1 }⟩).dentries =
          inodeOf ∘ s.dentries := by
      change inodeOf ∘ update s.dentries d _ = _
      rw [comp_update]
      exact update_eq_self_iff.mpr rfl
    refine ⟨fun e => ?_, S, fun e he => ?_, fun i => ?_⟩
    · have he := h.dentry e
      rw [dentries_setDentry]
      change tally (Finset.range s.nextFile) (dentryOf ∘ s.files) e + _ ≤ _
      by_cases heq : e = d
      · subst heq
        rw [List.count_cons_self, dentryRefs] at he
        rw [if_pos rfl, dentryRefs]
        dsimp only
        split at he
        · rename_i hl
          rw [if_pos hl]
          omega
        · omega
      · rw [List.count_cons_of_ne (Ne.symm heq)] at he
        rw [if_neg heq]
        exact he
    · rw [dentries_setDentry] at he
      split at he
      · rename_i heq
        exact hS e (heq ▸ he)
      · exact hS e he
    · rw [hinodes]
      exact hle i

/-- What the dropping of a reference to a dentry leaves alone. -/
theorem dentryPut_keeps (s : State) (d : Nat) : ∃ D I, s.dentryPut d = { s with dentries := D, inodes := I } ∧
      (∀ e, (D e).val.inode = (s.dentries e).val.inode) ∧ ∀ j, (I j).val.priv = (s.inodes j).val.priv := by
  have hcell : ∀ (c : Cell Dentry), c.val.inode = (s.dentries d).val.inode → ∀ e,
      (update s.dentries d c e).val.inode = (s.dentries e).val.inode := by
    intro c hc e
    rw [update_apply]
    split
    · rename_i heq
      rw [heq]
      exact hc
    · rfl
  have hput : ∀ i j, ((s.inodePut i).inodes j).val.priv = (s.inodes j).val.priv := by
    intro i j
    by_cases hji : j = i
    · subst hji
      rw [State.inodePut]
      split <;> rw [inodes_setInode, if_pos rfl]
    · rw [inodePut_other hji]
  rw [State.dentryPut]
  split
  · rw [State.dentryFree]
    cases hi : (s.dentries d).val.inode with
    | none => exact ⟨_, _, rfl, hcell _ hi.symm, fun _ => rfl⟩
    | some i =>
      dsimp only
      rw [inodePut_eq s i]
      exact ⟨_, _, rfl, hcell _ hi.symm, hput i⟩
  · exact ⟨_, _, rfl, hcell _ rfl, fun _ => rfl⟩

/-! ## 4. Pipes and their ends -/

def IsEnd (o : FileOps) : Prop := o = .pipeRead ∨ o = .pipeWrite

/-- The pipe of a live end of the kind `o`. -/
def endOf (o : FileOps) (c : Cell File) : Option Nat :=
  if c.live = true ∧ c.val.ops = o then some c.val.pipe else none

/-- How many open ends of a kind a pipe counts. -/
def FileOps.ends : FileOps → Pipe → Int
  | .pipeRead, p => p.readers
  | .pipeWrite, p => p.writers
  | _, _ => 0

/-- An open end is reached by way of its dentry and inode; a pipe counts its open ends. -/
structure Piped (s : State) : Prop where
  ends : ∀ {f}, Live s f → IsEnd (s.files f).val.ops → ∃ i,
    (s.dentries (s.files f).val.dentry).val.inode = some i ∧ (s.inodes i).val.priv = some (s.files f).val.pipe
  known : ∀ {f}, Live s f → IsEnd (s.files f).val.ops → (s.files f).val.pipe < s.nextPipe
  count : ∀ {o}, IsEnd o → ∀ q < s.nextPipe,
    o.ends (s.pipes q) = tally (Finset.range s.nextFile) (endOf o ∘ s.files) q

/-- Two files that differ in their counts only. -/
def SameFile (c c' : Cell File) : Prop :=
  c'.live = c.live ∧ c'.val.dentry = c.val.dentry ∧ c'.val.ops = c.val.ops ∧ c'.val.pipe = c.val.pipe

theorem endOf_same {c' : Cell File} (h : SameFile c c') (o : FileOps) : endOf o c' = endOf o c := by
  rw [endOf, endOf, h.1, h.2.2.1, h.2.2.2]

theorem Piped.frame (h : Piped s) (hf : ∀ f, SameFile (s.files f) (s'.files f))
    (hn : s'.nextFile = s.nextFile) (hnp : s'.nextPipe = s.nextPipe)
    (hends : ∀ {f i}, Live s f → (s.dentries (s.files f).val.dentry).val.inode = some i →
      (s'.dentries (s.files f).val.dentry).val.inode = some i ∧ (s'.inodes i).val.priv = (s.inodes i).val.priv)
    (hp : ∀ o q, FileOps.ends o (s'.pipes q) = o.ends (s.pipes q)) : Piped s' := by
  have hlive : ∀ f, Live s' f ↔ Live s f := fun f => by rw [Live, Live, (hf f).1]
  have hcount : ∀ o, endOf o ∘ s'.files = endOf o ∘ s.files := fun o => funext fun f => endOf_same (hf f) o
  refine ⟨fun {f} hl hend => ?_, fun {f} hl hend => ?_, fun {o} ho q hq => ?_⟩
  · obtain ⟨_, hd, ho, hpipe⟩ := hf f
    rw [ho] at hend
    obtain ⟨i, hi, hpriv⟩ := h.ends ((hlive f).mp hl) hend
    obtain ⟨hi', hpriv'⟩ := hends ((hlive f).mp hl) hi
    refine ⟨i, ?_, ?_⟩
    · rw [hd]
      exact hi'
    · rw [hpipe]
      exact hpriv'.trans hpriv
  · obtain ⟨_, _, ho, hpipe⟩ := hf f
    rw [ho] at hend
    rw [hpipe, hnp]
    exact h.known ((hlive f).mp hl) hend
  · rw [hnp] at hq
    rw [hn, hcount, hp]
    exact h.count ho q hq

theorem sameFile_withRefs (hf : Live s f) (n : Nat) (g : Nat) : SameFile (s.files g) ((withRefs s f n).files g) := by
  rw [withRefs, files_withFile]
  split
  · rename_i heq
    rw [heq]
    exact ⟨hf.symm, rfl, rfl, rfl⟩
  · exact ⟨rfl, rfl, rfl, rfl⟩

theorem Piped.withRefs (h : Piped s) (hf : Live s f) (n : Nat) : Piped (withRefs s f n) :=
  h.frame (sameFile_withRefs hf n) rfl rfl (fun _ hi => ⟨hi, rfl⟩) fun _ _ => rfl

theorem Piped.dentryPut (h : Piped s) (d : Nat) : Piped (s.dentryPut d) := by
  obtain ⟨D, I, heq, hD, hI⟩ := dentryPut_keeps s d
  rw [heq]
  exact h.frame (fun _ => ⟨rfl, rfl, rfl, rfl⟩) rfl rfl (fun _ hi => ⟨(hD _).trans hi, hI _⟩)
    fun _ _ => rfl

/-- Dentries and inodes that were free are given out. -/
theorem Piped.fresh (h : Piped s) (hr : Rooted ed ei s) (hb : ∀ {f}, Live s f → f < s.nextFile)
    (hf : s'.files = s.files) (hn : s'.nextFile = s.nextFile) (hnp : s'.nextPipe = s.nextPipe)
    (hp : s'.pipes = s.pipes)
    (hd : ∀ d, (s.dentries d).live = true → (s'.dentries d).val.inode = (s.dentries d).val.inode)
    (hi : ∀ i, (s.inodes i).live = true → (s'.inodes i).val.priv = (s.inodes i).val.priv) : Piped s' := by
  refine h.frame (fun f => by rw [hf]; exact ⟨rfl, rfl, rfl, rfl⟩) hn hnp (fun {f i} hl hino => ?_) fun _ _ => by
    rw [hp]
  have hdl := hr.dentry_live hl (hb hl)
  exact ⟨(hd _ hdl).trans hino, hi i (hr.inode_live hdl hino)⟩

theorem files_withNew (s : State) (x : File) (g : Nat) :
    (s.withNew x).files g = if g = s.nextFile then ⟨true, x⟩ else s.files g := update_apply ..

/-- The ends counted after a new file. -/
theorem tally_withNew (s : State) (x : File) (o : FileOps) (q : Nat) :
    tally (Finset.range (s.withNew x).nextFile) (endOf o ∘ (s.withNew x).files) q =
      tally (Finset.range s.nextFile) (endOf o ∘ s.files) q + holds (endOf o ⟨true, x⟩) q := by
  have hfiles : endOf o ∘ (s.withNew x).files = update (endOf o ∘ s.files) s.nextFile (endOf o ⟨true, x⟩) :=
    comp_update ..
  rw [hfiles]
  change tally (Finset.range (s.nextFile + 1)) _ q = _
  rw [Finset.range_add_one]
  exact tally_fill (fun hm => absurd hm Finset.notMem_range_self) _ q

theorem Piped.new (h : Piped s) (hx : ¬ IsEnd x.ops) : Piped (s.withNew x) := by
  have hcase : ∀ {f}, Live (s.withNew x) f → IsEnd ((s.withNew x).files f).val.ops →
      (s.withNew x).files f = s.files f ∧ Live s f := by
    intro f hl hend
    rw [files_withNew] at hend
    rw [Live, files_withNew] at hl
    split at hl
    · rename_i heq
      rw [if_pos heq] at hend
      exact absurd hend hx
    · rename_i hne
      exact ⟨by rw [files_withNew, if_neg hne], hl⟩
  have hnone : ∀ o, IsEnd o → endOf o ⟨true, x⟩ = none := by
    intro o ho
    refine if_neg fun hc => hx ?_
    rw [hc.2]
    exact ho
  refine ⟨fun {f} hl hend => ?_, fun {f} hl hend => ?_, fun {o} ho q hq => ?_⟩
  · obtain ⟨heq, hl'⟩ := hcase hl hend
    rw [heq] at hend ⊢
    exact h.ends hl' hend
  · obtain ⟨heq, hl'⟩ := hcase hl hend
    rw [heq] at hend ⊢
    exact h.known hl' hend
  · rw [tally_withNew, hnone o ho, holds_none, Nat.add_zero]
    exact h.count ho q hq

/-- No live file is an end of a pipe that is not made yet. -/
theorem Piped.tally_next (h : Piped s) (ho : IsEnd o) (hq : s.nextPipe ≤ q) :
    tally (Finset.range s.nextFile) (endOf o ∘ s.files) q = 0 := by
  refine tally_zero fun f _ hf => ?_
  have hf : endOf o (s.files f) = some q := hf
  rw [endOf] at hf
  split at hf
  · rename_i hc
    have hlt := h.known hc.1 (by rw [hc.2]; exact ho)
    cases hf
    omega
  · cases hf

/-- A pipe is made, and a file for each of its ends. -/
theorem Piped.newPipe {buf : Nat → UInt8} (h : Piped s) (hr : Rooted ed ei s)
    (hb : ∀ {f}, Live s f → f < s.nextFile) {rde wde : Nat}
    (hfiles : s'.files = ((s.withNew ⟨rde, .pipeRead, 1, s.nextPipe⟩).withNew ⟨wde, .pipeWrite, 1, s.nextPipe⟩).files)
    (hn : s'.nextFile = s.nextFile + 2) (hnp : s'.nextPipe = s.nextPipe + 1)
    (hp : s'.pipes = update s.pipes s.nextPipe (Pipe.new buf))
    (hrde : (s'.dentries rde).val.inode = some i) (hwde : (s'.dentries wde).val.inode = some i)
    (hpriv : (s'.inodes i).val.priv = some s.nextPipe)
    (hd : ∀ d, (s.dentries d).live = true → (s'.dentries d).val.inode = (s.dentries d).val.inode)
    (hi : ∀ j, (s.inodes j).live = true → (s'.inodes j).val.priv = (s.inodes j).val.priv) : Piped s' := by
  generalize hr' : (⟨rde, .pipeRead, 1, s.nextPipe⟩ : File) = xr at hfiles
  generalize hw' : (⟨wde, .pipeWrite, 1, s.nextPipe⟩ : File) = xw at hfiles
  have hcase : ∀ f, s'.files f = ⟨true, xr⟩ ∨ s'.files f = ⟨true, xw⟩ ∨ s'.files f = s.files f := by
    intro f
    rw [hfiles, files_withNew, files_withNew]
    split
    · exact .inr (.inl rfl)
    · split
      · exact .inl rfl
      · exact .inr (.inr rfl)
  have hcount : ∀ o q, tally (Finset.range s'.nextFile) (endOf o ∘ s'.files) q =
      tally (Finset.range s.nextFile) (endOf o ∘ s.files) q + holds (endOf o ⟨true, xr⟩) q +
        holds (endOf o ⟨true, xw⟩) q := by
    intro o q
    have h2 := tally_withNew (s.withNew xr) xw o q
    rw [tally_withNew s xr o q] at h2
    rw [hfiles, hn]
    exact h2
  -- each kind of end has one of the two files
  have hends : ∀ {o}, IsEnd o → ∀ q, holds (endOf o ⟨true, xr⟩) q + holds (endOf o ⟨true, xw⟩) q =
      holds (some s.nextPipe) q := by
    intro o ho q
    subst hr' hw'
    rcases ho with rfl | rfl <;> simp [endOf]
  have hpipe : ∀ q, s'.pipes q = if q = s.nextPipe then Pipe.new buf else s.pipes q := fun q => by
    rw [hp, update_apply]
  refine ⟨fun {f} hl hend => ?_, fun {f} hl hend => ?_, fun {o} ho q hq => ?_⟩
  · rcases hcase f with hc | hc | hc
    · rw [hc, ← hr']
      exact ⟨i, hrde, hpriv⟩
    · rw [hc, ← hw']
      exact ⟨i, hwde, hpriv⟩
    · rw [Live, hc] at hl
      rw [hc] at hend ⊢
      obtain ⟨j, hj, hjp⟩ := h.ends hl hend
      have hdl := hr.dentry_live hl (hb hl)
      exact ⟨j, (hd _ hdl).trans hj, (hi j (hr.inode_live hdl hj)).trans hjp⟩
  · rw [hnp]
    rcases hcase f with hc | hc | hc
    · rw [hc, ← hr']
      exact Nat.lt_succ_self _
    · rw [hc, ← hw']
      exact Nat.lt_succ_self _
    · rw [Live, hc] at hl
      rw [hc] at hend ⊢
      exact Nat.lt_succ_of_lt (h.known hl hend)
  · rw [hcount, Nat.add_assoc, hends ho, hpipe]
    by_cases heq : q = s.nextPipe
    · subst heq
      rw [if_pos rfl, h.tally_next ho le_rfl, holds_self]
      rcases ho with rfl | rfl <;> rfl
    · rw [if_neg heq, holds_of_ne fun he => heq (Option.some.inj he).symm, Nat.add_zero]
      exact h.count ho q (by omega)

/-- What the release operation of a file does to its pipe. -/
def FileOps.close : FileOps → Pipe → Pipe
  | .pipeRead => Pipe.readRelease
  | .pipeWrite => Pipe.writeRelease
  | _ => id

theorem ends_close {o' : FileOps} (ho : IsEnd o) (ho' : IsEnd o') (p : Pipe) :
    o.ends (o'.close p) = o.ends p - (if o' = o then 1 else 0 : Nat) := by
  rcases ho with rfl | rfl <;> rcases ho' with rfl | rfl <;>
    simp [FileOps.ends, FileOps.close, Pipe.readRelease, Pipe.writeRelease]

/-- An end is closed: its pipe counts one less, and a pipe without ends is freed. -/
theorem Piped.closeEnd (h : Piped s) (hf : Live s f) (hb : ∀ {f}, Live s f → f < s.nextFile)
    (hx : x = (s.files f).val) (hend : IsEnd x.ops) (hi : (s.dentries x.dentry).val.inode = some i)
    (hq : (s.inodes i).val.priv = some q) (hfiles : s'.files = update s.files f ⟨false, x⟩)
    (hn : s'.nextFile = s.nextFile) (hnp : s'.nextPipe = s.nextPipe) (hd : s'.dentries = s.dentries)
    (hp : s'.pipes = update s.pipes q (x.ops.close (s.pipes q))) (hpriv : ∀ j, (s'.inodes j).val.priv =
      if j = i ∧ (x.ops.close (s.pipes q)).closed = true then none else (s.inodes j).val.priv) :
    Piped s' := by
  subst hx
  obtain ⟨i', hi', hq'⟩ := h.ends hf hend
  cases hi.symm.trans hi'
  have hqp : q = (s.files f).val.pipe := Option.some.inj (hq.symm.trans hq')
  have hqlt : q < s.nextPipe := hqp ▸ h.known hf hend
  have hfile : ∀ g, s'.files g = if g = f then ⟨false, (s.files f).val⟩ else s.files g := fun g => by
    rw [hfiles, update_apply]
  have hlive : ∀ {g}, Live s' g → g ≠ f ∧ s'.files g = s.files g ∧ Live s g := by
    intro g hg
    have hc := hfile g
    rw [Live, hc] at hg
    split at hg
    · cases hg
    · rename_i hne
      rw [if_neg hne] at hc
      exact ⟨hne, hc, hg⟩
  -- each kind of end, counted without the file
  have hcount : ∀ o r, tally (Finset.range s'.nextFile) (endOf o ∘ s'.files) r + holds (endOf o (s.files f)) r =
      tally (Finset.range s.nextFile) (endOf o ∘ s.files) r := by
    intro o r
    have hup := tally_update (Finset.mem_range.mpr (hb hf)) (endOf o ∘ s.files) none r
    rw [holds_none, Nat.add_zero] at hup
    have hnone : endOf o ⟨false, (s.files f).val⟩ = none := if_neg (by simp)
    have hcomp : endOf o ∘ s'.files = update (endOf o ∘ s.files) f none := by
      rw [hfiles, ← hnone]
      exact comp_update ..
    rw [hcomp, hn]
    exact hup
  have hself : ∀ o r, holds (endOf o (s.files f)) r =
      if r = q then (if (s.files f).val.ops = o then 1 else 0) else 0 := by
    intro o r
    rw [endOf, ← hqp]
    by_cases ho : (s.files f).val.ops = o
    · rw [if_pos ⟨hf, ho⟩, if_pos ho, holds]
      by_cases hr : r = q
      · rw [hr, if_pos rfl, if_pos rfl]
      · rw [if_neg hr, if_neg fun he => hr (Option.some.inj he).symm]
    · rw [if_neg fun hc => ho hc.2, if_neg ho, ite_self]
      rfl
  have hpipe : ∀ r, s'.pipes r = if r = q then (s.files f).val.ops.close (s.pipes q) else s.pipes r :=
    fun r => by rw [hp, update_apply]
  have hopen : ∀ {o}, IsEnd o → ∀ r < s'.nextPipe,
      o.ends (s'.pipes r) = tally (Finset.range s'.nextFile) (endOf o ∘ s'.files) r := by
    intro o ho r hr
    have hc := hcount o r
    have hold := h.count ho r (hnp ▸ hr)
    rw [hself] at hc
    rw [hpipe]
    by_cases heq : r = q
    · subst heq
      rw [if_pos rfl] at hc ⊢
      rw [ends_close ho hend]
      omega
    · rw [if_neg heq] at hc ⊢
      omega
  refine ⟨fun {g} hg hge => ?_, fun {g} hg hge => ?_, hopen⟩
  · obtain ⟨hne, hc, hgl⟩ := hlive hg
    rw [hc] at hge ⊢
    obtain ⟨j, hj, hjp⟩ := h.ends hgl hge
    refine ⟨j, by rw [hd]; exact hj, ?_⟩
    rw [hpriv, if_neg]
    · exact hjp
    · -- a pipe without ends has no live end left
      rintro ⟨rfl, hclosed⟩
      have hqg : (s.files g).val.pipe = q := Option.some.inj (hjp.symm.trans hq)
      rw [Pipe.closed, decide_eq_true_eq] at hclosed
      have hzero : (s.files g).val.ops.ends (s'.pipes q) = 0 := by
        rw [hpipe, if_pos rfl]
        rcases hge with ho | ho <;> rw [ho]
        · exact hclosed.1
        · exact hclosed.2
      rw [hopen hge q (hnp ▸ hqlt)] at hzero
      have hglt : g ∈ Finset.range s'.nextFile := by
        rw [hn]
        exact Finset.mem_range.mpr (hb hgl)
      have hof : (endOf (s.files g).val.ops ∘ s'.files) g = some q := by
        rw [Function.comp_apply, hc, endOf, if_pos ⟨hgl, rfl⟩, hqg]
      have hpos := tally_pos hglt hof
      omega
  · obtain ⟨hne, hc, hgl⟩ := hlive hg
    rw [hc] at hge ⊢
    rw [hnp]
    exact h.known hgl hge

end OreUnix.Fd
