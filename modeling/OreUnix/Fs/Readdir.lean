/-
  Subject: LISTING A DIRECTORY IN BATCHES: `ramfs_readdir` of fs/ramfs.c, called again and again on one open file.

  The loop goes over the children from the first one in every call; `f_pos` counts those that were delivered and is
  raised within the loop that compares the index with it. The entries of the caller's buffer keep what the call does
  not write: the last byte of `d_name`, and `d_type` of a child without an inode.

  * `wp_readdirLoop` -- one pass over the children, from any index and position;
  * `listing_exact` -- the batches one after the other are the children in list order.

  The list is shorter than the address space, so `idx` and `f_pos` count without wrapping.
-/
import Mathlib.Data.List.Forall2
import OreUnix.Fs.LookupSpec

namespace OreUnix.Vfs

open Function (update update_self)
open Wp

variable {s : Fs} {f : Nat} {x : File} {cs : List Nat} {E : Crash → Prop}
variable {es : List (Str × Nat)} {name : Str} {pos : Nat}

/-! ## 1. The call -/

/-- `struct dirent`; `name` has NAME_MAX + 1 bytes. -/
structure Dirent where
  ino : Nat
  off : Int
  type : Nat
  name : List UInt8

/-- DT_DIR and the others, from the mode. -/
def direntType (mode : Nat) : Nat :=
  if isDir mode then 4
  else if isLnk mode then 10
  -- S_ISCHR, S_ISBLK and S_ISFIFO
  else if mode &&& S_IFMT = 0x2000 then 2
  else if mode &&& S_IFMT = 0x6000 then 6
  else if mode &&& S_IFMT = 0x1000 then 1
  else 8

/-- `strncpy(d_name, name, NAME_MAX)`. -/
def fillName (old : List UInt8) (name : Str) : List UInt8 :=
  name.take nameMax ++ List.replicate (nameMax - name.length) 0 ++ old.drop nameMax

/-- What is written over the entry `old` for a child. -/
def fillDirent (old : Dirent) (child : Dentry) (pos : Int) : M Dirent := do
  let name := fillName old.name child.name
  match child.inode with
  | none => pure ⟨0, pos, old.type, name⟩
  | some i =>
    let y ← getInode i
    pure ⟨y.ino, pos, direntType y.mode, name⟩

/-- The loop of `ramfs_readdir`: the entries filled in, from the child with the number `idx` on. -/
def readdirLoop (f count : Nat) (old : Nat → Dirent) : List Nat → Nat → Nat → M (List Dirent)
  | [], _, _ => pure []
  | c :: cs, idx, filled => do
    let x ← getFile f
    if idx < x.pos then readdirLoop f count old cs (idx + 1) filled
    else if filled ≥ count then pure []
    else
      let child ← getDentry c
      let e ← fillDirent (old filled) child x.pos
      setFile f (some { x with pos := x.pos + 1 })
      let es ← readdirLoop f count old cs (idx + 1) (filled + 1)
      pure (e :: es)

/-- `ramfs_readdir` for `count` entries, into a buffer with the entries `old`. -/
def ramfsReaddir (f count : Nat) (old : Nat → Dirent) : M (List Dirent) := do
  let x ← getFile f
  let d ← deref x.dentry
  let dir ← getDentry d
  readdirLoop f count old dir.children 0 0

/-- Calls one after the other, with their batch sizes and buffers. -/
def readdirs (f : Nat) : List (Nat × (Nat → Dirent)) → M (List (List Dirent))
  | [] => pure []
  | b :: bs => do
    let es ← ramfsReaddir f b.1 b.2
    let rest ← readdirs f bs
    pure (es :: rest)

/-! ## 2. One call -/

/-- The name an entry holds. -/
def Dirent.text (e : Dirent) : Str := e.name.takeWhile (· != 0)

/-- A child that can be listed: it has an inode and a name that leaves room for its NUL. -/
structure Listed (s : Fs) (c : Nat) (name : Str) (ino : Nat) : Prop where
  short : name.length ≤ 254
  nonzero : 0 ∉ name
  found : ∃ child i y, s.dentries c = some child ∧ child.name = name ∧ child.inode = some i ∧ s.inodes i = some y ∧
    y.ino = ino

/-- The children of a directory, with the names and the inode numbers `es`. -/
abbrev Listing (s : Fs) (cs : List Nat) (es : List (Str × Nat)) : Prop :=
  List.Forall₂ (fun c e => Listed s c e.1 e.2) cs es

/-- The state with the file's position advanced. -/
def Fs.seek (s : Fs) (f : Nat) (x : File) (pos : Int) : Fs :=
  { s with files := update s.files f (some { x with pos := pos }) }

theorem fillName_text (old : List UInt8) (hlen : name.length ≤ 254) (hz : 0 ∉ name) :
    (fillName old name).takeWhile (· != 0) = name := by
  obtain ⟨k, hk⟩ : ∃ k, nameMax - name.length = k + 1 := ⟨254 - name.length, by unfold nameMax; omega⟩
  have hname : ∀ b ∈ name, (b != 0) = true := fun b hb => by
    simp only [bne_iff_ne]
    exact fun h => hz (h ▸ hb)
  rw [fillName, hk, List.take_of_length_le (by unfold nameMax; omega), List.append_assoc,
    List.takeWhile_append_of_pos hname]
  simp [List.replicate_succ]

theorem wp_fillDirent {c ino : Nat} {child : Dentry} (h : Listed s c name ino) (hc : s.dentries c = some child)
    (old : Dirent) (pos : Int) :
    wp E (fillDirent old child pos) (fun e s' => s' = s ∧ (e.text, e.ino) = (name, ino)) s := by
  obtain ⟨_, i, y, hc', rfl, hi, hy, rfl⟩ := h.found
  cases hc.symm.trans hc'
  rw [fillDirent]
  simp only [hi]
  rw [wp_bind, wp_getInode hy]
  exact ⟨rfl, by rw [Dirent.text, fillName_text _ h.short h.nonzero]⟩

theorem seek_self (hf : s.files f = some x) : s.seek f x x.pos = s := by
  rw [Fs.seek, ← hf, Function.update_eq_self]

theorem seek_seek (s : Fs) (f : Nat) (x : File) (p q : Int) :
    (s.seek f x p).seek f { x with pos := p } q = s.seek f x q := by
  simp only [Fs.seek, Function.update_idem]

theorem Listing.seek (h : Listing s cs es) (f : Nat) (x : File) (pos : Int) : Listing (s.seek f x pos) cs es :=
  h.imp fun _ _ hc => ⟨hc.short, hc.nonzero, hc.found⟩

/-- **One pass**: the children before the position are skipped, the others filled in up to the batch size. -/
theorem wp_readdirLoop (hcs : Listing s cs es) (hf : s.files f = some x) (count : Nat) (old : Nat → Dirent)
    {idx filled : Nat} (hpos : x.pos = pos) (hidx : idx ≤ pos) :
    wp E (readdirLoop f count old cs idx filled) (fun out s' =>
      out.map (fun e => (e.text, e.ino)) = (es.drop (pos - idx)).take (count - filled) ∧
        s' = s.seek f x (x.pos + out.length)) s := by
  have hstay : s = s.seek f x (x.pos + ([] : List Dirent).length) := by
    rw [List.length_nil, Int.natCast_zero, Int.add_zero, seek_self hf]
  induction cs generalizing s x es idx filled pos with
  | nil =>
    cases hcs
    exact ⟨by simp, hstay⟩
  | cons c cs ih =>
    obtain ⟨e, es, hc, htail, rfl⟩ := List.forall₂_cons_left_iff.mp hcs
    rw [readdirLoop, wp_bind, wp_getFile hf]
    by_cases hskip : (idx : Int) < x.pos
    · have hdrop : pos - idx = pos - (idx + 1) + 1 := by omega
      rw [if_pos hskip, hdrop, List.drop_succ_cons]
      exact ih htail hf hpos (by omega) hstay
    · have hhere : pos - idx = 0 := by omega
      rw [if_neg hskip, hhere, List.drop_zero]
      by_cases hfull : filled ≥ count
      · rw [if_pos hfull, Nat.sub_eq_zero_of_le hfull]
        exact ⟨rfl, hstay⟩
      · obtain ⟨child, _, _, hchild, _⟩ := hc.found
        rw [if_neg hfull, wp_bind, wp_getDentry hchild, wp_bind]
        refine wp_imp (wp_fillDirent hc hchild _ _) fun e' s' he => ?_
        obtain ⟨rfl, hentry⟩ := he
        rw [wp_bind, wp_setFile, wp_bind]
        -- the tree is as before, and the position is that of the next child
        have hnext : (s'.seek f x (x.pos + 1)).files f = some { x with pos := x.pos + 1 } := update_self ..
        have hadvance : ({ x with pos := x.pos + 1 } : File).pos = ((pos + 1 : Nat) : Int) := by simp [hpos]
        refine wp_imp (ih (Listing.seek htail _ _ _) hnext hadvance (by omega) ?_) fun out t ht => ?_
        · rw [List.length_nil, Int.natCast_zero, Int.add_zero, seek_seek]
        · obtain ⟨hout, rfl⟩ := ht
          have hroom : count - filled = count - (filled + 1) + 1 := by omega
          have hfirst : pos + 1 - (idx + 1) = 0 := by omega
          rw [hfirst, List.drop_zero] at hout
          refine ⟨?_, ?_⟩
          · rw [hroom, List.take_succ_cons, List.map_cons, hout, hentry]
          · rw [seek_seek, List.length_cons]
            congr 1
            omega

/-! ## 3. Batches -/

/-- A directory that is open, with the entries `es`, of which `pos` were delivered. -/
structure OpenDir (s : Fs) (f : Nat) (es : List (Str × Nat)) (pos : Nat) : Prop where
  file : ∃ x d dir, s.files f = some x ∧ x.pos = pos ∧ x.dentry = some d ∧ s.dentries d = some dir ∧
    Listing s dir.children es

theorem OpenDir.readdir (h : OpenDir s f es pos) (count : Nat) (old : Nat → Dirent) :
    wp E (ramfsReaddir f count old) (fun out t => out.map (fun e => (e.text, e.ino)) = (es.drop pos).take count ∧
      OpenDir t f es (pos + out.length)) s := by
  obtain ⟨x, d, dir, hf, hpos, hd, hdir, hcs⟩ := h.file
  rw [ramfsReaddir, wp_bind, wp_getFile hf, wp_bind, wp_deref_some hd, wp_bind, wp_getDentry hdir]
  refine wp_imp (wp_readdirLoop hcs hf count old hpos (Nat.zero_le pos)) fun out t ht => ?_
  obtain ⟨hout, rfl⟩ := ht
  refine ⟨hout, ⟨{ x with pos := x.pos + out.length }, d, dir, update_self .., ?_, hd, hdir, hcs.seek _ _ _⟩⟩
  simp [hpos]

/-- How many entries each of the calls returns when `n` are left. -/
def served : Nat → List Nat → List Nat
  | _, [] => []
  | n, b :: bs => min b n :: served (n - min b n) bs

theorem OpenDir.readdirs (h : OpenDir s f es pos) (bs : List (Nat × (Nat → Dirent))) :
    wp E (readdirs f bs) (fun outs _ => outs.map List.length = served (es.length - pos) (bs.map Prod.fst) ∧
      outs.flatten.map (fun e => (e.text, e.ino)) = (es.drop pos).take outs.flatten.length) s := by
  induction bs generalizing s pos with
  | nil => exact ⟨rfl, rfl⟩
  | cons b bs ih =>
    rw [Vfs.readdirs, wp_bind]
    refine wp_imp (h.readdir b.1 b.2) fun out t ht => ?_
    obtain ⟨hout, hopen⟩ := ht
    have hlen : out.length = min b.1 (es.length - pos) := by
      have := congrArg List.length hout
      simpa using this
    rw [wp_bind]
    refine wp_imp (ih hopen) fun outs u hu => ?_
    obtain ⟨hcounts, hentries⟩ := hu
    refine ⟨?_, ?_⟩
    · rw [List.map_cons, List.map_cons, served, ← hlen, hcounts, Nat.sub_sub]
    · rw [List.flatten_cons, List.map_append, hentries, hout, List.length_append, List.take_add, List.drop_drop]
      congr 1
      rw [hlen, List.take_eq_take_min, List.length_drop, Nat.min_comm]

/-- **Listing in batches is exact.** Each call returns as many entries as are asked for and left, and together they
    are the first of the children, in list order; a call returns none just when none are asked for or left. -/
theorem listing_exact {es : List (Str × Nat)} (h : OpenDir s f es 0) (bs : List (Nat × (Nat → Dirent))) :
    ∃ outs t, readdirs f bs s = .ok (outs, t) ∧ outs.map List.length = served es.length (bs.map Prod.fst) ∧
      outs.flatten.map (fun e => (e.text, e.ino)) = es.take outs.flatten.length := by
  have hwp := h.readdirs (E := fun _ => False) bs
  rcases (wp_iff _).mp hwp with ⟨outs, t, hrun, hcounts, hentries⟩ | ⟨_, _, hno⟩
  · exact ⟨outs, t, hrun, hcounts, hentries⟩
  · exact hno.elim

/-- A directory with the children "a" and "b", both for the inode 7. -/
def twoNames : Fs where
  inodes i := if i = 0 then some ⟨7, S_IFREG, 0, 0, 1, 0, 0, 0, 0, 0, some .ramfs, some .ramfsFile, none, 1⟩ else none
  dentries d :=
    if d = 0 then some ⟨[slash], none, none, [1, 2], false, 1, false, none⟩
    else if d = 1 then some ⟨[97], some 0, some 0, [], true, 1, false, none⟩
    else if d = 2 then some ⟨[98], some 0, some 0, [], true, 1, false, none⟩
    else none
  files f := if f = 0 then some ⟨some 0, some .ramfsDir, 0, 0, 1⟩ else none
  nextInode := 1
  nextDentry := 3
  nextFile := 1
  nextIno := 8
  root := 0
  cwd := some 0
  uid := 0
  gid := 0
  jiffies := 0
  oracle := []

theorem twoNames_open : OpenDir twoNames 0 [([97], 7), ([98], 7)] 0 := by
  refine ⟨_, 0, _, rfl, rfl, rfl, rfl, ?_⟩
  refine .cons ⟨by decide, by decide, _, 0, _, rfl, rfl, rfl, rfl, rfl⟩ (.cons ?_ .nil)
  exact ⟨by decide, by decide, _, 0, _, rfl, rfl, rfl, rfl, rfl⟩

theorem listing_exact_two : OpenDir twoNames 0 [([97], 7), ([98], 7)] 0 ∧ ∃ outs t,
    readdirs 0 [(1, fun _ => ⟨0, 0, 0, []⟩), (5, fun _ => ⟨0, 0, 0, []⟩)] twoNames = .ok (outs, t) ∧
      outs.map List.length = [1, 1] ∧ outs.flatten.map (fun e => (e.text, e.ino)) = [([97], 7), ([98], 7)] := by
  obtain ⟨outs, t, hrun, hlen, hentries⟩ :=
    listing_exact twoNames_open [(1, fun _ => ⟨0, 0, 0, []⟩), (5, fun _ => ⟨0, 0, 0, []⟩)]
  have htwo : outs.flatten.length = 2 := by
    rw [List.length_flatten, hlen]
    decide
  rw [htwo] at hentries
  exact ⟨twoNames_open, outs, t, hrun, hlen, hentries⟩

end OreUnix.Vfs
