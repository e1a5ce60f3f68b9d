/-
  Subject: WHAT EACH CALL DOES TO A TREE IN ORDER: read, write, lseek, open, stat, lookup, close.

  One specification for each call (`wp_vfsRead` ... `wp_vfsClose`): from a state with `Inv` it returns or runs out of
  fuel, `Inv` holds again, and names are only added (`Kept`). A write leaves its bytes in the file (`Written`), an
  open that fails leaves the tree as it was (`Opened`).

  An open with O_CREAT takes no reference for the file it returns: it passes on the one a new dentry is born with, or
  the bare pointer of `dentry_lookup_child`. So `wp_openCreat` asks that the open does not fail once it has found the
  name, and `wp_vfsClose` that the file was opened without O_CREAT or stays open.
-/
import OreUnix.Fs.TreeInv

namespace OreUnix.Vfs

open Function (update update_of_ne update_self update_idem update_eq_self)
open Wp Tally

variable {s : Fs} {x : File}
variable {E : Crash → Prop} {buf : List UInt8} {count d dir flags i k mode p : Nat} {name path : Str} {o : List Bool}
  {ri : RamfsInode} {t : Fs} {y z : Inode}

/-! ## 1. Calls that only move a position -/

theorem s64_of_lt {n : Int} (h : 0 ≤ n) (h' : n < 2 ^ 63) : s64 n = n := by
  unfold s64
  exact Int.bmod_eq_of_le (by omega) (by omega)

theorem toU32_of_lt {n : Int} (h : 0 ≤ n) (h' : n < 2 ^ 32) : (toU32 n : Int) = n := by
  unfold toU32
  omega

/-- The state after a call: the invariant holds, and no name is lost. -/
def Kept (s t : Fs) : Prop := Inv t ∧ Extends s t

/-- A call that cannot crash: it returns, or runs out of fuel. -/
abbrev NoCrash (e : Crash) : Prop := e = .fuel

theorem wp_fileInode {Q : Nat × Inode → Fs → Prop} {de : Dentry} (hd : x.dentry = some d)
    (hde : s.dentries d = some de) (hi : de.inode = some i) (hy : s.inodes i = some y) :
    wp E (fileInode x) Q s ↔ Q (i, y) s := by
  simp only [fileInode, wp_bind, hd, wp_deref]
  rw [wp_getDentry hde, hi, wp_deref, wp_getInode hy, wp_pure]

variable {f : Nat}

theorem Kept.move (h : Inv s) (hf : s.files f = some x) {pos : Int}
    (hp : x.fops = some .ramfsFile → 0 ≤ pos) : Kept s (s.putFile f (some { x with pos := pos })) :=
  ⟨h.putFile hf rfl rfl rfl (h.file hf).1 hp, extends_putFile s f _⟩

theorem Kept.refl (h : Inv s) : Kept s s := ⟨h, Extends.refl s⟩

/-- The end of a seek never lies before the start of the file. -/
theorem wp_vfsLseek (h : Inv s) (hf : s.files f = some x) (offset : Int)
    (whence : Nat) : wp NoCrash (vfsLseek f offset whence) (fun _ t => Kept s t) s := by
  obtain ⟨_, d, de, i, y, hd, hde, hi, hy, _⟩ := h.file hf
  have htarget : wp NoCrash (seekTarget x offset whence) (fun _ t => t = s) s := by
    unfold seekTarget
    split
    · rfl
    · rfl
    · exact wp_then ((wp_fileInode hd hde hi hy).mpr rfl)
    · rfl
  rw [vfsLseek, wp_bind, wp_getFile hf, wp_bind, wp_deref_some hd, wp_bind, wp_getDentry hde, wp_bind]
  refine wp_imp htarget fun o t ht => ?_
  subst ht
  cases o with
  | none => exact Kept.refl h
  | some pos =>
    rw [wp_bind, wp_setFile, wp_pure]
    refine Kept.move h hf fun _ => ?_
    split <;> omega

theorem wp_ramfsRead (h : Inv s) (hf : s.files f = some x) (ho : x.fops = some .ramfsFile)
    (hc : count ≤ kernelHeapSize) :
    wp NoCrash (ramfsRead f count) (fun _ t => Kept s t) s := by
  obtain ⟨_, d, de, i, y, hd, hde, hi, hy, hfo, hpos⟩ := h.file hf
  obtain ⟨ri, hri, hs0, hcap, hheap, hlen⟩ := h.data hy (hfo ▸ ho)
  have hpos := hpos ho
  have hk : kernelHeapSize = 67108864 := rfl
  rw [ramfsRead, wp_bind, wp_getFile hf, wp_bind, wp_fileInode hd hde hi hy]
  dsimp only
  split
  · exact Kept.refl h
  · rename_i hlt
    simp only [hri]
    have hcount : x.pos + ((if s64 (x.pos + count) > y.size then toU32 (y.size - x.pos)
        else count : Nat) : Int) ≤ y.size := by
      rw [s64_of_lt (by omega) (by omega)]
      split
      · rw [toU32_of_lt (by omega) (by omega)]
        omega
      · omega
    have hoff := toU32_of_lt (n := x.pos) (by omega) (by omega)
    generalize (if s64 (x.pos + count) > y.size then toU32 (y.size - x.pos) else count) = n
      at hcount ⊢
    cases hdata : ri.data with
    | none => exact Kept.refl h
    | some data =>
      have hlen : data.length = ri.capacity := by rw [← hlen, hdata]; rfl
      dsimp only
      rw [if_pos (by omega), wp_bind, wp_setFile, wp_pure]
      refine Kept.move h hf fun _ => ?_
      rw [s64_of_lt (by omega) (by omega)]
      omega

theorem wp_vfsRead (h : Inv s) (hf : s.files f = some x) (hc : count ≤ kernelHeapSize)
    (dev : DevResult) :
    wp NoCrash (vfsRead f count dev) (fun _ t => Kept s t) s := by
  rw [vfsRead, wp_bind, wp_getFile hf]
  cases ho : x.fops with
  | none => exact Kept.refl h
  | some ops =>
    dsimp only
    split
    · exact Kept.refl h
    · cases ops with
      | ramfsFile => exact wp_ramfsRead h hf ho hc
      | ramfsDir => exact Kept.refl h
      | dev =>
        rw [wp_bind, wp_setFile, wp_pure]
        have hmove := @Kept.move _ _ _ h hf dev.pos fun he => nomatch ho.symm.trans he
        rw [ho] at hmove
        exact hmove

/-! ## 2. Writing -/

/-- Where a write starts: O_APPEND moves to the end first. -/
def writePos (x : File) (y : Inode) : Int := if hasFlag x.flags O_APPEND then y.size else x.pos

/-- What a write leaves: the bytes stand in the file from the write's position on, or the heap refused a bigger buffer
    and nothing has changed but the position. -/
def Written (s : Fs) (i pos : Nat) (buf : List UInt8) (n : Int) (t : Fs) : Prop :=
  Kept s t ∧ t.dentries = s.dentries ∧
    (n = buf.length ∧ (∃ y ri, t.inodes i = some y ∧ y.priv = some ri ∧
      ((ri.data.getD []).drop pos).take buf.length = buf) ∨ n = -ENOMEM ∧ t.inodes = s.inodes)

theorem splice_length {data : List UInt8} {pos : Nat} (h : pos + buf.length ≤ data.length) :
    (splice data pos buf).length = data.length := by
  simp only [splice, List.length_append, List.length_take, List.length_drop]
  omega

theorem splice_get {data : List UInt8} {pos : Nat} (h : pos + buf.length ≤ data.length) :
    ((splice data pos buf).drop pos).take buf.length = buf := by
  have htake : (data.take pos).length = pos := by rw [List.length_take]; omega
  rw [splice, List.append_assoc, List.drop_append_of_le_length (by omega),
    List.drop_eq_nil_of_le (by omega), List.nil_append, List.take_left']
  rfl

/-- The heap's `krealloc`: refused, or a block of the size asked for. -/
theorem wp_krealloc {Q : Option (List UInt8) → Fs → Prop} {data : Option (List UInt8)} {size : Nat}
    (hn : size ≤ 8 * kernelHeapSize) (hnone : ∀ o, Q none (s.aside s.nextDentry o))
    (hsome : ∀ nd o, size ≤ kernelHeapSize → nd.length = size → Q (some nd) (s.aside s.nextDentry o)) :
    wp E (krealloc data size) Q s := by
  unfold krealloc
  split
  · rw [wp_bind, wp_allocOk]
    split
    · refine hsome _ s.oracle.tail ‹_› ?_
      simp only [List.length_append, List.length_replicate, List.length_take]
      omega
    · exact hnone s.oracle.tail
  · exact hnone s.oracle

theorem wp_growBuffer {Q : Option RamfsInode → Fs → Prop} {newcap : Nat} (hn : newcap ≤ 8 * kernelHeapSize)
    (hcap : ri.capacity ≤ newcap) (hnone : ∀ o, Q none (s.aside s.nextDentry o))
    (hsome : ∀ ri' o, newcap ≤ kernelHeapSize → ri'.capacity = newcap →
      (ri'.data.getD []).length = newcap → ri'.symlinkTarget = ri.symlinkTarget →
      Q (some ri') (s.aside s.nextDentry o)) :
    wp E (growBuffer krealloc ri newcap) Q s := by
  refine wp_then (wp_krealloc hn (fun o => hnone o) fun nd o hle hlen => ?_)
  refine hsome _ o hle rfl ?_ rfl
  rw [Option.getD_some, splice_length (by rw [List.length_replicate]; omega), hlen]

/-- The private part after a write of `buf` at `pos`. -/
def RamfsInode.write (ri : RamfsInode) (pos : Nat) (buf : List UInt8) : RamfsInode :=
  { ri with data := ri.data.map fun data => splice data pos buf }

theorem RamfsInode.write_length {pos : Nat} (hlen : (ri.data.getD []).length = ri.capacity)
    (hfit : pos + buf.length ≤ ri.capacity) :
    ((ri.write pos buf).data.getD []).length = ri.capacity := by
  cases hd : ri.data with
  | none =>
    rw [hd] at hlen
    rw [write, hd]
    exact hlen
  | some data =>
    simp only [hd, Option.getD_some] at hlen
    simp only [write, hd, Option.map_some, Option.getD_some]
    rw [splice_length (by omega), hlen]

theorem RamfsInode.write_get {pos : Nat} (hlen : (ri.data.getD []).length = ri.capacity)
    (hfit : pos + buf.length ≤ ri.capacity) :
    (((ri.write pos buf).data.getD []).drop pos).take buf.length = buf := by
  cases hd : ri.data with
  | none =>
    have hbuf : buf = [] := by
      rw [hd] at hlen
      have : ri.capacity = 0 := hlen.symm
      exact List.length_eq_zero_iff.mp (by omega)
    simp [write, hd, hbuf]
  | some data =>
    simp only [hd, Option.getD_some] at hlen
    simp only [write, hd, Option.map_some, Option.getD_some]
    exact splice_get (by omega)

/-- The end of a write, once the buffer is large enough. -/
theorem written_of_fits (h : Inv s) {f pos : Nat} (hf : s.files f = some x) (hy : s.inodes i = some y)
    (hfit : pos + buf.length ≤ ri.capacity) (hcap : ri.capacity ≤ kernelHeapSize) (hs0 : 0 ≤ y.size)
    (hsz : y.size ≤ ri.capacity) (hlen : (ri.data.getD []).length = ri.capacity)
    (htgt : ri.symlinkTarget = y.priv.bind fun r => r.symlinkTarget) {size : Int}
    (hsize : size = pos + buf.length ∨ size = y.size) :
    Written s i pos buf buf.length
      ((s.putFile f (some { x with pos := pos + buf.length })).putNode i
        { y with priv := some (ri.write pos buf), size := size }) := by
  have hmove := @Kept.move _ _ _ h hf (pos + buf.length) fun _ => by omega
  have hsame : SameNode y { y with priv := some (ri.write pos buf), size := size } := ⟨rfl, rfl, rfl, htgt⟩
  have hlink : LinkOk { y with priv := some (ri.write pos buf), size := size } := fun hops => by
    obtain ⟨ri0, hri0, hshort⟩ := h.link hy hops
    refine ⟨_, rfl, fun t ht => hshort t ?_⟩
    rw [hri0] at htgt
    exact htgt.symm.trans ht
  have hdata : DataOk { y with priv := some (ri.write pos buf), size := size } := fun _ =>
    ⟨_, rfl, by show 0 ≤ size; omega, by show size ≤ ri.capacity; omega, hcap, RamfsInode.write_length hlen hfit⟩
  refine ⟨⟨hmove.1.putNode hy hsame hlink hdata, hmove.2.trans (extends_putNode hy hsame)⟩, rfl,
    .inl ⟨rfl, _, _, update_self .., rfl, RamfsInode.write_get hlen hfit⟩⟩

theorem wp_storeBytes (h : Inv s) {f pos : Nat} (hf : s.files f = some x) (hy : s.inodes i = some y)
    (hfit : pos + buf.length ≤ ri.capacity) (hcap : ri.capacity ≤ kernelHeapSize) (hs0 : 0 ≤ y.size)
    (hsz : y.size ≤ ri.capacity) (hlen : (ri.data.getD []).length = ri.capacity)
    (htgt : ri.symlinkTarget = y.priv.bind fun r => r.symlinkTarget) :
    wp NoCrash (storeBytes f i x y pos buf ri) (Written s i pos buf) s := by
  have hk : kernelHeapSize = 67108864 := rfl
  have hoff := toU32_of_lt (n := (pos : Int)) (by omega) (by omega)
  have hoff : toU32 (pos : Int) = pos := by omega
  rw [storeBytes, hoff, if_pos (by omega), s64_of_lt (by omega) (by omega), wp_bind, wp_setFile, wp_bind,
    wp_setInode, wp_pure]
  refine written_of_fits h hf hy hfit hcap hs0 hsz hlen htgt ?_
  split
  · exact .inl rfl
  · exact .inr rfl

theorem Written.of_moved {f pos : Nat} {x : Option File} {n : Int}
    (h : Written ((s.putFile f x).aside s.nextDentry o) i pos buf n t) :
    Written s i pos buf n t :=
  ⟨⟨h.1.1, (extends_putFile s f x).trans ((extends_aside _ _ o).1.trans h.1.2)⟩, h.2⟩

theorem wp_ramfsWrite (h : Inv s) {de : Dentry} (hf : s.files f = some x)
    (ho : x.fops = some .ramfsFile) (hd : x.dentry = some d) (hde : s.dentries d = some de) (hi : de.inode = some i)
    (hy : s.inodes i = some y) (hend : writePos x y + buf.length ≤ kernelHeapSize) :
    wp NoCrash (ramfsWrite f buf) (Written s i (writePos x y).toNat buf) s := by
  have hk : kernelHeapSize = 67108864 := rfl
  obtain ⟨_, d', de', i', y', hd', hde', hi', hy', hfo, hpos⟩ := h.file hf
  cases hd.symm.trans hd'
  cases hde.symm.trans hde'
  cases hi.symm.trans hi'
  cases hy.symm.trans hy'
  obtain ⟨ri, hri, hs0, hsz, hcap, hlen⟩ := h.data hy (hfo ▸ ho)
  have hp0 : 0 ≤ writePos x y := by
    unfold writePos
    split
    · exact hs0
    · exact hpos ho
  rw [ramfsWrite, ramfsWriteWith, wp_bind, wp_getFile hf, wp_bind, wp_fileInode hd hde hi hy]
  have hend64 : s64 (writePos x y + buf.length) = writePos x y + buf.length := s64_of_lt (by omega) (by omega)
  have hfin : toU32 (writePos x y + buf.length) = (writePos x y).toNat + buf.length := by
    have := @toU32_of_lt (writePos x y + buf.length) (by omega) (by omega)
    omega
  simp only [← show writePos x y = if hasFlag x.flags O_APPEND then y.size else x.pos from rfl, hend64, hfin,
    wp_bind, wp_setFile, hri]
  have hmove := @Kept.move _ _ _ h hf (writePos x y) fun _ => hp0
  have hstore : ∀ ri' o, (writePos x y).toNat + buf.length ≤ ri'.capacity →
      ri'.capacity ≤ kernelHeapSize → y.size ≤ ri'.capacity →
      (ri'.data.getD []).length = ri'.capacity → ri'.symlinkTarget = ri.symlinkTarget →
      wp NoCrash (storeBytes f i x y (writePos x y) buf ri') (Written s i (writePos x y).toNat buf)
        ((s.putFile f (some { x with pos := writePos x y })).aside s.nextDentry o) := by
    intro ri' o hfit hcap' hsz' hlen' htgt
    have hmove := (@Kept.move _ _ _ h hf (writePos x y) fun _ => hp0).1.aside le_rfl o
    have hw := wp_storeBytes hmove (f := f) (update_self ..) hy hfit hcap' hs0 hsz' hlen'
      (by rw [hri]; exact htgt)
    rw [Int.toNat_of_nonneg hp0] at hw
    exact wp_imp hw fun _ _ => Written.of_moved
  split
  · rw [wp_bind]
    have hdouble := u32_of_lt (n := ri.capacity * 2 + 4096) (by omega)
    have hcap' := @toU32_of_lt (max (writePos x y + buf.length) (u32 (ri.capacity * 2 + 4096) : Nat))
      (by omega) (by omega)
    rw [newCapacity]
    refine wp_growBuffer (by omega) (by omega) (fun o => ?_) fun ri' o hn hc' hl' ht' => ?_
    · have hmove := @Kept.move _ _ _ h hf (writePos x y) fun _ => hp0
      exact ⟨⟨hmove.1.aside le_rfl o, hmove.2.trans (extends_aside _ _ o).1⟩, rfl, .inr ⟨rfl, rfl⟩⟩
    · exact hstore ri' o (by omega) (by omega) (by omega) (hc' ▸ hl') ht'
  · exact hstore ri s.oracle (by omega) hcap hsz hlen rfl

theorem wp_vfsWrite (h : Inv s) (hf : s.files f = some x)
    (hend : ∀ d de i y, x.dentry = some d → s.dentries d = some de → de.inode = some i →
      s.inodes i = some y → writePos x y + buf.length ≤ kernelHeapSize) (dev : DevResult) :
    wp NoCrash (vfsWrite f buf dev) (fun _ t => Kept s t) s := by
  obtain ⟨_, d, de, i, y, hd, hde, hi, hy, _⟩ := h.file hf
  rw [vfsWrite, wp_bind, wp_getFile hf]
  cases ho : x.fops with
  | none => exact Kept.refl h
  | some ops =>
    cases ops with
    | ramfsFile =>
      dsimp only
      split
      · exact Kept.refl h
      · exact wp_imp (wp_ramfsWrite h hf ho hd hde hi hy (hend d de i y hd hde hi hy))
          fun _ _ hw => hw.1
    | ramfsDir => exact Kept.refl h
    | dev =>
      dsimp only
      split
      · exact Kept.refl h
      · rw [wp_bind, wp_setFile, wp_pure]
        have hmove := @Kept.move _ _ _ h hf dev.pos fun he => nomatch ho.symm.trans he
        rw [ho] at hmove
        exact hmove

/-! ## 3. Opening -/

/-- An inode after `ramfs_truncate` to 0. -/
def Inode.emptied (y : Inode) (ri : RamfsInode) : Inode :=
  { y with priv := some { ri with data := none, capacity := 0 }, size := 0 }

theorem wp_truncate_zero {Q : Int → Fs → Prop} (hy : s.inodes i = some y) (hri : y.priv = some ri) :
    wp E (ramfsTruncate i 0) Q s ↔ Q 0 (s.putNode i (y.emptied ri)) := by
  rw [ramfsTruncate, ramfsTruncateWith, wp_bind, wp_getInode hy, hri]
  exact Iff.rfl

theorem emptied_ok (h : Inv s) (hy : s.inodes i = some y) (hri : y.priv = some ri) :
    SameNode y (y.emptied ri) ∧ LinkOk (y.emptied ri) ∧ DataOk (y.emptied ri) := by
  refine ⟨⟨rfl, rfl, rfl, by rw [hri]; rfl⟩, fun ho => ?_, fun _ => ?_⟩
  · obtain ⟨ri', hri', hshort⟩ := h.link hy ho
    cases hri.symm.trans hri'
    exact ⟨_, rfl, hshort⟩
  · exact ⟨_, rfl, Int.le_refl _, Int.le_refl _, Nat.zero_le _, rfl⟩

variable {Q : Option Nat → Fs → Prop}

/-- The end of an open: the new file is filled in. -/
theorem wp_installFile (h : Inv s) {de : Nat} {x : Dentry} {fops : Option FileOps}
    {zero : File} (hx : s.dentries de = some x) (hi : x.inode = some i) (hy : s.inodes i = some y)
    (ho : fops = y.fops) (hok : ∀ f, FileOk s f → f.dentry = some de → f.flags = flags →
      Q (some s.nextFile) (s.addFile f)) :
    wp NoCrash (do
        let y' ← getInode i
        setFile s.nextFile
          (some ⟨some de, fops, if hasFlag flags O_APPEND then y'.size else 0, flags, 1⟩)
        pure (some s.nextFile))
      Q (s.addFile zero) := by
  rw [wp_bind, wp_getInode (s := s.addFile zero) hy, wp_bind, wp_setFile, wp_pure]
  have hstate : ∀ f : File, ({ s.addFile zero with
      files := update (s.addFile zero).files s.nextFile (some f) } : Fs) = s.addFile f := fun f => by
    simp only [Fs.addFile, update_idem]
  rw [hstate]
  refine hok _ ⟨Nat.le_refl 1, de, x, i, y, rfl, hx, hi, hy, ho, fun he => ?_⟩ rfl rfl
  obtain ⟨_, _, hs, _⟩ := h.data hy (ho.symm.trans he)
  show 0 ≤ if hasFlag flags O_APPEND then y.size else 0
  split
  · exact hs
  · exact Int.le_refl 0

theorem wp_openDentry (h : Inv s) {de : Nat} {x : Dentry} (hx : s.dentries de = some x)
    (hi : x.inode = some i) (hy : s.inodes i = some y)
    (hdir : ((hasFlag flags O_WRONLY || hasFlag flags O_RDWR) && isDir y.mode) = true →
      wp NoCrash (dentryPut de) (fun _ t => Q none t) s) (hmem : s.oracle.headD true = false →
      wp NoCrash (dentryPut de) (fun _ t => Q none t) (s.aside s.nextDentry s.oracle.tail))
    (hok : ∀ v f, Inv v → Extends s v → v.dentries = s.dentries → v.files = s.files →
      v.nextFile = s.nextFile → FileOk v f → f.dentry = some de → f.flags = flags →
      Q (some s.nextFile) (v.addFile f)) :
    wp NoCrash (openDentry de flags) Q s := by
  rw [openDentry, wp_bind, wp_getDentry hx, hi]
  dsimp only
  rw [wp_bind, wp_getInode hy]
  split
  · rw [wp_bind]
    exact hdir ‹_›
  · rw [wp_bind, fileAlloc, wp_bind, wp_allocOk]
    split
    · simp only [wp_bind, wp_get, wp_set, wp_pure]
      have h' := h.aside le_rfl s.oracle.tail
      have hext := (extends_aside s s.nextDentry s.oracle.tail).1
      split
      · rename_i htr
        obtain ⟨o, ho⟩ := Option.isSome_iff_exists.mp (Bool.and_eq_true_iff.mp htr).2
        obtain ⟨ri, hri, _⟩ := h.link hy ho
        obtain ⟨hsame, hlink, hdata⟩ := emptied_ok h hy hri
        rw [wp_bind]
        refine (wp_truncate_zero (s := (s.aside s.nextDentry s.oracle.tail).addFile ⟨none, none, 0, 0, 1⟩)
          hy hri).mpr ?_
        exact wp_installFile (i := i) (y := y.emptied ri) (h'.putNode hy hsame hlink hdata) hx hi
          (update_self ..) rfl fun f hf hd hfl =>
            hok _ f (h'.putNode hy hsame hlink hdata) (hext.trans (extends_putNode hy hsame)) rfl rfl
              rfl hf hd hfl
      · exact wp_installFile h' hx hi hy rfl fun f hf hd hfl => hok _ f h' hext rfl rfl rfl hf hd hfl
    · rw [wp_pure, wp_bind]
      exact hmem (Bool.eq_false_iff.mpr ‹¬ _›)

/-- The tree is as before: same names, same inodes; a directory may have another modification time, and inodes nothing
    points to may be left behind. -/
def SameTree (s t : Fs) : Prop :=
  t.dentries = s.dentries ∧
    ∀ i y, s.inodes i = some y → ∃ m, t.inodes i = some { y with mtime := m }

/-- What an open leaves: the invariant, all names, and the very same tree if it failed. -/
def Opened (s : Fs) (r : Option Nat) (t : Fs) : Prop := Kept s t ∧ (r = none → SameTree s t)

theorem Opened.failed_aside (h : Inv s) (hk : s.nextDentry ≤ k) (o : List Bool) : Opened s none (s.aside k o) :=
  ⟨⟨h.aside hk o, (extends_aside s k o).1⟩, fun _ => ⟨rfl, fun _ y hy => ⟨y.mtime, hy⟩⟩⟩

theorem ownRefs_congr (hf : t.files = s.files) (hn : t.nextFile = s.nextFile) (d : Nat) :
    ownRefs t d = ownRefs s d := by
  rw [ownRefs, ownRefs, hf, hn]

/-- An open without O_CREAT: the file keeps the reference of the lookup. -/
theorem wp_openPlain (h : Inv s) (fuel : Nat) (hp : ShortPath path) (hfl : hasFlag flags O_CREAT = false)
    (mode : Nat) :
    wp NoCrash (vfsOpen fuel path flags mode) (Opened s) s := by
  rw [vfsOpen, if_neg (by simp [hfl]), wp_bind]
  refine wp_mono (wp_vfsLookup_none h.toTreeOk fuel hp) (fun r t hr => ?_) fun _ he => he.1
  cases r with
  | error e =>
    obtain ⟨_, k, o, hk, rfl⟩ := hr
    exact Opened.failed_aside h hk o
  | ok d =>
    obtain ⟨_, rfl, x, hx⟩ := hr
    obtain ⟨i, y, hi, hy⟩ := h.inode hx
    refine wp_openDentry (h.bump d) (bump_self hx) hi hy (fun _ => ?_) (fun _ => ?_) ?_
    · rw [wp_dentryPut hx (h.refs hx)]
      exact Opened.failed_aside h le_rfl s.oracle
    · refine (wp_dentryPut (s := s.aside s.nextDentry s.oracle.tail) hx (h.refs hx)).mpr ?_
      exact Opened.failed_aside h le_rfl s.oracle.tail
    · intro v f hv hext hde hfs hnf hf hfd hff
      refine ⟨⟨hv.addFile hf fun {e de} he => ?_, (extends_bump s d).1.trans (hext.trans
        (extends_addFile v f))⟩, fun hn => nomatch hn⟩
      have hown : ownRef f = some d := by rw [ownRef, hff, hfl, hfd]; rfl
      have hrefs : ownRefs v e = ownRefs s e := ownRefs_congr hfs hnf e
      rw [hrefs, hown]
      rw [hde] at he
      by_cases hed : e = d
      · subst hed
        cases (bump_self hx).symm.trans he
        rw [holds_self]
        exact Nat.succ_lt_succ (h.held hx)
      · rw [bump_dentries, if_neg hed] at he
        rw [holds_of_ne (by simpa using Ne.symm hed)]
        exact h.held he

/-! ## 4. Creating -/

/-- An inode just made by `ramfs_new_inode`. -/
structure RawNode (m : Nat) (y : Inode) : Prop where
  mode : y.mode = m
  nlink : y.nlink = 1
  priv : ∃ ino, y.priv = some ⟨none, 0, ino, none⟩
  size : y.size = 0
  refcount : y.refcount = 1

theorem and_kind (hk : k &&& S_IFMT = k) (m : Nat) : (k ||| (m &&& 0o777)) &&& S_IFMT = k := by
  have hzero : 0o777 &&& S_IFMT = 0 := by decide
  rw [Nat.and_or_distrib_right, hk, Nat.and_assoc, hzero, Nat.and_zero, Nat.or_zero]

/-- A file just made by `ramfs_create`. -/
structure NewFile (y : Inode) : Prop where
  kind : y.mode &&& S_IFMT = S_IFREG
  nlink : y.nlink = 1
  ops : y.ops = some .ramfs
  fops : y.fops = some .ramfsFile
  priv : ∃ ino, y.priv = some ⟨none, 0, ino, none⟩
  size : y.size = 0
  refcount : y.refcount = 2

theorem NewFile.linkOk (h : NewFile y) : LinkOk y := fun _ => by
  obtain ⟨ino, hp⟩ := h.priv
  exact ⟨_, hp, fun _ ht => nomatch ht⟩

theorem NewFile.dataOk (h : NewFile y) : DataOk y := fun _ => by
  obtain ⟨ino, hp⟩ := h.priv
  exact ⟨_, hp, by rw [h.size], by rw [h.size]; exact Int.le_refl _, Nat.zero_le _, rfl⟩

theorem refusal_mem (h : ¬ o.headD true = true) : false ∈ o := by
  cases o with
  | nil => exact absurd rfl h
  | cons b o =>
    have hb : b = false := by simpa using h
    rw [hb]
    exact .head _

/-- `ramfs_new_inode`: an inode with an empty private part, or nothing but a used number. -/
theorem wp_ramfsNewInode (hfresh : s.inodes s.nextInode = none)
    (hfail : ∀ n o, s.nextInode ≤ n → false ∈ s.oracle → Q none { s with nextInode := n, oracle := o })
    (hok : ∀ y o, o <:+ s.oracle → RawNode mode y → Q (some s.nextInode) (({ s with oracle := o } : Fs).addNode y)) :
    wp E (ramfsNewInode mode) Q s := by
  rw [ramfsNewInode, wp_bind, inodeAlloc, wp_bind, wp_allocOk]
  by_cases hfirst : s.oracle.headD true = true
  · rw [if_pos hfirst]
    simp only [wp_bind, wp_get, wp_set, wp_pure, wp_allocOk]
    by_cases hsecond : s.oracle.tail.headD true = true
    · rw [if_pos hsecond]
      simp only [wp_bind, wp_get]
      refine (wp_getInode (by exact update_self ..)).mpr ?_
      simp only [wp_set, wp_pure, update_idem]
      exact hok ⟨s.nextIno, mode, s.uid, s.gid, 1, 0, 0, s.jiffies, s.jiffies, s.jiffies, none, none,
        some ⟨none, 0, s.nextIno, none⟩, 1⟩ s.oracle.tail.tail
        ((List.tail_suffix _).trans (List.tail_suffix _)) ⟨rfl, rfl, ⟨_, rfl⟩, rfl, rfl⟩
    · rw [if_neg hsecond]
      simp only [wp_bind, inodeFree, wp_setInode, update_idem, wp_pure]
      rw [← hfresh, update_eq_self]
      exact hfail _ _ (Nat.le_succ _) (List.mem_of_mem_tail (refusal_mem hsecond))
  · rw [if_neg hfirst]
    exact hfail _ _ le_rfl (refusal_mem hfirst)

/-- `ramfs_create` gives the dentry a new inode, or fails and leaves nothing but a used number. -/
theorem wp_ramfsCreate {Q : Int → Fs → Prop} {de : Nat} {c : Dentry} (hz : s.inodes dir = some z)
    (hfresh : s.inodes s.nextInode = none) (hc : s.dentries de = some c)
    (hfail : ∀ n o, s.nextInode ≤ n → false ∈ s.oracle → Q (-ENOMEM) { s with nextInode := n, oracle := o })
    (hok : ∀ y m o, o <:+ s.oracle → NewFile y → Q 0 { (({ s with oracle := o } : Fs).addNode y).putNode dir
      { z with mtime := m } with dentries := update s.dentries de (some { c with inode := some s.nextInode }) }) :
    wp E (ramfsCreate dir de mode) Q s := by
  have hne : dir ≠ s.nextInode := by
    rintro rfl
    rw [hfresh] at hz
    cases hz
  rw [ramfsCreate, wp_bind]
  refine wp_ramfsNewInode hfresh hfail fun y o ho hraw => ?_
  have hkind : y.mode &&& S_IFMT = S_IFREG := by rw [hraw.mode, and_kind (by decide)]
  simp only [wp_bind]
  refine (wp_getInode (by exact update_self ..)).mpr ?_
  rw [wp_setInode, inodeGet, wp_bind]
  refine (wp_getInode (by exact update_self ..)).mpr ?_
  rw [wp_setInode]
  refine (wp_getDentry (by exact hc)).mpr ?_
  rw [wp_setDentry]
  simp only [update_idem, Fs.addNode]
  refine (wp_getInode (by exact (update_of_ne hne ..).trans hz)).mpr ?_
  exact hok { y with ops := some .ramfs, fops := some .ramfsFile, refcount := y.refcount + 1 } y.ctime o ho
    ⟨hkind, hraw.nlink, rfl, rfl, hraw.priv, hraw.size, by rw [hraw.refcount]⟩

/-- Writing the new child over itself. -/
theorem graft_setChild (hp : p ≠ s.nextDentry) (c c' : Dentry) :
    ({ s.graft p c with dentries := update (s.graft p c).dentries s.nextDentry (some c') } : Fs)
      = s.graft p c' := by
  refine Fs.ext_dentries rfl fun d => ?_
  show update (update (update s.dentries s.nextDentry (some c)) p _) s.nextDentry (some c') d
    = update (update s.dentries s.nextDentry (some c')) p _ d
  by_cases hd : d = s.nextDentry
  · subst hd
    rw [update_self, update_of_ne hp.symm, update_self]
  · rw [update_of_ne hd]
    by_cases hdp : d = p
    · subst hdp
      rw [update_self, update_self]
    · rw [update_of_ne hdp, update_of_ne hd, update_of_ne hdp, update_of_ne hd]

theorem bump_graft (hp : p ≠ s.nextDentry) (c : Dentry) : (s.bump p).graft p c = (s.graft p c).bump p := by
  refine Fs.ext_dentries rfl fun d => ?_
  rw [bump_dentries]
  by_cases hd : d = p
  · subst hd
    show update (update (s.bump d).dentries _ (some c)) d _ d = if d = d then
      Option.map Dentry.raise (update (update s.dentries _ (some c)) d _ d) else _
    rw [update_self, update_self, if_pos rfl, bump_dentries, if_pos rfl]
    cases s.dentries d <;> rfl
  · rw [if_neg hd]
    by_cases hdn : d = s.nextDentry
    · subst hdn
      show update (update (s.bump p).dentries s.nextDentry (some c)) p _ s.nextDentry
        = update (update s.dentries s.nextDentry (some c)) p _ s.nextDentry
      rw [update_of_ne hd, update_of_ne hd, update_self, update_self]
    · rw [graft_other c hdn hd]
      refine (graft_other (s := s.bump p) c hdn hd).trans ?_
      rw [bump_dentries, if_neg hd]

/-- A new child that has its inode. -/
def namedChild (name : Str) (p i : Nat) : Dentry := { newChild name p with inode := some i }

/-- The last reference to a new child with a new inode: the dentry goes, the inode loses one of its two references. -/
theorem wp_dentryPut_created (ht : TreeSane s) {Q : Unit → Fs → Prop} {x : Dentry} (hp : s.dentries p = some x)
    (hy : s.inodes i = some y) (hr : y.refcount = 2) :
    wp E (dentryPut s.nextDentry) Q (s.graft p (namedChild name p i)) ↔
      Q () ((s.aside (s.nextDentry + 1) s.oracle).putNode i { y with refcount := 1 }) := by
  rw [dentryPut, wp_bind, wp_getDentry (graft_self ht hp _), if_pos (by rfl), dentryFree, wp_bind,
    wp_unlinkSibling_graft ht hp rfl rfl, wp_bind]
  refine (wp_getDentry (by exact update_self ..)).trans ?_
  simp only [namedChild]
  rw [wp_bind, inodePut, wp_bind]
  refine (wp_getInode (by exact hy)).trans ?_
  rw [if_neg (by omega), wp_setInode, wp_setDentry, hr]
  refine iff_of_eq (congrArg (Q ()) ?_)
  refine Fs.ext_dentries rfl fun d => ?_
  show update (update s.dentries s.nextDentry _) s.nextDentry none d = s.dentries d
  rw [update_idem, ← ht.fresh le_rfl, update_eq_self]

/-- The path names something already: its last component is a child of its directory. -/
def Existing (s : Fs) (path : Str) (d : Nat) : Prop :=
  ∃ fuel p name x, resolveParent s fuel path = some (p, name) ∧ s.dentries p = some x ∧
    childNamed s name x.children = some d

/-- Whether a dentry stands for a directory. -/
def dirAt (s : Fs) (d : Nat) : Bool :=
  (((s.dentries d).bind fun x => x.inode).bind s.inodes).any fun y => isDir y.mode

/-- An open with O_CREAT of a name that exists does not fail: O_EXCL is not set, a directory is not opened for
    writing, and there is memory for the file. -/
def CreateOk (s : Fs) (path : Str) (flags : Nat) : Prop :=
  ∀ d, Existing s path d → hasFlag flags O_EXCL = false ∧
    ((hasFlag flags O_WRONLY || hasFlag flags O_RDWR) && dirAt s d) = false ∧
    s.oracle.headD true = true

/-- A file opened with O_CREAT: it has no reference of its own. -/
theorem Kept.openBorrowed {u v : Fs} (hu : Inv u) (hsu : Extends s u) (hv : Inv v) (hext : Extends u v)
    (hde : v.dentries = u.dentries) (hfs : v.files = u.files) (hnf : v.nextFile = u.nextFile) {f : File}
    (hf : FileOk v f) (hfl : hasFlag f.flags O_CREAT = true) : Kept s (v.addFile f) := by
  refine ⟨hv.addFile hf fun {e de} he => ?_, hsu.trans (hext.trans (extends_addFile v f))⟩
  rw [ownRefs_congr hfs hnf, ownRef, if_pos hfl, holds_none]
  exact hu.held (hde ▸ he)

/-- An open with O_CREAT of a name that exists. -/
theorem wp_openExisting (h : Inv s) {x : Dentry} (hx : s.dentries d = some x) (hfl : hasFlag flags O_CREAT = true)
    (hdir : ((hasFlag flags O_WRONLY || hasFlag flags O_RDWR) && dirAt s d) = false)
    (hmem : s.oracle.headD true = true) : wp NoCrash (openDentry d flags) (Opened s) s := by
  obtain ⟨i, y, hi, hy⟩ := h.inode hx
  have hisdir : dirAt s d = isDir y.mode := by
    simp only [dirAt, hx, Option.bind_some, hi, hy, Option.any_some]
  rw [hisdir] at hdir
  refine wp_openDentry h hx hi hy (fun hd => ?_) (fun hm => ?_) ?_
  · rw [hdir] at hd
    cases hd
  · rw [hmem] at hm
    cases hm
  · intro v f hv hext hde hfs hnf hf _ hff
    exact ⟨Kept.openBorrowed h (Extends.refl s) hv hext hde hfs hnf hf (hff ▸ hfl), fun hn => nomatch hn⟩

/-- Numbers of inodes that were used and given back. -/
def Fs.skipNodes (s : Fs) (n : Nat) : Fs := { s with nextInode := n }

theorem TreeSane.skipNodes (h : TreeSane s) (n : Nat) : TreeSane (s.skipNodes n) :=
  ⟨h.fresh, h.refs, h.node, h.parent, h.child, h.unmounted, h.root, h.cwd⟩

theorem Inv.skipNodes (h : Inv s) {n : Nat} (hn : s.nextInode ≤ n) : Inv (s.skipNodes n) :=
  ⟨⟨h.toTreeSane.skipNodes n, h.inode, h.link, h.hasCwd⟩,
    fun hi => h.freshInode (hn.trans hi), h.freshFile, h.data, h.file, h.held⟩

theorem Opened.failed_skip (h : Inv s) {n : Nat} (hk : s.nextDentry ≤ k) (hn : s.nextInode ≤ n) (o : List Bool) :
    Opened s none ((s.skipNodes n).aside k o) :=
  ⟨⟨(h.skipNodes hn).aside hk o, (extends_aside s k o).1.trans
    ⟨rfl, rfl, fun hd => ⟨_, hd, rfl, rfl, rfl, List.prefix_refl _⟩, fun hi => ⟨_, hi, rfl, rfl, rfl⟩⟩⟩,
    fun _ => ⟨rfl, fun _ y hy => ⟨y.mtime, hy⟩⟩⟩

/-- The state before a new file gets its name: its inode exists, its directory is marked modified. -/
def Fs.withNode (s : Fs) (y : Inode) (dir : Nat) (z : Inode) (m : Nat) (o : List Bool) : Fs :=
  ((s.aside s.nextDentry o).addNode y).putNode dir { z with mtime := m }

/-- What `createChild` leaves: the new name, or the tree as before. -/
def Created (s : Fs) (p : Nat) (name : Str) : Option Nat → Fs → Prop
  | none, t => Opened s none t
  | some k, t => k = s.nextDentry ∧ ∃ y dir z m o, NewFile y ∧ s.inodes dir = some z ∧
    t = (s.withNode y dir z m o).graft p (namedChild name p s.nextInode)

theorem wp_createChild (h : Inv s) {x : Dentry} (hx : s.dentries p = some x) (name : Str) (mode : Nat) :
    wp NoCrash (createChild p name mode) (Created s p name) (s.bump p) := by
  obtain ⟨i, z, hi, hz⟩ := h.inode hx
  have ht := h.toTreeSane
  have hne := ht.live_ne hx
  rw [createChild, wp_bind, wp_dentryAlloc (ht.bump p) (bump_self hx)]
  split
  · dsimp only
    have hab : ∀ n o, s.nextInode ≤ n → wp NoCrash
        (do dentryPut s.nextDentry; dentryPut p; pure none) (Created s p name)
        ((((s.skipNodes n).aside s.nextDentry o).bump p).graft p (newChild name p)) := fun n o hn =>
      (wp_abandonChild (ht.skipNodes n) hx _).mpr (Opened.failed_skip h (Nat.le_succ _) hn o)
    rw [wp_bind]
    refine (wp_getDentry (by exact graft_parent (bump_self hx) _)).mpr ?_
    simp only [Dentry.raise, hi, wp_bind, wp_deref]
    refine (wp_getInode (by exact hz)).mpr ?_
    cases z.ops with
    | none => exact hab s.nextInode s.oracle.tail le_rfl
    | some ops =>
      cases ops
      rw [wp_bind]
      refine wp_ramfsCreate (by exact hz) (by exact h.freshInode le_rfl)
        (by exact graft_self ((ht.aside le_rfl s.oracle.tail).bump p) (bump_self hx) _)
        (fun n o hn _ => ?_) fun y m o _ hnew => ?_
      · rw [if_pos (by decide)]
        exact hab n o hn
      · have hstate := (graft_setChild (s := (s.withNode y i z m o).bump p) hne (newChild name p)
          (namedChild name p s.nextInode)).trans (bump_graft (s := s.withNode y i z m o) hne _)
        rw [if_neg (by decide), wp_bind]
        refine (congrArg (wp NoCrash _ _) hstate).mpr ?_
        have hrefs := h.refs hx
        refine (wp_dentryPut (graft_parent (s := s.withNode y i z m o) hx _) hrefs).mpr ?_
        exact ⟨rfl, y, i, z, m, o, hnew, hz, rfl⟩
  · rw [wp_bind]
    refine (wp_dentryPut (s := s.aside s.nextDentry s.oracle.tail) hx (h.refs hx)).mpr ?_
    exact Opened.failed_aside h le_rfl _

section NewName

variable {y z : Inode} {dir m : Nat} {o : List Bool} (h : Inv s) (hnew : NewFile y)
  (hz : s.inodes dir = some z)

include h hz

theorem withNode_kept (hnew : NewFile y) : Kept s (s.withNode y dir z m o) := by
  have h' := (h.aside le_rfl o).addNode hnew.linkOk hnew.dataOk
  have hz' : ((s.aside s.nextDentry o).addNode y).inodes dir = some z := (update_of_ne (h.node_ne hz) ..).trans hz
  have hsame : SameNode z { z with mtime := m } := ⟨rfl, rfl, rfl, rfl⟩
  have hlink := h.link hz
  have hdata := h.data hz
  refine ⟨h'.putNode hz' hsame hlink hdata, ?_⟩
  exact (extends_aside s _ o).1.trans
    ((extends_addNode (h.aside le_rfl o) y).trans (extends_putNode hz' hsame))

theorem withNode_new : (s.withNode y dir z m o).inodes s.nextInode = some y :=
  (update_of_ne (h.node_ne hz).symm ..).trans (update_self ..)

/-- Every inode there was is there, only the directory with another modification time. -/
theorem withNode_old {w : Inode} (hw : s.inodes i = some w) :
    ∃ m', (s.withNode y dir z m o).inodes i = some { w with mtime := m' } := by
  by_cases hi : i = dir
  · subst hi
    cases hz.symm.trans hw
    exact ⟨m, update_self ..⟩
  · exact ⟨w.mtime, (update_of_ne hi ..).trans
      ((update_of_ne (h.node_ne hw) ..).trans hw)⟩

/-- A new file that could not be opened: its name is taken back, only its inode stays behind. -/
theorem Opened.takenBack (hnew : NewFile y) (o' : List Bool) :
    Opened s none (((s.withNode y dir z m o).aside (s.nextDentry + 1) o').putNode s.nextInode
      { y with refcount := 1 }) := by
  obtain ⟨hinv, hext⟩ := withNode_kept (m := m) (o := o) h hz hnew
  have hy : ((s.withNode y dir z m o).aside (s.nextDentry + 1) o').inodes s.nextInode = some y := withNode_new h hz
  have hsame : SameNode y { y with refcount := 1 } := ⟨rfl, rfl, rfl, rfl⟩
  have hlink := hnew.linkOk
  have hdata := hnew.dataOk
  refine ⟨⟨(hinv.aside (Nat.le_succ _) o').putNode hy hsame hlink hdata,
    hext.trans ((extends_aside _ _ o').1.trans (extends_putNode hy hsame))⟩, fun _ => ⟨rfl, ?_⟩⟩
  intro i w hw
  obtain ⟨m', hm'⟩ := withNode_old (y := y) (m := m) (o := o) h hz hw
  exact ⟨m', (update_of_ne (h.node_ne hw) ..).trans hm'⟩

theorem wp_openNew {x : Dentry} (hnew : NewFile y) (hx : s.dentries p = some x) (hfl : hasFlag flags O_CREAT = true) :
    wp NoCrash (openDentry s.nextDentry flags) (Opened s)
      ((s.withNode y dir z m o).graft p (namedChild name p s.nextInode)) := by
  obtain ⟨hinv, hext⟩ := withNode_kept (m := m) (o := o) h hz hnew
  have hy := withNode_new (y := y) (m := m) (o := o) h hz
  have hgraft := hinv.graft (c := namedChild name p s.nextInode) hx rfl hy rfl rfl le_rfl rfl
  have hself := graft_self hinv.toTreeSane hx (namedChild name p s.nextInode)
  refine wp_openDentry hgraft hself rfl hy (fun _ => ?_) (fun _ => ?_) ?_
  · refine (wp_dentryPut_created hinv.toTreeSane hx hy hnew.refcount).mpr ?_
    exact Opened.takenBack h hz hnew _
  · refine (wp_dentryPut_created (s := (s.withNode y dir z m o).aside s.nextDentry o.tail)
      (hinv.toTreeSane.aside le_rfl _) hx hy hnew.refcount).mpr ?_
    exact Opened.takenBack h hz hnew _
  · intro v f hv hext' hde hfs hnf hf _ hff
    exact ⟨Kept.openBorrowed hgraft (hext.trans (extends_graft hinv.toTreeSane hx _)) hv hext' hde hfs
      hnf hf (hff ▸ hfl), fun hn => nomatch hn⟩

end NewName

section Paths

variable (h : Inv s) (fuel : Nat) (hp : ShortPath path)

include h hp

/-- An open with O_CREAT, which does not fail if the name exists. -/
theorem wp_openCreat (hfl : hasFlag flags O_CREAT = true)
    (hc : CreateOk s path flags) (mode : Nat) :
    wp NoCrash (vfsOpen fuel path flags mode) (Opened s) s := by
  rw [vfsOpen, if_pos hfl, wp_bind, openCreate, wp_bind]
  refine wp_imp (wp_vfsLookupParent h.toTreeOk fuel hp) fun r t hr => ?_
  cases r with
  | error e =>
    obtain ⟨_, k, o, hk, rfl⟩ := hr
    exact Opened.failed_aside h hk o
  | ok pn =>
    obtain ⟨p, name⟩ := pn
    obtain ⟨hpar, rfl, x, hx⟩ := hr
    dsimp only
    rw [wp_bind, wp_dentryLookupChild (h.toTreeSane.bump p) (bump_self hx),
      show x.raise.children = x.children from rfl, childNamed_bump]
    cases hch : childNamed s name x.children with
    | some d =>
      obtain ⟨hexcl, hdir, hmem⟩ := hc d ⟨fuel, p, name, x, hpar, hx, hch⟩
      obtain ⟨w, hw⟩ := h.child hx (childNamed_mem hch)
      dsimp only
      rw [if_neg (by simp [hexcl]), wp_bind, wp_dentryPut hx (h.refs hx)]
      exact wp_openExisting h hw hfl hdir hmem
    | none =>
      refine wp_imp (wp_createChild h hx name mode) fun r t hr => ?_
      cases r with
      | none => exact hr
      | some k =>
        obtain ⟨rfl, y, dir, z, m, o, hnew, hz, rfl⟩ := hr
        exact wp_openNew h hz hnew hx hfl

theorem wp_vfsOpen
    (hc : hasFlag flags O_CREAT = true → CreateOk s path flags) (mode : Nat) :
    wp NoCrash (vfsOpen fuel path flags mode) (Opened s) s := by
  cases hfl : hasFlag flags O_CREAT with
  | false => exact wp_openPlain h fuel hp hfl mode
  | true => exact wp_openCreat h fuel hp hfl (hc hfl) mode

/-! ## 5. Lookup, stat and close -/

theorem wp_vfsLookup_kept : wp NoCrash (vfsLookup fuel path none) (fun _ t => Kept s t) s := by
  refine wp_mono (wp_vfsLookup_none h.toTreeOk fuel hp) (fun r t hr => ?_) fun _ he => he.1
  cases r with
  | error e =>
    obtain ⟨_, k, o, hk, rfl⟩ := hr
    exact ⟨h.aside hk o, (extends_aside s k o).1⟩
  | ok d =>
    obtain ⟨_, rfl, _⟩ := hr
    exact ⟨h.bump d, (extends_bump s d).1⟩

theorem wp_vfsStat : wp NoCrash (vfsStat fuel path) (fun _ t => Kept s t) s := by
  rw [vfsStat, wp_bind]
  refine wp_mono (wp_vfsLookup_none h.toTreeOk fuel hp) (fun r t hr => ?_) fun _ he => he.1
  cases r with
  | error e =>
    obtain ⟨_, k, o, hk, rfl⟩ := hr
    exact ⟨h.aside hk o, (extends_aside s k o).1⟩
  | ok d =>
    obtain ⟨_, rfl, x, hx⟩ := hr
    obtain ⟨i, y, hi, hy⟩ := h.inode hx
    dsimp only
    rw [wp_bind, wp_getDentry (bump_self hx), show x.raise.inode = some i from hi, wp_bind, wp_deref,
      wp_bind, wp_getInode (s := s.bump d) hy, wp_bind, wp_dentryPut hx (h.refs hx)]
    exact Kept.refl h

end Paths

/-- A reference of its own can be taken off again. -/
theorem exists_unbump {x : Dentry} (hx : s.dentries d = some x) (hr : 2 ≤ x.refcount) :
    ∃ (s0 : Fs) (x0 : Dentry), s = s0.bump d ∧ s0.dentries d = some x0 ∧ 1 ≤ x0.refcount := by
  refine ⟨{ s with dentries := update s.dentries d (some { x with refcount := x.refcount - 1 }) },
    { x with refcount := x.refcount - 1 }, ?_, update_self .., by show 1 ≤ x.refcount - 1; omega⟩
  refine (Fs.ext_dentries rfl fun e => ?_).symm
  rw [bump_dentries]
  by_cases he : e = d
  · subst he
    have hback : x.refcount - 1 + 1 = x.refcount := by omega
    simp only [update_self, if_true, Option.map_some, Dentry.raise, hback, hx]
  · rw [if_neg he]
    exact update_of_ne he ..

/-- A close: the last one of a file opened without O_CREAT, or not the last one. -/
theorem wp_vfsClose (h : Inv s) (hf : s.files f = some x)
    (hc : x.refcount = 1 → hasFlag x.flags O_CREAT = false) :
    wp NoCrash (vfsClose f) (fun _ t => Kept s t ∧ t.inodes = s.inodes) s := by
  obtain ⟨hr, d, de, i, y, hd, hde, hi, hy, ho, hpos⟩ := h.file hf
  rw [vfsClose, filePut, wp_bind, wp_getFile hf]
  split
  · have hown : ownRef x = some d := by rw [ownRef, hc ‹_›, hd]; rfl
    have hpos : 0 < ownRefs s d := tally_pos (i := f) (Finset.mem_range.mpr (h.live_file hf)) (by rw [hf]; exact hown)
    have hheld := h.held hde
    obtain ⟨s0, x0, rfl, hx0, hr0⟩ := exists_unbump hde (by omega)
    have hf0 : s0.files f = some x := hf
    have hend : Kept (s0.bump d) (s0.putFile f none) ∧ s0.inodes = s0.inodes :=
      ⟨⟨h.closeFile hf0 hown, (extends_bump s0 d).2.trans (extends_putFile s0 f none)⟩, rfl⟩
    rw [fileFree, wp_bind, wp_getFile hf, hd]
    dsimp only
    split
    · rw [wp_bind, wp_getDentry hde, wp_bind, wp_dentryPut hx0 hr0]
      exact hend
    · rw [wp_bind, wp_dentryPut hx0 hr0]
      exact hend
  · rw [wp_setFile]
    refine ⟨⟨h.putFile hf rfl rfl rfl ?_ hpos, extends_putFile s f _⟩, rfl⟩
    show 1 ≤ x.refcount - 1
    omega

end OreUnix.Vfs
