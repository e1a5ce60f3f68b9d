/-
  Subject: THE DISK DRIVER of drivers/ata.c over the registers of a drive.

  A `Channel` is what answers at the ports of one base address: two drives of 512-byte sectors, the task-file
  registers, the transfer in progress and the values the status port gives while the drive works. The driver selects a
  sector by writing the registers and moves it as 256 words through the data port.

  * `ataReadSector`, `ataWriteSector` -- one sector, by programmed I/O;
  * `ataFileRead`, `ataFileWrite` -- the file operations: a loop over the sectors a byte range touches;
  * `readSector_spec`, `writeSector_spec` -- with a drive that reports no error, the sector of the registers is the
    one the driver means;
  * `disk_bytes_iff` -- the file operations read and write the disk as one array of bytes, and a write returns its
    count exactly if the count fits in a `ssize_t`.
-/
import OreUnix.Fs.CallSpec
import OreUnix.Fs.Pipe
import OreUnix.Lib.BlockArray

namespace OreUnix.Ata

open ByteMem BlockArray
open Vfs (s64 toU32)
open Fs (ssize)
open Function (update)

/-! ## 1. The drive -/

/-- The registers the driver writes. The command register is the status register when it is read. -/
inductive Reg where
  | seccount
  | lbaLo
  | lbaMid
  | lbaHi
  | drive
  | cmd
  deriving DecidableEq, Repr

def ATA_SR_BSY : Nat := 7
def ATA_SR_DRQ : Nat := 3
def ATA_SR_ERR : Nat := 0

def ATA_CMD_READ_PIO : BitVec 8 := 0x20
def ATA_CMD_WRITE_PIO : BitVec 8 := 0x30
def ATA_CMD_FLUSH : BitVec 8 := 0xE7

def ATA_DRIVE_MASTER : BitVec 8 := 0xA0
def ATA_DRIVE_SLAVE : BitVec 8 := 0xB0
def ATA_DRIVE_LBA : BitVec 8 := 0x40

/-- The transfer through the data port: the sector, the word it has come to, and the sectors left. -/
inductive Phase where
  | idle
  | dataIn (lba i left : Nat)
  | dataOut (lba i left : Nat) (sector : Mem)

def Phase.isIdle : Phase → Bool
  | .idle => true
  | _ => false

/-- The two drives at a base address. -/
structure Channel where
  disk : Bool → Nat → Mem
  seccount : BitVec 8
  lbaLo : BitVec 8
  lbaMid : BitVec 8
  lbaHi : BitVec 8
  drive : BitVec 8
  phase : Phase
  /-- What the status port will say; after that, that the drive is ready. -/
  polls : List (BitVec 8)

namespace Channel

/-- The 28-bit address in the registers. -/
def lba (ch : Channel) : Nat :=
  (ch.drive &&& 0x0F).toNat * 2 ^ 24 + ch.lbaHi.toNat * 2 ^ 16 + ch.lbaMid.toNat * 2 ^ 8 + ch.lbaLo.toNat

/-- Bit 4 of the drive register selects the drive. -/
def slave (ch : Channel) : Bool := ch.drive.getLsbD 4

/-- The number of sectors to transfer; 0 stands for 256. -/
def sectors (ch : Channel) : Nat := if ch.seccount = 0 then 256 else ch.seccount.toNat

/-- A command. Without bit 6 of the drive register the address is not a sector number. -/
def command (ch : Channel) (v : BitVec 8) : Channel :=
  if ch.drive.getLsbD 6 then
    if v = ATA_CMD_READ_PIO then { ch with phase := .dataIn ch.lba 0 ch.sectors }
    else if v = ATA_CMD_WRITE_PIO then { ch with phase := .dataOut ch.lba 0 ch.sectors fun _ => 0 }
    else { ch with phase := .idle }
  else { ch with phase := .idle }

def outb (ch : Channel) (r : Reg) (v : BitVec 8) : Channel :=
  match r with
  | .seccount => { ch with seccount := v }
  | .lbaLo => { ch with lbaLo := v }
  | .lbaMid => { ch with lbaMid := v }
  | .lbaHi => { ch with lbaHi := v }
  | .drive => { ch with drive := v }
  | .cmd => ch.command v

/-- Reading the status port. -/
def status (ch : Channel) : BitVec 8 × Channel :=
  match ch.polls with
  | b :: polls => (b, { ch with polls := polls })
  | [] => (if ch.phase.isIdle then 0x40 else 0x48, ch)

/-- Reading the data port: the next word of the sector. -/
def inw (ch : Channel) : Nat × Channel :=
  match ch.phase with
  | .dataIn lba i left =>
    (half (ch.disk ch.slave lba) (2 * i), { ch with
      phase := if i + 1 < 256 then .dataIn lba (i + 1) left
        else if left ≤ 1 then .idle else .dataIn (lba + 1) 0 (left - 1) })
  | _ => (0, ch)

/-- Writing the data port: with its last word the sector is stored. -/
def outw (ch : Channel) (w : Nat) : Channel :=
  match ch.phase with
  | .dataOut lba i left sector =>
    if i + 1 < 256 then { ch with phase := .dataOut lba (i + 1) left (storeHalf sector (2 * i) w) }
    else { ch with
      disk := update ch.disk ch.slave (update (ch.disk ch.slave) lba (storeHalf sector (2 * i) w))
      phase := if left ≤ 1 then .idle else .dataOut (lba + 1) 0 (left - 1) fun _ => 0 }
  | _ => ch

/-- The bytes of a drive. -/
def bytes (ch : Channel) (slave : Bool) : Mem := flat 512 (ch.disk slave)

end Channel

/-- The polls of a drive that reports no error: the error bit is never set, and the drive asks for data before the
    driver stops waiting. -/
structure Answers (polls : List (BitVec 8)) : Prop where
  noError : ∀ b ∈ polls, b.getLsbD ATA_SR_ERR = false
  inTime : ∀ before during after, polls = before ++ during ++ after →
    (∀ b ∈ during, b.getLsbD ATA_SR_DRQ = false) → during.length < 999999

theorem Answers.suffix {before after : List (BitVec 8)} (h : Answers (before ++ after)) : Answers after := by
  refine ⟨fun b hb => h.noError b (List.mem_append_right _ hb), fun b d a heq hd => ?_⟩
  refine h.inTime (before ++ b) d a ?_ hd
  rw [heq]
  simp only [List.append_assoc]

/-! ## 2. One sector -/

/-- What the driver keeps of a drive: which of the two it is. -/
structure AtaDrive where
  drive : Bool
  deriving DecidableEq, Repr

/-- The status values that are left when `ata_wait_bsy` returns. -/
def pollsAfterBsy : List (BitVec 8) → List (BitVec 8)
  | [] => []
  | b :: polls => if b.getLsbD ATA_SR_BSY then pollsAfterBsy polls else polls

/-- `ata_wait_bsy`. -/
def ataWaitBsy (ch : Channel) : Channel := { ch with polls := pollsAfterBsy ch.polls }

/-- The loop of `ata_wait_drq` with `timeout` rounds left. -/
def waitDrq : Nat → Channel → Int × Channel
  | 0, ch => (- EIO, ch)
  | timeout + 1, ch =>
    let (s, ch) := ch.status
    if s.getLsbD ATA_SR_ERR then (- EIO, ch)
    else if s.getLsbD ATA_SR_DRQ then (0, ch)
    else waitDrq timeout ch

/-- `ata_wait_drq`: `while (--timeout)` from 1000000. -/
def ataWaitDrq (ch : Channel) : Int × Channel := waitDrq 999999 ch

/-- The drive register for sector `lba`: `drv | ((lba >> 24) & 0x0F)`. -/
def driveByte (d : AtaDrive) (lba : Nat) : BitVec 8 :=
  (if d.drive then ATA_DRIVE_SLAVE else ATA_DRIVE_MASTER) ||| ATA_DRIVE_LBA ||| BitVec.ofNat 8 (lba >>> 24 &&& 0x0F)

/-- The beginning of `ata_read_sector` and `ata_write_sector`: the sector and the command. -/
def issue (d : AtaDrive) (lba : Nat) (cmd : BitVec 8) (ch : Channel) : Channel :=
  let ch := ataWaitBsy ch
  let ch := ch.outb .drive (driveByte d lba)
  let ch := ch.outb .seccount 1
  let ch := ch.outb .lbaLo (BitVec.ofNat 8 (lba &&& 0xFF))
  let ch := ch.outb .lbaMid (BitVec.ofNat 8 (lba >>> 8 &&& 0xFF))
  let ch := ch.outb .lbaHi (BitVec.ofNat 8 (lba >>> 16 &&& 0xFF))
  ch.outb .cmd cmd

/-- `k` rounds of `p[i] = inw(base + ATA_DATA)`, from word `i` on. -/
def readWords : Nat → Nat → Mem → Channel → Mem × Channel
  | 0, _, p, ch => (p, ch)
  | k + 1, i, p, ch => readWords k (i + 1) (storeHalf p (2 * i) ch.inw.1) ch.inw.2

/-- `k` rounds of `outw(base + ATA_DATA, p[i])`, from word `i` on. -/
def writeWords : Nat → Nat → Mem → Channel → Channel
  | 0, _, _, ch => ch
  | k + 1, i, p, ch => writeWords k (i + 1) p (ch.outw (half p (2 * i)))

/-- `ata_read_sector`: 0 or an error, and the buffer. -/
def ataReadSector (d : AtaDrive) (lba : Nat) (buf : Mem) (ch : Channel) : Int × Mem × Channel :=
  let (r, ch) := ataWaitDrq (issue d lba ATA_CMD_READ_PIO ch)
  if r ≠ 0 then (r, buf, ch)
  else (0, readWords 256 0 buf ch)

/-- `ata_write_sector`: 0 or an error. -/
def ataWriteSector (d : AtaDrive) (lba : Nat) (buf : Mem) (ch : Channel) : Int × Channel :=
  let (r, ch) := ataWaitDrq (issue d lba ATA_CMD_WRITE_PIO ch)
  if r ≠ 0 then (r, ch)
  else (0, ataWaitBsy ((writeWords 256 0 buf ch).outb .cmd ATA_CMD_FLUSH))

/-! ## 3. The file operations -/

/-- `u64 lba = (*pos + n) / 512`. -/
def lbaAt (pos : Int) (n : Nat) : Nat := ((s64 (pos + n)).tdiv 512 % 2 ^ 64).toNat

/-- `u32 off = (*pos + n) % 512`. -/
def offAt (pos : Int) (n : Nat) : Nat := toU32 ((s64 (pos + n)).tmod 512)

/-- `size_t chunk = MIN(512 - off, count - n)`. -/
def chunkAt (pos : Int) (n count : Nat) : Nat := min (sub32 512 (offAt pos n)) (count - n)

/-- The remainder is between -511 and 511, so every round moves at least one byte. -/
theorem chunkAt_pos (pos : Int) {n count : Nat} (h : n < count) : 0 < chunkAt pos n count := by
  have hlow := Int.lt_tmod_of_pos (s64 (pos + n)) (by decide : (0 : Int) < 512)
  have hhigh := Int.tmod_lt_of_pos (s64 (pos + n)) (by decide : (0 : Int) < 512)
  unfold chunkAt offAt toU32 sub32
  omega

/-- What a call leaves: its result, the position, and the channel. -/
structure Done where
  ret : Int
  pos : Int
  ch : Channel

/-- The loop of `ata_file_read`, with `n` bytes delivered. The local sector buffer holds `stale n` before the sector
    is read into it. -/
def readLoop (d : AtaDrive) (stale : Nat → Mem) (count : Nat) (pos : Int) (n : Nat) (buf : Mem) (ch : Channel) :
    Mem × Done :=
  if n < count then
    match ataReadSector d (lbaAt pos n) (stale n) ch with
    | (r, sector, ch) =>
      if r ≠ 0 then (buf, ⟨if n > 0 then ssize n else r, pos, ch⟩)
      else
        readLoop d stale count pos (n + chunkAt pos n count)
          (copyFrom buf n sector (offAt pos n) (chunkAt pos n count)) ch
  else (buf, ⟨ssize n, s64 (pos + n), ch⟩)
termination_by count - n
decreasing_by
  have := chunkAt_pos pos ‹n < count›
  omega

/-- `ata_file_read`. -/
def ataFileRead (drive : Option AtaDrive) (stale : Nat → Mem) (buf : Mem) (count : Nat) (pos : Int) (ch : Channel) :
    Mem × Done :=
  match drive with
  | none => (buf, ⟨-ENODEV, pos, ch⟩)
  | some d => readLoop d stale count pos 0 buf ch

/-- The local buffer before the bytes of the caller are copied in: the sector, unless all of it is replaced. The
    result of the read is not looked at. -/
def fetchSector (d : AtaDrive) (lba off chunk : Nat) (stale : Mem) (ch : Channel) : Mem × Channel :=
  if off ≠ 0 ∨ chunk < 512 then (ataReadSector d lba stale ch).2 else (stale, ch)

/-- The loop of `ata_file_write`, with `n` bytes written. -/
def writeLoop (d : AtaDrive) (stale : Nat → Mem) (buf : List UInt8) (pos : Int) (n : Nat) (ch : Channel) : Done :=
  if n < buf.length then
    match fetchSector d (lbaAt pos n) (offAt pos n) (chunkAt pos n buf.length) (stale n) ch with
    | (sector, ch) =>
      let sector := storeList sector (offAt pos n) ((buf.drop n).take (chunkAt pos n buf.length))
      match ataWriteSector d (lbaAt pos n) sector ch with
      | (r, ch) =>
        if r ≠ 0 then ⟨if n > 0 then ssize n else r, pos, ch⟩
        else writeLoop d stale buf pos (n + chunkAt pos n buf.length) ch
  else ⟨ssize n, s64 (pos + n), ch⟩
termination_by buf.length - n
decreasing_by
  have := chunkAt_pos pos ‹n < buf.length›
  omega

/-- `ata_file_write`. -/
def ataFileWrite (drive : Option AtaDrive) (stale : Nat → Mem) (buf : List UInt8) (pos : Int) (ch : Channel) : Done :=
  match drive with
  | none => ⟨-ENODEV, pos, ch⟩
  | some d => writeLoop d stale buf pos 0 ch

/-! ## 4. One sector of a drive that reports no error -/

section Sector

variable {d : AtaDrive} {lba : Nat} {ch : Channel}

theorem pollsAfterBsy_suffix (polls : List (BitVec 8)) : ∃ before, polls = before ++ pollsAfterBsy polls := by
  induction polls with
  | nil => exact ⟨[], rfl⟩
  | cons b polls ih =>
    obtain ⟨before, hbefore⟩ := ih
    rw [pollsAfterBsy]
    split
    · exact ⟨b :: before, congrArg (b :: ·) hbefore⟩
    · exact ⟨[b], rfl⟩

theorem Answers.afterBsy {polls : List (BitVec 8)} (h : Answers polls) : Answers (pollsAfterBsy polls) := by
  obtain ⟨before, hbefore⟩ := pollsAfterBsy_suffix polls
  rw [hbefore] at h
  exact h.suffix

theorem Channel.status_cons {b : BitVec 8} {polls : List (BitVec 8)} (h : ch.polls = b :: polls) :
    ch.status = (b, { ch with polls := polls }) := by
  unfold status
  rw [h]

theorem Channel.status_nil (h : ch.polls = []) (hidle : ch.phase.isIdle = false) : ch.status = (0x48, ch) := by
  unfold status
  rw [h, hidle]
  rfl

/-- The wait ends with the drive asking for data. -/
theorem waitDrq_zero (timeout : Nat) (hidle : ch.phase.isIdle = false)
    (herr : ∀ b ∈ ch.polls, b.getLsbD ATA_SR_ERR = false)
    (htime : ∀ during after, ch.polls = during ++ after → (∀ b ∈ during, b.getLsbD ATA_SR_DRQ = false) →
      during.length < timeout) :
    ∃ before after, ch.polls = before ++ after ∧ waitDrq timeout ch = (0, { ch with polls := after }) := by
  induction timeout generalizing ch with
  | zero => exact absurd (htime [] ch.polls rfl (by simp)) (Nat.lt_irrefl 0)
  | succ timeout ih =>
    cases hpolls : ch.polls with
    | nil =>
      refine ⟨[], [], rfl, ?_⟩
      rw [waitDrq, Channel.status_nil hpolls hidle, ← hpolls]
      rfl
    | cons b polls =>
      have hb : b.getLsbD ATA_SR_ERR = false := herr b (hpolls ▸ .head _)
      rw [waitDrq, Channel.status_cons hpolls]
      dsimp only
      rw [hb, if_neg Bool.false_ne_true]
      cases hdrq : b.getLsbD ATA_SR_DRQ with
      | true => exact ⟨[b], polls, rfl, rfl⟩
      | false =>
        have herr' : ∀ c ∈ polls, c.getLsbD ATA_SR_ERR = false := fun c hc => herr c (hpolls ▸ .tail _ hc)
        obtain ⟨before, after, heq, hrun⟩ := @ih { ch with polls := polls } hidle herr'
          fun during after heq hduring => by
            have hmore : ch.polls = (b :: during) ++ after := hpolls.trans (congrArg (b :: ·) heq)
            have hlen := htime (b :: during) after hmore (by simpa using ⟨hdrq, hduring⟩)
            rw [List.length_cons] at hlen
            omega
        exact ⟨b :: before, after, congrArg (b :: ·) heq, hrun⟩

theorem ataWaitDrq_zero (hans : Answers ch.polls) (hidle : ch.phase.isIdle = false) :
    ∃ polls, Answers polls ∧ ataWaitDrq ch = (0, { ch with polls := polls }) := by
  obtain ⟨before, after, heq, hrun⟩ := waitDrq_zero 999999 hidle hans.noError
    fun during after heq hduring => hans.inTime [] during after heq hduring
  rw [heq] at hans
  exact ⟨after, hans.suffix, hrun⟩

/-- The registers once the driver has written them. -/
def selected (d : AtaDrive) (lba : Nat) (ch : Channel) : Channel :=
  { ch with
    seccount := 1
    lbaLo := BitVec.ofNat 8 (lba &&& 0xFF)
    lbaMid := BitVec.ofNat 8 (lba >>> 8 &&& 0xFF)
    lbaHi := BitVec.ofNat 8 (lba >>> 16 &&& 0xFF)
    drive := driveByte d lba
    polls := pollsAfterBsy ch.polls }

theorem issue_eq (cmd : BitVec 8) : issue d lba cmd ch = (selected d lba ch).command cmd := rfl

theorem driveByte_bits (d : AtaDrive) (lba : Nat) :
    (driveByte d lba &&& 0x0F).toNat = lba / 2 ^ 24 % 16 ∧ (driveByte d lba).getLsbD 4 = d.drive ∧
      (driveByte d lba).getLsbD 6 = true := by
  have hq : lba >>> 24 &&& 0x0F = lba / 2 ^ 24 % 16 := by
    rw [Nat.shiftRight_eq_div_pow]
    exact Nat.and_two_pow_sub_one_eq_mod _ 4
  have hlt : lba / 2 ^ 24 % 16 < 16 := Nat.mod_lt _ (by decide)
  have hall : ∀ drive : Bool, ∀ q < 16,
      (((if drive then ATA_DRIVE_SLAVE else ATA_DRIVE_MASTER) ||| ATA_DRIVE_LBA ||| BitVec.ofNat 8 q) &&& 0x0F).toNat =
        q ∧
      ((if drive then ATA_DRIVE_SLAVE else ATA_DRIVE_MASTER) ||| ATA_DRIVE_LBA ||| BitVec.ofNat 8 q).getLsbD 4 = drive ∧
      ((if drive then ATA_DRIVE_SLAVE else ATA_DRIVE_MASTER) ||| ATA_DRIVE_LBA |||
        BitVec.ofNat 8 q).getLsbD 6 = true := by
    decide
  rw [driveByte, hq]
  exact hall d.drive _ hlt

/-- **The sector in the registers** is the one the driver means, up to 28 bits. -/
theorem selected_lba : (selected d lba ch).lba = lba % 2 ^ 28 := by
  have hmod : ∀ n, n &&& 0xFF = n % 2 ^ 8 := fun n => Nat.and_two_pow_sub_one_eq_mod n 8
  simp only [Channel.lba, selected, (driveByte_bits d lba).1, hmod, BitVec.toNat_ofNat, Nat.shiftRight_eq_div_pow]
  omega

theorem selected_slave : (selected d lba ch).slave = d.drive := (driveByte_bits d lba).2.1

theorem issue_read : issue d lba ATA_CMD_READ_PIO ch =
    { selected d lba ch with phase := .dataIn (lba % 2 ^ 28) 0 1 } := by
  have hbit : (selected d lba ch).drive.getLsbD 6 = true := (driveByte_bits d lba).2.2
  rw [issue_eq, Channel.command, if_pos hbit, if_pos rfl, selected_lba]
  rfl

theorem issue_write : issue d lba ATA_CMD_WRITE_PIO ch =
    { selected d lba ch with phase := .dataOut (lba % 2 ^ 28) 0 1 fun _ => 0 } := by
  have hbit : (selected d lba ch).drive.getLsbD 6 = true := (driveByte_bits d lba).2.2
  rw [issue_eq, Channel.command, if_pos hbit, if_neg (by decide), if_pos rfl, selected_lba]
  rfl

/-- A word moved between two buffers at the same place. -/
theorem storeHalf_same (p q : Mem) (i j : Nat) :
    storeHalf p (2 * i) (half q (2 * i)) j = if 2 * i ≤ j ∧ j < 2 * i + 2 then q j else p j := by
  rw [storeHalf_half]
  by_cases h0 : j = 2 * i
  · rw [if_pos h0, if_pos (by omega), h0]
  · rw [if_neg h0]
    by_cases h1 : j = 2 * i + 1
    · rw [if_pos h1, if_pos (by omega), h1]
    · rw [if_neg h1, if_neg (by omega)]

/-- The words of the sector from `i` on, by induction on the rounds left. -/
theorem readWords_eq {k i : Nat} (p : Mem) (hk : i + (k + 1) = 256) (hphase : ch.phase = .dataIn lba i 1) :
    ∃ p', readWords (k + 1) i p ch = (p', { ch with phase := .idle }) ∧
      ∀ j, p' j = if 2 * i ≤ j ∧ j < 512 then ch.disk ch.slave lba j else p j := by
  induction k generalizing i p ch with
  | zero =>
    have hinw : ch.inw = (half (ch.disk ch.slave lba) (2 * i), { ch with phase := .idle }) := by
      rw [Channel.inw, hphase]
      dsimp only
      rw [if_neg (by omega), if_pos (Nat.le_refl 1)]
    refine ⟨storeHalf p (2 * i) (half (ch.disk ch.slave lba) (2 * i)), ?_, fun j => ?_⟩
    · rw [readWords, hinw, readWords]
    · have hend : 2 * i + 2 = 512 := by omega
      rw [storeHalf_same, hend]
  | succ k ih =>
    have hinw : ch.inw = (half (ch.disk ch.slave lba) (2 * i), { ch with phase := .dataIn lba (i + 1) 1 }) := by
      rw [Channel.inw, hphase]
      dsimp only
      rw [if_pos (by omega)]
    obtain ⟨p', hrun, hp'⟩ := @ih { ch with phase := .dataIn lba (i + 1) 1 } (i + 1)
      (storeHalf p (2 * i) (half (ch.disk ch.slave lba) (2 * i))) (by omega) rfl
    refine ⟨p', ?_, fun j => ?_⟩
    · rw [readWords, hinw]
      exact hrun
    · rw [hp' j, storeHalf_same]
      by_cases h : 2 * (i + 1) ≤ j ∧ j < 512
      · rw [if_pos h, if_pos (by omega)]
        rfl
      · rw [if_neg h]
        by_cases h' : 2 * i ≤ j ∧ j < 2 * i + 2
        · rw [if_pos h', if_pos (by omega)]
        · rw [if_neg h', if_neg (by omega)]

/-- The words of the buffer from `i` on; the sector is stored with the last one. -/
theorem writeWords_eq {k i : Nat} {p sector : Mem} (hk : i + (k + 1) = 256)
    (hphase : ch.phase = .dataOut lba i 1 sector) (hsame : ∀ j < 2 * i, sector j = p j) :
    ∃ blk, writeWords (k + 1) i p ch = { ch with
        disk := update ch.disk ch.slave (update (ch.disk ch.slave) lba blk), phase := .idle } ∧
      ∀ j < 512, blk j = p j := by
  have hnext : ∀ j < 2 * (i + 1), storeHalf sector (2 * i) (half p (2 * i)) j = p j := by
    intro j hj
    rw [storeHalf_same]
    by_cases h : 2 * i ≤ j
    · rw [if_pos (by omega)]
    · rw [if_neg (by omega), hsame j (by omega)]
  induction k generalizing i sector ch with
  | zero =>
    refine ⟨storeHalf sector (2 * i) (half p (2 * i)), ?_, fun j hj => hnext j (by omega)⟩
    rw [writeWords, writeWords, Channel.outw, hphase]
    dsimp only
    rw [if_neg (by omega), if_pos (Nat.le_refl 1)]
  | succ k ih =>
    have houtw : ch.outw (half p (2 * i)) =
        { ch with phase := .dataOut lba (i + 1) 1 (storeHalf sector (2 * i) (half p (2 * i))) } := by
      rw [Channel.outw, hphase]
      dsimp only
      rw [if_pos (by omega)]
    rw [writeWords, houtw]
    refine @ih { ch with phase := .dataOut lba (i + 1) 1 (storeHalf sector (2 * i) (half p (2 * i))) } (i + 1)
      (storeHalf sector (2 * i) (half p (2 * i))) (by omega) rfl hnext fun j hj => ?_
    rw [storeHalf_same]
    by_cases h : 2 * (i + 1) ≤ j
    · rw [if_pos (by omega)]
    · rw [if_neg (by omega), hnext j (by omega)]

/-- **A sector is read** into the buffer, and the disk stays. -/
theorem readSector_spec (buf : Mem) (hans : Answers ch.polls) :
    ∃ buf' ch', ataReadSector d lba buf ch = (0, buf', ch') ∧ (∀ j < 512, buf' j = ch.disk d.drive (lba % 2 ^ 28) j) ∧
      ch'.disk = ch.disk ∧ Answers ch'.polls := by
  obtain ⟨polls, hpolls, hwait⟩ := @ataWaitDrq_zero { selected d lba ch with phase := .dataIn (lba % 2 ^ 28) 0 1 }
    hans.afterBsy rfl
  obtain ⟨buf', hread, hbuf'⟩ := @readWords_eq (lba % 2 ^ 28)
    { selected d lba ch with phase := .dataIn (lba % 2 ^ 28) 0 1, polls := polls } 255 0 buf rfl rfl
  refine ⟨buf', { selected d lba ch with phase := .idle, polls := polls }, ?_, fun j hj => ?_, rfl, hpolls⟩
  · rw [ataReadSector, issue_read, hwait]
    dsimp only
    rw [if_neg (by decide), hread]
  · rw [hbuf' j, if_pos (by omega), ← @selected_slave d lba ch]
    rfl

theorem outb_flush (ch : Channel) : ch.outb .cmd ATA_CMD_FLUSH = { ch with phase := .idle } := by
  have hread : ATA_CMD_FLUSH ≠ ATA_CMD_READ_PIO := by decide
  have hwrite : ATA_CMD_FLUSH ≠ ATA_CMD_WRITE_PIO := by decide
  rw [Channel.outb, Channel.command, if_neg hread, if_neg hwrite, ite_self]

/-- **A sector is written**, and every other one stays. -/
theorem writeSector_spec (buf : Mem) (hans : Answers ch.polls) :
    ∃ blk ch', ataWriteSector d lba buf ch = (0, ch') ∧ (∀ j < 512, blk j = buf j) ∧
      ch'.disk = update ch.disk d.drive (update (ch.disk d.drive) (lba % 2 ^ 28) blk) ∧ Answers ch'.polls := by
  obtain ⟨polls, hpolls, hwait⟩ := @ataWaitDrq_zero
    { selected d lba ch with phase := .dataOut (lba % 2 ^ 28) 0 1 fun _ => 0 } hans.afterBsy rfl
  obtain ⟨blk, hwrite, hblk⟩ := @writeWords_eq (lba % 2 ^ 28)
    { selected d lba ch with phase := .dataOut (lba % 2 ^ 28) 0 1 fun _ => 0, polls := polls } 255 0 buf
    (fun _ => 0) rfl rfl (fun j hj => absurd hj (by omega))
  refine ⟨blk, ataWaitBsy { selected d lba ch with
      disk := update ch.disk d.drive (update (ch.disk d.drive) (lba % 2 ^ 28) blk), phase := .idle, polls := polls },
    ?_, hblk, rfl, hpolls.afterBsy⟩
  rw [ataWriteSector, issue_write, hwait]
  dsimp only
  rw [if_neg (by decide), hwrite, outb_flush, ← @selected_slave d lba ch]
  rfl

end Sector

/-! ## 5. The loops -/

section Loops

variable {d : AtaDrive} {ch : Channel} {pos n count : Nat} {stale : Nat → Mem}

/-- The last byte of the addressable disk. -/
def diskEnd : Nat := 2 ^ 28 * 512

/-- Sector, offset and length of a round, where an `off_t` holds the byte range. -/
theorem round_eq (hend : pos + n < 2 ^ 63) : lbaAt pos n = (pos + n) / 512 ∧ offAt pos n = (pos + n) % 512 ∧
      chunkAt pos n count = min (512 - (pos + n) % 512) (count - n) := by
  have h64 : s64 ((pos : Int) + n) = ((pos + n : Nat) : Int) := by
    rw [Vfs.s64_of_lt (by omega) (by omega), Int.natCast_add]
  have hdiv : ((pos + n : Nat) : Int).tdiv 512 = ((pos + n) / 512 : Nat) := Int.ofNat_tdiv (pos + n) 512
  have hmod : ((pos + n : Nat) : Int).tmod 512 = ((pos + n) % 512 : Nat) := Int.ofNat_tmod (pos + n) 512
  have hoff : offAt pos n = (pos + n) % 512 := by
    rw [offAt, h64, hmod, toU32]
    omega
  refine ⟨?_, hoff, ?_⟩
  · rw [lbaAt, h64, hdiv]
    omega
  · rw [chunkAt, hoff, sub32_of_le (by omega) (by omega)]

/-- **The loop of `ata_file_read`** delivers what is left of the range, by induction on its length. -/
theorem readLoop_spec (hend : pos + count ≤ diskEnd) (hn : n ≤ count) (buf : Mem) (hans : Answers ch.polls) :
    ∃ buf' ch', readLoop d stale count pos n buf ch = (buf', ⟨ssize count, (pos + count : Nat), ch'⟩) ∧
      (∀ j, buf' j = if n ≤ j ∧ j < count then ch.bytes d.drive (pos + j) else buf j) ∧
      ch'.disk = ch.disk ∧ Answers ch'.polls := by
  have hdisk : diskEnd = 137438953472 := rfl
  induction hleft : count - n using Nat.strongRecOn generalizing n buf ch with
  | ind k ih =>
    rw [readLoop]
    by_cases hlt : n < count
    · obtain ⟨hlba, hoff, hchunk⟩ := @round_eq pos n count (by omega)
      obtain ⟨sector, ch1, hread, hsector, hkeep, hans1⟩ := @readSector_spec d ((pos + n) / 512) ch (stale n) hans
      rw [Nat.mod_eq_of_lt (by omega)] at hsector
      rw [if_pos hlt, hlba, hread, hoff, hchunk]
      dsimp only
      rw [if_neg (by decide)]
      obtain ⟨buf', ch', hrun, hbuf', hkeep', hans'⟩ :=
        ih (count - (n + min (512 - (pos + n) % 512) (count - n))) (by omega) (by omega)
          (copyFrom buf n sector ((pos + n) % 512) (min (512 - (pos + n) % 512) (count - n))) hans1 rfl
      refine ⟨buf', ch', hrun, fun j => ?_, hkeep'.trans hkeep, hans'⟩
      rw [hbuf' j, Channel.bytes, hkeep, copyFrom]
      by_cases hnew : n + min (512 - (pos + n) % 512) (count - n) ≤ j ∧ j < count
      · rw [if_pos hnew, if_pos (by omega), Channel.bytes]
      · rw [if_neg hnew]
        by_cases hin : n ≤ j ∧ j < n + min (512 - (pos + n) % 512) (count - n)
        · have hplace : pos + j = (pos + n) / 512 * 512 + ((pos + n) % 512 + (j - n)) := by omega
          rw [if_pos hin, if_pos (by omega), hsector _ (by omega), Channel.bytes, hplace, flat_at (by omega)]
        · rw [if_neg hin, if_neg (by omega)]
    · have heq : n = count := by omega
      subst heq
      refine ⟨buf, ch, ?_, fun j => ?_, rfl, hans⟩
      · rw [if_neg hlt, Vfs.s64_of_lt (by omega) (by omega), Int.natCast_add]
      · rw [if_neg (by omega)]

/-- One round of `ata_file_write` writes its bytes, at whatever place in the sector. -/
theorem writeRound_spec {lba off : Nat} {bs : List UInt8} (stale : Mem) (hfit : off + bs.length ≤ 512)
    (hans : Answers ch.polls) :
    ∃ sector ch1 ch', fetchSector d lba off bs.length stale ch = (sector, ch1) ∧
      ataWriteSector d lba (storeList sector off bs) ch1 = (0, ch') ∧
      ch'.bytes d.drive = storeList (ch.bytes d.drive) (lba % 2 ^ 28 * 512 + off) bs ∧
      ch'.disk (!d.drive) = ch.disk (!d.drive) ∧ Answers ch'.polls := by
  have hfetch : ∃ sector ch1, fetchSector d lba off bs.length stale ch = (sector, ch1) ∧ ch1.disk = ch.disk ∧
      Answers ch1.polls ∧
        ∀ j < 512, storeList sector off bs j = storeList (ch.disk d.drive (lba % 2 ^ 28)) off bs j := by
    unfold fetchSector
    by_cases hpart : off ≠ 0 ∨ bs.length < 512
    · obtain ⟨sector, ch1, hread, hsector, hkeep, hans1⟩ := @readSector_spec d lba ch stale hans
      refine ⟨sector, ch1, by rw [if_pos hpart, hread], hkeep, hans1, fun j hj => ?_⟩
      rw [storeList, storeList, hsector j hj]
    · -- the whole sector is replaced: what the local buffer held does not matter
      refine ⟨stale, ch, if_neg hpart, rfl, hans, fun j hj => ?_⟩
      have hzero : off = 0 := by omega
      rw [hzero]
      exact storeList_whole _ _ (by omega)
  obtain ⟨sector, ch1, hfetch, hkeep, hans1, hsector⟩ := hfetch
  obtain ⟨blk, ch', hwrite, hblk, hdisk, hans'⟩ := @writeSector_spec d lba ch1 (storeList sector off bs) hans1
  refine ⟨sector, ch1, ch', hfetch, hwrite, ?_, ?_, hans'⟩
  · rw [Channel.bytes, hdisk, Function.update_self, hkeep]
    exact flat_update (by decide) hfit fun j hj => (hblk j hj).trans (hsector j hj)
  · rw [hdisk, Function.update_of_ne (by simp), hkeep]

/-- **The loop of `ata_file_write`** writes what is left of the buffer. -/
theorem writeLoop_spec {buf : List UInt8} (hend : pos + buf.length ≤ diskEnd) (hn : n ≤ buf.length)
    (hans : Answers ch.polls) :
    ∃ ch', writeLoop d stale buf pos n ch = ⟨ssize buf.length, (pos + buf.length : Nat), ch'⟩ ∧
      ch'.bytes d.drive = storeList (ch.bytes d.drive) (pos + n) (buf.drop n) ∧
      ch'.disk (!d.drive) = ch.disk (!d.drive) ∧ Answers ch'.polls := by
  have hdisk : diskEnd = 137438953472 := rfl
  induction hleft : buf.length - n using Nat.strongRecOn generalizing n ch with
  | ind k ih =>
    rw [writeLoop]
    by_cases hlt : n < buf.length
    · obtain ⟨hlba, hoff, hchunk⟩ := @round_eq pos n buf.length (by omega)
      generalize hc : min (512 - (pos + n) % 512) (buf.length - n) = chunk at hchunk
      have hlen : ((buf.drop n).take chunk).length = chunk := by
        rw [List.length_take, List.length_drop]
        omega
      obtain ⟨sector, ch1, ch2, hfetch, hwrite, hbytes, hother, hans2⟩ :=
        @writeRound_spec d ch ((pos + n) / 512) ((pos + n) % 512) ((buf.drop n).take chunk) (stale n) (by omega) hans
      rw [Nat.mod_eq_of_lt (by omega)] at hbytes
      rw [hlen] at hfetch
      rw [if_pos hlt, hlba, hoff, hchunk, hfetch]
      dsimp only
      rw [hwrite]
      dsimp only
      rw [if_neg (by decide)]
      obtain ⟨ch', hrun, hbytes', hother', hans'⟩ := ih (buf.length - (n + chunk)) (by omega) (by omega) hans2 rfl
      refine ⟨ch', hrun, ?_, hother'.trans hother, hans'⟩
      have hplace : (pos + n) / 512 * 512 + (pos + n) % 512 = pos + n := by omega
      have hnext : pos + (n + chunk) = pos + n + ((buf.drop n).take chunk).length := by omega
      rw [hbytes', hbytes, hplace, hnext, storeList_append, ← List.drop_drop, List.take_append_drop]
    · have heq : n = buf.length := by omega
      refine ⟨ch, ?_, ?_, rfl, hans⟩
      · rw [if_neg hlt, heq, Vfs.s64_of_lt (by omega) (by omega), Int.natCast_add]
      · funext x
        rw [heq, List.drop_length, storeList_of_ne _ _ _ (by rw [List.length_nil]; omega)]

end Loops

/-! ## 6. The disk as one array of bytes -/

section Disk

variable {d : AtaDrive} {ch : Channel} {pos : Int} {count : Nat} {stale : Nat → Mem} {buf : List UInt8}

/-- The bytes from `pos` on become those of `buf`, no other byte of the two drives changes, and the call says how many
    it wrote. -/
structure WritesBytes (d : AtaDrive) (buf : List UInt8) (pos : Int) (ch : Channel) (r : Done) : Prop where
  ret : r.ret = buf.length
  moved : r.pos = pos + buf.length
  bytes : ∀ x : Nat, r.ch.bytes d.drive x =
    if pos ≤ x ∧ x < pos + buf.length then buf.getD (x - pos).toNat 0 else ch.bytes d.drive x
  other : r.ch.bytes (!d.drive) = ch.bytes (!d.drive)

/-- The `count` bytes from `pos` on are delivered to `out`, the drives stay as they are, and the call says how many it
    read if it can. -/
structure ReadsBytes (d : AtaDrive) (count : Nat) (pos : Int) (out : Mem) (ch : Channel) (r : Mem × Done) : Prop where
  ret : r.2.ret = count ↔ count < 2 ^ 31
  bytes : ∀ j < count, r.1 j = ch.bytes d.drive (pos.toNat + j)
  rest : ∀ j, count ≤ j → r.1 j = out j
  moved : r.2.pos = pos + count
  disk : r.2.ch.disk = ch.disk

/-- A call of `ata_file_write`. -/
structure WriteCall where
  stale : Nat → Mem
  buf : List UInt8
  pos : Int

/-- A count is a `size_t`, and the range lies on the disk. -/
def WriteCall.OnDisk (w : WriteCall) : Prop := 0 ≤ w.pos ∧ w.buf.length < 2 ^ 32 ∧ w.pos + w.buf.length ≤ diskEnd

def WriteCall.run (d : AtaDrive) (ch : Channel) (w : WriteCall) : Channel :=
  (ataFileWrite (some d) w.stale w.buf w.pos ch).ch

theorem ssize_eq_iff {n : Nat} : ssize n = n ↔ n < 2 ^ 31 := by
  unfold ssize
  split <;> omega

/-- What one write leaves, whatever the count. -/
theorem ataFileWrite_spec (hans : Answers ch.polls) (hpos : 0 ≤ pos) (hend : pos + buf.length ≤ diskEnd) :
    ∃ ch', ataFileWrite (some d) stale buf pos ch = ⟨ssize buf.length, pos + buf.length, ch'⟩ ∧
      ch'.bytes d.drive = storeList (ch.bytes d.drive) pos.toNat buf ∧
      ch'.disk (!d.drive) = ch.disk (!d.drive) ∧ Answers ch'.polls := by
  obtain ⟨p, rfl⟩ := Int.eq_ofNat_of_zero_le hpos
  obtain ⟨ch', hrun, hbytes, hother, hans'⟩ := @writeLoop_spec d ch p 0 stale buf (by omega) (Nat.zero_le _) hans
  refine ⟨ch', ?_, ?_, hother, hans'⟩
  · rw [ataFileWrite, ← Int.natCast_add]
    exact hrun
  · rw [hbytes, List.drop_zero, Nat.add_zero, Int.toNat_natCast]

theorem ataFileRead_spec (hans : Answers ch.polls) (hpos : 0 ≤ pos) (hend : pos + count ≤ diskEnd) (out : Mem) :
    ReadsBytes d count pos out ch (ataFileRead (some d) stale out count pos ch) := by
  obtain ⟨p, rfl⟩ := Int.eq_ofNat_of_zero_le hpos
  obtain ⟨buf', ch', hrun, hbuf', hdisk, _⟩ := @readLoop_spec d ch p 0 count stale (by omega) (Nat.zero_le _) out hans
  rw [ataFileRead, hrun]
  refine ⟨ssize_eq_iff, fun j hj => ?_, fun j hj => ?_, Int.natCast_add p count, hdisk⟩
  · exact (hbuf' j).trans (if_pos ⟨Nat.zero_le j, hj⟩)
  · exact (hbuf' j).trans (if_neg (by omega))

/-- **A sequence of writes** is the sequence of writes to the array of bytes. -/
theorem run_writes (writes : List WriteCall) (hdisk : ∀ w ∈ writes, w.OnDisk) (hans : Answers ch.polls) :
    (writes.foldl (WriteCall.run d) ch).bytes d.drive =
      (writes.map fun w => (w.pos.toNat, w.buf)).foldl (fun m w => storeList m w.1 w.2) (ch.bytes d.drive) ∧
    Answers (writes.foldl (WriteCall.run d) ch).polls := by
  induction writes generalizing ch with
  | nil => exact ⟨rfl, hans⟩
  | cons w writes ih =>
    obtain ⟨hpos, _, hend⟩ := hdisk w (.head _)
    obtain ⟨ch', hrun, hbytes, _, hans'⟩ := @ataFileWrite_spec d ch w.pos w.stale w.buf hans hpos hend
    have hw : WriteCall.run d ch w = ch' := by rw [WriteCall.run, hrun]
    obtain ⟨hrest, hansr⟩ := ih (fun w' hw' => hdisk w' (.tail _ hw')) hans'
    rw [List.foldl_cons, List.map_cons, List.foldl_cons, hw, ← hbytes]
    exact ⟨hrest, hansr⟩

/-- **The disk is one array of bytes.** A write changes the bytes of its range to the buffer and no other, and moves
    the position; its result is the count exactly if the count is below 2^31. A read delivers the bytes of its range,
    after any sequence of writes each with the last value written to it. -/
theorem disk_bytes_iff (hans : Answers ch.polls) (hpos : 0 ≤ pos) (hcount : count < 2 ^ 32)
    (hend : pos + count ≤ diskEnd) :
    (∀ buf : List UInt8, buf.length = count →
      (WritesBytes d buf pos ch (ataFileWrite (some d) stale buf pos ch) ↔ count < 2 ^ 31)) ∧
    (∀ out, ReadsBytes d count pos out ch (ataFileRead (some d) stale out count pos ch)) ∧
    ∀ writes : List WriteCall, (∀ w ∈ writes, w.OnDisk) → ∀ out, ∀ j < count,
      (ataFileRead (some d) stale out count pos (writes.foldl (WriteCall.run d) ch)).1 j =
        (lastWritten (writes.map fun w => (w.pos.toNat, w.buf)) (pos.toNat + j)).getD
          (ch.bytes d.drive (pos.toNat + j)) := by
  refine ⟨?_, ataFileRead_spec hans hpos hend, ?_⟩
  · rintro buf rfl
    obtain ⟨ch', hrun, hbytes, hother, _⟩ := @ataFileWrite_spec d ch pos stale buf hans hpos hend
    rw [hrun]
    constructor
    · exact fun h => ssize_eq_iff.mp h.ret
    · intro hlt
      refine ⟨ssize_eq_iff.mpr hlt, rfl, fun x => ?_, congrArg (flat 512) hother⟩
      have hsub : x - pos.toNat = (x - pos).toNat := by omega
      rw [hbytes, storeList, hsub]
      exact if_congr (by omega) rfl rfl
  · intro writes hdisk out j hj
    obtain ⟨hbytes, hans'⟩ := run_writes writes hdisk hans
    rw [(ataFileRead_spec hans' hpos hend out).bytes j hj, hbytes, foldl_storeList]

end Disk

/-- A drive of zeroes that answers at once. -/
def blank : Channel := ⟨fun _ _ _ => 0, 0, 0, 0, 0, 0, .idle, []⟩

theorem blank_answers : Answers blank.polls := by
  refine ⟨nofun, fun before during after h _ => ?_⟩
  have hlen := congrArg List.length h
  simp only [blank, List.length_nil, List.length_append] at hlen
  omega

/-- Three bytes across the end of the first sector. -/
theorem disk_bytes_crossing :
    WritesBytes ⟨false⟩ [1, 2, 3] 511 blank (ataFileWrite (some ⟨false⟩) (fun _ _ => 7) [1, 2, 3] 511 blank) :=
  ((disk_bytes_iff (d := ⟨false⟩) blank_answers (by decide) (by decide) (by decide)).1 [1, 2, 3] rfl).mpr (by decide)

/-- A write of 2^31 bytes succeeds and returns a negative number. -/
theorem large_write_negative : ∃ buf : List UInt8, (0 : Int) + buf.length ≤ diskEnd ∧ buf.length < 2 ^ 32 ∧
    (ataFileWrite (some ⟨false⟩) (fun _ _ => 0) buf 0 blank).ret = -2147483648 := by
  have hlen : (List.replicate 2147483648 (0 : UInt8)).length = 2147483648 := List.length_replicate
  have hdisk : diskEnd = 137438953472 := rfl
  generalize List.replicate 2147483648 (0 : UInt8) = buf at hlen
  obtain ⟨ch', hrun, _⟩ := @ataFileWrite_spec ⟨false⟩ blank 0 (fun _ _ => 0) buf blank_answers (by decide) (by omega)
  refine ⟨buf, by omega, by omega, ?_⟩
  have hret : ssize 2147483648 = -2147483648 := by decide
  rw [hrun, hlen]
  exact hret

end OreUnix.Ata
