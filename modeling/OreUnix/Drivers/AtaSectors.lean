/-
  Subject: WHICH SECTOR A POSITION ON THE DISK LEADS TO, and the size `ata_identify` reports.

  The size of a drive is a number of 32 or 64 bits from its identification block; the commands of the driver carry 28
  bits of a sector number, and the driver compares no position with the size.

  * `ataIdentifySectors` -- the size in the identification block;
  * `addressed` -- the sector in the registers when a command is issued for a position;
  * `write_byte` -- one byte written at any position, on a drive that reports no error;
  * `sectors_never_guarded` -- positions below the size lead to their own sectors exactly for sizes up to 2^28, and a
    position behind the size is accepted for every size.
-/
import OreUnix.Drivers.Ata

namespace OreUnix.Ata

open ByteMem BlockArray
open Vfs (s64)
open Fs (ssize)

/-! ## 1. The size of a drive -/

/-- `d->sectors` after `ata_identify`, from the 256 words of the block. -/
def ataIdentifySectors (ident : Nat → BitVec 16) : Nat :=
  if (ident 83).getLsbD 10 then
    (ident 103).toNat <<< 48 ||| (ident 102).toNat <<< 32 ||| (ident 101).toNat <<< 16 ||| (ident 100).toNat
  else (ident 61).toNat <<< 16 ||| (ident 60).toNat

/-! ## 2. Positions -/

variable {d : AtaDrive} {ch : Channel} {p : Nat} {stale : Nat → Mem}

/-- The sector in the registers after a command for byte position `p`. -/
def addressed (d : AtaDrive) (cmd : BitVec 8) (p : Nat) (ch : Channel) : Nat := (issue d (lbaAt p 0) cmd ch).lba

theorem command_lba (ch : Channel) (cmd : BitVec 8) : (ch.command cmd).lba = ch.lba := by
  unfold Channel.command
  split
  · split
    · rfl
    · split <;> rfl
  · rfl

/-- **The registers** hold the low 28 bits of the sector number. -/
theorem addressed_eq (cmd : BitVec 8) (hp : p < 2 ^ 63) : addressed d cmd p ch = p / 512 % 2 ^ 28 := by
  have hlba : lbaAt p 0 = p / 512 := (@round_eq p 0 1 hp).1
  rw [addressed, issue_eq, command_lba, selected_lba, hlba]

/-- One byte written at any position, on a drive that reports no error. -/
theorem write_byte (hans : Answers ch.polls) (hp : p + 1 < 2 ^ 63) (b : UInt8) :
    (ataFileWrite (some d) stale [b] p ch).ret = 1 ∧ (ataFileWrite (some d) stale [b] p ch).ch.bytes d.drive =
        storeList (ch.bytes d.drive) (p / 512 % 2 ^ 28 * 512 + p % 512) [b] := by
  obtain ⟨hlba, hoff, hchunk⟩ := @round_eq p 0 1 (by omega)
  have hone : min (512 - p % 512) 1 = 1 := by omega
  obtain ⟨sector, ch1, ch', hfetch, hwrite, hbytes, _⟩ :=
    @writeRound_spec d ch (p / 512) (p % 512) [b] (stale 0) (by simp; omega) hans
  rw [List.length_singleton] at hfetch
  have hrun : writeLoop d stale [b] p 0 ch = ⟨ssize 1, s64 (p + (1 : Nat)), ch'⟩ := by
    rw [writeLoop, if_pos (by simp), hlba, hoff, List.length_singleton, hchunk, Nat.add_zero, hone]
    dsimp only
    rw [hfetch]
    dsimp only
    rw [List.drop_zero, List.take_one, List.head?_cons, Option.toList_some, hwrite]
    dsimp only
    rw [if_neg (by decide), writeLoop, if_neg (by simp)]
  rw [ataFileWrite]
  rw [hrun]
  exact ⟨rfl, hbytes⟩

/-! ## 3. The theorem -/

/-- Two positions in different sectors of a drive with `size` sectors: each leads to its own sector, and a byte
    written at one leaves the other. -/
def SectorsApart (d : AtaDrive) (size : Nat) : Prop :=
  ∀ p q : Nat, p < 2 ^ 63 → q < 2 ^ 63 → p < size * 512 → q < size * 512 → p / 512 ≠ q / 512 → ∀ ch,
    addressed d ATA_CMD_READ_PIO p ch = p / 512 ∧ addressed d ATA_CMD_WRITE_PIO p ch = p / 512 ∧
    (Answers ch.polls → ∀ stale b, (ataFileWrite (some d) stale [b] p ch).ch.bytes d.drive q = ch.bytes d.drive q)

/-- A position behind the size is refused, also by a drive that reports no error. -/
def Guarded (d : AtaDrive) (size : Nat) : Prop :=
  ∀ p : Nat, size * 512 ≤ p → p + 1 < 2 ^ 63 → ∀ ch, Answers ch.polls → ∀ stale b,
    (ataFileWrite (some d) stale [b] p ch).ret < 0

theorem sectorsApart_iff {size : Nat} : SectorsApart d size ↔ size ≤ 2 ^ 28 := by
  constructor
  · intro h
    by_contra hbig
    have hone := (h (2 ^ 28 * 512) 0 (by decide) (by decide) (by omega) (by omega) (by decide) blank).1
    rw [addressed_eq _ (by decide)] at hone
    exact absurd hone (by decide)
  · intro hsize p q hp hq hps hqs hne ch
    have hsector : p / 512 % 2 ^ 28 = p / 512 := Nat.mod_eq_of_lt (by omega)
    refine ⟨(addressed_eq _ hp).trans hsector, (addressed_eq _ hp).trans hsector, fun hans stale b => ?_⟩
    rw [(write_byte hans (by omega) b).2, hsector, storeList_of_ne _ _ _ (by rw [List.length_singleton]; omega)]

theorem not_guarded {size : Nat} (hsize : size ≤ 2 ^ 28) : ¬ Guarded d size := by
  intro h
  have hret := h (size * 512) le_rfl (by omega) blank blank_answers (fun _ _ => 0) 0
  rw [(write_byte blank_answers (by omega) 0).1] at hret
  exact absurd hret (by decide)

/-- **Sectors and the size of the drive.** For every identification block the two halves do not both hold: up to 2^28
    sectors no position is refused, and beyond that two positions share a sector. -/
theorem sectors_never_guarded (d : AtaDrive) (ident : Nat → BitVec 16) :
    (SectorsApart d (ataIdentifySectors ident) ↔ ataIdentifySectors ident ≤ 2 ^ 28) ∧
      ¬ (SectorsApart d (ataIdentifySectors ident) ∧ Guarded d (ataIdentifySectors ident)) :=
  ⟨sectorsApart_iff, fun h => not_guarded (sectorsApart_iff.mp h.1) h.2⟩

/-- The block of a drive with 2^28 + 1 sectors. -/
def largeDisk : Nat → BitVec 16
  | 83 => 1024
  | 100 => 1
  | 101 => 4096
  | _ => 0

/-- **The last sector of a drive with 2^28 + 1 is its first**: a byte written there changes byte 0; and a drive of
    2^28 sectors accepts a position behind its end and changes the same byte. -/
theorem sector_wraps : ataIdentifySectors largeDisk = 2 ^ 28 + 1 ∧
    (ataFileWrite (some ⟨false⟩) (fun _ _ => 0) [1] (2 ^ 28 * 512 : Nat) blank).ret = 1 ∧
    blank.bytes false 0 = 0 ∧
    (ataFileWrite (some ⟨false⟩) (fun _ _ => 0) [1] (2 ^ 28 * 512 : Nat) blank).ch.bytes false 0 = 1 := by
  obtain ⟨hret, hbytes⟩ := @write_byte ⟨false⟩ blank (2 ^ 28 * 512) (fun _ _ => 0) blank_answers (by decide) 1
  refine ⟨by decide, hret, rfl, ?_⟩
  rw [show (false : Bool) = (⟨false⟩ : AtaDrive).drive from rfl, hbytes]
  decide

end OreUnix.Ata
