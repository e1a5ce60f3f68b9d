/-
  Subject: Machine words, alignment macros, the memory layout and the error codes of kernel/kernel.h and kernel/mm.h.

  A machine word is a natural number; `u32` and `sub32` are what the hardware does to sums and differences of `u32`,
  `size_t` and `uptr` values. Every other operation of the source on such values stays in range and is written with
  the operation on `Nat`.
-/
import Mathlib.Algebra.Ring.Int.Defs
import Mathlib.Algebra.Ring.Nat

namespace OreUnix

/-- Truncation to 32 bits. -/
def u32 (n : Nat) : Nat := n % 2 ^ 32

/-- Subtraction of 32-bit words, with wrap-around. -/
def sub32 (a b : Nat) : Nat := (a + 2 ^ 32 - b % 2 ^ 32) % 2 ^ 32

/-- `ALIGN_UP(x, a)` on 32-bit values: `(x + a - 1) & ~(a - 1)`, `a` a power of two. -/
def alignUp (x a : Nat) : Nat := u32 (x + a - 1) / a * a

/-- `ALIGN_DOWN(x, a)`: `x & ~(a - 1)`, `a` a power of two. -/
def alignDown (x a : Nat) : Nat := x / a * a

/-! ## Memory layout (kernel.h, mm.h) -/

def pageSize : Nat := 4096
def kernelVirtBase : Nat := 0xC0000000
def kernelHeapStart : Nat := 0xD0000000
def kernelHeapSize : Nat := 64 * 1024 * 1024
def userStackTop : Nat := 0xBFFFF000
def userStackSize : Nat := 8 * 1024 * 1024
def physMemMax : Nat := 1024 * 1024 * 1024

/-! ## Error codes (kernel.h); a failing call returns the negated code -/

def EPERM : Int := 1
def ENOENT : Int := 2
def ESRCH : Int := 3
def EINTR : Int := 4
def EIO : Int := 5
def ENOEXEC : Int := 8
def EBADF : Int := 9
def ECHILD : Int := 10
def ENOMEM : Int := 12
def ENODEV : Int := 19
def ENOTDIR : Int := 20
def EISDIR : Int := 21
def EINVAL : Int := 22
def EMFILE : Int := 24
def EPIPE : Int := 32
def ENAMETOOLONG : Int := 36
def ENOTEMPTY : Int := 39

/-! ## Arithmetic of the macros -/

theorem u32_of_lt {n : Nat} (h : n < 2 ^ 32) : u32 n = n := Nat.mod_eq_of_lt h

theorem u32_lt (n : Nat) : u32 n < 2 ^ 32 := Nat.mod_lt _ (by decide)

theorem sub32_of_le {a b : Nat} (h : b ≤ a) (ha : a < 2 ^ 32) : sub32 a b = a - b := by
  unfold sub32
  omega

/-- Rounding up to a multiple of 8 in the range where it does not wrap. -/
theorem alignUp_eight {x : Nat} (h : x + 7 < 2 ^ 32) : x ≤ alignUp x 8 ∧ alignUp x 8 < x + 8 ∧ 8 ∣ alignUp x 8 := by
  unfold alignUp
  rw [u32_of_lt (by omega)]
  omega

end OreUnix
