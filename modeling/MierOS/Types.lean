/-
  MierOS.Types
  The base types of `kernel/include/types.h` and `kernel/include/errno.h` that
  more than one subsystem hands around.
-/
import Mathlib.Data.Int.Order.Basic

namespace MierOS

/-- The error codes of `errno.h` that the modelled functions return. -/
inductive Errno where
  | ENOENT
  | ENOTDIR
  | EEXIST
  | ENOEXEC
  | EIO
  | ENOMEM
  | ENODEV
  | EINVAL
  | EBADF
  | EPIPE
  | ENOTSUP
  | ENOLINK
  | ELOOP
  deriving Repr, DecidableEq

/-- `fd_t`, that is `s32_t`. -/
@[ext] structure Fd where
  val : Int
  lower : -2147483648 ≤ val
  upper : val < 2147483648
  deriving Repr, DecidableEq

namespace Fd

/-- `++fd`, which wraps from the largest value to the smallest. -/
def succ (fd : Fd) : Fd :=
  if h : fd.val + 1 < 2147483648 then ⟨fd.val + 1, by have := fd.lower; omega, h⟩
  else ⟨-2147483648, by omega, by omega⟩

/-- Descriptor `0`, the `f_next_fd` of a new process. -/
def zero : Fd := ⟨0, by omega, by omega⟩

/-- `-1`: "no hint" and "no new descriptor asked for". -/
def none : Fd := ⟨-1, by omega, by omega⟩

theorem succ_val {fd : Fd} (h : fd.val + 1 < 2147483648) : fd.succ.val = fd.val + 1 := by
  unfold succ
  rw [dif_pos h]

theorem succ_val_max {fd : Fd} (h : ¬ fd.val + 1 < 2147483648) :
    fd.succ.val = -2147483648 := by
  unfold succ
  rw [dif_neg h]

end Fd

end MierOS
