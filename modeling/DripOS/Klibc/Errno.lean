import Mathlib.Algebra.Group.Nat.Defs

/-!
# Results of type `int`

The error numbers of `src/klibc/errno.h` that the modelled functions return, and the conversion of
the other results to `int`.
-/

namespace DripOS

/-- The constants of `errno.h`. -/
inductive Errno where
  | eperm
  | enoent
  | esrch
  | eio
  | ebadf
  | enomem
  | efault
  | eexist
  | enotdir
  | einval
  | espipe
  deriving DecidableEq, Repr

/-- The number a constant stands for. -/
def Errno.code : Errno → ℕ
  | eperm => 1
  | enoent => 2
  | esrch => 3
  | eio => 5
  | ebadf => 9
  | enomem => 12
  | efault => 14
  | eexist => 17
  | enotdir => 20
  | einval => 22
  | espipe => 29

/-- The conversion of a 64-bit value to `int`. -/
def toInt (x : ℕ) : ℤ := (x : ℤ).bmod (2 ^ 32)

end DripOS
