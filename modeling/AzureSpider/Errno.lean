import Mathlib.Tactic.Common

/-!
# Error codes

The codes of `kern/errno.h`.
-/

/-- The error codes of the kernel. -/
inductive Errno where
  | einval | efault | enametoolong | enomem | eio | enoent | enotdir | eisdir | eexist
  | exdev | eagain | espipe | eunimp | enxio | enodev | ebusy | eioctl | enotempty | erange
  | enospc | emfile | enfile | enosys | enoexec | e2big | ebadf
  deriving DecidableEq, Repr
