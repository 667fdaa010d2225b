import Mathlib.Algebra.Ring.Nat

/-! What the driver takes from the kernel it is loaded into: return values. -/
namespace DxNpuDriver

/-- The error numbers the modelled functions return. -/
inductive Errno where
  | EPERM | ENOENT | EIO | EAGAIN | ENOMEM | EFAULT | EBUSY | EEXIST | ENODEV | EINVAL
  | ENODATA | EOPNOTSUPP | ETIMEDOUT | ECANCELED | ERESTARTSYS | ECOMM
  deriving DecidableEq, Repr

/-- `ok` is the return value 0, `err e` the return value `-e`. -/
inductive Ret where
  | ok
  | err (e : Errno)
  deriving DecidableEq, Repr

end DxNpuDriver
