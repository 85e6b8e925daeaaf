import Modbus.Bytes

/-!
# File records

Files are numbered blocks of registers; a record is one register of a file. A request names a span of records,
a record block carries the values of one.
-/

namespace Modbus

structure FileSpan where
  file : UInt16
  record : UInt16
  length : UInt16
  deriving DecidableEq

/-- Values for consecutive records of a file, from `record` on. -/
structure FileRecord where
  file : UInt16
  record : UInt16
  data : List Word
  deriving DecidableEq

end Modbus
