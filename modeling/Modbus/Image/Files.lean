import Modbus.Image.Error
import Std.Data.ExtTreeMap

/-!
# Files of a process image

A file is a numbered block of records that keeps the length it was added with.
-/

namespace Modbus

structure Files where
  files : Std.ExtTreeMap UInt16 (List Word) := ∅

namespace Files

def maxRecord : Nat := 9999

def count (fs : Files) : Nat := fs.files.size

def add (fs : Files) (file length : UInt16) : Except ImageError Files :=
  if maxRecord + 1 < length.toNat then .error (.illegalAddress length)
  else if file ∈ fs.files then .error (.duplicateAddress file)
  else .ok ⟨fs.files.insert file (List.replicate length.toNat 0)⟩

def records? (fs : Files) (file : UInt16) : Option (List Word) := fs.files[file]?

def remove (fs : Files) (file : UInt16) : Files := ⟨fs.files.erase file⟩

/-- The records of a file that has `n` of them from `record` on. -/
def span (fs : Files) (file record : UInt16) (n : Nat) : Except ImageError (List Word) :=
  match fs.files[file]? with
  | none => .error (.illegalAddress file)
  | some records =>
    if maxRecord < record.toNat ∨ records.length < record.toNat + n then .error (.illegalAddress record)
    else .ok records

def read (fs : Files) (file record length : UInt16) : Except ImageError (List Word) := do
  let records ← fs.span file record length.toNat
  return (records.drop record.toNat).take length.toNat

def write (fs : Files) (file record : UInt16) (data : List Word) : Except ImageError Files := do
  let records ← fs.span file record data.length
  return ⟨fs.files.insert file
    (records.take record.toNat ++ data ++ records.drop (record.toNat + data.length))⟩

end Files

end Modbus
