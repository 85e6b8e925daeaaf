import Modbus.Image.Error
import Modbus.Pdu.Response
import Std.Data.ExtTreeMap

/-!
# Queues of a process image

Each queue has an address, holds at most `maxFifoCount` words and is read without being drained.
-/

namespace Modbus

structure Fifos where
  queues : Std.ExtTreeMap Address (List Word) := ∅

namespace Fifos

def count (fs : Fifos) : Nat := fs.queues.size

def add (fs : Fifos) (addr : Address) : Except ImageError Fifos :=
  if addr ∈ fs.queues then .error (.duplicateAddress addr) else .ok ⟨fs.queues.insert addr []⟩

def queue? (fs : Fifos) (addr : Address) : Option (List Word) := fs.queues[addr]?

def remove (fs : Fifos) (addr : Address) : Fifos := ⟨fs.queues.erase addr⟩

def read (fs : Fifos) (addr : Address) : Except ImageError (List Word) :=
  match fs.queues[addr]? with
  | some queue => .ok queue
  | none => .error (.illegalAddress addr)

def push (fs : Fifos) (addr : Address) (value : Word) : Except ImageError Fifos := do
  let queue ← fs.read addr
  if maxFifoCount ≤ queue.length then .error (.queueFull addr)
  else .ok ⟨fs.queues.insert addr (queue ++ [value])⟩

def pushEach (fs : Fifos) (addr : Address) : List Word → Option ImageError × Fifos
  | [] => (none, fs)
  | v :: vs =>
    match fs.push addr v with
    | .ok fs => fs.pushEach addr vs
    | .error e => (some e, fs)

def clear (fs : Fifos) (addr : Address) : Except ImageError Fifos := do
  let _ ← fs.read addr
  return ⟨fs.queues.insert addr []⟩

end Fifos

end Modbus
