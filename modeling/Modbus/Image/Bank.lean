import Modbus.Image.Error
import Std.Data.ExtTreeMap

/-!
# Banks of coils and registers

A bank maps some addresses to values; each occupied address is either open to clients or not. A read of a range
has to hit occupied addresses only.
-/

namespace Modbus

structure Cell (α : Type) where
  value : α
  writable : Bool
  deriving DecidableEq

structure Bank (α : Type) where
  cells : Std.ExtTreeMap Address (Cell α) := ∅

namespace Bank

variable {α : Type}

def count (b : Bank α) : Nat := b.cells.size

def addresses (b : Bank α) : List Address := b.cells.keys

def toList (b : Bank α) : List (Address × α) := b.cells.toList.map fun c => (c.1, c.2.value)

def get (b : Bank α) (addr : Address) : Except ImageError α :=
  match b.cells[addr]? with
  | some cell => .ok cell.value
  | none => .error (.illegalAddress addr)

/-- Values of `n` addresses from `addr` on; the first one that is not occupied is named. -/
def getEach (b : Bank α) (addr : Address) : Nat → Except ImageError (List α)
  | 0 => .ok []
  | n + 1 => do return (← b.get addr) :: (← b.getEach (addr + 1) n)

/-- A range that leaves the address space is refused by its first address. -/
def getRange (b : Bank α) (addr : Address) (qty : Quantity) : Except ImageError (List α) :=
  if qty = 0 then .ok []
  else if 65536 < addr.toNat + qty.toNat then .error (.illegalAddress addr)
  else b.getEach addr qty.toNat

def add (b : Bank α) (addr : Address) (value : α) (writable : Bool) : Except ImageError (Bank α) :=
  if addr ∈ b.cells then .error (.duplicateAddress addr)
  else .ok ⟨b.cells.insert addr ⟨value, writable⟩⟩

/-- Adds values at consecutive addresses, the last of which is followed by 0, up to the first one that is occupied. -/
def addEach (b : Bank α) (addr : Address) (writable : Bool) : List α → Option ImageError × Bank α
  | [] => (none, b)
  | v :: vs =>
    match b.add addr v writable with
    | .ok b => b.addEach (addr + 1) writable vs
    | .error e => (some e, b)

/-- Changes a value for the device itself, which may write everywhere. -/
def set (b : Bank α) (addr : Address) (value : α) : Except ImageError (Bank α) :=
  match b.cells[addr]? with
  | some cell => .ok ⟨b.cells.insert addr { cell with value }⟩
  | none => .error (.illegalAddress addr)

def setWritable (b : Bank α) (addr : Address) (writable : Bool) : Except ImageError (Bank α) :=
  match b.cells[addr]? with
  | some cell => .ok ⟨b.cells.insert addr { cell with writable }⟩
  | none => .error (.illegalAddress addr)

def write (b : Bank α) (addr : Address) (value : α) : Except ImageError (Bank α) :=
  match b.cells[addr]? with
  | some cell =>
    if cell.writable then .ok ⟨b.cells.insert addr { cell with value }⟩ else .error (.readOnly addr)
  | none => .error (.illegalAddress addr)

def remove (b : Bank α) (addr : Address) : Bank α := ⟨b.cells.erase addr⟩

def value? (b : Bank α) (addr : Address) : Option α := b.cells[addr]?.map (·.value)

def writeEach (b : Bank α) (addr : Address) : List α → Option ImageError × Bank α
  | [] => (none, b)
  | v :: vs =>
    match b.write addr v with
    | .ok b => b.writeEach (addr + 1) vs
    | .error e => (some e, b)

/-- Writes to consecutive addresses; what was written before an address that refuses is kept. -/
def writeRange (b : Bank α) (addr : Address) (values : List α) : Option ImageError × Bank α :=
  if 65536 < addr.toNat + values.length then (some (.illegalAddress addr), b)
  else b.writeEach addr values

end Bank

end Modbus
