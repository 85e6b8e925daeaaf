import Modbus.Image.Bank
import Modbus.Image.Fifos
import Modbus.Image.Files

/-!
# Process images

The data that a device shows to its clients: four banks, files and queues, each with its own addresses.
-/

namespace Modbus

structure Image where
  coils : Bank Bool := {}
  discreteInputs : Bank Bool := {}
  inputRegisters : Bank Word := {}
  holdingRegisters : Bank Word := {}
  files : Files := {}
  fifos : Fifos := {}

end Modbus
