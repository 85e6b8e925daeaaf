import Modbus.Frame.Ascii
import Modbus.Image.Service
import Modbus.Link.Posted
import Modbus.Link.Wired
import Modbus.Register
import Modbus.Server.Site
import Modbus.Server.Transcript
import Modbus.Proofs.Client.Calls
import Modbus.Proofs.Client.ClosedStream
import Modbus.Proofs.Frame.Appended
import Modbus.Proofs.Frame.AsciiErrors
import Modbus.Proofs.Frame.Interrupted
import Modbus.Proofs.Frame.Limits
import Modbus.Proofs.Frame.RtuErrors
import Modbus.Proofs.Image.Banks
import Modbus.Proofs.Image.Exchanges
import Modbus.Proofs.Image.Independence
import Modbus.Proofs.Image.Protection
import Modbus.Proofs.Image.Queues
import Modbus.Proofs.Image.Records
import Modbus.Proofs.Image.Rejections
import Modbus.Proofs.Link.Waking
import Modbus.Proofs.Pdu.AcceptedReplies
import Modbus.Proofs.Server.Askers
import Modbus.Proofs.Server.Endings
import Modbus.Proofs.Transparency
