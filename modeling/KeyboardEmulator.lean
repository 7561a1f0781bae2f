import KeyboardEmulator.HostNeutrality
import KeyboardEmulator.LineRate
import KeyboardEmulator.SerialProgress
import KeyboardEmulator.SerialPromises
import KeyboardEmulator.SerialReopened
import KeyboardEmulator.WireHost
import KeyboardEmulator.UsartLine
import KeyboardEmulator.WireReader
import KeyboardEmulator.StreamNumber
import KeyboardEmulator.StreamRecords
import KeyboardEmulator.WiringTime
import KeyboardEmulator.SharedPins
import KeyboardEmulator.CompareOutputs
import KeyboardEmulator.ShiftRegister
