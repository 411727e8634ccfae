import KuznyechikDPA.Foundation.ByteField
import KuznyechikDPA.Foundation.ShiftRegister
import KuznyechikDPA.Firmware.Layers
import KuznyechikDPA.Firmware.Inverse
import KuznyechikDPA.Firmware.Standard
import KuznyechikDPA.Firmware.Conformance
import KuznyechikDPA.Firmware.MaskedRefinement
import KuznyechikDPA.Hardware.GrasshopperPkg
import KuznyechikDPA.Hardware.PkgRefinement
import KuznyechikDPA.Aes.MaskedDecryption
import KuznyechikDPA.Aes.AesSubKeySchedule
import KuznyechikDPA.Aes.Conformance
import KuznyechikDPA.Hardware.Replies
import KuznyechikDPA.Hardware.Core
import KuznyechikDPA.Hardware.ScheduleRestarts
import KuznyechikDPA.Hardware.Leakage
import KuznyechikDPA.Hardware.Transitions
import KuznyechikDPA.Hardware.Restart
import KuznyechikDPA.Hardware.Overlap
import KuznyechikDPA.Firmware.Session
import KuznyechikDPA.Hardware.MaskQuality
import KuznyechikDPA.Uart.Loopback
import KuznyechikDPA.Hardware.LastRoundKeys
import KuznyechikDPA.Hardware.Ranges
import KuznyechikDPA.Hardware.Serialisation
import KuznyechikDPA.Hardware.MaskSampling
import KuznyechikDPA.Aes.Ranges
import KuznyechikDPA.Aes.PowerUp
import KuznyechikDPA.Aes.KeySizes
import KuznyechikDPA.Firmware.ModesSession
import KuznyechikDPA.Firmware.MaskedSession
import KuznyechikDPA.Hardware.Lockstep
import KuznyechikDPA.Aes.Service
import KuznyechikDPA.Hardware.MaskedService
import KuznyechikDPA.Python.AttackModel
import KuznyechikDPA.Python.Acquisition
import KuznyechikDPA.Python.GrasshopperCpa
