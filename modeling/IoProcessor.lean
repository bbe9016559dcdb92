import IoProcessor.Library.Waiters
import IoProcessor.Hal.SpiReceive
import IoProcessor.Hal.TwiSerial
import IoProcessor.Ipc.RingSafety
import IoProcessor.Ipc.Layout
import IoProcessor.Hal.TraceOutput
import IoProcessor.Hal.CrashReport
import IoProcessor.Hal.TraceWindow
import IoProcessor.Hal.UartDma
import IoProcessor.Hal.Gpio
import IoProcessor.Hal.SpiWaiters
import IoProcessor.Hal.TwiWaiters
import IoProcessor.Hal.TrapHandler
import IoProcessor.Hal.SharedLine
import IoProcessor.Hal.GpioEdges
import IoProcessor.Hal.GpioOrder
import IoProcessor.Ipc.PingEcho
import IoProcessor.Hal.BootHandshake
import IoProcessor.Host.WaitReady
import IoProcessor.Hal.MsgboxDoorbell
import IoProcessor.Hal.UartStream
import IoProcessor.Hal.SleepMs
import IoProcessor.Hal.GpioHandlers
import IoProcessor.Hal.SpiControllers
import IoProcessor.Hal.TwiAcknowledge
import IoProcessor.Hal.TwiBounds
import IoProcessor.Hal.Timestamp
import IoProcessor.Hal.ClockDividers
import IoProcessor.Hal.GpioPins
import IoProcessor.Hal.TwiTransfers
import IoProcessor.Ipc.PingPayload
import IoProcessor.Host.RunTests
import IoProcessor.Hal.TimerAccess
import IoProcessor.Hal.Startup
import IoProcessor.Host.FwSizeExit
import IoProcessor.Host.TestRunner
import IoProcessor.Host.TimerAccuracy
import IoProcessor.Tracing.TraceStream
import IoProcessor.Hal.TrapEntry
import IoProcessor.Hal.Unclaimed
import IoProcessor.Hal.UartTransmit
import IoProcessor.Hal.UartInit
import IoProcessor.Ipc.Benchmark
import IoProcessor.Host.ClockHandshake
import IoProcessor.Apps.TimerTest
import IoProcessor.Apps.FaultTest
import IoProcessor.Apps.PlatformSmokeTest
