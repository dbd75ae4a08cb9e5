import DeviceOS.Lib.AccessLog
import DeviceOS.Lib.Buffers
import DeviceOS.Lib.EventSystem
import DeviceOS.Lib.Framing
import DeviceOS.Lib.LinkedStacks
import DeviceOS.Lib.Numerals
import DeviceOS.Lib.Overlays
import DeviceOS.Lib.RoundRobin
import DeviceOS.Lib.TextScreen
import DeviceOS.Lib.TextSheet
import DeviceOS.Lib.TextStrip
import DeviceOS.State
import DeviceOS.Console
import DeviceOS.Keyboard
import DeviceOS.FileSystem
import DeviceOS.Execute
import DeviceOS.FileData
import DeviceOS.Loader
import DeviceOS.Syscalls
import DeviceOS.Halt
import DeviceOS.Pit
import DeviceOS.Mouse
import DeviceOS.Machine
import DeviceOS.StepCases
import DeviceOS.FailedExecute
import DeviceOS.ProcessTables
import DeviceOS.StackInvariant
import DeviceOS.StackSteps
import DeviceOS.StackHalt
import DeviceOS.ProcessStacks
import DeviceOS.ProcessContext
import DeviceOS.HaltPreempt
import DeviceOS.ExitStatus
import DeviceOS.ConsoleFrame
import DeviceOS.ConsoleSteps
import DeviceOS.EnterFlag
import DeviceOS.LineRead
import DeviceOS.VideoMapping
import DeviceOS.Descriptors
import DeviceOS.FileStreams
import DeviceOS.FileReads
import DeviceOS.CommandLine
import DeviceOS.ImageCopies
import DeviceOS.TextPages
import DeviceOS.ScreenIsolation
import DeviceOS.RtcSharing
import DeviceOS.KeyAccesses
import DeviceOS.LineEditor
import DeviceOS.LineBounds
import DeviceOS.LineStrings
import DeviceOS.ConsoleCalls
import DeviceOS.KeyDelivery
import DeviceOS.CursorBounds
import DeviceOS.ScreenSheet
import DeviceOS.ScreenBlind
import DeviceOS.PointerOverlay
import DeviceOS.MousePointer
import DeviceOS.Scheduling
import DeviceOS.DescriptorTable
import DeviceOS.OpenDrivers
import DeviceOS.FreshStart
import DeviceOS.Paging
import DeviceOS.UserPages
import DeviceOS.MachinePages
import DeviceOS.VideoGrants
import DeviceOS.ImageLoads
import DeviceOS.Directory
import DeviceOS.Modifiers
import DeviceOS.History
import DeviceOS.ReadLengths
import DeviceOS.Echo
import DeviceOS.FileAccesses
import DeviceOS.RtcRates
import DeviceOS.MousePosition
import DeviceOS.MouseStream
import DeviceOS.NumberFormat
import DeviceOS.MemoryFunctions
import DeviceOS.Linkage
import DeviceOS.CopyPrograms
import DeviceOS.ShellProgram
import DeviceOS.Frames
import DeviceOS.InterruptDelivery
import DeviceOS.PrintfFormats
