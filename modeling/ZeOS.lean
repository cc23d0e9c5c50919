import ZeOS.Kernel.ListHead
import ZeOS.Lib.Loop
import ZeOS.Memory.Copy
import ZeOS.Memory.Paging
import ZeOS.Kernel.State
import ZeOS.Kernel.Sys
import ZeOS.Process.Invariant
import ZeOS.Process.Refinement
import ZeOS.Process.Fork
import ZeOS.Memory.Ownership
import ZeOS.Memory.Translation
import ZeOS.Process.AddressSpace
import ZeOS.System.Boot
import ZeOS.System.Safety
import ZeOS.System.Wakeups
import ZeOS.System.Scheduling
import ZeOS.System.Family
import ZeOS.System.Tlb
import ZeOS.System.Keyboard
import ZeOS.Machine.Wrappers
import ZeOS.Machine.Switch
import ZeOS.Machine.Context
import ZeOS.Image.Layout
import ZeOS.Image.Reads
import ZeOS.Memory.Frames
import ZeOS.Memory.Access
import ZeOS.System.Write
import ZeOS.System.WriteStack
import ZeOS.System.Message
import ZeOS.System.ForkFailure
import ZeOS.Kernel.Ticks
import ZeOS.Kernel.Stream
import ZeOS.Kernel.PageFault
import ZeOS.Kernel.Clock
import ZeOS.System.UserMemory
import ZeOS.System.Computer
import ZeOS.System.Dispatch
import ZeOS.System.Virtual
import ZeOS.System.Stores
import ZeOS.Image.Bootsect
import ZeOS.System.Start
import ZeOS.System.Waiting
import ZeOS.System.Protection
import ZeOS.System.Interrupts
import ZeOS.Lib.Protection
