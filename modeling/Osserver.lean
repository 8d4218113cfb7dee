import Osserver.Lib.Transition
import Osserver.Lib.Refinement
import Osserver.Lib.BlockStore
import Osserver.Lib.Outcome
import Osserver.Lib.Linked
import Osserver.Lib.Doubly
import Osserver.Lib.Words
import Osserver.Lib.Stack
import Osserver.Lib.Tiling
import Osserver.Lib.Stride
import Osserver.Lib.Sink
import Osserver.Lib.Changes
import Osserver.Mem.Run
import Osserver.Mem.Ownership
import Osserver.Mem.Descriptors
import Osserver.Mem.Coalescing
import Osserver.Mem.Loss
import Osserver.Mem.Allocation
import Osserver.Mem.Liballoc
import Osserver.Mem.HeapMalloc
import Osserver.Mem.HeapFree
import Osserver.Mem.HeapStore
import Osserver.Mem.HeapSafety
import Osserver.Paging.Basic
import Osserver.Paging.Effect
import Osserver.Paging.HeapTranslation
import Osserver.Paging.Frame
import Osserver.Paging.Safety
import Osserver.Paging.UnmapEffect
import Osserver.Paging.RoundTrip
import Osserver.Paging.Atomicity
import Osserver.Paging.Bracket
import Osserver.Paging.MemoryMap
import Osserver.Paging.HeapFrames
import Osserver.Paging.OnHeap
import Osserver.Paging.Isolation
import Osserver.Interrupt.Basic
import Osserver.Interrupt.Exclusion
import Osserver.Interrupt.Restore
import Osserver.Acpi.Basic
import Osserver.Acpi.Window
import Osserver.Acpi.RootPointer
import Osserver.Acpi.Madt
import Osserver.Acpi.MadtWalk
import Osserver.Acpi.MadtBounds
import Osserver.Acpi.MadtRecords
import Osserver.Acpi.Remap
import Osserver.Interrupt.Ioapic
import Osserver.Interrupt.Routing
import Osserver.Interrupt.Discovery
import Osserver.Interrupt.Transparency
import Osserver.Acpi.Tables
import Osserver.Acpi.DeviceTranslation
import Osserver.Acpi.TableWindow
import Osserver.Acpi.TablePaths
import Osserver.Acpi.Init
import Osserver.Acpi.Restoring
import Osserver.Acpi.Halts
import Osserver.Acpi.Release
import Osserver.Ps2.Controller
import Osserver.Ps2.Manager
import Osserver.Ps2.Port
import Osserver.Ps2.Refinement
import Osserver.Ps2.Scancodes
import Osserver.Ps2.Identification
import Osserver.Ps2.Timeouts
import Osserver.Ps2.Independence
import Osserver.Ps2.Disconnect
import Osserver.Ps2.PortCheck
import Osserver.Ps2.Waits
import Osserver.Ps2.Configuration
import Osserver.Ps2.WaitTimes
import Osserver.Time.Ktimer
import Osserver.Time.Firing
import Osserver.Time.Rtc
import Osserver.Time.Calendar
import Osserver.CString
import Osserver.Dev.Vga
import Osserver.Dev.Console
import Osserver.Format.Basic
import Osserver.Format.Div
import Osserver.Format.Quotient
import Osserver.Format.HighBits
import Osserver.Format.Vsnprintf
import Osserver.Format.Text
import Osserver.Format.Bounded
import Osserver.Format.Klog
import Osserver.Format.Field
import Osserver.Format.Decimal
import Osserver.Interrupt.Exceptions
import Osserver.Format.Width
import Osserver.Format.Reading
import Osserver.Format.Vsscanf
import Osserver.Format.Scanning
import Osserver.Format.Matching
import Osserver.Format.DecimalScan
import Osserver.Mem.HeapSafety
import Osserver.Interrupt.Bodies
