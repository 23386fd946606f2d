import MasterOS.Device.Program
import MasterOS.Math.Chain
import MasterOS.Math.Cells
import MasterOS.Math.Forest
import MasterOS.Math.Machine
import MasterOS.Math.Simulation
import MasterOS.Math.Store
import MasterOS.Device.Mmu
import MasterOS.Memory.Pmm
import MasterOS.Memory.FrameRange
import MasterOS.Memory.Paging
import MasterOS.Memory.Translation
import MasterOS.Memory.Heap
import MasterOS.Memory.OutOfFrames
import MasterOS.Memory.Loader
import MasterOS.Device.Ata
import MasterOS.Device.Gdt
import MasterOS.Stdlib.Printf
import MasterOS.Console.Keyboard
import MasterOS.Console.Login
import MasterOS.Console.Credentials
import MasterOS.Math.Rows
import MasterOS.Console.Vga
import MasterOS.Console.OnScreen
import MasterOS.Console.Page
import MasterOS.Fat.Layout
import MasterOS.Fat.Names
import MasterOS.Fat.NameCodec
import MasterOS.Fat.Table
import MasterOS.Fat.Driver
import MasterOS.Fat.Volume
import MasterOS.Fat.Addresses
import MasterOS.Fat.Steps
import MasterOS.Fat.Freeing
import MasterOS.Fat.Search
import MasterOS.Fat.Fuel
import MasterOS.Fat.Alloc
import MasterOS.Fat.Capacity
import MasterOS.Fat.Ops
import MasterOS.Fat.Edit
import MasterOS.Fat.Effect
import MasterOS.Fat.Preserve
import MasterOS.Fat.Directories
import MasterOS.Fat.Blank
import MasterOS.Fat.FirstFit
import MasterOS.Fat.AnyRead
import MasterOS.Fat.AnySearch
import MasterOS.Fat.Reading
import MasterOS.Fat.Runs
import MasterOS.Fat.Listing
import MasterOS.Fat.Calls
import MasterOS.Device.Refusal
import MasterOS.Device.Meets
import MasterOS.Device.Accesses
import MasterOS.Fat.Errors
import MasterOS.Fat.Rmdir
import MasterOS.Fat.Regular
import MasterOS.Fat.UniqueNames
import MasterOS.Fat.Paths
import MasterOS.Fat.Faults
import MasterOS.Fat.Divides
import MasterOS.Fat.InBounds
import MasterOS.Fat.Frame
import MasterOS.Fat.RoundTrip
import MasterOS.Fat.Found
import MasterOS.Fat.Renaming
import MasterOS.Fat.Contents
import MasterOS.Fat.Fat16
import MasterOS.Fat.Undo
import MasterOS.Fat.NewDirs
import MasterOS.Fat.Bounds
import MasterOS.Fat.WriteBack
import MasterOS.Fat.Crash
import MasterOS.Fat.Atomicity
import MasterOS.Fat.Moves
import MasterOS.Fat.Files
import MasterOS.Fat.Refines
import MasterOS.Fat.Serves
import MasterOS.Fat.Shown
import MasterOS.Fat.Usage
import MasterOS.Console.Shell
import MasterOS.Console.Commands
import MasterOS.Console.Time
import MasterOS.Console.Numbers
import MasterOS.Console.Editing
import MasterOS.Console.History
import MasterOS.Console.LineEditor
import MasterOS.Console.Echo
import MasterOS.Console.Colours
import MasterOS.Console.WholeFiles
import MasterOS.Console.OnDisk
import MasterOS.Console.TypedFiles
import MasterOS.Device.PortIo
import MasterOS.Device.Pio
import MasterOS.Device.Bus
import MasterOS.Device.Transfers
import MasterOS.Device.Probe
import MasterOS.Fat.OnPorts
import MasterOS.Fat.Inside
import MasterOS.Device.Rtc
import MasterOS.Device.Cpu
import MasterOS.Interrupt.Idt
import MasterOS.Interrupt.Stubs
import MasterOS.Interrupt.Transparent
import MasterOS.Device.Pic
import MasterOS.Interrupt.Dispatch
import MasterOS.Interrupt.Drain
import MasterOS.Interrupt.Timer
import MasterOS.Interrupt.Keys
