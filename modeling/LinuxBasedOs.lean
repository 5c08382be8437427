import LinuxBasedOs.Run
import LinuxBasedOs.BitField
import LinuxBasedOs.Bytes
import LinuxBasedOs.Image
import LinuxBasedOs.ReadData
import LinuxBasedOs.Screen
import LinuxBasedOs.Keyboard
import LinuxBasedOs.TerminalRead
import LinuxBasedOs.Pcb
import LinuxBasedOs.Paging
import LinuxBasedOs.Kernel
import LinuxBasedOs.Filesys
import LinuxBasedOs.Drivers
import LinuxBasedOs.SysCalls
import LinuxBasedOs.Process
import LinuxBasedOs.ProcessRuns
import LinuxBasedOs.Stream
import LinuxBasedOs.Linkage
import LinuxBasedOs.UserPointers
import LinuxBasedOs.LineEditor
import LinuxBasedOs.TextRows
import LinuxBasedOs.TerminalWrite
import LinuxBasedOs.Directory
import LinuxBasedOs.Listing
import LinuxBasedOs.Cdecl
import LinuxBasedOs.Dispatch
import LinuxBasedOs.Loader
import LinuxBasedOs.Dentries
import LinuxBasedOs.CommandLine
import LinuxBasedOs.EndOfFile
import LinuxBasedOs.KeyBuffer
import LinuxBasedOs.Modifiers
import LinuxBasedOs.Echo
import LinuxBasedOs.Interrupts
import LinuxBasedOs.Itoa
import LinuxBasedOs.Printf
import LinuxBasedOs.Lines
import LinuxBasedOs.Grep
import LinuxBasedOs.Blink
import LinuxBasedOs.Ia32
import LinuxBasedOs.MemoryRoutines
import LinuxBasedOs.Isolation
import LinuxBasedOs.I8259
import LinuxBasedOs.PicDriver
import LinuxBasedOs.InterruptTable
import LinuxBasedOs.Interaction
import LinuxBasedOs.Frames
import LinuxBasedOs.Program
import LinuxBasedOs.Display
import LinuxBasedOs.UserStubs
import LinuxBasedOs.Utilities
import LinuxBasedOs.SelfTest
import LinuxBasedOs.Shell
import LinuxBasedOs.Overrun
