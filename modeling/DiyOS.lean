import DiyOS.Lib.Run
import DiyOS.Lib.Memory
import DiyOS.Lib.Extent
import DiyOS.Switch
import DiyOS.InterruptTable
import DiyOS.Queue
import DiyOS.Ring
import DiyOS.Frame
import DiyOS.Heap.Growth
import DiyOS.Heap.Holes
import DiyOS.Heap.Modules
import DiyOS.Heap.Limits
import DiyOS.Paging.PageUpper
import DiyOS.Paging.PageFree
import DiyOS.Message
import DiyOS.Wait
import DiyOS.Sleep
import DiyOS.GuiLoop
import DiyOS.KeyPipeline
import DiyOS.KeyWakeup
import DiyOS.PortRouting
import DiyOS.MousePackets
import DiyOS.MouseBatches
import DiyOS.KeyState
import DiyOS.Listeners
import DiyOS.Fs.RoundTrip
import DiyOS.Fs.Descriptors
import DiyOS.Fs.Read
import DiyOS.Fs.TarWalk
import DiyOS.Fs.Unsupported
import DiyOS.Fs.Readdir
import DiyOS.Fs.PathWrites
import DiyOS.Elf.Refuse
import DiyOS.Elf.Sections
import DiyOS.Elf.Symbols
import DiyOS.Elf.Reloc
import DiyOS.Stdio.Signed
import DiyOS.Stdio.Scan
import DiyOS.ConsoleLines
import DiyOS.Gfx.Flip
import DiyOS.Gfx.Iconset
import DiyOS.Gfx.Bmp
import DiyOS.Gui.Traversal
import DiyOS.Gui.NavigatorFiles
import DiyOS.Gui.EditField
import DiyOS.Gui.ActiveWindow
import DiyOS.Fs.Below
import DiyOS.QueueForeach
import DiyOS.Acpi
import DiyOS.FrameBlocks
import DiyOS.Gui.Focus
import DiyOS.Gui.Label
import DiyOS.Gui.Clicks
