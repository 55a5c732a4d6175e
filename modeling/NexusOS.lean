import NexusOS.Mm.HeapAccounting
import NexusOS.Mm.PagingUser
import NexusOS.Mm.PagingInit
import NexusOS.Core.IpcFifo
import NexusOS.Core.ElfPages
import NexusOS.Fs.Contents
import NexusOS.Fs.MkdirPath
import NexusOS.Core.HeapBreak
import NexusOS.Core.ExitCodes
import NexusOS.Core.FileCapabilities
import NexusOS.Core.SequentialRead
import NexusOS.Core.EventQueue
import NexusOS.Core.EventWait
import NexusOS.Core.ModulesLoad
import NexusOS.Fs.Fat32.Termination
import NexusOS.Shell.ParserCorrect
import NexusOS.Shell.Execute
import NexusOS.Packages.FileList
import NexusOS.Packages.Discover
import NexusOS.Drivers.Keyboard
import NexusOS.Drivers.Mouse
import NexusOS.Drivers.HidRing
import NexusOS.Drivers.E1000
import NexusOS.Drivers.NvmeQueues
import NexusOS.Drivers.ConsoleBounds
import NexusOS.Tools.LongNames
import NexusOS.Tools.Fat16Image
import NexusOS.Tools.GptImage
import NexusOS.Tools.FatParams
import NexusOS.Boot.LoadElfImage
import NexusOS.Core.Environment
import NexusOS.Core.Checksum
import NexusOS.Shell.Calc
import NexusOS.Shell.History
import NexusOS.Gui.Rect
import NexusOS.Gui.HitTest
import NexusOS.Boot.Smbios
