import Kernel391.Lib.Run
import Kernel391.Lib.Bytes
import Kernel391.Lib.X86
import Kernel391.Lib.CallStacks
import Kernel391.Lib.Mailbox
import Kernel391.Basic
import Kernel391.FileSystem
import Kernel391.FileSystemProof
import Kernel391.PagingProof
import Kernel391.ConsoleProof
import Kernel391.KeyboardProof
import Kernel391.Process
import Kernel391.ProcessProof
import Kernel391.DescriptorProof
import Kernel391.StreamProof
import Kernel391.ProcessRun
import Kernel391.SchedulerProof
import Kernel391.VideoProof
import Kernel391.TerminalProof
import Kernel391.Lib.Driven
import Kernel391.ReadDataProof
import Kernel391.DirectoryProof
import Kernel391.ReadProof
import Kernel391.ConsoleSim
import Kernel391.BlindProof
import Kernel391.ReuseProof
import Kernel391.ScreenProof
import Kernel391.Lib.Scrollback
import Kernel391.RenderingProof
import Kernel391.BackgroundProof
import Kernel391.CommandProof
import Kernel391.ArgumentsProof
import Kernel391.LaunchProof
import Kernel391.Lib.History
import Kernel391.PicProof
import Kernel391.Lib.Loop
import Kernel391.RtcProof
import Kernel391.TypingProof
import Kernel391.EchoProof
import Kernel391.Lib.Fuel
import Kernel391.Lib.Memory
import Kernel391.Lib.Asm
import Kernel391.MemoryOpsProof
import Kernel391.MemmoveProof
import Kernel391.Lib.Numeral
import Kernel391.ItoaProof
import Kernel391.PrintfSpec
import Kernel391.PrintfProof
import Kernel391.Lib.Interaction
import Kernel391.UserMode
import Kernel391.UserModeProof
import Kernel391.UserView
import Kernel391.UserViewProof
import Kernel391.AloneProof
import Kernel391.AloneRun
import Kernel391.Programs
import Kernel391.SupportProof
import Kernel391.ProcessHistory
import Kernel391.Progress
import Kernel391.ProgramsProof
import Kernel391.ProgramRuns
import Kernel391.Lib.Rings
import Kernel391.Linkage
import Kernel391.LinkageProof
