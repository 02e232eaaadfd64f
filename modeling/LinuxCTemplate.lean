import LinuxCTemplate.Initops.Teardown
import LinuxCTemplate.Initops.StartUp
import LinuxCTemplate.Threadwq.Polling
import LinuxCTemplate.Threadwq.Wakeup
import LinuxCTemplate.Threadwq.Idle
import LinuxCTemplate.Threadwq.ExitCounter
import LinuxCTemplate.Threadwq.Rr4idle
import LinuxCTemplate.Mempool.Failure
import LinuxCTemplate.Mempool.Sizing
import LinuxCTemplate.Mempool.Callbacks
import LinuxCTemplate.Mempool.Peak
import LinuxCTemplate.Main.SingleInstance
import LinuxCTemplate.Main.Termination
import LinuxCTemplate.Fio.Streaming
import LinuxCTemplate.Fio.Session
import LinuxCTemplate.Lgu.Asciidump
import LinuxCTemplate.Lgu.HexdumpRows
import LinuxCTemplate.Lgu.ListWalks
import LinuxCTemplate.Lgu.HlistWalks
