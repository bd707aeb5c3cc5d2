import XnuXzs.Xzsfs.RoundTrip
import XnuXzs.Emmc.Strategy
import XnuXzs.Bpf.Flatten
import XnuXzs.Journal.Overlay
import XnuXzs.Journal.Termination
import XnuXzs.Journal.Accesses
import XnuXzs.OSObject.RoundTrip
import XnuXzs.DataQueue.Wakeup
import XnuXzs.Hfs.CatalogLeaf
import XnuXzs.DataQueue.Hostile
import XnuXzs.Ipc.HashPegged
import XnuXzs.CodeSign.CodeSlot
import XnuXzs.Ipc.Growing
import XnuXzs.Pipe.Stream
import XnuXzs.SysvSem.Atomic
import XnuXzs.SysvSem.Clear
import XnuXzs.Tcp.Reassembly
import XnuXzs.Tcp.SackRuns
import XnuXzs.DeviceTree.Calls
import XnuXzs.DeviceTree.RoundTrip
import XnuXzs.MpscQueue.Complete
import XnuXzs.MpscRing.Wrap
import XnuXzs.Frag6.Runs
import XnuXzs.IpReass.Sound
import XnuXzs.BootArgs.Parse
import XnuXzs.Bootshim.Crc
import XnuXzs.Bootshim.Fdt
import XnuXzs.Simg.Convert
import XnuXzs.Xzsfs.Pagein
import XnuXzs.Xzsfs.Readdir
import XnuXzs.Framebuffer.Reference
import XnuXzs.Gpu.Blit
import XnuXzs.Hfs.Blockmap
import XnuXzs.Ledger.Refill
import XnuXzs.Rpm.Receive
import XnuXzs.Tty.Ndqb
