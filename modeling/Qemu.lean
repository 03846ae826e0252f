import Qemu.Lib.ByteWord
import Qemu.Lib.ByteMem
import Qemu.Lib.BitArith
import Qemu.Util.Cutils
import Qemu.Xbzrle
import Qemu.Migration.PageCache
import Qemu.Migration.QemuFile
import Qemu.Migration.ArchInit
import Qemu.Migration.Migrate
import Qemu.TargetI386.CcHelper
import Qemu.TargetI386.Translate
import Qemu.TargetI386.Eflags
import Qemu.Hw.UsbCore
import Qemu.Hw.UsbControl
import Qemu.Lib.ErrorState
import Qemu.Hw.Virtio
import Qemu.Hw.VirtioWalk
import Qemu.Lib.CInt
import Qemu.TargetI386.IntHelper
import Qemu.TargetI386.DivSpec
import Qemu.Lib.KeyedList
import Qemu.Qobject.Qdict
import Qemu.Qobject.QdictMap
import Qemu.Qobject.JsonLexer
import Qemu.Qobject.JsonStreamer
import Qemu.Qobject.JsonParser
import Qemu.Qobject.JsonNesting
import Qemu.Block.Request
import Qemu.XbzrleDecode
import Qemu.Migration.RamLoad
import Qemu.Ui.VncWs
import Qemu.Lib.PrefixMask
import Qemu.Cputlb
import Qemu.TranslateAll
import Qemu.Block.Qcow2Cluster
import Qemu.Util.QemuOption
import Qemu.Block.Cloop
import Qemu.Net.Queue
import Qemu.Fsdev.V9fsMarshal
import Qemu.Hw.VirtioNet
import Qemu.Hw.E1000
import Qemu.Lib.Bsearch
import Qemu.Memory.FlatView
import Qemu.Memory.Find
import Qemu.Memory.Topology
import Qemu.Exec.PhysPage
import Qemu.Lib.Scatter
import Qemu.Util.Iov
import Qemu.Lib.RingQueue
import Qemu.Char.Ringbuf
import Qemu.Util.HostUtils
import Qemu.Exec.PhysPageReserve
import Qemu.Migration.QemuFileBuffer
import Qemu.QemuTimer
import Qemu.Lib.WordBits
import Qemu.Util.Hbitmap
import Qemu.Util.HbitmapIter
import Qemu.Util.HbitmapRun
import Qemu.ThreadPool.Pool
import Qemu.ThreadPool.Safety
