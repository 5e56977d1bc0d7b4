import Uwisc.Bin.Diff.Check
import Uwisc.Bin.Diff.Context
import Uwisc.Bin.Sh
import Uwisc.Compress.Pairs
import Uwisc.Decompress.Safe
import Uwisc.Etc.Dump.Needed
import Uwisc.Etc.Fsck.Chunk
import Uwisc.Etc.Fsck.Inode.Map
import Uwisc.Etc.Restore.Exact
import Uwisc.Libc.Crypt
import Uwisc.Libc.Malloc.Run
import Uwisc.Libc.Random.Streams
import Uwisc.Libc.ResComp.Hostile
import Uwisc.Libc.ResComp.Run
import Uwisc.Libc.Stdio
import Uwisc.Libmp.Pow
import Uwisc.Libmp.Text
import Uwisc.Libmp.Trace
import Uwisc.Netinet.Cksum
import Uwisc.Netinet.Ip.Fragment
import Uwisc.Netinet.Ip.Srcroute.Reply
import Uwisc.Netinet.Pcb.Run
import Uwisc.Netinet.Tcp.Stream
import Uwisc.Netinet.Tcp.Trim
import Uwisc.Nfs.Read
import Uwisc.Nfs.Readdir.Exact
import Uwisc.Nfs.Remove.Run
import Uwisc.Nfs.Write.Run
import Uwisc.Rpc.Authkern
import Uwisc.Rpc.Kudp.Dup
import Uwisc.Rpc.Kudp.Send
import Uwisc.Rpc.Rec.Trip
import Uwisc.Rpc.Xdr.Counted
import Uwisc.Sendmail.Prescan.Exact
import Uwisc.Sendmail.Rewrite.Subst
import Uwisc.Sys.Bio.Transparent
import Uwisc.Sys.Dnlc.Run
import Uwisc.Sys.Kmem.Run
import Uwisc.Sys.Kmem.Defer
import Uwisc.Sys.Mbuf.Adj
import Uwisc.Sys.Mbuf.Copy
import Uwisc.Sys.Mbuf.Pullup
import Uwisc.Sys.Rmap.Run
import Uwisc.Sys.Rmap.Swap
import Uwisc.Sys.Socket.Run
import Uwisc.Sys.Time.Adj
import Uwisc.Sys.Time.Real
import Uwisc.Sys.Tty.Run
import Uwisc.Sys.Uipc.Run
import Uwisc.Sys.Vm.Run
import Uwisc.Ufs.Alloc.Trace
import Uwisc.Ufs.Dsort
import Uwisc.Ufs.Map.Search
import Uwisc.Ufs.Quota
