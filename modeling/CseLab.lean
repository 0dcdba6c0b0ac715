import CseLab.Ydb.Occ.Alone
import CseLab.Ydb.Occ.Generations
import CseLab.Ydb.Occ.Conflict
import CseLab.Ydb.Ids
import CseLab.Ydb.TwoPL.Alone
import CseLab.Ydb.TwoPL.Info
import CseLab.Ydb.TwoPL.Deadlock
import CseLab.Ydb.Plain
import CseLab.Ydb.Keys
import CseLab.Ydb.Agree
import CseLab.LockCache.System
import CseLab.LockCache.Stranded
import CseLab.LockServer
import CseLab.Inode.Full
import CseLab.Rpc.Window
import CseLab.Rpc.Call
import CseLab.Extent.Refine
import CseLab.Extent.Mount
import CseLab.Extent.Times
import CseLab.Yfs.Content
import CseLab.Yfs.Dir
import CseLab.Yfs.Directory
import CseLab.Yfs.Namespace
import CseLab.Yfs.Concurrent
import CseLab.Yfs.TypeCache
import CseLab.Lib.Line
import CseLab.Lib.Settles
import CseLab.LockCache.Server
import CseLab.Ydb.Finished
import CseLab.Yfs.Names
import CseLab.Yfs.Reading
import CseLab.Extent.Server
import CseLab.Lab2.Bitmap
import CseLab.Lab2.Law
import CseLab.Lab2.Tail
import CseLab.Lab2.Client
import CseLab.Rpc.Deadline
import CseLab.Rpc.Acks
import CseLab.Inode.Source
import CseLab.Rpc.RoundTrip
import CseLab.Rpc.Fifo
import CseLab.Rpc.Shutdown
import CseLab.Rpc.Channel
import CseLab.Rpc.PollMgr
import CseLab.Rpc.Served
import CseLab.Rpc.Sharing
import CseLab.Rpc.Cancel
