import Xv6Fs.Param
import Xv6Fs.Disk
import Xv6Fs.Balloc
import Xv6Fs.Bmap
import Xv6Fs.ReadWrite
import Xv6Fs.Content
import Xv6Fs.Pointers
import Xv6Fs.Allocate
import Xv6Fs.Transfer
import Xv6Fs.Truncate
import Xv6Fs.Cache
import Xv6Fs.Dir
import Xv6Fs.Path
import Xv6Fs.Sysfile
import Xv6Fs.Boot
import Xv6Fs.Invariant
import Xv6Fs.CacheSpec
import Xv6Fs.PathSpec
import Xv6Fs.DirSpec
import Xv6Fs.SysfileSpec
import Xv6Fs.NoHoles
import Xv6Fs.FileContent
import Xv6Fs.BlockMap
import Xv6Fs.PathElems
import Xv6Fs.CacheIdentity
import Xv6Fs.Kalloc
import Xv6Fs.KallocLocks
import Xv6Fs.Nsh
import Xv6Fs.Umalloc
import Xv6Fs.OpenFiles
import Xv6Fs.FileWrite
import Xv6Fs.Frames
import Xv6Fs.Descriptors
import Xv6Fs.FileTable
import Xv6Fs.Resolve
import Xv6Fs.Namespace
