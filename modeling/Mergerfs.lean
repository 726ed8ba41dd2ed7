import Mergerfs.Library.Program
import Mergerfs.Library.Along
import Mergerfs.Library.Scan
import Mergerfs.Basic.Branch
import Mergerfs.Basic.Str
import Mergerfs.Basic.Num
import Mergerfs.Basic.Dirname
import Mergerfs.Basic.Resources
import Mergerfs.Policy.Search
import Mergerfs.Policy.Optimum
import Mergerfs.Policy.Vector
import Mergerfs.Fuse.Call
import Mergerfs.Fuse.Rename
import Mergerfs.Fuse.Segment
import Mergerfs.Fuse.Outcome
import Mergerfs.Fuse.Cleanup
import Mergerfs.Fuse.Operation
import Mergerfs.Fuse.ReadOnly
import Mergerfs.Library.LowerBound
import Mergerfs.Ugid.Cache
import Mergerfs.Ugid.Set
import Mergerfs.Ugid.Groups
import Mergerfs.Library.Rwlock
import Mergerfs.Ugid.Rwlock
import Mergerfs.Fs.Copy
import Mergerfs.Fs.Fallback
import Mergerfs.Fs.Copyfile
import Mergerfs.Fs.Xattr
import Mergerfs.Library.Vfs
import Mergerfs.Fs.Movefile
import Mergerfs.Fs.MoveFailure
import Mergerfs.Fs.Destination
import Mergerfs.Fuse.Write
import Mergerfs.Fuse.Transfer
import Mergerfs.Ugid.Provenance
import Mergerfs.Fs.Source
import Mergerfs.Fs.StatvfsCache
import Mergerfs.Policy.Cache
import Mergerfs.Fuse.Open
import Mergerfs.Policy.CacheThreads
import Mergerfs.Fuse.PolicyChange
import Mergerfs.Fuse.Clone
import Mergerfs.Fuse.Link
import Mergerfs.Fuse.LinkCreate
import Mergerfs.Fuse.FirstError
import Mergerfs.Fuse.Coherence
import Mergerfs.Fuse.Control
import Mergerfs.Library.Distinct
import Mergerfs.Fuse.Readdir
import Mergerfs.Fuse.ControlKey
import Mergerfs.Fuse.ControlRequest
import Mergerfs.Fuse.Branchlist
import Mergerfs.Library.Records
import Mergerfs.Fuse.Statfs
import Mergerfs.Fuse.StatfsAvail
import Mergerfs.Fuse.StatfsSize
import Mergerfs.Basic.Fsname
import Mergerfs.Ugid.Records
import Mergerfs.Fuse.Getxattr
import Mergerfs.Fuse.PolicySettings
import Mergerfs.Fs.CloneErrno
import Mergerfs.Fs.Cow
import Mergerfs.Fs.Utime
import Mergerfs.Fs.Clonepath
import Mergerfs.Fs.ClonepathMetadata
import Mergerfs.Libfuse.Node
import Mergerfs.Libfuse.NodeTree
import Mergerfs.Libfuse.NodeAdd
import Mergerfs.Libfuse.NodeMove
import Mergerfs.Libfuse.NodeLoad
import Mergerfs.Libfuse.NodeRun
import Mergerfs.Libfuse.Treelock
import Mergerfs.Libfuse.TreelockKeep
import Mergerfs.Libfuse.TreelockRun
import Mergerfs.Libfuse.TreelockStuck
import Mergerfs.Fs.ClonepathBranches
