import MierOS.Memory.StatusPages
import MierOS.Memory.KernelHint
import MierOS.Memory.PPage
import MierOS.Memory.KBuffer
import MierOS.Stdlib.Vector
import MierOS.Tasking.CopyOnWrite
import MierOS.Tasking.FileFork
import MierOS.Tasking.FileIsolation
import MierOS.Tasking.SharedMemory
import MierOS.Tasking.Exit
import MierOS.Tasking.DupStream
import MierOS.Tasking.StreamLifetime
import MierOS.Tasking.OneCore
import MierOS.Tasking.ThreadTable
import MierOS.Tasking.Futex
import MierOS.Streams.Pipe
import MierOS.Streams.LineDiscipline
import MierOS.Locking.RecursiveMutex
import MierOS.Event.EventManager
import MierOS.Fs.PathComposition
import MierOS.Fs.AbsoluteLinks
import MierOS.Fs.InitRdOrder
import MierOS.Streams.Directory
import MierOS.Userspace.LibOpt
import MierOS.Modules.Link
import MierOS.Modules.LoadErrors
import MierOS.Ext2.BlockMap
import MierOS.Ext2.ShortRead
import MierOS.Ext2.Listing
import MierOS.Serial.Fifo
import MierOS.Fs.SystemFs
import MierOS.Fs.ResolvePath
import MierOS.Ahci.Prdt
import MierOS.Ext2.Map
import MierOS.Tasking.FreeAddr
import MierOS.Tasking.ExecSegments
import MierOS.Stdlib.ListCopy
import MierOS.Stdlib.RangeCanonical
import MierOS.Tasking.OptimalThread
import MierOS.Userspace.ModuleAliases
import MierOS.Arch.Cores
import MierOS.Fs.DeviceFs
import MierOS.Event.EventRoundTrip
import MierOS.Util.Uuid
import MierOS.Stdlib.MemFind
import MierOS.Tasking.SleepQueue
import MierOS.Streams.ParityMarks
import MierOS.Ext2.InodeLocation
import MierOS.Locking.Semaphore
import MierOS.Stdlib.StrMatch
import MierOS.Event.Uevent
import MierOS.Stdlib.MapIterator
import MierOS.Stdlib.NumToString
import MierOS.Memory.LiballocBoot
