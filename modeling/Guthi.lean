import Guthi.Filesystem.DecodeBounds
import Guthi.Filesystem.Consumers
import Guthi.Filesystem.MergeFiles
import Guthi.Filesystem.MergeUnique
import Guthi.Filesystem.MergeFrame
import Guthi.Filesystem.MergeShared
import Guthi.Filesystem.RemoveFile
import Guthi.Filesystem.Redecoding
import Guthi.Filesystem.CachePaths
import Guthi.Core.CApi
import Guthi.Core.CApiMemory
import Guthi.Core.Publish
import Guthi.FileTrack.Bijection
import Guthi.FileTrack.Listen
import Guthi.FileTrack.WindowsBounds
import Guthi.FileTrack.WindowsRequests
import Guthi.Daemon.MainLoop
import Guthi.Daemon.Payload
import Guthi.Daemon.Shutdown
import Guthi.Event.EventQueue
import Guthi.Runtime.LeftoverRead
import Guthi.SharedMemory.Semaphore
import Guthi.SharedMemory.Reader
import Guthi.Core.Consistency
import Guthi.SharedMemory.Messages
import Guthi.FileTrack.Directories
import Guthi.Runtime.SecondPhase
import Guthi.Runtime.MemAvailable
import Guthi.Filesystem.BufWriter
import Guthi.Filesystem.ScanfTokens
import Guthi.Filesystem.PrintfScanf
import Guthi.Filesystem.ReaderWindow
import Guthi.Runtime.Lexical
import Guthi.Daemon.Notifications
import Guthi.FileTrack.WindowsFiles
import Guthi.SharedMemory.SemaphoreWindows
import Guthi.SharedMemory.SemaphoreUndo
import Guthi.Filesystem.CacheMemory
import Guthi.Filesystem.Exchange
import Guthi.Daemon.CatchUp
import Guthi.Daemon.Reports
