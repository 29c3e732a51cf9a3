import Cdm.Lib.ByteFile
import Cdm.Lib.ListUpdate
import Cdm.Lib.Run
import Cdm.Core.Download
import Cdm.Persistence.Db
import Cdm.Utils.Path
import Cdm.Engine.Segmenter
import Cdm.Engine.World
import Cdm.Engine.WorkerPool
import Cdm.Engine.Runner
import Cdm.Engine.Steps
import Cdm.Engine.Session
import Cdm.Engine.Plan
import Cdm.Engine.Splits
import Cdm.Engine.Orderly
import Cdm.Engine.Tiling
import Cdm.Engine.Layout
import Cdm.Engine.Progress
import Cdm.Engine.Misplaced
import Cdm.Engine.Ranged
import Cdm.Engine.WholeFile
import Cdm.Engine.Effects
import Cdm.Engine.Crash
import Cdm.Core.QueueManager
import Cdm.Core.Scheduler
import Cdm.Platform.IpcSocket
import Cdm.Daemon.Threads
import Cdm.Daemon.Steps
import Cdm.Daemon.Moves
import Cdm.Daemon.Ownership
import Cdm.Daemon.Terminal
import Cdm.Daemon.Stored
import Cdm.Daemon.Acknowledged
import Cdm.Daemon.Service
import Cdm.Daemon.ByUser
import Cdm.Daemon.Tasks
import Cdm.Daemon.Treats
import Cdm.Daemon.Cleanup
import Cdm.Daemon.Paths
import Cdm.Lib.Tiles
import Cdm.Engine.Partition
import Cdm.Engine.Wiring
import Cdm.Engine.ExactlyOnce
import Cdm.Daemon.Admission
import Cdm.Engine.Mirror
import Cdm.Engine.Recovery
import Cdm.Daemon.Backed
import Cdm.Daemon.Reports
import Cdm.Persistence.Sqlite
import Cdm.Persistence.Restore
import Cdm.Platform.BrowserOffers
import Cdm.Lib.Wire
import Cdm.Platform.Protocol
import Cdm.Platform.ListAll
import Cdm.Platform.Messages
import Cdm.Platform.Clients
import Cdm.Utils.Config
import Cdm.Platform.Server
import Cdm.Platform.Requests
import Cdm.Platform.AddRequest
import Cdm.Platform.Poll
import Cdm.Platform.Frames
import Cdm.Platform.Framing
import Cdm.Platform.Bandwidth
import Cdm.Daemon.Ids
import Cdm.Daemon.RetryMoves
import Cdm.Daemon.Retries
import Cdm.Engine.Stealing
import Cdm.Engine.Overtaken
import Cdm.Lib.Toml
import Cdm.Utils.ConfigSaved
import Cdm.Lib.Pathname
import Cdm.Lib.FileTree
import Cdm.Platform.FileIo
import Cdm.Core.SafeDest
import Cdm.Platform.CurlHead
import Cdm.Engine.Unsized
import Cdm.Daemon.Persisted
import Cdm.Lib.RingBuffer
import Cdm.Gui.ConnectionEvents
import Cdm.Gui.Commands
import Cdm.Engine.Accounting
import Cdm.Platform.Reservation
import Cdm.Lib.BlockStream
import Cdm.Lib.Sha256
import Cdm.Platform.Sha256
import Cdm.Engine.Finalize
import Cdm.Platform.DaemonAutostart
import Cdm.Platform.Autostart
import Cdm.Gui.EventQueue
import Cdm.Platform.ToggleHidden
import Cdm.Core.Backoff
import Cdm.Core.Containment
import Cdm.Platform.AutostartStatus
import Cdm.Browser.Bridge
import Cdm.Browser.LateAnswers
import Cdm.Daemon.Instance
import Cdm.Platform.RequestJson
import Cdm.Gui.PopupProgress
import Cdm.Gui.StatusEvents
import Cdm.Daemon.Listed
import Cdm.Gui.Rows
import Cdm.Gui.CommandLink
import Cdm.Gui.AnswersInStep
