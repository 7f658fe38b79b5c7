import NebulaToolkit.ByteStream
import NebulaToolkit.Callbacks
import NebulaToolkit.Completeness
import NebulaToolkit.ConfigMonitor
import NebulaToolkit.ConfigUpdate
import NebulaToolkit.Connections
import NebulaToolkit.ElementVectors
import NebulaToolkit.EventBatch
import NebulaToolkit.Extraction
import NebulaToolkit.FirstOccurrence
import NebulaToolkit.HandlerTasks
import NebulaToolkit.IniFile
import NebulaToolkit.Iteration
import NebulaToolkit.Junk
import NebulaToolkit.LogProgress
import NebulaToolkit.LogRotation
import NebulaToolkit.Placement
import NebulaToolkit.PoolOrder
import NebulaToolkit.Producers
import NebulaToolkit.Resize
import NebulaToolkit.Resync
import NebulaToolkit.RingMutex
import NebulaToolkit.Slices
import NebulaToolkit.SocketLoops
import NebulaToolkit.TcpSession
import NebulaToolkit.Teardown
import NebulaToolkit.Termination
import NebulaToolkit.ThreadPool
import NebulaToolkit.TimedProgress
import NebulaToolkit.TimerCancel
import NebulaToolkit.TimerTimes
import NebulaToolkit.TimerWait
import NebulaToolkit.UdpSession
import NebulaToolkit.VectorStream
import NebulaToolkit.Windows
