import OperatingSystems.Malloc3.Origin
import OperatingSystems.Malloc3.Atomicity
import OperatingSystems.Malloc3.Separation
import OperatingSystems.Malloc3.RoundTrip
import OperatingSystems.Malloc3.Fallback
import OperatingSystems.Malloc3.Index
import OperatingSystems.Malloc3.MmapList
import OperatingSystems.Products
import OperatingSystems.Malloc1
import OperatingSystems.Malloc2.Refinement
import OperatingSystems.Malloc3.Refinement
import OperatingSystems.Malloc3.Placement
import OperatingSystems.WebServer.Service
import OperatingSystems.WebServer.Retirement
import OperatingSystems.WebServer.QueueIndex
import OperatingSystems.WebServer.Exchange
import OperatingSystems.Smash.Tracking
import OperatingSystems.Smash.Registration
import OperatingSystems.Smash.StopFlags
import OperatingSystems.Smash.Directory
import OperatingSystems.Smash.Background
import OperatingSystems.Smash.Arguments
import OperatingSystems.Smash.Pipelines
import OperatingSystems.Smash.Sessions
import OperatingSystems.Smash.Tail
import OperatingSystems.Smash.Timeout
import OperatingSystems.Smash.Touch
