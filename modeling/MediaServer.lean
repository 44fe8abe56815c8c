import MediaServer.Foundation.Lists
import MediaServer.Foundation.Replace
import MediaServer.Foundation.Run
import MediaServer.Foundation.Program
import MediaServer.Bootstrap.Controllers
import MediaServer.Bootstrap.Components
import MediaServer.Bootstrap.StandaloneMediaServer
import MediaServer.Bootstrap.Activation
import MediaServer.Bootstrap.Failure
import MediaServer.Bootstrap.ServiceOrder
import MediaServer.Bootstrap.HeartbeatChain
import MediaServer.Configuration.CodecType
import MediaServer.Configuration.SpringMediaModule
import MediaServer.Assembly.ConfigurationDiscovery
import MediaServer.Foundation.Threads
import MediaServer.Bootstrap.DependencyOrder
import MediaServer.Bootstrap.ChainCount
import MediaServer.Bootstrap.WorkerPool
import MediaServer.Bootstrap.Invisibility
import MediaServer.Bootstrap.Countdown
import MediaServer.Bootstrap.Directory
import MediaServer.Bootstrap.Histories
import MediaServer.Bootstrap.Restart
import MediaServer.Assembly.FileNames
import MediaServer.Bootstrap.Liveness
