import Jepsen.Control.Archive
import Jepsen.Etcd.Registers
import Jepsen.Generator.Absent
import Jepsen.Generator.Commit
import Jepsen.Generator.Confinement
import Jepsen.Generator.Content
import Jepsen.Generator.Deadline
import Jepsen.Generator.Discard
import Jepsen.Generator.Breaks
import Jepsen.Generator.Fairness
import Jepsen.Generator.Interleaving
import Jepsen.Generator.Spacing
import Jepsen.Printing
import Jepsen.Runner.Clock
import Jepsen.Runner.History
import Jepsen.Runner.Identity
import Jepsen.Runner.Lifecycle
import Jepsen.Runner.Recording
import Jepsen.Runner.Routing
import Jepsen.Runner.Supply
import Jepsen.Runner.Validity
import Jepsen.Runner.Windup
import Jepsen.Runner.Wrappers
import Jepsen.Control.Connection
import Jepsen.Sessions
import Jepsen.Control.Remote
import Jepsen.Etcd.Cluster
