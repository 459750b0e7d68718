import Tansu.Lib.OrdMap
import Tansu.Lib.System
import Tansu.Lib.Tasks
import Tansu.Lib.Sequential
import Tansu.Auth.Answers
import Tansu.Consumer.Division
import Tansu.Consumer.RoundTrip
import Tansu.Dynostore.Linearizable
import Tansu.Dynostore.Properties.Delivery
import Tansu.Dynostore.Properties.Direction
import Tansu.Dynostore.Properties.Idempotent
import Tansu.Dynostore.Properties.Isolation
import Tansu.Nvme.Sections
import Tansu.Nvme.Frame
import Tansu.Nvme.Scan
import Tansu.Nvme.Tier
import Tansu.Nvme.Properties.Dense
import Tansu.Nvme.Properties.Transactional
import Tansu.Nvme.Properties.Pins
import Tansu.Nvme.Properties.Direction
import Tansu.Nvme.Properties.Durability
import Tansu.Nvme.Properties.Reopen
import Tansu.Nvme.Properties.Idempotent
import Tansu.Nvme.Properties.Staged
import Tansu.Nvme.Properties.TailCache
import Tansu.Nvme.Properties.Bounds
import Tansu.Coordinator.Agreement
import Tansu.Coordinator.Commits
import Tansu.Coordinator.Linearizable
import Tansu.Coordinator.Protocols
import Tansu.Protocol.Panics
import Tansu.Records.RoundTrip
import Tansu.Storage.Sequences
import Tansu.Storage.Transparent
import Tansu.Storage.UpdateGroup
import Tansu.Proxy.Answers
import Tansu.Slate.Isolation
import Tansu.Slate.Direction
import Tansu.Service.Stream
