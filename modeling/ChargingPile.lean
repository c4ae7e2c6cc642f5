import ChargingPile.Lib.Machine
import ChargingPile.Thing.Port
import ChargingPile.Thing.Basic
import ChargingPile.Thing.Local
import ChargingPile.Thing.Calls
import ChargingPile.Thing.Invariant
import ChargingPile.Thing.Published
import ChargingPile.Thing.Limiter
import ChargingPile.Thing.Report
import ChargingPile.Lib.Wire
import ChargingPile.Packet.Basic
import ChargingPile.Packet.RoundTrip
import ChargingPile.Packet.Resync
import ChargingPile.Lib.Flash
import ChargingPile.Lib.Link
import ChargingPile.Ota.Basic
import ChargingPile.Ota.Lower
import ChargingPile.Ota.Upper
import ChargingPile.Ota.Transfer
import ChargingPile.Ota.Failures
import ChargingPile.Ota.Resume
import ChargingPile.Ota.Integrity
import ChargingPile.Thing.Backup
import ChargingPile.Thing.Counter
import ChargingPile.Thing.Resume
import ChargingPile.Thing.Noload
import ChargingPile.Thing.Isolation
import ChargingPile.Cloud
import ChargingPile.Rpc.Basic
import ChargingPile.Rpc.Callbacks
import ChargingPile.Rpc.Lost
import ChargingPile.Rpc.Delivery
import ChargingPile.Handshake.Basic
import ChargingPile.Uart
import ChargingPile.AppState
import ChargingPile.Handshake.Agreement
import ChargingPile.UserInput
import ChargingPile.Thing.Initialised
import ChargingPile.Detector
import ChargingPile.Lib.RoundRobin
import ChargingPile.Thing.Schedule
import ChargingPile.Lib.SortedMap
import ChargingPile.Serializer
import ChargingPile.Rpc.Limits
import ChargingPile.Packet.Corruption
import ChargingPile.Ota.Progress
import ChargingPile.Ota.Percent
import ChargingPile.PersistentStorage
import ChargingPile.AirMqttClient
import ChargingPile.AliIotDevice
import ChargingPile.Lib.StateReader
import ChargingPile.Serializer.Graph
import ChargingPile.Serializer.Isomorphism
import ChargingPile.Json.Heap
import ChargingPile.Json.Document
import ChargingPile.Json.Operations
import ChargingPile.Json.Assignment
import ChargingPile.Json.Locality
import ChargingPile.Player
import ChargingPile.Lib.Grid
import ChargingPile.Retry
import ChargingPile.Ui.ProgressWidget
import ChargingPile.Ui.Core
import ChargingPile.Keyboard
import ChargingPile.Post.Basic
import ChargingPile.Post.Delivery
import ChargingPile.Json.InitList
import ChargingPile.Eeprom.Cache
import ChargingPile.Eeprom.Basic
import ChargingPile.Eeprom.Transparent
import ChargingPile.Eeprom.Make
import ChargingPile.Idx.Asset
import ChargingPile.Eeprom.Table
import ChargingPile.Idx.Basic
import ChargingPile.Idx.Coherent
import ChargingPile.Lib.Ring
import ChargingPile.Eeprom.Direct
import ChargingPile.Eeprom.Heap
import ChargingPile.Eeprom.Alloc
import ChargingPile.Eeprom.Refine
import ChargingPile.Json.RoundTrip
import ChargingPile.Json.Safety
import ChargingPile.Loader.Basic
import ChargingPile.Loader.Follow
import ChargingPile.Loader.Guard
import ChargingPile.Cloud.Service
import ChargingPile.Lib.Stream
import ChargingPile.Packet.Accept
import ChargingPile.Thing.Powered
import ChargingPile.Thing.Asked
import ChargingPile.Cloud.Remote
