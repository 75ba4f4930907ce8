import Ln882x.Nor.Flash
import Ln882x.Nor.Trace
import Ln882x.Nor.Wp
import Ln882x.Nor.Loop
import Ln882x.Nvds.Store
import Ln882x.Nvds.Atomic
import Ln882x.Nvds.Fields
import Ln882x.Nvds.Overlay
import Ln882x.Kv.Index
import Ln882x.Kv.Store
import Ln882x.Kv.Effects
import Ln882x.Kv.Counters
import Ln882x.Kv.Layout
import Ln882x.Kv.Walk
import Ln882x.Kv.Invariant
import Ln882x.Kv.Find
import Ln882x.Kv.Collect
import Ln882x.Kv.Space
import Ln882x.Kv.Contents
import Ln882x.Kv.Save
import Ln882x.Kv.Calls
import Ln882x.Kv.Boot
import Ln882x.Kv.Recover
import Ln882x.Kv.Scan
import Ln882x.Kv.Init
import Ln882x.Kv.Decode
import Ln882x.Kv.Running
import Ln882x.Kv.Runs
import Ln882x.Kv.Semantics
import Ln882x.Kv.Accepted
import Ln882x.Kv.Lookalike
import Ln882x.Kv.Termination
import Ln882x.Kv.Workspace
import Ln882x.Dhcpd.Stability
import Ln882x.Dhcpd.Start
import Ln882x.Tlv.Walk
import Ln882x.Dhcpd.Options
import Ln882x.Dhcpd.Lookup
import Ln882x.Dhcpd.Receive
import Ln882x.Dhcpd.Replies
import Ln882x.SmartCfg.Transfer
import Ln882x.SmartCfg.Bounds
import Ln882x.Sysparam.RoundTrip
import Ln882x.Ota.Download
import Ln882x.Ota.Staging
import Ln882x.Ota.Attempts
import Ln882x.Ota.Commit
import Ln882x.Ota.Agent
import Ln882x.Ota.Callbacks
import Ln882x.Ota.Restore
import Ln882x.Ota.Containment
import Ln882x.Ota.Steering
import Ln882x.Ota.Failure
import Ln882x.Ota.Blocks
import Ln882x.Ota.Pieces
import Ln882x.Crc.Reflected
import Ln882x.Ota.Checksum
import Ln882x.Ota.Partitions
import Ln882x.Text.Search
import Ln882x.SoftApCfg.Provision
import Ln882x.Atcmd.Parser
import Ln882x.Http.Independence
import Ln882x.Http.Body
import Ln882x.Http.Upload
import Ln882x.Http.Fields
import Ln882x.Hal.Program
import Ln882x.Hal.Read
import Ln882x.Runtime.Ticks
import Ln882x.Unicode.Recognise
import Ln882x.Unicode.Big5
import Ln882x.Unicode.Gbk
import Ln882x.Text.MacAddress
import Ln882x.Runtime.MemPool
import Ln882x.Serial.Reader
import Ln882x.Serial.Transmit
import Ln882x.Sleep.Interrupts
import Ln882x.Ota.RangeCoder
import Ln882x.Atcmd.Strings
import Ln882x.Crc.Burst
import Ln882x.Hal.Driver
import Ln882x.Kernel.Delay
import Ln882x.Kernel.DelayClock
import Ln882x.Kernel.DelayPlaces
import Ln882x.Kernel.HeapInvariant
import Ln882x.Kernel.HeapRuns
import Ln882x.Kernel.Queue
import Ln882x.Kernel.QueueItems
import Ln882x.Kernel.QueueRuns
import Ln882x.Kernel.QueueWaits
import Ln882x.Kernel.QueueServed
import Ln882x.Kernel.QueueTimeOut
import Ln882x.Nvds.Chip
import Ln882x.Ota.Damage
import Ln882x.SmartCfg.Damage
