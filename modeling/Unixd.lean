import Unixd.Secrets
import Unixd.Lib.System
import Unixd.SecretThreads
import Unixd.Lib.Fields
import Unixd.Lib.Utf8
import Unixd.Lib.SortedMap
import Unixd.Lib.Json
import Unixd.Lib.Value
import Unixd.Envelope
import Unixd.Frame
import Unixd.Lib.Schema
import Unixd.Transport
import Unixd.SingleFlight
import Unixd.Serve
import Unixd.Lib.UnitFile
import Unixd.Install
import Unixd.Lib.Prog
import Unixd.Lib.Rely
import Unixd.Lib.Total
import Unixd.Lib.Alone
import Unixd.Cache.Names
import Unixd.Cache.Scene
import Unixd.Cache.Entry
import Unixd.Cache.KeyBytes
import Unixd.Cache.Prune
import Unixd.Cache.KeyLock
import Unixd.Cache.Scan
import Unixd.Cache.Invariant
import Unixd.Cache.Step
import Unixd.Cache.Changes
import Unixd.Cache.Upkeep
import Unixd.Cache.Alone
import Unixd.Cache.Files
import Unixd.Cache.Pruned
import Unixd.Cache.Outcome
import Unixd.Cache.Opened
import Unixd.Cache.Removed
import Unixd.Cache.Stored
import Unixd.Cache.Failing
import Unixd.Cache.Others
import Unixd.Cache.Calls
import Unixd.Cache.Locking
import Unixd.Cache.Reading
import Unixd.Cache.Storing
import Unixd.Cache.Sweeping
import Unixd.Cache.Pruning
import Unixd.Cache.Agents
import Unixd.Cache.Session
import Unixd.Cache.Exclusion
import Unixd.Cache.LockFiles
import Unixd.Cache.Codec
import Unixd.Cache.Horizon
import Unixd.Cache.History
import Unixd.Durations
import Unixd.Cache.Unread
import Unixd.Cache.Looked
import Unixd.Cache.Turns
import Unixd.Cache.Served
import Unixd.Cache.Aged
import Unixd.Cache.Opening
import Unixd.Cache.Openers
import Unixd.Cache.Written
import Unixd.Cache.Held
