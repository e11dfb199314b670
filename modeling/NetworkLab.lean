import NetworkLab.Lib.Machine
import NetworkLab.Lib.TimedList
import NetworkLab.Lib.Slots
import NetworkLab.Lib.Store
import NetworkLab.Rdt.Packet
import NetworkLab.Rdt.Emulator
import NetworkLab.Rdt.Channel
import NetworkLab.Gbn.Protocol
import NetworkLab.Gbn.Window
import NetworkLab.Gbn.Safety
import NetworkLab.Gbn.Solo
import NetworkLab.Sr.Protocol
import NetworkLab.Sr.Sender
import NetworkLab.Sr.Receiver
import NetworkLab.Sr.Safety
import NetworkLab.Rdt.Refinement
import NetworkLab.Rdt.Solo
import NetworkLab.Rdt.Progress
import NetworkLab.Sr.Solo
import NetworkLab.Sr.Acks
import NetworkLab.Sr.Recovery
import NetworkLab.Gbn.Timer
import NetworkLab.Gbn.Recovery
import NetworkLab.Lib.Interaction
import NetworkLab.Backup.Utils
import NetworkLab.Backup.Message
import NetworkLab.Backup.System
import NetworkLab.Backup.Server
import NetworkLab.Backup.Traces
import NetworkLab.Backup.Events
import NetworkLab.Backup.Confinement
import NetworkLab.Backup.Isolation
import NetworkLab.Backup.Metrics
import NetworkLab.Backup.Ports
import NetworkLab.Backup.Files
import NetworkLab.Backup.Transfer
import NetworkLab.Backup.Replies
import NetworkLab.Backup.Rename
import NetworkLab.Backup.Closing
import NetworkLab.Backup.Http
import NetworkLab.Backup.HttpTraces
import NetworkLab.Backup.Atomic
import NetworkLab.Backup.SizeLimit
import NetworkLab.Backup.Failures
import NetworkLab.Backup.Client
import NetworkLab.Backup.Strings
import NetworkLab.Backup.Integrity
import NetworkLab.Lib.Guarded
import NetworkLab.Backup.Concurrent
import NetworkLab.Backup.Linearizable
import NetworkLab.Lib.Session
import NetworkLab.Backup.Names
import NetworkLab.Backup.Session
import NetworkLab.Backup.Wiring
import NetworkLab.Backup.Dialogue
import NetworkLab.Backup.Matching
import NetworkLab.Backup.FollowUps
import NetworkLab.Lib.EndAround
import NetworkLab.Rdt.Checksum
import NetworkLab.Gbn.Cumulative
import NetworkLab.Gbn.Stranding
import NetworkLab.Gbn.SingleTimer
import NetworkLab.Gbn.Queue
import NetworkLab.Sr.Holding
import NetworkLab.Sr.Commute
import NetworkLab.Sr.Rounds
import NetworkLab.Sr.Indices
import NetworkLab.Backup.Listing
import NetworkLab.Backup.WireNames
import NetworkLab.Backup.Validator
import NetworkLab.Lib.LexicalPath
import NetworkLab.Backup.Paths
import NetworkLab.Backup.Datagrams
import NetworkLab.Backup.CommandLine
import NetworkLab.Backup.Modes
import NetworkLab.Backup.Contract
import NetworkLab.Lib.NearestRank
import NetworkLab.Backup.Latency
import NetworkLab.Backup.SuccessRate
import NetworkLab.Lib.Threads
import NetworkLab.Backup.Counters
import NetworkLab.Backup.Counting
import NetworkLab.Backup.Recording
import NetworkLab.Lib.Digits
import NetworkLab.Backup.RequestIds
import NetworkLab.Backup.Sanitizer
import NetworkLab.Backup.Split
import NetworkLab.Lib.Memory
import NetworkLab.Lib.DoublyLinked
import NetworkLab.Rdt.Program
import NetworkLab.Rdt.Pointers
import NetworkLab.Rdt.MainLoop
import NetworkLab.Rdt.Handed
import NetworkLab.Sr.Lossless
import NetworkLab.Sr.Numbers
import NetworkLab.Lib.Pipe
import NetworkLab.Rdt.Service
import NetworkLab.Sr.Reordering
import NetworkLab.Gbn.Service
import NetworkLab.Rdt.Statistics
import NetworkLab.Gbn.Statistics
import NetworkLab.Sr.Statistics
import NetworkLab.Lab2.Server
import NetworkLab.Lab2.Client
import NetworkLab.Lab2.Listing
import NetworkLab.Lab2.System
import NetworkLab.Lab2.Dispatch
import NetworkLab.Lab2.Phases
import NetworkLab.Lab2.Protocol
import NetworkLab.Lab2.Storage
import NetworkLab.Lib.Journal
import NetworkLab.Backup.Journal
import NetworkLab.Backup.Endpoints
import NetworkLab.Lib.Locks
import NetworkLab.Backup.Mutexes
import NetworkLab.Backup.Reported
