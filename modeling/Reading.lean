import Reading.Lib.Quorum
import Reading.Lib.Voting
import Reading.Paxos.Delivery
import Reading.Paxos.Agreement
import Reading.Tcp.Prediction
import Reading.Lib.Stream
import Reading.Tcp.Assembly
import Reading.Tcp.Finish
import Reading.Tcp.Trim
import Reading.Tcp.Advertise
import Reading.Tcp.Receive
import Reading.Tcp.Timer
import Reading.Tcp.Backoff
import Reading.Tcp.Usrreq
import Reading.Tcp.SendOutput
import Reading.Tcp.SendInput
import Reading.Tcp.SendUser
import Reading.Tcp.Session
import Reading.Tcp.Again
import Reading.Tcp.Persist
import Reading.Bpf.Filter
import Reading.Bpf.Validate
import Reading.Bpf.Chain
import Reading.Ip.Cksum
import Reading.Ip.Packet
import Reading.Ip.Fragment
import Reading.Ip.Reass
import Reading.Ip.RoundTrip
import Reading.Tcp.Ledger
import Reading.Tcp.LedgerInput
import Reading.Tcp.Sequence
import Reading.Net.Slcompress
import Reading.Net.Link
import Reading.Net.Radix
import Reading.Paxos.Crash
import Reading.Paxos.Promise
import Reading.Paxos.Choice
import Reading.Paxos.History
import Reading.Clox.Table
import Reading.Kern.Sbhistory
import Reading.Kern.Fifo
import Reading.Kern.Sblock
import Reading.Clox.Interning
import Reading.Kern.Pending
import Reading.Kern.Memory
import Reading.Ip.Inpcb
import Reading.Ip.Lookup
import Reading.Clox.Dictionary
import Reading.Clox.DoublyLinked
import Reading.Clox.Repl
import Reading.Clox.Parsing
import Reading.Clox.Rejection
import Reading.Clox.Unstopped
import Reading.Lua.RoundTrip
import Reading.Lua.Map
import Reading.Lua.Next
import Reading.Lua.Failure
import Reading.Lua.Border
import Reading.Tcp.Options
import Reading.Ip.Options
import Reading.Ip.Overlap
import Reading.Ip.Deliver
import Reading.Kern.Split
import Reading.Clox.Arguments
import Reading.Clox.Lookup
import Reading.Clox.Globals
import Reading.Clox.Stack
import Reading.Clox.Spelling
import Reading.Clox.StaticErrors
import Reading.Lib.BitTree
import Reading.Net.Masks
