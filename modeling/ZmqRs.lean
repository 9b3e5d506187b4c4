import ZmqRs.Lib.Incremental
import ZmqRs.Lib.BigEndian
import ZmqRs.Basic
import ZmqRs.Codec.Greeting
import ZmqRs.Codec.Command
import ZmqRs.Codec.ZmqCodec
import ZmqRs.Codec.RoundTrip
import ZmqRs.Codec.Framed
import ZmqRs.Codec.FramedLaws
import ZmqRs.Lib.Transition
import ZmqRs.FairQueue
import ZmqRs.FairQueue.Wakeups
import ZmqRs.Recv.Delivery
import ZmqRs.Recv.Broken
import ZmqRs.Backend.Ring
import ZmqRs.Backend.Replace
import ZmqRs.ReqRep.Chain
import ZmqRs.PubBackend.Subscriptions
import ZmqRs.SubBackend.Agreement
import ZmqRs.SubBackend.Connecting
import ZmqRs.Reconnect.Waiting
import ZmqRs.Backend.Shutdown
import ZmqRs.FairQueue.Final
import ZmqRs.PubBackend.FanoutQueue
import ZmqRs.PubBackend.Fanout
import ZmqRs.Codec.Frames
import ZmqRs.Codec.Await
import ZmqRs.Handshake
import ZmqRs.Handshake.Accepts
import ZmqRs.Handshake.Agreement
import ZmqRs.ReqRep.Matching
import ZmqRs.Codec.Capacity
import ZmqRs.Codec.Truncation
import ZmqRs.Messages
import ZmqRs.FairQueue.Unique
import ZmqRs.Backend.Turns
import ZmqRs.Backend.Rotation
import ZmqRs.Monitor
import ZmqRs.FairQueue.Call
import ZmqRs.Lib.RoundRobin
import ZmqRs.FairQueue.Rounds
import ZmqRs.Lib.Sink
import ZmqRs.WriteQueue
import ZmqRs.Codec.Adaptive
import ZmqRs.PubBackend.Count
import ZmqRs.Lib.Pattern
import ZmqRs.Lib.Text
import ZmqRs.Lib.Numeral
import ZmqRs.Lib.IpAddr
import ZmqRs.Endpoint
import ZmqRs.Binds
import ZmqRs.Transfer
import ZmqRs.Proxy
import ZmqRs.Lib.Places
import ZmqRs.ReqRep.Service
import ZmqRs.SubBackend.Relay
import ZmqRs.Lib.Fifo
import ZmqRs.PubBackend.Pipeline
import ZmqRs.Backend.Accounts
import ZmqRs.Carry
import ZmqRs.Carry.Push
import ZmqRs.Carry.Pub
import ZmqRs.FairQueue.Share
import ZmqRs.Failing
import ZmqRs.Failing.XPub
import ZmqRs.Failing.Sub
