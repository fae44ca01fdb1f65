import TopicBroker.Runs
import TopicBroker.ByteBlocks
import TopicBroker.ByteOrder
import TopicBroker.Words
import TopicBroker.Divisions
import TopicBroker.NewestFirst
import TopicBroker.Message
import TopicBroker.Buffer
import TopicBroker.BufferCalls
import TopicBroker.Frames
import TopicBroker.Client
import TopicBroker.CommandLine
import TopicBroker.RoundTrip
import TopicBroker.IntValue
import TopicBroker.ReceiveLoop
import TopicBroker.Registry
import TopicBroker.Requests
import TopicBroker.Removal
import TopicBroker.Publish
import TopicBroker.Routing
import TopicBroker.Identify
import TopicBroker.MainLoop
import TopicBroker.Descriptors
import TopicBroker.Handshakes
import TopicBroker.Persistence
import TopicBroker.StoreForward
import TopicBroker.Identity
import TopicBroker.Binding
import TopicBroker.Subscriptions
import TopicBroker.Readings
import TopicBroker.CommandFraming
import TopicBroker.Grammar
import TopicBroker.TopicWire
import TopicBroker.Release
import TopicBroker.Leakage
import TopicBroker.PubSub
import TopicBroker.Refinement
import TopicBroker.ExactlyOnce
import TopicBroker.Sessions
import TopicBroker.Network
import TopicBroker.Chains
import TopicBroker.Queues
import TopicBroker.QueueCalls
import TopicBroker.Rounding
import TopicBroker.Decimals
import TopicBroker.Reals
import TopicBroker.Endings
import TopicBroker.Rounds
import TopicBroker.Lives
import TopicBroker.Isolation
import TopicBroker.Upstream
import TopicBroker.Notices
import TopicBroker.WaitingQueues
import TopicBroker.Printouts
import TopicBroker.Commands
import TopicBroker.Handlings
