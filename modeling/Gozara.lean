import Gozara.Library.Transition
import Gozara.Library.Progress
import Gozara.Library.Refinement
import Gozara.Library.HashMap
import Gozara.Library.HashTree
import Gozara.Library.Pool
import Gozara.Library.ServiceQueue
import Gozara.Library.Channel
import Gozara.Library.RoundRobin
import Gozara.Library.Pieces
import Gozara.Library.WaitFor
import Gozara.Library.Segments
import Gozara.Library.Fallible
import Gozara.Types
import Gozara.BlobTransfer
import Gozara.BlobTransfer.Frames
import Gozara.BlobTransfer.Push
import Gozara.BlobTransfer.Receiver
import Gozara.BlobTransfer.Pull
import Gozara.BlobTransfer.Sessions
import Gozara.BlobTransfer.Codec
import Gozara.Coordinator.Pipeline
import Gozara.Coordinator.Loop
import Gozara.Coordinator.Manifest
import Gozara.Coordinator.Moves
import Gozara.Coordinator.Queue
import Gozara.Coordinator.Uploads
import Gozara.Coordinator.Assignment
import Gozara.Coordinator.Balance
import Gozara.Coordinator.Storage
import Gozara.Coordinator.Finality
import Gozara.Coordinator.Attempts
import Gozara.Coordinator.Points
import Gozara.Coordinator.Progress
import Gozara.Coordinator.Draining
import Gozara.Coordinator.Records
import Gozara.Coordinator.Hints
import Gozara.Bridge.NewBlob
import Gozara.Bridge.Chunking
import Gozara.Bridge.Handlers
import Gozara.Bridge.Guards
import Gozara.Bridge.Admission
import Gozara.Bridge.Bodies
import Gozara.Bridge.Registry
import Gozara.Bridge.Replies
import Gozara.Bridge.Downloads
import Gozara.Bridge.Streaming
import Gozara.Bridge.RootHash
import Gozara.Node.Representation
import Gozara.Node.System
import Gozara.Node.Links
import Gozara.Node.Storage
import Gozara.Node.Pushes
import Gozara.Node.Budget
import Gozara.Node.Keys
import Gozara.Node.Delivery
import Gozara.Node.Histories
import Gozara.Node.Contents
import Gozara.Node.Retrieval
import Gozara.Node.Registry
import Gozara.Node.Order
import Gozara.Node.Liveness
import Gozara.Node.Replies
import Gozara.Node.Ended
import Gozara.Node.Pending
import Gozara.Node.Gathering
import Gozara.Node.Swarm
import Gozara.Node.Waiting
import Gozara.Node.Wired
import Gozara.Node.Network
import Gozara.Node.Inbound
import Gozara.Node.Supervision
import Gozara.Node.Shutdown
