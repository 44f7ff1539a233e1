import Pincerbell.Api
import Pincerbell.Api.RoundTrip
import Pincerbell.Api.Text
import Pincerbell.Apns.Origin
import Pincerbell.Apns.Path
import Pincerbell.Apns.Token
import Pincerbell.Dedup
import Pincerbell.Dedup.Bound
import Pincerbell.Dedup.Invariant
import Pincerbell.Dedup.Refinement
import Pincerbell.Dedup.Window
import Pincerbell.Deployment
import Pincerbell.Deployment.Content
import Pincerbell.Deployment.Cycle
import Pincerbell.Deployment.Delivery
import Pincerbell.Deployment.Duplicates
import Pincerbell.Deployment.Fate
import Pincerbell.Deployment.Feedback
import Pincerbell.Deployment.Http
import Pincerbell.Deployment.Log
import Pincerbell.Deployment.Redelivery
import Pincerbell.Deployment.Rejection
import Pincerbell.Deployment.Relay
import Pincerbell.Deployment.Restart
import Pincerbell.Deployment.Retry
import Pincerbell.Deployment.Settled
import Pincerbell.Fcm.Token
import Pincerbell.Gateway
import Pincerbell.Gateway.Device
import Pincerbell.Gateway.Endpoints
import Pincerbell.Gateway.Nesting
import Pincerbell.Gateway.Router
import Pincerbell.Gateway.Transparency
import Pincerbell.Http
import Pincerbell.Message
import Pincerbell.Message.Counts
import Pincerbell.Poller
import Pincerbell.Poller.Loop
import Pincerbell.Provider
import Pincerbell.Queue
import Pincerbell.Queue.Capacity
import Pincerbell.Queue.Coalesce
import Pincerbell.Queue.Conservation
import Pincerbell.Queue.Drain
import Pincerbell.Queue.Eviction
import Pincerbell.Queue.Exact
import Pincerbell.Queue.Invariant
import Pincerbell.Queue.Lease
import Pincerbell.Queue.LongPoll
import Pincerbell.Queue.Order
import Pincerbell.Queue.Panics
import Pincerbell.Queue.Refinement
import Pincerbell.Queue.Representation
import Pincerbell.Queue.Spec
import Pincerbell.Queue.Step
import Pincerbell.Queue.Token
import Pincerbell.Queue.Turns
import Pincerbell.Queue.Wire
import Pincerbell.Startup
import Pincerbell.Startup.Args
import Pincerbell.Support.AllOrNothing
import Pincerbell.Support.Base64
import Pincerbell.Support.ContentCoding
import Pincerbell.Support.HashMap
import Pincerbell.Support.History
import Pincerbell.Support.LastStored
import Pincerbell.Support.Machine
import Pincerbell.Support.Mutex
import Pincerbell.Support.Occurrences
import Pincerbell.Support.PercentEncoding
import Pincerbell.Support.Prog
import Pincerbell.Support.Sift
import Pincerbell.Support.Simulation
import Pincerbell.Support.Trim
import Pincerbell.Support.TwoRuns
import Pincerbell.Support.UrlParser
import Pincerbell.Support.Utf8
import Pincerbell.WebPush
import Pincerbell.WebPush.Allowlist
import Pincerbell.WebPush.Encryption
import Pincerbell.WebPush.Redirects
import Pincerbell.WebPush.Token
import Pincerbell.WebPush.Vapid
