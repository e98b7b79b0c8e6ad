import NCloud.Lib.Reader
import NCloud.Lib.Process
import NCloud.Lib.Sequential
import NCloud.Lib.Exchange
import NCloud.Lib.Csv
import NCloud.Lib.Decimal
import NCloud.Lib.Stream
import NCloud.Lib.Search
import NCloud.Lib.KeyValue
import NCloud.Lib.Faults
import NCloud.Lib.Pieces
import NCloud.Lib.Lines
import NCloud.Lib.Intervals
import NCloud.Lib.Blocks
import NCloud.Lib.Sha2
import NCloud.Lib.Hmac
import NCloud.Lib.Hex
import NCloud.Lib.JsonText
import NCloud.Lib.RoundRobin
import NCloud.Lib.Base64
import NCloud.Lib.Recent
import NCloud.Lib.Socket
import NCloud.Storage.Bloom
import NCloud.Storage.Filter
import NCloud.Storage.Rows
import NCloud.Storage.Format
import NCloud.Storage.Tablet
import NCloud.Storage.Logging
import NCloud.Storage.Durable
import NCloud.Storage.Lifetime
import NCloud.Storage.Sync
import NCloud.Storage.Transfer
import NCloud.Storage.Concurrent
import NCloud.Replication.Node
import NCloud.Replication.Refinement
import NCloud.Coordinator.Programs
import NCloud.Coordinator.Tables
import NCloud.Coordinator.Routing
import NCloud.Coordinator.Promotion
import NCloud.Coordinator.Election
import NCloud.Coordinator.Configuration
import NCloud.Coordinator.Ranges
import NCloud.Coordinator.Heartbeat
import NCloud.Coordinator.Restarts
import NCloud.Coordinator.Ping
import NCloud.Replication.Manager
import NCloud.Replication.Cluster
import NCloud.Replication.Quorum
import NCloud.Replication.Writers
import NCloud.Replication.Agreement
import NCloud.Replication.Following
import NCloud.Replication.Rollback
import NCloud.Server.ThreadPool
import NCloud.Protocol.Requests
import NCloud.Protocol.Replicate
import NCloud.Protocol.Multipart
import NCloud.Protocol.Outbound
import NCloud.Protocol.Forms
import NCloud.Protocol.Chunked
import NCloud.Protocol.JsonStrings
import NCloud.Protocol.WrappedBase64
import NCloud.Smtp.Session
import NCloud.Smtp.Injection
import NCloud.Protocol.Http
import NCloud.Protocol.Answers
import NCloud.Frontend.LoadBalancer
import NCloud.Frontend.Cells
import NCloud.Frontend.Contacts
import NCloud.Frontend.Histories
import NCloud.Frontend.Mail
import NCloud.Frontend.Delivery
import NCloud.Frontend.Lists
import NCloud.Frontend.Password
import NCloud.Frontend.Digest
import NCloud.Frontend.Derivation
import NCloud.Frontend.Credentials
import NCloud.Frontend.Sessions
import NCloud.Frontend.Accounts
import NCloud.Frontend.Authentication
import NCloud.Frontend.Mailbox
import NCloud.Frontend.Client
import NCloud.Frontend.Targets
import NCloud.Frontend.Connections
import NCloud.Frontend.Persistent
import NCloud.Frontend.Drive
import NCloud.Frontend.DriveTree
import NCloud.Frontend.DriveRequests
import NCloud.Frontend.DirectMessages
import NCloud.Frontend.DriveFirstUse
import NCloud.Frontend.DriveUsage
import NCloud.Frontend.DriveQuota
import NCloud.Frontend.DriveBooks
import NCloud.Frontend.DriveAccounting
import NCloud.Frontend.DrivePaths
import NCloud.Frontend.DriveDelete
import NCloud.Frontend.Download
import NCloud.Frontend.DriveMove
import NCloud.Frontend.DriveUpload
