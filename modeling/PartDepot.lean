import PartDepot.Archive.Inflate
import PartDepot.Archive.Sha256
import PartDepot.Archive.Tar
import PartDepot.Artifact
import PartDepot.Cache
import PartDepot.Catalog
import PartDepot.Command.Arguments
import PartDepot.Command.Log
import PartDepot.Command.Run
import PartDepot.Desk
import PartDepot.Disk.Basic
import PartDepot.Disk.Change
import PartDepot.Disk.Edit
import PartDepot.Disk.Path
import PartDepot.Failure
import PartDepot.Fanout
import PartDepot.Gate
import PartDepot.Json.Printer
import PartDepot.Json.Reader
import PartDepot.Json.Record
import PartDepot.Json.Value
import PartDepot.Lock
import PartDepot.Main
import PartDepot.Manifest
import PartDepot.Number.Binary64
import PartDepot.Number.Shortest
import PartDepot.Packages
import PartDepot.PartId
import PartDepot.Project
import PartDepot.Proofs.Additions
import PartDepot.Proofs.Addresses
import PartDepot.Proofs.Apart
import PartDepot.Proofs.ArtifactText
import PartDepot.Proofs.Asking
import PartDepot.Proofs.Attempts
import PartDepot.Proofs.Authorities
import PartDepot.Proofs.Blocks
import PartDepot.Proofs.Bootstring
import PartDepot.Proofs.Calendar
import PartDepot.Proofs.Clearing
import PartDepot.Proofs.ClosedGate
import PartDepot.Proofs.Collections
import PartDepot.Proofs.Course
import PartDepot.Proofs.Deciding
import PartDepot.Proofs.Decimals
import PartDepot.Proofs.Delivering
import PartDepot.Proofs.Documents
import PartDepot.Proofs.Enclosing
import PartDepot.Proofs.Entering
import PartDepot.Proofs.Entries
import PartDepot.Proofs.EntryFiles
import PartDepot.Proofs.Errands
import PartDepot.Proofs.Escapes
import PartDepot.Proofs.Extraction
import PartDepot.Proofs.Filling
import PartDepot.Proofs.FiniteMap
import PartDepot.Proofs.Frame
import PartDepot.Proofs.History
import PartDepot.Proofs.Holding
import PartDepot.Proofs.Hosts
import PartDepot.Proofs.Installing
import PartDepot.Proofs.Keeping
import PartDepot.Proofs.Keys
import PartDepot.Proofs.Leading
import PartDepot.Proofs.LockText
import PartDepot.Proofs.Lookups
import PartDepot.Proofs.Losing
import PartDepot.Proofs.Members
import PartDepot.Proofs.Neighbours
import PartDepot.Proofs.Numbers
import PartDepot.Proofs.OfflineBuild
import PartDepot.Proofs.Online
import PartDepot.Proofs.OpenGate
import PartDepot.Proofs.Origins
import PartDepot.Proofs.Outcome
import PartDepot.Proofs.Outside
import PartDepot.Proofs.Overrides
import PartDepot.Proofs.Packing
import PartDepot.Proofs.Paths
import PartDepot.Proofs.Payloads
import PartDepot.Proofs.Reaching
import PartDepot.Proofs.ReadBack
import PartDepot.Proofs.Recording
import PartDepot.Proofs.Regions
import PartDepot.Proofs.Resolving
import PartDepot.Proofs.Rounding
import PartDepot.Proofs.Scalars
import PartDepot.Proofs.SegmentUrls
import PartDepot.Proofs.Selecting
import PartDepot.Proofs.Sparing
import PartDepot.Proofs.Spelling
import PartDepot.Proofs.StateDir
import PartDepot.Proofs.Stopping
import PartDepot.Proofs.Stores
import PartDepot.Proofs.Strangers
import PartDepot.Proofs.Targets
import PartDepot.Proofs.Telling
import PartDepot.Proofs.Times
import PartDepot.Proofs.Topmost
import PartDepot.Proofs.Unpacking
import PartDepot.Proofs.UrlPaths
import PartDepot.Proofs.UrlTexts
import PartDepot.Proofs.Values
import PartDepot.Proofs.Walks
import PartDepot.Resolver
import PartDepot.Settings
import PartDepot.Text.Blank
import PartDepot.Text.Hex
import PartDepot.Text.Table
import PartDepot.Text.Utf8
import PartDepot.Text.Width
import PartDepot.Time.Text
import PartDepot.Time.Timestamp
import PartDepot.Url.Basic
import PartDepot.Url.Host
import PartDepot.Url.Percent
import PartDepot.Url.Punycode
import PartDepot.Version
import PartDepot.Workflow
import PartDepot.World
import PartDepot.Yaml.Chars
import PartDepot.Yaml.Cursor
import PartDepot.Yaml.Decode
import PartDepot.Yaml.Node
import PartDepot.Yaml.Reader
import PartDepot.Yaml.Resolve
import PartDepot.Yaml.Scalar
import PartDepot.Yaml.Writer
