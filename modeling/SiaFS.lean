import SiaFS.Cache.DiskFailures
import SiaFS.Cache.Settling
import SiaFS.Startup
import SiaFS.Recovery
import SiaFS.Moments
import SiaFS.RandomAccess
import SiaFS.Cache.Provenance
import SiaFS.Updates
import SiaFS.SharedMounts
import SiaFS.Cache.Keys
import SiaFS.Upload.Integrity
import SiaFS.Upload.Plain
import SiaFS.Upload.Handles
import SiaFS.Upload.PartIDs
import SiaFS.Upload.Interleaving
import SiaFS.Upload.AnyOrder
import SiaFS.Cache.Coherence
import SiaFS.Cache.Versions
import SiaFS.Cache.Mounts
import SiaFS.Paths.Entries
import SiaFS.Paths.Tree
import SiaFS.Errors
import SiaFS.Paths.Urls
import SiaFS.Bus.PostBodies
import SiaFS.FirstWrite
import SiaFS.Upload.Verbose
import SiaFS.Paths.Missing
import SiaFS.Cache.Failures
import SiaFS.Common.MetaMap
import SiaFS.Bus.Metacache
import SiaFS.Upload.Slots
import SiaFS.Upload.Retry
import SiaFS.Bus.Completion
import SiaFS.Cache.DiskMap
import SiaFS.Cache.Flush
import SiaFS.Paths.Contents
import SiaFS.Storage
import SiaFS.Cache.Lengths
import SiaFS.Paths.Listing
import SiaFS.Bus.Scans
import SiaFS.Bus.NodeKinds
import SiaFS.Options
import SiaFS.Common.Unixtime
import SiaFS.Upload.Unlisted
import SiaFS.Common.PayloadMap
import SiaFS.Common.Capture
import SiaFS.Common.Base64
import SiaFS.Allocations
import SiaFS.Upload.AtOnce
