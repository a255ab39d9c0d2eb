import TagRegistry.Archive
import TagRegistry.Bytes
import TagRegistry.Catalog
import TagRegistry.CommandLine.Invocation
import TagRegistry.CommandLine.Report
import TagRegistry.CommandLine.Run
import TagRegistry.Config.Basic
import TagRegistry.Config.File
import TagRegistry.Config.Hostname
import TagRegistry.Config.Listen
import TagRegistry.Config.Load
import TagRegistry.Config.Merge
import TagRegistry.Coordinate
import TagRegistry.Deflate.Bits
import TagRegistry.Deflate.Block
import TagRegistry.Deflate.Compressor
import TagRegistry.Deflate.Inflate
import TagRegistry.Deflate.Match
import TagRegistry.Deflate.PrefixCode
import TagRegistry.Deflate.Symbol
import TagRegistry.Disk.Basic
import TagRegistry.Disk.Repositories
import TagRegistry.Gzip.Crc32
import TagRegistry.Gzip.Encoder
import TagRegistry.Gzip.Format
import TagRegistry.Json.Printer
import TagRegistry.Json.Quoted
import TagRegistry.Json.Reader
import TagRegistry.Json.Value
import TagRegistry.Main
import TagRegistry.ModuleMap
import TagRegistry.ObjectId
import TagRegistry.Path
import TagRegistry.Proofs.Agreement
import TagRegistry.Proofs.ArchiveRoundTrip
import TagRegistry.Proofs.ArchiveTrace
import TagRegistry.Proofs.BitReading
import TagRegistry.Proofs.BodyReading
import TagRegistry.Proofs.BodyTransfer
import TagRegistry.Proofs.BrokenReference
import TagRegistry.Proofs.CanonicalText
import TagRegistry.Proofs.CatalogAnswers
import TagRegistry.Proofs.CheckReport
import TagRegistry.Proofs.ConfiguredModules
import TagRegistry.Proofs.Confinement
import TagRegistry.Proofs.DownloadIntegrity
import TagRegistry.Proofs.FlatModules
import TagRegistry.Proofs.Interruption
import TagRegistry.Proofs.LimitedSink
import TagRegistry.Proofs.Listing
import TagRegistry.Proofs.MergedFiles
import TagRegistry.Proofs.MissingReference
import TagRegistry.Proofs.ModuleIdentity
import TagRegistry.Proofs.MovedTag
import TagRegistry.Proofs.NameFits
import TagRegistry.Proofs.NameOrder
import TagRegistry.Proofs.Nesting
import TagRegistry.Proofs.OrdinaryArchive
import TagRegistry.Proofs.Outcomes
import TagRegistry.Proofs.PackedReferences
import TagRegistry.Proofs.PartialArchive
import TagRegistry.Proofs.Precedence
import TagRegistry.Proofs.PrintedJson
import TagRegistry.Proofs.RelativePath
import TagRegistry.Proofs.Representative
import TagRegistry.Proofs.SameContent
import TagRegistry.Proofs.SemanticPrecedence
import TagRegistry.Proofs.ServedAlike
import TagRegistry.Proofs.ServerError
import TagRegistry.Proofs.Serving
import TagRegistry.Proofs.SinkStages
import TagRegistry.Proofs.SnapshotContents
import TagRegistry.Proofs.Stages
import TagRegistry.Proofs.StorageDetails
import TagRegistry.Proofs.TagNames
import TagRegistry.Proofs.TarName
import TagRegistry.Proofs.TextEncoding
import TagRegistry.Proofs.VersionGrammar
import TagRegistry.Proofs.VersionText
import TagRegistry.Protocol.Body
import TagRegistry.Protocol.Operation
import TagRegistry.Protocol.Percent
import TagRegistry.Protocol.Response
import TagRegistry.Repository.Basic
import TagRegistry.Repository.Object
import TagRegistry.Repository.Packed
import TagRegistry.Repository.RefName
import TagRegistry.Repository.Reference
import TagRegistry.Repository.Settings
import TagRegistry.Repository.Tree
import TagRegistry.Repository.View
import TagRegistry.Service.Basic
import TagRegistry.Service.Download
import TagRegistry.Service.Registry
import TagRegistry.Sink
import TagRegistry.Sink.Buffered
import TagRegistry.Sink.Channel
import TagRegistry.Store.Basic
import TagRegistry.Store.Memory
import TagRegistry.Table
import TagRegistry.Tar.Header
import TagRegistry.Tar.Name
import TagRegistry.Tar.Number
import TagRegistry.Text.Blank
import TagRegistry.Text.Decimal
import TagRegistry.Text.Hex
import TagRegistry.Text.Split
import TagRegistry.Text.Utf8
import TagRegistry.Toml.Blank
import TagRegistry.Toml.Moment
import TagRegistry.Toml.Number
import TagRegistry.Toml.Quoted
import TagRegistry.Toml.Reader
import TagRegistry.Version.Basic
import TagRegistry.Version.Order
import TagRegistry.Version.Parser
import TagRegistry.Proofs.LinkTarget
import TagRegistry.Proofs.CoveredContent
import TagRegistry.Proofs.CompressedStream
import TagRegistry.Proofs.DroppedStream
import TagRegistry.Proofs.HostnameGrammar
import TagRegistry.Proofs.NamedFiles
import TagRegistry.Proofs.WalkDepth
import TagRegistry.Proofs.ParentPath
