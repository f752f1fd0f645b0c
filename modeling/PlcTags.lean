import PlcTags.Bridge.Folder
import PlcTags.Layout.Table
import PlcTags.Proofs.Bridge.Independent
import PlcTags.Proofs.Bridge.MergedWrites
import PlcTags.Proofs.Bridge.Transparent
import PlcTags.Proofs.Bridge.WriteSeen
import PlcTags.Proofs.Descriptor.BitOffsets
import PlcTags.Proofs.Descriptor.RoundTrip
import PlcTags.Proofs.Layout.Copies
import PlcTags.Proofs.Layout.Leaves
import PlcTags.Proofs.Plan.Slices
import PlcTags.Proofs.Registry.OpenEnded
import PlcTags.Proofs.Registry.Spared
import PlcTags.Proofs.Plan.Partition
import PlcTags.Proofs.Plan.Cover
import PlcTags.Transport.Slots
import PlcTags.Value.Json
import PlcTags.Proofs.Layout.Nesting
import PlcTags.Proofs.Number.Widen
import PlcTags.Proofs.Value.Scalar
import PlcTags.Proofs.Codec.RoundTrip
import PlcTags.Proofs.Codec.WriteBack
import PlcTags.Proofs.Transport.Live
import PlcTags.Proofs.Transport.Lifetimes
import PlcTags.Proofs.Registry.Owners
import PlcTags.Proofs.Bridge.Sessions
import PlcTags.Proofs.Layout.Placement
import PlcTags.Proofs.Bridge.Roster
import PlcTags.Bridge.Concurrent
import PlcTags.Proofs.Bridge.Complete
import PlcTags.Proofs.Bridge.Concurrent
import PlcTags.Proofs.Layout.Pieces
import PlcTags.Proofs.Layout.Agreement
import PlcTags.Proofs.Layout.Words
import PlcTags.Proofs.Codec.Extent
import PlcTags.Proofs.Codec.Overrun
import PlcTags.Proofs.Codec.Bounds
import PlcTags.Proofs.Codec.CutText
import PlcTags.Proofs.Registry.Repeated
import PlcTags.Proofs.Registry.Report
import PlcTags.Proofs.Plan.Fewest
import PlcTags.Proofs.Descriptor.Rendered
import PlcTags.Proofs.Descriptor.Reordered
import PlcTags.Proofs.Layout.Spelling
import PlcTags.Proofs.Layout.Listing
import PlcTags.Proofs.Bridge.KnownPollers
import PlcTags.Proofs.Bridge.SharedTags
import PlcTags.Proofs.Descriptor.Parents
import PlcTags.Proofs.Descriptor.OffsetTexts
import PlcTags.Proofs.Value.Json
import PlcTags.Proofs.Codec.Times
import PlcTags.Proofs.Transport.Lifetimes
