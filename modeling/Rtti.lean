import Rtti.CommandLine
import Rtti.Hierarchy.Record
import Rtti.Main
import Rtti.Memory.Image
import Rtti.Session.Schedule
import Rtti.Proofs.Itanium.DepthFirst
import Rtti.Proofs.Memory.Content
import Rtti.Proofs.Graph.FirstVisits
import Rtti.Proofs.Hierarchy.Edges
import Rtti.Proofs.Itanium.Layout
import Rtti.Proofs.Itanium.Decoding
import Rtti.Proofs.Msvc.Tree
import Rtti.Proofs.Msvc.Layout
import Rtti.Proofs.Msvc.Decoding
import Rtti.Proofs.Session.Moves
import Rtti.Proofs.Session.Supersession
import Rtti.Proofs.Decoder.Effort
import Rtti.Proofs.Decoder.Failures
import Rtti.Proofs.Decoder.Presentation
import Rtti.Proofs.Json.Tokens
import Rtti.Proofs.Json.RoundTrip
import Rtti.Proofs.Memory.SnapshotText
import Rtti.Proofs.SortedMap.Lookup
import Rtti.Proofs.Memory.Regions
import Rtti.Proofs.Memory.JoinedBlocks
import Rtti.Proofs.Decoder.Naming
import Rtti.Proofs.Text.Lines
import Rtti.Proofs.Hierarchy.DisplayLines
import Rtti.Proofs.Memory.Extension
import Rtti.Proofs.Decoder.Extension
import Rtti.Proofs.Decoder.Rejection
import Rtti.Proofs.Session.Exclusion
import Rtti.Proofs.CommandLine.Answers
import Rtti.Proofs.Msvc.NearestParent
import Rtti.Proofs.Session.Closing
import Rtti.Proofs.Session.DumpPlatform
import Rtti.Proofs.Decoder.Provenance
import Rtti.Proofs.Hierarchy.ReadBack
import Rtti.Proofs.Msvc.Listing
import Rtti.Proofs.Itanium.Origins
import Rtti.Proofs.Hierarchy.NodeCount
import Rtti.Proofs.Text.Utf16
import Rtti.Proofs.Text.CodeUnits
import Rtti.Proofs.Memory.TextReads
import Rtti.Proofs.Memory.CutTexts
import Rtti.Proofs.Memory.Image
import Rtti.Proofs.Itanium.BaseRecords
import Rtti.Proofs.Address.Spelling
import Rtti.Proofs.Address.Integers
import Rtti.Proofs.Memory.Relocation
import Rtti.Proofs.Msvc.Relocation
import Rtti.Proofs.Memory.Reckoning
import Rtti.Proofs.Decoder.Reckoning
import Rtti.Proofs.Bytes.Occurrences
import Rtti.Proofs.Hierarchy.Additions
