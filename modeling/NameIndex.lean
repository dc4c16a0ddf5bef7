import NameIndex.Atom.Set
import NameIndex.Atom.Table
import NameIndex.Fault
import NameIndex.Files.Path
import NameIndex.Files.Tree
import NameIndex.Index.Basic
import NameIndex.Index.Edit
import NameIndex.Index.Event
import NameIndex.Index.Lookup
import NameIndex.Index.Update
import NameIndex.Json.Basic
import NameIndex.Json.Reader
import NameIndex.Json.Writer
import NameIndex.Main
import NameIndex.Manifest.Error
import NameIndex.Manifest.Evaluation
import NameIndex.Manifest.Expr
import NameIndex.Manifest.File
import NameIndex.Manifest.Operation
import NameIndex.Manifest.Parser
import NameIndex.Manifest.Scope
import NameIndex.Manifest.Token
import NameIndex.Manifest.Value
import NameIndex.Number.Binary64
import NameIndex.Pattern.Basic
import NameIndex.Pattern.Listing
import NameIndex.Pattern.Match
import NameIndex.Pattern.Selection
import NameIndex.Segment.Address
import NameIndex.Segment.Basic
import NameIndex.Segment.Collection
import NameIndex.Segment.Order
import NameIndex.Slot
import NameIndex.Spec.Basic
import NameIndex.Spec.Convert
import NameIndex.Spec.File
import NameIndex.Spec.Json
import NameIndex.Spec.Yaml
import NameIndex.Text.Distance
import NameIndex.Text.Fold
import NameIndex.Text.Hex
import NameIndex.Text.Numeral
import NameIndex.Text.Printable
import NameIndex.Text.Quoted
import NameIndex.Text.Utf8
import NameIndex.Tool.Console
import NameIndex.Tool.Dump
import NameIndex.Tool.Level
import NameIndex.Tool.Options
import NameIndex.Tool.Report
import NameIndex.Tool.Run
import NameIndex.Tool.ValueList
import NameIndex.Yaml.Block
import NameIndex.Yaml.Flow
import NameIndex.Yaml.Fragment
import NameIndex.Yaml.Library
import NameIndex.Yaml.Line
import NameIndex.Yaml.Node
import NameIndex.Yaml.Presentation
import NameIndex.Yaml.Scalar
import NameIndex.Yaml.Timestamp
import NameIndex.Yaml.Writer
import NameIndex.Proofs.Slot
import NameIndex.Proofs.OrderEdits
import NameIndex.Proofs.Comparison
import NameIndex.Proofs.Interning
import NameIndex.Proofs.SlotView
import NameIndex.Proofs.SegmentEdit
import NameIndex.Proofs.Tidy
import NameIndex.Proofs.Content
import NameIndex.Proofs.Reachability
import NameIndex.Proofs.TrackedContent
import NameIndex.Proofs.Records
import NameIndex.Proofs.UpdateEffect
import NameIndex.Proofs.DocumentOrder
import NameIndex.Proofs.Topmost
import NameIndex.Proofs.Incremental
import NameIndex.Proofs.ConstantView
import NameIndex.Proofs.UpdateFault
import NameIndex.Proofs.Handles
import NameIndex.Proofs.Enumeration
import NameIndex.Proofs.HandleOrder
import NameIndex.Proofs.Synchrony
import NameIndex.Proofs.Restoration
import NameIndex.Proofs.Census
import NameIndex.Proofs.Disjointness
import NameIndex.Proofs.SpecCollection
import NameIndex.Proofs.Reports
import NameIndex.Proofs.Dropping
import NameIndex.Proofs.Numeral
import NameIndex.Proofs.Storage
import NameIndex.Proofs.JsonText
import NameIndex.Proofs.JsonSpec
import NameIndex.Proofs.Faultless
import NameIndex.Proofs.YamlLibrary
import NameIndex.Proofs.FileValues
import NameIndex.Proofs.SetFiles
import NameIndex.Proofs.FileReadings
import NameIndex.Proofs.YamlToken
import NameIndex.Proofs.YamlNumeral
import NameIndex.Proofs.YamlScalar
import NameIndex.Proofs.YamlLine
import NameIndex.Proofs.YamlBlock
import NameIndex.Proofs.YamlSpec
import NameIndex.Proofs.SlotHistory
import NameIndex.Proofs.TableCalls
import NameIndex.Proofs.EventLog
import NameIndex.Proofs.OrderFaults
import NameIndex.Proofs.FirstFailure
import NameIndex.Proofs.SpecConversion
import NameIndex.Proofs.ByteOrder
import NameIndex.Proofs.Selection
import NameIndex.Proofs.AddressOrder
import NameIndex.Proofs.NestedStrings
import NameIndex.Proofs.CommandLine
