import OpenTlv.Lib.Octets
import OpenTlv.Lib.BitField
import OpenTlv.Core.Status
import OpenTlv.Core.Format
import OpenTlv.Field.Fixed
import OpenTlv.Field.Variable
import OpenTlv.Field.Escaped
import OpenTlv.Formats.Compose
import OpenTlv.Formats.Configurable
import OpenTlv.Core.Utf8
import OpenTlv.Lib.Area
import OpenTlv.Lib.Border
import OpenTlv.Query.Plan
import OpenTlv.Query.Value
import OpenTlv.Query.Retained
import OpenTlv.Lib.Forest
import OpenTlv.Query.Denotation
import OpenTlv.Lib.Dispatch
import OpenTlv.Query.Accepted
import OpenTlv.Query.Search
import OpenTlv.Query.Functions
import OpenTlv.Query.Frames
import OpenTlv.Query.Machine
import OpenTlv.Query.Operators
import OpenTlv.Query.Composition
import OpenTlv.Query.Calls
import OpenTlv.Query.Evaluation
import OpenTlv.Query.Exec
import OpenTlv.Query.Bounds
import OpenTlv.Query.Growth
import OpenTlv.Asn1.Framing
import OpenTlv.Lib.Persist
import OpenTlv.Query.Stream
import OpenTlv.Asn1.Identifier
import OpenTlv.Formats.Stability
import OpenTlv.Asn1.Stability
import OpenTlv.Asn1.Cer
import OpenTlv.Asn1.CerDepth
import OpenTlv.Asn1.CerRoundTrip
import OpenTlv.Asn1.Canonical
import OpenTlv.Asn1.CerString
import OpenTlv.Asn1.CerCanonical
import OpenTlv.Reader.Reader
import OpenTlv.Reader.Tree
import OpenTlv.Reader.Chunking
import OpenTlv.Asn1.Der
import OpenTlv.Asn1.DerSchema
import OpenTlv.Asn1.DerTree
import OpenTlv.Asn1.DerSchemaStrict
import OpenTlv.Lib.Emission
import OpenTlv.Query.Lifecycle
import OpenTlv.Query.Steady
import OpenTlv.Query.Suspension
import OpenTlv.Reader.Preorder
import OpenTlv.Asn1.DerRoundTrip
import OpenTlv.Document.Batch
import OpenTlv.Document.Callbacks
import OpenTlv.Document.Handles
import OpenTlv.Lib.Findings
import OpenTlv.Schema.Agreement
import OpenTlv.Writer.Tree
import OpenTlv.Writer.TreeEncoding
import OpenTlv.Formats.Minimal
import OpenTlv.Asn1.DerSchemaDistinct
import OpenTlv.Asn1.BerGrammar
import OpenTlv.Asn1.BerIndefinite
import OpenTlv.Builtins.ContainerGrammar
import OpenTlv.Builtins.Dol
import OpenTlv.Builtins.DolWriting
import OpenTlv.Builtins.EmvCodec
import OpenTlv.Builtins.EmvRoundTrip
import OpenTlv.Builtins.Lldp
import OpenTlv.Builtins.LldpRoundTrip
import OpenTlv.Core.Utf8Grammar
import OpenTlv.Document.Diff
import OpenTlv.Document.DiffExact
import OpenTlv.Formats.PackedRoundTrip
import OpenTlv.Asn1.ChoiceSearch
import OpenTlv.Asn1.Codecs
import OpenTlv.Asn1.Date
import OpenTlv.Asn1.IriRoundTrip
import OpenTlv.Asn1.TagNumbers
import OpenTlv.Document.Encoding
import OpenTlv.Document.EncodingExact
import OpenTlv.Query.SearchExact
import OpenTlv.Lib.Stack
import OpenTlv.Query.Analyzer
import OpenTlv.Query.AnalyzerFits
import OpenTlv.Query.AnalyzerRun
import OpenTlv.Query.CompileScratch
import OpenTlv.Lib.Blocks
import OpenTlv.Writer.Generator
import OpenTlv.Writer.GeneratorAreas
import OpenTlv.Writer.GeneratorCases
import OpenTlv.Query.Answers
import OpenTlv.Query.PathMatch
import OpenTlv.Document.QueryAgreement
