import EndpointPreview.Text.Bytes
import EndpointPreview.Text.Line
import EndpointPreview.Text.Utf8
import EndpointPreview.Text.Numeral
import EndpointPreview.Decimal.Binary64
import EndpointPreview.Decimal.Shortest
import EndpointPreview.Table
import EndpointPreview.Json.Value
import EndpointPreview.Json.Dialect
import EndpointPreview.Json.Writer
import EndpointPreview.Json.Reader
import EndpointPreview.Notation.Token
import EndpointPreview.Notation.Decorator
import EndpointPreview.Notation.Parameter
import EndpointPreview.Notation.Header
import EndpointPreview.Notation.Source
import EndpointPreview.Notation.Validation
import EndpointPreview.Notation.Module
import EndpointPreview.Notation.Literal
import EndpointPreview.Notation.ReturnLiteral
import EndpointPreview.Http.Url
import EndpointPreview.Http.Message
import EndpointPreview.Http.Framing
import EndpointPreview.Http.Dispatcher
import EndpointPreview.Preview.Clock
import EndpointPreview.Preview.Routes
import EndpointPreview.Preview.Network
import EndpointPreview.Settings.Node
import EndpointPreview.StrictFormats
import EndpointPreview.Settings.Basic
import EndpointPreview.Settings.Document
import EndpointPreview.Execution.Service
import EndpointPreview.Execution.Instance
import EndpointPreview.Execution.Orchestrator
import EndpointPreview.Control.Command
import EndpointPreview.Control.Rpc
import EndpointPreview.Control.CommandLine
import EndpointPreview.Control.SourceCheck
import EndpointPreview.Testbed.Recorder
import EndpointPreview.Testbed.Directory
import EndpointPreview.Main
import EndpointPreview.Proofs.Tables
import EndpointPreview.Proofs.Lines
import EndpointPreview.Proofs.Headers
import EndpointPreview.Proofs.Pieces
import EndpointPreview.Proofs.StringBodies
import EndpointPreview.Proofs.Words
import EndpointPreview.Proofs.Functions
import EndpointPreview.Proofs.QuotedRoutes
import EndpointPreview.Proofs.ModuleReading
import EndpointPreview.Proofs.GeneratedModule
import EndpointPreview.Proofs.RoundTrip
import EndpointPreview.Proofs.TokenWeights
import EndpointPreview.Proofs.LiteralReading
import EndpointPreview.Proofs.Reindentation
import EndpointPreview.Proofs.ReturnedLiterals
import EndpointPreview.Proofs.Journal
import EndpointPreview.Proofs.Registry
import EndpointPreview.Proofs.Interception
import EndpointPreview.Proofs.Callers
import EndpointPreview.Proofs.ConcurrentStops
import EndpointPreview.Proofs.ConcurrentStarts
import EndpointPreview.Proofs.LocalUrls
import EndpointPreview.Proofs.Reachability
import EndpointPreview.Proofs.WholeText
import EndpointPreview.Proofs.WholeTokens
import EndpointPreview.Proofs.WholeLiterals
import EndpointPreview.Proofs.WholeSources
import EndpointPreview.Proofs.RouteTables
import EndpointPreview.Proofs.SimulatedAnswers
import EndpointPreview.Proofs.NetworkRuns
import EndpointPreview.Proofs.LoneNetwork
import EndpointPreview.Proofs.SharedDispatcher
import EndpointPreview.Proofs.Scans
import EndpointPreview.Proofs.FunctionBlocks
import EndpointPreview.Proofs.DecoratorBinding
import EndpointPreview.Proofs.AppendedSources
import EndpointPreview.Proofs.Numerals
import EndpointPreview.Proofs.HeaderBlocks
import EndpointPreview.Proofs.RequestFraming
import EndpointPreview.Proofs.Doubles
import EndpointPreview.Proofs.JsonNumbers
import EndpointPreview.Proofs.JsonValues
import EndpointPreview.Proofs.JsonReading
import EndpointPreview.Proofs.ReplyFraming
import EndpointPreview.Proofs.CommandAnswers
import EndpointPreview.Proofs.ControlReplies
import EndpointPreview.Proofs.StartReplies
import EndpointPreview.Proofs.CommandReturns
import EndpointPreview.Proofs.WholeReports
import EndpointPreview.Proofs.DocumentSettings
import EndpointPreview.Proofs.Positions
import EndpointPreview.Proofs.TokenPositions
import EndpointPreview.Proofs.TokenCursors
import EndpointPreview.Proofs.LiteralCursors
import EndpointPreview.Proofs.ParameterPositions
import EndpointPreview.Proofs.HeaderPositions
import EndpointPreview.Proofs.SourcePositions
import EndpointPreview.Proofs.ReturnPositions
import EndpointPreview.Proofs.SafeReading
import EndpointPreview.Proofs.ExactValues
import EndpointPreview.Proofs.WrittenSettings
import EndpointPreview.Proofs.LiteralGrammar
import EndpointPreview.Proofs.LiteralDerivations
import EndpointPreview.Proofs.WholeNumbers
import EndpointPreview.Proofs.SpelledLiterals
import EndpointPreview.Proofs.StringLiterals
import EndpointPreview.Proofs.StringValues
import EndpointPreview.Proofs.Seams
import EndpointPreview.Proofs.ClosedBlocks
import EndpointPreview.Proofs.JsonifyCalls
import EndpointPreview.Proofs.ReturnStatements
import EndpointPreview.Proofs.DecoratorGrammar
import EndpointPreview.Proofs.RouteCodec
import EndpointPreview.Proofs.MalformedDecorators
import EndpointPreview.Proofs.SeparateHelpers
import EndpointPreview.Proofs.ClosedTexts
import EndpointPreview.Proofs.ReportCounts
import EndpointPreview.Proofs.WrittenParameters
import EndpointPreview.Proofs.ReturnAnnotations
import EndpointPreview.Proofs.CommentedHeaders
import EndpointPreview.Proofs.HeaderComments
import EndpointPreview.Proofs.TokenTiling
import EndpointPreview.Proofs.Launches
import EndpointPreview.Proofs.PortAllocation
import EndpointPreview.Proofs.SourceStyles
import EndpointPreview.Proofs.BarePaths
import EndpointPreview.Proofs.ServiceUrls
import EndpointPreview.Proofs.ServiceAnswers
import EndpointPreview.Proofs.GivenPorts
import EndpointPreview.Proofs.HeaderReads
import EndpointPreview.Proofs.DeclaredLengths
import EndpointPreview.Proofs.ResponseFraming
import EndpointPreview.Proofs.UrlPositions
import EndpointPreview.Proofs.UrlNormalForm
import EndpointPreview.Proofs.UrlFragments
import EndpointPreview.Proofs.JoinedTokens
import EndpointPreview.Proofs.HeaderNames
import EndpointPreview.Proofs.TopLevelCommas
