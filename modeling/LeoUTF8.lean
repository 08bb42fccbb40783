import LeoUTF8.BoundedLoop
import LeoUTF8.ScalarEncoding
import LeoUTF8.Utf16Encoding
import LeoUTF8.RunSorting
import LeoUTF8.StarterComposition
import LeoUTF8.RecursiveExpansion
import LeoUTF8.CellStorage
import LeoUTF8.LineCutting
import LeoUTF8.HexText
import LeoUTF8.EngineTables
import LeoUTF8.EngineCodec
import LeoUTF8.EngineGraphemes
import LeoUTF8.EngineDecompose
import LeoUTF8.EngineCompose
import LeoUTF8.HeapBlocks
import LeoUTF8.EngineMap
import LeoUTF8.EngineInterface
import LeoUTF8.NewlineNormalization
import LeoUTF8.GraphemeRules
import LeoUTF8.GraphemeSegmentation
import LeoUTF8.CoreFunctions
import LeoUTF8.CodecCorrectness
import LeoUTF8.TerminatedText
import LeoUTF8.CodePointMapping
import LeoUTF8.DecompositionCorrectness
import LeoUTF8.DecompositionPass
import LeoUTF8.CompositionCorrectness
import LeoUTF8.TableAssumptions
import LeoUTF8.EncodingCorrectness
import LeoUTF8.OptionMapping
import LeoUTF8.OptionDecomposition
import LeoUTF8.CellReordering
import LeoUTF8.OptionPass
import LeoUTF8.OptionEncoding
import LeoUTF8.ValidatorLanguage
import LeoUTF8.MapCorrectness
import LeoUTF8.OptionMaps
import LeoUTF8.FailureOutputs
import LeoUTF8.TransformStatus
import LeoUTF8.CodepointCounting
import LeoUTF8.OutputEncoding
import LeoUTF8.NFDReference
import LeoUTF8.NFCReference
import LeoUTF8.CaseFolding
import LeoUTF8.NulBoundaries
import LeoUTF8.NormalForms
import LeoUTF8.FrameworkBridges
import LeoUTF8.BridgeRoundTrips
import LeoUTF8.BridgeStatuses
import LeoUTF8.ReadBounds
import LeoUTF8.ExpectProbe
import LeoUTF8.HexParsing
import LeoUTF8.CaseFiles
import LeoUTF8.CaseLoading
import LeoUTF8.ProbeVerdicts
import LeoUTF8.ReferenceMapping
import LeoUTF8.NulTerminatedMaps
import LeoUTF8.GraphemeClusters
import LeoUTF8.WellFormedOutput
import LeoUTF8.CallProtocols
import LeoUTF8.MappingAbsorption
import LeoUTF8.FileProbes
import LeoUTF8.ProbeSafety
import LeoUTF8.MappingBoundaries
import LeoUTF8.SplitHeaps
import LeoUTF8.ClientSessions
import LeoUTF8.CaseVerdicts
import LeoUTF8.ControlCharacters
import LeoUTF8.LineBoundaries
import LeoUTF8.CodecRoundTrips
import LeoUTF8.MapErrors
import LeoUTF8.StringFunctions
