import TreeReduction.Command.Arguments
import TreeReduction.Command.Perform
import TreeReduction.Execution.Log
import TreeReduction.Graph.Shape
import TreeReduction.Graph.Unfold
import TreeReduction.Kernel.Phase
import TreeReduction.Kernel.Run
import TreeReduction.Main
import TreeReduction.Record.Reader
import TreeReduction.Seed.Loader
import TreeReduction.Settings
import TreeReduction.Trace.Binary
import TreeReduction.Value.Document
import TreeReduction.Proofs.CanonicalText
import TreeReduction.Proofs.Closure
import TreeReduction.Proofs.Embedding
import TreeReduction.Proofs.FloatFreedom
import TreeReduction.Proofs.Iteration
import TreeReduction.Proofs.Lockstep
import TreeReduction.Proofs.ReservedKeys
import TreeReduction.Proofs.RoundTrip
import TreeReduction.Proofs.SpellingInvariance
import TreeReduction.Proofs.RespellingTwice
import TreeReduction.Proofs.Loading
import TreeReduction.Proofs.SpreadText
import TreeReduction.Proofs.Nesting
import TreeReduction.Proofs.SeedDocuments
import TreeReduction.Proofs.Sealing
import TreeReduction.Proofs.SeedChecksum
import TreeReduction.Proofs.WiderLimits
import TreeReduction.Proofs.Refusals
import TreeReduction.Proofs.TextLengths
import TreeReduction.Proofs.WireGrammar
import TreeReduction.Proofs.TraceFormat
import TreeReduction.Proofs.TraceCorruption
import TreeReduction.Proofs.DepthGuard
import TreeReduction.Proofs.FrameStack
import TreeReduction.Proofs.Performing
import TreeReduction.Proofs.TraceLines
import TreeReduction.Proofs.TraceFiles
import TreeReduction.Proofs.FrameArena
import TreeReduction.Proofs.BoundNames
import TreeReduction.Proofs.SelfMatching
import TreeReduction.Proofs.FirstMatch
import TreeReduction.Proofs.Unfolding
import TreeReduction.Proofs.GraphChanges
import TreeReduction.Proofs.UnfoldingTasks
import TreeReduction.Proofs.LinkedGrammar
import TreeReduction.Proofs.GraphShapes
import TreeReduction.Proofs.CanonicalPieces
import TreeReduction.Proofs.TraceText
import TreeReduction.Proofs.Chains
import TreeReduction.Proofs.ShownPhases
import TreeReduction.Proofs.CommandsInPlace
import TreeReduction.Proofs.AllOrNothing
