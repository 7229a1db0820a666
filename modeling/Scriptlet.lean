import Scriptlet.Main
import Scriptlet.Syntax.Equality
import Scriptlet.Proofs.ProgramGrammar
import Scriptlet.Proofs.MachineGrowth
import Scriptlet.Proofs.Simulation
import Scriptlet.Proofs.CallDepth
import Scriptlet.Proofs.History
import Scriptlet.Proofs.StepLimit
import Scriptlet.Proofs.FrameNames
import Scriptlet.Proofs.Tiling
import Scriptlet.Proofs.ScopeTree
import Scriptlet.Proofs.StructuredReturn
import Scriptlet.Proofs.ScopeChains
import Scriptlet.Proofs.NumberRange
import Scriptlet.Proofs.SourceErrors
import Scriptlet.Proofs.Footprint
import Scriptlet.Proofs.NestingThreshold
import Scriptlet.Proofs.Layout
import Scriptlet.Proofs.JoinedSessions
import Scriptlet.Proofs.ScopeHistory
import Scriptlet.Proofs.CutStreams
import Scriptlet.Proofs.UnmentionedNames
import Scriptlet.Proofs.OutlineReading
import Scriptlet.Proofs.SpacedSources
import Scriptlet.Proofs.Termination
import Scriptlet.Proofs.ShellLines
import Scriptlet.Proofs.EndOfInput
import Scriptlet.Proofs.TreeEquality
import Scriptlet.Proofs.LongestMatch
import Scriptlet.Proofs.FirstFaults
import Scriptlet.Proofs.PinpointedRules
import Scriptlet.Proofs.Listings
import Scriptlet.Proofs.NodePlaces
import Scriptlet.Proofs.Blame
import Scriptlet.Proofs.FunctionIdentity
import Scriptlet.Proofs.StringLiterals
import Scriptlet.Proofs.RepeatedScanning
import Scriptlet.Proofs.AssignmentTargets
import Scriptlet.Proofs.TreeDepth
import Scriptlet.Proofs.ConfinedParsers
import Scriptlet.Proofs.OperatorChains
import Scriptlet.Proofs.NestingDepth
