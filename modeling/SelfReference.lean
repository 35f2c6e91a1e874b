import SelfReference.Main
import SelfReference.Proofs.MonotoneEvaluation
import SelfReference.Proofs.Rounds
import SelfReference.Proofs.Runs
import SelfReference.Proofs.LeastFixedPoint
import SelfReference.Proofs.Construction
import SelfReference.Proofs.SharedRounds
import SelfReference.Proofs.Reachability
import SelfReference.Proofs.SearchInvariant
import SelfReference.Proofs.SearchMoves
import SelfReference.Proofs.Components
import SelfReference.Proofs.Cycles
import SelfReference.Proofs.ClosedWorld
import SelfReference.Proofs.StepwiseRuns
import SelfReference.Proofs.ChangeCounts
import SelfReference.Proofs.Embeddings
import SelfReference.Proofs.Locality
import SelfReference.Proofs.DefinitionOrder
import SelfReference.Proofs.Renaming
import SelfReference.Proofs.RenamedRuns
import SelfReference.Proofs.ReachedLiterals
import SelfReference.Proofs.GapFree
import SelfReference.Proofs.JsonText
import SelfReference.Proofs.JsonDefinitions
import SelfReference.Proofs.QuotedToml
import SelfReference.Proofs.TomlLines
import SelfReference.Proofs.TomlSections
import SelfReference.Proofs.TomlTables
import SelfReference.Proofs.TomlDefinitions
import SelfReference.Proofs.Unfolding
import SelfReference.Proofs.InlinedFacts
import SelfReference.Proofs.RecursiveValues
import SelfReference.Proofs.AcyclicRuns
import SelfReference.Proofs.SolvedFiles
import SelfReference.Proofs.CheckedConnectives
import SelfReference.Proofs.ByteOrder
import SelfReference.Proofs.ReportedFaults
import SelfReference.Proofs.Tallies
import SelfReference.Proofs.Accounts
import SelfReference.Proofs.Snapshots
import SelfReference.Proofs.AddedEvidence
import SelfReference.Proofs.WrittenFormulas
import SelfReference.Proofs.RearrangedOperands
import SelfReference.Proofs.Rings
import SelfReference.Proofs.PositionTables
import SelfReference.Proofs.NegationNormal
import SelfReference.Proofs.JoinedAssignments
import SelfReference.Proofs.TomlIntegers
import SelfReference.Proofs.SettingsText
import SelfReference.Proofs.DirectoryWalks
import SelfReference.Proofs.TreeChanges
import SelfReference.Proofs.SavedSettings
import SelfReference.Proofs.ReadableFormulas
import SelfReference.Proofs.QuietLines
import SelfReference.Proofs.SearchTables
import SelfReference.Proofs.ComponentOrder
