import SelectChain.Main
import SelectChain.Proofs.ScannedPieces
import SelectChain.Proofs.CursorReading
import SelectChain.Proofs.ExpressionReading
import SelectChain.Proofs.ExpressionText
import SelectChain.Proofs.BodyReading
import SelectChain.Proofs.ScopeRules
import SelectChain.Proofs.Acceptance
import SelectChain.Proofs.ColumnText
import SelectChain.Proofs.LoweredTrees
import SelectChain.Proofs.MeaningPreservation
import SelectChain.Proofs.CompoundMarks
import SelectChain.Proofs.LockstepRuns
import SelectChain.Proofs.LockstepGrammar
import SelectChain.Proofs.StreamedLowering
import SelectChain.Proofs.Respelling
import SelectChain.Proofs.FormattingIndependence
import SelectChain.Proofs.OutputText
import SelectChain.Proofs.StuckRuns
import SelectChain.Proofs.StuckGrammar
import SelectChain.Proofs.ErrorPositions
import SelectChain.Proofs.ScanMoves
import SelectChain.Proofs.RenamedText
import SelectChain.Proofs.LineEndings
import SelectChain.Proofs.NameIndependence
import SelectChain.Proofs.StageIndependence
import SelectChain.Proofs.LineNumbers
import SelectChain.Proofs.LongestMatch
import SelectChain.Proofs.EmissionModes
import SelectChain.Proofs.RelevantBindings
import SelectChain.Proofs.OutputNames
import SelectChain.Proofs.WholeFiles
import SelectChain.Proofs.SettledWorlds
import SelectChain.Proofs.FileBatches
import SelectChain.Proofs.ReportContents
import SelectChain.Proofs.UnwoundPositions
import SelectChain.Proofs.ScopeHistory
