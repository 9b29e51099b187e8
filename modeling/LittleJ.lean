import LittleJ.Main
import LittleJ.Measure.Consistency
import LittleJ.Measure.Coverage
import LittleJ.Measure.Round
import LittleJ.Measure.Share
import LittleJ.Proofs.ChainedComparisons
import LittleJ.Proofs.CountedLoop
import LittleJ.Proofs.ElementAssignment
import LittleJ.Proofs.FiniteRun
import LittleJ.Proofs.Lapses
import LittleJ.Proofs.LibraryCalls
import LittleJ.Proofs.LoopCondition
import LittleJ.Proofs.Opacity
import LittleJ.Proofs.OwnLimits
import LittleJ.Proofs.Parts
import LittleJ.Proofs.PrintedFunction
import LittleJ.Proofs.Segmentation
import LittleJ.Proofs.Slices
import LittleJ.Proofs.StreamPieces
import LittleJ.Proofs.Termination
import LittleJ.Proofs.TypedLines
import LittleJ.Proofs.UnchangedCode
import LittleJ.Proofs.VarFirst
import LittleJ.Proofs.WrittenString
import LittleJ.SymbolTable
import LittleJ.Workload
