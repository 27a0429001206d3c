import ModulePurity.Main
import ModulePurity.Proofs.CheckRuns
import ModulePurity.Proofs.CommentRanges
import ModulePurity.Proofs.DottedPaths
import ModulePurity.Proofs.EditOrder
import ModulePurity.Proofs.EditedReport
import ModulePurity.Proofs.FileEdits
import ModulePurity.Proofs.FilePlaces
import ModulePurity.Proofs.FixedPoint
import ModulePurity.Proofs.FusedMark
import ModulePurity.Proofs.ImposedSeverity
import ModulePurity.Proofs.LintedFiles
import ModulePurity.Proofs.OnePass
import ModulePurity.Proofs.PathOrder
import ModulePurity.Proofs.Permissiveness
import ModulePurity.Proofs.PureMarks
import ModulePurity.Proofs.RepeatedEdits
import ModulePurity.Proofs.Splices
import ModulePurity.Proofs.AcceptedEdits
import ModulePurity.Proofs.StableSort
import ModulePurity.Proofs.TransparentParens
import ModulePurity.Proofs.FileBlocks
import ModulePurity.Proofs.Exclusion
import ModulePurity.Proofs.Climbing
import ModulePurity.Proofs.SingleFile
import ModulePurity.Proofs.WaivedLines
import ModulePurity.Proofs.WaiverGrammar
import ModulePurity.Proofs.DocumentOrder
import ModulePurity.Proofs.RuleSelection
import ModulePurity.Proofs.LeadingBack
import ModulePurity.Proofs.FolderPatterns
import ModulePurity.Proofs.FirstFault
import ModulePurity.Proofs.CallPathGrammar
import ModulePurity.Proofs.ReportCodec
import ModulePurity.Proofs.OptionTables
import ModulePurity.Proofs.Addresses
