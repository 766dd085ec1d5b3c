import LispIndex.DocComment.ParamName
import LispIndex.Main
import LispIndex.Proofs.CacheAccounting
import LispIndex.Proofs.CacheTransparency
import LispIndex.Proofs.CaseBlindness
import LispIndex.Proofs.Joining
import LispIndex.Proofs.LiveTrees
import LispIndex.Proofs.NameTable
import LispIndex.Proofs.ParenScan
import LispIndex.Proofs.PoolSearch
import LispIndex.Proofs.Resolution
import LispIndex.Proofs.Uncommented
import LispIndex.Proofs.ConfigText
import LispIndex.Proofs.FormHeads
import LispIndex.Proofs.Assignments
import LispIndex.Proofs.ExportTargets
import LispIndex.Proofs.LeadingComment
import LispIndex.Proofs.PositionSearch
import LispIndex.Proofs.HeadSearch
import LispIndex.Proofs.SymbolGroups
import LispIndex.Proofs.CacheRecency
import LispIndex.Proofs.MarkingOrder
import LispIndex.Proofs.CommentBlocks
import LispIndex.Proofs.LetterFolding
import LispIndex.Proofs.ScopeIdentity
import LispIndex.Proofs.ParamPlaces
import LispIndex.Proofs.ParamEntries
import LispIndex.Proofs.KeywordHistory
import LispIndex.Proofs.NumberGrammar
