import SwissArmyHammer.Cache.Memoization
import SwissArmyHammer.Cache.Mirror
import SwissArmyHammer.Cache.Settling
import SwissArmyHammer.Cache.Transparency
import SwissArmyHammer.ClaudeAgent.PromptRuns
import SwissArmyHammer.ClaudeAgent.StreamedOnce
import SwissArmyHammer.CodeContext.CallSites
import SwissArmyHammer.CodeContext.CalleeIds
import SwissArmyHammer.CodeContext.DirtyMarks
import SwissArmyHammer.CodeContext.Duplication
import SwissArmyHammer.CodeContext.EdgePass
import SwissArmyHammer.CodeContext.Embedded
import SwissArmyHammer.CodeContext.Locate
import SwissArmyHammer.CodeContext.Reconcile
import SwissArmyHammer.CodeContext.Reextract
import SwissArmyHammer.CodeContext.TsLinks
import SwissArmyHammer.Diagnostics.Clean
import SwissArmyHammer.Diagnostics.Settled
import SwissArmyHammer.Directory.IncludeExpansion
import SwissArmyHammer.Edit.AnchorOps
import SwissArmyHammer.Edit.Retries
import SwissArmyHammer.Edit.Similarity
import SwissArmyHammer.Entities.AttachmentsFollow
import SwissArmyHammer.Entities.PartialChanges
import SwissArmyHammer.Entities.Rereading
import SwissArmyHammer.FieldDefs.Exact
import SwissArmyHammer.FilterExpr.Renderings
import SwissArmyHammer.Focus.Navigate
import SwissArmyHammer.Focus.Termination
import SwissArmyHammer.Hooks.Refusals
import SwissArmyHammer.Kanban.CommentLog
import SwissArmyHammer.Kanban.TransferKeeps
import SwissArmyHammer.Kanban.DatesRuns
import SwissArmyHammer.Kanban.ShortRefs
import SwissArmyHammer.Kanban.TagAppend
import SwissArmyHammer.Kanban.TagEntities
import SwissArmyHammer.Kanban.TiedOrdinals
import SwissArmyHammer.Leader.Bus
import SwissArmyHammer.Leader.SharedFiles
import SwissArmyHammer.Leader.RequestIds
import SwissArmyHammer.Leader.Takeover
import SwissArmyHammer.Lsp.Client
import SwissArmyHammer.Lsp.Documents
import SwissArmyHammer.Merge.Chronology
import SwissArmyHammer.Merge.Frontmatter
import SwissArmyHammer.Merge.Jsonl
import SwissArmyHammer.Perspectives.Mirror
import SwissArmyHammer.RateLimit.Windows
import SwissArmyHammer.Recording.Playback
import SwissArmyHammer.Review.BatchSplit
import SwissArmyHammer.Review.Checklist
import SwissArmyHammer.Review.FanOut
import SwissArmyHammer.Review.ParseFindings
import SwissArmyHammer.Review.PromptCap
import SwissArmyHammer.Review.ReadWorking
import SwissArmyHammer.Review.Regions
import SwissArmyHammer.Search.Dominance
import SwissArmyHammer.Sem.Identity
import SwissArmyHammer.Sem.Impact
import SwissArmyHammer.Sem.IncrementalUpdate
import SwissArmyHammer.Shell.OutputHistory
import SwissArmyHammer.Store.Atomicity
import SwissArmyHammer.Store.Groups
import SwissArmyHammer.Store.LinearHistory
import SwissArmyHammer.Store.Trimming
import SwissArmyHammer.Terminals.Capture
import SwissArmyHammer.Terminals.Stoppable
