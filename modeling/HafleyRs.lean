import HafleyRs.Soopy.StageStore
import HafleyRs.Lib.Mirror
import HafleyRs.SqliteExt.CollectorRuns
import HafleyRs.HafleyScm.CfgShape
import HafleyRs.Lib.Dominance
import HafleyRs.Lib.Worklist
import HafleyRs.HafleyScm.LowerWalk
import HafleyRs.Lib.TreeWalk
import HafleyRs.BoopStore.Import
import HafleyRs.BoopStore.ReminderRuns
import HafleyRs.BoopStore.ReminderPacing
import HafleyRs.BoopStore.MailAgreement
import HafleyRs.BoopStore.MessageLine
import HafleyRs.Soopy.WatchProofs
import HafleyRs.BoopProc.DoorBudgetRuns
import HafleyRs.Redux.PoolSlots
import HafleyRs.Redux.Store
import HafleyRs.Soopy.EditSplice
import HafleyRs.BoopStore.SessionFocus
import HafleyRs.BoopStore.Held
import HafleyRs.SprefaExtract.Diff
import HafleyRs.BoopStore.Tail
import HafleyRs.BoopStore.UsageWindows
import HafleyRs.BoopStore.Activity
import HafleyRs.Ghcache.CheckoutTasks
import HafleyRs.BoopProc.HeadWatchRuns
import HafleyRs.BoopProc.EndLatch
import HafleyRs.BoopAcp.AcpChannelRuns
import HafleyRs.BoopStore.Timestamps
import HafleyRs.BoopStore.Registry
import HafleyRs.BoopStore.Traces
import HafleyRs.BoopTurnvis.Located
import HafleyRs.Soopy.StageStoreAgree
import HafleyRs.BoopProc.SuperviseRuns
import HafleyRs.BoopStore.RuntimeAgree
import HafleyRs.BoopStore.TurnStore
import HafleyRs.BoopHarness.OmpRuns
import HafleyRs.BoopStore.TraceRuns
import HafleyRs.HafleyScm.MacroFixpoint
import HafleyRs.BoopHarness.MessagesRuns
import HafleyRs.BoopHarness.OpencodeSyncCaughtUp
import HafleyRs.BoopStore.TranscriptPasses
import HafleyRs.Soopy.EditAccept
import HafleyRs.Soopy.MutationRefusals
import HafleyRs.Soopy.MutationPaths
import HafleyRs.SprefaExtract.GraphDiscovery
import HafleyRs.Soopy.WatchObserved
import HafleyRs.HafleyScm.MacroTrail
import HafleyRs.Soopy.CommitAdmit
import HafleyRs.Lib.FileTreeViews
import HafleyRs.BoopTurnvis.Lines
import HafleyRs.Ghcache.Sweep
import HafleyRs.BoopTurnvis.TurnMatch
import HafleyRs.HafleyScm.Parens
import HafleyRs.HafleyScm.ParensCut
import HafleyRs.HafleyScm.ParensEnds
import HafleyRs.SprefaExtract.Stratify
import HafleyRs.SprefaExtract.MoveSweep
import HafleyRs.BoopProc.Carcass
import HafleyRs.BoopProc.HeadMoves
import HafleyRs.BoopStore.Liveness
import HafleyRs.HafleyScm.ScopeTree
import HafleyRs.BoopHarness.OpencodeIngest
import HafleyRs.BoopHarness.CodexChildren
import HafleyRs.BoopHarness.KimiPasses
import HafleyRs.HafleyScm.MacroMemo
import HafleyRs.SprefaExtract.RelativePaths
import HafleyRs.HafleyScm.Deps
import HafleyRs.SprefaExtract.Trail
import HafleyRs.BoopHarness.IsoMs
import HafleyRs.BoopTurnstrip.Measure
import HafleyRs.BoopTurnstrip.Gap
import HafleyRs.BoopTurnstrip.Squares
import HafleyRs.BoopStore.Diagnostic
import HafleyRs.SprefaExtract.StrataDepths
import HafleyRs.HafleyScm.JsonExtras
import HafleyRs.Soopy.SpanExact
import HafleyRs.Soopy.CommitSafety
