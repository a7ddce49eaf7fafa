import Thock.Plus.Blobs
import Thock.Desk.VaultSyncDrain
import Thock.Plus.Spend
import Thock.Plus.PhoneKeys
import Thock.Sync.PruneSafety
import Thock.Desk.History
import Thock.Desk.NoteWriters
import Thock.Desk.BridgePairing
import Thock.Desk.ReadwiseRuns
import Thock.SyncCore.EditsLocal
import Thock.Desk.LineEdits
import Thock.SyncCore.Envelope
import Thock.Plus.SyncPaths
import Thock.Desk.DayGrid
import Thock.BudgetGuard.Restores
import Thock.Plus.PushCoalescer
import Thock.SyncCore.CloseReopen
import Thock.ThockKit.WriteJson
import Thock.SyncCore.DateReads
import Thock.Desk.BacklogCompletes
import Thock.SyncCore.TriageLog
import Thock.Desk.Credentials
import Thock.Desk.BridgeHttp
import Thock.Desk.SearchIndexRuns
import Thock.Desk.InboxPolls
import Thock.Desk.GmailArchiveRuns
import Thock.ThockKit.BlockEditingKeeps
import Thock.Desk.ReminderNotifier
import Thock.ThockKit.WatchOutbox
import Thock.ThockKit.PhoneCaptures
import Thock.ThockKit.TaskLine
import Thock.Sync.NoteAgreement
import Thock.Desk.ReminderReading
import Thock.SyncCore.MirrorReads
import Thock.SyncCore.CheckedApply
import Thock.Desk.PanelRows
