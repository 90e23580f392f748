import Nostrautica.Js.JsonFacts
import Nostrautica.Protocol.RosterFacts
import Nostrautica.Protocol.ConfigFacts
import Nostrautica.Protocol.SettingsMergeFacts
import Nostrautica.Store.JobsFacts
import Nostrautica.Store.PurgeFacts
import Nostrautica.Store.PairsFacts
import Nostrautica.Coordinator.RotationFacts
import Nostrautica.Coordinator.RevocationFacts
import Nostrautica.Publish.Stamps
import Nostrautica.Coordinator.BillingFacts
import Nostrautica.Coordinator.RetentionFacts
import Nostrautica.Coordinator.RelayHandoverFacts
import Nostrautica.Coordinator.InstallsFacts
import Nostrautica.Publish.RosterPages
import Nostrautica.Coordinator.TalksFacts
import Nostrautica.Coordinator.CapacityFacts
import Nostrautica.Store.RunnerFacts
import Nostrautica.Coordinator.InboundFacts
import Nostrautica.Protocol.RosterAddressFacts
import Nostrautica.Coordinator.ScoringFacts
import Nostrautica.Coordinator.SubmissionsFacts
import Nostrautica.Media.ProgressFacts
import Nostrautica.Publish.DirectoryFacts
import Nostrautica.App.MonotonicFacts
import Nostrautica.App.KeystoreFacts
import Nostrautica.App.DiscardFacts
import Nostrautica.App.InboxScansFacts
import Nostrautica.App.ClientRoster
import Nostrautica.Coordinator.Fencing
import Nostrautica.Coordinator.PromptsFacts
import Nostrautica.App.ClientRosterFacts
import Nostrautica.App.ClientRotation
import Nostrautica.App.ClientRotationFacts
import Nostrautica.App.RosterRewrite
import Nostrautica.App.RosterRewriteFacts
import Nostrautica.App.PagedReadsFacts
import Nostrautica.App.Attach
import Nostrautica.Coordinator.CashuFacts
import Nostrautica.Android.MergesFacts
import Nostrautica.Coordinator.ChatLinksFacts
import Nostrautica.App.GrantsFacts
import Nostrautica.Android.RosterFacts
import Nostrautica.Android.GiftWrapFacts
import Nostrautica.Js.JsonParseFacts
import Nostrautica.App.SubmitRevs
import Nostrautica.App.Library
import Nostrautica.App.ChatIdentity
import Nostrautica.App.ChatSnapshotFacts
import Nostrautica.App.ConfigWrites
import Nostrautica.App.SettingsFacts
import Nostrautica.App.SharedLists
import Nostrautica.Coordinator.TranscriptsFacts
import Nostrautica.App.TabLeaderFacts
import Nostrautica.Protocol.SettingsEditFacts
import Nostrautica.Protocol.EventPage
import Nostrautica.Protocol.EckIdentityFacts
import Nostrautica.Store.Usage
import Nostrautica.Store.Restore
import Nostrautica.Store.Supersede
import Nostrautica.Store.AtRestFacts
import Nostrautica.Coordinator.RejectedJoins
import Nostrautica.Coordinator.BatchScoresFacts
import Nostrautica.App.InviteUsage
import Nostrautica.App.TimelineFacts
import Nostrautica.Android.Nip19Facts
import Nostrautica.Media.VttFacts
import Nostrautica.Coordinator.ChatKeyOrder
import Nostrautica.App.SignerUnwrap
import Nostrautica.Coordinator.HistoryWalkFacts
import Nostrautica.Coordinator.SafeFetchFacts
import Nostrautica.App.DmReadStateFacts
import Nostrautica.Protocol.CoordinateFacts
import Nostrautica.Android.Nip44Facts
import Nostrautica.App.Ics
import Nostrautica.Android.JsJson
import Nostrautica.App.RecentEventsFacts
import Nostrautica.App.EventLink
import Nostrautica.App.ExclusiveLock
import Nostrautica.App.Nip46Rpc
import Nostrautica.App.Dedupe
import Nostrautica.Coordinator.InboxRate
import Nostrautica.Coordinator.Matching
import Nostrautica.Coordinator.ModelJson
import Nostrautica.Store.Drain
import Nostrautica.Coordinator.Entitlement
import Nostrautica.Coordinator.SeenIds
import Nostrautica.Coordinator.Budget
import Nostrautica.App.MarkdownLists
import Nostrautica.App.RefreshGuard
import Nostrautica.App.ScanBudget
