import MeshNode.Config.Json
import MeshNode.Describe
import MeshNode.Node.Build
import MeshNode.Node.Clock
import MeshNode.Node.Light
import MeshNode.Node.Message
import MeshNode.Node.Restore
import MeshNode.Node.Rules
import MeshNode.Node.Scene
import MeshNode.Snapshot.Binary
import MeshNode.Proofs.Bindings.CalmBindings
import MeshNode.Proofs.Transition.Superseding
import MeshNode.Proofs.Transition.TimerConsistency
import MeshNode.Proofs.Transition.TimerAgreement
import MeshNode.Proofs.Transactions.Deduplication
import MeshNode.Proofs.Clock.SplitAdvance
import MeshNode.Proofs.Isolation.IsolatedInstances
import MeshNode.Proofs.Bindings.LampsInStep
import MeshNode.Proofs.Light.LampsWithinRange
import MeshNode.Proofs.Light.NewRange
import MeshNode.Proofs.Storage.SavedImages
import MeshNode.Proofs.Replies.WaitingClients
import MeshNode.Proofs.Reports.RemainingTime
import MeshNode.Proofs.Bindings.NestingDepth
import MeshNode.Proofs.Transactions.DragStart
import MeshNode.Proofs.Reports.MeasuredTime
import MeshNode.Proofs.Effects.OncePerWrite
import MeshNode.Proofs.Clock.LoopTermination
import MeshNode.Proofs.Bindings.PassedOnOnce
import MeshNode.Proofs.Node.Refusals
import MeshNode.Proofs.Codec.SnapshotRoundTrip
import MeshNode.Proofs.Storage.RestoredCaptures
import MeshNode.Proofs.Reports.SuccessEvents
import MeshNode.Proofs.Storage.Histories
import MeshNode.Proofs.Light.LastLightness
import MeshNode.Proofs.Light.PowerUp
import MeshNode.Proofs.Transition.Moves
import MeshNode.Proofs.Replies.AnsweredOnce
import MeshNode.Proofs.Bindings.RepeatedRequests
import MeshNode.Proofs.Codec.CanonicalDurations
import MeshNode.Proofs.Bindings.Registration
import MeshNode.Proofs.Timers.FiringOrder
import MeshNode.Proofs.Storage.SceneRecall
import MeshNode.Proofs.Codec.TornSnapshots
import MeshNode.Proofs.Storage.HistoryLength
import MeshNode.Proofs.Codec.MessageParameters
import MeshNode.Proofs.Codec.ConfigTexts
