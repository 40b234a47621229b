import Narjar.BoundedSelection
import Narjar.ChunkFragmentation
import Narjar.ChunkRepairs
import Narjar.ChunkedOutcome
import Narjar.CleanupCursor
import Narjar.ClosureProtection
import Narjar.ConcurrentIngest
import Narjar.EgressSelection
import Narjar.FlatProjection
import Narjar.FlatSelection
import Narjar.ManifestCodec
import Narjar.MeshProxy
import Narjar.NarInfoRestriction
import Narjar.NarPositions
import Narjar.NarinfoRemoval
import Narjar.Nix32Text
import Narjar.ProofCaches
import Narjar.PublicationIndex
import Narjar.PublicationRecovery
import Narjar.PublishTargets
import Narjar.PushOrder
import Narjar.RequestFraming
import Narjar.ServedLengths
import Narjar.StagingBudget
import Narjar.VerifiedStreams
