import Prismoire.ForkAgreement
import Prismoire.Concurrency
import Prismoire.DrainWakeups
import Prismoire.DrainCaps
import Prismoire.DrainPeering
import Prismoire.ActiveStance
import Prismoire.SignedCanonical
import Prismoire.FrontierPairs
import Prismoire.ReverseScore
import Prismoire.RefreshRaces
import Prismoire.InterestRouting
import Prismoire.RebuildLoop
import Prismoire.BackfillHealing
import Prismoire.OwnStance
import Prismoire.Termination
import Prismoire.Handshake
import Prismoire.RegistrationRuns
import Prismoire.PushAgreement
import Prismoire.RecoveredBytes
import Prismoire.InviteLimits
import Prismoire.Moderation
import Prismoire.RemovalReach
import Prismoire.DeletedAccounts
import Prismoire.DeletedRooms
import Prismoire.RateLimiters
import Prismoire.AttachmentFetch
import Prismoire.UploadBudget
import Prismoire.EvictionOrder
import Prismoire.UploadRights
import Prismoire.WireForms
import Prismoire.SignatureDomains
import Prismoire.SearchMirror
import Prismoire.BackfillWalks
import Prismoire.ReplyCounts
import Prismoire.ListingWalks
import Prismoire.AddressGate
import Prismoire.AdmissionCaps
import Prismoire.PublishedCeilings
import Prismoire.SelfEdges
import Prismoire.ForwardingFanout
import Prismoire.ForwardedEdges
import Prismoire.Permalink
import Prismoire.FilterUnion
import Prismoire.InterestWidening
import Prismoire.DenseGraph
import Prismoire.DistrustOrder
import Prismoire.EdgeRoots
import Prismoire.Filenames
import Prismoire.Redelivery
