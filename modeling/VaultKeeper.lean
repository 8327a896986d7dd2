import VaultKeeper.MerkleBinding
import VaultKeeper.Challenge
import VaultKeeper.Conservation
import VaultKeeper.SplitRevenue
import VaultKeeper.HourlyPricing
import VaultKeeper.SyncRounds
import VaultKeeper.SyncResults
import VaultKeeper.Timestamp
import VaultKeeper.GossipNet
import VaultKeeper.SeenMessages
import VaultKeeper.Liveness
import VaultKeeper.PeerDeath
import VaultKeeper.FailedStore
import VaultKeeper.Chunking
import VaultKeeper.MerklePath
import VaultKeeper.LedgerPaging
import VaultKeeper.CheckpointHistory
import VaultKeeper.Discovery
import VaultKeeper.ProRata
import VaultKeeper.LeafBinding
import VaultKeeper.SyncNetwork
import VaultKeeper.Adverts
import VaultKeeper.StoreFrame
import VaultKeeper.NodeRecovery
import VaultKeeper.StoreHistory
import VaultKeeper.Detection
import VaultKeeper.GossipWait
import VaultKeeper.MajorityVote
import VaultKeeper.PeerDeaths
import VaultKeeper.LogReplay
import VaultKeeper.Runway
import VaultKeeper.StoreSize
import VaultKeeper.FileRecovery
import VaultKeeper.Distribution
import VaultKeeper.TierBill
import VaultKeeper.StoreListing
