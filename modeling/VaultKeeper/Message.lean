import VaultKeeper.Encryption

/-!
# Network Messages

`p2p/src/message.rs`: what nodes send to each other, and the challenges and proofs of
storage among it, from `core/src/types.rs`.
-/

namespace VaultKeeper

/-- Challenge for Proof-of-Storage. -/
structure StorageChallenge where
  chunkId : ChunkId
  leafIndices : List UInt64
  nonce : Nonce
  timestamp : UInt64

/-- Response to a Proof-of-Storage challenge. -/
structure StorageProof where
  chunkId : ChunkId
  leafIndices : List UInt64
  leaves : List Bytes
  proofs : List (List String)
  root : String

/-- All P2P message types. -/
inductive P2pMessage
  /-- Request chunks from a peer. -/
  | chunkRequest (chunkId : ChunkId) (shardIndices : List ℕ)
  /-- Respond with chunk shards. -/
  | chunkResponse (chunkId : ChunkId) (shardIndex : ℕ) (data : Bytes)
  /-- Announce chunk availability. -/
  | chunkAnnounce (chunkId : ChunkId) (availableShards : List ℕ)
  /-- Request proof of storage. -/
  | challengeRequest (challenge : StorageChallenge)
  /-- Respond with storage proof. -/
  | challengeResponse (proof : StorageProof)
  /-- Heartbeat ping. -/
  | heartbeat (nodeId : String) (timestamp availableSpaceBytes : UInt64)
  /-- Heartbeat pong. -/
  | heartbeatAck (nodeId : String) (timestamp : UInt64)
  /-- Ledger sync message. -/
  | ledgerSync (merkleRoot : String) (fromSeq : UInt64) (entries : List Bytes)
  /-- Request ledger entries from a specific sequence number. -/
  | ledgerRequest (fromSeq : UInt64)
  /-- Replication request. -/
  | replicationRequest (chunkId : ChunkId) (targetShards : List ℕ)
  /-- Node joining the network. -/
  | nodeJoin (nodeId peerId : String) (availableSpace : UInt64)

/-- Wrapper for gossip messages with sender info. -/
structure GossipMessage where
  senderPeerId : String
  message : P2pMessage
  timestamp : UInt64
  sequence : UInt64

end VaultKeeper
