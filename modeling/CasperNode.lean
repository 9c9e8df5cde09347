import CasperNode.Library.LittleEndian
import CasperNode.Library.OrdMap
import CasperNode.Library.Claims
import CasperNode.Types.Bytesrepr
import CasperNode.Types.Key
import CasperNode.Types.CLValue
import CasperNode.Types.CLValueBytes
import CasperNode.Types.StoredValue
import CasperNode.Shared.Transform
import CasperNode.Shared.AdditiveMap
import CasperNode.Core.TrackingCopy
import CasperNode.Storage.GlobalState
import CasperNode.Core.TrackingCopyEffects
import CasperNode.Library.Merkle
import CasperNode.Hashing.Digest
import CasperNode.Hashing.MerkleProofs
import CasperNode.ChainSync.FetchTrie
import CasperNode.Storage.Trie
import CasperNode.Storage.TrieOperations
import CasperNode.Storage.TrieCanonical
import CasperNode.Storage.TrieScan
import CasperNode.Storage.TrieWrite
import CasperNode.Storage.TrieDelete
import CasperNode.Storage.TrieRuns
import CasperNode.Storage.TrieKeys
import CasperNode.Storage.TrieKeysWalk
import CasperNode.Storage.TrieKeysOrder
import CasperNode.Storage.Scratch
import CasperNode.Storage.CommitRefinement
import CasperNode.Consensus.FinalityDetector
import CasperNode.Consensus.Evidence
import CasperNode.Consensus.ForkChoice
import CasperNode.Library.SkipList
import CasperNode.Library.WordBits
import CasperNode.Consensus.SkipLists
import CasperNode.Library.BinarySearch
import CasperNode.Consensus.Leader
import CasperNode.Core.TrackingCopyQuery
import CasperNode.Storage.MerkleProof
import CasperNode.System.Vesting
import CasperNode.System.Auction
import CasperNode.System.Staking
import CasperNode.System.Ledger
import CasperNode.System.Solvency
import CasperNode.System.AuctionRuns
import CasperNode.BlockProposer.AppendableBlock
import CasperNode.BlockProposer.Limits
import CasperNode.Library.Quorum
import CasperNode.Library.Ratio
import CasperNode.LinearChain.Signatures
import CasperNode.Types.Account
import CasperNode.Storage.DisjointSequences
import CasperNode.Library.Text
import CasperNode.Types.KeyFormat
import CasperNode.Storage.MissingTries
import CasperNode.Gossiper.GossipTable
import CasperNode.SmallNetwork.Limiter
import CasperNode.Consensus.Panorama
import CasperNode.Library.Pruning
import CasperNode.Consensus.Horizon
import CasperNode.Consensus.Synchronizer
import CasperNode.Consensus.SynchronizerRuns
import CasperNode.Consensus.Summit
