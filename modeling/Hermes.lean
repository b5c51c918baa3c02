import Hermes.BlockObjects
import Hermes.Buffer
import Hermes.BufferFifo
import Hermes.Coherence
import Hermes.Common
import Hermes.Completeness
import Hermes.Confidentiality
import Hermes.Creation
import Hermes.DataStore
import Hermes.Deletion
import Hermes.Denial
import Hermes.EndToEnd
import Hermes.Enumeration
import Hermes.ErasedRuns
import Hermes.Erasure
import Hermes.Escalation
import Hermes.Faults
import Hermes.Footprint
import Hermes.HashTable
import Hermes.HostileStore
import Hermes.Independence
import Hermes.Instance
import Hermes.Integrity
import Hermes.Interleave.Duplex
import Hermes.Interleave.Ensures
import Hermes.Interleave.Linear
import Hermes.Interleave.Link
import Hermes.Interleave.Net
import Hermes.Interleave.Parts
import Hermes.Interleave.Pool
import Hermes.Interleave.Prog
import Hermes.Interleave.Remote
import Hermes.Interleave.Turns
import Hermes.KeyStore
import Hermes.Keyed
import Hermes.Keys
import Hermes.Knowledge.Derivation
import Hermes.Ledger
import Hermes.Linearisation
import Hermes.Linked.Chain
import Hermes.Loading
import Hermes.LostUpdate
import Hermes.Mac
import Hermes.MemCmp
import Hermes.Memory.Blocks
import Hermes.MidHermes
import Hermes.MidHermesLl.Block
import Hermes.MidHermesLl.Buffer
import Hermes.MidHermesLl.Requests
import Hermes.MidHermesLl.RightsList
import Hermes.MidHermesLl.Token
import Hermes.Network
import Hermes.Provenance.Blocks
import Hermes.Provenance.Facts
import Hermes.Provenance.Names
import Hermes.Provenance.Objects
import Hermes.Provenance.Operations
import Hermes.Rekeying
import Hermes.Revocation
import Hermes.Rights
import Hermes.Rotation
import Hermes.RotationFaults
import Hermes.RotationLists
import Hermes.Rpc.BuffersList
import Hermes.Rpc.Call
import Hermes.Rpc.Encoding
import Hermes.Rpc.Exchange
import Hermes.Rpc.Format
import Hermes.Rpc.Framing
import Hermes.Rpc.Lengths
import Hermes.Rpc.ParamPack
import Hermes.Rpc.Service
import Hermes.Rpc.Stores
import Hermes.Rpc.Stub
import Hermes.Rpc.Synchronisation
import Hermes.Saving
import Hermes.SecureTransport
import Hermes.Sequential
import Hermes.Slice
import Hermes.System
import Hermes.Themis
import Hermes.UpdateStatus
import Hermes.UserTransport
import Hermes.WellFormed
import Hermes.Wire.Items
import Hermes.Wire.Word
import Hermes.World
import Hermes.Writing
