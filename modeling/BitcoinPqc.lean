import BitcoinPqc.Lib.Exec
import BitcoinPqc.Lib.Cyclic
import BitcoinPqc.Lib.Heap
import BitcoinPqc.Lib.Sponge
import BitcoinPqc.Params
import BitcoinPqc.Entropy
import BitcoinPqc.Streams
import BitcoinPqc.Fips202
import BitcoinPqc.Derandomize
import BitcoinPqc.Schemes
import BitcoinPqc.SchemesProofs
import BitcoinPqc.CApi
import BitcoinPqc.CApiProofs
import BitcoinPqc.Lib.Ledger
import BitcoinPqc.Session
import BitcoinPqc.Lifetime
import BitcoinPqc.Ownership
import BitcoinPqc.Reproducible
import BitcoinPqc.Interleaving
import BitcoinPqc.Lib.Hex
import BitcoinPqc.RustApi
import BitcoinPqc.Lib.Checks
import BitcoinPqc.RustProofs
import BitcoinPqc.SignVerify
import BitcoinPqc.Exports
import BitcoinPqc.Lib.Serde
import BitcoinPqc.Serialization
import BitcoinPqc.Bindings
import BitcoinPqc.Agreement
import BitcoinPqc.Lib.Overwrite
import BitcoinPqc.Seed
import BitcoinPqc.Sources
import BitcoinPqc.MlDsaSignature
import BitcoinPqc.Verdict
import BitcoinPqc.Unsupported
import BitcoinPqc.Fallback
import BitcoinPqc.Lib.Blocks
import BitcoinPqc.Lib.Loops
import BitcoinPqc.Lib.Merkle
import BitcoinPqc.Lib.Winternitz
import BitcoinPqc.Keccak.Permutation
import BitcoinPqc.Keccak.Shake
import BitcoinPqc.Spx.Address
import BitcoinPqc.Spx.Scheme
import BitcoinPqc.Spx.Shake
import BitcoinPqc.Spx.Treehash
import BitcoinPqc.Spx.Position
import BitcoinPqc.Spx.Hypertree
import BitcoinPqc.Spx.Wots
import BitcoinPqc.Spx.Layers
import BitcoinPqc.Spx.Fors
import BitcoinPqc.Spx.Signature
import BitcoinPqc.Spx.Linked
import BitcoinPqc.Dilithium.Encoding
import BitcoinPqc.Dilithium.Ring
import BitcoinPqc.Dilithium.Sample
import BitcoinPqc.Dilithium.Scheme
import BitcoinPqc.Dilithium.Stream
