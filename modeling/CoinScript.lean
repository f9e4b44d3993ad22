import CoinScript.Digest.Standard
import CoinScript.Machine.Verify
import CoinScript.Proofs.Codec.Concatenation
import CoinScript.Proofs.Codec.Shortest
import CoinScript.Proofs.Codec.Truncation
import CoinScript.Proofs.Log.JsonLine
import CoinScript.Proofs.Log.Timestamp
import CoinScript.Proofs.Machine.Arithmetic
import CoinScript.Proofs.Machine.Balance
import CoinScript.Proofs.Machine.Commitment
import CoinScript.Proofs.Machine.Conditional
import CoinScript.Proofs.Machine.DataOnly
import CoinScript.Proofs.Machine.Demand
import CoinScript.Proofs.Machine.Handover
import CoinScript.Proofs.Machine.KeyHash
import CoinScript.Proofs.Machine.Lifetime
import CoinScript.Proofs.Machine.Locality
import CoinScript.Proofs.Machine.Quorum
import CoinScript.Proofs.Machine.ScriptHash
import CoinScript.Proofs.Machine.Search
import CoinScript.Proofs.Machine.Skipping
import CoinScript.Proofs.Machine.Telling
import CoinScript.Proofs.Machine.Truth
import CoinScript.Proofs.Number.Canonical
import CoinScript.Proofs.Number.Words
import CoinScript.Proofs.Script.Address
import CoinScript.Proofs.Script.Append
import CoinScript.Proofs.Script.Builder
import CoinScript.Proofs.Script.Deletion
import CoinScript.Proofs.Script.Disassembly
import CoinScript.Proofs.Script.PushForms
import CoinScript.Proofs.Script.Rejection
import CoinScript.Proofs.Script.Remarks
import CoinScript.Proofs.Script.Slice
import CoinScript.Proofs.Script.Terms
