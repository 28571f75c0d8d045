import Whosecoin.Accounts

namespace Whosecoin.Blocks

open Library.Outcomes
open Library.ByteStrings
open Library.Maps
open Cryptography
open TupleParser
open Transactions
open Accounts

section MerkleRoot

variable (S : Sodium)

/-- The loop of `compute_merkle_root` over one level of the array. -/
def merkleLevel : (fuel : Nat) → (hashes : List Hash) → (n i j : Nat) → List Hash × Nat
  | 0, hashes, _, i, _ => (hashes, i)
  | fuel + 1, hashes, n, i, j =>
      if j < n then
        let src := hashes.getD j (Bytes.zero generichashBytes)
        let dst :=
          if j + 1 = n then src
          else
            let next := hashes.getD (j + 1) (Bytes.zero generichashBytes)
            S.generichash (src.toList ++ next.toList)
        merkleLevel fuel (hashes.set i dst) n (i + 1) (j + 2)
      else (hashes, i)

/-- `compute_merkle_root`; every level halves the count, so `n` calls suffice. -/
def computeMerkleRoot : (fuel : Nat) → (hashes : List Hash) → (n : Nat) → List Hash
  | 0, hashes, _ => hashes
  | fuel + 1, hashes, n =>
      if n ≤ 1 then hashes
      else
        let level := merkleLevel S n hashes n 0 0
        computeMerkleRoot fuel level.1 level.2

/-- The end that both callers of `compute_merkle_root` share. -/
def merkleRootOfHashes (hashes : List Hash) : Hash :=
  if 0 < hashes.length then
    (computeMerkleRoot S hashes.length hashes hashes.length).getD 0 (Bytes.zero generichashBytes)
  else Bytes.zero generichashBytes

/-- The root of the transactions of a message. -/
def merkleRootFromTuple (txns : Tuple) : Outcome Hash := do
  let hashes ← (List.range (tupleSize txns)).mapM fun i => do
    let signedTxn ← tupleGetTuple txns i
    let txn ← tupleGetTuple signedTxn 0
    return S.generichash txn.bytes
  return merkleRootOfHashes S hashes

def merkleRootFromList (txns : List Transaction) : Hash :=
  merkleRootOfHashes S (txns.map Transaction.hash)

end MerkleRoot

/-- The header tuple of a block on top of `prev` with `count` transactions. -/
def blockWriteHeader (buf : List UInt8) (block : Block) (prev : BlockPtr) (count : Nat) :
    List UInt8 :=
  let buf := tupleWriteStart buf
  let buf := tupleWriteU64 buf block.timestamp
  let buf := tupleWriteBinary buf (blockGetHash prev).toList
  let buf := tupleWriteBinary buf block.merkleRoot.toList
  let buf := tupleWriteBinary buf block.publicKey.toList
  let buf := tupleWriteBinary buf block.sortitionProof.toList
  let buf := tupleWriteU32 buf block.delegate
  let buf := tupleWriteU32 buf (UInt32.ofNat count)
  tupleWriteEnd buf

/-- A block is the tuple of its header, its signature and its transactions. -/
def blockWrite (buf : List UInt8) : BlockPtr → Outcome (List UInt8)
  | [] => .error .nullPointer
  | block :: prev =>
      let buf := tupleWriteStart buf
      let buf := blockWriteHeader buf block prev block.transactions.length
      let buf := tupleWriteBinary buf block.signature.toList
      let buf := tupleWriteStart buf
      let buf := block.transactions.foldl transactionWrite buf
      let buf := tupleWriteEnd buf
      .ok (tupleWriteEnd buf)

section Construction

variable (S : Sodium)

def blockComputeHash (block : Block) (prev : BlockPtr) (count : Nat) : Hash :=
  S.generichash (blockWriteHeader [] block prev count)

/-- The seed is the hash of the seed and the public key of the previous block. -/
def blockComputeSeed : BlockPtr → Hash
  | [] => S.generichash (List.replicate (generichashBytes + publicKeyBytes) 0)
  | prev :: _ => S.generichash (prev.sortitionSeed.toList ++ prev.publicKey.toList)

/-- The priority of one delegate. -/
def delegateHash (sortitionHash : VrfOutput) (delegate : UInt32) : Hash :=
  S.generichash (sortitionHash.toList ++ toBigEndian 4 delegate.toNat)

/-- The search of `block_create` for the delegate of least priority, from the
delegate `i` on. -/
def minDelegateFrom (sortitionHash : VrfOutput) :
    (remaining i : Nat) → (minDelegate : UInt32) → (min : Hash) → UInt32 × Hash
  | 0, _, minDelegate, min => (minDelegate, min)
  | remaining + 1, i, minDelegate, min =>
      let tmp := delegateHash S sortitionHash (UInt32.ofNat i)
      if memcmp tmp.toList min.toList < 0 then
        minDelegateFrom sortitionHash remaining (i + 1) (UInt32.ofNat i) tmp
      else minDelegateFrom sortitionHash remaining (i + 1) minDelegate min

/-- The delegate of the least priority, the first one of equals, and its priority. -/
def minDelegate (sortitionHash : VrfOutput) (nDelegates : UInt32) : UInt32 × Hash :=
  minDelegateFrom S sortitionHash (nDelegates.toNat - 1) 1 0 (delegateHash S sortitionHash 0)

/-- The number of delegates of a block creator. -/
def nDelegates (prev : BlockPtr) (publicKey : PublicKey) : UInt32 :=
  match blockGetAccount prev publicKey with
  | account :: _ => (accountGetDelegates account).toUInt32
  | [] => if prev = [] then 1 else 0

/-- `block_create`, where `now` is the result of `time`. -/
def blockCreate (now : UInt64) (publicKey : PublicKey) (privateKey : SecretKey)
    (prev : BlockPtr) (txns : List Transaction) : Outcome BlockPtr := do
  if !isStakingAllowed prev publicKey then return []
  let sortitionSeed := blockComputeSeed S prev
  let sortitionProof := S.vrfProve privateKey sortitionSeed.toList
  let sortitionHash := S.vrfProofToHash sortitionProof
  if nDelegates prev publicKey = 0 then return []
  let sortition := minDelegate S sortitionHash (nDelegates prev publicKey)
  let result : Block :=
    { timestamp := now
      merkleRoot := merkleRootFromList S txns
      publicKey := publicKey
      sortitionProof := sortitionProof
      signature := Bytes.zero signBytes
      delegate := sortition.1
      transactions := txns
      hash := Bytes.zero generichashBytes
      sortitionSeed := sortitionSeed
      sortitionHash := sortitionHash
      sortitionPriority := sortition.2
      height := 1 + blockGetHeight prev
      accounts := [] }
  let hash := blockComputeHash S result prev txns.length
  let signature := S.signDetached hash.toList privateKey
  match ← areTransactionsValid prev publicKey result.height (txns.map some) with
  | none => return []
  | some accounts =>
      return { result with hash := hash, signature := signature, accounts := accounts } :: prev

end Construction

section Verification

variable (S : Sodium)

/-- The checks of the types and the lengths of a header. -/
def isHeaderValid (tuple : Tuple) : Outcome Bool := do
  if tupleSize tuple ≠ 7 then return false
  if (← tupleGetType tuple 0) ≠ (Tag.scalar .u64).byte then return false
  if (← tupleGetType tuple 1) ≠ Tag.binary.byte then return false
  if (← tupleGetBinary tuple 1).length ≠ generichashBytes then return false
  if (← tupleGetType tuple 2) ≠ Tag.binary.byte then return false
  if (← tupleGetBinary tuple 2).length ≠ generichashBytes then return false
  if (← tupleGetType tuple 3) ≠ Tag.binary.byte then return false
  if (← tupleGetBinary tuple 3).length ≠ publicKeyBytes then return false
  if (← tupleGetType tuple 4) ≠ Tag.binary.byte then return false
  if (← tupleGetBinary tuple 4).length ≠ vrfProofBytes then return false
  if (← tupleGetType tuple 5) ≠ (Tag.scalar .u32).byte then return false
  if (← tupleGetType tuple 6) ≠ (Tag.scalar .u32).byte then return false
  return true

/-- One iteration of the loop over the transactions in `block_is_valid`. -/
def isTransactionTupleValid (txns : Tuple) (i : Nat) : Outcome Bool := do
  if (← tupleGetType txns i) ≠ Tag.tupleStart.byte then return false
  transactionIsValid (← tupleGetTuple txns i)

/-- The checks of the types of a block, its header and its transactions. -/
def blockIsValid (tuple : Tuple) : Outcome Bool := do
  if tupleSize tuple ≠ 3 then return false
  if (← tupleGetType tuple 0) ≠ Tag.tupleStart.byte then return false
  if (← tupleGetType tuple 1) ≠ Tag.binary.byte then return false
  if (← tupleGetType tuple 2) ≠ Tag.tupleStart.byte then return false
  let header ← tupleGetTuple tuple 0
  let txns ← tupleGetTuple tuple 2
  if !(← isHeaderValid header) then return false
  if tupleSize txns ≠ (← tupleGetU32 header 6).toNat then return false
  if !(← (List.range (tupleSize txns)).allM (isTransactionTupleValid txns)) then return false
  let merkleRoot ← merkleRootFromTuple S txns
  let merkleRootHeader ← tupleGetBinary header 2
  let expected ← readBytes merkleRootHeader.data 0 generichashBytes
  return memcmp merkleRoot.toList expected = 0

/-- The creator of a block on top of `prev` may use this delegate. -/
def isDelegateAllowed (prev : BlockPtr) (publicKey : PublicKey) (delegate : UInt32) : Bool :=
  match prev with
  | [] => true
  | _ :: _ =>
      match blockGetAccount prev publicKey with
      | [] => true
      | account :: _ => delegate < (accountGetDelegates account).toUInt32

/-- Each check that fails makes the function return `NULL`. -/
def blockCreateFromTuple (tuple : Tuple) (find : Hash → BlockPtr) : Outcome BlockPtr := do
  if !(← blockIsValid S tuple) then return []
  let header ← tupleGetTuple tuple 0
  let signature ← tupleGetBinary tuple 1
  let txns ← tupleGetTuple tuple 2
  let timestamp ← tupleGetU64 header 0
  let prevBlock ← tupleGetBinary header 1
  let merkleRoot ← tupleGetBinary header 2
  let publicKey ← tupleGetBinary header 3
  let sortitionProof ← tupleGetBinary header 4
  let delegate ← tupleGetU32 header 5
  let prev := find (← memcpy generichashBytes prevBlock.data generichashBytes)
  let merkleRoot ← memcpy generichashBytes merkleRoot.data generichashBytes
  let publicKey ← memcpy publicKeyBytes publicKey.data publicKeyBytes
  let sortitionProof ← memcpy vrfProofBytes sortitionProof.data vrfProofBytes
  let signature ← memcpy signBytes signature.data signature.length
  if !isStakingAllowed prev publicKey then return []
  let sortitionSeed := blockComputeSeed S prev
  match S.vrfVerify publicKey sortitionProof sortitionSeed.toList with
  | none => return []
  | some sortitionHash =>
      let sortitionPriority := delegateHash S sortitionHash delegate
      if !isDelegateAllowed prev publicKey delegate then return []
      let height := 1 + blockGetHeight prev
      let transactions ← (List.range (tupleSize txns)).mapM fun i => do
        transactionCreateFromTuple S (← tupleGetTuple txns i)
      let result : Block :=
        { timestamp := timestamp
          merkleRoot := merkleRoot
          publicKey := publicKey
          sortitionProof := sortitionProof
          signature := signature
          delegate := delegate
          transactions := transactions.reduceOption
          hash := Bytes.zero generichashBytes
          sortitionSeed := sortitionSeed
          sortitionHash := sortitionHash
          sortitionPriority := sortitionPriority
          height := height
          accounts := [] }
      -- the list still holds a `NULL` for every refused transaction here
      let hash := blockComputeHash S result prev transactions.length
      if !S.signVerifyDetached signature hash.toList publicKey then return []
      match ← areTransactionsValid prev publicKey height transactions with
      | none => return []
      | some accounts => return { result with hash := hash, accounts := accounts } :: prev

end Verification

end Whosecoin.Blocks
