import Whosecoin.Cryptography
import Whosecoin.TupleParser

namespace Whosecoin.Transactions

open Library.Outcomes
open Library.ByteStrings
open Cryptography
open TupleParser

/-- A `transaction_t`. -/
structure Transaction where
  sender : PublicKey
  recipient : PublicKey
  value : UInt64
  nonce : UInt32
  signature : Signature
  hash : Hash
deriving DecidableEq

/-- `memcpy` of `count` bytes into a zero-initialised array of `n` bytes. -/
def memcpy (n : Nat) (data : List UInt8) (count : Nat) : Outcome (Bytes n) :=
  if n < count then .error .outOfBounds
  else (readBytes data 0 count).map (Bytes.ofList n)

/-- The checks of the types and the lengths of a transaction. -/
def transactionIsValid (tuple : Tuple) : Outcome Bool := do
  if tupleSize tuple ≠ 2 then return false
  if (← tupleGetType tuple 0) ≠ Tag.tupleStart.byte then return false
  if (← tupleGetType tuple 1) ≠ Tag.binary.byte then return false
  if (← tupleGetBinary tuple 1).length ≠ signBytes then return false
  let txn ← tupleGetTuple tuple 0
  if (← tupleGetType txn 0) ≠ Tag.binary.byte then return false
  if (← tupleGetBinary txn 0).length ≠ publicKeyBytes then return false
  if (← tupleGetType txn 1) ≠ Tag.binary.byte then return false
  if (← tupleGetBinary txn 1).length ≠ publicKeyBytes then return false
  if (← tupleGetType txn 2) ≠ (Tag.scalar .u64).byte then return false
  if (← tupleGetType txn 3) ≠ (Tag.scalar .u32).byte then return false
  return true

/-- The unsigned tuple of a transaction, which its hash covers. -/
def transactionHashInput (txn : Transaction) : List UInt8 :=
  let buf := tupleWriteStart []
  let buf := tupleWriteBinary buf txn.sender.toList
  let buf := tupleWriteBinary buf txn.recipient.toList
  let buf := tupleWriteU64 buf txn.value
  let buf := tupleWriteU32 buf txn.nonce
  tupleWriteEnd buf

/-- The hash of the tuple that is signed. -/
def transactionComputeHash (S : Sodium) (txn : Transaction) : Transaction :=
  { txn with hash := S.generichash (transactionHashInput txn) }

/-- A transaction is hashed and then signed. -/
def transactionCreate (S : Sodium) (publicKey : PublicKey) (privateKey : SecretKey)
    (recipient : PublicKey) (value : UInt64) (nonce : UInt32) : Transaction :=
  let result : Transaction :=
    { sender := publicKey
      recipient := recipient
      value := value
      nonce := nonce
      signature := Bytes.zero signBytes
      hash := Bytes.zero generichashBytes }
  let result := transactionComputeHash S result
  { result with signature := S.signDetached result.hash.toList privateKey }

/-- A `transaction_t *` is `none` when it is `NULL`. -/
def transactionCreateFromTuple (S : Sodium) (tuple : Tuple) : Outcome (Option Transaction) := do
  if !(← transactionIsValid tuple) then return none
  let txn ← tupleGetTuple tuple 0
  let signature ← tupleGetBinary tuple 1
  let sender ← tupleGetBinary txn 0
  let recipient ← tupleGetBinary txn 1
  let value ← tupleGetU64 txn 2
  let nonce ← tupleGetU32 txn 3
  let result : Transaction :=
    { sender := ← memcpy publicKeyBytes sender.data sender.length
      recipient := ← memcpy publicKeyBytes recipient.data recipient.length
      value := value
      nonce := nonce
      signature := Bytes.zero signBytes
      hash := Bytes.zero generichashBytes }
  let result := transactionComputeHash S result
  let result := { result with
    signature := ← memcpy signBytes signature.data signature.length }
  if !S.signVerifyDetached result.signature result.hash.toList result.sender then return none
  return some result

def transactionWrite (buf : List UInt8) (txn : Transaction) : List UInt8 :=
  let buf := tupleWriteStart buf
  let buf := tupleWriteStart buf
  let buf := tupleWriteBinary buf txn.sender.toList
  let buf := tupleWriteBinary buf txn.recipient.toList
  let buf := tupleWriteU64 buf txn.value
  let buf := tupleWriteU32 buf txn.nonce
  let buf := tupleWriteEnd buf
  let buf := tupleWriteBinary buf txn.signature.toList
  tupleWriteEnd buf

end Whosecoin.Transactions
