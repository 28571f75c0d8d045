import Whosecoin.Library.Maps
import Whosecoin.Transactions

/-!
The accounts of `block.c`. A block has the accounts that it changes, and all others are
those of the blocks before it.
-/

namespace Whosecoin.Accounts

open Library.Outcomes
open Library.ByteStrings
open Library.Maps
open Cryptography
open Transactions

/-- An `account_t` without its `prev`. Of the block that `block` points to only
the height is ever read. -/
structure Account where
  value : UInt64
  blockHeight : UInt32
deriving DecidableEq

/-- An `account_t *`: the account versions reached along `prev`, latest first;
`NULL` is the empty list. -/
abbrev AccountPtr := List Account

/-- A `struct block` without its `prev_block` and its `children`. -/
structure Block where
  timestamp : UInt64
  merkleRoot : Hash
  publicKey : PublicKey
  sortitionProof : VrfProof
  signature : Signature
  delegate : UInt32
  transactions : List Transaction
  hash : Hash
  sortitionSeed : Hash
  sortitionHash : VrfOutput
  sortitionPriority : Hash
  height : UInt32
  accounts : Map PublicKey AccountPtr
deriving DecidableEq

/-- A `block_t *`: the blocks reached along `prev_block`, itself first; `NULL` is
the empty list. `prev_block` is only ever set while a block is built, so every
such chain is finite. -/
abbrev BlockPtr := List Block

/-- What the creator of a block is paid for it. -/
abbrev coinbaseTransaction : UInt64 := 1024

/-- The value that gives an account one delegate. -/
abbrev delegateValue : UInt64 := 1024

/-- How many blocks an account waits before it may stake. -/
abbrev waitingPeriod : UInt32 := 16

/-- Search the branch from the leaf to the root, and return the first account that is
found. -/
def blockGetAccount : BlockPtr → PublicKey → AccountPtr
  | [], _ => []
  | block :: prev, publicKey =>
      match block.accounts.get publicKey with
      | some account => account
      | none => blockGetAccount prev publicKey

/-- The height of a missing block is zero. -/
def blockGetHeight : BlockPtr → UInt32
  | [] => 0
  | block :: _ => block.height

/-- The hash of a missing block is all zero. -/
def blockGetHash : BlockPtr → Hash
  | [] => Bytes.zero generichashBytes
  | block :: _ => block.hash

/-- The `value` of an account, and zero for a missing one. -/
def accountValue : AccountPtr → UInt64
  | [] => 0
  | account :: _ => account.value

/-- One delegate for each `DELEGATE_VALUE` of the account. -/
def accountGetDelegates (account : Account) : UInt64 :=
  account.value / delegateValue

/-- The last account on the way along `prev`. -/
def firstVersion : Account → AccountPtr → Account
  | account, [] => account
  | _, prev :: earlier => firstVersion prev earlier

/-- Whether the key may create the child of the block. -/
def isStakingAllowed (block : BlockPtr) (publicKey : PublicKey) : Bool :=
  match block with
  | [] => true
  | _ :: _ =>
      match blockGetAccount block publicKey with
      | [] => false
      | account :: prev =>
          let delegates := (accountGetDelegates account).toUInt32
          if delegates = 0 then false
          else
            let height := blockGetHeight block
            let accountBlockHeight := (firstVersion account prev).blockHeight
            height ≤ waitingPeriod || accountBlockHeight + waitingPeriod ≤ height

/-- Change the value of an account of the block being built: the block's own
version when it has one, else a new version on top of the latest one of the
ancestors. -/
def updateAccount (prev : BlockPtr) (height : UInt32) (accounts : Map PublicKey AccountPtr)
    (publicKey : PublicKey) (change : UInt64 → UInt64) : Map PublicKey AccountPtr :=
  match accounts.get publicKey with
  | some (account :: earlier) =>
      accounts.set publicKey ({ account with value := change account.value } :: earlier)
  | _ =>
      let prevAccount := blockGetAccount prev publicKey
      accounts.set publicKey (⟨change (accountValue prevAccount), height⟩ :: prevAccount)

/-- One iteration of `are_transactions_valid`; `none` where it returns false. -/
def applyTransaction (prev : BlockPtr) (height : UInt32) (accounts : Map PublicKey AccountPtr)
    (txn : Transaction) : Option (Map PublicKey AccountPtr) :=
  let accounts := updateAccount prev height accounts txn.sender (· - txn.value)
  -- the source compares the unsigned balance with zero
  if accountValue ((accounts.get txn.sender).getD []) < 0 then none
  else some (updateAccount prev height accounts txn.recipient (· + txn.value))

/-- The loop over the transactions, which stops at the first one that is not valid. -/
def applyTransactions (prev : BlockPtr) (height : UInt32) :
    Map PublicKey AccountPtr → List (Option Transaction) →
      Outcome (Option (Map PublicKey AccountPtr))
  | accounts, [] => .ok (some accounts)
  | _, none :: _ => .error .assertion
  | accounts, some txn :: txns =>
      match applyTransaction prev height accounts txn with
      | none => .ok none
      | some accounts => applyTransactions prev height accounts txns

theorem applyTransactions_some {prev : BlockPtr} {height : UInt32}
    {accounts result : Map PublicKey AccountPtr} {txns : List (Option Transaction)}
    (h : applyTransactions prev height accounts txns = .ok (some result)) :
    txns.reduceOption.map some = txns := by
  induction txns generalizing accounts with
  | nil => rfl
  | cons txn txns ih =>
      rcases txn with _ | txn
      · simp [applyTransactions] at h
      · rw [applyTransactions] at h
        cases happly : applyTransaction prev height accounts txn with
        | none => simp [happly] at h
        | some next =>
            simp only [happly] at h
            simp [List.reduceOption_cons_of_some, ih h]

/-- `are_transactions_valid`, with the account map that it builds. -/
def areTransactionsValid (prev : BlockPtr) (publicKey : PublicKey) (height : UInt32)
    (txns : List (Option Transaction)) : Outcome (Option (Map PublicKey AccountPtr)) :=
  let prevCreatorAccount := blockGetAccount prev publicKey
  let creatorAccount : Account :=
    ⟨accountValue prevCreatorAccount + coinbaseTransaction, height⟩
  applyTransactions prev height
    (Map.set [] publicKey (creatorAccount :: prevCreatorAccount)) txns

end Whosecoin.Accounts
