import Whosecoin.HashMaps
import Whosecoin.Representation

/-!
The bucket tables of `map.c` in the place of the abstract maps: every operation on the
tables simulates the one on the maps.
-/

namespace Whosecoin.HashTables

open Library.Outcomes
open Library.ByteStrings
open Library.Maps
open Cryptography
open Transactions
open Accounts
open Blocks
open Blockchains
open Chains
open HashMaps

/-- `N_BLOCK_BUCKETS`. -/
abbrev nBlockBuckets : Nat := 2 ^ 12

/-- `N_TXN_BUCKETS`. -/
abbrev nTxnBuckets : Nat := 2 ^ 12

/-- `N_ACCOUNT_BUCKETS`. -/
abbrev nAccountBuckets : Nat := 16

/-- The last eight bytes of a key, read as a `size_t`. -/
def hash (h : Bytes generichashBytes) : Nat :=
  littleEndian (h.toList.drop (generichashBytes - 8))

def compare (h1 h2 : Bytes generichashBytes) : Int :=
  memcmp h1.toList h2.toList

theorem same_iff (h1 h2 : Bytes generichashBytes) : Same compare h1 h2 ↔ h1 = h2 := by
  rw [Same, compare, memcmp_eq_zero_iff (h1.length_eq.trans h2.length_eq.symm)]
  exact Bytes.ext_iff.symm

theorem equivalence_compare : Equivalence (Same compare) where
  refl := fun h => (same_iff h h).mpr rfl
  symm := fun h => (same_iff _ _).mpr ((same_iff _ _).mp h).symm
  trans := fun h h' => (same_iff _ _).mpr (((same_iff _ _).mp h).trans ((same_iff _ _).mp h'))

theorem respects_hash : Respects hash compare :=
  fun _ _ h => congrArg hash ((same_iff _ _).mp h)

section Tables

variable {ν : Type} {n : Nat} [NeZero n]

/-- A `map_t` with the keys of the program answers as the finite map. -/
def Agrees (table : HashMap (Bytes generichashBytes) ν n)
    (entries : Map (Bytes generichashBytes) ν) : Prop :=
  ∀ key, mapGet hash compare table key = entries.get key

theorem agrees_mapCreate :
    Agrees (mapCreate (Bytes generichashBytes) ν n) ([] : Map (Bytes generichashBytes) ν) := by
  intro key
  rw [mapGet_mapCreate, Map.get_nil]

theorem Agrees.mapSet {table : HashMap (Bytes generichashBytes) ν n}
    {entries : Map (Bytes generichashBytes) ν} (h : Agrees table entries)
    (key : Bytes generichashBytes) (val : ν) :
    Agrees (mapSet hash compare table key val).2 (entries.set key val) := by
  intro other
  rw [mapGet_mapSet equivalence_compare respects_hash, Map.get_set, h other]
  apply if_congr _ rfl rfl
  rw [same_iff]
  exact eq_comm

end Tables

section Blockchain

/-- A `blockchain_t` with its two `map_t`. -/
structure Tables where
  blocks : HashMap Hash BlockPtr nBlockBuckets
  txns : HashMap Hash Transaction nTxnBuckets
  principal : BlockPtr
  children : BlockPtr → List BlockPtr

def tablesCreate : Tables where
  blocks := mapCreate Hash BlockPtr nBlockBuckets
  txns := mapCreate Hash Transaction nTxnBuckets
  principal := []
  children := fun _ => []

/-- What a call of `blockchain_add_block` returns and leaves behind. -/
structure TablesResult where
  added : Bool
  tables : Tables
  extended : List (BlockPtr × BlockPtr)

/-- The block and its transactions are entered in the maps. -/
def tablesStore (tables : Tables) (block : Block) (prev : BlockPtr) : Tables :=
  { tables with
    blocks := (mapSet hash compare tables.blocks block.hash (block :: prev)).2
    children :=
      if prev = [] then tables.children else blockAddChild tables.children prev (block :: prev)
    txns := block.transactions.foldl
      (fun txns txn => (mapSet hash compare txns txn.hash txn).2) tables.txns }

def tablesExtend (tables : Tables) (block : BlockPtr) : TablesResult :=
  ⟨true, { tables with principal := block }, [(tables.principal, block)]⟩

def tablesExtendIfLess (tables : Tables) (block rival : BlockPtr) : TablesResult :=
  if compare (blockGetPriority block) (blockGetPriority rival) < 0 then tablesExtend tables block
  else ⟨true, tables, []⟩

/-- `blockchain_add_block` over the hash tables. -/
def tablesAddBlock (tables : Tables) (block : BlockPtr) : Outcome TablesResult :=
  match mapGet hash compare tables.blocks (blockGetHash block) with
  | some _ => .ok ⟨false, tables, []⟩
  | none =>
      match block with
      | [] => .error .nullPointer
      | data :: prev =>
          let stored := tablesStore tables data prev
          if prev = tables.principal then .ok (tablesExtend stored block)
          else
            match tables.principal with
            | [] => .error .nullPointer
            | _ :: principalPrev =>
                if prev = principalPrev then
                  .ok (tablesExtendIfLess stored block tables.principal)
                else
                  match walkToPrev prev tables.principal [] with
                  | (iter, rival) =>
                      if prev = iter then
                        match rival with
                        | [] => .error .nullPointer
                        | _ :: _ => .ok (tablesExtendIfLess stored block rival)
                      else .ok ⟨true, stored, []⟩

/-- `blockchain_get_block` over the hash tables. -/
def tablesGetBlock (tables : Tables) (key : Hash) : BlockPtr :=
  (mapGet hash compare tables.blocks key).getD []

/-- `blockchain_get_transaction` over the hash tables. -/
def tablesGetTransaction (tables : Tables) (key : Hash) : Option Transaction :=
  mapGet hash compare tables.txns key

/-- Blocks are added one after the other; what the calls return is collected. -/
def tablesAddBlocks (tables : Tables) :
    List BlockPtr → Outcome (List (Bool × List (BlockPtr × BlockPtr)) × Tables)
  | [] => .ok ([], tables)
  | block :: blocks => do
      let r ← tablesAddBlock tables block
      let rest ← tablesAddBlocks r.tables blocks
      return ((r.added, r.extended) :: rest.1, rest.2)

/-- The same calls over the finite maps. -/
def callsOf (bc : Blockchain) :
    List BlockPtr → Outcome (List (Bool × List (BlockPtr × BlockPtr)) × Blockchain)
  | [] => .ok ([], bc)
  | block :: blocks => do
      let r ← blockchainAddBlock bc block
      let rest ← callsOf r.blockchain blocks
      return ((r.added, r.extended) :: rest.1, rest.2)

/-- The tables hold the blockchain. -/
structure Holds (tables : Tables) (bc : Blockchain) : Prop where
  blocks : Agrees tables.blocks bc.blocks
  txns : Agrees tables.txns bc.txns
  principal : tables.principal = bc.principal
  children : tables.children = bc.children

/-- Two calls return the same, and what the one leaves behind holds what the other does. -/
inductive Matches : Outcome TablesResult → Outcome AddResult → Prop
  | fault (fault : Fault) : Matches (.error fault) (.error fault)
  | returns {tables : Tables} {bc : Blockchain} (added : Bool)
      (extended : List (BlockPtr × BlockPtr)) (holds : Holds tables bc) :
      Matches (.ok ⟨added, tables, extended⟩) (.ok ⟨added, bc, extended⟩)

theorem holds_tablesCreate : Holds tablesCreate blockchainCreate where
  blocks := agrees_mapCreate
  txns := agrees_mapCreate
  principal := rfl
  children := rfl

variable {tables : Tables} {bc : Blockchain}

theorem agrees_foldl {table : HashMap Hash Transaction nTxnBuckets}
    {entries : Map Hash Transaction} (h : Agrees table entries) (txns : List Transaction) :
    Agrees (txns.foldl (fun txns txn => (mapSet hash compare txns txn.hash txn).2) table)
      (txns.foldl (fun txns txn => txns.set txn.hash txn) entries) := by
  induction txns generalizing table entries with
  | nil => exact h
  | cons txn txns ih => exact ih (h.mapSet txn.hash txn)

theorem Holds.store (h : Holds tables bc) (block : Block) (prev : BlockPtr) :
    Holds (tablesStore tables block prev) (storeBlock bc block prev) where
  blocks := h.blocks.mapSet block.hash (block :: prev)
  txns := agrees_foldl h.txns block.transactions
  principal := h.principal
  children := by
    simp only [tablesStore, storeBlock, h.children]

theorem Holds.extend (h : Holds tables bc) (block : BlockPtr) :
    Matches (.ok (tablesExtend tables block)) (.ok (extendPrincipal bc block)) := by
  rw [tablesExtend, extendPrincipal, h.principal]
  exact .returns true _ ⟨h.blocks, h.txns, rfl, h.children⟩

theorem Holds.extendIfLess (h : Holds tables bc) (block rival : BlockPtr) :
    Matches (.ok (tablesExtendIfLess tables block rival))
      (.ok (extendIfLess bc block rival)) := by
  rw [tablesExtendIfLess, Blockchains.extendIfLess, compare]
  split_ifs with hless
  · exact h.extend block
  · exact .returns true [] h

theorem Holds.fork (h : Holds tables bc) (block : BlockPtr) (fork : BlockPtr × BlockPtr)
    (prev : BlockPtr) :
    Matches
      (if prev = fork.1 then
        match fork.2 with
        | [] => .error .nullPointer
        | _ :: _ => .ok (tablesExtendIfLess tables block fork.2)
      else .ok ⟨true, tables, []⟩)
      (if prev = fork.1 then
        match fork.2 with
        | [] => .error .nullPointer
        | _ :: _ => .ok (Blockchains.extendIfLess bc block fork.2)
      else .ok ⟨true, bc, []⟩) := by
  by_cases hfork : prev = fork.1
  · rw [if_pos hfork, if_pos hfork]
    cases fork.2 with
    | nil => exact .fault _
    | cons data earlier => exact h.extendIfLess _ _
  · rw [if_neg hfork, if_neg hfork]
    exact .returns true [] h

theorem Holds.addBlock (h : Holds tables bc) (block : BlockPtr) :
    Matches (tablesAddBlock tables block) (blockchainAddBlock bc block) := by
  rw [tablesAddBlock.eq_def, blockchainAddBlock.eq_def, h.blocks]
  cases bc.blocks.get (blockGetHash block) with
  | some old => exact .returns false [] h
  | none =>
      rcases block with _ | ⟨data, prev⟩
      · exact .fault _
      have hstore := h.store data prev
      simp only [h.principal]
      by_cases hextends : prev = bc.principal
      · rw [if_pos hextends, if_pos hextends]
        exact hstore.extend _
      rw [if_neg hextends, if_neg hextends]
      cases bc.principal with
      | nil => exact .fault _
      | cons principal principalPrev =>
          change Matches (if prev = principalPrev then _ else _)
            (if prev = principalPrev then _ else _)
          by_cases hsibling : prev = principalPrev
          · rw [if_pos hsibling, if_pos hsibling]
            exact hstore.extendIfLess _ _
          · rw [if_neg hsibling, if_neg hsibling]
            exact hstore.fork _ _ _

/-- Whole runs match as single calls do. -/
inductive RunsMatch : Outcome (List (Bool × List (BlockPtr × BlockPtr)) × Tables) →
    Outcome (List (Bool × List (BlockPtr × BlockPtr)) × Blockchain) → Prop
  | fault (fault : Fault) : RunsMatch (.error fault) (.error fault)
  | returns {tables : Tables} {bc : Blockchain} (calls : List (Bool × List (BlockPtr × BlockPtr)))
      (holds : Holds tables bc) : RunsMatch (.ok (calls, tables)) (.ok (calls, bc))

theorem Holds.addBlocks (h : Holds tables bc) (blocks : List BlockPtr) :
    RunsMatch (tablesAddBlocks tables blocks) (callsOf bc blocks) := by
  induction blocks generalizing tables bc with
  | nil => exact .returns [] h
  | cons block blocks ih =>
      rw [tablesAddBlocks, callsOf]
      have hcall := h.addBlock block
      generalize tablesAddBlock tables block = result at hcall ⊢
      generalize blockchainAddBlock bc block = result' at hcall ⊢
      cases hcall with
      | fault fault => exact .fault fault
      | @returns tables bc added extended holds =>
          simp only [ok_bind]
          have hrest := ih holds
          generalize tablesAddBlocks tables blocks = rest at hrest ⊢
          generalize callsOf bc blocks = rest' at hrest ⊢
          cases hrest with
          | fault fault => exact .fault fault
          | returns calls holds => exact .returns _ holds

/-- The calls return the same with the hash tables as with finite maps, and so do all
look-ups after them. -/
theorem tables_refine (blocks : List BlockPtr) :
    (∀ fault, tablesAddBlocks tablesCreate blocks = .error fault ↔
        callsOf blockchainCreate blocks = .error fault) ∧
      ∀ calls bc, callsOf blockchainCreate blocks = .ok (calls, bc) →
        ∃ tables, tablesAddBlocks tablesCreate blocks = .ok (calls, tables) ∧
          tables.principal = bc.principal ∧
          (∀ key, tablesGetBlock tables key = blockchainGetBlock bc key) ∧
          ∀ key, tablesGetTransaction tables key = blockchainGetTransaction bc key := by
  have hrun := holds_tablesCreate.addBlocks blocks
  generalize tablesAddBlocks tablesCreate blocks = run at hrun ⊢
  generalize callsOf blockchainCreate blocks = run' at hrun ⊢
  cases hrun with
  | fault fault =>
      constructor
      · intro fault'
        rw [Except.error.injEq, Except.error.injEq]
      · intro calls bc hcalls
        cases hcalls
  | @returns tables bc calls holds =>
      constructor
      · intro fault
        simp
      · intro calls' bc' hcalls
        cases hcalls
        refine ⟨tables, rfl, holds.principal, ?_, holds.txns⟩
        intro key
        rw [tablesGetBlock, blockchainGetBlock, holds.blocks]

end Blockchain

section Accounts

/-- The `accounts` of a block. -/
abbrev AccountTable := HashMap PublicKey AccountPtr nAccountBuckets

/-- `block_get_account` along the tables of a block and its ancestors. -/
def tablesGetAccount : List AccountTable → PublicKey → AccountPtr
  | [], _ => []
  | accounts :: prev, publicKey =>
      match mapGet hash compare accounts publicKey with
      | some account => account
      | none => tablesGetAccount prev publicKey

/-- The change of one account in `are_transactions_valid`. An account of the block
itself is changed in place, its entry keeps its position. -/
def tablesUpdateAccount (prev : List AccountTable) (height : UInt32) (accounts : AccountTable)
    (publicKey : PublicKey) (change : UInt64 → UInt64) : AccountTable :=
  match mapGet hash compare accounts publicKey with
  | some (account :: earlier) =>
      (mapSet hash compare accounts publicKey
        ({ account with value := change account.value } :: earlier)).2
  | _ =>
      let prevAccount := tablesGetAccount prev publicKey
      (mapSet hash compare accounts publicKey
        (⟨change (accountValue prevAccount), height⟩ :: prevAccount)).2

/-- One iteration of `are_transactions_valid` over the hash tables. -/
def tablesApplyTransaction (prev : List AccountTable) (height : UInt32) (accounts : AccountTable)
    (txn : Transaction) : Option AccountTable :=
  let accounts := tablesUpdateAccount prev height accounts txn.sender (· - txn.value)
  if accountValue ((mapGet hash compare accounts txn.sender).getD []) < 0 then none
  else some (tablesUpdateAccount prev height accounts txn.recipient (· + txn.value))

/-- The loop over the transactions, on the tables of the accounts. -/
def tablesApplyTransactions (prev : List AccountTable) (height : UInt32) :
    AccountTable → List (Option Transaction) → Outcome (Option AccountTable)
  | accounts, [] => .ok (some accounts)
  | _, none :: _ => .error .assertion
  | accounts, some txn :: txns =>
      match tablesApplyTransaction prev height accounts txn with
      | none => .ok none
      | some accounts => tablesApplyTransactions prev height accounts txns

/-- `are_transactions_valid` over the hash tables. -/
def tablesAreTransactionsValid (prev : List AccountTable) (publicKey : PublicKey)
    (height : UInt32) (txns : List (Option Transaction)) : Outcome (Option AccountTable) :=
  let prevCreatorAccount := tablesGetAccount prev publicKey
  let creatorAccount : Account :=
    ⟨accountValue prevCreatorAccount + coinbaseTransaction, height⟩
  tablesApplyTransactions prev height
    (mapSet hash compare (mapCreate PublicKey AccountPtr nAccountBuckets) publicKey
      (creatorAccount :: prevCreatorAccount)).2 txns

/-- The tables of a block and its ancestors, each as `are_transactions_valid` has filled it. -/
def accountTables : BlockPtr → List AccountTable
  | [] => []
  | block :: prev =>
      match tablesAreTransactionsValid (accountTables prev) block.publicKey block.height
        (block.transactions.map some) with
      | .ok (some accounts) => accounts :: accountTables prev
      | _ => mapCreate PublicKey AccountPtr nAccountBuckets :: accountTables prev

/-- Two calls of `are_transactions_valid` end alike, with tables that agree. -/
inductive AccountsMatch : Outcome (Option AccountTable) →
    Outcome (Option (Map PublicKey AccountPtr)) → Prop
  | fault (fault : Fault) : AccountsMatch (.error fault) (.error fault)
  | refuses : AccountsMatch (.ok none) (.ok none)
  | accepts {table : AccountTable} {accounts : Map PublicKey AccountPtr}
      (agrees : Agrees table accounts) : AccountsMatch (.ok (some table)) (.ok (some accounts))

variable {tables : List AccountTable} {prev : BlockPtr} {table : AccountTable}
  {accounts : Map PublicKey AccountPtr}

theorem agrees_updateAccount
    (hprev : ∀ key, tablesGetAccount tables key = blockGetAccount prev key)
    (h : Agrees table accounts) (height : UInt32) (publicKey : PublicKey)
    (change : UInt64 → UInt64) :
    Agrees (tablesUpdateAccount tables height table publicKey change)
      (updateAccount prev height accounts publicKey change) := by
  rw [tablesUpdateAccount, updateAccount, h publicKey, hprev publicKey]
  rcases accounts.get publicKey with _ | _ | ⟨account, earlier⟩
  · exact h.mapSet publicKey _
  · exact h.mapSet publicKey _
  · exact h.mapSet publicKey _

theorem accountsMatch_applyTransactions
    (hprev : ∀ key, tablesGetAccount tables key = blockGetAccount prev key)
    (h : Agrees table accounts) (height : UInt32) (txns : List (Option Transaction)) :
    AccountsMatch (tablesApplyTransactions tables height table txns)
      (applyTransactions prev height accounts txns) := by
  induction txns generalizing table accounts with
  | nil => exact .accepts h
  | cons txn txns ih =>
      rcases txn with _ | txn
      · exact .fault _
      have hsender := agrees_updateAccount hprev h height txn.sender (· - txn.value)
      have hrecipient := agrees_updateAccount hprev hsender height txn.recipient (· + txn.value)
      rw [tablesApplyTransactions, applyTransactions, tablesApplyTransaction, applyTransaction,
        hsender txn.sender]
      split_ifs with hnegative
      · exact .refuses
      · exact ih hrecipient

theorem accountsMatch_areTransactionsValid
    (hprev : ∀ key, tablesGetAccount tables key = blockGetAccount prev key)
    (publicKey : PublicKey) (height : UInt32) (txns : List (Option Transaction)) :
    AccountsMatch (tablesAreTransactionsValid tables publicKey height txns)
      (areTransactionsValid prev publicKey height txns) := by
  rw [tablesAreTransactionsValid, areTransactionsValid, hprev publicKey]
  exact accountsMatch_applyTransactions hprev (agrees_mapCreate.mapSet publicKey _) height txns

theorem accountTables_agree {S : Sodium} {block : BlockPtr} (built : Built S block) :
    ∀ key, tablesGetAccount (accountTables block) key = blockGetAccount block key := by
  induction block, built using Built.induction with
  | null =>
      intro key
      rfl
  | extend data prev hextends hprev hbuilt ih =>
      intro key
      have hvalid := accountsMatch_areTransactionsValid ih data.publicKey data.height
        (data.transactions.map some)
      rw [hextends.accounts_eq] at hvalid
      rw [accountTables]
      generalize tablesAreTransactionsValid (accountTables prev) data.publicKey data.height
        (data.transactions.map some) = result at hvalid ⊢
      cases hvalid with
      | accepts agrees =>
          rw [tablesGetAccount, blockGetAccount, agrees key]
          cases data.accounts.get key with
          | none => exact ih key
          | some account => rfl

theorem account_tables_refine {S : Sodium} {block : BlockPtr} (built : Built S block)
    (publicKey : PublicKey) (height : UInt32) (txns : List (Option Transaction)) :
    (∀ key, tablesGetAccount (accountTables block) key = blockGetAccount block key) ∧
      AccountsMatch (tablesAreTransactionsValid (accountTables block) publicKey height txns)
        (areTransactionsValid block publicKey height txns) :=
  ⟨accountTables_agree built,
    accountsMatch_areTransactionsValid (accountTables_agree built) publicKey height txns⟩

/-- A payment over a genesis block. -/
theorem account_tables_refine_genesis :
    (∀ key, tablesGetAccount (accountTables (minedBlock 1 [] [])) key =
        blockGetAccount (minedBlock 1 [] []) key) ∧
      AccountsMatch
        (tablesAreTransactionsValid (accountTables (minedBlock 1 [] [])) minerKey 2
          [some (payment 1 100 0)])
        (areTransactionsValid (minedBlock 1 [] []) minerKey 2 [some (payment 1 100 0)]) :=
  account_tables_refine (built_minedBlock .null 1 []) minerKey 2 [some (payment 1 100 0)]

end Accounts

end Whosecoin.HashTables
