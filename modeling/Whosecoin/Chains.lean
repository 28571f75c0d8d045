import Whosecoin.PrincipalChain

namespace Whosecoin.Chains

open Library.Outcomes
open Library.ByteStrings
open Library.Maps
open Cryptography
open TupleParser
open Transactions
open Accounts
open Blocks
open Blockchains
open BlockTree
open PrincipalChain

/-- The block carries the account map that `are_transactions_valid` builds for
it on top of `prev`. -/
structure Extends (block : Block) (prev : BlockPtr) : Prop where
  height_eq : block.height = 1 + blockGetHeight prev
  accounts_eq : areTransactionsValid prev block.publicKey block.height
    (block.transactions.map some) = .ok (some block.accounts)

theorem extends_of_blockCreate {S : Sodium} {now : UInt64} {pk : PublicKey} {sk : SecretKey}
    {prev prev' : BlockPtr} {txns : List Transaction} {block : Block}
    (h : blockCreate S now pk sk prev txns = .ok (block :: prev')) :
    prev' = prev ∧ Extends block prev := by
  simp only [blockCreate] at h
  split at h
  · simp at h
  split at h
  · simp at h
  simp only [pure_eq_ok, bind_eq_ok] at h
  obtain ⟨result, hvalid, h⟩ := h
  cases result with
  | none => simp at h
  | some accounts =>
      simp only [Except.ok.injEq, List.cons.injEq] at h
      obtain ⟨rfl, rfl⟩ := h
      exact ⟨rfl, rfl, hvalid⟩

theorem eq_cons_of_blockCreate {S : Sodium} {now : UInt64} {pk : PublicKey} {sk : SecretKey}
    {prev block : BlockPtr} {txns : List Transaction}
    (h : blockCreate S now pk sk prev txns = .ok block) (hne : block ≠ []) :
    ∃ data, block = data :: prev := by
  cases block with
  | nil => exact absurd rfl hne
  | cons data prev' =>
      obtain ⟨rfl, -⟩ := extends_of_blockCreate h
      exact ⟨data, rfl⟩

/-- What `block_create_from_tuple` has computed or checked for a block. -/
structure Accepted (S : Sodium) (block : Block) (prev : BlockPtr) : Prop
    extends Extends block prev where
  hash_eq : block.hash = blockComputeHash S block prev block.transactions.length
  seed_eq : block.sortitionSeed = blockComputeSeed S prev
  verified : S.vrfVerify block.publicKey block.sortitionProof block.sortitionSeed.toList =
    some block.sortitionHash
  priority_eq : block.sortitionPriority = delegateHash S block.sortitionHash block.delegate

theorem accepted_of_blockCreateFromTuple {S : Sodium} {tuple : Tuple} {find : Hash → BlockPtr}
    {prev : BlockPtr} {block : Block}
    (h : blockCreateFromTuple S tuple find = .ok (block :: prev)) :
    (∃ hash, prev = find hash) ∧ Accepted S block prev := by
  simp only [blockCreateFromTuple, bind_eq_ok] at h
  obtain ⟨valid, -, h⟩ := h
  split at h
  · simp at h
  simp only [pure_eq_ok, bind_eq_ok] at h
  obtain ⟨header, -, signature, -, txns, -, timestamp, -, prevBlock, -, merkleRoot, -,
    publicKey, -, proof, -, delegate, -, prevHash, -, root, -, pk, -, vrfProof, -, sig, -, h⟩ := h
  split at h
  · simp at h
  split at h
  · simp at h
  rename_i sortitionHash hverified
  split at h
  · simp at h
  simp only [bind_eq_ok] at h
  obtain ⟨transactions, -, h⟩ := h
  split at h
  · simp at h
  simp only [bind_eq_ok] at h
  obtain ⟨result, hvalid, h⟩ := h
  cases result with
  | none => simp at h
  | some accounts =>
      simp only [Except.ok.injEq, List.cons.injEq] at h
      obtain ⟨rfl, rfl⟩ := h
      rw [areTransactionsValid] at hvalid
      have hsome := applyTransactions_some hvalid
      have hlength := congrArg List.length hsome
      rw [List.length_map] at hlength
      refine ⟨⟨prevHash, rfl⟩, ?_⟩
      exact
        { height_eq := rfl
          accounts_eq := by
            rw [areTransactionsValid, hsome]
            exact hvalid
          hash_eq := by
            simp only [blockComputeHash, hlength]
            rfl
          seed_eq := rfl
          verified := hverified
          priority_eq := rfl }

theorem extends_of_blockCreateFromTuple {S : Sodium} {tuple : Tuple} {find : Hash → BlockPtr}
    {prev : BlockPtr} {block : Block}
    (h : blockCreateFromTuple S tuple find = .ok (block :: prev)) :
    (∃ hash, prev = find hash) ∧ Extends block prev :=
  ⟨(accepted_of_blockCreateFromTuple h).1, (accepted_of_blockCreateFromTuple h).2.toExtends⟩

theorem tail_of_blockCreateFromTuple {S : Sodium} {tuple : Tuple} {find : Hash → BlockPtr}
    {block : BlockPtr} (h : blockCreateFromTuple S tuple find = .ok block) (hne : block ≠ []) :
    ∃ hash, block.tail = find hash := by
  cases block with
  | nil => exact absurd rfl hne
  | cons data prev => exact (extends_of_blockCreateFromTuple h).1

/-- The pointers that `block_create` and `block_create_from_tuple` can return,
with arbitrary keys, transactions and tuples. -/
inductive Built (S : Sodium) : BlockPtr → Prop where
  | null : Built S []
  | create {now : UInt64} {pk : PublicKey} {sk : SecretKey} {prev block : BlockPtr}
      {txns : List Transaction} (hprev : Built S prev)
      (hcall : blockCreate S now pk sk prev txns = .ok block) : Built S block
  | accept {tuple : Tuple} {find : Hash → BlockPtr} {block : BlockPtr}
      (hfind : ∀ hash, Built S (find hash))
      (hcall : blockCreateFromTuple S tuple find = .ok block) : Built S block

theorem Built.cons {S : Sodium} {block : Block} {prev : BlockPtr}
    (built : Built S (block :: prev)) : Extends block prev ∧ Built S prev := by
  cases built with
  | create hprev hcall =>
      obtain ⟨rfl, hext⟩ := extends_of_blockCreate hcall
      exact ⟨hext, hprev⟩
  | accept hfind hcall =>
      obtain ⟨⟨hash, rfl⟩, hext⟩ := extends_of_blockCreateFromTuple hcall
      exact ⟨hext, hfind hash⟩

/-- The induction along `prev_block`. -/
theorem Built.induction {S : Sodium} {motive : (chain : BlockPtr) → Built S chain → Prop}
    (null : motive [] .null)
    (extend : ∀ block prev, Extends block prev → ∀ (hprev : Built S prev)
      (built : Built S (block :: prev)), motive prev hprev → motive (block :: prev) built)
    (chain : BlockPtr) (built : Built S chain) : motive chain built := by
  induction chain with
  | nil => exact null
  | cons block prev ih =>
      obtain ⟨hext, hprev⟩ := built.cons
      exact extend block prev hext hprev built (ih hprev)

/-- A run of a node that only adds blocks it has built or accepted. -/
inductive BuiltRun (S : Sodium) : List BlockPtr → Blockchain → Prop where
  | create : BuiltRun S [] blockchainCreate
  | add {stored : List BlockPtr} {bc : Blockchain} {block : BlockPtr} {r : AddResult}
      (run : BuiltRun S stored bc) (hbuilt : Built S block) (hadd : Addable stored block)
      (hcall : blockchainAddBlock bc block = .ok r) :
      BuiltRun S (if r.added then stored ++ [block] else stored) r.blockchain

theorem BuiltRun.built {S : Sodium} {stored : List BlockPtr} {bc : Blockchain}
    (run : BuiltRun S stored bc) : ∀ block ∈ stored, Built S block := by
  induction run with
  | create => simp
  | @add stored bc block r run hbuilt hadd hcall ih =>
      intro b hb
      split at hb
      · rcases List.mem_append.mp hb with hold | hnew
        · exact ih b hold
        · rw [List.mem_singleton.mp hnew]
          exact hbuilt
      · exact ih b hb

theorem BuiltRun.tree {S : Sodium} {stored : List BlockPtr} {bc : Blockchain}
    (run : BuiltRun S stored bc) : Tree stored bc := by
  induction run with
  | create => exact tree_blockchainCreate
  | add run hbuilt hadd hcall ih =>
      obtain ⟨r, hr, hspec⟩ := blockchainAddBlock_spec ih hadd
      rw [hcall, Except.ok.injEq] at hr
      exact hr ▸ hspec.tree

theorem BuiltRun.exists_add {S : Sodium} {stored : List BlockPtr} {bc : Blockchain}
    {block : BlockPtr} (run : BuiltRun S stored bc) (hbuilt : Built S block)
    (hadd : Addable stored block) (hnew : blockGetHash block ∉ stored.map blockGetHash) :
    ∃ bc', BuiltRun S (stored ++ [block]) bc' := by
  obtain ⟨r, hr, hspec⟩ := blockchainAddBlock_spec run.tree hadd
  have hrun := BuiltRun.add run hbuilt hadd hr
  rw [if_pos (hspec.added_iff.mpr hnew)] at hrun
  exact ⟨r.blockchain, hrun⟩

section Samples

def minerKey : PublicKey := Bytes.ofList _ [1]

def minerSecret : SecretKey := Bytes.ofList _ [1]

def payeeKey : PublicKey := Bytes.ofList _ [2]

def payment (sender : UInt8) (value : UInt64) (nonce : UInt32) : Transaction :=
  transactionCreate transparent (Bytes.ofList _ [sender]) (Bytes.ofList _ [sender])
    payeeKey value nonce

/-- What `block_create` returns to the miner, under the transparent scheme. -/
def minedBlock (now : UInt64) (prev : BlockPtr) (txns : List Transaction) : BlockPtr :=
  (blockCreate transparent now minerKey minerSecret prev txns).toOption.getD []

theorem built_minedBlock {prev : BlockPtr} (hprev : Built transparent prev) (now : UInt64)
    (txns : List Transaction) : Built transparent (minedBlock now prev txns) := by
  rw [minedBlock]
  cases hcall : blockCreate transparent now minerKey minerSecret prev txns with
  | error e => exact .null
  | ok block => exact .create hprev hcall

theorem eq_ok_of_toOption {result : Outcome BlockPtr} (h : result.toOption.getD [] ≠ []) :
    result = .ok (result.toOption.getD []) := by
  cases result with
  | ok block => rfl
  | error e => exact absurd rfl h

theorem blockCreate_eq_minedBlock {now : UInt64} {prev : BlockPtr} {txns : List Transaction}
    (hne : minedBlock now prev txns ≠ []) :
    blockCreate transparent now minerKey minerSecret prev txns = .ok (minedBlock now prev txns) :=
  eq_ok_of_toOption hne

theorem addable_minedBlock {stored : List BlockPtr} {prev : BlockPtr} {now : UInt64}
    {txns : List Transaction} (hprev : prev = [] ∨ prev ∈ stored)
    (hne : minedBlock now prev txns ≠ []) : Addable stored (minedBlock now prev txns) := by
  have hcall := blockCreate_eq_minedBlock hne
  refine ⟨hne, ?_⟩
  rcases hmined : minedBlock now prev txns with _ | ⟨data, prev'⟩
  · exact absurd hmined hne
  · rw [hmined] at hcall
    obtain ⟨rfl, -⟩ := extends_of_blockCreate hcall
    exact hprev

theorem BuiltRun.mine {stored : List BlockPtr} {bc : Blockchain} {prev : BlockPtr}
    (run : BuiltRun transparent stored bc) (hprev : prev = [] ∨ prev ∈ stored)
    (now : UInt64) (txns : List Transaction) (hne : minedBlock now prev txns ≠ [])
    (hnew : blockGetHash (minedBlock now prev txns) ∉ stored.map blockGetHash) :
    ∃ bc', BuiltRun transparent (stored ++ [minedBlock now prev txns]) bc' := by
  have hbuilt : Built transparent prev := by
    rcases hprev with rfl | hmem
    · exact .null
    · exact run.built prev hmem
  exact run.exists_add (built_minedBlock hbuilt now txns) (addable_minedBlock hprev hne) hnew

end Samples

end Whosecoin.Chains
