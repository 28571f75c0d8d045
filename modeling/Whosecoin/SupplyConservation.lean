import Whosecoin.LedgerRefinement

namespace Whosecoin.SupplyConservation

open Library.ByteStrings
open Library.Ledgers
open Cryptography
open Accounts
open Blockchains
open Chains
open LedgerRefinement

instance finite_bytes (n : Nat) : Finite (Bytes n) := by
  have hlt : ∀ b : Bytes n, b.value < 256 ^ n := by
    intro b
    have h := bigEndian_lt b.toList
    rwa [b.length_eq] at h
  apply Finite.of_injective fun b : Bytes n => (⟨b.value, hlt b⟩ : Fin (256 ^ n))
  intro a b h
  exact Bytes.value_injective (congrArg Fin.val h)

noncomputable instance fintype_bytes (n : Nat) : Fintype (Bytes n) :=
  Fintype.ofFinite _

/-- The sum of the balances of all public keys. -/
noncomputable def totalSupply (chain : BlockPtr) : Nat :=
  ∑ pk : PublicKey, (accountValue (blockGetAccount chain pk)).toNat

theorem sum_exactLedger (chain : BlockPtr) :
    ∑ pk : PublicKey, exactLedger chain pk = chain.length * 1024 := by
  have hwithin : ∀ b ∈ chain.map fun block => batchOf block.publicKey block.transactions,
      b.Within (Finset.univ : Finset PublicKey) := by
    intro b _
    exact ⟨Finset.mem_univ _, fun t _ => ⟨Finset.mem_univ _, Finset.mem_univ _⟩⟩
  have hsum := sum_replay (1024 : Int) Finset.univ _ hwithin
  rw [List.length_map, nsmul_eq_mul] at hsum
  exact hsum

theorem totalSupply_modEq {S : Sodium} {chain : BlockPtr} (built : Built S chain) :
    totalSupply chain ≡ 1024 * chain.length [MOD 2 ^ 64] := by
  have hsum : ((totalSupply chain : Nat) : ZMod (2 ^ 64)) =
      reduction (∑ pk : PublicKey, exactLedger chain pk) := by
    rw [totalSupply, Nat.cast_sum, map_sum]
    apply Finset.sum_congr rfl
    intro pk _
    exact congrFun (storedResidues_eq built) pk
  rw [sum_exactLedger] at hsum
  rw [← ZMod.natCast_eq_natCast_iff, hsum, mul_comm]
  simp

/-- Only the coinbases change what all accounts of a stored block hold together. -/
theorem totalSupply_of_run {S : Sodium} {stored : List BlockPtr} {bc : Blockchain}
    (run : BuiltRun S stored bc) (chain : BlockPtr) (hstored : chain ∈ stored) :
    totalSupply chain ≡ 1024 * chain.length [MOD 2 ^ 64] :=
  totalSupply_modEq (run.built chain hstored)

/-- Two blocks, the second with two payments of the miner to a new account, which
pays itself in between. -/
theorem totalSupply_of_run_payments :
    let genesis := minedBlock 1 [] []
    totalSupply (minedBlock 2 genesis [payment 1 100 0, payment 2 30 0, payment 1 7 1]) ≡
      1024 * (minedBlock 2 genesis [payment 1 100 0, payment 2 30 0, payment 1 7 1]).length
        [MOD 2 ^ 64] := by
  intro genesis
  obtain ⟨bc₁, run₁⟩ := BuiltRun.create.mine (.inl rfl) 1 [] (by decide +kernel)
    (by decide +kernel)
  obtain ⟨bc₂, run₂⟩ := run₁.mine (.inr (List.mem_singleton_self genesis)) 2
    [payment 1 100 0, payment 2 30 0, payment 1 7 1] (by decide +kernel) (by decide +kernel)
  exact totalSupply_of_run run₂ _ (by simp)

end Whosecoin.SupplyConservation
