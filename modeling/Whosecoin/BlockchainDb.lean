import Whosecoin.LoneMiners
import Whosecoin.JsonWriters
import Whosecoin.Library.JsonTexts

namespace Whosecoin.BlockchainDb

open Library.Outcomes
open Library.Maps
open Library.JsonTexts
open Cryptography
open Accounts
open Blocks
open Blockchains
open Chains
open JsonWriters
open LoneMiners

/-- `on_extended` of `blockchaindb.c`, which prints the unsigned height with `%d`. -/
def onExtended (_prev block : BlockPtr) : List UInt8 :=
  ascii "height: " ++ integer (blockGetHeight block).toInt32.toInt ++ ascii "\n"

section Program

variable (S : Sodium) (pk : PublicKey) (sk : SecretKey) (times : Nat → UInt64)

/-- One iteration of the loop of `main`, with what has been printed. -/
def extendChain (state : Blockchain × List UInt8) (i : Nat) :
    Outcome (Blockchain × List UInt8) := do
  let prevBlock := state.1.principal
  let block ← blockCreate S (times i) pk sk prevBlock []
  require (block ≠ []) .assertion
  let r ← blockchainAddBlock state.1 block
  return (r.blockchain, state.2 ++ r.extended.flatMap fun call => onExtended call.1 call.2)

/-- What `main` prints, for any number of blocks in place of its 128. -/
def main (count : Nat) : Outcome (List UInt8) := do
  let state ← (List.range count).foldlM (extendChain S pk sk times) (blockchainCreate, [])
  return state.2

/-- The blocks of the loop, each one created on the one before. -/
def chainOf : Nat → BlockPtr
  | 0 => []
  | i + 1 => (blockCreate S (times i) pk sk (chainOf i) []).toOption.getD []

end Program

def heightLine (height : Nat) : List UInt8 :=
  ascii "height: " ++ decimal height ++ ascii "\n"

variable {S : Sodium} {pk : PublicKey} {sk : SecretKey} {times : Nat → UInt64}

/-- No two of the first blocks have one hash. -/
def Distinct (S : Sodium) (pk : PublicKey) (sk : SecretKey) (times : Nat → UInt64) (count : Nat) :
    Prop :=
  ∀ j ≤ count, ∀ i < j, 0 < i →
    blockGetHash (chainOf S pk sk times i) ≠ blockGetHash (chainOf S pk sk times j)

section Chain

theorem exists_next {i : Nat} (alone : Alone S pk sk (chainOf S pk sk times i))
    (hlt : (chainOf S pk sk times i).length < 2 ^ 32) :
    ∃ data, blockCreate S (times i) pk sk (chainOf S pk sk times i) [] =
        .ok (data :: chainOf S pk sk times i) ∧
      chainOf S pk sk times (i + 1) = data :: chainOf S pk sk times i := by
  obtain ⟨block, hcreate⟩ := BlockReception.blockCreate_returns S (times i) pk sk
    (chainOf S pk sk times i) []
  have hne : block ≠ [] := by
    rintro rfl
    rw [Mining.blockCreate_eq_nil_iff, (alone.staking_iff alone.length_le).mpr hlt] at hcreate
    cases hcreate
  obtain ⟨data, rfl⟩ := eq_cons_of_blockCreate hcreate hne
  exact ⟨data, hcreate, by rw [chainOf, hcreate]; rfl⟩

/-- The chain grows by one block in every iteration as long as the key may stake. -/
theorem alone_chainOf {i : Nat} (hi : i ≤ 2 ^ 32) :
    Alone S pk sk (chainOf S pk sk times i) ∧ (chainOf S pk sk times i).length = i := by
  induction i with
  | zero => exact ⟨.null, rfl⟩
  | succ i ih =>
      obtain ⟨alone, hlength⟩ := ih (by omega)
      obtain ⟨data, hcreate, hnext⟩ := exists_next alone (by omega)
      rw [hnext]
      exact ⟨alone.mine hcreate, by rw [List.length_cons, hlength]⟩

theorem integer_toInt32 {i : Nat} (hi : i < 2 ^ 31) :
    integer (UInt32.ofNat i).toInt32.toInt = decimal i := by
  have hvalue : (UInt32.ofNat i).toInt32.toInt = i := by
    rw [Int32.toInt, UInt32.toBitVec_toInt32, UInt32.toBitVec_ofNat', BitVec.toInt_ofNat']
    exact Int.bmod_eq_of_le (by omega) (by omega)
  rw [hvalue, integer, if_neg (by omega), Int.natAbs_natCast]

theorem onExtended_chainOf {i : Nat} (hi : i < 2 ^ 31) (prev : BlockPtr) :
    onExtended prev (chainOf S pk sk times i) = heightLine i := by
  obtain ⟨alone, hlength⟩ := @alone_chainOf S pk sk times i (by omega)
  rw [onExtended, heightLine, alone.height_eq, hlength, integer_toInt32 hi]

end Chain

section Loop

/-- The blocks of the loop are all that is stored, and the last one is the principal. -/
structure Stores (S : Sodium) (pk : PublicKey) (sk : SecretKey) (times : Nat → UInt64) (i : Nat)
    (bc : Blockchain) : Prop where
  principal_eq : bc.principal = chainOf S pk sk times i
  get_eq_none : ∀ hash, (∀ j ≤ i, 0 < j →
    blockGetHash (chainOf S pk sk times j) ≠ hash) →
    bc.blocks.get hash = none

theorem extendChain_ok {i : Nat} {bc : Blockchain} {printed : List UInt8}
    (h : Stores S pk sk times i bc) (hi : i + 1 < 2 ^ 31)
    (hdistinct : ∀ j ≤ i, 0 < j →
      blockGetHash (chainOf S pk sk times j) ≠ blockGetHash (chainOf S pk sk times (i + 1))) :
    ∃ bc', extendChain S pk sk times (bc, printed) i =
        .ok (bc', printed ++ heightLine (i + 1)) ∧ Stores S pk sk times (i + 1) bc' := by
  obtain ⟨alone, hlength⟩ := @alone_chainOf S pk sk times i (by omega)
  obtain ⟨data, hcreate, hnext⟩ := exists_next alone (by omega)
  rw [hnext] at hdistinct
  have hnew : bc.blocks.get data.hash = none := h.get_eq_none _ hdistinct
  have hprinted : ∀ prev, onExtended prev (chainOf S pk sk times (i + 1)) = heightLine (i + 1) :=
    onExtended_chainOf hi
  have hadd := Reorganisations.blockchainAddBlock_extend hnew
  rw [hnext, ← h.principal_eq] at hprinted
  rw [← h.principal_eq] at hcreate hnext
  refine ⟨{ storeBlock bc data bc.principal with principal := data :: bc.principal }, ?_,
    hnext.symm, ?_⟩
  · rw [extendChain]
    simp only [hcreate, ok_bind, require, if_pos (List.cons_ne_nil data bc.principal), hadd,
      extendPrincipal, List.flatMap_cons, List.flatMap_nil, List.append_nil, hprinted, pure_eq_ok]
  · intro hash hfresh
    have hlast : blockGetHash (chainOf S pk sk times (i + 1)) ≠ hash :=
      hfresh (i + 1) le_rfl (Nat.succ_pos i)
    rw [hnext, blockGetHash] at hlast
    show (bc.blocks.set data.hash (data :: bc.principal)).get hash = none
    rw [Map.get_set, if_neg (Ne.symm hlast)]
    exact h.get_eq_none hash fun j hj hpos => hfresh j (by omega) hpos

theorem loop_ok {count : Nat} (hcount : count < 2 ^ 31)
    (hdistinct : Distinct S pk sk times count) :
    ∃ bc, (List.range count).foldlM (extendChain S pk sk times) (blockchainCreate, []) =
        .ok (bc, (List.range count).flatMap fun i => heightLine (i + 1)) ∧
      Stores S pk sk times count bc := by
  induction count with
  | zero => exact ⟨blockchainCreate, rfl, rfl, fun _ _ => rfl⟩
  | succ i ih =>
      obtain ⟨bc, hloop, hstores⟩ := ih (by omega) fun j hj => hdistinct j (by omega)
      obtain ⟨bc', hstep, hstores'⟩ := @extendChain_ok S pk sk times i bc
        ((List.range i).flatMap fun i => heightLine (i + 1)) hstores hcount fun j hj hpos =>
          hdistinct (i + 1) le_rfl j (by omega) hpos
      refine ⟨bc', ?_, hstores'⟩
      rw [List.range_succ, List.foldlM_append, hloop, ok_bind, List.foldlM_cons, hstep, ok_bind,
        List.flatMap_append, List.flatMap_singleton]
      rfl

end Loop

/-- For every number of blocks that its loop can count, the program creates all of them:
the assertion never fails, and the heights are printed one after the other. -/
theorem main_returns {count : Nat} (hcount : count < 2 ^ 31)
    (hdistinct : Distinct S pk sk times count) :
    main S pk sk times count = .ok ((List.range count).flatMap fun i => heightLine (i + 1)) := by
  obtain ⟨bc, hloop, -⟩ := loop_ok hcount hdistinct
  rw [main, hloop]
  rfl

theorem main_returns_two :
    main transparent minerKey minerSecret (fun i => UInt64.ofNat (i + 1)) 2 =
      .ok ((List.range 2).flatMap fun i => heightLine (i + 1)) := by
  obtain ⟨first, second, h⟩ := exists_firstBlocks
  have hfirst : chainOf transparent minerKey minerSecret (fun i => UInt64.ofNat (i + 1)) 1 =
      [first] := by
    show (blockCreate transparent 1 minerKey minerSecret [] []).toOption.getD [] = [first]
    rw [h.create_first]
    rfl
  have hsecond : chainOf transparent minerKey minerSecret (fun i => UInt64.ofNat (i + 1)) 2 =
      [second, first] := by
    rw [chainOf, hfirst]
    show (blockCreate transparent 2 minerKey minerSecret [first] []).toOption.getD [] = _
    rw [h.create_second]
    rfl
  refine main_returns (by decide) ?_
  intro j hj i hi hpos
  obtain ⟨rfl, rfl⟩ : i = 1 ∧ j = 2 := by omega
  rw [hfirst, hsecond]
  exact Ne.symm h.hash_ne

end Whosecoin.BlockchainDb
