import Whosecoin.PrincipalChain

namespace Whosecoin.Agreement

open Library.Outcomes
open Library.ByteStrings
open Library.ForkChoice
open Cryptography
open TupleParser
open Transactions
open Accounts
open Blocks
open Blockchains
open BlockTree
open PrincipalChain

/-- Every block comes after its parent. -/
def ParentsFirst (order : List BlockPtr) : Prop :=
  ∀ earlier block later, order = earlier ++ block :: later → Addable earlier block

theorem parentsFirst_nil : ParentsFirst [] := by
  intro earlier block later heq
  simp at heq

theorem ParentsFirst.concat {order : List BlockPtr} {block : BlockPtr}
    (hfirst : ParentsFirst order) (hadd : Addable order block) :
    ParentsFirst (order ++ [block]) := by
  intro earlier b later heq
  rcases List.eq_nil_or_concat later with rfl | ⟨later, last, rfl⟩
  · obtain ⟨rfl, hb⟩ := List.append_inj' heq rfl
    rw [List.singleton_inj] at hb
    exact hb ▸ hadd
  · refine hfirst earlier b later ?_
    rw [List.concat_eq_append, ← List.cons_append, ← List.append_assoc] at heq
    exact (List.append_inj' heq rfl).1

theorem ParentsFirst.of_concat {order : List BlockPtr} {block : BlockPtr}
    (hfirst : ParentsFirst (order ++ [block])) : ParentsFirst order ∧ Addable order block := by
  refine ⟨fun earlier b later heq => ?_, hfirst order block [] rfl⟩
  exact hfirst earlier b (later ++ [block]) (by simp [heq])

theorem addBlocks_append (bc : Blockchain) (order : List BlockPtr) (block : BlockPtr) :
    addBlocks bc (order ++ [block]) =
      addBlocks bc order >>= fun bc =>
        (blockchainAddBlock bc block).map AddResult.blockchain := by
  rw [addBlocks, List.foldlM_append]
  change (addBlocks bc order >>= fun bc => List.foldlM _ bc [block]) = _
  cases addBlocks bc order with
  | error e => rfl
  | ok bc => cases hcall : blockchainAddBlock bc block <;> simp [hcall, Except.map]

theorem addBlocks_tree (order : List BlockPtr) (hfirst : ParentsFirst order)
    (hdistinct : (order.map blockGetHash).Nodup) :
    ∃ bc, addBlocks blockchainCreate order = .ok bc ∧ Tree order bc := by
  induction order using List.reverseRecOn with
  | nil => exact ⟨blockchainCreate, rfl, tree_blockchainCreate⟩
  | append_singleton order block ih =>
      obtain ⟨hearlier, hadd⟩ := hfirst.of_concat
      rw [List.map_append, List.nodup_append] at hdistinct
      obtain ⟨hnodup, -, hnew⟩ := hdistinct
      obtain ⟨bc, hrun, tree⟩ := ih hearlier hnodup
      obtain ⟨r, hr, hspec⟩ := blockchainAddBlock_spec tree hadd
      have hadded : r.added = true := by
        rw [hspec.added_iff]
        intro hmem
        exact hnew _ hmem _ (by simp) rfl
      refine ⟨r.blockchain, ?_, ?_⟩
      · rw [addBlocks_append, hrun, ok_bind, hr]
        rfl
      · simpa [hadded] using hspec.tree

/-- No two children of one parent tie for the least priority below it. -/
def MinimaUnique (order : List BlockPtr) : Prop :=
  ∀ p, UniqueMinimum blockGetPriority (childrenIn order p)

theorem minimaUnique_of_nodup {order : List BlockPtr}
    (hnodup : (order.map blockGetPriority).Nodup) : MinimaUnique order := by
  intro p c hc d hd _ heq
  exact List.inj_on_of_nodup_map hnodup (mem_childrenIn.mp hc).1 (mem_childrenIn.mp hd).1 heq

/-- Two nodes that add the same blocks, in different orders with parents first,
end up with the same principal, unless siblings tie for the least priority. -/
theorem principal_hash_eq_of_perm (order₁ order₂ : List BlockPtr)
    (hfirst₁ : ParentsFirst order₁) (hfirst₂ : ParentsFirst order₂)
    (hperm : order₁.Perm order₂) (hdistinct : (order₁.map blockGetHash).Nodup)
    (hunique : MinimaUnique order₁) :
    ∃ bc₁ bc₂, addBlocks blockchainCreate order₁ = .ok bc₁ ∧
      addBlocks blockchainCreate order₂ = .ok bc₂ ∧
      blockGetHash bc₁.principal = blockGetHash bc₂.principal := by
  obtain ⟨bc₁, hrun₁, tree₁⟩ := addBlocks_tree order₁ hfirst₁ hdistinct
  obtain ⟨bc₂, hrun₂, tree₂⟩ :=
    addBlocks_tree order₂ hfirst₂ ((hperm.map blockGetHash).nodup_iff.mp hdistinct)
  have hmem : ∀ p d, d ∈ childrenIn order₂ p ↔ d ∈ childrenIn order₁ p := by
    intro p d
    rw [mem_childrenIn, mem_childrenIn, hperm.mem_iff]
  have hleaf := tree₁.leaf.of_mem_iff hunique hmem
  exact ⟨bc₁, bc₂, hrun₁, hrun₂, congrArg blockGetHash (hleaf.unique tree₂.leaf)⟩

/-- A fork at the root, whose second branch is added first in one order and last
in the other. -/
theorem principal_hash_eq_of_perm_fork :
    ∃ bc₁ bc₂,
      addBlocks blockchainCreate
        [[bareBlock 1 7], [bareBlock 2 9, bareBlock 1 7], [bareBlock 3 5]] = .ok bc₁ ∧
      addBlocks blockchainCreate
        [[bareBlock 3 5], [bareBlock 1 7], [bareBlock 2 9, bareBlock 1 7]] = .ok bc₂ ∧
      blockGetHash bc₁.principal = blockGetHash bc₂.principal := by
  have hroot : ParentsFirst [[bareBlock 1 7]] := parentsFirst_nil.concat ⟨by simp, .inl rfl⟩
  have hrival : ParentsFirst [[bareBlock 3 5]] := parentsFirst_nil.concat ⟨by simp, .inl rfl⟩
  have hfirst₁ : ParentsFirst
      [[bareBlock 1 7], [bareBlock 2 9, bareBlock 1 7], [bareBlock 3 5]] :=
    (hroot.concat ⟨by simp, .inr (by simp)⟩).concat ⟨by simp, .inl rfl⟩
  have hfirst₂ : ParentsFirst
      [[bareBlock 3 5], [bareBlock 1 7], [bareBlock 2 9, bareBlock 1 7]] :=
    (hrival.concat ⟨by simp, .inl rfl⟩).concat ⟨by simp, .inr (by simp)⟩
  exact principal_hash_eq_of_perm _ _ hfirst₁ hfirst₂ (by decide) (by decide +kernel)
    (minimaUnique_of_nodup (by decide +kernel))

section Ties

/-- The block is what a node makes of the bytes of some message. -/
def Accepted (S : Sodium) (block : BlockPtr) : Prop :=
  ∃ buffer tuple find, tupleParse buffer = .ok (some tuple) ∧
    blockCreateFromTuple S tuple find = .ok block ∧ block ≠ []

/-- Parse the bytes of a genesis block and verify it. -/
def receiveGenesis (S : Sodium) (bytes : List UInt8) : Outcome BlockPtr := do
  match ← tupleParse ⟨bytes.length, bytes⟩ with
  | none => return []
  | some tuple => blockCreateFromTuple S tuple fun _ => []

theorem accepted_of_receiveGenesis {S : Sodium} {bytes : List UInt8} {block : BlockPtr}
    (h : receiveGenesis S bytes = .ok block) (hne : block ≠ []) : Accepted S block := by
  rw [receiveGenesis, bind_eq_ok] at h
  obtain ⟨parsed, hparse, h⟩ := h
  cases parsed with
  | none => exact absurd (Except.ok.inj h).symm hne
  | some tuple => exact ⟨_, tuple, _, hparse, h, hne⟩

/-- The genesis block of a fixed creator at a given time, as a peer gets it. -/
def genesisAt (now : UInt64) : Outcome BlockPtr := do
  let block ← blockCreate transparent now (Bytes.ofList _ [1]) (Bytes.ofList _ [1]) [] []
  let bytes ← blockWrite [] block
  receiveGenesis transparent bytes

def genesisBlock (now : UInt64) : BlockPtr :=
  (genesisAt now).toOption.getD []

theorem genesisAt_eq (now : UInt64) (h : (genesisBlock now).length = 1) :
    genesisAt now = .ok (genesisBlock now) := by
  rw [genesisBlock] at h ⊢
  cases hrun : genesisAt now with
  | ok block => rfl
  | error e =>
      rw [hrun] at h
      simp [Except.toOption] at h

theorem accepted_genesisBlock (now : UInt64) (h : (genesisBlock now).length = 1) :
    Accepted transparent (genesisBlock now) := by
  have hrun := genesisAt_eq now h
  simp only [genesisAt, bind_eq_ok] at hrun
  obtain ⟨-, -, bytes, -, hreceive⟩ := hrun
  refine accepted_of_receiveGenesis hreceive ?_
  rw [← List.length_pos_iff, h]
  omega

/-- The principal hash after adding two genesis blocks in the given order. -/
def principalHashAfter (order : List BlockPtr) : Option Hash :=
  (addBlocks blockchainCreate order).toOption.map fun bc => blockGetHash bc.principal

/-- Two accepted genesis blocks of one creator, made at different times, have
the same priority, and the one added first wins. -/
theorem principal_depends_on_order :
    Accepted transparent (genesisBlock 1) ∧ Accepted transparent (genesisBlock 2) ∧
      principalHashAfter [genesisBlock 1, genesisBlock 2] ≠
        principalHashAfter [genesisBlock 2, genesisBlock 1] :=
  ⟨accepted_genesisBlock 1 (by decide +kernel), accepted_genesisBlock 2 (by decide +kernel),
    by decide +kernel⟩

end Ties

end Whosecoin.Agreement
