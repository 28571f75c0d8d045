import Whosecoin.BlockTree

namespace Whosecoin.PrincipalChain

open Library.Outcomes
open Library.ByteStrings
open Library.Maps
open Library.ForkChoice
open Cryptography
open Accounts
open Blockchains
open BlockTree

theorem walkToPrev_of_suffix {target : BlockPtr} (iter rival : BlockPtr)
    (h : target <:+ iter) (hne : target ≠ iter) :
    ∃ data, walkToPrev target iter rival = (target, data :: target) ∧
      data :: target <:+ iter := by
  induction iter generalizing rival with
  | nil => exact absurd (List.suffix_nil.mp h) hne
  | cons block earlier ih =>
      rcases List.suffix_cons_iff.mp h with heq | hsuffix
      · exact absurd heq hne
      simp only [walkToPrev, hne, if_false]
      by_cases hearlier : target = earlier
      · subst hearlier
        refine ⟨block, ?_, List.suffix_refl _⟩
        cases target with
        | nil => rfl
        | cons _ _ => simp [walkToPrev]
      · obtain ⟨data, hwalk, hdata⟩ := ih (block :: earlier) hsuffix hearlier
        exact ⟨data, hwalk, hdata.trans (List.suffix_cons block earlier)⟩

theorem walkToPrev_of_not_suffix {target : BlockPtr} (iter rival : BlockPtr)
    (h : ¬ target <:+ iter) : target ≠ (walkToPrev target iter rival).1 := by
  induction iter generalizing rival with
  | nil =>
      intro heq
      exact h (heq ▸ List.suffix_refl [])
  | cons block earlier ih =>
      have hne : target ≠ block :: earlier := by
        rintro rfl
        exact h (List.suffix_refl _)
      simp only [walkToPrev, hne, if_false]
      exact ih _ fun hsuffix => h (hsuffix.trans (List.suffix_cons block earlier))

section Step

variable {stored : List BlockPtr} {bc : Blockchain} {data : Block} {prev : BlockPtr}

theorem tree_of_storeBlock (tree : Tree stored bc) (hadd : Addable stored (data :: prev))
    (hnew : data.hash ∉ stored.map blockGetHash) (principal : BlockPtr)
    (hleaf : IsLeaf blockGetPriority (childrenIn (stored ++ [data :: prev])) []
      principal.length principal) :
    Tree (stored ++ [data :: prev])
      { storeBlock bc data prev with principal := principal } where
  blocks_eq := by
    have hget := (tree.get_eq_none_iff data.hash).mpr hnew
    change bc.blocks.set data.hash (data :: prev) = _
    rw [Map.set_of_get_eq_none _ hget, tree.blocks_eq]
    simp [blockGetHash]
  hashes_nodup := by
    rw [List.map_append, List.nodup_append]
    refine ⟨tree.hashes_nodup, List.nodup_singleton _, ?_⟩
    intro hash hmem hash' hmem' heq
    rw [List.map_singleton, List.mem_singleton] at hmem'
    subst heq
    subst hmem'
    exact hnew hmem
  addable := by
    intro block hblock
    have hmono : ∀ b, Addable stored b → Addable (stored ++ [data :: prev]) b := fun b hb =>
      ⟨hb.1, hb.2.imp_right fun hmem => List.mem_append_left _ hmem⟩
    rcases List.mem_append.mp hblock with hmem | hmem
    · exact hmono _ (tree.addable block hmem)
    · rw [List.mem_singleton.mp hmem]
      exact hmono _ hadd
  children_eq := by
    intro p hp
    rw [childrenIn_append, ← tree.children_eq p hp]
    by_cases hroot : prev = []
    · simp [storeBlock, hroot, hp.symm]
    · by_cases hpp : prev = p
      · subst hpp
        simp [storeBlock, hroot, blockAddChild]
      · simp [storeBlock, hroot, blockAddChild, hpp, Function.update_of_ne (Ne.symm hpp)]
  leaf := hleaf

theorem childrenIn_new (tree : Tree stored bc) (hnew : data.hash ∉ stored.map blockGetHash) :
    childrenIn (stored ++ [data :: prev]) (data :: prev) = [] := by
  refine List.eq_nil_iff_forall_not_mem.mpr fun c hc => ?_
  obtain ⟨hmem, htail⟩ := mem_childrenIn.mp hc
  rcases List.mem_append.mp hmem with hstored | hself
  · have hparent := (tree.addable c hstored).2
    rw [htail] at hparent
    rcases hparent with hnil | hmem
    · simp at hnil
    · exact hnew (List.mem_map.mpr ⟨_, hmem, rfl⟩)
  · rw [List.mem_singleton.mp hself, List.tail_cons] at htail
    have := congrArg List.length htail
    simp at this

/-- The calls of `on_extended` report the change of the principal. -/
def ReportsChange (bc : Blockchain) (r : AddResult) : Prop :=
  r.extended =
    if r.blockchain.principal = bc.principal then []
    else [(bc.principal, r.blockchain.principal)]

/-- What one call of `blockchain_add_block` does to a tree. -/
structure AddSpec (stored : List BlockPtr) (bc : Blockchain) (block : BlockPtr)
    (r : AddResult) : Prop where
  tree : Tree (if r.added then stored ++ [block] else stored) r.blockchain
  added_iff : r.added = true ↔ blockGetHash block ∉ stored.map blockGetHash
  refused : r.added = false → r.blockchain = bc
  reports : ReportsChange bc r

theorem ne_principal (tree : Tree stored bc) (hnew : data.hash ∉ stored.map blockGetHash) :
    data :: prev ≠ bc.principal := by
  intro heq
  apply tree.not_suffix_of_new hnew
  rw [heq]

theorem addSpec_extendPrincipal (tree : Tree stored bc) (hadd : Addable stored (data :: prev))
    (hnew : data.hash ∉ stored.map blockGetHash)
    (hleaf : IsLeaf blockGetPriority (childrenIn (stored ++ [data :: prev])) []
      (prev.length + 1) (data :: prev)) :
    AddSpec stored bc (data :: prev)
      (extendPrincipal (storeBlock bc data prev) (data :: prev)) where
  tree := tree_of_storeBlock tree hadd hnew (data :: prev) hleaf
  added_iff := by simpa [extendPrincipal, blockGetHash] using hnew
  refused := by simp [extendPrincipal]
  reports := by
    have hne : data :: prev ≠ bc.principal := ne_principal tree hnew
    simp [ReportsChange, extendPrincipal, storeBlock, hne]

theorem addSpec_keep (tree : Tree stored bc) (hadd : Addable stored (data :: prev))
    (hnew : data.hash ∉ stored.map blockGetHash)
    (hleaf : IsLeaf blockGetPriority (childrenIn (stored ++ [data :: prev])) []
      bc.principal.length bc.principal) :
    AddSpec stored bc (data :: prev) ⟨true, storeBlock bc data prev, []⟩ where
  tree := tree_of_storeBlock tree hadd hnew bc.principal hleaf
  added_iff := by simpa [blockGetHash] using hnew
  refused := by simp
  reports := by simp [ReportsChange, storeBlock]

theorem addSpec_extendIfLess (tree : Tree stored bc) (hadd : Addable stored (data :: prev))
    (hnew : data.hash ∉ stored.map blockGetHash) {sibling : Block}
    (hsibling : sibling :: prev <:+ bc.principal) :
    AddSpec stored bc (data :: prev)
      (extendIfLess (storeBlock bc data prev) (data :: prev) (sibling :: prev)) := by
  have hbest := tree.argmin_of_suffix hsibling
  have hinsert := inserts_childrenIn stored (data :: prev)
  by_cases hlt : blockGetPriority (data :: prev) < blockGetPriority (sibling :: prev)
  · have hpath := tree.bestPath_of_suffix tree.leaf.path
      ((List.suffix_cons sibling prev).trans hsibling)
    have hleaf := IsLeaf.replace tree.ranked hinsert hpath hbest hlt (childrenIn_new tree hnew)
    rw [extendIfLess, if_pos ((Bytes.memcmp_neg_iff_lt _ _).mpr hlt)]
    exact addSpec_extendPrincipal tree hadd hnew hleaf
  · have hleaf := IsLeaf.keep tree.ranked hinsert hbest hlt tree.leaf
    rw [extendIfLess, if_neg fun h => hlt ((Bytes.memcmp_neg_iff_lt _ _).mp h)]
    exact addSpec_keep tree hadd hnew hleaf

theorem blockchainAddBlock_of_stored (tree : Tree stored bc) {block : BlockPtr}
    (hold : blockGetHash block ∈ stored.map blockGetHash) :
    blockchainAddBlock bc block = .ok ⟨false, bc, []⟩ := by
  cases hget : bc.blocks.get (blockGetHash block) with
  | none => exact absurd hold ((tree.get_eq_none_iff _).mp hget)
  | some old => simp only [blockchainAddBlock, hget]

/-- Which branch of `blockchain_add_block` a new block takes. -/
theorem blockchainAddBlock_branches (tree : Tree stored bc)
    (hadd : Addable stored (data :: prev)) (hnew : data.hash ∉ stored.map blockGetHash) :
    (prev = bc.principal ∧ blockchainAddBlock bc (data :: prev) =
        .ok (extendPrincipal (storeBlock bc data prev) (data :: prev))) ∨
      (∃ sibling, sibling :: prev <:+ bc.principal ∧ blockchainAddBlock bc (data :: prev) =
        .ok (extendIfLess (storeBlock bc data prev) (data :: prev) (sibling :: prev))) ∨
      (¬ prev <:+ bc.principal ∧ blockchainAddBlock bc (data :: prev) =
        .ok ⟨true, storeBlock bc data prev, []⟩) := by
  have hget := (tree.get_eq_none_iff data.hash).mpr hnew
  simp only [blockchainAddBlock, blockGetHash, hget]
  by_cases hextend : prev = bc.principal
  · rw [if_pos hextend]
    exact Or.inl ⟨hextend, rfl⟩
  rw [if_neg hextend]
  apply Or.inr
  rcases hprincipal : bc.principal with _ | ⟨head, principalPrev⟩
  · -- a parent is stored, so there is a principal
    have hempty := tree.stored_eq_nil_of_principal hprincipal
    rcases hadd.2 with hroot | hparent
    · exact absurd (hroot.trans hprincipal.symm) hextend
    · simp [hempty] at hparent
  simp only
  by_cases hsame : prev = principalPrev
  · subst hsame
    rw [if_pos rfl]
    exact Or.inl ⟨head, List.suffix_refl _, rfl⟩
  rw [if_neg hsame, ← hprincipal]
  by_cases hsuffix : prev <:+ bc.principal
  · obtain ⟨sibling, hwalk, hsibling⟩ :=
      walkToPrev_of_suffix bc.principal [] hsuffix hextend
    simp only [hwalk, if_true]
    exact Or.inl ⟨sibling, hsibling, rfl⟩
  · have hiter := walkToPrev_of_not_suffix bc.principal [] hsuffix
    simp only [hiter, if_false]
    exact Or.inr ⟨hsuffix, trivial⟩

theorem blockchainAddBlock_of_new (tree : Tree stored bc)
    (hadd : Addable stored (data :: prev)) (hnew : data.hash ∉ stored.map blockGetHash) :
    ∃ r, blockchainAddBlock bc (data :: prev) = .ok r ∧ AddSpec stored bc (data :: prev) r := by
  have hinsert := inserts_childrenIn stored (data :: prev)
  rcases blockchainAddBlock_branches tree hadd hnew with
    ⟨hextend, hcall⟩ | ⟨sibling, hsibling, hcall⟩ | ⟨hsuffix, hcall⟩
  · subst hextend
    exact ⟨_, hcall, addSpec_extendPrincipal tree hadd hnew
      (IsLeaf.extend tree.ranked hinsert tree.leaf (childrenIn_new tree hnew))⟩
  · exact ⟨_, hcall, addSpec_extendIfLess tree hadd hnew hsibling⟩
  · refine ⟨_, hcall, addSpec_keep tree hadd hnew ?_⟩
    exact IsLeaf.keep_of_not_mem hinsert
      (fun m h => hsuffix (tree.suffix_of_bestPath h)) tree.leaf

/-- A block on `prev` with this priority wins the fork. -/
def Leads (bc : Blockchain) (prev : BlockPtr) (priority : Hash) : Prop :=
  prev = bc.principal ∨ ∃ rival, rival :: prev <:+ bc.principal ∧
    memcmp priority.toList rival.sortitionPriority.toList < 0

theorem rival_unique {chain : BlockPtr} {rival rival' : Block} (h : rival :: prev <:+ chain)
    (h' : rival' :: prev <:+ chain) : rival = rival' := by
  have hsuffix := List.suffix_of_suffix_length_le h h' le_rfl
  exact (List.cons.inj (hsuffix.eq_of_length rfl)).1

/-- A new block becomes the principal exactly when it wins the fork. -/
theorem principal_eq_iff (tree : Tree stored bc) (hadd : Addable stored (data :: prev))
    (hnew : data.hash ∉ stored.map blockGetHash) {r : AddResult}
    (hcall : blockchainAddBlock bc (data :: prev) = .ok r) :
    r.blockchain.principal = data :: prev ↔ Leads bc prev data.sortitionPriority := by
  have hother : ¬ bc.principal = data :: prev := fun h => ne_principal tree hnew h.symm
  rcases blockchainAddBlock_branches tree hadd hnew with
    ⟨hextend, hrun⟩ | ⟨sibling, hsibling, hrun⟩ | ⟨hsuffix, hrun⟩
  · rw [hcall, Except.ok.injEq] at hrun
    subst hrun
    exact iff_of_true rfl (Or.inl hextend)
  · rw [hcall, Except.ok.injEq] at hrun
    subst hrun
    have hextend : prev ≠ bc.principal := by
      rintro rfl
      have hlength := hsibling.length_le
      rw [List.length_cons] at hlength
      omega
    have hleads : Leads bc prev data.sortitionPriority ↔
        memcmp data.sortitionPriority.toList sibling.sortitionPriority.toList < 0 := by
      constructor
      · rintro (heq | ⟨rival, hrival, hless⟩)
        · exact absurd heq hextend
        · rw [rival_unique hsibling hrival]
          exact hless
      · intro hless
        exact Or.inr ⟨sibling, hsibling, hless⟩
    rw [hleads, extendIfLess, blockGetPriority, blockGetPriority]
    split_ifs with hless
    · exact iff_of_true rfl hless
    · exact iff_of_false hother hless
  · rw [hcall, Except.ok.injEq] at hrun
    subst hrun
    refine iff_of_false hother ?_
    rintro (rfl | ⟨rival, hrival, -⟩)
    · exact hsuffix (List.suffix_refl _)
    · exact hsuffix ((List.suffix_cons rival prev).trans hrival)

/-- The step lemma: a call on an addable block returns and keeps the tree. -/
theorem blockchainAddBlock_spec (tree : Tree stored bc) {block : BlockPtr}
    (hadd : Addable stored block) :
    ∃ r, blockchainAddBlock bc block = .ok r ∧ AddSpec stored bc block r := by
  by_cases hold : blockGetHash block ∈ stored.map blockGetHash
  · refine ⟨_, blockchainAddBlock_of_stored tree hold, ?_⟩
    exact
      { tree := by simpa using tree
        added_iff := by simpa using hold
        refused := fun _ => rfl
        reports := by simp [ReportsChange] }
  · rcases block with _ | ⟨data, prev⟩
    · exact absurd rfl hadd.1
    · exact blockchainAddBlock_of_new tree hadd hold

end Step

/-- A run of `blockchain_add_block` from an empty blockchain, with the blocks
stored so far in order of addition. -/
inductive AddRun : List BlockPtr → Blockchain → Prop where
  | create : AddRun [] blockchainCreate
  | add {stored : List BlockPtr} {bc : Blockchain} {block : BlockPtr} {r : AddResult}
      (run : AddRun stored bc) (hadd : Addable stored block)
      (hcall : blockchainAddBlock bc block = .ok r) :
      AddRun (if r.added then stored ++ [block] else stored) r.blockchain

theorem AddRun.tree {stored : List BlockPtr} {bc : Blockchain} (run : AddRun stored bc) :
    Tree stored bc := by
  induction run with
  | create => exact tree_blockchainCreate
  | add run hadd hcall ih =>
      obtain ⟨r, hr, hspec⟩ := blockchainAddBlock_spec ih hadd
      rw [hcall, Except.ok.injEq] at hr
      exact hr ▸ hspec.tree

/-- The children of a block, or of the virtual root for `NULL`. -/
def childrenOf (stored : List BlockPtr) (bc : Blockchain) (p : BlockPtr) : List BlockPtr :=
  if p = [] then stored.filter fun block => block.tail = [] else bc.children p

/-- The leaf found by descending the whole tree from the virtual root. -/
def principalFromScratch (stored : List BlockPtr) (bc : Blockchain) : BlockPtr :=
  descend blockGetPriority (childrenOf stored bc) stored.length []

theorem childrenOf_eq {stored : List BlockPtr} {bc : Blockchain} (tree : Tree stored bc) :
    childrenOf stored bc = childrenIn stored := by
  funext p
  by_cases hp : p = []
  · simp [childrenOf, childrenIn, hp]
  · simp [childrenOf, hp, tree.children_eq p hp]

theorem principalFromScratch_eq {stored : List BlockPtr} {bc : Blockchain}
    (tree : Tree stored bc) :
    principalFromScratch stored bc = bc.principal ∧ childrenOf stored bc bc.principal = [] := by
  rw [principalFromScratch, childrenOf_eq tree]
  exact ⟨tree.leaf.descend_eq tree.principal_length_le, tree.leaf.stop⟩

/-- The call adds the block unless its hash is stored, the principal is then the leaf found
by descending the whole tree, and `on_extended` has been called once, with the old and the
new leaf, if the call changed the leaf, and not at all otherwise. -/
def FollowsDescent (stored : List BlockPtr) (bc : Blockchain) (block : BlockPtr) : Prop :=
  ∃ r, blockchainAddBlock bc block = .ok r ∧
    (r.added = true ↔ blockGetHash block ∉ stored.map blockGetHash) ∧
    let stored' := if r.added then stored ++ [block] else stored
    r.blockchain.principal = principalFromScratch stored' r.blockchain ∧
    childrenOf stored' r.blockchain r.blockchain.principal = [] ∧
    r.extended =
      if principalFromScratch stored' r.blockchain = principalFromScratch stored bc then []
      else [(principalFromScratch stored bc, principalFromScratch stored' r.blockchain)]

theorem addRun_followsDescent {stored : List BlockPtr} {bc : Blockchain}
    (run : AddRun stored bc) {block : BlockPtr} (hadd : Addable stored block) :
    FollowsDescent stored bc block := by
  obtain ⟨r, hr, hspec⟩ := blockchainAddBlock_spec run.tree hadd
  obtain ⟨hnew, hstop⟩ := principalFromScratch_eq hspec.tree
  obtain ⟨hold, -⟩ := principalFromScratch_eq run.tree
  refine ⟨r, hr, hspec.added_iff, hnew.symm, hstop, ?_⟩
  rw [hnew, hold]
  exact hspec.reports

/-- A block of which only the hash and the priority matter. -/
def bareBlock (hash priority : UInt8) : Block where
  timestamp := 0
  merkleRoot := Bytes.zero _
  publicKey := Bytes.zero _
  sortitionProof := Bytes.zero _
  signature := Bytes.zero _
  delegate := 0
  transactions := []
  hash := Bytes.ofList _ [hash]
  sortitionSeed := Bytes.zero _
  sortitionHash := Bytes.zero _
  sortitionPriority := Bytes.ofList _ [priority]
  height := 1
  accounts := []

def afterGenesis : AddResult :=
  extendPrincipal (storeBlock blockchainCreate (bareBlock 1 7) []) [bareBlock 1 7]

def afterChild : AddResult :=
  extendPrincipal (storeBlock afterGenesis.blockchain (bareBlock 2 9) [bareBlock 1 7])
    [bareBlock 2 9, bareBlock 1 7]

/-- A second genesis block of smaller priority takes over from a chain of two. -/
theorem addRun_followsDescent_rollback :
    FollowsDescent [[bareBlock 1 7], [bareBlock 2 9, bareBlock 1 7]] afterChild.blockchain
      [bareBlock 3 5] := by
  have hfirst : AddRun [[bareBlock 1 7]] afterGenesis.blockchain :=
    @AddRun.add _ _ [bareBlock 1 7] afterGenesis .create ⟨by simp, .inl rfl⟩ rfl
  have hsecond : AddRun [[bareBlock 1 7], [bareBlock 2 9, bareBlock 1 7]]
      afterChild.blockchain :=
    @AddRun.add _ _ [bareBlock 2 9, bareBlock 1 7] afterChild hfirst
      ⟨by simp, .inr (by simp)⟩ rfl
  exact addRun_followsDescent hsecond ⟨by simp, .inl rfl⟩

end Whosecoin.PrincipalChain
