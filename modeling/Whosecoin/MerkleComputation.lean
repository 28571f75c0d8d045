import Whosecoin.HistoryBinding

namespace Whosecoin.MerkleComputation

open Library.Outcomes
open Library.ByteStrings
open Library.MerkleTrees
open Cryptography
open TupleFormat
open Transactions
open TransactionSchema
open Blocks
open MerkleRoots
open BlockDelivery
open BlockRelay
open Chains
open HistoryBinding

section Accesses

/-- An access to the array of hashes. -/
inductive Access where
  | read (index : Nat)
  | write (index : Nat)
deriving DecidableEq

/-- No entry is read after it has been overwritten. -/
def NonClobbering (log : List Access) : Prop :=
  log.Pairwise fun earlier later => ∀ index, earlier = .write index → later ≠ .read index

def readEntry (hashes : List Hash) (index : Nat) : Outcome Hash :=
  match hashes[index]? with
  | some hash => .ok hash
  | none => .error .outOfBounds

def writeEntry (hashes : List Hash) (index : Nat) (hash : Hash) : Outcome (List Hash) :=
  if index < hashes.length then .ok (hashes.set index hash) else .error .outOfBounds

variable (S : Sodium)

/-- The hash that an iteration of the loop computes, and the entries that it reads. -/
def nodeLogged (hashes : List Hash) (n j : Nat) : Outcome (Hash × List Access) := do
  let src ← readEntry hashes j
  if j + 1 = n then return (src, [.read j])
  let next ← readEntry hashes (j + 1)
  return (S.generichash (src.toList ++ next.toList), [.read j, .read (j + 1)])

/-- The loop of `compute_merkle_root` over one level, with its accesses in order. -/
def merkleLevelLogged : (fuel : Nat) → (hashes : List Hash) → (n i j : Nat) →
    Outcome ((List Hash × Nat) × List Access)
  | 0, _, _, _, _ => .error .diverges
  | fuel + 1, hashes, n, i, j =>
      if j < n then do
        let (dst, reads) ← nodeLogged S hashes n j
        let hashes ← writeEntry hashes i dst
        let (level, log) ← merkleLevelLogged fuel hashes n (i + 1) (j + 2)
        return (level, reads ++ .write i :: log)
      else .ok ((hashes, i), [])

/-- `compute_merkle_root`, with the accesses of each of its levels. -/
def computeMerkleRootLogged : (fuel : Nat) → (hashes : List Hash) → (n : Nat) →
    Outcome (List Hash × List (List Access))
  | 0, _, _ => .error .diverges
  | fuel + 1, hashes, n =>
      if n ≤ 1 then .ok (hashes, [])
      else do
        let (level, log) ← merkleLevelLogged S (n + 1) hashes n 0 0
        let (hashes, logs) ← computeMerkleRootLogged fuel level.1 level.2
        return (hashes, log :: logs)

theorem readEntry_eq {hashes : List Hash} {index : Nat} (h : index < hashes.length) :
    readEntry hashes index = .ok (hashes.getD index (Bytes.zero generichashBytes)) := by
  rw [readEntry, List.getElem?_eq_getElem h, List.getD_eq_getElem hashes _ h]

theorem nodeLogged_eq {hashes : List Hash} {n j : Nat} (hj : j < n) (hn : n ≤ hashes.length) :
    ∃ reads, nodeLogged S hashes n j = .ok (merkleNode S hashes n j, reads) ∧
      ∀ access ∈ reads, ∃ index, access = .read index ∧ j ≤ index := by
  rw [nodeLogged, readEntry_eq (by omega), ok_bind, merkleNode]
  split_ifs with hlast
  · refine ⟨_, rfl, ?_⟩
    intro access haccess
    rw [List.mem_singleton] at haccess
    exact ⟨j, haccess, le_rfl⟩
  · rw [readEntry_eq (by omega), ok_bind]
    refine ⟨_, rfl, ?_⟩
    intro access haccess
    rcases List.mem_pair.mp haccess with rfl | rfl
    · exact ⟨j, rfl, le_rfl⟩
    · exact ⟨j + 1, rfl, Nat.le_succ j⟩

theorem nonClobbering_append {reads log : List Access} {i j : Nat} (hij : i < j)
    (hreads : ∀ access ∈ reads, ∃ index, access = .read index)
    (hlog : NonClobbering log) (hbehind : ∀ index, .read index ∈ log → j ≤ index) :
    NonClobbering (reads ++ .write i :: log) := by
  rw [NonClobbering, List.pairwise_append, List.pairwise_cons]
  have hfirst : ∀ access ∈ reads, ∀ index, access ≠ .write index := by
    intro access haccess index hwrite
    obtain ⟨k, hread⟩ := hreads access haccess
    rw [hread] at hwrite
    cases hwrite
  refine ⟨?_, ⟨?_, hlog⟩, ?_⟩
  · apply List.pairwise_of_forall_mem_list
    intro earlier hearlier later _ index hwrite
    exact absurd hwrite (hfirst earlier hearlier index)
  · intro later hlater index hwrite hread
    cases hwrite
    have hle := hbehind i (hread ▸ hlater)
    omega
  · intro earlier hearlier later _ index hwrite
    exact absurd hwrite (hfirst earlier hearlier index)

/-- The loop writes behind what it has still to read: `i` never passes `j`. -/
theorem merkleLevelLogged_eq (fuel : Nat) {hashes : List Hash} {n i j : Nat} (hij : i ≤ j)
    (hn : n ≤ hashes.length) (hfuel : n ≤ j + fuel) :
    ∃ log, merkleLevelLogged S (fuel + 1) hashes n i j =
        .ok (merkleLevel S fuel hashes n i j, log) ∧
      NonClobbering log ∧ ∀ index, .read index ∈ log → j ≤ index := by
  induction fuel generalizing hashes i j with
  | zero =>
      rw [merkleLevelLogged, if_neg (by omega), merkleLevel]
      exact ⟨[], rfl, List.Pairwise.nil, fun index hread => absurd hread List.not_mem_nil⟩
  | succ fuel ih =>
      rcases Nat.lt_or_ge j n with hj | hj
      · obtain ⟨reads, hnode, hreads⟩ := nodeLogged_eq S hj hn
        obtain ⟨log, hrun, hlog, hbehind⟩ :=
          @ih (hashes.set i (merkleNode S hashes n j)) (i + 1)
          (j + 2) (by omega) (by rwa [List.length_set]) (by omega)
        rw [merkleLevelLogged, if_pos hj, hnode, ok_bind, merkleLevel_succ S hj]
        simp only [writeEntry, if_pos (show i < hashes.length by omega), ok_bind,
          hrun, pure_eq_ok]
        refine ⟨_, rfl, ?_, ?_⟩
        · apply nonClobbering_append (show i < j + 2 by omega) _ hlog hbehind
          intro access haccess
          obtain ⟨index, hread, -⟩ := hreads access haccess
          exact ⟨index, hread⟩
        · intro index hread
          rcases List.mem_append.mp hread with hnow | hlater
          · obtain ⟨k, hk, hle⟩ := hreads _ hnow
            cases hk
            exact hle
          · rcases List.mem_cons.mp hlater with hwrite | hlater
            · cases hwrite
            · have hle := hbehind index hlater
              omega
      · rw [merkleLevelLogged, if_neg (by omega), merkleLevel, if_neg (by omega)]
        exact ⟨[], rfl, List.Pairwise.nil, fun index hread => absurd hread List.not_mem_nil⟩

theorem computeMerkleRootLogged_eq (fuel : Nat) {hashes : List Hash} {n : Nat}
    (hn : n ≤ hashes.length) (hfuel : n ≤ fuel + 1) :
    ∃ logs, computeMerkleRootLogged S (fuel + 1) hashes n =
        .ok (computeMerkleRoot S fuel hashes n, logs) ∧ ∀ log ∈ logs, NonClobbering log := by
  have hnone : ∀ log ∈ ([] : List (List Access)), NonClobbering log :=
    fun log hlog => absurd hlog List.not_mem_nil
  induction fuel generalizing hashes n with
  | zero =>
      rw [computeMerkleRootLogged, if_pos hfuel, computeMerkleRoot]
      exact ⟨[], rfl, hnone⟩
  | succ fuel ih =>
      rw [computeMerkleRootLogged, computeMerkleRoot]
      split_ifs with hone
      · exact ⟨[], rfl, hnone⟩
      · obtain ⟨log, hrun, hlog, -⟩ :=
          @merkleLevelLogged_eq S n hashes n 0 0 le_rfl hn (by omega)
        obtain ⟨hlength, hcount, -⟩ := merkleLevel_spec S n hashes n 0 0 le_rfl hn (by omega)
        rw [List.drop_zero, level_length, List.length_take_of_le hn] at hcount
        obtain ⟨logs, hrest, hlogs⟩ := @ih (merkleLevel S n hashes n 0 0).1
          (merkleLevel S n hashes n 0 0).2 (by omega) (by omega)
        simp only [hrun, ok_bind, hrest, pure_eq_ok]
        refine ⟨_, rfl, ?_⟩
        intro log' hlog'
        rcases List.mem_cons.mp hlog' with rfl | hmem
        · exact hlog
        · exact hlogs log' hmem

/-- `compute_merkle_root` ends with the root in front, and no level reads an entry that
it has overwritten. -/
theorem computeMerkleRoot_refines {hashes : List Hash} {n fuel : Nat} (hpos : 0 < n)
    (hn : n ≤ hashes.length) (hfuel : n ≤ fuel) :
    ∃ result logs, computeMerkleRootLogged S fuel hashes n = .ok (result, logs) ∧
      result[0]? = root (combine S) (hashes.take n) ∧ ∀ log ∈ logs, NonClobbering log := by
  obtain ⟨rounds, rfl⟩ := Nat.exists_eq_add_of_le' (show 1 ≤ fuel by omega)
  obtain ⟨logs, hrun, hlogs⟩ := computeMerkleRootLogged_eq S rounds hn hfuel
  refine ⟨_, logs, hrun, ?_, hlogs⟩
  rw [computeMerkleRoot_spec S rounds hashes n hn hpos, reduce_root]
  rw [List.length_take_of_le hn]
  exact hfuel

theorem computeMerkleRoot_refines_three : ∃ result logs,
    computeMerkleRootLogged transparent 3
        [Bytes.zero generichashBytes, transparent.generichash [], transparent.generichash [1]] 3 =
      .ok (result, logs) ∧
    result[0]? = root (combine transparent)
      [Bytes.zero generichashBytes, transparent.generichash [], transparent.generichash [1]] ∧
    ∀ log ∈ logs, NonClobbering log :=
  computeMerkleRoot_refines transparent (by decide) le_rfl le_rfl

end Accesses

section Identification

/-- The strings that are hashed for the Merkle root of a list of transactions, those of
its transactions included. -/
def hashedFor (S : Sodium) (txns : List Transaction) : List (List UInt8) :=
  treeStrings S (txns.map transactionHashInput)

/-- The transactions agree in all that their hash covers. -/
structure SamePayment (x y : Transaction) : Prop where
  sender : x.sender = y.sender
  recipient : x.recipient = y.recipient
  value : x.value = y.value
  nonce : x.nonce = y.nonce

variable {S : Sodium} {KeyPair : PublicKey → SecretKey → Prop} {xs ys : List Transaction}

theorem merkleRootFromList_eq (hxs : ∀ txn ∈ xs, Genuine S KeyPair txn) :
    merkleRootFromList S xs =
      merkleRootOfHashes S ((xs.map transactionHashInput).map S.generichash) := by
  rw [merkleRootFromList, List.map_map]
  congr 1
  apply List.map_congr_left
  intro txn htxn
  exact Genuine.hash_eq (hxs txn htxn)

theorem samePayment_of_inputs (h : xs.map transactionHashInput = ys.map transactionHashInput) :
    List.Forall₂ SamePayment xs ys := by
  have hinputs : ∀ txns : List Transaction, txns.map transactionHashInput =
      (txns.map TransactionMessage.ofTransaction).map fun t => t.unsigned.encode := by
    intro txns
    rw [List.map_map]
    apply List.map_congr_left
    intro txn _
    exact transactionHashInput_eq txn
  rw [hinputs, hinputs] at h
  have hfields := @map_eq_of_unsigned _
    (fun t => (t.sender, t.recipient, t.value, t.nonce)) (fun _ _ => rfl) _ _ h
  rw [List.map_map, List.map_map, ← List.forall₂_eq_eq_eq, List.forall₂_map_left_iff,
    List.forall₂_map_right_iff] at hfields
  apply hfields.imp
  intro x y hxy
  have hpayment : (x.sender, x.recipient, x.value, x.nonce) =
      (y.sender, y.recipient, y.value, y.nonce) := hxy
  simp only [Prod.mk.injEq] at hpayment
  obtain ⟨hsender, hrecipient, hvalue, hnonce⟩ := hpayment
  exact ⟨hsender, hrecipient, hvalue, hnonce⟩

/-- A Merkle root identifies the list of transactions that it was computed for. -/
theorem samePayments_of_merkleRoot (hxs : ∀ txn ∈ xs, Genuine S KeyPair txn)
    (hys : ∀ txn ∈ ys, Genuine S KeyPair txn)
    (hfree : S.CollisionFree {string | string ∈ hashedFor S xs ∨ string ∈ hashedFor S ys})
    (hzero : ∀ string, string ∈ hashedFor S xs ∨ string ∈ hashedFor S ys →
      S.generichash string ≠ Bytes.zero generichashBytes)
    (h : merkleRootFromList S xs = merkleRootFromList S ys) :
    xs.length = ys.length ∧ List.Forall₂ SamePayment xs ys := by
  rw [merkleRootFromList_eq hxs, merkleRootFromList_eq hys] at h
  have hlong : ∀ txns : List Transaction, ∀ x ∈ txns.map transactionHashInput,
      x.length ≠ 2 * generichashBytes := by
    intro txns x hx
    obtain ⟨txn, -, rfl⟩ := List.mem_map.mp hx
    rw [transactionHashInput_eq]
    exact unsigned_long _
  have hinputs := leaves_eq_of_merkleRoot hfree hzero (fun _ hx => Or.inl hx)
    (fun _ hy => Or.inr hy) (hlong xs) (hlong ys) h
  have hsame := samePayment_of_inputs hinputs
  exact ⟨hsame.length_eq, hsame⟩

theorem collisionFree_of_nodup {strings : List (List UInt8)}
    (h : (strings.map S.generichash).Nodup) : S.CollisionFree {string | string ∈ strings} :=
  fun _ hx _ hy heq => List.inj_on_of_nodup_map h hx hy heq

/-- The transparent scheme with signatures that repeat the second half of the secret key. -/
def salted : Sodium :=
  { transparent with
    signDetached := fun _ sk => Bytes.ofList signBytes (sk.toList.drop publicKeyBytes)
    signVerifyDetached := fun _ _ _ => true }

/-- Three payments of the miner, signed with this salt. -/
def saltedPayments (salt : UInt8) : List Transaction :=
  [10, 20, 30].map fun value => transactionCreate salted minerKey
    (Bytes.ofList _ (minerKey.toList ++ [salt])) payeeKey value 0

theorem genuine_saltedPayments (salt : UInt8) :
    ∀ txn ∈ saltedPayments salt, Genuine salted TransparentKeyPair txn := by
  intro txn htxn
  obtain ⟨value, -, rfl⟩ := List.mem_map.mp htxn
  exact .created rfl payeeKey value 0

/-- Two lists of three payments with other signatures have one root, with one hash promoted
on the way to it, and are the same payments. -/
theorem samePayments_of_merkleRoot_salted : saltedPayments 1 ≠ saltedPayments 2 ∧
    (saltedPayments 1).length = (saltedPayments 2).length ∧
      List.Forall₂ SamePayment (saltedPayments 1) (saltedPayments 2) := by
  have hstrings : hashedFor salted (saltedPayments 2) = hashedFor salted (saltedPayments 1) := by
    decide +kernel
  refine ⟨by decide +kernel, samePayments_of_merkleRoot (genuine_saltedPayments 1)
    (genuine_saltedPayments 2) ?_ ?_ (by decide +kernel)⟩
  · simp only [hstrings, or_self]
    exact collisionFree_of_nodup (by decide +kernel)
  · rw [hstrings]
    simp only [or_self]
    decide +kernel

end Identification

end Whosecoin.MerkleComputation
