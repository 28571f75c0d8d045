import Whosecoin.BlockDelivery
import Whosecoin.BlockIdentity
import Whosecoin.LedgerRefinement
import Whosecoin.Agreement

namespace Whosecoin.BlockRelay

open Library.Outcomes
open Library.ByteStrings
open Library.Maps
open Cryptography
open TupleParser
open TupleFormat
open Transactions
open TransactionSchema
open Accounts
open Blocks
open MerkleRoots
open BlockSchema
open BlockIdentity
open BlockDelivery
open Chains
open LedgerRefinement
open Agreement

/-- What the program writes for a block is accepted again, as a block with the
same hash and the same transactions, and the block's Merkle root is that of its
transactions. -/
def Relayed (S : Sodium) (find : Hash → BlockPtr) (block : Block) (prev : BlockPtr) : Prop :=
  (∃ bytes tuple block' prev', blockWrite [] (block :: prev) = .ok bytes ∧
    tupleParse ⟨bytes.length, bytes⟩ = .ok (some tuple) ∧
    blockCreateFromTuple S tuple find = .ok (block' :: prev') ∧ block'.hash = block.hash ∧
    block'.transactions.map Transaction.hash = block.transactions.map Transaction.hash) ∧
  block.merkleRoot = merkleRootFromList S block.transactions

/-- Looked up again under its own hash, the parent of a header has that hash and
lets the header pass. -/
structure ParentAgain (S : Sodium) (find : Hash → BlockPtr) (m : HeaderMessage) : Prop where
  hash_eq : blockGetHash (find (blockGetHash (find m.prevHash))) =
    blockGetHash (find m.prevHash)
  staking : isStakingAllowed (find (blockGetHash (find m.prevHash))) m.publicKey = true
  sortition : (S.vrfVerify m.publicKey m.sortitionProof
    (blockComputeSeed S (find (blockGetHash (find m.prevHash)))).toList).isSome = true
  delegate : isDelegateAllowed (find (blockGetHash (find m.prevHash))) m.publicKey m.delegate =
    true

/-- No inner transaction tuple has elements behind the four of the schema. -/
def Exact (m : BlockMessage) : Prop :=
  ∀ t ∈ m.transactions, t.fields.length = 4

/-- The transaction as the program writes it. -/
def canonical (t : TransactionMessage) : TransactionMessage :=
  { t with extra := [] }

theorem canonical_eq_of_length {t : TransactionMessage} (h : t.fields.length = 4) :
    canonical t = t := by
  have hextra : t.extra = [] := by
    simpa [TransactionMessage.fields] using h
  rw [canonical, ← hextra]

theorem extra_eq_nil_of_encode {t : TransactionMessage}
    (h : t.unsigned.encode = (canonical t).unsigned.encode) : t.fields.length = 4 := by
  have hlength := congrArg List.length h
  rw [TransactionMessage.unsigned, TransactionMessage.unsigned, encode_tuple_length,
    encode_tuple_length] at hlength
  have hextra : (encodeAll t.extra).length = 0 := by
    simp only [TransactionMessage.fields, canonical, encodeAll, List.length_append,
      List.length_nil] at hlength
    omega
  have hle := length_le_encodeAll t.extra
  simp only [TransactionMessage.fields, List.length_cons]
  omega

theorem prevHash_eq_of_encode {m : HeaderMessage} {a b : Hash}
    (h : (Value.tuple ({ m with prevHash := a } : HeaderMessage).fields).encode =
      (Value.tuple ({ m with prevHash := b } : HeaderMessage).fields).encode) : a = b := by
  simp only [HeaderMessage.fields, Value.encode, encodeAll, ofBytes, ofU64, Bytes.length_eq,
    List.cons_append, List.cons.injEq, true_and, List.append_assoc,
    List.append_cancel_left_eq] at h
  exact Bytes.ext (List.append_inj_left h (a.length_eq.trans b.length_eq.symm))

section Message

variable (S : Sodium) (m : BlockMessage) (prev : BlockPtr)

/-- The message that the program writes for the block of another message. -/
def rewritten : BlockMessage where
  header := { m.header with prevHash := blockGetHash prev }
  signature := (Bytes.ofList signBytes m.signature).toList
  signatureFits := by
    rw [Bytes.length_eq]
    decide
  transactions := m.transactions.map canonical

variable {S m prev}

theorem messageOf_block (hconsistent : m.Consistent S) (sortitionHash : VrfOutput)
    (accounts : Map PublicKey AccountPtr) :
    messageOf (m.block S prev sortitionHash accounts) prev = rewritten m prev := by
  have hcount : UInt32.ofNat (m.txns S).length = m.header.count := by
    rw [BlockMessage.txns, List.length_map, hconsistent.count_eq, UInt32.ofNat_toNat]
  have htxns :
      (m.txns S).map TransactionMessage.ofTransaction = m.transactions.map canonical := by
    rw [BlockMessage.txns, List.map_map]
    rfl
  simp only [messageOf, headerOf, BlockMessage.block, hcount, htxns, rewritten]

theorem leaves_rewritten : (rewritten m prev).leaves S = (m.txns S).map Transaction.hash := by
  rw [BlockMessage.leaves, rewritten, BlockMessage.txns, List.map_map, List.map_map]
  exact List.map_congr_left fun t _ => (transaction_hash S t).symm

theorem txns_rewritten : (rewritten m prev).txns S = m.txns S := by
  rw [BlockMessage.txns, rewritten, List.map_map]
  rfl

theorem consistent_rewritten_iff (hconsistent : m.Consistent S) :
    (rewritten m prev).Consistent S ↔
      merkleRootFromList S (m.txns S) = m.header.merkleRoot := by
  have hleaves : (rewritten m prev).leaves S = (m.txns S).map Transaction.hash := leaves_rewritten
  rw [merkleRootFromList, ← hleaves]
  constructor
  · intro h
    exact h.merkleRoot_eq
  · intro h
    refine ⟨?_, h⟩
    rw [rewritten, List.length_map]
    exact hconsistent.count_eq

/-- The strings that two nodes hash when one accepts the message and the other
accepts what the first one writes. -/
def hashedStrings (S : Sodium) (find : Hash → BlockPtr) (m : BlockMessage) : List (List UInt8) :=
  let prev := find m.header.prevHash
  let prev' := find (blockGetHash prev)
  let received := m.transactions.map fun t => t.unsigned.encode
  let written := m.transactions.map fun t => (canonical t).unsigned.encode
  let header := fun p => (Value.tuple
    ({ m.header with prevHash := blockGetHash p } : HeaderMessage).fields).encode
  received ++ written ++ merkleStrings S (m.leaves S) ++
    merkleStrings S ((rewritten m prev).leaves S) ++ [header prev, header prev']

variable {find : Hash → BlockPtr}

/-- Without hash collisions the Merkle root of the written transactions is the
header's only where nothing was left out. -/
theorem exact_of_merkleRoot (hconsistent : m.Consistent S)
    (hfree : S.CollisionFree {string | string ∈ hashedStrings S find m})
    (hroot : (rewritten m (find m.header.prevHash)).Consistent S) : Exact m := by
  have hlength : (m.leaves S).length =
      ((rewritten m (find m.header.prevHash)).leaves S).length := by
    simp only [BlockMessage.leaves, rewritten, List.length_map]
  have hleaves := merkleRootOfHashes_injOn S hlength (hfree.mono ?_)
    (hconsistent.merkleRoot_eq.trans hroot.merkleRoot_eq.symm)
  · intro t ht
    rw [BlockMessage.leaves, BlockMessage.leaves, rewritten, List.map_map,
      List.map_inj_left] at hleaves
    refine extra_eq_nil_of_encode (hfree ?_ ?_ (hleaves t ht))
    · simp only [hashedStrings, Set.mem_ofPred_eq, List.mem_append]
      exact .inl (.inl (.inl (.inl (List.mem_map_of_mem ht))))
    · simp only [hashedStrings, Set.mem_ofPred_eq, List.mem_append]
      exact .inl (.inl (.inl (.inr (List.mem_map_of_mem ht))))
  · rintro string (hs | hs)
    · simp only [hashedStrings, Set.mem_ofPred_eq, List.mem_append]
      exact .inl (.inl (.inr hs))
    · simp only [hashedStrings, Set.mem_ofPred_eq, List.mem_append]
      exact .inl (.inr hs)

theorem rewritten_of_exact (h : Exact m) :
    (rewritten m prev).leaves S = m.leaves S := by
  rw [BlockMessage.leaves, rewritten, List.map_map]
  exact List.map_congr_left fun t ht => by
    rw [Function.comp_apply, canonical_eq_of_length (h t ht)]

theorem consistent_of_exact (hconsistent : m.Consistent S) (h : Exact m) :
    (rewritten m prev).Consistent S where
  count_eq := by
    rw [rewritten, List.length_map]
    exact hconsistent.count_eq
  merkleRoot_eq := by
    rw [rewritten_of_exact h]
    exact hconsistent.merkleRoot_eq

theorem hash_rewritten (prev' : BlockPtr) (hhash : blockGetHash prev' = blockGetHash prev) :
    (rewritten m prev).hash S prev' = m.hash S prev := by
  rw [BlockMessage.hash, BlockMessage.hash, rewritten, hhash]

theorem parentAgain_of_checks {sortitionHash : VrfOutput}
    (hfree : S.CollisionFree {string | string ∈ hashedStrings S find m})
    (hchecks : (rewritten m (find m.header.prevHash)).Checks S
      (find (blockGetHash (find m.header.prevHash))) sortitionHash)
    (hhash : (rewritten m (find m.header.prevHash)).hash S
      (find (blockGetHash (find m.header.prevHash))) = m.hash S (find m.header.prevHash)) :
    ParentAgain S find m.header where
  hash_eq := by
    have hencode := hfree ?_ ?_ hhash
    · exact prevHash_eq_of_encode hencode
    · simp [hashedStrings, rewritten]
    · simp [hashedStrings]
  staking := hchecks.staking
  sortition := by
    rw [Option.isSome_iff_exists]
    exact ⟨sortitionHash, hchecks.sortition⟩
  delegate := hchecks.delegate

theorem canonical_verifies {t : TransactionMessage} :
    (canonical t).Verifies S ↔ t.Verifies S :=
  Iff.rfl

theorem checks_of_parentAgain {sortitionHash : VrfOutput}
    (hchecks : m.Checks S (find m.header.prevHash) sortitionHash)
    (hagain : ParentAgain S find m.header) :
    ∃ sortitionHash', (rewritten m (find m.header.prevHash)).Checks S
      (find (blockGetHash (find m.header.prevHash))) sortitionHash' := by
  obtain ⟨sortitionHash', hsortition⟩ := Option.isSome_iff_exists.mp hagain.sortition
  refine ⟨sortitionHash', ?_⟩
  exact
    { signature_length := (Bytes.length_eq _).le
      staking := hagain.staking
      sortition := hsortition
      delegate := hagain.delegate
      transactions := by
        intro t ht
        obtain ⟨u, hu, rfl⟩ := List.mem_map.mp ht
        exact canonical_verifies.mpr (hchecks.transactions u hu)
      signature := by
        rw [hash_rewritten _ hagain.hash_eq]
        change S.signVerifyDetached (Bytes.ofList signBytes (Bytes.ofList _ _).toList) _ _ = true
        rw [Bytes.ofList_self]
        exact hchecks.signature }

end Message

/-- A lookup by hash that has nothing under the zero hash finds every parent
again. -/
theorem parentAgain_of_findsByHash {S : Sodium} {find : Hash → BlockPtr} {m : BlockMessage}
    {sortitionHash : VrfOutput} (hfind : FindsByHash find)
    (hzero : find (Bytes.zero generichashBytes) = [])
    (hchecks : m.Checks S (find m.header.prevHash) sortitionHash) :
    ParentAgain S find m.header := by
  have hagain : find (blockGetHash (find m.header.prevHash)) = find m.header.prevHash := by
    rcases eq_or_ne (find m.header.prevHash) [] with hnull | hfound
    · rw [hnull]
      exact hzero
    · rw [hfind _ hfound]
  exact
    { hash_eq := by rw [hagain]
      staking := by
        rw [hagain]
        exact hchecks.staking
      sortition := by
        rw [hagain, hchecks.sortition]
        rfl
      delegate := by
        rw [hagain]
        exact hchecks.delegate }

theorem relayed_of_accept_iff {S : Sodium} {find : Hash → BlockPtr} {m : BlockMessage}
    (hconsistent : m.Consistent S)
    (hfree : S.CollisionFree {string | string ∈ hashedStrings S find m}) {block : Block}
    {prev : BlockPtr} (haccept : m.accept S (find m.header.prevHash) = .ok (block :: prev)) :
    Relayed S find block prev ↔ Exact m ∧ ParentAgain S find m.header := by
  rw [accept_eq_ok_iff] at haccept
  obtain ⟨rfl, sortitionHash, accounts, hchecks, -, rfl⟩ := haccept
  have hmessage : messageOf (m.block S (find m.header.prevHash) sortitionHash accounts)
      (find m.header.prevHash) = rewritten m (find m.header.prevHash) :=
    messageOf_block hconsistent sortitionHash accounts
  have hwrite := blockWrite_eq [] (m.block S (find m.header.prevHash) sortitionHash accounts)
    (find m.header.prevHash)
  rw [hmessage, List.nil_append] at hwrite
  obtain ⟨written, hparsed, hrep'⟩ := exists_parsed (rewritten m (find m.header.prevHash)) []
  rw [List.append_nil] at hparsed
  have hroot : (rewritten m (find m.header.prevHash)).Consistent S ↔
      merkleRootFromList S (m.txns S) = m.header.merkleRoot :=
        consistent_rewritten_iff hconsistent
  constructor
  · rintro ⟨⟨bytes, tuple', block', prev', hbytes, hparse', hrun', hhash, -⟩, hmerkle⟩
    have hconsistent' := hroot.mpr hmerkle.symm
    rw [hwrite, Except.ok.injEq] at hbytes
    subst hbytes
    rw [hparsed, Except.ok.injEq, Option.some.injEq] at hparse'
    subst hparse'
    rw [blockCreateFromTuple_eq hrep' hconsistent', accept_eq_ok_iff] at hrun'
    obtain ⟨rfl, sortitionHash', accounts', hchecks', -, rfl⟩ := hrun'
    exact ⟨exact_of_merkleRoot hconsistent hfree hconsistent',
      parentAgain_of_checks hfree hchecks' hhash⟩
  · rintro ⟨hexact, hagain⟩
    have hconsistent' : (rewritten m (find m.header.prevHash)).Consistent S :=
      consistent_of_exact hconsistent hexact
    obtain ⟨sortitionHash', hchecks'⟩ := checks_of_parentAgain hchecks hagain
    obtain ⟨accounts', hledger', -⟩ := areTransactionsValid_spec
      (find (blockGetHash (find m.header.prevHash))) m.header.publicKey
      (1 + blockGetHeight (find (blockGetHash (find m.header.prevHash))))
      ((rewritten m (find m.header.prevHash)).txns S)
    have hrun' := blockCreateFromTuple_eq hrep' hconsistent' find
    have hagain' := (accept_eq_ok_iff (rewritten m (find m.header.prevHash)) S _ _ _).mpr
      ⟨rfl, sortitionHash', accounts', hchecks', hledger', rfl⟩
    refine ⟨⟨_, written, _, _, hwrite, hparsed, hrun'.trans hagain', ?_, ?_⟩, ?_⟩
    · exact hash_rewritten _ hagain.hash_eq
    · exact congrArg (List.map Transaction.hash) txns_rewritten
    · exact (hroot.mp hconsistent').symm

/-- The program writes within its fields, and a block that it makes of the tuple is
passed on. -/
structure Relays (S : Sodium) (tuple : Tuple) (find : Hash → BlockPtr) : Prop where
  inside : ¬ Overruns S tuple
  relayed : ∀ block prev, blockCreateFromTuple S tuple find = .ok (block :: prev) →
    Relayed S find block prev

/-- A received block can be passed on exactly when its signature fits, its transactions
have no extra elements and its parent is found again under its own hash. -/
theorem relayed_iff {S : Sodium} {buffer : Buffer} {tuple : Tuple}
    (hparse : tupleParse buffer = .ok (some tuple)) {find : Hash → BlockPtr}
    (hreceived : Received S tuple find) :
    ∃ m : BlockMessage, Represents tuple m.values ∧
      (S.CollisionFree {string | string ∈ hashedStrings S find m} →
        (Relays S tuple find ↔
          m.signature.length ≤ signBytes ∧ Exact m ∧ ParentAgain S find m.header)) := by
  obtain ⟨vs, hrep, -⟩ := represents_of_tupleParse hparse
  obtain ⟨m, rfl, hconsistent⟩ := exists_message_of_received hrep hreceived
  refine ⟨m, hrep, fun hfree => ?_⟩
  rcases received_cases hrep hconsistent hreceived with
    ⟨hover, hlong⟩ | ⟨data, prev, hinside, hshort, hrun, haccept⟩
  · exact iff_of_false (fun h => h.inside hover) (fun h => absurd hlong h.1.not_gt)
  · rw [← relayed_of_accept_iff hconsistent hfree haccept, and_iff_right hshort]
    constructor
    · intro h
      exact h.relayed _ _ hrun
    · intro h
      refine ⟨hinside, fun block' prev' hrun' => ?_⟩
      obtain ⟨rfl, rfl⟩ := List.cons.inj (Except.ok.inj (hrun.symm.trans hrun'))
      exact h

section Extras

theorem merkleRootOfHashes_singleton (S : Sodium) (hash : Hash) :
    merkleRootOfHashes S [hash] = hash := by
  simp [merkleRootOfHashes, computeMerkleRoot]

/-- A payment with some elements behind the four of the schema. -/
def paymentMessage (extra : List Value) : TransactionMessage :=
  { TransactionMessage.ofTransaction (payment 1 100 0) with extra := extra }

def paymentHeader (extra : List Value) : HeaderMessage :=
  { minerHeader (Bytes.zero _) with
    merkleRoot := transparent.generichash (paymentMessage extra).unsigned.encode
    count := 1 }

/-- A genesis block with that payment, as the miner signs it. -/
def paymentBlockMessage (extra : List Value) : BlockMessage where
  header := paymentHeader extra
  signature := (transparent.signDetached (transparent.generichash
    (Value.tuple (paymentHeader extra).fields).encode).toList minerSecret).toList
  signatureFits := by
    rw [Bytes.length_eq]
    decide
  transactions := [paymentMessage extra]

theorem paymentBlockMessage_consistent (extra : List Value) :
    (paymentBlockMessage extra).Consistent transparent where
  count_eq := by simp only [paymentBlockMessage, paymentHeader, List.length_singleton]; rfl
  merkleRoot_eq := by
    simp only [BlockMessage.leaves, paymentBlockMessage, paymentHeader, List.map_cons,
      List.map_nil, merkleRootOfHashes_singleton]

theorem minerKeys : TransparentKeyPair minerKey minerSecret := by
  rw [TransparentKeyPair]
  decide

theorem paymentMessage_verifies (extra : List Value) :
    (paymentMessage extra).Verifies transparent := by
  have hsigned : Signed transparent (payment 1 100 0) :=
    (Genuine.created minerKeys payeeKey 100 0).signed transparent_complete
  exact hsigned.message_verifies

theorem paymentBlockMessage_checks (extra : List Value) :
    (paymentBlockMessage extra).Checks transparent [] (transparent.vrfProofToHash
      (transparent.vrfProve minerSecret (blockComputeSeed transparent []).toList)) where
  signature_length := (Bytes.length_eq _).le
  staking := rfl
  sortition := transparent_complete.vrf_verifies minerKey minerSecret _ minerKeys
  delegate := rfl
  transactions := by
    intro t ht
    rw [List.mem_singleton.mp ht]
    exact paymentMessage_verifies extra
  signature := by
    have hhash : (paymentBlockMessage extra).hash transparent [] =
        transparent.generichash (Value.tuple (paymentHeader extra).fields).encode := by
      simp only [BlockMessage.hash, paymentBlockMessage, paymentHeader, minerHeader, blockGetHash]
    rw [hhash]
    simp only [paymentBlockMessage, Bytes.ofList_self]
    exact transparent_complete.sign_verifies minerKey minerSecret _ minerKeys

theorem exists_tuple_of_payment (extra : List Value) :
    ∃ buffer tuple accounts, tupleParse buffer = .ok (some tuple) ∧
      Represents tuple (paymentBlockMessage extra).values ∧
      blockCreateFromTuple transparent tuple (fun _ => []) =
        .ok [(paymentBlockMessage extra).block transparent [] (transparent.vrfProofToHash
          (transparent.vrfProve minerSecret (blockComputeSeed transparent []).toList))
            accounts] := by
  obtain ⟨tuple, hparse, hrep⟩ := exists_parsed (paymentBlockMessage extra) []
  obtain ⟨accounts, hledger, -⟩ := areTransactionsValid_spec [] minerKey (1 + blockGetHeight [])
    ((paymentBlockMessage extra).txns transparent)
  refine ⟨_, tuple, accounts, hparse, hrep, ?_⟩
  rw [blockCreateFromTuple_eq hrep (paymentBlockMessage_consistent extra), accept_eq_ok_iff]
  exact ⟨rfl, _, accounts, paymentBlockMessage_checks extra, hledger, rfl⟩

theorem mem_hashedStrings_payment {extra : List Value} {string : List UInt8}
    (h : string ∈ hashedStrings transparent (fun _ => []) (paymentBlockMessage extra)) :
    string = (paymentMessage extra).unsigned.encode ∨
      string = (canonical (paymentMessage extra)).unsigned.encode ∨
      string = (Value.tuple (paymentHeader extra).fields).encode := by
  have hreceived :
      merkleStrings transparent ((paymentBlockMessage extra).leaves transparent) = [] :=
    rfl
  have hwritten : merkleStrings transparent
      ((rewritten (paymentBlockMessage extra) []).leaves transparent) = [] :=
    rfl
  simp only [hashedStrings, hreceived, hwritten, List.append_nil, List.mem_append] at h
  rcases h with (h | h) | h
  · exact .inl (List.mem_singleton.mp h)
  · exact .inr (.inl (List.mem_singleton.mp h))
  · simp only [List.mem_cons, List.not_mem_nil, or_false, or_self] at h
    exact .inr (.inr h)

theorem collisionFree_payment {extra : List Value}
    (hmessage : transparent.generichash (paymentMessage extra).unsigned.encode =
      transparent.generichash (canonical (paymentMessage extra)).unsigned.encode →
        (paymentMessage extra).unsigned.encode =
        (canonical (paymentMessage extra)).unsigned.encode)
    (hreceived : transparent.generichash (paymentMessage extra).unsigned.encode ≠
      transparent.generichash (Value.tuple (paymentHeader extra).fields).encode)
    (hwritten : transparent.generichash (canonical (paymentMessage extra)).unsigned.encode ≠
      transparent.generichash (Value.tuple (paymentHeader extra).fields).encode) :
    transparent.CollisionFree
      {string | string ∈ hashedStrings transparent (fun _ => [])
        (paymentBlockMessage extra)} := by
  intro x hx y hy heq
  rcases mem_hashedStrings_payment hx with rfl | rfl | rfl <;>
    rcases mem_hashedStrings_payment hy with rfl | rfl | rfl
  · rfl
  · exact hmessage heq
  · exact absurd heq hreceived
  · exact (hmessage heq.symm).symm
  · rfl
  · exact absurd heq hwritten
  · exact absurd heq.symm hreceived
  · exact absurd heq.symm hwritten
  · rfl

/-- A block without extra elements, hashed without a collision. -/
theorem relayed_iff_payment :
    ∃ tuple block, Represents tuple (paymentBlockMessage []).values ∧
      blockCreateFromTuple transparent tuple (fun _ => []) = .ok [block] ∧
      (Relays transparent tuple (fun _ => []) ↔
        (paymentBlockMessage []).signature.length ≤ signBytes ∧
          Exact (paymentBlockMessage []) ∧
            ParentAgain transparent (fun _ => []) (paymentBlockMessage []).header) := by
  obtain ⟨buffer, tuple, accounts, hparse, hrep, hrun⟩ := exists_tuple_of_payment []
  obtain ⟨m, hrep', hiff⟩ := relayed_iff hparse (.inr ⟨_, hrun, List.cons_ne_nil _ _⟩)
  have hm : m = paymentBlockMessage [] :=
    BlockMessage.values_injective (hrep'.unique hrep)
  rw [hm] at hiff
  have hfree := collisionFree_payment (fun _ => rfl)
    (show transparent.generichash (paymentMessage []).unsigned.encode ≠
      transparent.generichash (Value.tuple (paymentHeader []).fields).encode by decide +kernel)
    (by decide +kernel)
  exact ⟨tuple, _, hrep, hrun, hiff hfree⟩

/-- One more element, which no check looks at. -/
def nullElement : Value :=
  .scalar .null ⟨[], List.length_nil⟩

/-- A node accepts a payment with a fifth element that it does not pass on, and
no two of the strings collide. -/
theorem extra_element_not_relayed :
    ∃ buffer tuple block, tupleParse buffer = .ok (some tuple) ∧
      Represents tuple (paymentBlockMessage [nullElement]).values ∧
      blockCreateFromTuple transparent tuple (fun _ => []) = .ok [block] ∧
      transparent.CollisionFree {string |
        string ∈ hashedStrings transparent (fun _ => []) (paymentBlockMessage [nullElement])} ∧
      ¬ Relayed transparent (fun _ => []) block [] := by
  have hmessage : transparent.generichash (paymentMessage [nullElement]).unsigned.encode ≠
      transparent.generichash (canonical (paymentMessage [nullElement])).unsigned.encode := by
    decide +kernel
  obtain ⟨buffer, tuple, accounts, hparse, hrep, hrun⟩ := exists_tuple_of_payment [nullElement]
  refine ⟨buffer, tuple, _, hparse, hrep, hrun,
    collisionFree_payment (fun heq => absurd heq hmessage) (by decide +kernel)
      (by decide +kernel), ?_⟩
  rintro ⟨-, hmerkle⟩
  have hroot : transparent.generichash (paymentMessage [nullElement]).unsigned.encode =
      merkleRootOfHashes transparent
        [((paymentMessage [nullElement]).transaction transparent).hash] := hmerkle
  rw [merkleRootOfHashes_singleton, transaction_hash] at hroot
  exact hmessage hroot

end Extras

end Whosecoin.BlockRelay
