import Whosecoin.AlikeChains
import Whosecoin.BlockRelay

namespace Whosecoin.HistoryBinding

open Library.Outcomes
open Library.ByteStrings
open Cryptography
open TupleParser
open TupleFormat
open Transactions
open TransactionSchema
open Accounts
open Blocks
open MerkleRoots
open BlockSchema
open BlockDelivery
open BlockRelay
open Chains
open LedgerRefinement
open AlikeChains

/-- The strings that a block on top of `prev` hashes: its header, its transactions
as they are hashed for the Merkle root, and the inner nodes above them. -/
def blockStrings (S : Sodium) (block : Block) (prev : BlockPtr)
    (messages : List TransactionMessage) : List (List UInt8) :=
  blockWriteHeader [] block prev block.transactions.length ::
    treeStrings S (messages.map fun t => t.unsigned.encode)

variable (S : Sodium) (KeyPair : PublicKey → SecretKey → Prop)

/-- A chain whose blocks are all built by `block_create` or accepted by
`block_create_from_tuple`, with the strings that are hashed for it. -/
inductive History : BlockPtr → List (List UInt8) → Prop where
  | null : History [] []
  | create {now : UInt64} {pk : PublicKey} {sk : SecretKey} {prev : BlockPtr} {block : Block}
      {txns : List Transaction} {strings : List (List UInt8)} (hprev : History prev strings)
      (htxns : ∀ txn ∈ txns, Genuine S KeyPair txn)
      (hblock : blockCreate S now pk sk prev txns = .ok (block :: prev)) :
      History (block :: prev)
        (blockStrings S block prev (txns.map TransactionMessage.ofTransaction) ++ strings)
  | accept {tuple : Tuple} {m : BlockMessage} {find : Hash → BlockPtr} {prev : BlockPtr}
      {block : Block} {strings : List (List UInt8)} (hprev : History prev strings)
      (htuple : Represents tuple m.values)
      (hblock : blockCreateFromTuple S tuple find = .ok (block :: prev)) :
      History (block :: prev) (blockStrings S block prev m.transactions ++ strings)

/-- What the hash of a block fixes about the block itself. -/
structure SameContents (b c : Block) : Prop where
  timestamp : b.timestamp = c.timestamp
  merkleRoot : b.merkleRoot = c.merkleRoot
  publicKey : b.publicKey = c.publicKey
  sortitionProof : b.sortitionProof = c.sortitionProof
  delegate : b.delegate = c.delegate
  transactions : b.transactions.map Transaction.hash = c.transactions.map Transaction.hash

/-- The hash and the Merkle root of a block on top of `prev`. -/
structure Sealed (block : Block) (prev : BlockPtr) (messages : List TransactionMessage) :
    Prop where
  hash_eq : block.hash = S.generichash (blockWriteHeader [] block prev block.transactions.length)
  merkleRoot_eq : block.merkleRoot =
    merkleRootOfHashes S ((messages.map fun t => t.unsigned.encode).map S.generichash)
  transactions_eq : block.transactions.map Transaction.hash =
    messages.map fun t => (t.transaction S).hash

variable {S KeyPair}

theorem Genuine.hash_eq {txn : Transaction} (h : Genuine S KeyPair txn) :
    txn.hash = S.generichash (transactionHashInput txn) := by
  cases h with
  | created hkeys recipient value nonce => rfl
  | accepted hrun => exact (signed_of_accepted hrun).hash_eq

theorem sealed_of_create {now : UInt64} {pk : PublicKey} {sk : SecretKey} {prev : BlockPtr}
    {block : Block} {txns : List Transaction} (htxns : ∀ txn ∈ txns, Genuine S KeyPair txn)
    (hblock : blockCreate S now pk sk prev txns = .ok (block :: prev)) :
    Sealed S block prev (txns.map TransactionMessage.ofTransaction) := by
  obtain ⟨-, -, -, accounts, -, rfl⟩ := blockCreate_spec hblock
  constructor
  · rfl
  · change merkleRootOfHashes S (txns.map Transaction.hash) = _
    rw [List.map_map, List.map_map]
    congr 1
    apply List.map_congr_left
    intro txn htxn
    rw [Genuine.hash_eq (htxns txn htxn), transactionHashInput_eq]
    rfl
  · change txns.map Transaction.hash = _
    rw [List.map_map]
    apply List.map_congr_left
    intro txn htxn
    rw [Function.comp_apply, transaction_ofTransaction (Genuine.hash_eq (htxns txn htxn))]

theorem message_of_accept {tuple : Tuple} {m : BlockMessage} (htuple : Represents tuple m.values)
    {find : Hash → BlockPtr} {prev : BlockPtr} {block : Block}
    (hblock : blockCreateFromTuple S tuple find = .ok (block :: prev)) :
    m.Consistent S ∧ ∃ sortitionHash accounts, m.Checks S prev sortitionHash ∧
      block = m.block S prev sortitionHash accounts := by
  obtain ⟨m', hvalues, hconsistent⟩ := exists_message_of_accepted htuple hblock
  obtain rfl := BlockMessage.values_injective hvalues
  rw [blockCreateFromTuple_eq htuple hconsistent, accept_eq_ok_iff] at hblock
  obtain ⟨rfl, sortitionHash, accounts, hchecks, -, rfl⟩ := hblock
  exact ⟨hconsistent, sortitionHash, accounts, hchecks, rfl⟩

theorem sealed_of_accept {tuple : Tuple} {m : BlockMessage} (htuple : Represents tuple m.values)
    {find : Hash → BlockPtr} {prev : BlockPtr} {block : Block}
    (hblock : blockCreateFromTuple S tuple find = .ok (block :: prev)) :
    Sealed S block prev m.transactions := by
  obtain ⟨hconsistent, sortitionHash, accounts, -, rfl⟩ := message_of_accept htuple hblock
  constructor
  · have hcount : (m.txns S).length = m.transactions.length := List.length_map _
    exact (blockComputeHash_eq (headerOf_eq hconsistent _ rfl rfl rfl rfl rfl hcount)).symm
  · rw [List.map_map]
    exact hconsistent.merkleRoot_eq.symm
  · change (m.txns S).map Transaction.hash = _
    rw [BlockMessage.txns, List.map_map]
    rfl

/-- What a block on top of `prev` has, whether the node has built or accepted it. -/
structure Founded (S : Sodium) (block : Block) (prev : BlockPtr)
    (messages : List TransactionMessage) : Prop
    extends Sealed S block prev messages, Extends block prev where
  seed_eq : block.sortitionSeed = blockComputeSeed S prev
  transfers_eq : block.transactions.map transferOf =
    messages.map fun t => transferOf (t.transaction S)

theorem History.cons {block : Block} {prev : BlockPtr} {strings : List (List UInt8)}
    (h : History S KeyPair (block :: prev) strings) : ∃ messages rest,
      strings = blockStrings S block prev messages ++ rest ∧ Founded S block prev messages ∧
        History S KeyPair prev rest := by
  cases h with
  | create hprev htxns hblock =>
      refine ⟨_, _, rfl,
        ⟨sealed_of_create htxns hblock, (extends_of_blockCreate hblock).2, ?_, ?_⟩, hprev⟩
      · obtain ⟨-, -, -, accounts, -, rfl⟩ := blockCreate_spec hblock
        rfl
      · obtain ⟨-, -, -, accounts, -, rfl⟩ := blockCreate_spec hblock
        rw [List.map_map]
        rfl
  | @accept _ m _ _ _ _ hprev htuple hblock =>
      have haccepted := (accepted_of_blockCreateFromTuple hblock).2
      refine ⟨_, _, rfl,
        ⟨sealed_of_accept htuple hblock, haccepted.toExtends, haccepted.seed_eq, ?_⟩, hprev⟩
      obtain ⟨-, sortitionHash, accounts, -, rfl⟩ := message_of_accept htuple hblock
      change (m.txns S).map transferOf = _
      rw [BlockMessage.txns, List.map_map]
      rfl

theorem unsigned_long (t : TransactionMessage) :
    t.unsigned.encode.length ≠ 2 * generichashBytes := by
  rw [TransactionMessage.unsigned, encode_tuple_length, TransactionMessage.fields]
  simp only [encodeAll, List.length_append, ofBytes, encode_binary_length, Bytes.length_eq,
    publicKeyBytes, generichashBytes]
  omega

theorem header_inj {b c : Block} {p q : BlockPtr} {m n : Nat}
    (h : blockWriteHeader [] b p m = blockWriteHeader [] c q n) :
    headerOf b p m = headerOf c q n := by
  rw [blockWriteHeader_eq, blockWriteHeader_eq, List.nil_append, List.nil_append] at h
  have hsame := congrArg (· ++ []) h
  exact HeaderMessage.fields_injective (Value.tuple.inj (encode_append_inj _ _ _ _ hsame).1)

theorem eq_of_unsigned_eq {t u : TransactionMessage} (h : t.unsigned = u.unsigned) :
    { t with signature := u.signature } = u :=
  TransactionMessage.values_injective (congrArg (fun v => [v, _]) h)

theorem map_eq_of_unsigned {α : Type} {f : TransactionMessage → α}
    (hf : ∀ (t : TransactionMessage) (signature : Signature), f { t with signature } = f t)
    {ms ns : List TransactionMessage}
    (h : (ms.map fun t => t.unsigned.encode) = ns.map fun t => t.unsigned.encode) :
    ms.map f = ns.map f := by
  induction ms generalizing ns with
  | nil => rw [List.map_eq_nil_iff.mp h.symm]
  | cons t ms ih =>
      cases ns with
      | nil => cases h
      | cons u ns =>
          obtain ⟨hhead, htail⟩ := List.cons.inj h
          have hvalues := (encode_append_inj _ _ [] [] (congrArg (· ++ []) hhead)).1
          have hsame : f t = f u := by
            rw [← hf t u.signature, eq_of_unsigned_eq hvalues]
          rw [List.map_cons, List.map_cons, hsame, ih htail]

section Step

variable {strings : Set (List UInt8)} {b c : Block} {p q : BlockPtr}
  {ms ns : List TransactionMessage}

/-- Two sealed blocks of one hash have the same contents, parents of one hash, and
come from transactions that are hashed the same. -/
theorem Sealed.same (hfree : S.CollisionFree strings)
    (hzero : ∀ string ∈ strings, S.generichash string ≠ Bytes.zero generichashBytes)
    (hb : Sealed S b p ms) (hc : Sealed S c q ns)
    (hbs : ∀ string ∈ blockStrings S b p ms, string ∈ strings)
    (hcs : ∀ string ∈ blockStrings S c q ns, string ∈ strings) (h : b.hash = c.hash) :
    SameContents b c ∧ blockGetHash p = blockGetHash q ∧
      (ms.map fun t => t.unsigned.encode) = ns.map fun t => t.unsigned.encode := by
  rw [blockStrings, List.forall_mem_cons] at hbs hcs
  rw [hb.hash_eq, hc.hash_eq] at h
  have hheader := header_inj (hfree hbs.1 hcs.1 h)
  simp only [headerOf, HeaderMessage.mk.injEq] at hheader
  obtain ⟨htimestamp, hprev, hroot, hpublic, hproof, hdelegate, -⟩ := hheader
  have hlong : ∀ ts : List TransactionMessage, ∀ x ∈ ts.map (fun t => t.unsigned.encode),
      x.length ≠ 2 * generichashBytes := by
    intro ts x hx
    obtain ⟨t, -, rfl⟩ := List.mem_map.mp hx
    exact unsigned_long t
  have hleaves := leaves_eq_of_merkleRoot hfree hzero hbs.2 hcs.2 (hlong ms) (hlong ns)
    (hb.merkleRoot_eq.symm.trans (hroot.trans hc.merkleRoot_eq))
  refine ⟨⟨htimestamp, hroot, hpublic, hproof, hdelegate, ?_⟩, hprev, hleaves⟩
  rw [hb.transactions_eq, hc.transactions_eq]
  exact map_eq_of_unsigned (fun _ _ => rfl) hleaves

end Step

theorem hash_ne_zero {block : Block} {prev : BlockPtr} {strings : List (List UInt8)}
    (h : History S KeyPair (block :: prev) strings)
    (hzero : ∀ string ∈ strings, S.generichash string ≠ Bytes.zero generichashBytes) :
    blockGetHash (block :: prev) ≠ Bytes.zero generichashBytes := by
  obtain ⟨messages, rest, rfl, hfounded, -⟩ := h.cons
  rw [blockGetHash, hfounded.hash_eq]
  exact hzero _ (List.mem_append_left _ List.mem_cons_self)

/-- Blocks of one hash have the same contents and the same effect, and so have their
ancestors. -/
theorem histories_alike {b c : BlockPtr} {strings strings' : List (List UInt8)}
    {hashed : Set (List UInt8)} (hfree : S.CollisionFree hashed)
    (hzero : ∀ string ∈ hashed, S.generichash string ≠ Bytes.zero generichashBytes)
    (hb : History S KeyPair b strings) (hbs : ∀ string ∈ strings, string ∈ hashed)
    (hc : History S KeyPair c strings') (hcs : ∀ string ∈ strings', string ∈ hashed)
    (h : blockGetHash b = blockGetHash c) :
    List.Forall₂ SameContents b c ∧ List.Forall₂ Alike b c := by
  induction b generalizing c strings strings' with
  | nil =>
      cases c with
      | nil => exact ⟨.nil, .nil⟩
      | cons block prev =>
          exact absurd h.symm (hash_ne_zero hc fun string hs => hzero string (hcs string hs))
  | cons block prev ih =>
      cases c with
      | nil => exact absurd h (hash_ne_zero hb fun string hs => hzero string (hbs string hs))
      | cons block' prev' =>
          obtain ⟨ms, rest, rfl, hfounded, hprev⟩ := hb.cons
          obtain ⟨ns, rest', rfl, hfounded', hprev'⟩ := hc.cons
          obtain ⟨hblock, hrest⟩ := List.forall_mem_append.mp hbs
          obtain ⟨hblock', hrest'⟩ := List.forall_mem_append.mp hcs
          obtain ⟨hsame, hhash, hleaves⟩ :=
            hfounded.toSealed.same hfree hzero hfounded'.toSealed hblock hblock' h
          obtain ⟨hcontents, halike⟩ := ih hprev hrest hprev' hrest' hhash
          have htransfers : block.transactions.map transferOf =
              block'.transactions.map transferOf := by
            rw [hfounded.transfers_eq, hfounded'.transfers_eq]
            exact map_eq_of_unsigned (fun _ _ => rfl) hleaves
          exact ⟨.cons hsame hcontents,
            .cons (alike_of_extends halike hfounded.toExtends hfounded'.toExtends h
              hsame.publicKey htransfers hfounded.seed_eq hfounded'.seed_eq) halike⟩

/-- Blocks of one hash have the same history. -/
theorem history_binding {b c : BlockPtr} {strings strings' : List (List UInt8)}
    (hb : History S KeyPair b strings) (hc : History S KeyPair c strings')
    (hfree : S.CollisionFree {string | string ∈ strings ∨ string ∈ strings'})
    (hzero : ∀ string, string ∈ strings ∨ string ∈ strings' →
      S.generichash string ≠ Bytes.zero generichashBytes)
    (h : blockGetHash b = blockGetHash c) :
    b.length = c.length ∧ List.Forall₂ SameContents b c := by
  obtain ⟨hcontents, -⟩ := histories_alike hfree hzero hb (fun _ hs => Or.inl hs) hc
    (fun _ hs => Or.inr hs) h
  exact ⟨hcontents.length_eq, hcontents⟩

section Payment

/-- The two strings that are hashed for a genesis block with a payment. -/
def paymentStrings : List (List UInt8) :=
  [(Value.tuple (paymentHeader []).fields).encode, (paymentMessage []).unsigned.encode]

theorem blockStrings_singleton (block : Block) (prev : BlockPtr) (t : TransactionMessage) :
    blockStrings transparent block prev [t] ++ [] =
      [(Value.tuple (headerOf block prev block.transactions.length).fields).encode,
        t.unsigned.encode] := by
  rw [blockStrings, blockWriteHeader_eq]
  rfl

theorem headerOf_signedBlock (now : UInt64) (pk : PublicKey) (sk : SecretKey) (prev : BlockPtr)
    (txns : List Transaction) (accounts : Library.Maps.Map PublicKey AccountPtr) (count : Nat) :
    headerOf (signedBlock S now pk sk prev txns accounts) prev count =
      headerOf (unsignedBlock S now pk sk prev txns) prev count :=
  rfl

theorem exists_mined_payment : ∃ block, minedBlock 1 [] [payment 1 100 0] = [block] ∧
    History transparent TransparentKeyPair [block] paymentStrings := by
  have hne : minedBlock 1 [] [payment 1 100 0] ≠ [] := by decide +kernel
  have hcreate := blockCreate_eq_minedBlock hne
  cases hmined : minedBlock 1 [] [payment 1 100 0] with
  | nil => exact absurd hmined hne
  | cons block prev =>
      rw [hmined] at hcreate
      obtain ⟨rfl, -, -, accounts, -, hsigned⟩ := blockCreate_spec hcreate
      have htxns : ∀ txn ∈ [payment 1 100 0], Genuine transparent TransparentKeyPair txn := by
        intro txn htxn
        rw [List.mem_singleton.mp htxn]
        exact .created minerKeys payeeKey 100 0
      have hheader : (Value.tuple (headerOf (unsignedBlock transparent 1 minerKey minerSecret []
          [payment 1 100 0]) [] 1).fields).encode =
            (Value.tuple (paymentHeader []).fields).encode := by
        decide +kernel
      have hstrings := blockStrings_singleton block []
        (TransactionMessage.ofTransaction (payment 1 100 0))
      have hcount : block.transactions.length = 1 := by
        rw [hsigned]
        rfl
      rw [hcount, hsigned, headerOf_signedBlock, hheader, ← hsigned] at hstrings
      have hhistory := History.create .null htxns hcreate
      rw [List.map_singleton, hstrings] at hhistory
      exact ⟨block, rfl, hhistory⟩

theorem exists_accepted_payment : ∃ block,
    block.hash = transparent.generichash (Value.tuple (paymentHeader []).fields).encode ∧
      History transparent TransparentKeyPair [block] paymentStrings := by
  obtain ⟨buffer, tuple, accounts, -, hrep, hrun⟩ := exists_tuple_of_payment []
  generalize hblock : (paymentBlockMessage []).block transparent [] (transparent.vrfProofToHash
    (transparent.vrfProve minerSecret (blockComputeSeed transparent []).toList)) accounts =
      block at hrun
  have hheader : headerOf block [] block.transactions.length = paymentHeader [] := by
    rw [← hblock]
    exact headerOf_eq (paymentBlockMessage_consistent []) [] rfl rfl rfl rfl rfl rfl
  have hhistory : History transparent TransparentKeyPair [block] _ := .accept .null hrep hrun
  have hstrings := blockStrings_singleton block [] (paymentMessage [])
  rw [hheader] at hstrings
  obtain ⟨messages, rest, hsplit, hsealed, -⟩ := hhistory.cons
  refine ⟨block, ?_, ?_⟩
  · rw [hsealed.hash_eq, blockWriteHeader_eq, hheader, List.nil_append]
  · rw [paymentBlockMessage, hstrings] at hhistory
    exact hhistory

/-- A block that its miner has created and another node has accepted. -/
theorem history_binding_payment : ∃ block block', minedBlock 1 [] [payment 1 100 0] = [block] ∧
    ([block].length = [block'].length ∧ List.Forall₂ SameContents [block] [block']) := by
  obtain ⟨block, hmined, hcreated⟩ := exists_mined_payment
  obtain ⟨block', hhash, haccepted⟩ := exists_accepted_payment
  refine ⟨block, block', hmined, history_binding hcreated haccepted ?_ ?_ ?_⟩
  · intro x hx y hy heq
    have hne : transparent.generichash (Value.tuple (paymentHeader []).fields).encode ≠
        transparent.generichash (paymentMessage []).unsigned.encode := by
      decide +kernel
    simp only [or_self, paymentStrings, Set.mem_ofPred_eq, List.mem_cons, List.not_mem_nil,
      or_false] at hx hy
    rcases hx with rfl | rfl <;> rcases hy with rfl | rfl
    · rfl
    · exact absurd heq hne
    · exact absurd heq.symm hne
    · rfl
  · intro string hs
    have hall : ∀ string ∈ paymentStrings,
        transparent.generichash string ≠ Bytes.zero generichashBytes := by
      decide +kernel
    exact hall string (by simpa using hs)
  · rw [← hmined, blockGetHash, hhash]
    decide +kernel

end Payment

end Whosecoin.HistoryBinding
