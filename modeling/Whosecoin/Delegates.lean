import Whosecoin.HistoryBinding
import Whosecoin.Sortition

namespace Whosecoin.Delegates

open Library.Outcomes
open Library.ByteStrings
open Cryptography
open TupleParser
open TupleFormat
open Transactions
open Accounts
open Blocks
open BlockSchema
open BlockDelivery
open BlockRelay
open Chains
open LedgerRefinement
open HistoryBinding
open Sortition

variable {S : Sodium} {KeyPair : PublicKey → SecretKey → Prop} {prev : BlockPtr}
  {pk : PublicKey} {sk : SecretKey}

/-- `block_create_from_tuple` makes the block of some parsed tuple, on top of `prev`. -/
def AcceptedOn (S : Sodium) (prev : BlockPtr) (block : Block) : Prop :=
  ∃ buffer tuple find, tupleParse buffer = .ok (some tuple) ∧
    blockCreateFromTuple S tuple find = .ok (block :: prev)

/-- Of the blocks of the same creator on the same parent, none with a signature of at
most `limit` bytes is written over its bounds, no accepted one has a smaller priority,
and the delegates of the accepted ones are those over which the creator takes the
minimum. -/
structure Unbeaten (S : Sodium) (limit : Nat) (block : Block) (prev : BlockPtr) : Prop where
  inside : ∀ (m : BlockMessage) (tuple : Tuple), Represents tuple m.values →
    m.header.prevHash = blockGetHash prev → m.header.publicKey = block.publicKey →
    m.signature.length ≤ limit → ¬ Overruns S tuple
  priority : ∀ other, AcceptedOn S prev other → other.publicKey = block.publicKey →
    ¬ memcmp other.sortitionPriority.toList block.sortitionPriority.toList < 0
  delegates : ∀ delegate : UInt32, (∃ other, AcceptedOn S prev other ∧
    other.publicKey = block.publicKey ∧ other.delegate = delegate) ↔
      delegate < nDelegates prev block.publicKey

section Minimum

variable (S) (sortitionHash : VrfOutput)

theorem minDelegateFrom_le (remaining i : Nat) (minDelegate : UInt32) (min : Hash) :
    let found := (minDelegateFrom S sortitionHash remaining i minDelegate min).2
    found ≤ min ∧ ∀ k, i ≤ k → k < i + remaining →
      found ≤ delegateHash S sortitionHash (UInt32.ofNat k) := by
  induction remaining generalizing i minDelegate min with
  | zero =>
      refine ⟨le_rfl, ?_⟩
      intro k hle hlt
      omega
  | succ remaining ih =>
      rw [minDelegateFrom]
      split_ifs with hless <;> rw [Bytes.memcmp_neg_iff_lt] at hless
      · obtain ⟨hmin, hall⟩ := ih (i + 1) (UInt32.ofNat i)
          (delegateHash S sortitionHash (UInt32.ofNat i))
        refine ⟨hmin.trans hless.le, ?_⟩
        intro k hle hlt
        rcases Nat.eq_or_lt_of_le hle with rfl | hlater
        · exact hmin
        · exact hall k hlater (by omega)
      · obtain ⟨hmin, hall⟩ := ih (i + 1) minDelegate min
        refine ⟨hmin, ?_⟩
        intro k hle hlt
        rcases Nat.eq_or_lt_of_le hle with rfl | hlater
        · exact hmin.trans (not_lt.mp hless)
        · exact hall k hlater (by omega)

/-- The creator's search finds the least priority of all its delegates. -/
theorem minDelegate_le {nDelegates delegate : UInt32} (h : delegate < nDelegates) :
    (minDelegate S sortitionHash nDelegates).2 ≤ delegateHash S sortitionHash delegate := by
  obtain ⟨hmin, hall⟩ := minDelegateFrom_le S sortitionHash (nDelegates.toNat - 1) 1 0
    (delegateHash S sortitionHash 0)
  rw [UInt32.lt_iff_toNat_lt] at h
  rcases Nat.eq_zero_or_pos delegate.toNat with hzero | hpos
  · rw [UInt32.toNat_inj.mp (hzero.trans UInt32.toNat_zero.symm)]
    exact hmin
  · have hle := hall delegate.toNat hpos (by omega)
    rw [UInt32.ofNat_toNat] at hle
    exact hle

end Minimum

theorem isDelegateAllowed_iff (hne : prev ≠ []) (hstaking : isStakingAllowed prev pk = true)
    (delegate : UInt32) :
    isDelegateAllowed prev pk delegate = true ↔ delegate < nDelegates prev pk := by
  rcases prev with _ | ⟨block, prev⟩
  · exact absurd rfl hne
  rw [isStakingAllowed] at hstaking
  rw [isDelegateAllowed, nDelegates]
  cases haccount : blockGetAccount (block :: prev) pk with
  | nil =>
      rw [haccount] at hstaking
      cases hstaking
  | cons account earlier => exact decide_eq_true_iff

theorem checks_of_acceptedOn {block : Block} (h : AcceptedOn S prev block) :
    isStakingAllowed prev block.publicKey = true ∧
      isDelegateAllowed prev block.publicKey block.delegate = true := by
  obtain ⟨buffer, tuple, find, hparse, hrun⟩ := h
  obtain ⟨vs, hrep, -⟩ := represents_of_tupleParse hparse
  obtain ⟨m, rfl, -⟩ := exists_message_of_accepted hrep hrun
  obtain ⟨-, sortitionHash, accounts, hchecks, rfl⟩ := message_of_accept hrep hrun
  exact ⟨hchecks.staking, hchecks.delegate⟩

section Grinding

/-- An empty block with a delegate of the creator's choice, before it is signed. -/
def emptyMessage (S : Sodium) (prev : BlockPtr) (pk : PublicKey) (sk : SecretKey)
    (delegate : UInt32) : BlockMessage where
  header :=
    { timestamp := 0
      prevHash := blockGetHash prev
      merkleRoot := Bytes.zero _
      publicKey := pk
      sortitionProof := S.vrfProve sk (blockComputeSeed S prev).toList
      delegate := delegate
      count := 0 }
  signature := []
  signatureFits := by decide
  transactions := []

/-- The message with the signature of its own hash. -/
def signedMessage (S : Sodium) (prev : BlockPtr) (pk : PublicKey) (sk : SecretKey)
    (delegate : UInt32) : BlockMessage :=
  { emptyMessage S prev pk sk delegate with
    signature := (S.signDetached ((emptyMessage S prev pk sk delegate).hash S prev).toList
      sk).toList
    signatureFits := by
      rw [Bytes.length_eq]
      decide }

theorem signedMessage_checks (hS : S.Complete KeyPair) (hkeys : KeyPair pk sk)
    (hstaking : isStakingAllowed prev pk = true) {delegate : UInt32}
    (hallowed : isDelegateAllowed prev pk delegate = true) :
    (signedMessage S prev pk sk delegate).Checks S prev
      (S.vrfProofToHash (S.vrfProve sk (blockComputeSeed S prev).toList)) where
  signature_length := (Bytes.length_eq _).le
  staking := hstaking
  sortition := hS.vrf_verifies pk sk _ hkeys
  delegate := hallowed
  transactions := fun t ht => absurd ht List.not_mem_nil
  signature := by
    simp only [signedMessage, Bytes.ofList_self]
    exact hS.sign_verifies pk sk _ hkeys

/-- Every delegate that the verifier lets through is one of an accepted block. -/
theorem exists_acceptedOn (hS : S.Complete KeyPair) (hkeys : KeyPair pk sk)
    (hstaking : isStakingAllowed prev pk = true) {delegate : UInt32}
    (hallowed : isDelegateAllowed prev pk delegate = true) :
    ∃ block, AcceptedOn S prev block ∧ block.publicKey = pk ∧ block.delegate = delegate := by
  obtain ⟨tuple, hparse, hrep⟩ := exists_parsed (signedMessage S prev pk sk delegate) []
  have hconsistent : (signedMessage S prev pk sk delegate).Consistent S := ⟨rfl, rfl⟩
  have hchecks := signedMessage_checks hS hkeys hstaking hallowed
  obtain ⟨accounts, hledger, -⟩ :=
    areTransactionsValid_spec prev pk (1 + blockGetHeight prev) []
  have hrun : blockCreateFromTuple S tuple (fun _ => prev) = .ok
      ((signedMessage S prev pk sk delegate).block S prev
        (S.vrfProofToHash (S.vrfProve sk (blockComputeSeed S prev).toList))
          accounts :: prev) := by
    rw [blockCreateFromTuple_eq hrep hconsistent, accept_eq_ok_iff]
    exact ⟨rfl, _, accounts, hchecks, hledger, rfl⟩
  exact ⟨_, ⟨_, tuple, _, hparse, hrun⟩, rfl, rfl⟩

end Grinding

section Overlong

/-- An empty block whose signature has one byte too many. -/
def overlongMessage (S : Sodium) (prev : BlockPtr) (pk : PublicKey) (sk : SecretKey) :
    BlockMessage :=
  { emptyMessage S prev pk sk 0 with
    signature := List.replicate (signBytes + 1) 0
    signatureFits := by decide }

theorem exists_overruns (S : Sodium) (prev : BlockPtr) (pk : PublicKey) (sk : SecretKey) :
    ∃ tuple, Represents tuple (overlongMessage S prev pk sk).values ∧ Overruns S tuple := by
  obtain ⟨tuple, -, hrep⟩ := exists_parsed (overlongMessage S prev pk sk) []
  refine ⟨tuple, hrep, (overruns_iff hrep S).mpr ⟨⟨rfl, rfl⟩, ?_⟩⟩
  rw [overlongMessage, List.length_replicate]
  exact Nat.lt_succ_self signBytes

end Overlong

/-- Without a parent the verifier lets every delegate through, while the creator has
one only; an overlong signature is written over the delegate. -/
theorem unbeaten_iff (hS : S.Complete KeyPair) {output : PublicKey → List UInt8 → VrfOutput}
    (hvrf : VrfFunction S KeyPair output) (hkeys : KeyPair pk sk) {now : UInt64}
    {txns : List Transaction} {block : Block}
    (hcreate : blockCreate S now pk sk prev txns = .ok (block :: prev)) (limit : Nat) :
    Unbeaten S limit block prev ↔ prev ≠ [] ∧ limit ≤ signBytes := by
  obtain ⟨-, hstaking, -, accounts, -, hblock⟩ := blockCreate_spec hcreate
  have hpk : block.publicKey = pk := by
    rw [hblock]
    rfl
  constructor
  · intro h
    constructor
    · rintro rfl
      obtain ⟨other, haccepted, hkey, hdelegate⟩ :=
        @exists_acceptedOn S KeyPair [] pk sk hS hkeys rfl 1 rfl
      have hone := (h.delegates 1).mp ⟨other, haccepted, hkey.trans hpk.symm, hdelegate⟩
      have hnone : ¬ (1 : UInt32) < 1 := by decide
      rw [nDelegates, blockGetAccount] at hone
      exact hnone hone
    · by_contra hlong
      obtain ⟨tuple, hrep, hover⟩ := exists_overruns S prev pk sk
      refine h.inside _ tuple hrep rfl hpk.symm ?_ hover
      rw [overlongMessage, List.length_replicate]
      omega
  · rintro ⟨hne, hshort⟩
    have hallowed := fun delegate => isDelegateAllowed_iff hne hstaking delegate
    constructor
    · intro m tuple hrep _ _ hlength hover
      have hlong := ((overruns_iff hrep S).mp hover).2
      omega
    · intro other haccepted hkey
      have hlt := (hallowed other.delegate).mp (by
        rw [← hpk, ← hkey]
        exact (checks_of_acceptedOn haccepted).2)
      obtain ⟨buffer, tuple, find, -, hrun⟩ := haccepted
      obtain ⟨hhash, hpriority⟩ := PutOn.sortition hvrf (.accept hrun)
      obtain ⟨hhash', -⟩ := PutOn.sortition hvrf (.create hkeys hcreate)
      have hmin : block.sortitionPriority =
          (minDelegate S block.sortitionHash (nDelegates prev pk)).2 := by
        rw [hblock]
        rfl
      rw [Bytes.memcmp_neg_iff_lt, not_lt, hmin, hpriority, hhash, hkey, ← hhash']
      exact minDelegate_le S _ hlt
    · intro delegate
      rw [hpk, ← hallowed delegate]
      constructor
      · rintro ⟨other, haccepted, hkey, rfl⟩
        rw [← hkey]
        exact (checks_of_acceptedOn haccepted).2
      · exact exists_acceptedOn hS hkeys hstaking

section Samples

theorem unbeaten_iff_second : ∃ first second,
    blockCreate transparent 2 minerKey minerSecret [first] [] = .ok [second, first] ∧
      (Unbeaten transparent 64 second [first] ↔ [first] ≠ [] ∧ 64 ≤ signBytes) := by
  have hne : minedBlock 1 [] [] ≠ [] := by decide +kernel
  have hne' : minedBlock 2 (minedBlock 1 [] []) [] ≠ [] := by decide +kernel
  obtain ⟨first, hfirst⟩ := eq_cons_of_blockCreate (blockCreate_eq_minedBlock hne) hne
  have hsecond := blockCreate_eq_minedBlock hne'
  rw [hfirst] at hsecond hne'
  obtain ⟨second, hcreate⟩ := eq_cons_of_blockCreate hsecond hne'
  rw [hcreate] at hsecond
  exact ⟨first, second, hsecond,
    unbeaten_iff transparent_complete vrfFunction_transparent minerKeys hsecond 64⟩

/-- The transparent scheme with its hashes in the opposite order. -/
def descending : Sodium :=
  { transparent with
    generichash := fun m => ⟨(transparent.generichash m).toList.map fun b => 255 - b, by
      rw [List.length_map, Bytes.length_eq]⟩ }

theorem descending_complete : descending.Complete TransparentKeyPair :=
  ⟨transparent_complete.sign_verifies, transparent_complete.vrf_verifies⟩

theorem descending_vrfFunction : VrfFunction descending TransparentKeyPair fun pk m =>
    Bytes.ofList vrfOutputBytes (Bytes.ofList vrfProofBytes (m.take 32 ++ pk.toList)).toList :=
  ⟨vrfFunction_transparent.prove, vrfFunction_transparent.verify⟩

/-- A genesis block with the second delegate wins against the creator's own. -/
theorem second_delegate_wins : ∃ honest other,
    blockCreate descending 1 minerKey minerSecret [] [] = .ok [honest] ∧
    AcceptedOn descending [] other ∧ other.publicKey = honest.publicKey ∧
    memcmp other.sortitionPriority.toList honest.sortitionPriority.toList < 0 ∧
    ¬ Unbeaten descending signBytes honest [] := by
  have hexists : ∃ honest, blockCreate descending 1 minerKey minerSecret [] [] = .ok [honest] :=
    ⟨_, rfl⟩
  obtain ⟨honest, hcreate⟩ := hexists
  obtain ⟨-, -, -, accounts, -, hhonest⟩ := blockCreate_spec hcreate
  obtain ⟨other, haccepted, hkey, hdelegate⟩ := exists_acceptedOn descending_complete minerKeys
    (show isStakingAllowed [] minerKey = true from rfl)
    (show isDelegateAllowed [] minerKey 1 = true from rfl)
  have hwins : memcmp other.sortitionPriority.toList honest.sortitionPriority.toList < 0 := by
    obtain ⟨buffer, tuple, find, -, hrun⟩ := haccepted
    obtain ⟨hhash, hpriority⟩ := PutOn.sortition descending_vrfFunction (.accept hrun)
    have hmin : honest.sortitionPriority = (unsignedBlock descending 1 minerKey minerSecret []
        []).sortitionPriority := by
      rw [hhonest]
      rfl
    rw [hpriority, hhash, hkey, hdelegate, hmin]
    decide +kernel
  have hpk : honest.publicKey = minerKey := by
    rw [hhonest]
    rfl
  refine ⟨honest, other, hcreate, haccepted, hkey.trans hpk.symm, hwins, ?_⟩
  intro hunbeaten
  exact hunbeaten.priority other haccepted (hkey.trans hpk.symm) hwins

end Samples

end Whosecoin.Delegates
