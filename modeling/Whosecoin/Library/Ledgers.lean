import Mathlib

/-!
Replaying transfers over an arbitrary group of amounts. A homomorphism of the amounts
carries the replay in integers over to the one modulo a power of two.
-/

namespace Whosecoin.Library.Ledgers

variable {κ G : Type*} [DecidableEq κ] [AddCommGroup G]

/-- A value moved from one account to another. -/
structure Transfer (κ G : Type*) where
  sender : κ
  recipient : κ
  value : G

/-- The transfers of one block, whose creator is rewarded first. -/
structure Batch (κ G : Type*) where
  creator : κ
  transfers : List (Transfer κ G)

/-- Add a value to one account. -/
def credit (ledger : κ → G) (k : κ) (v : G) : κ → G :=
  Function.update ledger k (ledger k + v)

/-- Subtract the value from its sender, then add it to its recipient. -/
def applyTransfer (ledger : κ → G) (t : Transfer κ G) : κ → G :=
  credit (credit ledger t.sender (-t.value)) t.recipient t.value

def applyTransfers (ledger : κ → G) (ts : List (Transfer κ G)) : κ → G :=
  ts.foldl applyTransfer ledger

/-- The reward is paid before the transfers. -/
def applyBatch (reward : G) (ledger : κ → G) (b : Batch κ G) : κ → G :=
  applyTransfers (credit ledger b.creator reward) b.transfers

/-- The ledger after a chain of blocks, listed latest first. -/
def replay (reward : G) : List (Batch κ G) → κ → G
  | [] => 0
  | b :: earlier => applyBatch reward (replay reward earlier) b

/-- The total that an account sends. -/
def sent (ts : List (Transfer κ G)) (k : κ) : G :=
  (ts.map fun t => if t.sender = k then t.value else 0).sum

/-- The total that an account receives. -/
def received (ts : List (Transfer κ G)) (k : κ) : G :=
  (ts.map fun t => if t.recipient = k then t.value else 0).sum

theorem credit_apply (ledger : κ → G) (k k' : κ) (v : G) :
    credit ledger k v k' = ledger k' + if k = k' then v else 0 := by
  by_cases h : k = k'
  · subst h
    simp [credit]
  · simp [credit, h, Ne.symm h]

theorem applyTransfer_apply (ledger : κ → G) (t : Transfer κ G) (k : κ) :
    applyTransfer ledger t k =
      ledger k - (if t.sender = k then t.value else 0) +
        if t.recipient = k then t.value else 0 := by
  by_cases h : t.sender = k <;> simp [applyTransfer, credit_apply, h, sub_eq_add_neg]

theorem applyTransfers_nil (ledger : κ → G) : applyTransfers ledger [] = ledger :=
  rfl

theorem applyTransfers_cons (ledger : κ → G) (t : Transfer κ G) (ts : List (Transfer κ G)) :
    applyTransfers ledger (t :: ts) = applyTransfers (applyTransfer ledger t) ts :=
  rfl

theorem sent_cons (t : Transfer κ G) (ts : List (Transfer κ G)) (k : κ) :
    sent (t :: ts) k = (if t.sender = k then t.value else 0) + sent ts k := by
  simp [sent]

theorem sent_append (ts us : List (Transfer κ G)) (k : κ) :
    sent (ts ++ us) k = sent ts k + sent us k := by
  simp [sent]

theorem received_cons (t : Transfer κ G) (ts : List (Transfer κ G)) (k : κ) :
    received (t :: ts) k = (if t.recipient = k then t.value else 0) + received ts k := by
  simp [received]

theorem applyTransfers_apply (ledger : κ → G) (ts : List (Transfer κ G)) (k : κ) :
    applyTransfers ledger ts k = ledger k - sent ts k + received ts k := by
  induction ts generalizing ledger with
  | nil => simp [applyTransfers_nil, sent, received]
  | cons t ts ih =>
      rw [applyTransfers_cons, ih, applyTransfer_apply, sent_cons, received_cons]
      abel

section Morphisms

variable {H : Type*} [AddCommGroup H] (φ : G →+ H)

def Transfer.map (t : Transfer κ G) : Transfer κ H :=
  ⟨t.sender, t.recipient, φ t.value⟩

def Batch.map (b : Batch κ G) : Batch κ H :=
  ⟨b.creator, b.transfers.map (Transfer.map φ)⟩

theorem map_credit (ledger : κ → G) (k : κ) (v : G) :
    φ ∘ credit ledger k v = credit (φ ∘ ledger) k (φ v) := by
  funext k'
  by_cases h : k = k' <;> simp [credit_apply, h]

theorem map_applyTransfer (ledger : κ → G) (t : Transfer κ G) :
    φ ∘ applyTransfer ledger t = applyTransfer (φ ∘ ledger) (t.map φ) := by
  simp [applyTransfer, map_credit, Transfer.map]

theorem map_applyTransfers (ledger : κ → G) (ts : List (Transfer κ G)) :
    φ ∘ applyTransfers ledger ts =
      applyTransfers (φ ∘ ledger) (ts.map (Transfer.map φ)) := by
  induction ts generalizing ledger with
  | nil => rfl
  | cons t ts ih =>
      rw [applyTransfers_cons, ih, map_applyTransfer]
      rfl

theorem map_applyBatch (reward : G) (ledger : κ → G) (b : Batch κ G) :
    φ ∘ applyBatch reward ledger b = applyBatch (φ reward) (φ ∘ ledger) (b.map φ) := by
  simp [applyBatch, map_applyTransfers, map_credit, Batch.map]

end Morphisms

section Conservation

open Finset

theorem sum_credit (ledger : κ → G) (s : Finset κ) {k : κ} (v : G) (hk : k ∈ s) :
    ∑ k' ∈ s, credit ledger k v k' = ∑ k' ∈ s, ledger k' + v := by
  simp [credit_apply, Finset.sum_add_distrib, hk]

theorem sum_applyTransfer (ledger : κ → G) (s : Finset κ) (t : Transfer κ G)
    (hsender : t.sender ∈ s) (hrecipient : t.recipient ∈ s) :
    ∑ k ∈ s, applyTransfer ledger t k = ∑ k ∈ s, ledger k := by
  rw [applyTransfer, sum_credit _ _ _ hrecipient, sum_credit _ _ _ hsender]
  abel

theorem sum_applyTransfers (ledger : κ → G) (s : Finset κ) (ts : List (Transfer κ G))
    (h : ∀ t ∈ ts, t.sender ∈ s ∧ t.recipient ∈ s) :
    ∑ k ∈ s, applyTransfers ledger ts k = ∑ k ∈ s, ledger k := by
  induction ts generalizing ledger with
  | nil => rfl
  | cons t ts ih =>
      have ht := h t List.mem_cons_self
      rw [applyTransfers_cons, ih _ fun u hu => h u (List.mem_cons_of_mem _ hu),
        sum_applyTransfer _ _ _ ht.1 ht.2]

/-- Every account that a block touches. -/
def Batch.Within (b : Batch κ G) (s : Finset κ) : Prop :=
  b.creator ∈ s ∧ ∀ t ∈ b.transfers, t.sender ∈ s ∧ t.recipient ∈ s

theorem sum_replay (reward : G) (s : Finset κ) (bs : List (Batch κ G))
    (h : ∀ b ∈ bs, b.Within s) :
    ∑ k ∈ s, replay reward bs k = bs.length • reward := by
  induction bs with
  | nil => simp [replay]
  | cons b bs ih =>
      have hb := h b List.mem_cons_self
      rw [replay, applyBatch, sum_applyTransfers _ _ _ hb.2, sum_credit _ _ _ hb.1,
        ih fun c hc => h c (List.mem_cons_of_mem _ hc), List.length_cons, succ_nsmul]

end Conservation

section Overdrafts

variable [LinearOrder G]

/-- Every transfer is covered by the balance of its sender at the time. -/
def Covered (ledger : κ → G) (ts : List (Transfer κ G)) : Prop :=
  ∀ before t after, ts = before ++ t :: after →
    t.value ≤ applyTransfers ledger before t.sender

theorem Covered.head {ledger : κ → G} {t : Transfer κ G} {ts : List (Transfer κ G)}
    (h : Covered ledger (t :: ts)) : t.value ≤ ledger t.sender :=
  h [] t ts rfl

theorem Covered.tail {ledger : κ → G} {t : Transfer κ G} {ts : List (Transfer κ G)}
    (h : Covered ledger (t :: ts)) : Covered (applyTransfer ledger t) ts := by
  intro before u after heq
  exact h (t :: before) u after (by rw [heq, List.cons_append])

variable [IsOrderedAddMonoid G]

/-- In terms of totals: what an account has sent, this transfer included, is at
most what it started with and what it has received. -/
theorem covered_iff (ledger : κ → G) (ts : List (Transfer κ G)) :
    Covered ledger ts ↔ ∀ before t after, ts = before ++ t :: after →
      sent (before ++ [t]) t.sender ≤ ledger t.sender + received before t.sender := by
  have hstep : ∀ (before : List (Transfer κ G)) (t : Transfer κ G),
      t.value ≤ applyTransfers ledger before t.sender ↔
        sent (before ++ [t]) t.sender ≤ ledger t.sender + received before t.sender := by
    intro before t
    have hone : sent [t] t.sender = t.value := by simp [sent]
    rw [applyTransfers_apply, sent_append, hone, sub_add_eq_add_sub, le_sub_iff_add_le']
  simp only [Covered, hstep]

theorem Covered.mono {ledger ledger' : κ → G} {ts : List (Transfer κ G)}
    (h : Covered ledger ts) (hle : ∀ k, ledger k ≤ ledger' k) : Covered ledger' ts := by
  rw [covered_iff] at h ⊢
  intro before t after heq
  exact (h before t after heq).trans (add_le_add_left (hle t.sender) _)

theorem credit_nonneg {ledger : κ → G} (k : κ) {v : G} (hledger : ∀ k, 0 ≤ ledger k)
    (hv : 0 ≤ v) (k' : κ) : 0 ≤ credit ledger k v k' := by
  rw [credit_apply]
  split_ifs with h
  · exact add_nonneg (hledger k') hv
  · simpa using hledger k'

theorem applyTransfer_nonneg {ledger : κ → G} {t : Transfer κ G}
    (hledger : ∀ k, 0 ≤ ledger k) (hvalue : 0 ≤ t.value)
    (hcovered : t.value ≤ ledger t.sender)
    (k : κ) : 0 ≤ applyTransfer ledger t k := by
  refine credit_nonneg t.recipient (fun k' => ?_) hvalue k
  rw [credit_apply]
  split_ifs with h
  · subst h
    simpa using hcovered
  · simpa using hledger k'

theorem applyTransfers_nonneg {ledger : κ → G} {ts : List (Transfer κ G)}
    (hledger : ∀ k, 0 ≤ ledger k) (hvalue : ∀ t ∈ ts, 0 ≤ t.value)
    (hcovered : Covered ledger ts) (k : κ) : 0 ≤ applyTransfers ledger ts k := by
  induction ts generalizing ledger with
  | nil => exact hledger k
  | cons t ts ih =>
      rw [applyTransfers_cons]
      refine ih ?_ (fun u hu => hvalue u (List.mem_cons_of_mem _ hu)) hcovered.tail
      exact applyTransfer_nonneg hledger (hvalue t List.mem_cons_self) hcovered.head

theorem applyBatch_nonneg {reward : G} {ledger : κ → G} {b : Batch κ G}
    (hledger : ∀ k, 0 ≤ ledger k) (hreward : 0 ≤ reward)
    (hvalue : ∀ t ∈ b.transfers, 0 ≤ t.value)
    (hcovered : Covered (credit ledger b.creator reward) b.transfers) (k : κ) :
    0 ≤ applyBatch reward ledger b k :=
  applyTransfers_nonneg (credit_nonneg b.creator hledger hreward) hvalue hcovered k

theorem replay_le {reward : G} {bs : List (Batch κ G)}
    (hnonneg : ∀ k, 0 ≤ replay reward bs k) (s : Finset κ) (hwithin : ∀ b ∈ bs, b.Within s)
    {k : κ} (hk : k ∈ s) : replay reward bs k ≤ bs.length • reward := by
  rw [← sum_replay reward s bs hwithin]
  exact Finset.single_le_sum (fun k' _ => hnonneg k') hk

end Overdrafts

end Whosecoin.Library.Ledgers
