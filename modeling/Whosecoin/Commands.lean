import Whosecoin.Ownership

namespace Whosecoin.Commands

open Library.ByteStrings
open Cryptography
open Transactions
open Accounts
open Chains
open Pools
open Ownership

/-- A C string without its terminator. -/
abbrev CString := List UInt8

/-- White space as in the C locale. -/
def isspace (c : UInt8) : Bool :=
  c = 32 || (9 ≤ c && c ≤ 13)

def isdigit (c : UInt8) : Bool :=
  48 ≤ c && c ≤ 57

/-- The value of a character that `isxdigit` accepts. -/
def hexDigit (c : UInt8) : Option UInt8 :=
  if isdigit c then some (c - 48)
  else if 97 ≤ c && c ≤ 102 then some (c - 87)
  else if 65 ≤ c && c ≤ 70 then some (c - 55)
  else none

/-- An optional sign: whether it is a minus, and what follows. -/
def scanSign : CString → Bool × CString
  | [] => (false, [])
  | c :: rest =>
      if c = 45 then (true, rest)
      else if c = 43 then (false, rest)
      else (false, c :: rest)

/-- `atoll`. A number out of range becomes the nearest one in range, as `strtoll` has it. -/
def atoll (str : CString) : Int64 :=
  let (negative, digits) := scanSign (str.dropWhile isspace)
  let n : Nat := (digits.takeWhile isdigit).foldl (fun n c => 10 * n + (c - 48).toNat) 0
  if negative then Int64.ofInt (-min n (2 ^ 63)) else Int64.ofInt (min n (2 ^ 63 - 1))

/-- The byte that `sscanf` with `%02x` stores, when its at most two characters have a digit.
A sign counts as one of them, and so does the zero of an `0x`. -/
def sscanfHex (str : CString) : Option UInt8 :=
  match str.dropWhile isspace with
  | [] => none
  | c :: rest =>
      if c = 43 ∨ c = 45 then do
        let digit ← hexDigit (← rest.head?)
        return if c = 45 then 0 - digit else digit
      else do
        let high ← hexDigit c
        match rest.head?.bind hexDigit with
        | some low => return 16 * high + low
        | none => return high

/-- A command line, split into words, and the bytes that the variable `x` of
`hex_to_binary` happens to hold where `sscanf` does not set it. -/
structure Command where
  args : List CString
  uninitialised : Nat → UInt8

/-- `hex_to_binary`. -/
def hexToBinary (uninitialised : Nat → UInt8) (data : CString) (size : Nat) :
    Option (Bytes size) :=
  if data.length ≠ 2 * size then none
  else some (Bytes.ofList size ((List.range size).map fun i =>
    (sscanfHex (data.drop (2 * i))).getD (uninitialised i)))

section Send

variable (S : Sodium) (pk : PublicKey) (sk : SecretKey)

/-- The value and the recipient of a send command that is well formed. -/
def parseSend (command : Command) : Option (UInt64 × PublicKey) :=
  match command.args with
  | [_, value, recipient] => do
      let recipient ← hexToBinary command.uninitialised recipient publicKeyBytes
      return ((atoll value).toUInt64, recipient)
  | _ => none

/-- `handle_send_command`. As `transaction_create` never returns `NULL`, the command
fails only where it is not well formed. -/
def handleSendCommand (o : Objects) (command : Command) : Int32 × Objects :=
  match parseSend command with
  | none => (-1, o)
  | some (value, recipient) =>
      let (txn, o) := o.allocate [transactionCreate S pk sk recipient value 0]
      (0, txn.foldl Objects.poolAdd o)

/-- A sequence of commands, with what each of them returns. -/
def handleSendCommands : List Command → Objects → List (Command × Int32) × Objects
  | [], o => ([], o)
  | command :: commands, o =>
      let (code, o) := handleSendCommand S pk sk o command
      let (returned, o) := handleSendCommands commands o
      ((command, code) :: returned, o)

end Send

/-- What a transaction pays, and who pays it to whom. -/
structure Payment where
  sender : PublicKey
  recipient : PublicKey
  value : UInt64

def Payment.of (txn : Transaction) : Payment :=
  ⟨txn.sender, txn.recipient, txn.value⟩

/-- The pending payments. -/
def pending (o : Objects) : List Payment :=
  o.pool.map fun obj => Payment.of obj.txn

/-- The payments of the commands that returned 0. -/
def accepted (pk : PublicKey) (returned : List (Command × Int32)) : List Payment :=
  (returned.filter fun r => r.2 = 0).filterMap fun r =>
    (parseSend r.1).map fun (value, recipient) => ⟨pk, recipient, value⟩

/-- The sum of what one key pays another. -/
def total (sender recipient : PublicKey) (payments : List Payment) : Nat :=
  ((payments.filter fun p => p.sender = sender ∧ p.recipient = recipient).map fun p =>
    p.value.toNat).sum

/-- The objects of a pool have not been destroyed, and the next object is a new one. -/
structure Alive (o : Objects) : Prop where
  pool_alive : ∀ obj ∈ o.destroyed, obj.id ∉ o.pool.map Object.id
  pool_lt : ∀ obj ∈ o.pool, obj.id < o.fresh
  destroyed_lt : ∀ obj ∈ o.destroyed, obj.id < o.fresh

section Pending

variable (S : Sodium) (pk : PublicKey) (sk : SecretKey)

/-- Every accepted payment is pending after the commands, beside what was before. -/
structure EveryPaymentPending (commands : List Command) (o : Objects) : Prop where
  each : (pending o ++ accepted pk (handleSendCommands S pk sk commands o).1).Subperm
    (pending (handleSendCommands S pk sk commands o).2)
  totals : ∀ recipient, total pk recipient (pending (handleSendCommands S pk sk commands o).2) =
    total pk recipient (pending o) +
      total pk recipient (accepted pk (handleSendCommands S pk sk commands o).1)
  alive : ∀ obj ∈ (handleSendCommands S pk sk commands o).2.destroyed,
    obj.id ∉ (handleSendCommands S pk sk commands o).2.pool.map Object.id

/-- The transactions that the commands create, all with the nonce 0. -/
def createdTransactions (commands : List Command) : List Transaction :=
  commands.filterMap fun command => (parseSend command).map fun (value, recipient) =>
    transactionCreate S pk sk recipient value 0

/-- The transactions have different hashes, and none of them is pending already. -/
structure Unrepeated (o : Objects) (txns : List Transaction) : Prop where
  distinct : (txns.map Transaction.hash).Nodup
  unpending : ∀ txn ∈ txns, txn.hash ∉ o.pool.map fun obj => obj.txn.hash

end Pending

section Adding

variable {o : Objects} {txn : Transaction}

/-- The pool after `pool_add` of a new transaction. -/
def addCreated (o : Objects) (txn : Transaction) : Objects :=
  Objects.poolAdd { o with fresh := o.fresh + 1 } ⟨o.fresh, txn⟩

theorem addCreated_new (h : txn.hash ∉ o.pool.map fun obj => obj.txn.hash) :
    addCreated o txn = { o with pool := o.pool ++ [⟨o.fresh, txn⟩], fresh := o.fresh + 1 } := by
  rw [addCreated, Objects.poolAdd, if_neg]
  rw [not_not]
  exact (findIdx_eq_length_iff Object.txn o.pool txn).mpr h

theorem addCreated_old (h : txn.hash ∈ o.pool.map fun obj => obj.txn.hash) :
    addCreated o txn =
      { o with destroyed := o.destroyed ++ [⟨o.fresh, txn⟩], fresh := o.fresh + 1 } := by
  rw [addCreated, Objects.poolAdd, if_pos]
  intro hlength
  exact (findIdx_eq_length_iff Object.txn o.pool txn).mp hlength h

theorem unrepeated_cons_iff (txns : List Transaction) : Unrepeated o (txn :: txns) ↔
    (txn.hash ∉ o.pool.map fun obj => obj.txn.hash) ∧ Unrepeated (addCreated o txn) txns := by
  constructor
  · rintro ⟨hdistinct, hunpending⟩
    rw [List.map_cons, List.nodup_cons] at hdistinct
    have hnew := hunpending txn List.mem_cons_self
    refine ⟨hnew, hdistinct.2, ?_⟩
    intro other hmem
    rw [addCreated_new hnew, List.map_append, List.mem_append, List.map_singleton,
      List.mem_singleton]
    rintro (hpending | hsame)
    · exact hunpending other (List.mem_cons_of_mem _ hmem) hpending
    · exact hdistinct.1 (hsame ▸ List.mem_map_of_mem hmem)
  · rintro ⟨hnew, hdistinct, hunpending⟩
    rw [addCreated_new hnew] at hunpending
    have hlater : ∀ other ∈ txns, (other.hash ∉ o.pool.map fun obj => obj.txn.hash) ∧
        other.hash ≠ txn.hash := by
      intro other hmem
      have hother := hunpending other hmem
      rw [List.map_append, List.mem_append, List.map_singleton, List.mem_singleton,
        not_or] at hother
      exact hother
    constructor
    · rw [List.map_cons, List.nodup_cons, List.mem_map]
      refine ⟨?_, hdistinct⟩
      rintro ⟨other, hmem, hsame⟩
      exact (hlater other hmem).2 hsame
    · intro other hmem
      rcases List.mem_cons.mp hmem with rfl | hmem
      · exact hnew
      · exact (hlater other hmem).1

theorem pool_foldl_addCreated {txns : List Transaction} (h : Unrepeated o txns) :
    (txns.foldl addCreated o).pool.map Object.txn = o.pool.map Object.txn ++ txns := by
  induction txns generalizing o with
  | nil => exact (List.append_nil _).symm
  | cons txn txns ih =>
      obtain ⟨hnew, hlater⟩ := (unrepeated_cons_iff txns).mp h
      rw [List.foldl_cons, ih hlater, addCreated_new hnew, List.map_append, List.append_assoc]
      rfl

theorem length_foldl_addCreated_le (o : Objects) (txns : List Transaction) :
    (txns.foldl addCreated o).pool.length ≤ o.pool.length + txns.length := by
  induction txns generalizing o with
  | nil => exact le_refl _
  | cons txn txns ih =>
      have hlength : (addCreated o txn).pool.length ≤ o.pool.length + 1 := by
        by_cases hold : txn.hash ∈ o.pool.map fun obj => obj.txn.hash
        · rw [addCreated_old hold]
          exact Nat.le_succ _
        · rw [addCreated_new hold, List.length_append, List.length_singleton]
      have hlater := ih (addCreated o txn)
      rw [List.foldl_cons, List.length_cons]
      omega

theorem unrepeated_of_length {txns : List Transaction}
    (h : o.pool.length + txns.length ≤ (txns.foldl addCreated o).pool.length) :
    Unrepeated o txns := by
  induction txns generalizing o with
  | nil => exact ⟨List.nodup_nil, fun txn hmem => absurd hmem List.not_mem_nil⟩
  | cons txn txns ih =>
      have hlater := length_foldl_addCreated_le (addCreated o txn) txns
      rw [List.foldl_cons, List.length_cons] at h
      have hnew : txn.hash ∉ o.pool.map fun obj => obj.txn.hash := by
        intro hold
        have hkept : (addCreated o txn).pool.length = o.pool.length := by
          rw [addCreated_old hold]
        omega
      refine (unrepeated_cons_iff txns).mpr ⟨hnew, ih ?_⟩
      rw [addCreated_new hnew, List.length_append, List.length_singleton]
      rw [addCreated_new hnew] at h
      omega

theorem Alive.addCreated (h : Alive o) (txn : Transaction) : Alive (addCreated o txn) := by
  have hfresh : ∀ obj ∈ o.pool, obj.id ≠ o.fresh := fun obj hobj => (h.pool_lt obj hobj).ne
  by_cases hold : txn.hash ∈ o.pool.map fun obj => obj.txn.hash
  · rw [addCreated_old hold]
    constructor
    · intro obj hobj
      rcases List.mem_append.mp hobj with hobj | hobj
      · exact h.pool_alive obj hobj
      · rw [List.mem_singleton.mp hobj, List.mem_map]
        rintro ⟨other, hmem, hid⟩
        exact hfresh other hmem hid
    · intro obj hobj
      exact (h.pool_lt obj hobj).trans (Nat.lt_succ_self _)
    · intro obj hobj
      rcases List.mem_append.mp hobj with hobj | hobj
      · exact (h.destroyed_lt obj hobj).trans (Nat.lt_succ_self _)
      · rw [List.mem_singleton.mp hobj]
        exact Nat.lt_succ_self _
  · rw [addCreated_new hold]
    constructor
    · intro obj hobj
      rw [List.map_append, List.mem_append, List.map_singleton, List.mem_singleton]
      rintro (hid | hid)
      · exact h.pool_alive obj hobj hid
      · exact (h.destroyed_lt obj hobj).ne hid
    · intro obj hobj
      rcases List.mem_append.mp hobj with hobj | hobj
      · exact (h.pool_lt obj hobj).trans (Nat.lt_succ_self _)
      · rw [List.mem_singleton.mp hobj]
        exact Nat.lt_succ_self _
    · intro obj hobj
      exact (h.destroyed_lt obj hobj).trans (Nat.lt_succ_self _)

theorem Alive.foldl (h : Alive o) (txns : List Transaction) :
    Alive (txns.foldl Commands.addCreated o) := by
  induction txns generalizing o with
  | nil => exact h
  | cons txn txns ih => exact ih (h.addCreated txn)

end Adding

section Runs

variable {S : Sodium} {pk : PublicKey} {sk : SecretKey} {o : Objects}

theorem handleSendCommand_eq (o : Objects) (command : Command) :
    handleSendCommand S pk sk o command = match parseSend command with
      | none => (-1, o)
      | some (value, recipient) =>
          (0, addCreated o (transactionCreate S pk sk recipient value 0)) := by
  rw [handleSendCommand]
  cases parseSend command <;> rfl

theorem handleSendCommands_eq (commands : List Command) (o : Objects) :
    accepted pk (handleSendCommands S pk sk commands o).1 =
        (createdTransactions S pk sk commands).map Payment.of ∧
      (handleSendCommands S pk sk commands o).2 =
        (createdTransactions S pk sk commands).foldl addCreated o := by
  induction commands generalizing o with
  | nil => exact ⟨rfl, rfl⟩
  | cons command commands ih =>
      rw [handleSendCommands, handleSendCommand_eq, createdTransactions, List.filterMap_cons]
      cases hparse : parseSend command with
      | none =>
          obtain ⟨haccepted, hpool⟩ := ih o
          exact ⟨haccepted, hpool⟩
      | some parsed =>
          obtain ⟨value, recipient⟩ := parsed
          obtain ⟨haccepted, hpool⟩ := ih (addCreated o
            (transactionCreate S pk sk recipient value 0))
          refine ⟨?_, hpool⟩
          have hcons : accepted pk ((command, 0) :: (handleSendCommands S pk sk commands
              (addCreated o (transactionCreate S pk sk recipient value 0))).1) =
              ⟨pk, recipient, value⟩ :: accepted pk (handleSendCommands S pk sk commands
                (addCreated o (transactionCreate S pk sk recipient value 0))).1 := by
            rw [accepted, List.filter_cons_of_pos (by rfl), List.filterMap_cons, hparse]
            rfl
          exact hcons.trans (congrArg _ haccepted)

theorem total_append (sender recipient : PublicKey) (payments others : List Payment) :
    total sender recipient (payments ++ others) =
      total sender recipient payments + total sender recipient others := by
  rw [total, List.filter_append, List.map_append, List.sum_append]
  rfl

theorem pending_eq_map (o : Objects) : pending o = (o.pool.map Object.txn).map Payment.of := by
  rw [pending, List.map_map]
  rfl

/-- The command does to the pool what its model on the state of the node says. -/
theorem handleSendCommand_pool {state : Handlers.State} {command : Command} {value : UInt64}
    {recipient : PublicKey} (hparse : parseSend command = some (value, recipient))
    (hpool : o.pool.map Object.txn = state.application.pool.list) :
    (handleSendCommand S state.application.publicKey state.application.secretKey o
        command).2.pool.map Object.txn =
      (Handlers.handleSendCommand S state value recipient).application.pool.list := by
  have hfresh : ({ o with fresh := o.fresh + 1 } : Objects).pool.map Object.txn =
      state.application.pool.list := hpool
  rw [handleSendCommand_eq, hparse]
  exact pool_poolAdd hfresh _

/-- Every accepted payment is pending as long as none repeats another, since the nonce
does not tell them apart. -/
theorem everyPaymentPending_iff (halive : Alive o) (commands : List Command) :
    EveryPaymentPending S pk sk commands o ↔
      Unrepeated o (createdTransactions S pk sk commands) := by
  obtain ⟨haccepted, hafter⟩ := handleSendCommands_eq commands o
  constructor
  · rintro ⟨heach, -, -⟩
    have hlength := heach.length_le
    rw [haccepted, hafter, pending, pending, List.length_append, List.length_map, List.length_map,
      List.length_map] at hlength
    exact unrepeated_of_length hlength
  · intro hunrepeated
    have hpending : pending (handleSendCommands S pk sk commands o).2 =
        pending o ++ accepted pk (handleSendCommands S pk sk commands o).1 := by
      rw [hafter, haccepted, pending_eq_map, pool_foldl_addCreated hunrepeated, List.map_append,
        pending_eq_map]
    constructor
    · rw [hpending]
    · intro recipient
      rw [hpending]
      exact total_append pk recipient _ _
    · rw [hafter]
      exact (halive.foldl _).pool_alive

end Runs

section Samples

/-- The command that pays the value, a digit, to the payee. -/
def sendCommand (digit : UInt8) : Command where
  args := [[115, 101, 110, 100], [digit], 48 :: 50 :: List.replicate 62 48]
  uninitialised := fun _ => 0

theorem alive_empty : Alive Objects.empty where
  pool_alive := by
    intro obj hobj
    cases hobj
  pool_lt := by
    intro obj hobj
    cases hobj
  destroyed_lt := by
    intro obj hobj
    cases hobj

theorem everyPaymentPending_iff_two :
    EveryPaymentPending transparent minerKey minerSecret [sendCommand 53, sendCommand 54]
        Objects.empty ↔
      Unrepeated Objects.empty (createdTransactions transparent minerKey minerSecret
        [sendCommand 53, sendCommand 54]) :=
  everyPaymentPending_iff alive_empty _

/-- Of two equal send commands, both of which return 0, one leaves nothing behind. -/
theorem second_payment_dropped :
    (handleSendCommands transparent minerKey minerSecret [sendCommand 53, sendCommand 53]
      Objects.empty).1.map Prod.snd = [0, 0] ∧
    (pending (handleSendCommands transparent minerKey minerSecret
      [sendCommand 53, sendCommand 53] Objects.empty).2).length = 1 ∧
    ¬ EveryPaymentPending transparent minerKey minerSecret [sendCommand 53, sendCommand 53]
      Objects.empty := by
  have hpending : (pending (handleSendCommands transparent minerKey minerSecret
      [sendCommand 53, sendCommand 53] Objects.empty).2).length = 1 := by decide +kernel
  have haccepted : (accepted minerKey (handleSendCommands transparent minerKey minerSecret
      [sendCommand 53, sendCommand 53] Objects.empty).1).length = 2 := by decide +kernel
  refine ⟨by decide +kernel, hpending, ?_⟩
  rintro ⟨heach, -, -⟩
  have hlength := heach.length_le
  rw [List.length_append, hpending, haccepted] at hlength
  omega

end Samples

end Whosecoin.Commands
