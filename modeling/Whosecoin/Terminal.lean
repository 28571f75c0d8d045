import Whosecoin.HexBuffers
import Whosecoin.JsonAmounts
import Whosecoin.Ownership
import Whosecoin.ProgramArguments

namespace Whosecoin.Terminal

open Library.Outcomes
open Library.ByteStrings
open Library.JsonTexts
open Cryptography
open Transactions
open Accounts
open Blockchains
open Pools
open DynamicBuffers
open JsonWriters hiding binaryToHex
open JsonOutput
open Commands (CString parseSend)
open Handlers (State)

section Interface

/-- `strtok` with the delimiter `" "`: the next token, and where it goes on from there. -/
def strtok (str : CString) : Option (CString × CString) :=
  let str := str.dropWhile (· = 32)
  if str = [] then none
  else some (str.takeWhile (· ≠ 32), (str.dropWhile (· ≠ 32)).drop 1)

/-- The loop of `split`. -/
def splitLoop : (fuel : Nat) → (str : CString) → (res : List CString) → Outcome (List CString)
  | 0, _, _ => .error .diverges
  | fuel + 1, str, res =>
      match strtok str with
      | none => .ok res
      | some (token, rest) => splitLoop fuel rest (res ++ [token])

def split (fuel : Nat) (str : CString) : Outcome (List CString) :=
  splitLoop fuel str []

/-- What a call prints. -/
structure Printed where
  stdout : CString
  stderr : CString

/-- A `cli_handler`, with what it prints. -/
abbrev CliHandler :=
  List CString → State → Outcome (Int32 × State × CString)

/-- One position of the three lists of a `cli_t`. -/
structure CliCommand where
  command : CString
  usage : CString
  handler : CliHandler

abbrev Cli :=
  List CliCommand

def cliCreate : Cli :=
  []

def cliAddCommand (cli : Cli) (cmd usage : CString) (handler : CliHandler) : Cli :=
  cli ++ [⟨cmd, usage, handler⟩]

/-- `%-12s`. -/
def leftJustified (cmd : CString) : CString :=
  cmd ++ List.replicate (12 - cmd.length) 32

def printUsage (cli : Cli) : CString :=
  ascii "Use the following commands: \n" ++ cli.flatMap fun entry =>
    ascii "   " ++ leftJustified entry.command ++ entry.usage ++ ascii "\n"

/-- The loop of `read_stdin` over the commands. -/
def runCommands (cmd : CString) (args : List CString) : Cli → (handled : Bool) → State →
    (stdout : CString) → Outcome (Bool × State × CString)
  | [], handled, state, stdout => .ok (handled, state, stdout)
  | entry :: cli, handled, state, stdout =>
      if entry.command = cmd then do
        let (code, state, printed) ← entry.handler args state
        runCommands cmd args cli (handled || code = 0) state (stdout ++ printed)
      else runCommands cmd args cli handled state stdout

/-- An empty line is no command. -/
def runArgs (cli : Cli) : List CString → State → Outcome (Bool × State × CString)
  | [], state => .ok (false, state, [])
  | cmd :: args, state => runCommands cmd (cmd :: args) cli false state []

/-- `read_stdin`. Of what has been read, the last byte becomes the terminator. -/
def readStdin (cli : Cli) (nread : ℤ) (base : List UInt8) (state : State) :
    Outcome (State × Printed) :=
  if nread = -1 then .ok (state, ⟨[], ascii "error: cli: unable to read from stdin\n"⟩)
  else if 0 < nread then do
    let size := nread.toNat
    require (size ≤ base.length) .outOfBounds
    let command := ((base.take size).set (size - 1) 0).takeWhile (· ≠ 0)
    let args ← split (command.length + 1) command
    let (handled, state, stdout) ← runArgs cli args state
    let stdout := if handled then stdout else stdout ++ printUsage cli
    return (state, ⟨stdout ++ ascii ">>> ", []⟩)
  else .ok (state, ⟨[], []⟩)

end Interface

section Handlers

variable (S : Sodium) (undefined : ℚ → UInt64) (uninitialised : Nat → UInt8)

/-- `binary_to_hex`, on all of the data. -/
def binaryToHex (fuel : Nat) (data : List UInt8) : Outcome CString := do
  let res ← HexBuffers.toHexLoop data fuel 0 (List.replicate (data.length * 2 + 1) 0)
  return res.takeWhile (· ≠ 0)

/-- A key without an account owns nothing. -/
def handleValueCommand : CliHandler := fun _ state =>
  let principal := state.application.blockchain.principal
  match blockGetAccount principal state.application.publicKey with
  | [] => .ok (0, state, ascii "0\n")
  | account :: _ => .ok (0, state, decimal account.value.toNat ++ ascii "\n")

/-- A public key has 32 bytes, so that one round more is enough. -/
def handlePublicKeyCommand : CliHandler := fun _ state => do
  let hex ← binaryToHex 33 state.application.publicKey.toList
  return (0, state, hex ++ ascii "\n")

/-- `handle_send_command`, with the bytes that `hex_to_binary` leaves uninitialised. -/
def handleSendCommand : CliHandler := fun args state =>
  match parseSend ⟨args, uninitialised⟩ with
  | none => .ok (-1, state, [])
  | some (value, recipient) => .ok (0, Handlers.handleSendCommand S state value recipient, [])

/-- What the loop of `handle_pool_command` prints about a transaction. -/
def printTransaction (txn : Transaction) : Outcome CString := do
  let buf ← transactionWriteJson undefined txn (dynamicBufferCreate 32)
  let buf ← jsonWriteEnd buf
  return buf.live.takeWhile (· ≠ 0) ++ ascii "\n"

/-- The number of pending transactions, then one document for each. -/
def handlePoolCommand : CliHandler := fun _ state => do
  let pool := state.application.pool
  let stdout := decimal (poolSize pool) ++ ascii " pending transations\n"
  let stdout ← pool.list.foldlM (fun stdout txn => do
    let line ← printTransaction undefined txn
    return stdout ++ line) stdout
  return (0, state, stdout)

/-- The interface of `main`. -/
def cli : Cli :=
  let cli := cliCreate
  let cli := cliAddCommand cli (ascii "value") (ascii "Get current account value")
    handleValueCommand
  let cli := cliAddCommand cli (ascii "public_key") (ascii "Get current public key")
    handlePublicKeyCommand
  let cli := cliAddCommand cli (ascii "send") (ascii "Send value to recipient")
    (handleSendCommand S uninitialised)
  cliAddCommand cli (ascii "pool") (ascii "Get transaction pool info")
    (handlePoolCommand undefined)

/-- What is read from the keyboard, chunk by chunk, and what is printed for each. -/
def session : List (List UInt8) → State → Outcome (State × List Printed)
  | [], state => .ok (state, [])
  | chunk :: chunks, state => do
      let (state, printed) ← readStdin (cli S undefined uninitialised) chunk.length chunk state
      let (state, more) ← session chunks state
      return (state, printed :: more)

end Handlers

section Replies

/-- What a command line asks for. -/
inductive Request where
  | value
  | publicKey
  | send (value : UInt64) (recipient : PublicKey)
  | pool
  | unknown

def requestOf (uninitialised : Nat → UInt8) (args : List CString) : Request :=
  if args.head? = some (ascii "value") then .value
  else if args.head? = some (ascii "public_key") then .publicKey
  else if args.head? = some (ascii "send") then
    match parseSend ⟨args, uninitialised⟩ with
    | some (value, recipient) => .send value recipient
    | none => .unknown
  else if args.head? = some (ascii "pool") then .pool
  else .unknown

/-- The string in the buffer once the last byte is its terminator. -/
def lineOf (chunk : List UInt8) : CString :=
  chunk.dropLast.takeWhile (· ≠ 0)

variable (S : Sodium) (undefined : ℚ → UInt64) (uninitialised : Nat → UInt8)

/-- What a user asks for with this line. -/
def requestIn (chunk : List UInt8) : Request :=
  requestOf uninitialised (words 32 (lineOf chunk))

/-- What the node owns on its principal chain. -/
def balance (state : State) : Nat :=
  (LedgerRefinement.exactLedger state.application.blockchain.principal
    state.application.publicKey % 2 ^ 64).toNat

/-- What is printed for a command that does not exist. -/
def usageText : CString :=
  ascii ("Use the following commands: \n" ++
    "   value       Get current account value\n" ++
    "   public_key  Get current public key\n" ++
    "   send        Send value to recipient\n" ++
    "   pool        Get transaction pool info\n")

/-- The line of a pending transaction. -/
def pendingLine (txn : Transaction) : CString :=
  ((transactionJson txn).map (converted undefined)).text ++ ascii "\n"

def replyTo (state : State) : Request → CString
  | .value => decimal (balance state) ++ ascii "\n"
  | .publicKey => JsonWriters.binaryToHex state.application.publicKey.toList ++ ascii "\n"
  | .send _ _ => []
  | .pool => decimal state.application.pool.list.length ++ ascii " pending transations\n" ++
      state.application.pool.list.flatMap (pendingLine undefined)
  | .unknown => usageText

/-- Only a payment changes the node. -/
def stateAfter (state : State) : Request → State
  | .send value recipient => Handlers.handleSendCommand S state value recipient
  | _ => state

/-- The state after a chunk, and what has been printed. -/
def answer (chunk : List UInt8) (state : State) : State × Printed :=
  if chunk = [] then (state, ⟨[], []⟩)
  else (stateAfter S state (requestIn uninitialised chunk),
    ⟨replyTo undefined state (requestIn uninitialised chunk) ++ ascii ">>> ", []⟩)

def answers : List (List UInt8) → State → State × List Printed
  | [], state => (state, [])
  | chunk :: chunks, state =>
      let (state, printed) := answer S undefined uninitialised chunk state
      let (state, more) := answers chunks state
      (state, printed :: more)

/-- The payment that a line asks for. -/
def Request.payment : Request → Option (UInt64 × PublicKey)
  | .send amount recipient => some (amount, recipient)
  | _ => none

def paymentsIn (chunks : List (List UInt8)) : List (UInt64 × PublicKey) :=
  chunks.filterMap fun chunk => (requestIn uninitialised chunk).payment

def pay (state : State) (payment : UInt64 × PublicKey) : State :=
  Handlers.handleSendCommand S state payment.1 payment.2

end Replies

section Splitting

theorem strtok_of_blank {str : CString} (h : str.dropWhile (· = 32) = []) :
    strtok str = none := by
  simp only [strtok, h, if_true]

theorem strtok_of_token {str rest : CString} {c : UInt8}
    (h : str.dropWhile (· = 32) = c :: rest) :
    strtok str =
      some ((c :: rest).takeWhile (· ≠ 32), ((c :: rest).dropWhile (· ≠ 32)).drop 1) ∧
      c ≠ 32 ∧ (((c :: rest).dropWhile (· ≠ 32)).drop 1).length < str.length := by
  have hc : c ≠ 32 := by
    have hhead := List.head?_dropWhile_not (p := fun c => decide (c = 32)) (l := str)
    rw [h] at hhead
    simpa using hhead
  have hle := (List.dropWhile_suffix (l := str) (· = 32)).length_le
  have hrest := (List.dropWhile_suffix (l := c :: rest) (· ≠ 32)).length_le
  rw [h, List.length_cons] at hle
  rw [List.length_cons] at hrest
  refine ⟨?_, hc, ?_⟩
  · simp only [strtok, h, reduceCtorEq, if_false]
  · rw [List.length_drop]
    omega

theorem splitLoop_eq {fuel : Nat} {str : CString} (hfuel : str.length < fuel)
    (res : List CString) : splitLoop fuel str res = .ok (res ++ words 32 str) := by
  induction fuel generalizing str res with
  | zero => exact absurd hfuel (Nat.not_lt_zero _)
  | succ fuel ih =>
      have hwords := words_dropWhile 32 str
      rw [splitLoop]
      rcases hstr : str.dropWhile (· = 32) with _ | ⟨c, rest⟩
      · rw [hstr, words_nil] at hwords
        rw [strtok_of_blank hstr, ← hwords, List.append_nil]
      · obtain ⟨htoken, hc, hshorter⟩ := strtok_of_token hstr
        rw [hstr, words_of_head rest hc] at hwords
        have hnext := @ih (((c :: rest).dropWhile (· ≠ 32)).drop 1) (by omega)
        simp only [htoken]
        rw [hnext, ← hwords, List.append_assoc, List.singleton_append]

theorem split_eq (str : CString) : split (str.length + 1) str = .ok (words 32 str) :=
  splitLoop_eq (Nat.lt_succ_self _) []

-- blanks do not count, and the last byte is lost whatever it is
example :
    words 32 (lineOf (ascii "  send   5 ff ?")) = [ascii "send", ascii "5", ascii "ff"] := by
  decide +kernel

end Splitting

section Handling

variable {S : Sodium} {undefined : ℚ → UInt64} {uninitialised : Nat → UInt8} {state : State}

theorem binaryToHex_eq {data : List UInt8} (h : data.length < 256) :
    binaryToHex (data.length + 1) data = .ok (JsonWriters.binaryToHex data) := by
  have hloop := HexBuffers.toHexLoop_spec [] data h
  have hdigits : ∀ c ∈ JsonWriters.binaryToHex data, decide (c ≠ 0) = true := by
    intro c hc
    have hplain := (plain_binaryToHex data c hc).2.2
    rw [decide_eq_true_eq]
    rintro rfl
    exact absurd hplain (by decide)
  rw [List.nil_append, mul_comm] at hloop
  rw [binaryToHex]
  change (HexBuffers.toHexLoop data (data.length + 1)
    0 (List.replicate (data.length * 2 + 1) 0)) =
    .ok (JsonWriters.binaryToHex data ++ [0]) at hloop
  rw [hloop, ok_bind, List.takeWhile_append_of_pos hdigits]
  exact congrArg Except.ok (List.append_nil _)

theorem handlePublicKeyCommand_eq (args : List CString) (state : State) :
    handlePublicKeyCommand args state =
      .ok (0, state, replyTo undefined state .publicKey) := by
  have hlength : state.application.publicKey.toList.length = 32 :=
    state.application.publicKey.length_eq
  have hhex := @binaryToHex_eq state.application.publicKey.toList (by omega)
  rw [hlength] at hhex
  rw [handlePublicKeyCommand, hhex]
  rfl

theorem balance_eq (reachable : NodeRuns.Reachable S state) :
    (accountValue (blockGetAccount state.application.blockchain.principal
      state.application.publicKey)).toNat = balance state := by
  obtain ⟨events, run⟩ := reachable.run
  obtain ⟨stored, built⟩ := run.nodeRun.builtRun
  have hbuilt : Chains.Built S state.application.blockchain.principal := by
    rcases built.tree.principal_mem with hnull | hmem
    · change state.application.blockchain.principal = [] at hnull
      rw [hnull]
      exact .null
    · exact built.built _ hmem
  have hvalue := LedgerRefinement.value_modEq hbuilt state.application.publicKey
  have hlt : ((accountValue (blockGetAccount state.application.blockchain.principal
      state.application.publicKey)).toNat : ℤ) < 2 ^ 64 := by
    exact_mod_cast UInt64.toNat_lt _
  rw [Int.ModEq, Int.emod_eq_of_lt (Int.natCast_nonneg _) hlt] at hvalue
  rw [balance, ← hvalue, Int.toNat_natCast]

theorem handleValueCommand_eq (reachable : NodeRuns.Reachable S state) (args : List CString) :
    handleValueCommand args state = .ok (0, state, replyTo undefined state .value) := by
  rw [replyTo, ← balance_eq reachable, handleValueCommand]
  cases blockGetAccount state.application.blockchain.principal state.application.publicKey with
  | nil => rfl
  | cons account earlier => rfl

theorem printTransaction_eq (txn : Transaction) :
    printTransaction undefined txn = .ok (pendingLine undefined txn) := by
  have hemits := emits_json undefined (transactionJson txn)
  have hsize := JsonAmounts.transaction_size undefined txn
  obtain ⟨middle, hmiddle⟩ := (hemits.returns_iff _ fresh_create.ready).mpr (by
    rw [documentSize] at hsize
    rw [List.length_append, List.length_singleton]
    change 0 + _ < _
    omega)
  have hlive := (hemits.spec _ _ fresh_create.ready hmiddle).1
  rw [fresh_create.empty, List.nil_append] at hlive
  obtain ⟨ended, hend, htext⟩ := jsonWriteEnd_of_live hlive
  have hplain : ∀ c ∈ ended.live, decide (c ≠ 0) = true := by
    intro c hc
    rw [htext] at hc
    have hprintable := printable_text _ c hc
    rw [decide_eq_true_eq]
    rintro rfl
    exact absurd hprintable (by decide)
  have hkept : ended.live.takeWhile (· ≠ 0) = ended.live := List.takeWhile_eq_self_iff.mpr hplain
  rw [printTransaction, transactionWriteJson_eq, hmiddle, ok_bind, hend, ok_bind, hkept, htext]
  rfl

theorem printTransactions_eq (txns : List Transaction) (stdout : CString) :
    txns.foldlM (fun stdout txn => do
        let line ← printTransaction undefined txn
        return stdout ++ line) stdout = .ok (stdout ++ txns.flatMap (pendingLine undefined)) := by
  induction txns generalizing stdout with
  | nil => exact congrArg Except.ok (List.append_nil _).symm
  | cons txn txns ih =>
      rw [List.foldlM_cons, printTransaction_eq, ok_bind]
      exact (ih _).trans (by rw [List.flatMap_cons, List.append_assoc])

theorem handlePoolCommand_eq (args : List CString) (state : State) :
    handlePoolCommand undefined args state = .ok (0, state, replyTo undefined state .pool) := by
  rw [handlePoolCommand, printTransactions_eq]
  rfl

section Dispatch

variable {commands : Cli} {cmd : CString} {args : List CString} {handled : Bool}
  {stdout : CString}

theorem runCommands_skip (h : ∀ entry ∈ commands, entry.command ≠ cmd) :
    runCommands cmd args commands handled state stdout = .ok (handled, state, stdout) := by
  induction commands with
  | nil => rfl
  | cons entry commands ih =>
      rw [List.forall_mem_cons] at h
      rw [runCommands, if_neg h.1, ih h.2]

theorem runCommands_of_mem (hnodup : (commands.map CliCommand.command).Nodup) {entry : CliCommand}
    (hentry : entry ∈ commands) {code : Int32} {state' : State} {printed : CString}
    (hrun : entry.handler args state = .ok (code, state', printed)) :
    runCommands entry.command args commands handled state stdout =
      .ok (handled || decide (code = 0), state', stdout ++ printed) := by
  induction commands with
  | nil => exact absurd hentry List.not_mem_nil
  | cons first commands ih =>
      rw [List.map_cons, List.nodup_cons] at hnodup
      rcases List.mem_cons.mp hentry with rfl | hentry
      · rw [runCommands, if_pos rfl, hrun, ok_bind]
        apply runCommands_skip
        intro other hother hsame
        exact hnodup.1 (hsame ▸ List.mem_map_of_mem hother)
      · have hother : first.command ≠ entry.command := by
          intro hsame
          exact hnodup.1 (hsame ▸ List.mem_map_of_mem hentry)
        rw [runCommands, if_neg hother, ih hnodup.2 hentry]

theorem cli_eq : cli S undefined uninitialised =
    [⟨ascii "value", ascii "Get current account value", handleValueCommand⟩,
      ⟨ascii "public_key", ascii "Get current public key", handlePublicKeyCommand⟩,
      ⟨ascii "send", ascii "Send value to recipient", handleSendCommand S uninitialised⟩,
      ⟨ascii "pool", ascii "Get transaction pool info", handlePoolCommand undefined⟩] :=
  rfl

theorem printUsage_cli : printUsage (cli S undefined uninitialised) = usageText := by
  rw [cli_eq]
  simp only [printUsage, List.flatMap_cons, List.flatMap_nil]
  decide +kernel

theorem commands_nodup : ((cli S undefined uninitialised).map CliCommand.command).Nodup := by
  rw [cli_eq]
  simp only [List.map_cons, List.map_nil]
  decide +kernel

theorem mem_cli :
    ⟨ascii "value", ascii "Get current account value", handleValueCommand⟩ ∈
        cli S undefined uninitialised ∧
      ⟨ascii "public_key", ascii "Get current public key", handlePublicKeyCommand⟩ ∈
        cli S undefined uninitialised ∧
      ⟨ascii "send", ascii "Send value to recipient", handleSendCommand S uninitialised⟩ ∈
        cli S undefined uninitialised ∧
      ⟨ascii "pool", ascii "Get transaction pool info", handlePoolCommand undefined⟩ ∈
        cli S undefined uninitialised := by
  rw [cli_eq]
  exact ⟨.head _, .tail _ (.head _), .tail _ (.tail _ (.head _)),
    .tail _ (.tail _ (.tail _ (.head _)))⟩

theorem runArgs_of_mem {entry : CliCommand} (hentry : entry ∈ cli S undefined uninitialised)
    (hcmd : entry.command = cmd) {code : Int32} {state' : State} {printed : CString}
    (hrun : entry.handler (cmd :: args) state = .ok (code, state', printed)) :
    runArgs (cli S undefined uninitialised) (cmd :: args) state =
      .ok (decide (code = 0), state', printed) := by
  subst hcmd
  exact runCommands_of_mem commands_nodup hentry hrun

theorem runArgs_unknown (hcmd : cmd ≠ ascii "value" ∧ cmd ≠ ascii "public_key" ∧
    cmd ≠ ascii "send" ∧ cmd ≠ ascii "pool") (args : List CString) :
    runArgs (cli S undefined uninitialised) (cmd :: args) state = .ok (false, state, []) := by
  obtain ⟨hvalue, hpublicKey, hsend, hpool⟩ := hcmd
  apply runCommands_skip
  rw [cli_eq]
  intro entry hentry
  simp only [List.mem_cons, List.not_mem_nil, or_false] at hentry
  rcases hentry with rfl | rfl | rfl | rfl
  · exact hvalue.symm
  · exact hpublicKey.symm
  · exact hsend.symm
  · exact hpool.symm

theorem runArgs_eq (reachable : NodeRuns.Reachable S state) (args : List CString) :
    ∃ handled stdout, runArgs (cli S undefined uninitialised) args state =
        .ok (handled, stateAfter S state (requestOf uninitialised args), stdout) ∧
      (if handled then stdout else stdout ++ usageText) =
        replyTo undefined state (requestOf uninitialised args) := by
  rcases args with _ | ⟨cmd, args⟩
  · have hnone : requestOf uninitialised [] = .unknown := by simp [requestOf]
    rw [hnone]
    exact ⟨false, [], rfl, List.nil_append _⟩
  obtain ⟨hvalue, hpublicKey, hsend, hpool⟩ := @mem_cli S undefined uninitialised
  simp only [requestOf, List.head?_cons, Option.some.injEq]
  split_ifs with h₁ h₂ h₃ h₄
  · exact ⟨true, _,
      runArgs_of_mem hvalue h₁.symm (handleValueCommand_eq reachable (cmd :: args)), if_pos rfl⟩
  · exact ⟨true, _, runArgs_of_mem hpublicKey h₂.symm
      (handlePublicKeyCommand_eq (cmd :: args) state), if_pos rfl⟩
  · cases hparse : parseSend ⟨cmd :: args, uninitialised⟩ with
    | none =>
        have hrun :
            handleSendCommand S uninitialised (cmd :: args) state = .ok (-1, state, []) := by
          rw [handleSendCommand, hparse]
        exact ⟨false, [], runArgs_of_mem hsend h₃.symm hrun, List.nil_append _⟩
    | some payment =>
        have hrun : handleSendCommand S uninitialised (cmd :: args) state =
            .ok (0, Handlers.handleSendCommand S state payment.1 payment.2, []) := by
          rw [handleSendCommand, hparse]
        exact ⟨true, [], runArgs_of_mem hsend h₃.symm hrun, if_pos rfl⟩
  · exact ⟨true, _, runArgs_of_mem hpool h₄.symm (handlePoolCommand_eq (cmd :: args) state),
      if_pos rfl⟩
  · exact ⟨false, [], runArgs_unknown ⟨h₁, h₂, h₃, h₄⟩ args, List.nil_append _⟩

end Dispatch

section Session

theorem command_eq {chunk : List UInt8} (hne : chunk ≠ []) :
    ((chunk.take chunk.length).set (chunk.length - 1) 0).takeWhile (· ≠ 0) = lineOf chunk := by
  obtain ⟨init, last, rfl⟩ := (List.eq_nil_or_concat' chunk).resolve_left hne
  have hset : (init ++ [last]).set ((init ++ [last]).length - 1) 0 = init ++ [0] := by
    simp
  rw [List.take_length, hset, lineOf, List.dropLast_concat, List.takeWhile_append]
  split_ifs with hall
  · have hself := (List.takeWhile_prefix (l := init) fun c => decide (c ≠ 0)).eq_of_length hall
    exact (List.append_nil _).trans hself.symm
  · rfl

theorem readStdin_eq (reachable : NodeRuns.Reachable S state) (chunk : List UInt8) :
    readStdin (cli S undefined uninitialised) chunk.length chunk state =
      .ok (answer S undefined uninitialised chunk state) := by
  rw [readStdin, if_neg (by omega), answer]
  by_cases hempty : chunk = []
  · subst hempty
    rfl
  · have hlength : 0 < chunk.length := List.length_pos_iff.mpr hempty
    obtain ⟨handled, stdout, hrun, hreply⟩ :=
      @runArgs_eq S undefined uninitialised state reachable (words 32 (lineOf chunk))
    rw [if_pos (by omega), if_neg hempty]
    simp only [Int.toNat_natCast, require_of _ _ (le_refl _), ok_bind,
      command_eq hempty, split_eq, hrun, printUsage_cli, hreply]
    rfl

theorem answer_fst (chunk : List UInt8) (state : State) :
    (answer S undefined uninitialised chunk state).1 =
      (paymentsIn uninitialised [chunk]).foldl (pay S) state := by
  rw [answer, paymentsIn, List.filterMap_cons, List.filterMap_nil]
  split_ifs with hempty
  · subst hempty
    have hunknown : requestIn uninitialised [] = .unknown := by
      simp [requestIn, lineOf, words, requestOf]
    rw [hunknown]
    rfl
  · cases requestIn uninitialised chunk <;> rfl

theorem reachable_pay (reachable : NodeRuns.Reachable S state)
    (payments : List (UInt64 × PublicKey)) :
    NodeRuns.Reachable S (payments.foldl (pay S) state) := by
  induction payments generalizing state with
  | nil => exact reachable
  | cons payment payments ih => exact ih (reachable.command payment.1 payment.2)

theorem paymentsIn_cons (chunk : List UInt8) (chunks : List (List UInt8)) :
    paymentsIn uninitialised (chunk :: chunks) =
      paymentsIn uninitialised [chunk] ++ paymentsIn uninitialised chunks :=
  List.filterMap_append (l := [chunk])

/-- Only the payments change the node. -/
theorem answers_fst (chunks : List (List UInt8)) (state : State) :
    (answers S undefined uninitialised chunks state).1 =
      (paymentsIn uninitialised chunks).foldl (pay S) state := by
  induction chunks generalizing state with
  | nil => rfl
  | cons chunk chunks ih =>
      rw [paymentsIn_cons, List.foldl_append, ← @answer_fst S undefined]
      exact ih _

theorem session_eq (reachable : NodeRuns.Reachable S state) (chunks : List (List UInt8)) :
    session S undefined uninitialised chunks state =
      .ok (answers S undefined uninitialised chunks state) := by
  induction chunks generalizing state with
  | nil => rfl
  | cons chunk chunks ih =>
      have hnext : NodeRuns.Reachable S (answer S undefined uninitialised chunk state).1 := by
        rw [answer_fst]
        exact reachable_pay reachable _
      rw [session, readStdin_eq reachable, ok_bind]
      simp only [ih hnext, ok_bind]
      rfl

end Session

end Handling

section Payments

variable {S : Sodium} {undefined : ℚ → UInt64} {uninitialised : Nat → UInt8}

/-- Too large a number becomes the largest one of `long long`. -/
theorem atoll_decimal (n : Nat) :
    (Commands.atoll (decimal n)).toUInt64 = UInt64.ofNat (min n (2 ^ 63 - 1)) := by
  have hsign := ProgramArguments.scanSign_integer n []
  obtain ⟨htake, -⟩ := @ProgramArguments.split_decimal n [] (by simp)
  have hdigits : ∀ c ∈ decimal n, Commands.isdigit c = true :=
    fun c hc => isDigit_of_mem_decimal hc
  rw [integer_natCast, List.append_nil, Int.natAbs_natCast, List.append_nil,
    decide_eq_false (by omega)] at hsign
  rw [List.append_nil] at htake
  simp only [Commands.atoll, hsign, htake, ProgramArguments.foldl_digits hdigits,
    digitsValue_decimal]
  have hmin : min (n : ℤ) (2 ^ 63 - 1) = ((min n (2 ^ 63 - 1) : Nat) : ℤ) := by omega
  rw [if_neg Bool.false_ne_true, hmin, Int64.ofInt_eq_ofNat, Int64.toUInt64_ofNat']

theorem sscanfHex_drop (data : List UInt8) {i : Nat} (hi : i < data.length) :
    Commands.sscanfHex ((JsonWriters.binaryToHex data).drop (2 * i)) = some data[i] := by
  induction data generalizing i with
  | nil => exact absurd hi (Nat.not_lt_zero _)
  | cons b data ih =>
      rw [HexBuffers.binaryToHex_cons]
      rcases i with _ | i
      · exact HexBuffers.sscanfHex_binaryToHex b _
      · exact ih (Nat.lt_of_succ_lt_succ hi)

theorem hexToBinary_hex (pk : PublicKey) :
    Commands.hexToBinary uninitialised (JsonWriters.binaryToHex pk.toList) publicKeyBytes =
      some pk := by
  have hlength : (JsonWriters.binaryToHex pk.toList).length = 2 * publicKeyBytes := by
    rw [JsonWriters.length_binaryToHex, pk.length_eq]
  have hbytes : ((List.range publicKeyBytes).map fun i =>
      (Commands.sscanfHex ((JsonWriters.binaryToHex pk.toList).drop (2 * i))).getD
        (uninitialised i)) = pk.toList := by
    apply List.ext_getElem
    · rw [List.length_map, List.length_range, pk.length_eq]
    · intro i _ hi
      rw [List.getElem_map, List.getElem_range, sscanfHex_drop pk.toList hi, Option.getD_some]
  rw [Commands.hexToBinary, if_neg (not_not.mpr hlength), hbytes, Bytes.ofList_self]

theorem requestOf_send (n : Nat) (pk : PublicKey) :
    requestOf uninitialised [ascii "send", decimal n, JsonWriters.binaryToHex pk.toList] =
      .send (UInt64.ofNat (min n (2 ^ 63 - 1))) pk := by
  have hnames : ascii "send" ≠ ascii "value" ∧ ascii "send" ≠ ascii "public_key" := by
    decide +kernel
  have hparse : parseSend ⟨[ascii "send", decimal n, JsonWriters.binaryToHex pk.toList],
      uninitialised⟩ = some (UInt64.ofNat (min n (2 ^ 63 - 1)), pk) := by
    simp only [parseSend, hexToBinary_hex, atoll_decimal]
    rfl
  simp only [requestOf, List.head?_cons, Option.some.injEq, if_neg hnames.1, if_neg hnames.2,
    if_true, hparse]

theorem requestOf_publicKey (args : List CString) :
    requestOf uninitialised (ascii "public_key" :: args) = .publicKey := by
  have hnames : ascii "public_key" ≠ ascii "value" := by decide +kernel
  simp only [requestOf, List.head?_cons, Option.some.injEq, if_neg hnames, if_true]

theorem ne_nil_of_words {chunk : List UInt8} {word : CString} {more : List CString}
    (h : words 32 (lineOf chunk) = word :: more) : chunk ≠ [] := by
  rintro rfl
  cases h

end Payments

section Main

variable {S : Sodium} {state other : State}

/-- Every line of a session at the keyboard is answered: nothing that is typed stops the node,
the balance is the exact one modulo 2^64, every pending transaction comes as a JSON text,
and only payments change the node. -/
theorem session_answered (undefined : ℚ → UInt64) (uninitialised : Nat → UInt8)
    (reachable : NodeRuns.Reachable S state) (chunks : List (List UInt8)) :
    session S undefined uninitialised chunks state =
        .ok (answers S undefined uninitialised chunks state) ∧
      NodeRuns.Reachable S (answers S undefined uninitialised chunks state).1 ∧
      (answers S undefined uninitialised chunks state).1 =
        (paymentsIn uninitialised chunks).foldl (pay S) state := by
  refine ⟨session_eq reachable chunks, ?_, answers_fst chunks state⟩
  rw [answers_fst]
  exact reachable_pay reachable _

theorem exists_reachable : ∃ state, NodeRuns.Reachable transparent state := by
  obtain ⟨first, second, h⟩ := PendingTransactions.exists_spent
  obtain ⟨bytes, hwrite, hsize⟩ := h.sizes [first] (by simp)
  obtain ⟨network, hgenesis⟩ := @NodeRuns.createGenesis_ok transparent Chains.minerKey
    Chains.minerSecret 0 (fun n => UInt64.ofNat (n + 1)) (fun _ => Messages.guidNull) _ _
    h.create_first hwrite hsize
  exact ⟨_, .start hgenesis⟩

theorem session_answered_value : ∃ state, NodeRuns.Reachable transparent state ∧
    session transparent (fun _ => 0) (fun _ => 0) [ascii "value\n", ascii "pool\n"] state =
      .ok (answers transparent (fun _ => 0) (fun _ => 0) [ascii "value\n", ascii "pool\n"]
        state) := by
  obtain ⟨state, reachable⟩ := exists_reachable
  exact ⟨state, reachable, (session_answered (fun _ => 0) (fun _ => 0) reachable _).1⟩

theorem session_publicKey (undefined : ℚ → UInt64) (uninitialised : Nat → UInt8)
    (hother : NodeRuns.Reachable S other) {asked : List UInt8} {args : List CString}
    (hasked : words 32 (lineOf asked) = ascii "public_key" :: args) :
    session S undefined uninitialised [asked] other = .ok (other,
      [⟨JsonWriters.binaryToHex other.application.publicKey.toList ++ ascii "\n>>> ",
        []⟩]) := by
  have hrequest : requestIn uninitialised asked = .publicKey := by
    rw [requestIn, hasked, requestOf_publicKey]
  rw [session_eq hother]
  simp only [answers, answer, if_neg (ne_nil_of_words hasked), hrequest, replyTo,
    List.append_assoc]
  rfl

/-- The public key that one node prints, put into a send command at another one, is the
recipient of the payment. A number is paid up to the largest one of 63 bits. -/
theorem public_key_round_trip (undefined : ℚ → UInt64) (uninitialised : Nat → UInt8)
    (reachable : NodeRuns.Reachable S state) (hother : NodeRuns.Reachable S other)
    {asked : List UInt8} {args : List CString}
    (hasked : words 32 (lineOf asked) = ascii "public_key" :: args) :
    ∃ key, session S undefined uninitialised [asked] other =
        .ok (other, [⟨key ++ ascii "\n>>> ", []⟩]) ∧
      ∀ (n : Nat) (chunk : List UInt8),
        words 32 (lineOf chunk) = [ascii "send", decimal n, key] →
        session S undefined uninitialised [chunk] state =
          .ok (pay S state (UInt64.ofNat (min n (2 ^ 63 - 1)), other.application.publicKey),
            [⟨ascii ">>> ", []⟩]) := by
  refine ⟨JsonWriters.binaryToHex other.application.publicKey.toList,
    session_publicKey undefined uninitialised hother hasked, ?_⟩
  intro n chunk hchunk
  have hrequest : requestIn uninitialised chunk =
      .send (UInt64.ofNat (min n (2 ^ 63 - 1))) other.application.publicKey := by
    rw [requestIn, hchunk, requestOf_send]
  rw [session_eq reachable]
  simp only [answers, answer, if_neg (ne_nil_of_words hchunk), hrequest, replyTo,
    List.nil_append]
  rfl

theorem exists_reachable_rival : ∃ state, NodeRuns.Reachable transparent state ∧
    state.application.publicKey = Bytes.ofList _ [6] := by
  have hne : Ownership.rivalGenesis ≠ [] := by decide +kernel
  have hcreate := Chains.eq_ok_of_toOption hne
  obtain ⟨rival, hrival⟩ : ∃ rival, Ownership.rivalGenesis = [rival] :=
    Chains.eq_cons_of_blockCreate hcreate hne
  obtain ⟨bytes, hwrite, hsize⟩ := @PendingTransactions.exists_size Ownership.rivalGenesis
    (by decide +kernel)
  rw [hrival] at hwrite
  obtain ⟨network, hgenesis⟩ := @NodeRuns.createGenesis_ok transparent (Bytes.ofList _ [6])
    (Bytes.ofList _ [6]) 0 (fun n => UInt64.ofNat (n + 1)) (fun _ => Messages.guidNull) _ _
    (hcreate.trans (congrArg Except.ok hrival)) hwrite hsize
  exact ⟨_, .start hgenesis, rfl⟩

/-- The miner pays 25 to the key that another node has printed. -/
theorem public_key_round_trip_paid : ∃ state other key, NodeRuns.Reachable transparent state ∧
    NodeRuns.Reachable transparent other ∧
    session transparent (fun _ => 0) (fun _ => 0) [ascii "public_key\n"] other =
      .ok (other, [⟨key ++ ascii "\n>>> ", []⟩]) ∧
    session transparent (fun _ => 0) (fun _ => 0)
      [ascii "send 25 " ++ (key ++ ascii "\n")] state =
      .ok (pay transparent state (25, Bytes.ofList _ [6]), [⟨ascii ">>> ", []⟩]) := by
  obtain ⟨state, reachable⟩ := exists_reachable
  obtain ⟨other, hother, hkey⟩ := exists_reachable_rival
  have hasked : words 32 (lineOf (ascii "public_key\n")) = ascii "public_key" :: [] := by
    decide +kernel
  obtain ⟨key, hprinted, hpaid⟩ :=
    public_key_round_trip (fun _ => 0) (fun _ => 0) reachable hother
    hasked
  have hhex : key = JsonWriters.binaryToHex other.application.publicKey.toList := by
    have hsame := hprinted.symm.trans (session_publicKey (fun _ => 0) (fun _ => 0) hother hasked)
    simp only [Except.ok.injEq, Prod.mk.injEq, List.cons.injEq, Printed.mk.injEq, and_true,
      true_and] at hsame
    exact List.append_cancel_right hsame
  have hwords : words 32 (lineOf (ascii "send 25 " ++ (key ++ ascii "\n"))) =
      [ascii "send", decimal 25, key] := by
    rw [hhex, hkey]
    decide +kernel
  have hsent := hpaid 25 _ hwords
  rw [hkey] at hsent
  exact ⟨state, other, key, reachable, hother, hprinted, hsent⟩

end Main

end Whosecoin.Terminal
