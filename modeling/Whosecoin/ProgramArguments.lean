import Whosecoin.Commands
import Whosecoin.JsonWriters

namespace Whosecoin.ProgramArguments

open Library.Outcomes
open Library.ByteStrings
open Library.JsonTexts
open Commands (CString isspace isdigit scanSign)
open JsonWriters (ascii)

/-- How many `-connect=` options are kept. -/
def maxInitialConnections : Nat := 64

/-- A `settings_t`. Each address has room for 16 characters. -/
structure Settings where
  port : Int32
  backlog : Int32
  shouldListen : Int32
  peerAddresses : List CString
  peerPorts : List Int32
  nPeerConnections : Nat

/-- The global `settings`, before any arguments have been parsed. -/
def settingsCreate : Settings where
  port := 0
  backlog := 0
  shouldListen := 0
  peerAddresses := List.replicate maxInitialConnections []
  peerPorts := List.replicate maxInitialConnections 0
  nPeerConnections := 0

section Functions

-- what `sscanf` stores for a number that is not an `int`
variable (outOfRange : ℤ → Int32)

/-- `%d` of `sscanf`, and what it leaves. -/
def scanInt (text : CString) : Option (Int32 × CString) :=
  let (negative, text) := scanSign (text.dropWhile isspace)
  let digits := text.takeWhile isdigit
  let n : Nat := digits.foldl (fun n c => 10 * n + (c - 48).toNat) 0
  let value : ℤ := if negative then -n else n
  if digits = [] then none
  else some (if -2 ^ 31 ≤ value ∧ value < 2 ^ 31 then Int32.ofInt value else outOfRange value,
    text.dropWhile isdigit)

/-- `%15[^':']` of `sscanf`, and what it leaves. -/
def scanAddress (text : CString) : Option (CString × CString) :=
  let addr := (text.take 15).takeWhile fun c => c ≠ 39 && c ≠ 58
  if addr = [] then none else some (addr, text.drop addr.length)

/-- `sscanf` of one number behind a text. -/
def scanOption (name arg : CString) : Option Int32 :=
  ((arg.dropPrefix? name).bind (scanInt outOfRange)).map Prod.fst

/-- `sscanf` of an address and a port, with what it stores. -/
def scanConnect (arg : CString) : Option CString × Option Int32 :=
  match (arg.dropPrefix? (ascii "-connect=")).bind scanAddress with
  | none => (none, none)
  | some (addr, rest) => (some addr, scanOption outOfRange [58] rest)

/-- The address is stored with its terminator. -/
def setPeerAddress (settings : Settings) (i : Nat) (addr : CString) : Outcome Settings :=
  if i < settings.peerAddresses.length ∧ addr.length < 16 then
    .ok { settings with peerAddresses := settings.peerAddresses.set i addr }
  else .error .outOfBounds

def setPeerPort (settings : Settings) (i : Nat) (port : Int32) : Outcome Settings :=
  if i < settings.peerPorts.length then
    .ok { settings with peerPorts := settings.peerPorts.set i port }
  else .error .outOfBounds

/-- The attempt to read a peer, and whether it succeeds. The address is stored also when
there is no port behind it. -/
def parsePeer (settings : Settings) (arg : CString) : Outcome (Bool × Settings) :=
  let i := settings.nPeerConnections
  if i < maxInitialConnections then
    match scanConnect outOfRange arg with
    | (none, _) => .ok (false, settings)
    | (some addr, none) => do return (false, ← setPeerAddress settings i addr)
    | (some addr, some port) => do
        let settings ← setPeerAddress settings i addr
        let settings ← setPeerPort settings i port
        return (true, { settings with nPeerConnections := i + 1 })
  else .ok (false, settings)

/-- The body of the loop, with the arguments that have been printed as unknown. -/
def parseArgument : Settings × List CString → CString → Outcome (Settings × List CString)
  | (settings, unknown), arg =>
      match scanOption outOfRange (ascii "-port=") arg with
      | some port => .ok ({ settings with port := port }, unknown)
      | none =>
          match scanOption outOfRange (ascii "-backlog=") arg with
          | some backlog => .ok ({ settings with backlog := backlog }, unknown)
          | none =>
              match scanOption outOfRange (ascii "-should-listen=") arg with
              | some shouldListen => .ok ({ settings with shouldListen := shouldListen }, unknown)
              | none => do
                  let (known, settings) ← parsePeer outOfRange settings arg
                  return (settings, if known then unknown else unknown ++ [arg])

/-- `parse_arguments`. The first of the arguments is the name of the program. -/
def parseArguments (argv : List CString) (settings : Settings) :
    Outcome (Settings × List CString) :=
  argv.tail.foldlM (parseArgument outOfRange)
    ({ settings with port := 1960, backlog := 128, shouldListen := 1 }, [])

end Functions

section Specification

/-- What an argument says. -/
inductive Argument where
  | port (n : Int32)
  | backlog (n : Int32)
  | shouldListen (n : Int32)
  | peer (addr : CString) (port : Int32)
  | unknown
deriving DecidableEq

/-- The peer in an argument. -/
def peerIn (outOfRange : ℤ → Int32) (arg : CString) : Option (CString × Int32) :=
  match scanConnect outOfRange arg with
  | (some addr, some port) => some (addr, port)
  | _ => none

/-- What is read off an argument. -/
def readArgument (outOfRange : ℤ → Int32) (arg : CString) : Argument :=
  match scanOption outOfRange (ascii "-port=") arg with
  | some n => .port n
  | none =>
      match scanOption outOfRange (ascii "-backlog=") arg with
      | some n => .backlog n
      | none =>
          match scanOption outOfRange (ascii "-should-listen=") arg with
          | some n => .shouldListen n
          | none =>
              match peerIn outOfRange arg with
              | some (addr, port) => .peer addr port
              | none => .unknown

namespace Argument

/-- What an argument says about the port. -/
def portOf : Argument → Option Int32
  | port n => some n
  | _ => none

def backlogOf : Argument → Option Int32
  | backlog n => some n
  | _ => none

def shouldListenOf : Argument → Option Int32
  | shouldListen n => some n
  | _ => none

def peerOf : Argument → Option (CString × Int32)
  | peer addr n => some (addr, n)
  | _ => none

end Argument

/-- The last value that the arguments give, if they give one. -/
def lastOf (default : Int32) (read : Argument → Option Int32) (arguments : List Argument) :
    Int32 :=
  (arguments.filterMap read).getLast?.getD default

/-- The peers that `main` connects to. -/
def peersOf (settings : Settings) : List (CString × Int32) :=
  (settings.peerAddresses.zip settings.peerPorts).take settings.nPeerConnections

/-- The arguments that are printed as unknown, with `n` peers already there. -/
def refused (outOfRange : ℤ → Int32) (n : Nat) : List CString → List CString
  | [] => []
  | arg :: args =>
      match readArgument outOfRange arg with
      | .unknown => arg :: refused outOfRange n args
      | .peer _ _ =>
          if n < maxInitialConnections then refused outOfRange (n + 1) args
          else arg :: refused outOfRange n args
      | _ => refused outOfRange n args

end Specification

section Steps

variable {outOfRange : ℤ → Int32} {settings settings' : Settings} {arg : CString}

/-- The arrays are whole, and the used part of them is inside. -/
structure Sized (settings : Settings) : Prop where
  addresses : settings.peerAddresses.length = maxInitialConnections
  ports : settings.peerPorts.length = maxInitialConnections
  count_le : settings.nPeerConnections ≤ maxInitialConnections

theorem sized_settingsCreate : Sized settingsCreate :=
  ⟨List.length_replicate, List.length_replicate, Nat.zero_le _⟩

theorem Sized.length_peersOf (h : Sized settings) :
    (peersOf settings).length = settings.nPeerConnections := by
  rw [peersOf, List.length_take, List.length_zip, h.addresses, h.ports, Nat.min_self]
  exact Nat.min_eq_left h.count_le

/-- A string that `sscanf` stores as an address. -/
structure Address (addr : CString) : Prop where
  ne_nil : addr ≠ []
  short : addr.length ≤ 15
  plain : ∀ c ∈ addr, c ≠ 39 ∧ c ≠ 58

theorem address_of_scan {text addr rest : CString} (h : scanAddress text = some (addr, rest)) :
    Address addr := by
  rw [scanAddress] at h
  split_ifs at h with hne
  cases h
  refine ⟨hne, (List.takeWhile_prefix _).length_le.trans (List.length_take_le _ _), ?_⟩
  intro c hc
  have hplain := List.mem_takeWhile_imp hc
  simpa using hplain

theorem address_of_scanConnect {addr : CString} {port : Option Int32}
    (h : scanConnect outOfRange arg = (some addr, port)) : Address addr := by
  rw [scanConnect] at h
  split at h
  · cases h
  · rename_i hscan
    cases h
    obtain ⟨text, -, haddr⟩ := Option.bind_eq_some_iff.mp hscan
    exact address_of_scan haddr

theorem take_peers (settings : Settings) : peersOf settings =
    (settings.peerAddresses.take settings.nPeerConnections).zip
      (settings.peerPorts.take settings.nPeerConnections) := by
  rw [peersOf, List.zip_eq_zipWith, List.take_zipWith, ← List.zip_eq_zipWith]

theorem peersOf_set {i : Nat} (addr : CString) (h : settings.nPeerConnections ≤ i) :
    peersOf { settings with peerAddresses := settings.peerAddresses.set i addr } =
      peersOf settings := by
  rw [take_peers, take_peers, List.take_set_of_le h]

theorem take_set_succ {α : Type} {xs : List α} {n : Nat} (h : n < xs.length) (x : α) :
    (xs.set n x).take (n + 1) = xs.take n ++ [x] := by
  have hlength : n < (xs.set n x).length := by rwa [List.length_set]
  rw [List.take_succ_eq_append_getElem hlength, List.take_set_of_le le_rfl,
    List.getElem_set_self]

theorem peersOf_snoc (h : Sized settings) (addr : CString) (port : Int32)
    (hroom : settings.nPeerConnections < maxInitialConnections) :
    peersOf { settings with
      peerAddresses := settings.peerAddresses.set settings.nPeerConnections addr
      peerPorts := settings.peerPorts.set settings.nPeerConnections port
      nPeerConnections := settings.nPeerConnections + 1 } =
    peersOf settings ++ [(addr, port)] := by
  have haddresses : settings.nPeerConnections < settings.peerAddresses.length := by
    rw [h.addresses]
    exact hroom
  have hports : settings.nPeerConnections < settings.peerPorts.length := by
    rw [h.ports]
    exact hroom
  have hsame : (settings.peerAddresses.take settings.nPeerConnections).length =
      (settings.peerPorts.take settings.nPeerConnections).length := by
    rw [List.length_take, List.length_take, h.addresses, h.ports]
  rw [take_peers, take_peers]
  simp only [take_set_succ haddresses, take_set_succ hports]
  rw [List.zip_append hsame]
  rfl

/-- The settings after an argument. -/
structure Follows (settings settings' : Settings) (argument : Argument) : Prop where
  sized : Sized settings'
  port : settings'.port = argument.portOf.getD settings.port
  backlog : settings'.backlog = argument.backlogOf.getD settings.backlog
  shouldListen : settings'.shouldListen = argument.shouldListenOf.getD settings.shouldListen
  peers : peersOf settings' =
    (peersOf settings ++ argument.peerOf.toList).take maxInitialConnections

theorem Sized.take_peersOf (h : Sized settings) :
    (peersOf settings).take maxInitialConnections = peersOf settings := by
  apply List.take_of_length_le
  rw [h.length_peersOf]
  exact h.count_le

theorem setPeerAddress_ok (h : Sized settings) {addr : CString} (haddr : Address addr)
    (hroom : settings.nPeerConnections < maxInitialConnections) :
    setPeerAddress settings settings.nPeerConnections addr =
      .ok { settings with
        peerAddresses := settings.peerAddresses.set settings.nPeerConnections addr } := by
  have hshort := haddr.short
  rw [setPeerAddress, if_pos]
  rw [h.addresses]
  exact ⟨hroom, by omega⟩

theorem parsePeer_spec (h : Sized settings) (arg : CString) :
    ∃ settings', parsePeer outOfRange settings arg = .ok ((peerIn outOfRange arg).isSome &&
        decide (settings.nPeerConnections < maxInitialConnections), settings') ∧
      settings'.port = settings.port ∧ settings'.backlog = settings.backlog ∧
      settings'.shouldListen = settings.shouldListen ∧ Sized settings' ∧
      peersOf settings' =
        (peersOf settings ++ (peerIn outOfRange arg).toList).take maxInitialConnections := by
  by_cases hroom : settings.nPeerConnections < maxInitialConnections
  · rw [parsePeer, if_pos hroom, peerIn]
    rcases hscan : scanConnect outOfRange arg with ⟨_ | addr, port⟩
    · refine ⟨settings, rfl, rfl, rfl, rfl, h, ?_⟩
      rw [Option.toList_none, List.append_nil, h.take_peersOf]
    · have hstore := setPeerAddress_ok h (address_of_scanConnect hscan) hroom
      rcases port with _ | port
      · refine ⟨{ settings with
            peerAddresses := settings.peerAddresses.set settings.nPeerConnections addr }, ?_, rfl,
          rfl, rfl, ⟨List.length_set.trans h.addresses, h.ports, h.count_le⟩, ?_⟩
        · simp only [hstore, ok_bind]
          rfl
        · rw [peersOf_set addr le_rfl]
          change _ = (peersOf settings ++ []).take maxInitialConnections
          rw [List.append_nil, h.take_peersOf]
      · have hport : setPeerPort { settings with
            peerAddresses := settings.peerAddresses.set settings.nPeerConnections addr }
            settings.nPeerConnections port = .ok { settings with
              peerAddresses := settings.peerAddresses.set settings.nPeerConnections addr
              peerPorts := settings.peerPorts.set settings.nPeerConnections port } := by
          rw [setPeerPort, if_pos]
          rw [h.ports]
          exact hroom
        refine ⟨{ settings with
            peerAddresses := settings.peerAddresses.set settings.nPeerConnections addr
            peerPorts := settings.peerPorts.set settings.nPeerConnections port
            nPeerConnections := settings.nPeerConnections + 1 }, ?_, rfl, rfl, rfl,
          ⟨List.length_set.trans h.addresses, List.length_set.trans h.ports, hroom⟩, ?_⟩
        · simp only [hstore, hport, ok_bind, decide_eq_true hroom]
          rfl
        · rw [peersOf_snoc h addr port hroom]
          change _ = (peersOf settings ++ [(addr, port)]).take maxInitialConnections
          rw [List.take_of_length_le]
          rw [List.length_append, h.length_peersOf]
          exact hroom
  · have hfull : settings.nPeerConnections = maxInitialConnections :=
      le_antisymm h.count_le (not_lt.mp hroom)
    refine ⟨settings, ?_, rfl, rfl, rfl, h, ?_⟩
    · rw [parsePeer, if_neg hroom, decide_eq_false hroom, Bool.and_false]
    · rw [List.take_append_of_le_length]
      · exact h.take_peersOf.symm
      · rw [h.length_peersOf, hfull]

theorem parseArgument_spec (h : Sized settings) (unknown : List CString) (arg : CString) :
    ∃ settings', parseArgument outOfRange (settings, unknown) arg =
        .ok (settings', unknown ++ refused outOfRange settings.nPeerConnections [arg]) ∧
      Follows settings settings' (readArgument outOfRange arg) := by
  have hkept : peersOf settings = (peersOf settings ++ []).take maxInitialConnections := by
    rw [List.append_nil, h.take_peersOf]
  have hnothing : ∀ settings' : Settings,
      (.ok (settings', unknown) : Outcome (Settings × List CString)) =
        .ok (settings', unknown ++ []) :=
    fun settings' => by rw [List.append_nil]
  rw [parseArgument, refused, readArgument]
  cases scanOption outOfRange (ascii "-port=") arg with
  | some port =>
      exact ⟨{ settings with port := port }, hnothing _,
        ⟨h.addresses, h.ports, h.count_le⟩, rfl, rfl, rfl, hkept⟩
  | none =>
      cases scanOption outOfRange (ascii "-backlog=") arg with
      | some backlog =>
          exact ⟨{ settings with backlog := backlog }, hnothing _,
            ⟨h.addresses, h.ports, h.count_le⟩, rfl, rfl, rfl, hkept⟩
      | none =>
          cases scanOption outOfRange (ascii "-should-listen=") arg with
          | some shouldListen =>
              exact ⟨{ settings with shouldListen := shouldListen }, hnothing _,
                ⟨h.addresses, h.ports, h.count_le⟩, rfl, rfl, rfl, hkept⟩
          | none =>
              obtain ⟨settings', hparse, hport, hbacklog, hlisten, hsized, hafter⟩ :=
                @parsePeer_spec outOfRange settings h arg
              refine ⟨settings', ?_, ?_⟩
              · simp only [hparse, ok_bind]
                cases peerIn outOfRange arg with
                | none => rfl
                | some peer =>
                    by_cases hroom : settings.nPeerConnections < maxInitialConnections
                    · simp only [hroom, decide_true, Option.isSome_some, Bool.and_self, if_true]
                      exact hnothing settings'
                    · simp only [hroom, decide_false, Bool.and_false, if_false,
                        Bool.false_eq_true]
                      rfl
              · cases hpeer : peerIn outOfRange arg with
                | none =>
                    rw [hpeer] at hafter
                    exact ⟨hsized, hport, hbacklog, hlisten, hafter⟩
                | some peer =>
                    rw [hpeer] at hafter
                    exact ⟨hsized, hport, hbacklog, hlisten, hafter⟩

theorem lastOf_cons (default : Int32) (read : Argument → Option Int32) (argument : Argument)
    (arguments : List Argument) : lastOf default read (argument :: arguments) =
      lastOf ((read argument).getD default) read arguments := by
  rw [lastOf, lastOf]
  cases hread : read argument with
  | none =>
      rw [List.filterMap_cons_none hread]
      rfl
  | some n =>
      rw [List.filterMap_cons_some hread, List.getLast?_cons]
      rfl

theorem Follows.count_eq {argument : Argument} (h : Sized settings)
    (hnext : Follows settings settings' argument) : settings'.nPeerConnections =
      min maxInitialConnections (settings.nPeerConnections + argument.peerOf.toList.length) := by
  rw [← hnext.sized.length_peersOf, hnext.peers, List.length_take, List.length_append,
    h.length_peersOf]

theorem refused_cons {n : Nat} (hn : n ≤ maxInitialConnections) (arg : CString)
    (args : List CString) : refused outOfRange n (arg :: args) = refused outOfRange n [arg] ++
      refused outOfRange (min maxInitialConnections
        (n + (readArgument outOfRange arg).peerOf.toList.length)) args := by
  rw [refused, refused]
  cases readArgument outOfRange arg with
  | port m =>
      change refused outOfRange n args = refused outOfRange (min maxInitialConnections n) args
      rw [Nat.min_eq_right hn]
  | backlog m =>
      change refused outOfRange n args = refused outOfRange (min maxInitialConnections n) args
      rw [Nat.min_eq_right hn]
  | shouldListen m =>
      change refused outOfRange n args = refused outOfRange (min maxInitialConnections n) args
      rw [Nat.min_eq_right hn]
  | unknown =>
      change arg :: refused outOfRange n args =
        arg :: refused outOfRange (min maxInitialConnections n) args
      rw [Nat.min_eq_right hn]
  | peer addr port =>
      change (if n < maxInitialConnections then refused outOfRange (n + 1) args
        else arg :: refused outOfRange n args) =
          (if n < maxInitialConnections then [] else [arg]) ++
          refused outOfRange (min maxInitialConnections (n + 1)) args
      by_cases hroom : n < maxInitialConnections
      · rw [if_pos hroom, if_pos hroom, Nat.min_eq_right hroom]
        rfl
      · have hfull : min maxInitialConnections (n + 1) = n := by omega
        rw [if_neg hroom, if_neg hroom, hfull]
        rfl

end Steps

section Runs

variable {outOfRange : ℤ → Int32} {settings : Settings}

/-- The settings after some arguments. -/
structure Reads (outOfRange : ℤ → Int32) (settings settings' : Settings) (args : List CString) :
    Prop where
  sized : Sized settings'
  port : settings'.port =
    lastOf settings.port Argument.portOf (args.map (readArgument outOfRange))
  backlog : settings'.backlog =
    lastOf settings.backlog Argument.backlogOf (args.map (readArgument outOfRange))
  shouldListen : settings'.shouldListen =
    lastOf settings.shouldListen Argument.shouldListenOf (args.map (readArgument outOfRange))
  peers : peersOf settings' = (peersOf settings ++
    (args.map (readArgument outOfRange)).filterMap Argument.peerOf).take maxInitialConnections

theorem take_append_take {α : Type} (k : Nat) (xs ys : List α) :
    (xs.take k ++ ys).take k = (xs ++ ys).take k := by
  rw [List.take_append, List.take_append, List.take_take, Nat.min_self, List.length_take]
  rcases Nat.le_total k xs.length with hle | hle
  · rw [Nat.min_eq_left hle, Nat.sub_self, Nat.sub_eq_zero_of_le hle]
  · rw [Nat.min_eq_right hle]

theorem filterMap_cons_toList {α β : Type} (f : α → Option β) (x : α) (xs : List α) :
    (x :: xs).filterMap f = (f x).toList ++ xs.filterMap f := by
  rw [List.filterMap_cons]
  cases f x <;> rfl

theorem parse_run (h : Sized settings) (unknown : List CString) (args : List CString) :
    ∃ settings', args.foldlM (parseArgument outOfRange) (settings, unknown) =
        .ok (settings', unknown ++ refused outOfRange settings.nPeerConnections args) ∧
      Reads outOfRange settings settings' args := by
  induction args generalizing settings unknown with
  | nil =>
      refine ⟨settings, ?_, h, rfl, rfl, rfl, ?_⟩
      · rw [refused, List.append_nil]
        rfl
      · rw [List.map_nil, List.filterMap_nil, List.append_nil, h.take_peersOf]
  | cons arg args ih =>
      obtain ⟨next, hstep, hnext⟩ := @parseArgument_spec outOfRange settings h unknown arg
      obtain ⟨settings', hrun, hreads⟩ := ih hnext.sized
        (unknown ++ refused outOfRange settings.nPeerConnections [arg])
      refine ⟨settings', ?_, hreads.sized, ?_, ?_, ?_, ?_⟩
      · rw [List.foldlM_cons, hstep, ok_bind, hrun, refused_cons h.count_le arg args,
          hnext.count_eq h, List.append_assoc]
      · rw [hreads.port, hnext.port, List.map_cons, lastOf_cons]
      · rw [hreads.backlog, hnext.backlog, List.map_cons, lastOf_cons]
      · rw [hreads.shouldListen, hnext.shouldListen, List.map_cons, lastOf_cons]
      · rw [hreads.peers, hnext.peers, List.map_cons, take_append_take, filterMap_cons_toList,
          List.append_assoc]

theorem address_of_readArgument {arg : CString} {peer : CString × Int32}
    (h : (readArgument outOfRange arg).peerOf = some peer) : Address peer.1 := by
  rw [readArgument] at h
  cases hport : scanOption outOfRange (ascii "-port=") arg with
  | some n =>
      rw [hport] at h
      cases h
  | none =>
      cases hbacklog : scanOption outOfRange (ascii "-backlog=") arg with
      | some n =>
          rw [hport, hbacklog] at h
          cases h
      | none =>
          cases hlisten : scanOption outOfRange (ascii "-should-listen=") arg with
          | some n =>
              rw [hport, hbacklog, hlisten] at h
              cases h
          | none =>
              rw [hport, hbacklog, hlisten, peerIn] at h
              rcases hscan : scanConnect outOfRange arg with ⟨_ | addr, _ | port⟩
              · rw [hscan] at h
                cases h
              · rw [hscan] at h
                cases h
              · rw [hscan] at h
                cases h
              · rw [hscan] at h
                cases h
                exact address_of_scanConnect hscan

/-- The settings that `parse_arguments` begins with. -/
def defaults : Settings :=
  { settingsCreate with port := 1960, backlog := 128, shouldListen := 1 }

theorem parseArguments_reads (outOfRange : ℤ → Int32) (program : CString)
    (args : List CString) :
    ∃ settings, parseArguments outOfRange (program :: args) settingsCreate =
      .ok (settings, refused outOfRange 0 args) ∧ Reads outOfRange defaults settings args := by
  have hstart : Sized defaults :=
    ⟨sized_settingsCreate.addresses, sized_settingsCreate.ports, sized_settingsCreate.count_le⟩
  obtain ⟨settings, hrun, hreads⟩ := @parse_run outOfRange _ hstart [] args
  rw [List.nil_append] at hrun
  exact ⟨settings, hrun, hreads⟩

theorem Reads.peers_eq {settings : Settings} {args : List CString}
    (h : Reads outOfRange defaults settings args) : peersOf settings =
      ((args.map (readArgument outOfRange)).filterMap Argument.peerOf).take
        maxInitialConnections := by
  have hempty : peersOf defaults = [] := List.take_zero
  rw [h.peers, hempty, List.nil_append]

/-- Whatever the arguments are, the arrays of the settings suffice for them. The last number
of each kind counts, of the peers the first 64, and the others are printed as unknown. -/
theorem arguments_read (outOfRange : ℤ → Int32) (program : CString) (args : List CString) :
    ∃ settings, parseArguments outOfRange (program :: args) settingsCreate =
        .ok (settings, refused outOfRange 0 args) ∧
      settings.port = lastOf 1960 Argument.portOf (args.map (readArgument outOfRange)) ∧
      settings.backlog = lastOf 128 Argument.backlogOf (args.map (readArgument outOfRange)) ∧
      settings.shouldListen =
        lastOf 1 Argument.shouldListenOf (args.map (readArgument outOfRange)) ∧
      peersOf settings = ((args.map (readArgument outOfRange)).filterMap Argument.peerOf).take
        maxInitialConnections ∧
      ∀ peer ∈ peersOf settings, Address peer.1 := by
  obtain ⟨settings, hrun, hreads⟩ := parseArguments_reads outOfRange program args
  refine ⟨settings, hrun, hreads.port, hreads.backlog, hreads.shouldListen, hreads.peers_eq, ?_⟩
  intro peer hpeer
  rw [hreads.peers_eq] at hpeer
  obtain ⟨argument, hargument, hread⟩ := List.mem_filterMap.mp (List.mem_of_mem_take hpeer)
  obtain ⟨arg, -, rfl⟩ := List.mem_map.mp hargument
  exact address_of_readArgument hread

end Runs

section Numbers

theorem foldl_digits {digits : CString} (h : ∀ c ∈ digits, isdigit c = true) :
    digits.foldl (fun n c => 10 * n + (c - 48).toNat) 0 = digitsValue digits := by
  induction digits using List.reverseRecOn with
  | nil => rfl
  | append_singleton digits c ih =>
      rw [List.forall_mem_append, List.forall_mem_singleton, isdigit, Bool.and_eq_true,
        decide_eq_true_eq, decide_eq_true_eq] at h
      obtain ⟨hdigits, hlow, -⟩ := h
      have hdigit : (c - 48).toNat = c.toNat - 48 := UInt8.toNat_sub_of_le c 48 hlow
      rw [List.foldl_append, List.foldl_cons, List.foldl_nil, ih hdigits, hdigit, digitsValue,
        digitsValue, List.reverse_append, List.reverse_singleton, List.singleton_append,
        List.map_cons, Nat.ofDigits_cons]
      omega

theorem split_decimal (n : Nat) {rest : CString} (hrest : ∀ c ∈ rest.head?, isdigit c = false) :
    (decimal n ++ rest).takeWhile isdigit = decimal n ∧
      (decimal n ++ rest).dropWhile isdigit = rest := by
  have hdigits : ∀ c ∈ decimal n, isdigit c = true := fun c hc => isDigit_of_mem_decimal hc
  have hstop : rest.takeWhile isdigit = [] ∧ rest.dropWhile isdigit = rest := by
    rcases rest with _ | ⟨c, rest⟩
    · exact ⟨rfl, rfl⟩
    · have hc := hrest c rfl
      simp [hc]
  rw [List.takeWhile_append_of_pos hdigits, List.dropWhile_append_of_pos hdigits,
    hstop.1, hstop.2, List.append_nil]
  exact ⟨rfl, rfl⟩

theorem isspace_of_isdigit {c : UInt8} (h : isdigit c = true) : isspace c = false := by
  rw [isdigit, Bool.and_eq_true, decide_eq_true_eq, decide_eq_true_eq] at h
  rw [isspace, Bool.or_eq_false_iff, Bool.and_eq_false_iff, decide_eq_false_iff_not,
    decide_eq_false_iff_not, decide_eq_false_iff_not]
  refine ⟨?_, Or.inr ?_⟩
  · rintro rfl
    exact absurd h.1 (by decide)
  · intro hle
    exact absurd (UInt8.le_trans h.1 hle) (by decide)

/-- What `sscanf` and `atoll` read in front of the digits of a number. -/
theorem scanSign_integer (n : ℤ) (rest : CString) :
    scanSign ((integer n ++ rest).dropWhile isspace) =
      (decide (n < 0), decimal n.natAbs ++ rest) := by
  rw [integer]
  split_ifs with hneg
  · rw [List.cons_append, List.dropWhile_cons_of_neg (by decide), decide_eq_true hneg]
    rfl
  · obtain ⟨c, digits, htext, hc⟩ := exists_decimal_cons n.natAbs
    have hminus : c ≠ 45 := ne_of_isDigit hc rfl
    have hplus : c ≠ 43 := ne_of_isDigit hc rfl
    have hspace := isspace_of_isdigit hc
    rw [htext, List.cons_append, List.dropWhile_cons_of_neg (by rw [hspace]; decide), scanSign,
      if_neg hminus, if_neg hplus, decide_eq_false hneg]

theorem scanInt_integer (outOfRange : ℤ → Int32) (n : Int32) {rest : CString}
    (hrest : ∀ c ∈ rest.head?, isdigit c = false) :
    scanInt outOfRange (integer n.toInt ++ rest) = some (n, rest) := by
  obtain ⟨htake, hdrop⟩ := split_decimal n.toInt.natAbs hrest
  have hdigits : ∀ c ∈ decimal n.toInt.natAbs, isdigit c = true :=
    fun c hc => isDigit_of_mem_decimal hc
  have hvalue : (if decide (n.toInt < 0) then -(n.toInt.natAbs : ℤ) else n.toInt.natAbs) =
      n.toInt := by
    split_ifs with hneg
    · rw [decide_eq_true_eq] at hneg
      omega
    · rw [decide_eq_true_eq] at hneg
      omega
  have hrange : -2 ^ 31 ≤ n.toInt ∧ n.toInt < 2 ^ 31 := ⟨n.le_toInt, n.toInt_lt⟩
  simp only [scanInt, scanSign_integer, htake, hdrop, foldl_digits hdigits, digitsValue_decimal,
    if_neg (decimal_ne_nil _), hvalue, if_pos hrange, Int32.ofInt_toInt]

end Numbers

section RoundTrip

/-- Options that fit into the settings, with addresses that the scan takes whole. -/
structure Options where
  port : Int32
  backlog : Int32
  shouldListen : Int32
  peers : List (CString × Int32)
  peers_fit : peers.length ≤ maxInitialConnections
  addresses : ∀ peer ∈ peers, Address peer.1

def optionText (name : CString) (n : Int32) : CString :=
  name ++ integer n.toInt

def peerText (peer : CString × Int32) : CString :=
  ascii "-connect=" ++ (peer.1 ++ 58 :: integer peer.2.toInt)

/-- The command line that gives the options. -/
def Options.args (options : Options) : List CString :=
  [optionText (ascii "-port=") options.port, optionText (ascii "-backlog=") options.backlog,
    optionText (ascii "-should-listen=") options.shouldListen] ++ options.peers.map peerText

variable {outOfRange : ℤ → Int32}

theorem scanOption_text (name : CString) (n : Int32) :
    scanOption outOfRange name (optionText name n) = some n := by
  have hscan := @scanInt_integer outOfRange n [] (by simp)
  rw [List.append_nil] at hscan
  rw [scanOption, optionText, dropPrefix?_append, Option.bind_some, hscan]
  rfl

theorem scanAddress_text {addr : CString} (h : Address addr) (rest : CString) :
    scanAddress (addr ++ 58 :: rest) = some (addr, 58 :: rest) := by
  have hplain : ∀ c ∈ addr, (c ≠ 39 && c ≠ 58) = true := by
    intro c hc
    obtain ⟨hquote, hcolon⟩ := h.plain c hc
    simp [hquote, hcolon]
  have htaken :
      ((addr ++ 58 :: rest).take 15).takeWhile (fun c => c ≠ 39 && c ≠ 58) = addr := by
    have hstop : ((58 :: rest).take (15 - addr.length)).takeWhile (fun c => c ≠ 39 && c ≠ 58) =
        [] := by
      rcases 15 - addr.length with _ | room
      · rfl
      · rfl
    rw [List.take_append, List.take_of_length_le h.short, List.takeWhile_append_of_pos hplain,
      hstop, List.append_nil]
  simp only [scanAddress, htaken, if_neg h.ne_nil, List.drop_left]

theorem readArgument_port (n : Int32) :
    readArgument outOfRange (optionText (ascii "-port=") n) = .port n := by
  rw [readArgument, scanOption_text]

theorem readArgument_backlog (n : Int32) :
    readArgument outOfRange (optionText (ascii "-backlog=") n) = .backlog n := by
  have hport : scanOption outOfRange (ascii "-port=") (optionText (ascii "-backlog=") n) = none :=
    rfl
  rw [readArgument, hport, scanOption_text]

theorem readArgument_shouldListen (n : Int32) :
    readArgument outOfRange (optionText (ascii "-should-listen=") n) = .shouldListen n := by
  have hport : scanOption outOfRange (ascii "-port=") (optionText (ascii "-should-listen=") n) =
      none := rfl
  have hbacklog : scanOption outOfRange (ascii "-backlog=")
      (optionText (ascii "-should-listen=") n) = none := rfl
  rw [readArgument, hport, hbacklog, scanOption_text]

theorem readArgument_peer {peer : CString × Int32} (h : Address peer.1) :
    readArgument outOfRange (peerText peer) = .peer peer.1 peer.2 := by
  have hport : scanOption outOfRange (ascii "-port=") (peerText peer) = none := rfl
  have hbacklog : scanOption outOfRange (ascii "-backlog=") (peerText peer) = none := rfl
  have hlisten : scanOption outOfRange (ascii "-should-listen=") (peerText peer) = none := rfl
  have hscan : scanConnect outOfRange (peerText peer) = (some peer.1, some peer.2) := by
    have hnumber : scanOption outOfRange [58] (58 :: integer peer.2.toInt) = some peer.2 :=
      scanOption_text [58] peer.2
    rw [scanConnect, peerText, dropPrefix?_append, Option.bind_some, scanAddress_text h]
    simp only [hnumber]
  rw [readArgument, hport, hbacklog, hlisten, peerIn, hscan]

theorem readArguments_peers {peers : List (CString × Int32)}
    (h : ∀ peer ∈ peers, Address peer.1) :
    (peers.map peerText).map (readArgument outOfRange) =
      peers.map fun peer => .peer peer.1 peer.2 := by
  rw [List.map_map]
  exact List.map_congr_left fun peer hpeer => readArgument_peer (h peer hpeer)

theorem refused_peers {n : Nat} {peers : List (CString × Int32)}
    (h : ∀ peer ∈ peers, Address peer.1) (hroom : n + peers.length ≤ maxInitialConnections) :
    refused outOfRange n (peers.map peerText) = [] := by
  induction peers generalizing n with
  | nil => rfl
  | cons peer peers ih =>
      rw [List.forall_mem_cons] at h
      rw [List.length_cons] at hroom
      have hlt : n < maxInitialConnections := by omega
      rw [List.map_cons, refused, readArgument_peer h.1]
      simp only [if_pos hlt]
      exact ih h.2 (by omega)

/-- The options that a command line was made from are read back, and all of it is known. -/
theorem options_round_trip (outOfRange : ℤ → Int32) (program : CString) (options : Options) :
    ∃ settings, parseArguments outOfRange (program :: options.args) settingsCreate =
        .ok (settings, []) ∧ settings.port = options.port ∧
          settings.backlog = options.backlog ∧
      settings.shouldListen = options.shouldListen ∧ peersOf settings = options.peers := by
  obtain ⟨settings, hrun, hreads⟩ := parseArguments_reads outOfRange program options.args
  have harguments : options.args.map (readArgument outOfRange) =
      [.port options.port, .backlog options.backlog, .shouldListen options.shouldListen] ++
        options.peers.map fun peer => .peer peer.1 peer.2 := by
    rw [Options.args, List.map_append, readArguments_peers options.addresses, List.map_cons,
      List.map_cons, List.map_singleton, readArgument_port, readArgument_backlog,
      readArgument_shouldListen]
  have hrefused : refused outOfRange 0 options.args = [] := by
    simp only [Options.args, List.cons_append, List.nil_append, refused, readArgument_port,
      readArgument_backlog, readArgument_shouldListen]
    apply refused_peers options.addresses
    rw [Nat.zero_add]
    exact options.peers_fit
  have hnone :
      ∀ {α : Type} (read : Argument → Option α), (∀ addr n, read (.peer addr n) = none) →
      (options.peers.map fun peer => Argument.peer peer.1 peer.2).filterMap read = [] := by
    intro α read hread
    rw [List.filterMap_eq_nil_iff]
    intro argument hargument
    obtain ⟨peer, -, rfl⟩ := List.mem_map.mp hargument
    exact hread _ _
  have hpeers : (options.peers.map fun peer => Argument.peer peer.1 peer.2).filterMap
      Argument.peerOf = options.peers := by
    rw [List.filterMap_map]
    exact List.filterMap_some
  refine ⟨settings, ?_, ?_, ?_, ?_, ?_⟩
  · rw [hrun, hrefused]
  · rw [hreads.port, harguments, lastOf, List.filterMap_append, hnone _ fun _ _ => rfl]
    rfl
  · rw [hreads.backlog, harguments, lastOf, List.filterMap_append, hnone _ fun _ _ => rfl]
    rfl
  · rw [hreads.shouldListen, harguments, lastOf, List.filterMap_append, hnone _ fun _ _ => rfl]
    rfl
  · rw [hreads.peers_eq, harguments, List.filterMap_append, hpeers]
    exact List.take_of_length_le options.peers_fit

/-- Two peers, the second with the longest address that fits. -/
def twoPeers : Options where
  port := 1962
  backlog := 64
  shouldListen := 1
  peers := [(ascii "127.0.0.1", 1961), (ascii "255.255.255.255", 65535)]
  peers_fit := by decide
  addresses := by
    have hplain :
        ∀ peer ∈ [(ascii "127.0.0.1", (1961 : Int32)), (ascii "255.255.255.255", 65535)],
        peer.1 ≠ [] ∧ peer.1.length ≤ 15 ∧ ∀ c ∈ peer.1, c ≠ 39 ∧ c ≠ 58 := by
      decide +kernel
    intro peer hpeer
    obtain ⟨hne, hshort, hchars⟩ := hplain peer hpeer
    exact ⟨hne, hshort, hchars⟩

theorem options_round_trip_pair : ∃ settings, parseArguments (fun _ => 0) [ascii "whosecoin",
      ascii "-port=1962", ascii "-backlog=64", ascii "-should-listen=1",
      ascii "-connect=127.0.0.1:1961", ascii "-connect=255.255.255.255:65535"] settingsCreate =
        .ok (settings, []) ∧
    settings.port = 1962 ∧ settings.backlog = 64 ∧ settings.shouldListen = 1 ∧
    peersOf settings = [(ascii "127.0.0.1", 1961), (ascii "255.255.255.255", 65535)] := by
  have hargs : twoPeers.args = [ascii "-port=1962", ascii "-backlog=64", ascii "-should-listen=1",
      ascii "-connect=127.0.0.1:1961", ascii "-connect=255.255.255.255:65535"] := by
    decide +kernel
  have hread := options_round_trip (fun _ => 0) (ascii "whosecoin") twoPeers
  rw [hargs] at hread
  exact hread

end RoundTrip

end Whosecoin.ProgramArguments
