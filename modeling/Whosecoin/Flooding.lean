import Whosecoin.Library.Flooding
import Whosecoin.NetworkCalls

/-!
Every run of a network of nodes is a run of the abstract flooding of guids, where a call
of a handler is an item that is handled.
-/

namespace Whosecoin.Flooding

open Library.Outcomes
open Cryptography
open TupleParser
open Messages
open Networks
open Handlers
open NetworkCalls

variable {ι α : Type}

/-- Handlers that change their network by nothing but its operations. -/
structure Application (α : Type) where
  handlers : UInt16 → Option (Handler α)
  calls : ∀ (type : UInt16) (handler : Handler α) (socket : Nat) (msg : Option Tuple)
    (a b : Node α), handlers type = some handler → handler socket msg a = .ok b →
      ∃ calls, runAll a.network calls = .ok b.network

/-- The handlers of `main.c`. -/
def whosecoin (S : Sodium) : Application Globals where
  handlers := handlers S
  calls := by
    intro type handler socket msg a b hhandler h
    rcases handlers_makes hhandler h with ⟨calls, hcalls, -⟩ |
      ⟨-, -, -, -, calls, hcalls, -⟩
    · exact ⟨calls, hcalls⟩
    · exact ⟨calls, hcalls⟩

namespace Application

variable (A : Application α)

/-- A message of this type is handed to a handler. -/
def Dispatches (type : UInt16) : Prop :=
  type.toNat < eventCount ∧ (A.handlers type).isSome

instance (type : UInt16) : Decidable (A.Dispatches type) :=
  inferInstanceAs (Decidable (_ ∧ _))

/-- Messages of this type reach a handler. -/
def Registered (type : UInt32) : Prop :=
  A.Dispatches type.toUInt16

end Application

/-- A call of `network_broadcast` by the application. -/
structure Broadcast (ι : Type) where
  guid : Guid
  origin : ι
  type : UInt32

/-- The handlers, with a count of their calls beside the application. -/
def counted (handlers : UInt16 → Option (Handler α)) : UInt16 → Option (Handler (α × Nat)) :=
  fun type => (handlers type).map fun handler socket msg node => do
    let node' ← handler socket msg ⟨node.network, node.application.1⟩
    return ⟨node'.network, (node'.application, node.application.2 + 1)⟩

/-- The node with a count of calls beside its application. -/
def withCalls (calls : Nat) (node : Node α) : Node (α × Nat) :=
  ⟨node.network, (node.application, calls)⟩

/-- The nodes, the messages on their way from each of their sockets, and what has
happened so far: the guids that each history has received, the broadcasts, and for each
call of a handler the node and the guid of the message. -/
structure Config (ι α : Type) where
  node : ι → Node α
  channel : ι → Nat → List (List UInt8)
  log : ι → List Guid
  broadcasts : List (Broadcast ι)
  dispatched : List (ι × Guid)

/-- The part of the writes that goes to a socket. -/
def sentTo (writes : List (Nat × List UInt8)) (socket : Nat) : List (List UInt8) :=
  (writes.filter fun write => write.1 = socket).map Prod.snd

/-- The broadcast that a call starts. -/
def started (i : ι) : Call → Option (Broadcast ι)
  | .broadcast guid type _ => some ⟨guid, i, type⟩
  | _ => none

section Steps

variable [DecidableEq ι]

namespace Config

variable (c : Config ι α) (i : ι)

/-- The node's network becomes this one, and what has been written is on its way. -/
def put (network : Network) : Config ι α :=
  { c with
    node := Function.update c.node i { c.node i with network := network }
    channel := Function.update c.channel i fun s =>
      c.channel i s ++ sentTo (network.written.drop (c.node i).network.written.length) s }

/-- The handler calls and the broadcasts that a step adds. -/
def record (guids : List Guid) (broadcasts : List (Broadcast ι)) : Config ι α :=
  { c with
    log := Function.update c.log i (c.log i ++ guids)
    broadcasts := c.broadcasts ++ broadcasts }

def apply (application : α) : Config ι α :=
  { c with node := Function.update c.node i { c.node i with application := application } }

def take (s : Nat) : Config ι α :=
  { c with channel :=
      Function.update c.channel i (Function.update (c.channel i) s (c.channel i s).tail) }

/-- A message with this guid has made so many calls of handlers. -/
def dispatch (guid : Guid) (calls : Nat) : Config ι α :=
  { c with dispatched := c.dispatched ++ List.replicate calls (i, guid) }

end Config

/-- A node calls its network. The connections are fixed, so that nobody disconnects. -/
def Act (i : ι) (c c' : Config ι α) : Prop :=
  ∃ call network, Call.closed call = none ∧ call.run (c.node i).network = .ok network ∧
    c' = (c.put i network).record i call.recorded.toList (started i call).toList

/-- How a node takes a message: it knows the guid, or its handler makes calls, and
then the guid is recorded and the message sent on, unless the guid is null. -/
inductive Takes (i : ι) (c : Config ι α) (message : List UInt8) : Config ι α → Prop where
  | known {guid : Guid} (hguid : messageGetGuid message = .ok guid) (hne : guid ≠ guidNull)
      (hknown : guid ∈ (c.node i).network.messageHistory) : Takes i c message c
  | direct {c₁ : Config ι α} (hguid : messageGetGuid message = .ok guidNull)
      (hacts : Relation.ReflTransGen (Act i) c c₁) : Takes i c message c₁
  | relayed {guid : Guid} {c₁ : Config ι α} {network : Network}
      (hguid : messageGetGuid message = .ok guid) (hne : guid ≠ guidNull)
      (hnew : guid ∉ (c.node i).network.messageHistory)
      (hacts : Relation.ReflTransGen (Act i) c c₁)
      (hrelay : broadcastMessage (messageHistoryAdd (c₁.node i).network guid) message =
        .ok network) :
      Takes i c message ((c₁.put i network).record i [guid] [])

variable (A : Application α)

variable (far : ι → Nat → Option (ι × Nat))

/-- A node changes its application, calls its network, or handles the next message of
a socket, with the calls of handlers that this makes; `far` tells which sockets of which
nodes are connected. -/
inductive Step (c : Config ι α) : Config ι α → Prop where
  | internal (i : ι) (application : α) : Step c (c.apply i application)
  | act {i : ι} {c' : Config ι α} (hact : Act i c c') : Step c c'
  | deliver {i j : ι} {s t : Nat} {message after : List UInt8} {rest : List (List UInt8)}
      {guid : Guid} {node : Node (α × Nat)} {c₁ : Config ι α} (hfar : far i s = some (j, t))
      (hhead : c.channel i s = message :: rest) (hguid : messageGetGuid message = .ok guid)
      (hrun : handleMessage (counted A.handlers) t (withCalls 0 (c.node j))
        (message ++ after) message.length = .ok node)
      (htakes : Takes j c message c₁) (hnode : (c₁.node j).network = node.network) :
      Step c (((c₁.apply j node.application.1).take i s).dispatch j guid node.application.2)

/-- The connections have been made, and nothing has been sent. -/
structure Start (c : Config ι α) : Prop where
  sockets : ∀ i s, s ∈ sockets (c.node i).network ↔ (far i s).isSome
  history : ∀ i, (c.node i).network.messageHistory = []
  channel : ∀ i s, c.channel i s = []
  log : ∀ i, c.log i = []
  broadcasts : c.broadcasts = []
  dispatched : c.dispatched = []

/-- No history has received more than 1024 entries, and the guids are fresh. -/
structure Bounded (c : Config ι α) : Prop where
  within : ∀ i, (c.log i).length ≤ messageHistorySize
  nodup : (c.broadcasts.map Broadcast.guid).Nodup
  non_null : ∀ b ∈ c.broadcasts, b.guid ≠ guidNull

end Steps

section Counting

variable (A : Application α) {t : Nat}

/-- The calls of handlers that a message of this type makes. -/
def Application.calledFor (type : UInt16) : Nat :=
  if A.Dispatches type then 1 else 0

theorem dispatch_counted (type : UInt16) (buffer : Buffer) (self : Node α) :
    dispatch (counted A.handlers) t type buffer (withCalls 0 self) =
      (dispatch A.handlers t type buffer self).map (withCalls (A.calledFor type)) := by
  have hcalled : A.calledFor type =
      if type.toNat < eventCount ∧ (A.handlers type).isSome then 1 else 0 := rfl
  rw [dispatch, dispatch, hcalled, counted]
  by_cases htype : type.toNat < eventCount
  · rw [if_pos htype, if_pos htype]
    cases A.handlers type with
    | none =>
        rw [if_neg (fun h => Bool.false_ne_true h.2)]
        rfl
    | some handler =>
        rw [if_pos ⟨htype, rfl⟩]
        change (tupleParse buffer >>= _) = (tupleParse buffer >>= _).map _
        cases tupleParse buffer with
        | error e => rfl
        | ok msg =>
            rw [ok_bind, ok_bind]
            change (handler t msg self >>= _) >>= _ = (handler t msg self >>= _).map _
            cases handler t msg self with
            | error e => rfl
            | ok node => cases tupleDestroy msg <;> rfl
  · rw [if_neg htype, if_neg htype, if_neg (fun h => htype h.1)]
    rfl

/-- The count changes nothing else; a handler is called once, unless the guid is known
or nothing is registered for the type. -/
theorem handleMessage_counted (guid : Guid) (event : UInt32) (buffer after : List UInt8)
    (self : Node α) :
    handleMessage (counted A.handlers) t (withCalls 0 self)
        (messageCreate guid event buffer ++ after) (messageCreate guid event buffer).length =
      (handleMessage A.handlers t self (messageCreate guid event buffer ++ after)
        (messageCreate guid event buffer).length).map
          (withCalls (if guid ≠ guidNull ∧ guid ∈ self.network.messageHistory then 0
            else A.calledFor event.toUInt16)) := by
  obtain ⟨hguid, hlength, htype⟩ := fields_of_header (at_messageCreate guid event buffer after)
  rw [handleMessage, handleMessage, hguid, ok_bind, hlength, ok_bind, htype, ok_bind, ok_bind,
    ok_bind, ok_bind]
  simp only [dispatch_counted]
  have hmem := GossipWindow.messageHistoryHas_iff self.network guid
  by_cases hnull : guidIsNull guid = true
  · rw [if_pos hnull, if_pos hnull, if_neg (fun h => h.1 ((guidIsNull_iff guid).mp hnull))]
  have hne := mt (guidIsNull_iff guid).mpr hnull
  rw [if_neg hnull, if_neg hnull]
  by_cases hhas : messageHistoryHas self.network guid = true
  · have hskip : ¬ (!messageHistoryHas self.network guid) = true := by simp [hhas]
    rw [withCalls, if_neg hskip, if_neg hskip, if_pos ⟨hne, hmem.mp hhas⟩]
    rfl
  · have hnew : (!messageHistoryHas self.network guid) = true := by simpa using hhas
    rw [withCalls, if_pos hnew, if_pos hnew, if_neg (fun hknown => hhas (hmem.mpr hknown.2))]
    generalize List.take (messageCreate guid event buffer).length
      (messageCreate guid event buffer ++ after) = bytes
    generalize dispatch A.handlers t event.toUInt16 _ self = outcome
    cases outcome with
    | error e => rfl
    | ok node =>
        cases hrelay : broadcastMessage (messageHistoryAdd node.network guid) bytes with
        | error e => simp only [Except.map, ok_bind, withCalls, hrelay, error_bind]
        | ok network => simp only [Except.map, ok_bind, withCalls, hrelay, pure_eq_ok]

theorem plain_of_counted {guid : Guid} {event : UInt32} {buffer after : List UInt8}
    {self : Node α} {node : Node (α × Nat)}
    (hrun : handleMessage (counted A.handlers) t (withCalls 0 self)
      (messageCreate guid event buffer ++ after) (messageCreate guid event buffer).length =
        .ok node) :
    handleMessage A.handlers t self (messageCreate guid event buffer ++ after)
        (messageCreate guid event buffer).length = .ok ⟨node.network, node.application.1⟩ ∧
      node.application.2 =
        if guid ≠ guidNull ∧ guid ∈ self.network.messageHistory then 0
        else A.calledFor event.toUInt16 := by
  rw [handleMessage_counted] at hrun
  cases hplain : handleMessage A.handlers t self (messageCreate guid event buffer ++ after)
      (messageCreate guid event buffer).length with
  | error e =>
      rw [hplain] at hrun
      cases hrun
  | ok plain =>
      rw [hplain] at hrun
      cases hrun
      exact ⟨rfl, rfl⟩

end Counting

section Coverage

variable [DecidableEq ι] (A : Application α)

theorem network_put (c : Config ι α) (i j : ι) (network : Network) :
    ((c.put i network).node j).network = if j = i then network else (c.node j).network := by
  change (Function.update c.node i { c.node i with network := network } j).network = _
  split_ifs with heq
  · rw [heq, Function.update_self]
  · rw [Function.update_of_ne heq]

theorem exists_acts {i : ι} {c : Config ι α} {network : Network} {calls : List Call}
    (hrun : runAll (c.node i).network calls = .ok network)
    (hclosed : calls.filterMap Call.closed = []) :
    ∃ c', Relation.ReflTransGen (Act i) c c' ∧ (c'.node i).network = network := by
  induction calls generalizing c with
  | nil =>
      cases hrun
      exact ⟨c, .refl, rfl⟩
  | cons call calls ih =>
      rw [runAll, List.foldlM_cons, bind_eq_ok] at hrun
      obtain ⟨next, hcall, hrest⟩ := hrun
      have hnone : call.closed = none := by
        rw [List.filterMap_cons] at hclosed
        split at hclosed
        · assumption
        · cases hclosed
      have hact : Act i c _ := ⟨call, next, hnone, hcall, rfl⟩
      rw [List.filterMap_cons_none hnone] at hclosed
      obtain ⟨c', hacts, hc'⟩ := @ih
        ((c.put i next).record i call.recorded.toList (started i call).toList)
        ((congrArg (fun self => runAll self calls) ((network_put c i i next).trans
          (if_pos rfl))).trans hrest) hclosed
      exact ⟨c', .head hact hacts, hc'⟩

theorem exists_acts_of_dispatch {i : ι} {c : Config ι α} {t : Nat} {type : UInt16}
    {buffer : Buffer} {node : Node α}
    (h : dispatch A.handlers t type buffer (c.node i) = .ok node)
    (hclosing : node.network.closing = (c.node i).network.closing) :
    ∃ c', Relation.ReflTransGen (Act i) c c' ∧ (c'.node i).network = node.network := by
  rw [dispatch] at h
  split at h
  · cases h
    exact ⟨c, .refl, rfl⟩
  · rename_i handler hhandler
    split_ifs at hhandler
    simp only [bind_eq_ok] at h
    obtain ⟨msg, -, node', hhandle, -, -, h⟩ := h
    cases h
    obtain ⟨calls, hcalls⟩ := A.calls type handler t msg _ _ hhandler hhandle
    refine exists_acts hcalls ?_
    have heffect := (effects_of_runAll hcalls).closing
    rw [hclosing] at heffect
    exact List.self_eq_append_right.mp heffect

/-- Whatever `handle_message` does to a message is one of the steps. -/
theorem exists_takes {i : ι} {c : Config ι α} {t : Nat} {guid : Guid} {event : UInt32}
    {buffer after : List UInt8} {node : Node (α × Nat)}
    (hcounted : handleMessage (counted A.handlers) t (withCalls 0 (c.node i))
      (messageCreate guid event buffer ++ after) (messageCreate guid event buffer).length =
        .ok node)
    (hclosing : node.network.closing = (c.node i).network.closing) :
    ∃ c', Takes i c (messageCreate guid event buffer) c' ∧
      (c'.node i).network = node.network := by
  obtain ⟨hguid, hlength, htype⟩ := fields_of_header (at_messageCreate guid event buffer after)
  obtain ⟨hguid', -, -⟩ := fields_of_header (at_messageCreate guid event buffer [])
  rw [List.append_nil] at hguid'
  obtain ⟨hrun, -⟩ := plain_of_counted A hcounted
  rw [handleMessage, hguid, ok_bind, hlength, ok_bind, htype, ok_bind, List.take_left] at hrun
  split_ifs at hrun with hnull hhas
  · obtain rfl := (guidIsNull_iff guid).mp hnull
    obtain ⟨c₁, hacts, hc₁⟩ := exists_acts_of_dispatch A hrun hclosing
    exact ⟨_, .direct hguid' hacts, hc₁⟩
  · rw [bind_eq_ok] at hrun
    obtain ⟨mid, hdispatch, hrun⟩ := hrun
    rw [bind_eq_ok] at hrun
    obtain ⟨network, hrelay, hrun⟩ := hrun
    obtain ⟨hnetwork, -⟩ := Node.mk.inj (Except.ok.inj hrun)
    have hmid : mid.network.closing = (c.node i).network.closing := by
      rw [← hclosing, ← hnetwork, broadcastMessage_sockets hrelay]
      rfl
    obtain ⟨c₁, hacts, hc₁⟩ := exists_acts_of_dispatch A hdispatch hmid
    have hnew : guid ∉ (c.node i).network.messageHistory := by
      rw [← GossipWindow.messageHistoryHas_iff]
      simpa using hhas
    have hne : guid ≠ guidNull := by
      intro heq
      exact hnull ((guidIsNull_iff guid).mpr heq)
    rw [← hc₁] at hrelay
    refine ⟨_, .relayed hguid' hne hnew hacts hrelay, ?_⟩
    rw [← hnetwork]
    exact (network_put _ i i network).trans (if_pos rfl)
  · obtain ⟨hnetwork, -⟩ := Node.mk.inj (Except.ok.inj hrun)
    have hknown : guid ∈ (c.node i).network.messageHistory := by
      rw [← GossipWindow.messageHistoryHas_iff]
      simpa using hhas
    have hne : guid ≠ guidNull := by
      intro heq
      exact hnull ((guidIsNull_iff guid).mpr heq)
    exact ⟨c, .known hguid' hne hknown, hnetwork⟩

end Coverage

section Growth

variable {A : Application α} {far : ι → Nat → Option (ι × Nat)}
  {c c' : Config ι α} {i : ι}

/-- What has happened stays there. -/
structure Grows (c c' : Config ι α) : Prop where
  log : ∀ i, c.log i <+: c'.log i
  broadcasts : c.broadcasts <+: c'.broadcasts

theorem Grows.refl (c : Config ι α) : Grows c c :=
  ⟨fun _ => List.prefix_refl _, List.prefix_refl _⟩

theorem Grows.trans {c'' : Config ι α} (h : Grows c c') (h' : Grows c' c'') : Grows c c'' :=
  ⟨fun i => (h.log i).trans (h'.log i), h.broadcasts.trans h'.broadcasts⟩

theorem Bounded.of_grows (h : Bounded c') (hgrows : Grows c c') : Bounded c where
  within := fun i => (hgrows.log i).length_le.trans (h.within i)
  nodup := h.nodup.sublist (hgrows.broadcasts.map _).sublist
  non_null := fun b hb => h.non_null b (hgrows.broadcasts.mem hb)

variable [DecidableEq ι]

theorem log_record (c : Config ι α) (i j : ι) (guids : List Guid)
    (broadcasts : List (Broadcast ι)) : (c.record i guids broadcasts).log j =
      c.log j ++ if j = i then guids else [] := by
  change Function.update c.log i (c.log i ++ guids) j = _
  split_ifs with heq
  · rw [heq, Function.update_self]
  · rw [Function.update_of_ne heq, List.append_nil]

theorem grows_record (c : Config ι α) (i : ι) (network : Network) (guids : List Guid)
    (broadcasts : List (Broadcast ι)) :
    Grows c ((c.put i network).record i guids broadcasts) where
  log := by
    intro j
    rw [log_record]
    exact List.prefix_append _ _
  broadcasts := List.prefix_append _ _

theorem grows_act (h : Act i c c') : Grows c c' := by
  obtain ⟨call, network, -, -, rfl⟩ := h
  exact grows_record c i network _ _

theorem grows_acts (h : Relation.ReflTransGen (Act i) c c') : Grows c c' := by
  induction h with
  | refl => exact .refl c
  | tail _ hact ih => exact ih.trans (grows_act hact)

theorem grows_takes {message : List UInt8} (h : Takes i c message c') : Grows c c' := by
  cases h with
  | known => exact .refl c
  | direct hguid hacts => exact grows_acts hacts
  | @relayed guid c₁ network hguid hne hnew hacts hrelay =>
      exact (grows_acts hacts).trans (grows_record c₁ i network [guid] [])

theorem grows_step (h : Step A far c c') : Grows c c' := by
  cases h with
  | internal i application => exact ⟨fun _ => List.prefix_refl _, List.prefix_refl _⟩
  | act hact => exact grows_act hact
  | deliver hfar hhead hguid hrun htakes hnode =>
      exact ⟨(grows_takes htakes).log, (grows_takes htakes).broadcasts⟩

end Growth

section Channels

variable {c : Config ι α} {i j : ι} {s : Nat} {network : Network}
  {writes : List (Nat × List UInt8)}

/-- The guid of a message that is to be sent on. -/
def flooded (message : List UInt8) : Option Guid :=
  match messageGetGuid message with
  | .ok guid => if guid = guidNull then none else some guid
  | .error _ => none

theorem flooded_eq {message : List UInt8} {guid : Guid} (h : messageGetGuid message = .ok guid)
    (hne : guid ≠ guidNull) : flooded message = some guid := by
  simp only [flooded, h, if_neg hne]

theorem flooded_null {message : List UInt8} (h : messageGetGuid message = .ok guidNull) :
    flooded message = none := by
  simp only [flooded, h, if_true]

theorem mem_sentTo_iff {message : List UInt8} :
    message ∈ sentTo writes s ↔ (s, message) ∈ writes := by
  simp only [sentTo, List.mem_map, List.mem_filter, decide_eq_true_eq]
  constructor
  · rintro ⟨⟨socket, message'⟩, ⟨hmem, rfl⟩, rfl⟩
    exact hmem
  · intro hmem
    exact ⟨(s, message), ⟨hmem, rfl⟩, rfl⟩

variable [DecidableEq ι]

theorem channel_put (hwritten : network.written = (c.node i).network.written ++ writes) :
    (c.put i network).channel j s = c.channel j s ++ if j = i then sentTo writes s else [] := by
  change Function.update c.channel i (fun s => c.channel i s ++
    sentTo (network.written.drop (c.node i).network.written.length) s) j s = _
  rw [hwritten, List.drop_left]
  split_ifs with heq
  · rw [heq, Function.update_self]
  · rw [Function.update_of_ne heq, List.append_nil]

theorem channel_take (c : Config ι α) (i j : ι) (s u : Nat) :
    (c.take i s).channel j u = if j = i ∧ u = s then (c.channel i s).tail else c.channel j u := by
  change Function.update c.channel i
    (Function.update (c.channel i) s (c.channel i s).tail) j u = _
  split_ifs with heq
  · rw [heq.1, heq.2, Function.update_self, Function.update_self]
  · rcases eq_or_ne j i with rfl | hne
    · rw [Function.update_self, Function.update_of_ne (fun hu => heq ⟨rfl, hu⟩)]
    · rw [Function.update_of_ne hne]

theorem channel_act {c' : Config ι α} (h : Act i c c') {message : List UInt8}
    {rest : List (List UInt8)} (hhead : c.channel j s = message :: rest) :
    ∃ rest', c'.channel j s = message :: rest' := by
  obtain ⟨call, network, -, hrun, rfl⟩ := h
  have hchannel := @channel_put _ _ c i j s network _ _ (effects_of_run hrun).written
  rw [hhead, List.cons_append] at hchannel
  exact ⟨_, hchannel⟩

theorem channel_acts {c' : Config ι α} (h : Relation.ReflTransGen (Act i) c c')
    {message : List UInt8} {rest : List (List UInt8)} (hhead : c.channel j s = message :: rest) :
    ∃ rest', c'.channel j s = message :: rest' := by
  induction h with
  | refl => exact ⟨rest, hhead⟩
  | tail _ hact ih =>
      obtain ⟨rest', hhead'⟩ := ih
      exact channel_act hact hhead'

end Channels

/-- The configuration, seen as a network that floods guids. -/
structure Shows [DecidableEq ι] (A : Application α) (far : ι → Nat → Option (ι × Nat))
    (c : Config ι α) (a : Library.Flooding.State ι Nat Guid) : Prop where
  history : ∀ i, (c.node i).network.messageHistory = c.log i
  linked : ∀ i s j t, far i s = some (j, t) → s ∈ sockets (c.node i).network
  known : ∀ i guid, guid ≠ guidNull → (guid ∈ c.log i ↔ guid ∈ a.known i)
  channel : ∀ i s, (c.channel i s).map flooded = a.channel i s
  sent : ∀ i s, ∀ message ∈ c.channel i s, ∃ guid type buffer,
    message = messageCreate guid type buffer ∧
      (guid ≠ guidNull → ∃ b ∈ c.broadcasts, b.guid = guid ∧ b.type = type)
  origin : ∀ guid i, a.origin guid = some i ↔
    ∃ b ∈ c.broadcasts, b.guid = guid ∧ b.origin = i
  handled : ∀ guid, guid ≠ guidNull →
    (∀ b ∈ c.broadcasts, b.guid = guid → A.Registered b.type) →
      ∀ i, c.dispatched.count (i, guid) = a.handled i guid

section Simulation

variable [DecidableEq ι] {A : Application α} {far : ι → Nat → Option (ι × Nat)}
  {c c' : Config ι α} {a : Library.Flooding.State ι Nat Guid} {i j : ι}

theorem foldl_historyAdd_of_le {history guids : List Guid}
    (h : (history ++ guids).length ≤ messageHistorySize) :
    guids.foldl historyAdd history = history ++ guids := by
  induction guids generalizing history with
  | nil => rw [List.foldl_nil, List.append_nil]
  | cons guid guids ih =>
      rw [List.append_cons] at h ⊢
      rw [List.foldl_cons, historyAdd, if_neg ?_]
      · exact ih h
      · simp only [List.length_append, List.length_singleton] at h
        omega

/-- What a node writes and records, as it is seen from above. -/
structure Written (c : Config ι α) (i : ι) (network : Network) (guids : List Guid)
    (broadcasts : List (Broadcast ι)) (writes : List (Nat × List UInt8)) : Prop where
  sockets : sockets network = NetworkCalls.sockets (c.node i).network
  history : network.messageHistory = guids.foldl historyAdd (c.node i).network.messageHistory
  written : network.written = (c.node i).network.written ++ writes
  sent : ∀ write ∈ writes, ∃ guid type buffer, write.2 = messageCreate guid type buffer ∧
    (guid ≠ guidNull → ∃ b ∈ c.broadcasts ++ broadcasts, b.guid = guid ∧ b.type = type)

section Written

variable {network : Network} {guids : List Guid} {broadcasts : List (Broadcast ι)}
  {writes : List (Nat × List UInt8)}

theorem Written.history_eq (h : Written c i network guids broadcasts writes)
    (hbounded : Bounded ((c.put i network).record i guids broadcasts))
    (hhistory : ∀ j, (c.node j).network.messageHistory = c.log j) (j : ι) :
    (((c.put i network).record i guids broadcasts).node j).network.messageHistory =
      ((c.put i network).record i guids broadcasts).log j := by
  have hwithin := hbounded.within i
  rw [log_record, if_pos rfl] at hwithin
  rw [log_record]
  change ((c.put i network).node j).network.messageHistory = c.log j ++ _
  rw [network_put]
  split_ifs with heq
  · rw [heq, h.history, hhistory i]
    exact foldl_historyAdd_of_le hwithin
  · rw [hhistory j, List.append_nil]

theorem Written.linked (h : Written c i network guids broadcasts writes)
    (hlinked : ∀ j s k t, far j s = some (k, t) →
      s ∈ NetworkCalls.sockets (c.node j).network) {j k : ι} {s t : Nat}
    (hfar : far j s = some (k, t)) :
    s ∈ NetworkCalls.sockets (((c.put i network).record i guids broadcasts).node j).network := by
  change s ∈ NetworkCalls.sockets ((c.put i network).node j).network
  rw [network_put]
  split_ifs with heq
  · rw [h.sockets, ← heq]
    exact hlinked j s k t hfar
  · exact hlinked j s k t hfar

theorem Written.sent_of_mem (h : Written c i network guids broadcasts writes)
    (hsent : ∀ j s, ∀ message ∈ c.channel j s, ∃ guid type buffer,
      message = messageCreate guid type buffer ∧
        (guid ≠ guidNull → ∃ b ∈ c.broadcasts, b.guid = guid ∧ b.type = type))
    {s : Nat} {message : List UInt8} (hmem : message ∈ (c.put i network).channel j s) :
    ∃ guid type buffer, message = messageCreate guid type buffer ∧
      (guid ≠ guidNull → ∃ b ∈ c.broadcasts ++ broadcasts, b.guid = guid ∧
        b.type = type) := by
  rw [channel_put h.written, List.mem_append] at hmem
  rcases hmem with hmem | hmem
  · obtain ⟨guid, type, buffer, hmessage, hfrom⟩ := hsent j s message hmem
    refine ⟨guid, type, buffer, hmessage, ?_⟩
    intro hne
    obtain ⟨b, hb, heq⟩ := hfrom hne
    exact ⟨b, List.mem_append_left _ hb, heq⟩
  · split_ifs at hmem
    · exact h.sent _ (mem_sentTo_iff.mp hmem)
    · cases hmem

theorem Written.channel_eq (h : Written c i network guids broadcasts writes)
    (hchannel : ∀ j s, (c.channel j s).map flooded = a.channel j s) (j : ι) (s : Nat) :
    ((c.put i network).channel j s).map flooded =
      Library.Flooding.push a.channel i (fun s => (sentTo writes s).map flooded) j s := by
  rw [channel_put h.written, List.map_append, hchannel, Library.Flooding.push_apply]
  split_ifs
  · rfl
  · rfl

end Written

omit [DecidableEq ι] in
theorem written_of_call {call : Call} {network : Network}
    (hrun : call.run (c.node i).network = .ok network) :
    Written c i network call.recorded.toList (started i call).toList
      (call.written (sockets (c.node i).network)) := by
  have heffects := effects_of_run hrun
  refine ⟨heffects.sockets, ?_, ?_, ?_⟩
  · rw [heffects.history]
    cases call <;> rfl
  · rw [heffects.written, List.flatMap_singleton]
  · intro write hwrite
    cases call with
    | broadcast guid type buffer =>
        obtain ⟨socket, -, rfl⟩ := List.mem_map.mp hwrite
        refine ⟨guid, type, buffer, rfl, ?_⟩
        intro _
        exact ⟨⟨guid, i, type⟩, List.mem_append_right _ (List.mem_singleton_self _),
          rfl, rfl⟩
    | send event buffer socket =>
        rw [List.mem_singleton.mp hwrite]
        exact ⟨guidNull, event, buffer, rfl, fun hne => absurd rfl hne⟩
    | connect => cases hwrite
    | disconnect => cases hwrite
    | setPort => cases hwrite

omit [DecidableEq ι] in
theorem null_of_started {call : Call} (h : started i call = none) (sockets : List Nat) :
    (∀ guid ∈ call.recorded.toList, guid = guidNull) ∧
      ∀ write ∈ call.written sockets, flooded write.2 = none := by
  cases call with
  | broadcast => cases h
  | send event buffer socket =>
      constructor
      · intro guid hguid
        exact List.mem_singleton.mp hguid
      · intro write hwrite
        rw [List.mem_singleton.mp hwrite]
        exact flooded_null (messageGetGuid_messageCreate _ _ _)
  | connect => exact ⟨fun _ h => (List.not_mem_nil h).elim,
    fun _ h => (List.not_mem_nil h).elim⟩
  | disconnect =>
      exact ⟨fun _ h => (List.not_mem_nil h).elim, fun _ h => (List.not_mem_nil h).elim⟩
  | setPort => exact ⟨fun _ h => (List.not_mem_nil h).elim,
    fun _ h => (List.not_mem_nil h).elim⟩

theorem Bounded.fresh {network : Network} {guids : List Guid} {broadcasts : List (Broadcast ι)}
    (h : Bounded ((c.put i network).record i guids broadcasts)) {b b' : Broadcast ι}
    (hb : b ∈ c.broadcasts) (hb' : b' ∈ broadcasts) : b.guid ≠ b'.guid := by
  have hnodup : ((c.broadcasts ++ broadcasts).map Broadcast.guid).Nodup := h.nodup
  rw [List.map_append, List.nodup_append] at hnodup
  exact hnodup.2.2 _ (List.mem_map_of_mem hb) _ (List.mem_map_of_mem hb')

theorem copies_of_sockets {guid : Guid} {message : List UInt8} (h : Shows A far c a)
    (hguid : messageGetGuid message = .ok guid) (hne : guid ≠ guidNull) (i : ι) :
    Library.Flooding.Copies far i guid fun s =>
      (sentTo ((sockets (c.node i).network).map fun socket => (socket, message)) s).map
        flooded where
  only := by
    intro s m hm
    obtain ⟨message', hmem, rfl⟩ := List.mem_map.mp hm
    obtain ⟨socket, -, heq⟩ := List.mem_map.mp (mem_sentTo_iff.mp hmem)
    cases heq
    exact flooded_eq hguid hne
  all := by
    intro s j t hfar
    refine List.mem_map.mpr ⟨message, mem_sentTo_iff.mpr ?_, flooded_eq hguid hne⟩
    exact List.mem_map.mpr ⟨s, h.linked i s j t hfar, rfl⟩

theorem shows_direct {call : Call} {network : Network} (h : Shows A far c a)
    (hrun : call.run (c.node i).network = .ok network) (hstarted : started i call = none)
    (hbounded : Bounded ((c.put i network).record i call.recorded.toList
      (started i call).toList)) :
    ∃ a', Library.Flooding.Step far a a' ∧
      Shows A far
        ((c.put i network).record i call.recorded.toList (started i call).toList) a' := by
  have hwritten := written_of_call hrun
  obtain ⟨hrecorded, hwrites⟩ := null_of_started hstarted (sockets (c.node i).network)
  rw [hstarted] at hwritten hbounded ⊢
  refine ⟨_, @Library.Flooding.Step.direct _ _ _ _ _ _ _ _ i
    (fun s => (sentTo (call.written (sockets (c.node i).network)) s).map flooded) ?_, ?_⟩
  · intro s m hm
    obtain ⟨message, hmem, rfl⟩ := List.mem_map.mp hm
    exact hwrites _ (mem_sentTo_iff.mp hmem)
  constructor
  · exact hwritten.history_eq hbounded h.history
  · intro j s k t hfar
    exact hwritten.linked h.linked hfar
  · intro j guid hne
    rw [log_record, List.mem_append, ← h.known j guid hne]
    apply or_iff_left
    intro hmem
    split_ifs at hmem
    · exact hne (hrecorded guid hmem)
    · cases hmem
  · exact hwritten.channel_eq h.channel
  · intro j s message hmem
    exact hwritten.sent_of_mem h.sent hmem
  · intro guid j
    change _ ↔ ∃ b ∈ c.broadcasts ++ [], _
    rw [List.append_nil]
    exact h.origin guid j
  · intro guid hne hregistered
    refine h.handled guid hne ?_
    intro b hb
    exact hregistered b (List.mem_append_left _ hb)

theorem known_record {known : ι → Set Guid} {guid guid' : Guid} {i j : ι}
    {broadcasts : List (Broadcast ι)} (h : guid' ∈ c.log j ↔ guid' ∈ known j) :
    guid' ∈ (c.record i [guid] broadcasts).log j ↔
      guid' ∈ Function.update known i (insert guid (known i)) j := by
  rw [log_record, List.mem_append, Library.Flooding.mem_learn_iff, ← h]
  apply or_congr_right
  split_ifs with heq
  · rw [List.mem_singleton, and_iff_right heq]
  · simp [heq]

theorem shows_broadcast {guid : Guid} {type : UInt32} {buffer : List UInt8} {network : Network}
    (h : Shows A far c a)
    (hrun : networkBroadcast (c.node i).network guid type buffer = .ok network)
    (hbounded : Bounded ((c.put i network).record i [guid] [⟨guid, i, type⟩])) :
    ∃ a', Library.Flooding.Step far a a' ∧
      Shows A far ((c.put i network).record i [guid] [⟨guid, i, type⟩]) a' := by
  have hwritten := @written_of_call _ _ c i (.broadcast guid type buffer) network hrun
  have hne : guid ≠ guidNull :=
    hbounded.non_null ⟨guid, i, type⟩ (List.mem_append_right _ (List.mem_singleton_self _))
  have hfresh : ∀ b ∈ c.broadcasts, b.guid ≠ guid := by
    intro b hb
    exact hbounded.fresh hb (List.mem_singleton_self (⟨guid, i, type⟩ : Broadcast ι))
  have hnew : a.origin guid = none := by
    by_contra hsome
    obtain ⟨j, horigin⟩ := Option.ne_none_iff_exists'.mp hsome
    obtain ⟨b, hb, heq, -⟩ := (h.origin guid j).mp horigin
    exact hfresh b hb heq
  refine ⟨_, .originate hnew (copies_of_sockets h
    (messageGetGuid_messageCreate guid type buffer) hne i), ?_⟩
  constructor
  · exact hwritten.history_eq hbounded h.history
  · intro j s k t hfar
    exact hwritten.linked h.linked hfar
  · intro j guid' hne'
    exact known_record (h.known j guid' hne')
  · exact hwritten.channel_eq h.channel
  · intro j s message hmem
    exact hwritten.sent_of_mem h.sent hmem
  · intro guid' j
    change Function.update a.origin guid (some i) guid' = some j ↔
      ∃ b ∈ c.broadcasts ++ [⟨guid, i, type⟩], _
    simp only [List.mem_append, List.mem_singleton, or_and_right, exists_or, exists_eq_left]
    rcases eq_or_ne guid' guid with rfl | hne'
    · rw [Function.update_self, Option.some.injEq, or_iff_right, and_iff_right rfl]
      rintro ⟨b, hb, heq, -⟩
      exact hfresh b hb heq
    · rw [Function.update_of_ne hne', h.origin, or_iff_left]
      rintro ⟨heq, -⟩
      exact hne' heq.symm
  · intro guid' hne' hregistered
    refine h.handled guid' hne' ?_
    intro b hb
    exact hregistered b (List.mem_append_left _ hb)

theorem shows_act (hbounded : Bounded c') (h : Shows A far c a) (hact : Act i c c') :
    ∃ a', Library.Flooding.Step far a a' ∧ Shows A far c' a' := by
  obtain ⟨call, network, -, hrun, rfl⟩ := hact
  cases call with
  | broadcast guid type buffer => exact shows_broadcast h hrun hbounded
  | _ => exact shows_direct h hrun rfl hbounded

theorem shows_acts (hbounded : Bounded c') (h : Shows A far c a)
    (hacts : Relation.ReflTransGen (Act i) c c') :
    ∃ a', Relation.ReflTransGen (Library.Flooding.Step far) a a' ∧ Shows A far c' a' := by
  induction hacts with
  | refl => exact ⟨a, .refl, h⟩
  | tail _ hact ih =>
      obtain ⟨a₁, hrun, h₁⟩ := ih (hbounded.of_grows (grows_act hact))
      obtain ⟨a₂, hstep, h₂⟩ := shows_act hbounded h₁ hact
      exact ⟨a₂, hrun.tail hstep, h₂⟩

/-- The handler of a message with this guid does not broadcast it again. -/
theorem log_acts {guid : Guid} {b : Broadcast ι} (hacts : Relation.ReflTransGen (Act i) c c')
    (hbounded : Bounded c') (hne : guid ≠ guidNull) (hb : b ∈ c.broadcasts)
    (hguid : b.guid = guid)
    {j : ι} (hmem : guid ∈ c'.log j) : guid ∈ c.log j := by
  induction hacts with
  | refl => exact hmem
  | tail hacts hact ih =>
      refine ih (hbounded.of_grows (grows_act hact)) ?_
      obtain ⟨call, network, -, -, rfl⟩ := hact
      rw [log_record, List.mem_append] at hmem
      refine hmem.resolve_right ?_
      intro hrecorded
      split_ifs at hrecorded
      · cases call with
        | broadcast guid' type buffer =>
            have heq : guid = guid' := List.mem_singleton.mp hrecorded
            have hold := (grows_acts hacts).broadcasts.mem hb
            refine hbounded.fresh
              hold (List.mem_singleton_self (⟨guid', i, type⟩ : Broadcast ι)) ?_
            exact hguid.trans heq
        | send event buffer socket => exact hne (List.mem_singleton.mp hrecorded)
        | connect => cases hrecorded
        | disconnect => cases hrecorded
        | setPort => cases hrecorded
      · cases hrecorded

theorem node_apply (c : Config ι α) (i j : ι) (application : α) :
    ((c.apply i application).node j).network = (c.node j).network := by
  change (Function.update c.node i { c.node i with application := application } j).network = _
  rcases eq_or_ne j i with rfl | hne
  · rw [Function.update_self]
  · rw [Function.update_of_ne hne]

theorem shows_apply (h : Shows A far c a) (i : ι) (application : α) :
    Shows A far (c.apply i application) a := by
  refine ⟨?_, ?_, h.known, h.channel, h.sent, h.origin, h.handled⟩
  · intro j
    rw [node_apply]
    exact h.history j
  · intro j s k t hfar
    rw [node_apply]
    exact h.linked j s k t hfar

theorem shows_take {message : List UInt8} {rest : List (List UInt8)} {s : Nat}
    (h : Shows A far c a) (hhead : c.channel i s = message :: rest) :
    Shows A far (c.take i s)
      { a with channel := Library.Flooding.pop a.channel i s (rest.map flooded) } := by
  refine ⟨h.history, h.linked, h.known, ?_, ?_, h.origin, h.handled⟩
  · intro j u
    rw [channel_take, hhead, List.tail_cons]
    refine Eq.trans ?_ (Library.Flooding.pop_apply a.channel i j s u (rest.map flooded)).symm
    split_ifs
    · rfl
    · exact h.channel j u
  · intro j u message' hmem
    rw [channel_take, hhead, List.tail_cons] at hmem
    split_ifs at hmem with heq
    · refine h.sent j u message' ?_
      rw [heq.1, heq.2, hhead]
      exact List.mem_cons_of_mem message hmem
    · exact h.sent j u message' hmem

theorem count_dispatch_of_ne {guid guid' : Guid} (hne : guid' ≠ guid) (calls : Nat) (i j : ι) :
    (List.replicate calls (i, guid)).count (j, guid') = 0 := by
  apply List.count_eq_zero_of_not_mem
  intro hmem
  exact hne (congrArg Prod.snd (List.eq_of_mem_replicate hmem))

theorem shows_dispatch_null (h : Shows A far c a) (i : ι) (calls : Nat) :
    Shows A far (c.dispatch i guidNull calls) a := by
  refine ⟨h.history, h.linked, h.known, h.channel, h.sent, h.origin, ?_⟩
  intro guid hne hregistered j
  change (c.dispatched ++ _).count (j, guid) = _
  rw [List.count_append, count_dispatch_of_ne hne]
  exact h.handled guid hne hregistered j

theorem shows_dispatch_none (h : Shows A far c a) (i : ι) (guid : Guid) :
    Shows A far (c.dispatch i guid 0) a := by
  refine ⟨h.history, h.linked, h.known, h.channel, h.sent, h.origin, ?_⟩
  change ∀ guid', _ → _ → ∀ j, (c.dispatched ++ []).count (j, guid') = _
  rw [List.append_nil]
  exact h.handled

theorem shows_relay {guid : Guid} {message : List UInt8} {network : Network}
    {b : Broadcast ι} (h : Shows A far c a)
    (hbounded : Bounded ((c.put i network).record i [guid] []))
    (hguid : messageGetGuid message = .ok guid) (hne : guid ≠ guidNull)
    (hrelay : broadcastMessage (messageHistoryAdd (c.node i).network guid) message = .ok network)
    (hb : b ∈ c.broadcasts) (hb_guid : b.guid = guid)
    (hmessage : ∃ guid type buffer, message = messageCreate guid type buffer ∧
      (guid ≠ guidNull → ∃ b ∈ c.broadcasts, b.guid = guid ∧ b.type = type)) :
    Shows A far
      (((c.put i network).record i [guid] []).dispatch i guid (A.calledFor b.type.toUInt16))
      { a with
        known := Function.update a.known i (insert guid (a.known i))
        channel := Library.Flooding.push a.channel i fun s =>
          (sentTo ((sockets (c.node i).network).map fun socket => (socket, message)) s).map
            flooded
        handled := Function.update a.handled i
          (Function.update (a.handled i) guid (a.handled i guid + 1)) } := by
  have hnetwork := broadcastMessage_sockets hrelay
  have hwritten : Written c i network [guid] []
      ((sockets (c.node i).network).map fun socket => (socket, message)) := by
    rw [hnetwork]
    refine ⟨rfl, rfl, rfl, ?_⟩
    intro write hwrite
    obtain ⟨socket, -, rfl⟩ := List.mem_map.mp hwrite
    rw [List.append_nil]
    exact hmessage
  constructor
  · exact hwritten.history_eq hbounded h.history
  · intro j s k t hfar
    exact hwritten.linked h.linked hfar
  · intro j guid' hne'
    have hlearn : guid' ∈ ((c.put i network).record i [guid] []).log j ↔ _ :=
      known_record (h.known j guid' hne')
    exact hlearn
  · exact hwritten.channel_eq h.channel
  · intro j s message' hmem
    exact hwritten.sent_of_mem h.sent hmem
  · intro guid' j
    change _ ↔ ∃ b ∈ c.broadcasts ++ [], _
    rw [List.append_nil]
    exact h.origin guid' j
  · intro guid' hne' hregistered j
    have hold := h.handled guid' hne' (fun b hb => hregistered b (List.mem_append_left _ hb)) j
    change (c.dispatched ++ _).count (j, guid') = Function.update a.handled i
      (Function.update (a.handled i) guid (a.handled i guid + 1)) j guid'
    rw [List.count_append, hold]
    rcases eq_or_ne guid' guid with rfl | hother
    · have hdispatches : A.Dispatches b.type.toUInt16 :=
        hregistered b (List.mem_append_left _ hb) hb_guid
      rw [Application.calledFor, if_pos hdispatches, List.replicate_one]
      rcases eq_or_ne j i with rfl | hne
      · rw [List.count_singleton_self, Function.update_self, Function.update_self]
      · have hnone : [(i, guid')].count (j, guid') = 0 := by
          apply List.count_eq_zero_of_not_mem
          intro hmem
          exact hne (congrArg Prod.fst (List.mem_singleton.mp hmem))
        rw [Function.update_of_ne hne, hnone, Nat.add_zero]
    · rw [count_dispatch_of_ne hother]
      rcases eq_or_ne j i with rfl | hne
      · rw [Function.update_self, Function.update_of_ne hother, Nat.add_zero]
      · rw [Function.update_of_ne hne, Nat.add_zero]

theorem shows_step (hbounded : Bounded c') (h : Shows A far c a) (hstep : Step A far c c') :
    ∃ a', Relation.ReflTransGen (Library.Flooding.Step far) a a' ∧ Shows A far c' a' := by
  cases hstep with
  | internal i application => exact ⟨a, .refl, shows_apply h i application⟩
  | act hact =>
      obtain ⟨a', hrun, h'⟩ := shows_act hbounded h hact
      exact ⟨a', .single hrun, h'⟩
  | @deliver i j s t message after rest guid node c₁ hfar hhead hguid hrun htakes hnode =>
      have hbounded₁ : Bounded c₁ := ⟨hbounded.within, hbounded.nodup, hbounded.non_null⟩
      have hmem : message ∈ c.channel i s := by
        rw [hhead]
        exact List.mem_cons_self
      obtain ⟨guid', event, buffer, rfl, hfrom⟩ := h.sent i s message hmem
      obtain rfl := Except.ok.inj ((messageGetGuid_messageCreate guid' event buffer).symm.trans
        hguid)
      obtain ⟨-, hcalls⟩ := plain_of_counted A hrun
      cases htakes with
      | known hguid' hne hknown =>
          obtain rfl := Except.ok.inj (hguid.symm.trans hguid')
          have hshown : a.channel i s =
              flooded (messageCreate guid' event buffer) :: rest.map flooded := by
            rw [← h.channel, hhead, List.map_cons]
          rw [hcalls, if_pos ⟨hne, hknown⟩]
          refine ⟨_, .single (.ignore hfar hshown ?_), shows_dispatch_none
            (shows_apply (shows_take h hhead) j node.application.1) j guid'⟩
          · intro item hitem
            rw [flooded_eq hguid hne, Option.some.injEq] at hitem
            rw [← hitem, ← h.known j guid' hne, ← h.history j]
            exact hknown
      | direct hguid' hacts =>
          obtain rfl := Except.ok.inj (hguid'.symm.trans hguid)
          obtain ⟨a₂, hrun₂, h₂⟩ := shows_acts hbounded₁ h hacts
          obtain ⟨rest₂, hhead₂⟩ := channel_acts hacts hhead
          have hshown : a₂.channel i s =
              flooded (messageCreate guidNull event buffer) :: rest₂.map flooded := by
            rw [← h₂.channel, hhead₂, List.map_cons]
          refine ⟨_, hrun₂.tail (.ignore hfar hshown ?_), shows_dispatch_null
            (shows_apply (shows_take h₂ hhead₂) j node.application.1) j node.application.2⟩
          · intro item hitem
            rw [flooded_null hguid] at hitem
            cases hitem
      | @relayed guid c₂ network hguid' hne hnew hacts hrelay =>
          obtain rfl := Except.ok.inj (hguid'.symm.trans hguid)
          have hbounded₂ : Bounded c₂ :=
            hbounded₁.of_grows (grows_record c₂ j network [guid] [])
          obtain ⟨a₂, hrun₂, h₂⟩ := shows_acts hbounded₂ h hacts
          obtain ⟨rest₂, hhead₂⟩ := channel_acts hacts hhead
          have hshown : a₂.channel i s = some guid :: rest₂.map flooded := by
            rw [← h₂.channel, hhead₂, List.map_cons, flooded_eq hguid hne]
          obtain ⟨b, hb, hb_guid, hb_type⟩ := hfrom hne
          have hunknown : guid ∉ a₂.known j := by
            rw [← h₂.known j guid hne]
            intro hlog
            rw [h.history j] at hnew
            exact hnew (log_acts hacts hbounded₂ hne hb hb_guid hlog)
          have hb₂ := (grows_acts hacts).broadcasts.mem hb
          have h₃ := shows_relay h₂ hbounded₁ hguid hne hrelay hb₂ hb_guid
            ⟨guid, event, buffer, rfl, fun _ => ⟨b, hb₂, hb_guid, hb_type⟩⟩
          have hhead₃ := @channel_put _ _ c₂ j i s network
            ((sockets (c₂.node j).network).map fun socket =>
              (socket, messageCreate guid event buffer)) _
            (by rw [broadcastMessage_sockets hrelay]; rfl)
          rw [hhead₂, List.cons_append] at hhead₃
          have htaken := shows_apply (shows_take h₃ hhead₃) j node.application.1
          rw [List.map_append, apply_ite (List.map flooded), List.map_nil] at htaken
          have hcopies := copies_of_sockets h₂ hguid hne j
          rw [hcalls, if_neg (fun hknown => hnew hknown.2), ← hb_type]
          refine ⟨_, hrun₂.tail (.accept hfar hshown hunknown hcopies), ?_⟩
          rw [← Library.Flooding.pop_push]
          exact htaken

omit [DecidableEq ι] in
theorem messageGetGuid_of_flooded {message : List UInt8} {guid : Guid}
    (h : flooded message = some guid) : messageGetGuid message = .ok guid := by
  rw [flooded] at h
  split at h
  · rename_i guid' hguid
    split_ifs at h
    rw [hguid, Option.some.inj h]
  · cases h

theorem shows_start (h : Start far c) : Shows A far c Library.Flooding.start := by
  constructor
  · intro i
    rw [h.history i, h.log i]
  · intro i s j t hfar
    rw [h.sockets i s, hfar]
    rfl
  · intro i guid _
    rw [h.log i]
    exact iff_of_false List.not_mem_nil (Set.notMem_empty guid)
  · intro i s
    rw [h.channel i s]
    rfl
  · intro i s message hmem
    rw [h.channel i s] at hmem
    cases hmem
  · intro guid i
    rw [h.broadcasts]
    constructor
    · intro horigin
      cases horigin
    · rintro ⟨b, hb, -⟩
      cases hb
  · intro guid _ _ i
    rw [h.dispatched]
    rfl

/-- Every run of the nodes is one of the flooding of guids. -/
theorem shows_run {c₀ : Config ι α} (hstart : Start far c₀)
    (hrun : Relation.ReflTransGen (Step A far) c₀ c) (hbounded : Bounded c) :
    ∃ a, Relation.ReflTransGen (Library.Flooding.Step far) Library.Flooding.start a ∧
      Shows A far c a := by
  induction hrun with
  | refl => exact ⟨_, .refl, shows_start hstart⟩
  | tail _ hstep ih =>
      obtain ⟨a₁, hrun₁, h₁⟩ := ih (hbounded.of_grows (grows_step hstep))
      obtain ⟨a₂, hrun₂, h₂⟩ := shows_step hbounded h₁ hstep
      exact ⟨a₂, hrun₁.trans hrun₂, h₂⟩

/-- A broadcast message is dispatched at most once at every node and never at its
originator, and once it is no longer under way it has been dispatched at every node
that the originator is connected to. -/
theorem exactly_once {c₀ : Config ι α} (hstart : Start far c₀)
    (hrun : Relation.ReflTransGen (Step A far) c₀ c) (hbounded : Bounded c)
    {b : Broadcast ι} (hb : b ∈ c.broadcasts) (hregistered : A.Registered b.type) :
    (∀ i, c.dispatched.count (i, b.guid) ≤ 1) ∧ c.dispatched.count (b.origin, b.guid) = 0 ∧
      ((∀ i s, ∀ message ∈ c.channel i s, messageGetGuid message ≠ .ok b.guid) →
        ∀ i, i ≠ b.origin → Relation.ReflTransGen (Library.Flooding.Linked far) b.origin i →
          c.dispatched.count (i, b.guid) = 1) := by
  obtain ⟨a, hflooding, h⟩ := shows_run hstart hrun hbounded
  have hinv := Library.Flooding.inv_run (Library.Flooding.inv_start far) hflooding
  have horigin : a.origin b.guid = some b.origin := (h.origin _ _).mpr ⟨b, hb, rfl, rfl⟩
  have hcount : ∀ i, c.dispatched.count (i, b.guid) = a.handled i b.guid := by
    refine h.handled b.guid (hbounded.non_null b hb) ?_
    intro b' hb' heq
    rwa [List.inj_on_of_nodup_map hbounded.nodup hb' hb heq]
  refine ⟨?_, ?_, ?_⟩
  · intro i
    rw [hcount]
    exact Library.Flooding.handled_le_one hinv b.guid i
  · rw [hcount]
    exact Library.Flooding.handled_origin hinv horigin
  · intro hrest i hne hpath
    rw [hcount]
    refine Library.Flooding.handled_of_path hinv horigin ?_ hne hpath
    intro j s hmem
    rw [← h.channel, List.mem_map] at hmem
    obtain ⟨message, hmem, hflooded⟩ := hmem
    exact hrest j s message hmem (messageGetGuid_of_flooded hflooded)

end Simulation

section Pair

open GossipWindow

/-- Handlers that count messages and leave the network alone. -/
def countingApplication : Application Nat where
  handlers := counting
  calls := by
    intro type handler socket msg a b hhandler h
    cases hhandler
    cases h
    exact ⟨[], rfl⟩

/-- Two nodes with one connection. -/
def pair : Bool → Nat → Option (Bool × Nat) :=
  fun i s => if s = 1 then some (!i, 1) else none

def pairStart : Config Bool Nat where
  node := fun _ => ⟨{ networkCreate with peers := [⟨1, [], 0⟩] }, 0⟩
  channel := fun _ _ => []
  log := fun _ => []
  broadcasts := []
  dispatched := []

theorem pairStart_start : Start pair pairStart where
  sockets := by
    intro i s
    change s ∈ [1] ↔ (if s = 1 then some (!i, 1) else none).isSome
    split_ifs with hs <;> simp [hs]
  history := fun _ => rfl
  channel := fun _ _ => rfl
  log := fun _ => rfl
  broadcasts := rfl
  dispatched := rfl

def sentNetwork : Network :=
  { networkCreate with
    peers := [⟨1, [], 0⟩]
    messageHistory := [gossip]
    written := [(1, gossipMessage)] }

/-- One node has broadcast. -/
def pairSent : Config Bool Nat :=
  (pairStart.put false sentNetwork).record false [gossip] [⟨gossip, false, 10⟩]

/-- The other one has handled the message. -/
def pairHandled : Config Bool Nat :=
  ((((pairSent.put true sentNetwork).record true [gossip] []).apply true 1).take false
    1).dispatch true gossip 1

/-- The first one has ignored what came back. -/
def pairDone : Config Bool Nat :=
  ((pairHandled.apply false 0).take true 1).dispatch false gossip 0

theorem pair_steps :
    Relation.ReflTransGen (Step countingApplication pair) pairStart pairDone := by
  have hguid : messageGetGuid gossipMessage = .ok gossip := rfl
  have hne : gossip ≠ guidNull := by decide
  have hsent : Act false pairStart pairSent :=
    ⟨.broadcast gossip 10 [Tag.tupleStart.byte, Tag.tupleEnd.byte], sentNetwork, rfl, rfl, rfl⟩
  have hfirst : handleMessage (counted counting) 1 (withCalls 0 (pairSent.node true))
      (gossipMessage ++ []) gossipMessage.length = .ok (withCalls 1 ⟨sentNetwork, 1⟩) := by
    have hplain := handleMessage_forgotten (show gossip ∉
      (pairSent.node true).network.messageHistory from List.not_mem_nil)
    have hcounted := @handleMessage_counted _ countingApplication 1 gossip 10
      [Tag.tupleStart.byte, Tag.tupleEnd.byte] [] (pairSent.node true)
    rw [← gossipMessage, List.append_nil] at hcounted
    rw [List.append_nil]
    refine hcounted.trans ?_
    rw [show countingApplication.handlers = counting from rfl, hplain]
    rfl
  have htaken : Takes true pairSent gossipMessage
      ((pairSent.put true sentNetwork).record true [gossip] []) :=
    .relayed hguid hne List.not_mem_nil .refl rfl
  have hknown : gossip ∈ (pairHandled.node false).network.messageHistory :=
    List.mem_singleton_self gossip
  have hsecond : handleMessage (counted counting) 1 (withCalls 0 (pairHandled.node false))
      (gossipMessage ++ []) gossipMessage.length =
        .ok (withCalls 0 (pairHandled.node false)) := by
    rw [List.append_nil]
    exact (@ignored_iff _ (withCalls 0 (pairHandled.node false)) gossip hne).mpr hknown
      (counted counting) 1 gossipMessage _ (by decide) hguid
  have hhandled : Step countingApplication pair pairSent pairHandled :=
    @Step.deliver _ _ _ _ _ _ false true 1 1 _ _ [] gossip (withCalls 1 ⟨sentNetwork, 1⟩) _ rfl
      rfl hguid hfirst htaken rfl
  have hignored : Step countingApplication pair pairHandled pairDone :=
    @Step.deliver _ _ _ _ _ _ true false 1 1 gossipMessage [] [] gossip
      (withCalls 0 (pairHandled.node false)) pairHandled rfl rfl hguid hsecond
      (.known hguid hne hknown) rfl
  exact ((Relation.ReflTransGen.single (.act hsent)).tail hhandled).tail hignored

theorem pairDone_bounded : Bounded pairDone where
  within := by
    intro i
    cases i <;> decide
  nodup := List.nodup_singleton _
  non_null := by
    intro b hb
    rw [List.mem_singleton.mp hb]
    decide

theorem pairDone_empty (i : Bool) (s : Nat) : pairDone.channel i s = [] := by
  rcases eq_or_ne s 1 with rfl | hs
  · cases i <;> rfl
  · have hnone : sentTo sentNetwork.written s = [] := by
      rw [sentTo, sentNetwork, List.filter_cons_of_neg (by simpa using hs.symm)]
      rfl
    change ((pairHandled.apply false 0).take true 1).channel i s = []
    rw [channel_take, if_neg (fun heq => hs heq.2)]
    change ((((pairSent.put true sentNetwork).record true [gossip] []).apply true 1).take false
      1).channel i s = []
    rw [channel_take, if_neg (fun heq => hs heq.2)]
    cases i
    · exact hnone
    · exact hnone

/-- The broadcast has been dispatched once, at the other node. -/
theorem exactly_once_pair : pairDone.dispatched.count (true, gossip) ≤ 1 ∧
    pairDone.dispatched.count (false, gossip) = 0 ∧
      pairDone.dispatched.count (true, gossip) = 1 := by
  obtain ⟨honce, hnever, hall⟩ := exactly_once pairStart_start pair_steps pairDone_bounded
    (List.mem_singleton_self (⟨gossip, false, 10⟩ : Broadcast Bool)) ⟨by decide, rfl⟩
  refine ⟨honce true, hnever, hall ?_ true (by decide) ?_⟩
  · intro i s message hmem
    rw [pairDone_empty] at hmem
    cases hmem
  · exact .single ⟨1, 1, rfl⟩

end Pair

end Whosecoin.Flooding
