import Whosecoin.Networks
import Whosecoin.Library.Windows

namespace Whosecoin.GossipWindow

open Library.Outcomes
open Library.Windows
open TupleParser
open TupleFormat
open Messages
open Networks

variable {α : Type}

/-- The guids have been recorded in the history, one after the other. -/
def Records (before : Network) (guids : List Guid) (after : Network) : Prop :=
  after.messageHistory = guids.foldl historyAdd before.messageHistory

/-- A run of a node, with all guids that it has recorded. What a received message
records, its handler's calls included, is any list that explains the history. -/
inductive Run (handlers : UInt16 → Option (Handler α)) : Node α → List Guid → Prop where
  | create (application : α) : Run handlers ⟨networkCreate, application⟩ []
  | broadcast {node : Node α} {log : List Guid} {guid : Guid} {type : UInt32}
      {buffer : List UInt8} {network : Network} (run : Run handlers node log)
      (hcall : networkBroadcast node.network guid type buffer = .ok network) :
      Run handlers { node with network := network } (log ++ [guid])
  | send {node : Node α} {log : List Guid} {event : UInt32} {buffer : List UInt8} {socket : Nat}
      {network : Network} (run : Run handlers node log)
      (hcall : networkSend node.network event buffer socket = .ok network) :
      Run handlers { node with network := network } (log ++ [guidNull])
  | receive {node node' : Node α} {log guids : List Guid} {socket : Nat} {message : List UInt8}
      {len : Nat} (run : Run handlers node log)
      (hcall : handleMessage handlers socket node message len = .ok node')
      (hrecords : Records node.network guids node'.network) :
      Run handlers node' (log ++ guids)
  | other {node node' : Node α} {log : List Guid} (run : Run handlers node log)
      (hrecords : Records node.network [] node'.network) : Run handlers node' log

/-- A received message with this guid changes nothing, whatever the handlers are:
it is neither dispatched nor broadcast again. -/
def Ignored (node : Node α) (guid : Guid) : Prop :=
  ∀ (handlers : UInt16 → Option (Handler α)) (socket : Nat) (message : List UInt8) (len : Nat),
    messageHeaderSize ≤ message.length → messageGetGuid message = .ok guid →
      handleMessage handlers socket node message len = .ok node

/-- The number of recordings of other non-null guids. -/
def others (guid : Guid) (log : List Guid) : Nat :=
  log.countP fun other => other ≠ guid ∧ other ≠ guidNull

theorem historyAdd_eq_push (history : List Guid) (guid : Guid) :
    historyAdd history guid = push messageHistorySize history guid :=
  rfl

theorem foldl_historyAdd (log guids : List Guid) :
    guids.foldl historyAdd (log.rtake messageHistorySize) =
      (log ++ guids).rtake messageHistorySize := by
  have hfun : historyAdd = push messageHistorySize := by
    funext history guid
    exact historyAdd_eq_push history guid
  rw [hfun]
  apply foldl_push
  decide

theorem history_of_run {handlers : UInt16 → Option (Handler α)} {node : Node α}
    {log : List Guid} (run : Run handlers node log) :
    node.network.messageHistory = log.rtake messageHistorySize := by
  induction run with
  | create application => rfl
  | broadcast run hcall ih =>
      rw [broadcastMessage_ok hcall, messageHistoryAdd, ih]
      exact foldl_historyAdd _ [_]
  | send run hcall ih =>
      rw [sendMessage_ok hcall, messageHistoryAdd, ih]
      exact foldl_historyAdd _ [_]
  | receive run hcall hrecords ih => rw [hrecords, ih, foldl_historyAdd]
  | other run hrecords ih => rw [hrecords, ih, List.foldl_nil]

theorem messageHistoryHas_iff (network : Network) (guid : Guid) :
    messageHistoryHas network guid = true ↔ guid ∈ network.messageHistory := by
  rw [messageHistoryHas, decide_eq_true_eq]
  constructor
  · intro hfound
    by_contra hnot
    apply hfound
    rw [List.findIdx_eq_length]
    intro other hmem
    rw [decide_eq_false_iff_not, guidCompare_eq_zero_iff]
    rintro rfl
    exact hnot hmem
  · intro hmem heq
    rw [List.findIdx_eq_length] at heq
    have hcompare := heq guid hmem
    rw [decide_eq_false_iff_not, guidCompare_eq_zero_iff] at hcompare
    exact hcompare rfl

theorem not_mem_historyAdd {history : List Guid} {guid : Guid} (h : guid ∉ history) :
    historyAdd history guid ≠ history := by
  intro heq
  rw [← heq, historyAdd] at h
  exact h (List.mem_append_right _ (List.mem_singleton_self guid))

theorem ignored_iff {node : Node α} {guid : Guid} (hne : guid ≠ guidNull) :
    Ignored node guid ↔ guid ∈ node.network.messageHistory := by
  have hnull : guidIsNull guid = false := by
    rw [← Bool.not_eq_true, guidIsNull_iff]
    exact hne
  constructor
  · intro hignored
    by_contra hnot
    have hhas : messageHistoryHas node.network guid = false := by
      rw [← Bool.not_eq_true, messageHistoryHas_iff]
      exact hnot
    have hlength := messageCreate_length guid 0 []
    have hguid := messageGetGuid_messageCreate guid 0 []
    have hheader : messageHeaderSize ≤ (messageCreate guid 0 []).length := by omega
    have hrun := hignored (fun _ => none) 0 (messageCreate guid 0 []) 0 hheader hguid
    simp only [handleMessage, hguid, hnull, hhas, bind_eq_ok, Bool.false_eq_true, if_false,
      Bool.not_false, if_true, Except.ok.injEq, dispatch, ite_self, exists_eq_left',
      pure_eq_ok] at hrun
    obtain ⟨length, -, type, -, network, hbroadcast, hnode⟩ := hrun
    have hsame : network.messageHistory = node.network.messageHistory := by
      rw [← hnode]
    rw [broadcastMessage_ok hbroadcast, messageHistoryAdd] at hsame
    exact not_mem_historyAdd hnot hsame
  · intro hmem handlers socket message len hheader hguid
    have hhas := (messageHistoryHas_iff node.network guid).mpr hmem
    obtain ⟨length, hlength⟩ := @messageWord_returns message 1 (by
      rw [messageHeaderSize] at hheader
      omega)
    obtain ⟨type, htype⟩ := messageGetType_returns hheader
    rw [handleMessage, hguid, ok_bind, messageGetLength, hlength, ok_bind, htype, ok_bind]
    simp only [hnull, hhas, Bool.false_eq_true, if_false, Bool.not_true]
    rfl

/-- A recorded guid is remembered for 1024 other gossip messages exactly when it
is, until then, among the last 1024 guids recorded, the null guids of
`network_send` included. -/
theorem remembered_iff {handlers : UInt16 → Option (Handler α)} {node : Node α}
    {before after : List Guid} {guid : Guid}
    (run : Run handlers node (before ++ guid :: after)) (hne : guid ≠ guidNull) :
    (others guid after < messageHistorySize → Ignored node guid) ↔
      (others guid after < messageHistorySize →
        Recent messageHistorySize (before ++ guid :: after) guid) := by
  rw [ignored_iff hne, history_of_run run, mem_rtake_iff]

section Forgotten

theorem run_sends {handlers : UInt16 → Option (Handler α)} {node : Node α} {log : List Guid}
    (run : Run handlers node log) (n : Nat) :
    ∃ node', Run handlers node' (log ++ List.replicate n guidNull) ∧
      node'.application = node.application ∧ node'.network.peers = node.network.peers := by
  induction n with
  | zero => exact ⟨node, by rwa [List.replicate_zero, List.append_nil], rfl, rfl⟩
  | succ n ih =>
      obtain ⟨node', run', happlication, hpeers⟩ := ih
      have hnext := @Run.send _ _ _ _ 3 [] 0 _ run' rfl
      rw [List.append_assoc, ← List.replicate_succ'] at hnext
      exact ⟨_, hnext, happlication, hpeers⟩

def gossip : Guid :=
  ⟨1, 0, 0, 0⟩

/-- An application that counts the messages that it handles. -/
def counting : UInt16 → Option (Handler Nat) :=
  fun _ => some fun _ _ node => .ok { node with application := node.application + 1 }

def gossipMessage : List UInt8 :=
  messageCreate gossip 10 [Tag.tupleStart.byte, Tag.tupleEnd.byte]

theorem handleMessage_forgotten {node : Node Nat} (h : gossip ∉ node.network.messageHistory) :
    handleMessage counting 1 node gossipMessage gossipMessage.length =
      .ok ⟨{ messageHistoryAdd node.network gossip with
        written := node.network.written ++
          node.network.peers.map fun peer => (peer.socket, gossipMessage) },
        node.application + 1⟩ := by
  have hhas : messageHistoryHas node.network gossip = false := by
    rw [← Bool.not_eq_true, messageHistoryHas_iff]
    exact h
  have hguid : messageGetGuid gossipMessage = .ok gossip := rfl
  have hlength : messageGetLength gossipMessage = .ok 2 := rfl
  have htype : messageGetType gossipMessage = .ok 10 := rfl
  rw [handleMessage, hguid, ok_bind, hlength, ok_bind, htype, ok_bind]
  have hdispatch : dispatch counting 1 10 ⟨2, gossipMessage.drop messageHeaderSize⟩ node =
      .ok { node with application := node.application + 1 } := by
    have hpayload : gossipMessage.drop messageHeaderSize =
        [Tag.tupleStart.byte, Tag.tupleEnd.byte] := by
      rw [gossipMessage, messageCreate_eq, List.drop_left' (header_length _ _ _)]
    obtain ⟨tuple, hparse, hrep⟩ := @tupleParse_of_encode
      ⟨2, [Tag.tupleStart.byte, Tag.tupleEnd.byte]⟩ [] [] rfl le_rfl
    have helements : tuple.elements = [] := hrep.elements_eq
    change (do
      let tuple ← tupleParse ⟨2, gossipMessage.drop messageHeaderSize⟩
      let node ← (.ok { node with application := node.application + 1 } : Outcome (Node Nat))
      tupleDestroy tuple
      return node) = _
    rw [hpayload, hparse, ok_bind, ok_bind, tupleDestroy, helements, destroyElements]
    rfl
  rw [hhas, List.take_length]
  change (do
    let node ← dispatch counting 1 10 ⟨2, gossipMessage.drop messageHeaderSize⟩ node
    let network ← broadcastMessage (messageHistoryAdd node.network gossip) gossipMessage
    return { node with network := network }) = _
  rw [hdispatch]
  rfl

/-- After 1024 calls of `network_send` and no other message, a broadcast guid is
forgotten: its message is dispatched and broadcast again. -/
theorem forgotten_after_sends :
    ∃ (node : Node Nat) (after : List Guid), Run counting node ([] ++ gossip :: after) ∧
      others gossip after = 0 ∧ node.network.peers = [⟨1, [], 0⟩] ∧
      (∃ node', handleMessage counting 1 node gossipMessage gossipMessage.length = .ok node' ∧
        node'.application = node.application + 1 ∧
        node'.network.written = node.network.written ++ [(1, gossipMessage)]) ∧
      ¬ (others gossip after < messageHistorySize → Ignored node gossip) := by
  have hconnected : Run counting ⟨{ networkCreate with peers := [⟨1, [], 0⟩] }, 0⟩ [] :=
    .other (.create 0) rfl
  have hbroadcast := @Run.broadcast _ _ _ _ gossip 10 [] _ hconnected rfl
  obtain ⟨node, run, happlication, hpeers⟩ := run_sends hbroadcast messageHistorySize
  have hothers : others gossip (List.replicate messageHistorySize guidNull) = 0 := by
    rw [others, List.countP_replicate]
    rfl
  have hforgotten : gossip ∉ node.network.messageHistory := by
    rw [history_of_run run, List.rtake, List.length_append, List.length_replicate]
    change gossip ∉ List.replicate messageHistorySize guidNull
    intro hmem
    exact absurd (List.eq_of_mem_replicate hmem) (by decide)
  refine ⟨node, List.replicate messageHistorySize guidNull, run, hothers, hpeers, ?_, ?_⟩
  · exact ⟨_, handleMessage_forgotten hforgotten, rfl, by rw [hpeers]; rfl⟩
  · intro hremembered
    have hignored := hremembered (by rw [hothers]; decide)
    rw [ignored_iff (by decide)] at hignored
    exact hforgotten hignored

/-- A broadcast guid is ignored behind the guid of another broadcast and the null guid of a
send, at a node with two peers. -/
theorem remembered_iff_broadcast : ∃ node : Node Nat,
    Run counting node ([] ++ gossip :: [⟨2, 0, 0, 0⟩, guidNull]) ∧
      node.network.peers = [⟨1, [], 0⟩, ⟨2, [], 0⟩] ∧
      others gossip [⟨2, 0, 0, 0⟩, guidNull] = 1 ∧ Ignored node gossip := by
  have hconnected : Run counting
      ⟨{ networkCreate with peers := [⟨1, [], 0⟩, ⟨2, [], 0⟩] }, 0⟩ [] :=
        .other (.create 0) rfl
  have hgossip := @Run.broadcast _ _ _ _ gossip 10 [] _ hconnected rfl
  have hother := @Run.broadcast _ _ _ _ ⟨2, 0, 0, 0⟩ 9 [] _ hgossip rfl
  have hsend := @Run.send _ _ _ _ 3 [] 1 _ hother rfl
  exact ⟨_, hsend, rfl, by decide,
    (@remembered_iff _ _ _ [] [⟨2, 0, 0, 0⟩, guidNull] gossip hsend (by decide)).mpr
      (fun _ => ⟨[], [⟨2, 0, 0, 0⟩, guidNull], rfl, by decide⟩) (by decide)⟩

end Forgotten

/-- Without `network_send` every recorded guid is remembered. -/
theorem ignored_of_not_mem {handlers : UInt16 → Option (Handler α)} {node : Node α}
    {before after : List Guid} {guid : Guid}
    (run : Run handlers node (before ++ guid :: after)) (hne : guid ≠ guidNull)
    (hsend : guidNull ∉ after) (hothers : others guid after < messageHistorySize) :
    Ignored node guid := by
  rw [ignored_iff hne, history_of_run run, mem_rtake_iff]
  apply recent_of_countP_lt
  have hcount : after.countP (· ≠ guid) = others guid after := by
    apply List.countP_congr
    intro other hmem
    have hother : other ≠ guidNull := by
      rintro rfl
      exact hsend hmem
    simp [hother]
  rw [hcount]
  exact hothers

end Whosecoin.GossipWindow
