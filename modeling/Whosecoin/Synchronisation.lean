import Whosecoin.Equivocation
import Whosecoin.MalformedMessages
import Whosecoin.Provenance

namespace Whosecoin.Synchronisation

open Library.Outcomes
open Library.ByteStrings
open Cryptography
open TupleParser
open TupleFormat
open Transactions
open TransactionSchema
open Accounts
open Blocks
open BlockSchema
open Blockchains
open Messages
open Networks
open Handlers
open Chains
open AlikeChains
open BlockDelivery
open BlockReception
open NodeRuns
open Provenance

/-- `block_create` has produced every block of the chain, with a key pair and from
transactions that are valid each. -/
def Produced (S : Sodium) (KeyPair : PublicKey → SecretKey → Prop) (chain : BlockPtr) : Prop :=
  ∀ data prev, data :: prev <:+ chain → ∃ now pk sk txns, KeyPair pk sk ∧
    (∀ txn ∈ txns, Signed S txn) ∧ blockCreate S now pk sk prev txns = .ok (data :: prev)

/-- The tree has blocks with the hashes of the chain. -/
def Knows (bc : Blockchain) (chain : BlockPtr) : Prop :=
  ∀ data prev, data :: prev <:+ chain →
    ∃ block, Representation.Stored bc block ∧ blockGetHash block = data.hash

/-- What `on_blocks_request` writes of the chain, latest block first. -/
def branch (block : BlockPtr) : BlockPtr → List BlockMessage
  | [] => []
  | data :: prev =>
      if data :: prev = block then [] else messageOf data prev :: branch block prev

/-- The blocks that the node answers with to a hash. -/
def answerTo (state : State) (hash : Hash) : List BlockMessage :=
  branch (blockchainGetBlock state.application.blockchain hash)
    state.application.blockchain.principal

/-- A request names one hash. -/
def requestValues (hash : Hash) : List Value :=
  [ofBytes generichashBytes_lt hash]

def answerValues (messages : List BlockMessage) : List Value :=
  messages.map fun m => .tuple m.values

def requestOf (hash : Hash) : List UInt8 :=
  messageCreate guidNull 5 (Value.tuple (requestValues hash)).encode

def answerOf (messages : List BlockMessage) : List UInt8 :=
  messageCreate guidNull 6 (Value.tuple (answerValues messages)).encode

/-- What else happens to a running node. -/
inductive Moves (S : Sodium) : State → State → Prop where
  | receive {state state' : State} {socket : Nat} {message : List UInt8} {len : Nat}
      (hmessage : handleMessage (handlers S) socket state message len = .ok state') :
      Moves S state state'
  | timer {state state' : State} (htimer : onTimer S state = .ok state') : Moves S state state'
  | command (state : State) (value : UInt64) (recipient : PublicKey) :
      Moves S state (handleSendCommand S state value recipient)
  | network (state : State) (network : Network) : Moves S state { state with network := network }

/-- `b` asks `a` for the blocks that it lacks, `a` answers, and meanwhile `b` has
become `b'`. -/
inductive Exchange (S : Sodium) (a b b' : State) (answer : List UInt8) : Prop where
  | intro {asked answered : State} {socketA socketB : Nat} {request after : List UInt8}
      (hasked : synchronizeBlockchain b socketA b.application.blockchain.principal = .ok asked)
      (hrequest : asked.network.written = b.network.written ++ [(socketA, request)])
      (hanswered : handleMessage (handlers S) socketB a (request ++ after) request.length =
        .ok answered)
      (hanswer : answered.network.written = a.network.written ++ [(socketB, answer)])
      (hlater : Relation.ReflTransGen (Moves S) asked b')

/-- While the blocks are received one after the other, every block that the node
creates itself fits into a message. -/
def ForksFit (S : Sodium) : List BlockMessage → State → Prop
  | [], _ => True
  | m :: ms, state =>
      (∀ block state', m.accept S (parentIn state m) = .ok block → block ≠ [] →
          addBlockToState state block = .ok (true, state') → ForkFits S state' block.tail) ∧
        ∀ tuple state', Represents tuple m.values → receiveBlock S state tuple = .ok state' →
          ForksFit S ms state'

variable {S : Sodium} {KeyPair : PublicKey → SecretKey → Prop}

section Later

variable {a b : State}

theorem Moves.continues (h : Moves S a b) : Continues S a b := by
  cases h with
  | receive hmessage => exact handleMessage_continues hmessage
  | timer htimer => exact onTimer_continues htimer
  | command value recipient => exact handleSendCommand_continues value recipient
  | network network => exact .of_eq rfl rfl rfl

theorem Moves.reachable (ha : Reachable S a) (h : Moves S a b) : Reachable S b := by
  cases h with
  | receive hmessage => exact ha.receive hmessage
  | timer htimer => exact ha.timer htimer
  | command value recipient => exact ha.command value recipient
  | network network => exact ha.network network

theorem reachable_later (ha : Reachable S a) (h : Relation.ReflTransGen (Moves S) a b) :
    Reachable S b := by
  induction h with
  | refl => exact ha
  | tail _ hmove ih => exact hmove.reachable ih

theorem stored_later (ha : Reachable S a) (h : Relation.ReflTransGen (Moves S) a b)
    {block : BlockPtr} (hblock : Representation.Stored a.application.blockchain block) :
    Representation.Stored b.application.blockchain block := by
  induction h with
  | refl => exact hblock
  | tail hmoves hmove ih => exact hmove.continues.stored (reachable_later ha hmoves).run ih

end Later

section Request

variable {a b : State} {socket : Nat}

theorem synchronizeBlockchain_eq (block : BlockPtr) :
    synchronizeBlockchain b socket block =
      send b 5 (Value.tuple (requestValues (blockGetHash block))).encode socket := by
  simp only [synchronizeBlockchain, tupleWriteBinary_eq (by decide : generichashBytes < 2 ^ 32),
    tupleWriteStart, tupleWriteEnd, requestValues, Value.encode, encodeAll, List.nil_append,
    List.append_nil, List.cons_append]

theorem writeBranch_eq (block iter : BlockPtr) (buf : List UInt8) :
    writeBranch block iter buf = .ok (buf ++ encodeAll (answerValues (branch block iter))) := by
  induction iter generalizing buf with
  | nil =>
      rw [writeBranch, branch, answerValues, List.map_nil, encodeAll, List.append_nil]
  | cons data prev ih =>
      rw [writeBranch, branch]
      split_ifs with hstop
      · rw [answerValues, List.map_nil, encodeAll, List.append_nil]
      · rw [blockWrite_eq, ok_bind, ih, List.append_assoc]
        rfl

theorem onBlocksRequest_eq {tuple : Tuple} {hash : Hash}
    (h : Represents tuple (requestValues hash)) :
    onBlocksRequest socket (some tuple) a =
      send a 6 (Value.tuple (answerValues (answerTo a hash))).encode socket := by
  obtain ⟨after, hget⟩ := @tupleGetBinary_ofBytes _ _ 0 h _ (by decide) hash rfl
  rw [onBlocksRequest, deref, ok_bind, hget, ok_bind, memcpy_toList, ok_bind]
  simp only [writeBranch_eq, ok_bind]
  rw [tupleWriteStart, tupleWriteEnd, Value.encode, answerTo]
  simp

theorem send_written {event : UInt32} {buf message : List UInt8}
    (h : send a event buf socket = .ok b)
    (hwritten : b.network.written = a.network.written ++ [(socket, message)]) :
    message = messageCreate guidNull event buf ∧ message.length < 2 ^ 31 := by
  simp only [send, networkSend, sendMessage, sharedBufferCreate, messageHistoryAdd] at h
  split at h
  · rename_i hshort
    cases h
    have hsame := List.append_cancel_left hwritten
    simp only [List.cons.injEq, Prod.mk.injEq, true_and, and_true] at hsame
    exact ⟨hsame.symm, hsame ▸ hshort⟩
  · cases h

theorem requestOf_length (hash : Hash) : (requestOf hash).length = 65 := by
  rw [requestOf, messageCreate_length, encode_tuple_length, requestValues, encodeAll, encodeAll,
    List.append_nil, ofBytes, encode_binary_length, Bytes.length_eq]
  rfl

theorem handleMessage_request (hash : Hash) (after : List UInt8) :
    handleMessage (handlers S) socket a (requestOf hash ++ after) (requestOf hash).length =
      send a 6 (Value.tuple (answerValues (answerTo a hash))).encode socket := by
  have hlength := requestOf_length hash
  rw [requestOf, messageCreate_length] at hlength
  obtain ⟨tuple, hparse, hrep⟩ := @tupleParse_of_encode
    ⟨(Value.tuple (requestValues hash)).encode.length,
      (Value.tuple (requestValues hash)).encode ++ after⟩ _ _ rfl le_rfl
  rw [requestOf, messageCreate_length,
    MalformedMessages.handleMessage_messageCreate guidNull 5 _ _ (by omega), if_pos (by decide),
    MalformedMessages.dispatch_eq hparse hrep (by decide) rfl, onBlocksRequest_eq hrep]

/-- The answer of an exchange is that of `on_blocks_request` to the hash of the
principal that was asked with. -/
theorem Exchange.answer_eq {b' : State} {answer : List UInt8} (h : Exchange S a b b' answer) :
    answer = answerOf (answerTo a (blockGetHash b.application.blockchain.principal)) ∧
      answer.length < 2 ^ 31 := by
  obtain ⟨hasked, hrequest, hanswered, hanswer, -⟩ := h
  rw [synchronizeBlockchain_eq] at hasked
  obtain ⟨rfl, -⟩ := send_written hasked hrequest
  exact send_written ((handleMessage_request _ _).symm.trans hanswered) hanswer

theorem Exchange.later {b' : State} {answer : List UInt8} (h : Exchange S a b b' answer)
    (hb : Reachable S b) :
    (∀ block, Representation.Stored b.application.blockchain block →
      Representation.Stored b'.application.blockchain block) ∧ Reachable S b' := by
  obtain ⟨hasked, -, -, -, hlater⟩ := h
  rw [synchronizeBlockchain, send, bind_eq_ok] at hasked
  obtain ⟨network, -, hasked⟩ := hasked
  cases hasked
  have hmoves := Relation.ReflTransGen.head (Moves.network b network) hlater
  exact ⟨fun block hblock => stored_later hb hmoves hblock, reachable_later hb hmoves⟩

theorem send_of_short (event : UInt32) {buf : List UInt8} (socket : Nat)
    (h : (messageCreate guidNull event buf).length < 2 ^ 31) :
    ∃ network, send a event buf socket = .ok { a with network := network } ∧
      network.written = a.network.written ++ [(socket, messageCreate guidNull event buf)] := by
  simp only [send, networkSend, sendMessage, sharedBufferCreate, if_pos h]
  exact ⟨_, rfl, rfl⟩

theorem exchange_of_fits (hfits : (answerOf (answerTo a
    (blockGetHash b.application.blockchain.principal))).length < 2 ^ 31) :
    ∃ network, Exchange S a b { b with network := network }
      (answerOf (answerTo a (blockGetHash b.application.blockchain.principal))) := by
  have hrequest := requestOf_length (blockGetHash b.application.blockchain.principal)
  rw [requestOf] at hrequest
  obtain ⟨network, hasked, hwritten⟩ := @send_of_short b 5
    (Value.tuple (requestValues (blockGetHash b.application.blockchain.principal))).encode 0
    (by omega)
  obtain ⟨network', hanswered, hwritten'⟩ := @send_of_short a 6 _ 0 hfits
  exact ⟨network, @Exchange.intro S a b _ _ _ { a with network := network' } 0 0 _ []
    ((synchronizeBlockchain_eq _).trans hasked) hwritten
    ((handleMessage_request _ _).trans hanswered) hwritten' .refl⟩

end Request

section Answer

variable {a b : State} {socket : Nat} {ms : List BlockMessage}

theorem exists_subs {tuple : Tuple} {vs : List Value} (h : Represents tuple vs)
    {places : List Nat}
    (hplaces :
      List.Forall₂ (fun i (m : BlockMessage) => vs[i]? = some (.tuple m.values)) places ms) :
    ∃ subs, List.Forall₂ (fun sub (m : BlockMessage) => Represents sub m.values) subs ms ∧
      ∀ b, places.foldlM (fun state i => tupleGetTuple tuple i >>= receiveBlock S state) b =
        subs.foldlM (receiveBlock S) b := by
  induction hplaces with
  | nil => exact ⟨[], .nil, fun b => rfl⟩
  | cons hi _ ih =>
      obtain ⟨subs, hsubs, hloop⟩ := ih
      obtain ⟨sub, hget, hsub⟩ := h.tupleGetTuple_eq hi
      refine ⟨sub :: subs, .cons hsub hsubs, ?_⟩
      intro b
      rw [List.foldlM_cons, List.foldlM_cons, hget, ok_bind]
      congr 1
      funext state
      exact hloop state

theorem onBlocksResponse_eq {tuple : Tuple} (h : Represents tuple (answerValues ms)) (b : State) :
    ∃ subs,
      List.Forall₂ (fun sub (m : BlockMessage) => Represents sub m.values) subs ms.reverse ∧
      onBlocksResponse S socket (some tuple) b = subs.foldlM (receiveBlock S) b := by
  have hplaces := MalformedMessages.forall₂_places (answerValues ms)
  rw [answerValues, ← List.map_reverse, List.forall₂_map_right_iff] at hplaces
  obtain ⟨subs, hsubs, hloop⟩ := @exists_subs S _ _ _ h _ hplaces
  refine ⟨subs, hsubs, ?_⟩
  rw [onBlocksResponse, derefAsserted, ok_bind, h.tupleSize_eq]
  exact hloop b

theorem handleMessage_answer (hlength : (answerOf ms).length < 2 ^ 31) (after : List UInt8) :
    ∃ subs,
      List.Forall₂ (fun sub (m : BlockMessage) => Represents sub m.values) subs ms.reverse ∧
      handleMessage (handlers S) socket b (answerOf ms ++ after) (answerOf ms).length =
        subs.foldlM (receiveBlock S) b := by
  rw [answerOf, messageCreate_length] at hlength
  obtain ⟨tuple, hparse, hrep⟩ := @tupleParse_of_encode
    ⟨(Value.tuple (answerValues ms)).encode.length,
      (Value.tuple (answerValues ms)).encode ++ after⟩ _ _ rfl le_rfl
  obtain ⟨subs, hsubs, hloop⟩ := @onBlocksResponse_eq S socket ms tuple hrep b
  refine ⟨subs, hsubs, ?_⟩
  rw [answerOf, messageCreate_length,
    MalformedMessages.handleMessage_messageCreate guidNull 6 _ after (by omega),
    if_pos (by decide), MalformedMessages.dispatch_eq hparse hrep (by decide) rfl, hloop]

/-- The message of a block that was accepted somewhere. -/
def Sound (S : Sodium) (m : BlockMessage) : Prop :=
  m.Consistent S ∧ ∃ prev sortitionHash, m.Checks S prev sortitionHash

theorem blockFine_of_sound {sub : Tuple} {m : BlockMessage} (hsub : Represents sub m.values)
    (hsound : Sound S m) (hfits : ∀ block state', m.accept S (parentIn b m) = .ok block →
      block ≠ [] → addBlockToState b block = .ok (true, state') →
        ForkFits S state' block.tail) :
    BlockFine S b m.values := by
  obtain ⟨hconsistent, prev, sortitionHash, hchecks⟩ := hsound
  constructor
  · exact (MalformedTuples.blockIsValid_returns_iff hsub S).mp
      ⟨true, (blockIsValid_iff hsub S).mpr hconsistent⟩
  · intro m' hm' _
    obtain rfl := BlockMessage.values_injective hm'
    exact hchecks.signature_length
  · intro m' hm' _ _
    obtain rfl := BlockMessage.values_injective hm'
    exact hchecks.transactions
  · intro m' block state' hm' _ haccept hne hadd
    obtain rfl := BlockMessage.values_injective hm'
    exact hfits block state' haccept hne hadd

theorem returns_of_forksFit {subs : List Tuple}
    (hsubs : List.Forall₂ (fun sub (m : BlockMessage) => Represents sub m.values) subs ms)
    (hsound : ∀ m ∈ ms, Sound S m)
    (running : ∃ events, Run S b.application.publicKey b.application.secretKey events (storeOf b))
    (hfits : ForksFit S ms b) : Returns (subs.foldlM (receiveBlock S) b) := by
  induction hsubs generalizing b with
  | nil => exact returns_ok b
  | @cons sub m subs ms hsub _ ih =>
      rw [List.forall_mem_cons] at hsound
      have hrun := MalformedMessages.nodeRun_of_running running
      obtain ⟨next, hnext⟩ := (receiveBlock_returns_iff hsub hrun).mpr
        (blockFine_of_sound hsub hsound.1 hfits.1)
      rw [List.foldlM_cons, hnext, ok_bind]
      exact ih hsound.2 ((receiveBlock_continues hnext).running running)
        (hfits.2 sub next hsub hnext)

end Answer

section Reception

variable {a b c : State}

theorem receive_produced {data : Block} {prev : BlockPtr}
    (hconsistent : (messageOf data prev).Consistent S)
    (haccept : (messageOf data prev).accept S prev = .ok (data :: prev)) {sub : Tuple}
    (hsub : Represents sub (messageOf data prev).values)
    (hparent : List.Forall₂ Alike prev (parentIn b (messageOf data prev)))
    (running : ∃ events, Run S b.application.publicKey b.application.secretKey events (storeOf b))
    (hreceive : receiveBlock S b sub = .ok c) :
    ∃ block, Representation.Stored c.application.blockchain block ∧
      blockGetHash block = data.hash := by
  have hblock := blockCreateFromTuple_eq hsub hconsistent
    (blockchainGetBlock b.application.blockchain)
  have hfound := accept_alike hparent haccept
  rw [receiveBlock, hblock, show blockchainGetBlock b.application.blockchain
    (messageOf data prev).header.prevHash = parentIn b (messageOf data prev) from rfl, hfound,
    ok_bind, if_neg (List.cons_ne_nil _ _), bind_eq_ok] at hreceive
  obtain ⟨⟨added, d⟩, hadd, hreceive⟩ := hreceive
  cases added with
  | true =>
      exact ⟨data :: parentIn b (messageOf data prev),
        forkAt_stored hreceive (stored_of_added hadd), rfl⟩
  | false =>
      cases hreceive
      rw [eq_of_not_added hadd]
      have hknown := mt (added_iff hadd).mpr Bool.false_ne_true
      obtain ⟨old, hget⟩ := Option.ne_none_iff_exists'.mp hknown
      obtain ⟨stored, built⟩ := (MalformedMessages.nodeRun_of_running running).builtRun
      have hmem := Library.Maps.Map.mem_of_get_eq_some hget
      rw [built.tree.blocks_eq, List.mem_map] at hmem
      obtain ⟨block, hblock, hentry⟩ := hmem
      exact ⟨block, (Representation.stored_iff built.tree block).mpr hblock,
        (Prod.mk.inj hentry).1⟩

theorem received_stored {subs : List Tuple} (h : subs.foldlM (receiveBlock S) b = .ok c)
    {block : BlockPtr} (hblock : Representation.Stored b.application.blockchain block) :
    Representation.Stored c.application.blockchain block :=
  foldlM_invariant _ (fun state : State =>
    Representation.Stored state.application.blockchain block)
    (fun _ _ _ hs hstep => receiveBlock_stored hstep hs) subs b c hblock h

theorem received_continues {subs : List Tuple} (h : subs.foldlM (receiveBlock S) b = .ok c) :
    Continues S b c :=
  .foldlM (fun _ _ _ hstep => receiveBlock_continues hstep) subs h

section Chain

variable {hashed : Set (List UInt8)} (hfree : S.CollisionFree hashed)
  (hzero : ∀ string ∈ hashed, S.generichash string ≠ Bytes.zero generichashBytes)

include hfree hzero

theorem parent_alike {chain : BlockPtr} (hchain : Hashed S hashed chain)
    (hblocks : ∀ block, Representation.Stored b.application.blockchain block →
      Hashed S hashed block)
    (running : ∃ events, Run S b.application.publicKey b.application.secretKey events (storeOf b))
    (hknows : Knows b.application.blockchain chain) :
    List.Forall₂ Alike chain
      (blockchainGetBlock b.application.blockchain (blockGetHash chain)) := by
  obtain ⟨stored, built⟩ := (MalformedMessages.nodeRun_of_running running).builtRun
  cases chain with
  | nil =>
      rcases eq_or_ne (blockchainGetBlock b.application.blockchain (blockGetHash [])) [] with
        hnull | hfound
      · rw [hnull]
        exact .nil
      · have hhash := (Representation.blockchainGetBlock_mem built.tree hfound).2
        have hstored := hblocks _ (Representation.stored_blockchainGetBlock hfound)
        exact absurd (hstored.eq_nil hzero hhash) hfound
  | cons data prev =>
      obtain ⟨block, hblock, hhash⟩ := hknows data prev (List.suffix_refl _)
      have hmem := (Representation.stored_iff built.tree block).mp hblock
      have hfound := Representation.blockchainGetBlock_eq built.tree hmem
      rw [hhash] at hfound
      rw [show blockGetHash (data :: prev) = data.hash from rfl, hfound]
      exact hchain.alike hfree hzero (hblocks block hblock) hhash.symm

/-- After the loop the node knows the chain, if it knew the part that it did not get:
the induction is along the chain, from its first block on. -/
theorem knows_of_received {found chain : BlockPtr} (hchain : Hashed S hashed chain)
    (haccepted : ∀ data prev, data :: prev <:+ chain →
      messageOf data prev ∈ branch found chain →
      (messageOf data prev).Consistent S ∧
        (messageOf data prev).accept S prev = .ok (data :: prev)) {subs : List Tuple}
    (hsubs : List.Forall₂ (fun sub (m : BlockMessage) => Represents sub m.values) subs
      (branch found chain).reverse)
    (running : ∃ events, Run S b.application.publicKey b.application.secretKey events (storeOf b))
    (hloop : subs.foldlM (receiveBlock S) b = .ok c)
    (hblocks : ∀ block, Representation.Stored c.application.blockchain block →
      Hashed S hashed block)
    (hfound : found <:+ chain → Knows b.application.blockchain found) :
    Knows c.application.blockchain chain := by
  induction chain generalizing subs c with
  | nil =>
      intro data prev hsuffix
      exact absurd (List.suffix_nil.mp hsuffix) (List.cons_ne_nil _ _)
  | cons data prev ih =>
      rw [branch] at hsubs haccepted
      split_ifs at hsubs haccepted with hstop
      · cases hsubs
        cases hloop
        rw [hstop]
        exact hfound (hstop ▸ List.suffix_refl _)
      · rw [List.reverse_cons] at hsubs
        have hfirst := List.forall₂_take_append _ _ _ hsubs
        have hlast := List.forall₂_drop_append _ _ _ hsubs
        rw [← List.take_append_drop (branch found prev).reverse.length subs, List.foldlM_append,
          bind_eq_ok] at hloop
        obtain ⟨d, hbefore, hloop⟩ := hloop
        obtain ⟨sub, rest, hsub, hnil, hdrop⟩ := List.forall₂_cons_right_iff.mp hlast
        obtain rfl := List.forall₂_nil_right_iff.mp hnil
        rw [hdrop, List.foldlM_cons, bind_eq_ok] at hloop
        obtain ⟨e, hreceive, hloop⟩ := hloop
        cases hloop
        have hearlier : ∀ block, Representation.Stored d.application.blockchain block →
            Hashed S hashed block := by
          intro block hblock
          exact hblocks block (receiveBlock_stored hreceive hblock)
        have hrunning := (received_continues hbefore).running running
        have hknows := ih (hchain.of_suffix (List.suffix_cons data prev))
          (fun data' prev' hsuffix hmem => haccepted data' prev'
            (hsuffix.trans (List.suffix_cons data prev)) (List.mem_cons_of_mem _ hmem))
          hfirst hbefore hearlier
          (fun hsuffix => hfound (hsuffix.trans (List.suffix_cons data prev)))
        have hparent := parent_alike hfree hzero (hchain.of_suffix (List.suffix_cons data prev))
          hearlier hrunning hknows
        obtain ⟨hconsistent, haccept⟩ := haccepted data prev (List.suffix_refl _)
          List.mem_cons_self
        intro data' prev' hsuffix
        rcases List.suffix_cons_iff.mp hsuffix with heq | hprev
        · obtain ⟨rfl, rfl⟩ := List.cons.inj heq
          exact receive_produced hconsistent haccept hsub hparent hrunning hreceive
        · obtain ⟨block, hblock, hhash⟩ := hknows data' prev' hprev
          exact ⟨block, receiveBlock_stored hreceive hblock, hhash⟩

end Chain

theorem knows_of_alike {stored : List BlockPtr} {bc : Blockchain}
    (tree : BlockTree.Tree stored bc)
    {found block : BlockPtr} (halike : List.Forall₂ Alike found block)
    (hblock : block = [] ∨ block ∈ stored) : Knows bc found := by
  induction halike with
  | nil =>
      intro data prev hsuffix
      exact absurd (List.suffix_nil.mp hsuffix) (List.cons_ne_nil _ _)
  | @cons d e p q hhead _ ih =>
      have hmem := hblock.resolve_left (List.cons_ne_nil e q)
      intro data prev hsuffix
      rcases List.suffix_cons_iff.mp hsuffix with heq | hprev
      · obtain ⟨rfl, rfl⟩ := List.cons.inj heq
        exact ⟨e :: q, (Representation.stored_iff tree _).mpr hmem, hhead.hash_eq.symm⟩
      · exact ih (tree.addable _ hmem).2 data prev hprev

theorem mem_branch {found chain : BlockPtr} {m : BlockMessage} (h : m ∈ branch found chain) :
    ∃ data prev, data :: prev <:+ chain ∧ m = messageOf data prev := by
  induction chain with
  | nil => cases h
  | cons data prev ih =>
      rw [branch] at h
      split_ifs at h with hstop
      · cases h
      · rcases List.mem_cons.mp h with rfl | hmem
        · exact ⟨data, prev, List.suffix_refl _, rfl⟩
        · obtain ⟨data', prev', hsuffix, rfl⟩ := ih hmem
          exact ⟨data', prev', hsuffix.trans (List.suffix_cons data prev), rfl⟩

theorem encode_length_le {m : BlockMessage} {ms : List BlockMessage} (h : m ∈ ms) :
    (Value.tuple m.values).encode.length ≤ (Value.tuple (answerValues ms)).encode.length := by
  have hle : (Value.tuple m.values).encode.length ≤ (encodeAll (answerValues ms)).length := by
    induction ms with
    | nil => cases h
    | cons head rest ih =>
        rw [answerValues, List.map_cons, encodeAll, List.length_append]
        rcases List.mem_cons.mp h with rfl | hmem
        · omega
        · have hrest := ih hmem
          rw [answerValues] at hrest
          omega
  rw [encode_tuple_length (answerValues ms)]
  omega

/-- Every block of an answer that fits is accepted on top of its own parent. -/
theorem Produced.accepted (hS : S.Complete KeyPair) {chain found : BlockPtr}
    (hproduced : Produced S KeyPair chain)
    (hlength : (answerOf (branch found chain)).length < 2 ^ 31)
    {data : Block} {prev : BlockPtr} (hsuffix : data :: prev <:+ chain)
    (hmem : messageOf data prev ∈ branch found chain) : (messageOf data prev).Consistent S ∧
      (messageOf data prev).accept S prev = .ok (data :: prev) := by
  obtain ⟨now, pk, sk, txns, hkeys, hsigned, hcreate⟩ := hproduced data prev hsuffix
  have hsize := encode_length_le hmem
  rw [answerOf, messageCreate_length] at hlength
  exact accept_of_blockCreate hS hkeys hsigned hcreate (by omega)

end Reception

/-- Synchronisation is complete: the node that has asked knows afterwards every block
of the principal chain that the other one had when it answered. -/
theorem synchronisation_complete (hS : S.Complete KeyPair) {a b b' : State} (ha : Reachable S a)
    (hb : Reachable S b) (hproduced : Produced S KeyPair a.application.blockchain.principal)
    {answer : List UInt8} (hexchange : Exchange S a b b' answer) {socket : Nat}
    {after : List UInt8}
    (hfits : ForksFit S
      (answerTo a (blockGetHash b.application.blockchain.principal)).reverse b')
    {hashed : Set (List UInt8)} (hfree : S.CollisionFree hashed)
    (hzero : ∀ string ∈ hashed, S.generichash string ≠ Bytes.zero generichashBytes)
    (hchain : Hashed S hashed a.application.blockchain.principal)
    (hblocks :
      ∀ c, handleMessage (handlers S) socket b' (answer ++ after) answer.length = .ok c →
      ∀ block, Representation.Stored c.application.blockchain block → Hashed S hashed block) :
    ∃ c, handleMessage (handlers S) socket b' (answer ++ after) answer.length = .ok c ∧
      Knows c.application.blockchain a.application.blockchain.principal := by
  obtain ⟨hanswer, hlength⟩ := hexchange.answer_eq
  subst hanswer
  obtain ⟨subs, hsubs, hloop⟩ := @handleMessage_answer S b' socket _ hlength after
  rw [hloop] at hblocks ⊢
  obtain ⟨hkept, hb'⟩ := hexchange.later hb
  have hsound : ∀ m ∈ (answerTo a (blockGetHash b.application.blockchain.principal)).reverse,
      Sound S m := by
    intro m hm
    rw [List.mem_reverse] at hm
    obtain ⟨data, prev, hsuffix, rfl⟩ := mem_branch hm
    obtain ⟨hconsistent, haccept⟩ := hproduced.accepted hS hlength hsuffix hm
    obtain ⟨-, sortitionHash, -, hchecks, -⟩ := (accept_eq_ok_iff _ S prev data prev).mp haccept
    exact ⟨hconsistent, prev, sortitionHash, hchecks⟩
  obtain ⟨c, hc⟩ := returns_of_forksFit hsubs hsound hb'.run hfits
  refine ⟨c, hc, ?_⟩
  apply knows_of_received hfree hzero hchain
    (fun data prev hsuffix hmem => hproduced.accepted hS hlength hsuffix hmem) hsubs hb'.run hc
    (hblocks c hc)
  intro hsuffix
  obtain ⟨storedA, builtA⟩ := (MalformedMessages.nodeRun_of_running ha.run).builtRun
  obtain ⟨storedB, builtB⟩ := (MalformedMessages.nodeRun_of_running hb.run).builtRun
  have hknows : Knows b.application.blockchain (blockchainGetBlock a.application.blockchain
      (blockGetHash b.application.blockchain.principal)) := by
    rcases eq_or_ne (blockchainGetBlock a.application.blockchain
      (blockGetHash b.application.blockchain.principal)) [] with hnull | hfound
    · rw [hnull]
      exact knows_of_alike builtB.tree .nil (.inl rfl)
    · have hhash := (Representation.blockchainGetBlock_mem builtA.tree hfound).2
      have hprincipal : Hashed S hashed b.application.blockchain.principal := by
        rcases builtB.tree.principal_mem with hnull | hmem
        · rw [hnull]
          exact ⟨[], .null, List.forall_mem_nil _⟩
        · exact hblocks c hc _ (received_stored hc
            (hkept _ ((Representation.stored_iff builtB.tree _).mpr hmem)))
      exact knows_of_alike builtB.tree
        ((hchain.of_suffix hsuffix).alike hfree hzero hprincipal hhash) builtB.tree.principal_mem
  intro data prev hdata
  obtain ⟨block, hblock, hhash⟩ := hknows data prev hdata
  exact ⟨block, hkept block hblock, hhash⟩

section Genesis

open Equivocation

/-- A node that has only created its genesis block. -/
structure GenesisNode (now : UInt64) (genesis : Block) (state : State) : Prop where
  mined : minedBlock now [] [] = [genesis]
  created : blockCreate transparent now minerKey minerSecret [] [] = .ok [genesis]
  reachable : Reachable transparent state
  blockchain : state.application.blockchain =
    { storeBlock blockchainCreate genesis [] with principal := [genesis] }
  short : (Value.tuple (messageOf genesis []).values).encode.length < 2 ^ 30

theorem exists_genesisNode {now : UInt64} (hne : minedBlock now [] [] ≠ [])
    (hsize : (blockWrite [] (minedBlock now [] [])).toOption.any
      (fun bytes => bytes.length < 2 ^ 30) = true) :
    ∃ genesis state, GenesisNode now genesis state := by
  have hcreate := blockCreate_eq_minedBlock hne
  rcases hmined : minedBlock now [] [] with _ | ⟨genesis, prev⟩
  · exact absurd hmined hne
  rw [hmined] at hcreate hsize
  obtain ⟨rfl, -⟩ := blockCreate_spec hcreate
  obtain ⟨bytes, hwrite, hlength⟩ := PendingTransactions.exists_size hsize
  obtain ⟨network, hgenesis⟩ := @createGenesis_ok transparent minerKey minerSecret 0
    (fun _ => now) (fun _ => guidNull) _ _ hcreate hwrite hlength
  rw [blockWrite_eq, List.nil_append, Except.ok.injEq] at hwrite
  rw [← hwrite] at hlength
  exact ⟨genesis, _, hmined, hcreate, .start hgenesis, rfl, hlength⟩

namespace GenesisNode

variable {now : UInt64} {genesis : Block} {state : State} (h : GenesisNode now genesis state)

include h

theorem hashed {strings : Set (List UInt8)} (hmem : headerString [genesis] ∈ strings) :
    Hashed transparent strings [genesis] := by
  refine ⟨_, .create .null (List.forall_mem_nil _) h.created, ?_⟩
  intro string hstring
  obtain rfl := List.mem_singleton.mp hstring
  exact hmem

theorem produced : Produced transparent TransparentKeyPair [genesis] := by
  intro data prev hsuffix
  rcases List.suffix_cons_iff.mp hsuffix with heq | hnil
  · obtain ⟨rfl, rfl⟩ := List.cons.inj heq
    exact ⟨now, minerKey, minerSecret, [], BlockRelay.minerKeys,
      List.forall_mem_nil _, h.created⟩
  · exact absurd (List.suffix_nil.mp hnil) (List.cons_ne_nil _ _)

theorem accepted : (messageOf genesis []).Consistent transparent ∧
    (messageOf genesis []).accept transparent [] = .ok [genesis] := by
  have hshort := h.short
  exact accept_of_blockCreate transparent_complete BlockRelay.minerKeys (List.forall_mem_nil _)
    h.created (by omega)

end GenesisNode

theorem lookup_genesis (genesis : Block) (hash : Hash) :
    blockchainGetBlock
      { storeBlock blockchainCreate genesis [] with principal := [genesis] } hash =
      if hash = genesis.hash then [genesis] else [] := by
  change ((Library.Maps.Map.set [] genesis.hash [genesis]).get hash).getD [] = _
  rw [Library.Maps.Map.get_set]
  split_ifs with h
  · rfl
  · rfl

theorem parentIn_genesis {own genesis : Block} {b : State} (hown : b.application.blockchain =
      { storeBlock blockchainCreate own [] with principal := [own] })
    (hzero : own.hash ≠ Bytes.zero generichashBytes) :
    parentIn b (messageOf genesis []) = [] := by
  rw [parentIn, hown, lookup_genesis]
  exact if_neg hzero.symm

theorem stored_of_genesis {genesis own : Block} {b c : State} {sub : Tuple}
    (hconsistent : (messageOf genesis []).Consistent transparent)
    (haccept : (messageOf genesis []).accept transparent [] = .ok [genesis])
    (hown : b.application.blockchain =
      { storeBlock blockchainCreate own [] with principal := [own] })
    (hsub : Represents sub (messageOf genesis []).values)
    (hzero : own.hash ≠ Bytes.zero generichashBytes)
    (hreceive : receiveBlock transparent b sub = .ok c) {block : BlockPtr}
    (hblock : Representation.Stored c.application.blockchain block) :
    block = [own] ∨ block = [genesis] := by
  have hcreated := blockCreateFromTuple_eq hsub hconsistent
    (blockchainGetBlock b.application.blockchain)
  rw [show blockchainGetBlock b.application.blockchain (messageOf genesis []).header.prevHash =
    parentIn b (messageOf genesis []) from rfl, parentIn_genesis hown hzero, haccept] at hcreated
  rw [receiveBlock, hcreated, ok_bind, if_neg (List.cons_ne_nil _ _), bind_eq_ok] at hreceive
  obtain ⟨⟨added, d⟩, hadd, hreceive⟩ := hreceive
  have hsame : c = d := by
    cases added with
    | true =>
        simp only [if_true, List.tail_cons] at hreceive
        rw [forkAt, if_neg (by simp)] at hreceive
        exact (Except.ok.inj hreceive).symm
    | false => exact (Except.ok.inj hreceive).symm
  subst hsame
  obtain ⟨bc, pool, hstore, rfl⟩ := addBlockToState_spec hadd
  rcases (stored_addBlock_iff hstore block).mp hblock with hold | ⟨-, hnew⟩
  · rw [hown] at hold
    exact Or.inl (List.mem_singleton.mp hold)
  · exact Or.inr hnew

/-- A node that has a genesis block of its own gets that of another one. -/
theorem synchronisation_complete_genesis : ∃ (genesis own : Block) (a b b' c : State)
    (answer : List UInt8), GenesisNode 1 genesis a ∧ GenesisNode 2 own b ∧
      Exchange transparent a b b' answer ∧
      handleMessage (handlers transparent) 0 b' (answer ++ []) answer.length = .ok c ∧
      Knows c.application.blockchain [genesis] := by
  obtain ⟨genesis, a, ha⟩ := @exists_genesisNode 1 (by decide +kernel) (by decide +kernel)
  obtain ⟨own, b, hb⟩ := @exists_genesisNode 2 (by decide +kernel) (by decide +kernel)
  have hother : blockGetHash (minedBlock 2 [] []) ≠ blockGetHash (minedBlock 1 [] []) := by
    decide +kernel
  have hnotZero : blockGetHash (minedBlock 2 [] []) ≠ Bytes.zero generichashBytes := by
    decide +kernel
  have hstrings : transparent.generichash (headerString (minedBlock 1 [] [])) ≠
      transparent.generichash (headerString (minedBlock 2 [] [])) := by
    decide +kernel
  have hzeros : transparent.generichash (headerString (minedBlock 1 [] [])) ≠
        Bytes.zero generichashBytes ∧
      transparent.generichash (headerString (minedBlock 2 [] [])) ≠
        Bytes.zero generichashBytes := by
    decide +kernel
  rw [ha.mined, hb.mined] at hother hstrings hzeros
  rw [hb.mined] at hnotZero
  rw [show blockGetHash [genesis] = genesis.hash from rfl] at hother
  have hprincipal : b.application.blockchain.principal = [own] := by rw [hb.blockchain]
  have hanswer : answerTo a (blockGetHash b.application.blockchain.principal) =
      [messageOf genesis []] := by
    rw [answerTo, hprincipal, ha.blockchain, lookup_genesis, if_neg hother]
    rfl
  have hlength :
      (answerOf (answerTo a (blockGetHash b.application.blockchain.principal))).length <
      2 ^ 31 := by
    have hshort := ha.short
    rw [hanswer, answerOf, messageCreate_length, encode_tuple_length, answerValues,
      List.map_singleton, encodeAll, encodeAll, List.append_nil, messageHeaderSize]
    omega
  obtain ⟨network, hexchange⟩ := @exchange_of_fits transparent a b hlength
  have hown : ({ b with network := network } : State).application.blockchain =
      { storeBlock blockchainCreate own [] with principal := [own] } := hb.blockchain
  have hfits : ForksFit transparent
      (answerTo a (blockGetHash b.application.blockchain.principal)).reverse
      { b with network := network } := by
    rw [hanswer]
    refine ⟨?_, fun _ _ _ _ => trivial⟩
    intro block state' haccept hne _
    rw [parentIn_genesis hown hnotZero, ha.accepted.2, Except.ok.injEq] at haccept
    rw [← haccept]
    exact fun hparent => absurd rfl hparent
  let hashed : Set (List UInt8) :=
    {string | string = headerString [genesis] ∨ string = headerString [own]}
  have hfree : transparent.CollisionFree hashed := by
    rintro x (rfl | rfl) y (rfl | rfl) heq
    · rfl
    · exact absurd heq hstrings
    · exact absurd heq.symm hstrings
    · rfl
  have hzero :
      ∀ string ∈ hashed, transparent.generichash string ≠ Bytes.zero generichashBytes := by
    rintro string (rfl | rfl)
    · exact hzeros.1
    · exact hzeros.2
  have hchain : a.application.blockchain.principal = [genesis] := by rw [ha.blockchain]
  obtain ⟨c, hc, hknows⟩ := @synchronisation_complete transparent TransparentKeyPair
    transparent_complete a b _ ha.reachable hb.reachable (hchain ▸ ha.produced) _
      hexchange 0 [] hfits
    hashed hfree hzero (hchain ▸ ha.hashed (Or.inl rfl)) (by
      intro c hc block hblock
      obtain ⟨subs, hsubs, hloop⟩ :=
        @handleMessage_answer transparent { b with network := network }
        0 _ hlength []
      rw [hloop] at hc
      rw [hanswer] at hsubs
      obtain ⟨sub, rest, hsub, hnil, rfl⟩ := List.forall₂_cons_right_iff.mp hsubs
      obtain rfl := List.forall₂_nil_right_iff.mp hnil
      rw [List.foldlM_cons, bind_eq_ok] at hc
      obtain ⟨d, hreceive, hd⟩ := hc
      cases hd
      rcases stored_of_genesis ha.accepted.1 ha.accepted.2 hown hsub hnotZero hreceive hblock with
        rfl | rfl
      · exact hb.hashed (Or.inr rfl)
      · exact ha.hashed (Or.inl rfl))
  exact ⟨genesis, own, a, _, _, c, _, ha, hb, hexchange, hc, hchain ▸ hknows⟩

end Genesis

end Whosecoin.Synchronisation
