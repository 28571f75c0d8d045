import Whosecoin.PendingTransactions
import Whosecoin.RestAnswers

namespace Whosecoin.RestServer

open Library.Outcomes
open Library.ByteStrings
open Library.Maps
open Library.JsonTexts
open Library.HttpTexts
open Cryptography
open Transactions
open Accounts
open Blockchains
open BlockTree
open Chains
open DynamicBuffers
open JsonWriters
open JsonOutput
open Commands (CString isspace)
open HexBuffers (LowerHex lowerHex_binaryToHex)
open RestApi
open RestAnswers

section Requests

def Blank (text : CString) : Prop :=
  ∀ c ∈ text, isspace c = true

/-- A word that `sscanf` reads whole, with the width. -/
structure Word (width : Nat) (text : CString) : Prop where
  ne_nil : text ≠ []
  solid : ∀ c ∈ text, isspace c = false
  short : text.length ≤ width

/-- A request whose method and url are not longer than what the scan reads of them. -/
structure RequestData where
  before : CString
  method : CString
  between : CString
  url : CString
  after : CString
  before_blank : Blank before
  method_word : Word 7 method
  between_blank : Blank between
  between_ne : between ≠ []
  url_word : Word 2047 url
  ends : ∀ c ∈ after.head?, isspace c = true

/-- The bytes of the request. -/
def RequestData.data (request : RequestData) : CString :=
  request.before ++ (request.method ++ (request.between ++ (request.url ++ request.after)))

theorem scanString_word {width : Nat} {before text after : CString} (hbefore : Blank before)
    (htext : Word width text) (hafter : ∀ c ∈ after.head?, isspace c = true) :
    scanString width (before ++ (text ++ after)) = some (text, after) := by
  have hskip : (before ++ (text ++ after)).dropWhile isspace = text ++ after := by
    rw [List.dropWhile_append_of_pos hbefore]
    obtain ⟨c, rest, rfl⟩ := List.exists_cons_of_ne_nil htext.ne_nil
    rw [List.cons_append, List.dropWhile_cons_of_neg]
    rw [htext.solid c List.mem_cons_self]
    decide
  have hstop : (after.take (width - text.length)).takeWhile (fun c => !isspace c) = [] := by
    rcases after with _ | ⟨c, after⟩
    · rw [List.take_nil]
      rfl
    · rcases width - text.length with _ | room
      · rfl
      · rw [List.take_succ_cons, List.takeWhile_cons_of_neg]
        rw [hafter c rfl]
        decide
  have htaken : ((text ++ after).take width).takeWhile (fun c => !isspace c) = text := by
    rw [List.take_append, List.take_of_length_le htext.short, List.takeWhile_append_of_pos, hstop,
      List.append_nil]
    intro c hc
    rw [htext.solid c hc]
    rfl
  simp only [scanString, hskip, htaken, if_neg htext.ne_nil, List.drop_left]

theorem scanRequest_data (request : RequestData) :
    scanRequest request.data = some (request.method, request.url) := by
  have hbetween : ∀ c ∈ (request.between ++ (request.url ++ request.after)).head?,
      isspace c = true := by
    obtain ⟨c, rest, heq⟩ := List.exists_cons_of_ne_nil request.between_ne
    have hblank := request.between_blank
    rw [heq] at hblank ⊢
    intro d hd
    cases hd
    exact hblank c List.mem_cons_self
  have hmethod := scanString_word request.before_blank request.method_word hbetween
  have hurl := scanString_word request.between_blank request.url_word request.ends
  simp only [scanRequest, RequestData.data, hmethod, hurl, Option.bind_eq_bind, Option.bind_some,
    Option.pure_def]

theorem blank_nil : Blank [] :=
  fun _ hc => absurd hc List.not_mem_nil

theorem blank_space : Blank [32] := by
  unfold Blank
  decide +kernel

theorem word_get : Word 7 (ascii "GET") :=
  ⟨by decide, by decide +kernel, by decide⟩

theorem word_block : Word 2047 (ascii "/block/") :=
  ⟨by decide, by decide +kernel, by decide⟩

theorem solid_of_xdigits {param : CString} (h : ∀ c ∈ param, isxdigit c = true) :
    ∀ c ∈ ascii "/block/" ++ param, isspace c = false := by
  intro c hc
  rcases List.mem_append.mp hc with hprefix | hparam
  · exact word_block.solid c hprefix
  · have hdigit := h c hparam
    revert hdigit
    exact forall_byte (P := fun c => isxdigit c = true → isspace c = false)
      (by decide +kernel) c

theorem version_ends : ∀ c ∈ (ascii " HTTP/1.0").head?, isspace c = true := by
  decide +kernel

/-- The request for the chain. -/
def chainRequest : RequestData where
  before := []
  method := ascii "GET"
  between := [32]
  url := ascii "/block/"
  after := ascii " HTTP/1.0"
  before_blank := blank_nil
  method_word := word_get
  between_blank := blank_space
  between_ne := List.cons_ne_nil 32 []
  url_word := word_block
  ends := version_ends

/-- The request for a block. -/
def hashRequest (param : CString) (hvalid : isValidHash param = true) : RequestData :=
  { chainRequest with
    url := ascii "/block/" ++ param
    url_word := by
      rw [isValidHash, Bool.and_eq_true, decide_eq_true_eq, List.all_eq_true] at hvalid
      refine ⟨List.cons_ne_nil _ _, solid_of_xdigits hvalid.2, ?_⟩
      rw [List.length_append, hvalid.1]
      decide }

end Requests

section Replies

variable {undefined : ℚ → UInt64} {uninitialised : Nat → UInt8} {bc : Blockchain}

theorem fields_plain (reply : Reply) : ∀ field ∈ reply.fields undefined, field.Plain := by
  have hlength : 13 ∉ decimal (reply.body undefined).length := by
    intro hmem
    have hdigit := isDigit_of_mem_decimal hmem
    revert hdigit
    decide
  have htype : Reply.jsonField.Plain := ⟨by decide, by decide⟩
  have hname : 58 ∉ ascii "Content-Length" ∧ 13 ∉ ascii "Content-Length" := by decide
  have horigin : Field.Plain ⟨ascii "Access-Control-Allow-Origin", ascii "*"⟩ :=
    ⟨by decide, by decide⟩
  have htyped : ∀ field ∈ reply.typeFields, field = Reply.jsonField := by
    cases reply with
    | missing => simp [Reply.typeFields]
    | document v => simp [Reply.typeFields]
    | badRequest => simp [Reply.typeFields]
    | unknown => simp [Reply.typeFields]
  intro field hfield
  rw [Reply.fields, List.mem_append, List.mem_cons, List.mem_singleton] at hfield
  rcases hfield with hfield | rfl | rfl
  · rwa [htyped field hfield]
  · exact ⟨hname, hlength⟩
  · exact horigin

theorem length_field (reply : Reply) :
    fieldNamed (reply.fields undefined) (ascii "Content-Length") =
    some (decimal (reply.body undefined).length) := by
  cases reply with
  | missing => rfl
  | document v => rfl
  | badRequest => rfl
  | unknown => rfl

theorem readMessage_reply (reply : Reply) (after : List UInt8) :
    readMessage (ascii "Content-Length") (reply.text undefined ++ after) =
      some (reply.message undefined, after) := by
  have hversion : 32 ∉ ascii "HTTP/1.0" ∧ 13 ∉ ascii "HTTP/1.0" := by decide
  have hreason : 13 ∉ httpReasonPhrase reply.code := by
    cases reply with
    | missing => decide
    | document v => exact (by decide : 13 ∉ httpReasonPhrase 200)
    | badRequest => decide
    | unknown => decide
  exact readMessage_text hversion hreason (fields_plain reply) (length_field reply) after

/-- The request gets the reply, as soon as there is room for it, and `none` stands for an
assertion of the server that fails. -/
def Serves (undefined : ℚ → UInt64) (call : Outcome (Option (List UInt8))) :
    Option Reply → Prop
  | none => call = .error .assertion
  | some reply => (Returns call ↔ (reply.text undefined).length < 2 ^ 31) ∧
      ∀ sent, call = .ok sent → ∃ text, sent = some text ∧ ∀ after,
        readMessage (ascii "Content-Length") (text ++ after) =
          some (reply.message undefined, after)

theorem onRequest_serves (hchildren : Childful bc.children) (request : RequestData) :
    Serves undefined (onRequest (http undefined uninitialised bc) request.data)
      (replyTo bc request.url) := by
  have hanswers := @respond_answers undefined uninitialised bc hchildren request.url
  rw [onRequest, scanRequest_data]
  cases hreply : replyTo bc request.url with
  | none =>
    rw [hreply] at hanswers
    have hfault : respond request.url (http undefined uninitialised bc) = .error .assertion :=
      hanswers
    simp only [hfault]
    rfl
  | some reply =>
    rw [hreply] at hanswers
    have hsends : Sends undefined reply (respond request.url (http undefined uninitialised bc)) :=
      hanswers
    constructor
    · rw [← hsends.returns_iff, returns_bind]
      constructor
      · rintro ⟨buf, hbuf, -⟩
        exact ⟨buf, hbuf⟩
      · rintro ⟨buf, hbuf⟩
        exact ⟨buf, hbuf, returns_ok _⟩
    · intro sent hsent
      obtain ⟨buf, hbuf, hlive⟩ := (bind_eq_ok _ _ _).mp hsent
      cases hlive
      refine ⟨_, rfl, fun after => ?_⟩
      rw [hsends.live_eq buf hbuf]
      exact readMessage_reply reply after

theorem childful_of_run {S : Sodium} (run : Representation.NodeRun S bc) :
    Childful bc.children := by
  obtain ⟨stored, built⟩ := run.builtRun
  exact childful_of_tree built.tree

theorem valid_of_lower {param : CString} {hash : Hash}
    (h : lower param = binaryToHex hash.toList) :
    isValidHash param = true := by
  have hlength := congrArg List.length h
  rw [lower, List.length_map, JsonWriters.length_binaryToHex, hash.length_eq] at hlength
  rw [isValidHash, Bool.and_eq_true, decide_eq_true_eq, List.all_eq_true]
  refine ⟨hlength, ?_⟩
  intro c hc
  have hlower : LowerHex (lowerDigit c) := by
    apply lowerHex_binaryToHex hash.toList
    rw [← h]
    exact List.mem_map_of_mem hc
  rw [isxdigit, ← (scan_lowerDigit c).2.1]
  obtain ⟨d, hd, heq⟩ := hlower.exists_digit
  rw [← heq, (HexBuffers.scan_hexDigit hd).2.2]
  rfl

/-- A url that ends in a valid hash asks for the block with that hash. -/
theorem replyTo_hash {param ending : CString} (hvalid : isValidHash param)
    (hending : ending ∈ endings) :
    replyTo bc (ascii "/block/" ++ (param ++ ending)) = some (hashReply bc param) := by
  rw [isValidHash, Bool.and_eq_true, decide_eq_true_eq, List.all_eq_true] at hvalid
  obtain ⟨hlength, hdigits⟩ := hvalid
  have hother : ∀ c : UInt8, isxdigit c = false → c ∉ param := by
    intro c hc hmem
    rw [hdigits c hmem] at hc
    cases hc
  have hslash : 47 ∉ param := hother 47 (by decide)
  have hcolon : param.head? ≠ some 58 :=
    fun hhead => hother 58 (by decide) (List.mem_of_mem_head? hhead)
  have hchain : ascii "/block/" ++ (param ++ ending) ∉ endings.map (ascii "/block" ++ ·) := by
    intro hmem
    have hshort : ∀ url ∈ endings.map (ascii "/block" ++ ·), url.length ≤ 8 := by decide
    have hlong := hshort _ hmem
    rw [List.length_append, List.length_append, hlength] at hlong
    have hbytes : generichashBytes = 32 := rfl
    omega
  obtain ⟨htake, hdrop⟩ := Routing.split_at_slash hslash (mem_endings hending)
  have hparam : paramOf (ascii "/block/" ++ (param ++ ending)) = some param := by
    rw [paramOf, dropPrefix?_append]
    simp only [hdrop, if_pos hending, htake]
  rw [replyTo, if_neg hchain, hparam]
  simp only [if_neg hcolon]
  rw [if_neg]
  rintro rfl
  exact hcolon rfl

theorem hashReply_of_get {param : CString} {hash : Hash} {data : Block} {prev : BlockPtr}
    (hparam : lower param = binaryToHex hash.toList)
    (hget : bc.blocks.get hash = some (data :: prev)) :
    hashReply bc param = .document (blockJson bc.children data prev) := by
  rw [get_eq_find?, Option.map_eq_some_iff] at hget
  obtain ⟨⟨key, block⟩, hfind, rfl⟩ := hget
  rw [hashReply, if_pos (valid_of_lower hparam), hparam, hfind]

theorem lower_binaryToHex (bytes : List UInt8) :
    lower (binaryToHex bytes) = binaryToHex bytes := by
  have hdigit : ∀ c, LowerHex c → lowerDigit c = c := by
    intro c
    refine forall_byte (P := fun c => LowerHex c → lowerDigit c = c) ?_ c
    unfold LowerHex
    decide +kernel
  rw [lower]
  conv_rhs => rw [← List.map_id (binaryToHex bytes)]
  exact List.map_congr_left fun c hc => hdigit c (lowerHex_binaryToHex bytes c hc)

theorem validHash (hash : Hash) : isValidHash (binaryToHex hash.toList) = true :=
  valid_of_lower (lower_binaryToHex hash.toList)

end Replies

section Lengths

theorem length_decimal_mono {m n : Nat} (h : m ≤ n) :
    (decimal m).length ≤ (decimal n).length := by
  have hdigits : ∀ k, k ≠ 0 → (decimal k).length = (Nat.digits 10 k).length := by
    intro k hk
    rw [decimal, if_neg hk, List.length_reverse, List.length_map]
  by_cases hm : m = 0
  · rw [hm]
    exact List.length_pos_iff.mpr (decimal_ne_nil n)
  · rw [hdigits m hm, hdigits n (by omega)]
    exact Nat.le_length_digits_le 10 m n h

theorem length_element_le {v : Json} {vs : List Json} (hv : v ∈ vs) :
    v.text.length ≤ (textElements vs).length := by
  induction vs with
  | nil => cases hv
  | cons w vs ih =>
      rcases vs with _ | ⟨w', vs⟩
      · rw [List.mem_singleton.mp hv, textElements]
      · rw [textElements, List.length_append, List.length_cons]
        rcases List.mem_cons.mp hv with rfl | hv
        · omega
        · have hrest := ih hv
          omega

theorem mapElements_eq (f : ℤ → ℤ) (vs : List Json) :
    mapElements f vs = vs.map (Json.map f) := by
  induction vs with
  | nil => rfl
  | cons v vs ih => rw [mapElements, List.map_cons, ih]

variable {undefined : ℚ → UInt64}

theorem length_text_document (v : Json) : ((Reply.document v).text undefined).length =
    (statusLine (ascii "HTTP/1.0") 200 (httpReasonPhrase 200)).length +
      ((((Reply.document v).fields undefined).flatMap Field.text).length +
        (crlf.length + ((Reply.document v).body undefined).length)) := by
  rw [Reply.text, Message.text, List.length_append, List.length_append, List.length_append]
  rfl

theorem length_text_element_le {v : Json} {vs : List Json} (hv : v ∈ vs) :
    ((Reply.document v).text undefined).length ≤
      ((Reply.document (.array vs)).text undefined).length := by
  have hbody : ((Reply.document v).body undefined).length ≤
      ((Reply.document (.array vs)).body undefined).length := by
    have helement :=
      length_element_le (List.mem_map_of_mem (f := Json.map (converted undefined)) hv)
    rw [Reply.body, Reply.body, Json.map, mapElements_eq, Json.text, List.length_cons,
      List.length_append]
    omega
  have hfields : (((Reply.document v).fields undefined).flatMap Field.text).length ≤
      (((Reply.document (.array vs)).fields undefined).flatMap Field.text).length := by
    have hdigits := length_decimal_mono hbody
    simp only [Reply.fields, Reply.typeFields, List.cons_append, List.nil_append,
      List.flatMap_cons, List.length_append, Field.text, List.length_cons]
    omega
  rw [length_text_document, length_text_document]
  omega

end Lengths

section Browsing

variable {undefined : ℚ → UInt64} {uninitialised : Nat → UInt8} {bc : Blockchain}

/-- The client has got the message as the answer to its request. -/
def Fetches (undefined : ℚ → UInt64) (uninitialised : Nat → UInt8) (bc : Blockchain)
    (request : RequestData) (message : Message) : Prop :=
  ∃ text, onRequest (http undefined uninitialised bc) request.data = .ok (some text) ∧
    readMessage (ascii "Content-Length") text = some (message, [])

theorem fetches_iff (hchildren : Childful bc.children) {request : RequestData} {reply : Reply}
    (hreply : replyTo bc request.url = some reply) {message : Message} :
    Fetches undefined uninitialised bc request message ↔
      message = reply.message undefined ∧ (reply.text undefined).length < 2 ^ 31 := by
  have hserves := @onRequest_serves undefined uninitialised bc hchildren request
  rw [hreply] at hserves
  obtain ⟨hreturns, hsent⟩ := hserves
  constructor
  · rintro ⟨text, hcall, hread⟩
    obtain ⟨text', heq, hmessage⟩ := hsent _ hcall
    cases heq
    have hempty := hmessage []
    rw [List.append_nil, hread, Option.some.injEq, Prod.mk.injEq] at hempty
    exact ⟨hempty.1, hreturns.mp ⟨_, hcall⟩⟩
  · rintro ⟨rfl, hshort⟩
    obtain ⟨sent, hcall⟩ := hreturns.mpr hshort
    obtain ⟨text, rfl, hmessage⟩ := hsent _ hcall
    have hempty := hmessage []
    rw [List.append_nil] at hempty
    exact ⟨text, hcall, hempty⟩

/-- The member with a name that is a string. -/
def stringNamed (name : String) (v : Json) : Option CString :=
  match v.member (ascii name) with
  | some (.string s) => some s.chars
  | _ => none

/-- The hash of the block that a document says is the previous one. -/
def prevNamed (v : Json) : Option CString :=
  (v.member (ascii "header")).bind (stringNamed "prev_block")

theorem names_blockJson (children : BlockPtr → List BlockPtr) (data : Block) (prev : BlockPtr)
    (f : ℤ → ℤ) :
    stringNamed "hash" ((blockJson children data prev).map f) =
        some (binaryToHex data.hash.toList) ∧
      prevNamed ((blockJson children data prev).map f) =
        some (binaryToHex (blockGetHash prev).toList) := by
  constructor
  · rfl
  · rfl

theorem exists_of_mem_chainJson {children : BlockPtr → List BlockPtr}
    {block : BlockPtr} {v : Json}
    (hv : v ∈ chainJson children block) :
    ∃ data prev, data :: prev <:+ block ∧ v = blockJson children data prev := by
  induction block with
  | nil => cases hv
  | cons data prev ih =>
      rcases List.mem_cons.mp hv with rfl | hv
      · exact ⟨data, prev, List.suffix_rfl, rfl⟩
      · obtain ⟨data', prev', hsuffix, rfl⟩ := ih hv
        exact ⟨data', prev', hsuffix.trans (List.suffix_cons data prev), rfl⟩

theorem hashes_chainJson (children : BlockPtr → List BlockPtr)
    (block : BlockPtr) (f : ℤ → ℤ) :
    ((chainJson children block).map (Json.map f)).map (stringNamed "hash") =
      block.map fun data => some (binaryToHex data.hash.toList) := by
  induction block with
  | nil => rfl
  | cons data prev ih =>
      rw [chainJson, List.map_cons, List.map_cons, List.map_cons, ih,
        (names_blockJson children data prev f).1]

theorem linked_chainJson (children : BlockPtr → List BlockPtr)
    (block : BlockPtr) (f : ℤ → ℤ) :
    ((chainJson children block).map (Json.map f)).IsChain
      fun v w => prevNamed v = stringNamed "hash" w := by
  induction block with
  | nil => exact .nil
  | cons data prev ih =>
      rcases prev with _ | ⟨data', prev⟩
      · exact .singleton _
      · refine .cons_cons ?_ ih
        rw [(names_blockJson children data _ f).2, (names_blockJson children data' prev f).1]
        rfl

/-- From the document of the chain a client gets to each of its blocks. The blocks are those
of the principal chain, each with the hash of the next as its previous one, and the server
gives the same document for the hash of a block, in either case of the digits. -/
theorem chain_browsable {S : Sodium} (run : Representation.NodeRun S bc) {request : RequestData}
    (hurl : request.url ∈ endings.map (ascii "/block" ++ ·)) {message : Message}
    (hfetch : Fetches undefined uninitialised bc request message) :
    message.code = 200 ∧ ∃ docs, parse message.body = some (.array docs) ∧
      docs.map (stringNamed "hash") =
        bc.principal.map (fun data => some (binaryToHex data.hash.toList)) ∧
      docs.IsChain (fun v w => prevNamed v = stringNamed "hash" w) ∧
      ∀ v ∈ docs, ∃ hash, stringNamed "hash" v = some hash ∧
        ∀ (request' : RequestData) (param ending : CString), ending ∈ endings →
          lower param = hash → request'.url = ascii "/block/" ++ (param ++ ending) →
          ∃ message', Fetches undefined uninitialised bc request' message' ∧
            message'.code = 200 ∧ parse message'.body = some v := by
  obtain ⟨stored, built⟩ := run.builtRun
  have tree := built.tree
  have hchildren := childful_of_tree tree
  have hreply : replyTo bc request.url =
      some (.document (.array (chainJson bc.children bc.principal))) := if_pos hurl
  obtain ⟨rfl, hshort⟩ := (fetches_iff hchildren hreply).mp hfetch
  refine ⟨rfl, (chainJson bc.children bc.principal).map (Json.map (converted undefined)), ?_,
    hashes_chainJson _ _ _, linked_chainJson _ _ _, ?_⟩
  · rw [Reply.message, Reply.body, Json.map, mapElements_eq, parse_text]
  · intro v hv
    obtain ⟨w, hw, rfl⟩ := List.mem_map.mp hv
    obtain ⟨data, prev, hsuffix, rfl⟩ := exists_of_mem_chainJson hw
    have hstored := tree.mem_of_suffix hsuffix
    refine ⟨binaryToHex data.hash.toList, (names_blockJson _ _ _ _).1, ?_⟩
    intro request' param ending hending hparam hurl'
    have hreply' :
        replyTo bc request'.url = some (.document (blockJson bc.children data prev)) := by
      rw [hurl', replyTo_hash (valid_of_lower hparam) hending,
        hashReply_of_get hparam (tree.get_hash hstored)]
    have hfits := (length_text_element_le hw).trans_lt hshort
    refine ⟨_, (fetches_iff hchildren hreply').mpr ⟨rfl, hfits⟩, rfl, ?_⟩
    rw [Reply.message, Reply.body, parse_text]

theorem siblingsJson_singleton {children : BlockPtr → List BlockPtr} {data : Block}
    {prev : BlockPtr} (h : children prev = [data :: prev]) :
    siblingsJson children data prev = [] := by
  rw [siblingsJson, h]
  split_ifs
  · rw [List.filterMap_cons, siblingJson, if_neg (not_not.mpr rfl), List.filterMap_nil]
  · rfl

theorem chainJson_second (first second : Block) :
    chainJson (PendingTransactions.secondChain first second).children [second, first] =
      chainJson (fun _ => []) [second, first] := by
  have hsecond : siblingsJson (PendingTransactions.secondChain first second).children second
      [first] = [] := by
    refine siblingsJson_singleton ?_
    exact Function.update_self _ _ _
  have hnone : siblingsJson (fun _ => []) second [first] = [] := rfl
  have hfirst : ∀ children : BlockPtr → List BlockPtr, siblingsJson children first [] = [] :=
    fun _ => rfl
  simp only [chainJson, blockJson, hsecond, hnone, hfirst]

/-- The two blocks of the miner, the second with a payment, and each under its hash. -/
theorem chain_browsable_second : ∃ first second, Representation.NodeRun transparent
      (PendingTransactions.secondChain first second) ∧
    ∃ message first' second', Fetches (fun _ => 0) (fun _ => 0)
        (PendingTransactions.secondChain first second) chainRequest message ∧
      parse message.body = some (.array [second', first']) ∧
      stringNamed "hash" first' = some (binaryToHex first.hash.toList) ∧
      stringNamed "hash" second' = some (binaryToHex second.hash.toList) ∧
      prevNamed second' = stringNamed "hash" first' ∧
      (∃ message', Fetches (fun _ => 0) (fun _ => 0)
          (PendingTransactions.secondChain first second)
          (hashRequest (binaryToHex first.hash.toList) (validHash first.hash)) message' ∧
        parse message'.body = some first') ∧
      ∃ message', Fetches (fun _ => 0) (fun _ => 0)
          (PendingTransactions.secondChain first second)
          (hashRequest (binaryToHex second.hash.toList) (validHash second.hash)) message' ∧
        parse message'.body = some second' := by
  obtain ⟨first, second, h⟩ := PendingTransactions.exists_spent
  have run := h.run.nodeRun
  have hreply : replyTo (PendingTransactions.secondChain first second) chainRequest.url =
      some (.document (.array (chainJson
        (PendingTransactions.secondChain first second).children [second, first]))) := rfl
  have hshort : ((Reply.document (.array (chainJson
      (PendingTransactions.secondChain first second).children [second, first]))).text
        fun _ => 0).length < 2 ^ 31 := by
    rw [chainJson_second, ← h.minedBlock_eq.2]
    decide +kernel
  obtain ⟨stored, built⟩ := run.builtRun
  have hfetch := (@fetches_iff (fun _ => 0) (fun _ => 0) _ (childful_of_tree built.tree)
    chainRequest _ hreply _).mpr ⟨rfl, hshort⟩
  obtain ⟨-, docs, hparse, hhashes, hlinked, hblocks⟩ := chain_browsable run (by decide) hfetch
  have hlength := congrArg List.length hhashes
  rw [List.length_map, List.length_map] at hlength
  obtain ⟨second', first', rfl⟩ := List.length_eq_two.mp hlength
  have hsecond : stringNamed "hash" second' = some (binaryToHex second.hash.toList) :=
    (List.cons.inj hhashes).1
  have hfirst : stringNamed "hash" first' = some (binaryToHex first.hash.toList) :=
    (List.cons.inj (List.cons.inj hhashes).2).1
  have hasked : ∀ (hash : Hash) (v : Json), v ∈ [second', first'] →
      stringNamed "hash" v = some (binaryToHex hash.toList) →
      ∃ message', Fetches (fun _ => 0) (fun _ => 0)
          (PendingTransactions.secondChain first second)
          (hashRequest (binaryToHex hash.toList) (validHash hash)) message' ∧
        parse message'.body = some v := by
    intro hash v hv hnamed
    obtain ⟨param, hparam, hserved⟩ := hblocks v hv
    rw [hnamed, Option.some.injEq] at hparam
    subst hparam
    obtain ⟨message', hfetch', -, hbody⟩ := hserved (hashRequest _ (validHash hash)) _ []
      List.mem_cons_self (lower_binaryToHex _) (by rw [List.append_nil]; rfl)
    exact ⟨message', hfetch', hbody⟩
  exact ⟨first, second, run, _, first', second', hfetch, hparse, hfirst, hsecond,
    (List.isChain_cons_cons.mp hlinked).1, hasked _ _ (by simp) hfirst,
    hasked _ _ (by simp) hsecond⟩

end Browsing

end Whosecoin.RestServer
