import Whosecoin.Representation
import Whosecoin.RestApi

namespace Whosecoin.RestAnswers

open Library.Outcomes
open Library.ByteStrings
open Library.Maps
open Library.JsonTexts
open Library.HttpTexts
open Cryptography
open Transactions
open Accounts
open Blockchains
open BlockTree
open DynamicBuffers
open Http
open JsonWriters
open JsonOutput
open Commands (CString isspace)
open HexBuffers
open RestApi

section Specification

/-- What the server has to say about a url. -/
inductive Reply where
  | document (v : Json)
  | badRequest
  | unknown
  | missing

/-- The endings of a url that the server does not look at. -/
def endings : List CString :=
  [[], [47], [47, 47]]

/-- The part of a url that has to be a hash. -/
def paramOf (url : CString) : Option CString :=
  match url.dropPrefix? (ascii "/block/") with
  | none => none
  | some rest =>
      if rest.dropWhile (· ≠ 47) ∈ endings then some (rest.takeWhile (· ≠ 47)) else none

/-- A hexadecimal digit in lower case. -/
def lowerDigit (c : UInt8) : UInt8 :=
  if 65 ≤ c ∧ c ≤ 70 then c + 32 else c

def lower (hex : CString) : CString :=
  hex.map lowerDigit

/-- The reply to a request for a block by its hash. -/
def hashReply (bc : Blockchain) (param : CString) : Reply :=
  if isValidHash param then
    match bc.blocks.find? fun entry => binaryToHex entry.1.toList = lower param with
    | some (_, data :: prev) => .document (blockJson bc.children data prev)
    | _ => .unknown
  else .badRequest

/-- The reply to a url. There is none to a single colon in the place of the hash: the node
aborts. A longer parameter that begins with a colon does not match. -/
def replyTo (bc : Blockchain) (url : CString) : Option Reply :=
  if url ∈ endings.map (ascii "/block" ++ ·) then
    some (.document (.array (chainJson bc.children bc.principal)))
  else
    match paramOf url with
    | none => some .missing
    | some param =>
        if param = [58] then none
        else if param.head? = some 58 then some .missing
        else some (hashReply bc param)

variable (undefined : ℚ → UInt64)

namespace Reply

def code : Reply → Nat
  | document _ => 200
  | badRequest => 400
  | unknown => 404
  | missing => 404

/-- The document of a reply, with its numbers as the writer converts them. -/
def body : Reply → List UInt8
  | document v => (v.map (converted undefined)).text
  | _ => []

def jsonField : Field :=
  ⟨ascii "Content-Type", ascii "application/json"⟩

/-- Only the reply that no handler has written lacks a type. -/
def typeFields : Reply → List Field
  | document _ => [jsonField]
  | badRequest => [jsonField]
  | unknown => [jsonField]
  | missing => []

def fields (reply : Reply) : List Field :=
  reply.typeFields ++ [⟨ascii "Content-Length", decimal (reply.body undefined).length⟩,
    ⟨ascii "Access-Control-Allow-Origin", ascii "*"⟩]

/-- The reply as a client reads it. -/
def message (reply : Reply) : Message where
  code := reply.code
  fields := reply.fields undefined
  body := reply.body undefined

/-- The bytes of the reply. -/
def text (reply : Reply) : List UInt8 :=
  (reply.message undefined).text (ascii "HTTP/1.0") (httpReasonPhrase reply.code)

end Reply

end Specification

section Matching

variable {params : List (List UInt8)} {url : CString}

theorem resolve_literals {front pattern : CString} (hfront : 58 ∉ front) (hne : pattern ≠ []) :
    resolvePattern params (front ++ pattern) url =
      match url.dropPrefix? front with
      | none => (false, params)
      | some rest => resolvePattern params pattern rest := by
  induction front generalizing url with
  | nil =>
      rw [List.dropPrefix?_nil]
      rfl
  | cons c front ih =>
      rw [List.mem_cons, not_or] at hfront
      obtain ⟨hc, hfront⟩ := hfront
      rcases url with _ | ⟨d, url⟩
      · rw [List.cons_append, Routing.resolvePattern_end (Ne.symm hc), if_neg (by simp [hne])]
        rfl
      · rw [List.cons_append, List.dropPrefix?]
        by_cases hcd : d = c
        · subst hcd
          rw [Routing.resolvePattern_literal, ih hfront, if_pos (beq_self_eq_true d)]
        · rw [Routing.resolvePattern_mismatch (Ne.symm hc) (Ne.symm hcd),
            if_neg (by simpa using hcd)]

theorem resolve_slash :
    resolvePattern params [47] url = (decide (url ∈ endings), params) := by
  rcases url with _ | ⟨d, url⟩
  · rfl
  · by_cases hd : d = 47
    · subst hd
      rw [Routing.resolvePattern_literal, resolvePattern]
      simp [endings]
    · rw [Routing.resolvePattern_mismatch (by decide) (Ne.symm hd)]
      simp [endings, hd]

theorem resolve_wildcard : resolvePattern params [58, 47] url =
    if url.head? = some 58 then (decide (url.tail ∈ endings), params)
    else (decide (url.dropWhile (· ≠ 47) ∈ endings),
      params ++ [url.takeWhile (· ≠ 47)]) := by
  by_cases hcolon : url.head? = some 58
  · obtain ⟨rest, rfl⟩ := List.head?_eq_some_iff.mp hcolon
    rw [if_pos hcolon, Routing.resolvePattern_literal, resolve_slash, List.tail_cons]
  · rw [if_neg hcolon, Routing.resolvePattern_wildcard hcolon, resolve_slash]

theorem requestCreate_chain (url : CString) : requestCreate (ascii "/block/") url =
    if url ∈ endings.map (ascii "/block" ++ ·) then some ⟨url, []⟩ else none := by
  have hpattern : ascii "/block/" = ascii "/block" ++ [47] := by decide
  have hfront : 58 ∉ ascii "/block" := by decide
  rw [requestCreate, hpattern, resolve_literals hfront (List.cons_ne_nil _ _)]
  cases hdrop : url.dropPrefix? (ascii "/block") with
  | none =>
      have hnone : url ∉ endings.map (ascii "/block" ++ ·) := by
        intro hmem
        obtain ⟨rest, -, rfl⟩ := List.mem_map.mp hmem
        rw [dropPrefix?_append] at hdrop
        cases hdrop
      rw [if_neg hnone]
      rfl
  | some rest =>
      obtain rfl := eq_of_dropPrefix? hdrop
      have hiff : ascii "/block" ++ rest ∈ endings.map (ascii "/block" ++ ·) ↔
        rest ∈ endings :=
        List.mem_map_of_injective (List.append_right_injective _)
      simp only [resolve_slash, hiff, decide_eq_true_eq]

theorem mem_endings {rest : CString} (h : rest ∈ endings) :
    rest = [] ∨ rest.head? = some 47 := by
  simp only [endings, List.mem_cons, List.not_mem_nil, or_false] at h
  rcases h with rfl | rfl | rfl
  · exact .inl rfl
  · exact .inr rfl
  · exact .inr rfl

/-- A literal colon is matched exactly where the parameter is one. -/
theorem colon_iff (rest : CString) : (58 :: rest).takeWhile (· ≠ 47) = [58] ∧
    (58 :: rest).dropWhile (· ≠ 47) ∈ endings ↔ rest ∈ endings := by
  rw [List.takeWhile_cons_of_pos (by decide), List.dropWhile_cons_of_pos (by decide)]
  constructor
  · rintro ⟨htake, hdrop⟩
    have hsplit :=
      List.takeWhile_append_dropWhile (p := (decide <| · ≠ (47 : UInt8))) (l := rest)
    rw [(List.cons.inj htake).2, List.nil_append] at hsplit
    rwa [hsplit] at hdrop
  · intro hrest
    have hsplit := @Routing.split_at_slash [] rest (by simp) (mem_endings hrest)
    rw [List.nil_append] at hsplit
    rw [hsplit.1, hsplit.2]
    exact ⟨rfl, hrest⟩

theorem requestCreate_block (url : CString) : requestCreate (ascii "/block/:/") url =
    match paramOf url with
    | none => none
    | some param =>
        if param = [58] then some ⟨url, []⟩
        else if param.head? = some 58 then none
        else some ⟨url, [param]⟩ := by
  have hpattern : ascii "/block/:/" = ascii "/block/" ++ [58, 47] := by decide
  have hfront : 58 ∉ ascii "/block/" := by decide
  rw [requestCreate, hpattern, resolve_literals hfront (List.cons_ne_nil _ _), paramOf]
  cases url.dropPrefix? (ascii "/block/") with
  | none => rfl
  | some rest =>
      simp only [resolve_wildcard]
      by_cases hcolon : rest.head? = some 58
      · obtain ⟨rest, rfl⟩ := List.head?_eq_some_iff.mp hcolon
        have hiff := colon_iff rest
        have hhead : ((58 :: rest).takeWhile (· ≠ (47 : UInt8))).head? = some 58 := by
          rw [List.takeWhile_cons_of_pos (by decide)]
          rfl
        rw [if_pos hcolon, List.tail_cons]
        by_cases hrest : rest ∈ endings
        · obtain ⟨htake, hdrop⟩ := hiff.mpr hrest
          simp only [hrest, decide_true, if_true, if_pos hdrop, htake]
        · simp only [hrest, decide_false, Bool.false_eq_true, if_false]
          by_cases hdrop : (58 :: rest).dropWhile (· ≠ 47) ∈ endings
          · have htake : (58 :: rest).takeWhile (· ≠ 47) ≠ [58] :=
              fun htake => hrest (hiff.mp ⟨htake, hdrop⟩)
            simp only [if_pos hdrop, if_neg htake, if_pos hhead]
          · simp only [if_neg hdrop]
      · have hhead : (rest.takeWhile (· ≠ 47)).head? ≠ some 58 := by
          rcases rest with _ | ⟨c, rest⟩
          · exact hcolon
          · rw [List.takeWhile_cons]
            split_ifs
            · exact hcolon
            · simp
        have hne : rest.takeWhile (· ≠ 47) ≠ [58] := by
          intro htake
          exact hhead (by rw [htake]; rfl)
        simp only [if_neg hcolon, List.nil_append, decide_eq_true_eq]
        by_cases hdrop : rest.dropWhile (· ≠ 47) ∈ endings
        · simp only [if_pos hdrop, if_neg hne, if_neg hhead]
        · simp only [if_neg hdrop]

end Matching

section Writing

variable (undefined : ℚ → UInt64)

theorem reason_short (statusCode : Nat) : (httpReasonPhrase statusCode).length < 64 := by
  unfold httpReasonPhrase
  split
  all_goals decide

theorem emits_statusLine (statusCode : Nat) : Emits (writeStatusLine statusCode)
    (statusLine (ascii "HTTP/1.0") statusCode (httpReasonPhrase statusCode)) := by
  have hwrite : writeStatusLine statusCode = dynamicBufferWrite
      (statusLine (ascii "HTTP/1.0") statusCode (httpReasonPhrase statusCode)) := by
    funext buf
    have hversion : ascii "HTTP/1.0 " = ascii "HTTP/1.0" ++ [32] := by decide
    have hblank : ascii " " = [32] := by decide
    have hend : ascii "\r\n" = crlf := by decide
    rw [writeStatusLine, require_of _ _ (reason_short statusCode), ok_bind,
      hversion, hblank, hend, statusLine]
    simp only [List.append_assoc, List.cons_append, List.nil_append]
  rw [hwrite]
  exact emits_write _

theorem emits_header (field : Field) : Emits (writeHeader field.name field.value) field.text := by
  have hwrite : writeHeader field.name field.value = dynamicBufferWrite field.text := by
    funext buf
    have hcolon : ascii ": " = [58, 32] := by decide
    have hend : ascii "\r\n" = crlf := by decide
    rw [writeHeader, hcolon, hend, Field.text]
    simp only [List.append_assoc, List.cons_append, List.nil_append]
  rw [hwrite]
  exact emits_write _

theorem emits_end : Emits writeEnd crlf := by
  have hend : ascii "\r\n" = crlf := by decide
  have hwrite : writeEnd = dynamicBufferWrite crlf := by
    funext buf
    rw [writeEnd, hend]
  rw [hwrite]
  exact emits_write crlf

theorem Reply.length_body_lt (reply : Reply) :
    (reply.body undefined).length + 1 < (reply.text undefined).length := by
  rw [Reply.text, Message.text, List.length_append, List.length_append, List.length_append, crlf]
  change (reply.body undefined).length + 1 < _ + (_ + (2 + (reply.body undefined).length))
  omega

/-- The call sends the reply, if there is room for it. -/
structure Sends (reply : Reply) (call : Outcome DynamicBuffer) : Prop where
  returns_iff : Returns call ↔ (reply.text undefined).length < 2 ^ 31
  live_eq : ∀ next, call = .ok next → next.live = reply.text undefined

variable {undefined}

theorem Sends.of_emits {reply : Reply} {write : DynamicBuffer → Outcome DynamicBuffer}
    {text : List UInt8} (h : Emits write text) (htext : reply.text undefined = text) :
    Sends undefined reply (write (dynamicBufferCreate 32)) := by
  subst htext
  have hready := fresh_create.ready
  have hreturns := h.returns_iff _ hready
  constructor
  · rw [hreturns]
    exact Iff.of_eq (congrArg (· < 2 ^ 31) (Nat.zero_add _))
  · intro next hnext
    exact (h.spec _ _ hready hnext).1

theorem Reply.fields_of_typed {reply : Reply} (htyped : reply ≠ .missing) :
    reply.fields undefined = [⟨ascii "Content-Type", ascii "application/json"⟩,
      ⟨ascii "Content-Length", decimal (reply.body undefined).length⟩,
      ⟨ascii "Access-Control-Allow-Origin", ascii "*"⟩] := by
  cases reply with
  | document v => rfl
  | badRequest => rfl
  | unknown => rfl
  | missing => exact absurd rfl htyped

theorem sends_response {reply : Reply} {res : Response} (htyped : reply ≠ .missing)
    (hcode : res.code = reply.code) (hbody : res.buf.live = reply.body undefined) :
    Sends undefined reply (writeResponse res) := by
  have hemits := (emits_statusLine res.code).then
    ((emits_header ⟨ascii "Content-Type", ascii "application/json"⟩).then
      ((emits_header ⟨ascii "Content-Length", decimal res.buf.length⟩).then
        ((emits_header ⟨ascii "Access-Control-Allow-Origin", ascii "*"⟩).then
          (emits_end.then (emits_write res.buf.live)))))
  have hsends := @Sends.of_emits undefined reply _ _ hemits (by
    rw [Reply.text, Reply.message, Message.text, Reply.fields_of_typed htyped, ← hcode, ← hbody,
      res.buf.live_length]
    simp only [List.flatMap_cons, List.flatMap_nil, List.append_nil, List.append_assoc])
  exact hsends

theorem sends_notFound : Sends undefined .missing writeNotFound := by
  have hemits := (emits_statusLine 404).then
    ((emits_header ⟨ascii "Content-Length", ascii "0"⟩).then
      ((emits_header ⟨ascii "Access-Control-Allow-Origin", ascii "*"⟩).then emits_end))
  have hzero : decimal 0 = ascii "0" := by decide
  have hsends := @Sends.of_emits undefined .missing _ _ hemits (by
    rw [Reply.text, Reply.message, Message.text]
    simp only [Reply.fields, Reply.typeFields, Reply.body, Reply.code, List.length_nil, hzero,
      List.nil_append, List.flatMap_cons, List.flatMap_nil, List.append_nil, List.append_assoc])
  exact hsends

end Writing

section Hashes

theorem forall_byte {P : UInt8 → Prop} (h : ∀ n < 256, P (UInt8.ofNat n)) (c : UInt8) :
    P c := by
  have hbyte := h c.toNat c.toNat_lt
  rwa [UInt8.ofNat_toNat] at hbyte

theorem scan_lowerDigit (c : UInt8) : isspace (lowerDigit c) = isspace c ∧
    Commands.hexDigit (lowerDigit c) = Commands.hexDigit c ∧
    (lowerDigit c = 43 ↔ c = 43) ∧ (lowerDigit c = 45 ↔ c = 45) := by
  refine forall_byte (P := fun c => isspace (lowerDigit c) = isspace c ∧
    Commands.hexDigit (lowerDigit c) = Commands.hexDigit c ∧
    (lowerDigit c = 43 ↔ c = 43) ∧ (lowerDigit c = 45 ↔ c = 45)) ?_ c
  decide +kernel

theorem lowerHex_lowerDigit {c : UInt8} (h : isxdigit c) : LowerHex (lowerDigit c) := by
  refine forall_byte (P := fun c => isxdigit c → LowerHex (lowerDigit c)) ?_ c h
  unfold LowerHex
  decide +kernel

theorem sscanfHex_lower (hex : CString) :
    Commands.sscanfHex (lower hex) = Commands.sscanfHex hex := by
  have hspace : isspace ∘ lowerDigit = isspace := by
    funext c
    exact (scan_lowerDigit c).1
  rw [Commands.sscanfHex, Commands.sscanfHex, lower, List.dropWhile_map, hspace]
  rcases hex.dropWhile isspace with _ | ⟨c, rest⟩
  · rfl
  · obtain ⟨-, hdigit, hplus, hminus⟩ := scan_lowerDigit c
    rw [List.map_cons]
    rcases rest with _ | ⟨d, rest⟩
    · simp only [List.map_nil, hplus, hminus, hdigit]
    · simp only [List.map_cons, List.head?_cons, Option.bind_some, hplus, hminus, hdigit,
        Option.bind_eq_bind, (scan_lowerDigit d).2.1]

variable {uninitialised : Nat → UInt8}

theorem fromHexLoop_lower (hex : CString) (length fuel : Nat) (i : UInt8) (data : List UInt8) :
    fromHexLoop uninitialised (lower hex) length fuel i data =
      fromHexLoop uninitialised hex length fuel i data := by
  induction fuel generalizing i data with
  | zero => rfl
  | succ fuel ih =>
      have hscan : Commands.sscanfHex ((lower hex).drop (2 * i.toNat)) =
          Commands.sscanfHex (hex.drop (2 * i.toNat)) := by
        rw [lower, ← List.map_drop]
        exact sscanfHex_lower _
      rw [fromHexLoop, fromHexLoop, hscan]
      simp only [ih]

theorem bufferFromHex_lower (fuel : Nat) (hex : CString) :
    bufferFromHex uninitialised fuel (lower hex) = bufferFromHex uninitialised fuel hex := by
  have hlength : (lower hex).length = hex.length := List.length_map _
  simp only [bufferFromHex, hlength, fromHexLoop_lower]

/-- One round for each byte, and one to see the end. -/
theorem bufferFromHex_binaryToHex {buffer : Buffer} (h : buffer.data.length < 256) :
    bufferFromHex uninitialised (buffer.data.length + 1) (binaryToHex buffer.data) =
      .ok buffer := by
  have hlength := JsonWriters.length_binaryToHex buffer.data
  have hhalf : (binaryToHex buffer.data).length / 2 % 2 ^ 32 = buffer.data.length := by
    rw [hlength]
    omega
  obtain ⟨left, hloop⟩ := @fromHexLoop_spec uninitialised [] buffer.data
    (List.replicate (binaryToHex buffer.data).length 0) h
    (by rw [List.length_replicate, hlength]; omega)
  have hloop' : fromHexLoop uninitialised (binaryToHex buffer.data) buffer.data.length
      (buffer.data.length + 1) 0 (List.replicate (binaryToHex buffer.data).length 0) =
        .ok (buffer.data ++ left) := hloop
  simp only [bufferFromHex, hhalf, hloop', ok_bind, List.take_left]
  rfl

theorem hash_of_valid {param : CString} (h : isValidHash param) : ∃ hash : Hash,
    lower param = binaryToHex hash.toList ∧
    ∃ buffer, bufferFromHex uninitialised 33 param = .ok buffer ∧
      buffer.data = hash.toList := by
  rw [isValidHash, Bool.and_eq_true, decide_eq_true_eq, List.all_eq_true] at h
  obtain ⟨hlength, hdigits⟩ := h
  have hlower : ∀ c ∈ lower param, LowerHex c := by
    intro c hc
    obtain ⟨d, hd, rfl⟩ := List.mem_map.mp hc
    exact lowerHex_lowerDigit (hdigits d hd)
  obtain ⟨data, hdata⟩ := exists_binaryToHex generichashBytes (lower param)
    ((List.length_map _).trans hlength) hlower
  have hsize : data.length = generichashBytes := by
    have hdigits := JsonWriters.length_binaryToHex data
    rw [hdata, lower, List.length_map, hlength] at hdigits
    omega
  have hlt : data.length < 256 := by
    rw [hsize]
    decide
  have hbuffer := @bufferFromHex_binaryToHex uninitialised ⟨data, hlt.trans (by decide)⟩ hlt
  have hrounds : data.length + 1 = 33 := congrArg (· + 1) hsize
  simp only [hdata, hrounds, bufferFromHex_lower] at hbuffer
  exact ⟨⟨data, hsize⟩, hdata.symm, _, hbuffer, rfl⟩

theorem binaryToHex_injective {data data' : List UInt8}
    (h : binaryToHex data = binaryToHex data') : data = data' := by
  induction data generalizing data' with
  | nil =>
      rcases data' with _ | ⟨b, data'⟩
      · rfl
      · cases h
  | cons b data ih =>
      rcases data' with _ | ⟨b', data'⟩
      · cases h
      · have hscan := congrArg Commands.sscanfHex h
        rw [binaryToHex_cons, binaryToHex_cons, sscanfHex_binaryToHex,
          sscanfHex_binaryToHex] at hscan
        rw [Option.some.inj hscan]
        rw [binaryToHex_cons, binaryToHex_cons, List.cons.injEq, List.cons.injEq] at h
        rw [ih h.2.2]

theorem get_eq_find? {m : Map Hash BlockPtr} (key : Hash) :
    m.get key = (m.find? fun entry => binaryToHex entry.1.toList = binaryToHex key.toList).map
      Prod.snd := by
  induction m with
  | nil => rfl
  | cons entry entries ih =>
      rcases entry with ⟨k, block⟩
      rw [Map.get, List.find?_cons]
      by_cases hk : k = key
      · subst hk
        simp
      · have hne : binaryToHex k.toList ≠ binaryToHex key.toList :=
          fun heq => hk (Bytes.ext (binaryToHex_injective heq))
        simp only [if_neg hk, hne, decide_false, ih]

end Hashes

section Answers

variable {undefined : ℚ → UInt64} {uninitialised : Nat → UInt8} {bc : Blockchain}

theorem sends_document {write : DynamicBuffer → Outcome DynamicBuffer} {v : Json}
    (hwrite : write = writeJson undefined v) :
    Sends undefined (.document v) (do
      let buf ← write (dynamicBufferCreate 32)
      let buf ← jsonWriteEnd buf
      writeResponse { responseCreate with buf := buf }) := by
  subst hwrite
  have hemits := emits_json undefined v
  have hready := fresh_create.ready
  have hended : ∀ middle, writeJson undefined v (dynamicBufferCreate 32) = .ok middle →
      ∃ ended, jsonWriteEnd middle = .ok ended ∧
        Sends undefined (.document v) (writeResponse { responseCreate with buf := ended }) := by
    intro middle hmiddle
    have hlive : middle.live = (v.map (converted undefined)).text ++ [44] :=
      (hemits.spec _ _ hready hmiddle).1
    obtain ⟨ended, hend, htext⟩ := jsonWriteEnd_of_live hlive
    refine ⟨ended, hend, ?_⟩
    exact sends_response (by simp) rfl htext
  have hroom := hemits.returns_iff _ hready
  constructor
  · constructor
    · intro hreturns
      obtain ⟨middle, hmiddle, hrest⟩ := (returns_bind _ _).mp hreturns
      obtain ⟨ended, hend, hsends⟩ := hended middle hmiddle
      rw [hend, ok_bind] at hrest
      exact hsends.returns_iff.mp hrest
    · intro hshort
      have hlonger := (Reply.document v).length_body_lt undefined
      obtain ⟨middle, hmiddle⟩ := hroom.mpr (by
        rw [List.length_append, List.length_singleton]
        change 0 + (((Reply.document v).body undefined).length + 1) < 2 ^ 31
        omega)
      obtain ⟨ended, hend, hsends⟩ := hended middle hmiddle
      rw [hmiddle, ok_bind, hend, ok_bind]
      exact hsends.returns_iff.mpr hshort
  · intro next hnext
    obtain ⟨middle, hmiddle, hrest⟩ := (bind_eq_ok _ _ _).mp hnext
    obtain ⟨ended, hend, hsends⟩ := hended middle hmiddle
    rw [hend, ok_bind] at hrest
    exact hsends.live_eq next hrest

/-- The outcome is what the reply asks for. -/
def Answers (undefined : ℚ → UInt64) (call : Outcome DynamicBuffer) : Option Reply → Prop
  | none => call = .error .assertion
  | some reply => Sends undefined reply call

theorem sends_chain (hchildren : Childful bc.children) (req : Request) :
    Sends undefined (.document (.array (chainJson bc.children bc.principal)))
      (onHttpBlocks undefined bc req responseCreate >>= writeResponse) := by
  have hsends := @sends_document undefined
    (writeJson undefined (.array (chainJson bc.children bc.principal))) _ rfl
  simp only [onHttpBlocks, onHttpBlocksRequest_eq undefined hchildren, bind_assoc, pure_bind]
  exact hsends

theorem sends_block (hchildren : Childful bc.children) {url param : CString} :
    Sends undefined (hashReply bc param)
      (onHttpBlockRequest undefined uninitialised bc ⟨url, [param]⟩ responseCreate >>=
        writeResponse) := by
  have hparam : requestGetParam ⟨url, [param]⟩ 0 = .ok param := rfl
  rw [onHttpBlockRequest, hparam, ok_bind, hashReply]
  by_cases hvalid : isValidHash param
  · obtain ⟨hash, hlower, buffer, hbuffer, hdata⟩ := @hash_of_valid uninitialised _ hvalid
    have hcopy := TransactionSchema.memcpy_toList hash []
    rw [List.append_nil] at hcopy
    have hunknown : Sends undefined .unknown
        (writeResponse (responseSetCode responseCreate 404)) :=
      sends_response (by simp) rfl rfl
    simp only [hvalid, Bool.not_true, Bool.false_eq_true, if_false, if_true, hbuffer, ok_bind,
      hdata, hcopy, hlower, blockchainGetBlock, get_eq_find?]
    rcases bc.blocks.find? _ with _ | ⟨key, _ | ⟨data, prev⟩⟩
    · exact hunknown
    · exact hunknown
    · have hsends := sends_document (blockWriteJson_eq undefined hchildren data prev)
      simp only [Option.map_some, Option.getD_some, ne_eq, List.cons_ne_nil, not_false_eq_true,
        if_true, bind_assoc, pure_bind]
      exact hsends
  · have hrefused : Sends undefined .badRequest
        (writeResponse (responseSetCode responseCreate 400)) :=
      sends_response (by simp) rfl rfl
    simp only [hvalid, Bool.not_false, if_true, Bool.false_eq_true, if_false]
    exact hrefused

theorem respond_answers (hchildren : Childful bc.children) (url : CString) :
    Answers undefined (respond url (http undefined uninitialised bc)) (replyTo bc url) := by
  have hserver : http undefined uninitialised bc =
      [(ascii "/block/", onHttpBlocks undefined bc),
        (ascii "/block/:/", onHttpBlockRequest undefined uninitialised bc)] := rfl
  rw [hserver, respond, requestCreate_chain, replyTo]
  by_cases hchain : url ∈ endings.map (ascii "/block" ++ ·)
  · rw [if_pos hchain, if_pos hchain]
    exact sends_chain hchildren _
  · rw [if_neg hchain, if_neg hchain, respond, requestCreate_block]
    rcases paramOf url with _ | param
    · exact sends_notFound
    · by_cases hcolon : param = [58]
      · simp only [if_pos hcolon]
        rfl
      · by_cases hhead : param.head? = some 58
        · simp only [if_neg hcolon, if_pos hhead]
          exact sends_notFound
        · simp only [if_neg hcolon, if_neg hhead]
          exact sends_block hchildren

end Answers

end Whosecoin.RestAnswers
