import Whosecoin.Library.HttpTexts
import Whosecoin.HexBuffers
import Whosecoin.JsonOutput
import Whosecoin.Routing

namespace Whosecoin.RestApi

open Library.Outcomes
open Library.ByteStrings
open Library.JsonTexts (decimal)
open Cryptography
open Transactions
open Accounts
open Blockchains
open DynamicBuffers
open Http
open JsonWriters
open Commands (CString isspace)
open HexBuffers (bufferFromHex)

section Server

/-- A `response_t`. -/
structure Response where
  buf : DynamicBuffer
  code : Nat

/-- A response is `200` unless a handler sets another code. -/
def responseCreate : Response where
  buf := dynamicBufferCreate 32
  code := 200

def responseSetCode (res : Response) (code : Nat) : Response :=
  { res with code := code }

/-- An `http_handler`. -/
abbrev HttpHandler :=
  Request → Response → Outcome Response

/-- An `http_t`: the patterns with their handlers. -/
abbrev Http :=
  List (CString × HttpHandler)

def httpCreate : Http :=
  []

/-- The handlers are tried in the order of their registration. -/
def httpRegister (http : Http) (pattern : CString) (handler : HttpHandler) : Http :=
  http ++ [(pattern, handler)]

def httpReasonPhrase (statusCode : Nat) : CString :=
  ascii <| match statusCode with
  | 200 => "OK"
  | 201 => "Created"
  | 202 => "Accepted"
  | 204 => "No Content"
  | 301 => "Moved Permanently"
  | 302 => "Moved Temporarily"
  | 304 => "Not Modified"
  | 400 => "Bad Request"
  | 401 => "Unauthorized"
  | 403 => "Forbidden"
  | 404 => "Not Found"
  | 500 => "Internal Server Error"
  | 501 => "Not Implemented"
  | 502 => "Bad Gateway"
  | 503 => "Service Unavailable"
  | _ => "Unknown"

/-- The line is put together in an array of its own. -/
def writeStatusLine (statusCode : Nat) (buf : DynamicBuffer) : Outcome DynamicBuffer := do
  let reason := httpReasonPhrase statusCode
  require (reason.length < 64) .assertion
  dynamicBufferWrite
    (ascii "HTTP/1.0 " ++ decimal statusCode ++ ascii " " ++ reason ++ ascii "\r\n") buf

def writeHeader (key val : CString) (buf : DynamicBuffer) : Outcome DynamicBuffer :=
  dynamicBufferWrite (key ++ ascii ": " ++ val ++ ascii "\r\n") buf

def writeEnd (buf : DynamicBuffer) : Outcome DynamicBuffer :=
  dynamicBufferWrite (ascii "\r\n") buf

/-- `%s` of `sscanf` with a width. White space is skipped, and one character has to follow. -/
def scanString (width : Nat) (text : CString) : Option (CString × CString) :=
  let text := text.dropWhile isspace
  let taken := (text.take width).takeWhile fun c => !isspace c
  if taken = [] then none else some (taken, text.drop taken.length)

/-- `sscanf` with `%7s %2047s `, when it returns 2. -/
def scanRequest (data : CString) : Option (CString × CString) := do
  let (method, rest) ← scanString 7 data
  let (url, _) ← scanString 2047 rest
  return (method, url)

/-- The response to a request that a handler has handled. -/
def writeResponse (res : Response) : Outcome DynamicBuffer := do
  let message ← writeStatusLine res.code (dynamicBufferCreate 32)
  let message ← writeHeader (ascii "Content-Type") (ascii "application/json") message
  let message ← writeHeader (ascii "Content-Length") (decimal res.buf.length) message
  let message ← writeHeader (ascii "Access-Control-Allow-Origin") (ascii "*") message
  let message ← writeEnd message
  dynamicBufferWrite res.buf.live message

/-- The response when no pattern matches. -/
def writeNotFound : Outcome DynamicBuffer := do
  let message ← writeStatusLine 404 (dynamicBufferCreate 32)
  let message ← writeHeader (ascii "Content-Length") (ascii "0") message
  let message ← writeHeader (ascii "Access-Control-Allow-Origin") (ascii "*") message
  writeEnd message

/-- The loop over the patterns, and what follows it. -/
def respond (url : CString) : Http → Outcome DynamicBuffer
  | [] => writeNotFound
  | (pattern, handler) :: http =>
      match requestCreate pattern url with
      | some req => do writeResponse (← handler req responseCreate)
      | none => respond url http

/-- `on_request`, with what it writes to the client. `data` is the string that begins where
the buffer of the connection does. -/
def onRequest (http : Http) (data : CString) : Outcome (Option (List UInt8)) :=
  match scanRequest data with
  | none => .ok none
  | some (_, url) => do
      let message ← respond url http
      return some message.live

end Server

section Handlers

variable (undefined : ℚ → UInt64) (uninitialised : Nat → UInt8) (bc : Blockchain)

/-- `isxdigit`. -/
def isxdigit (c : UInt8) : Bool :=
  (Commands.hexDigit c).isSome

/-- Twice as many digits as a hash has bytes. -/
def isValidHash (hex : CString) : Bool :=
  hex.length = 2 * generichashBytes && hex.all isxdigit

/-- `on_http_blocks_request` on the body of the response. -/
def onHttpBlocks : HttpHandler := fun _ res => do
  let buf ← onHttpBlocksRequest undefined bc res.buf
  return { res with buf := buf }

/-- A valid hash has 32 pairs of digits, so that one round more is enough. -/
def onHttpBlockRequest : HttpHandler := fun req res => do
  let arg ← requestGetParam req 0
  if !isValidHash arg then return responseSetCode res 400
  let hash ← bufferFromHex uninitialised 33 arg
  let hash ← memcpy generichashBytes hash.data generichashBytes
  let block := blockchainGetBlock bc hash
  if block ≠ [] then
    let buf ← blockWriteJson undefined bc.children block res.buf
    let buf ← jsonWriteEnd buf
    return { res with buf := buf }
  else return responseSetCode res 404

/-- The server of `main`. -/
def http : Http :=
  httpRegister (httpRegister httpCreate (ascii "/block/") (onHttpBlocks undefined bc))
    (ascii "/block/:/") (onHttpBlockRequest undefined uninitialised bc)

end Handlers

end Whosecoin.RestApi
