import Whosecoin.DynamicBuffers

namespace Whosecoin.Http

open Library.Outcomes
open Library.ByteStrings
open DynamicBuffers

/-- A `request_t`. The strings are without their terminators. -/
structure Request where
  url : List UInt8
  params : List (List UInt8)
deriving DecidableEq

/-- `resolve_pattern`, with the list of parameters after the call. -/
def resolvePattern (params : List (List UInt8)) :
    (pattern url : List UInt8) → Bool × List (List UInt8)
  | [], url => (url = [] || url = [47], params)
  | c :: pattern, url =>
      if url = [] ∧ c = 47 ∧ pattern = [] then (true, params)
      else if url.head? = some c then resolvePattern params pattern url.tail
      else if c = 58 then
        resolvePattern (params ++ [url.takeWhile (· ≠ 47)]) pattern (url.dropWhile (· ≠ 47))
      else (false, params)

/-- A url that the pattern does not match has no request. -/
def requestCreate (pattern url : List UInt8) : Option Request :=
  let (matched, params) := resolvePattern [] pattern url
  if matched then some ⟨url, params⟩ else none

/-- `list_get` asserts that the index is in range. -/
def requestGetParam (req : Request) (i : Nat) : Outcome (List UInt8) :=
  match req.params[i]? with
  | some param => .ok param
  | none => .error .assertion

section Reading

/-- The end of a header. -/
def crlfcrlf : List UInt8 :=
  [13, 10, 13, 10]

/-- Where the first empty line ends, or zero when there is none. -/
def findHeaderEnd (buf : DynamicBuffer) : Nat :=
  if buf.length < 4 then 0
  else
    match (List.range (buf.length - 3)).find? fun i =>
      memcmp ((buf.live.drop i).take 4) crlfcrlf = 0 with
    | some i => i + 4
    | none => 0

/-- A `client_context_t`, with the buffers that `on_request` has been given. -/
structure Connection where
  buf : DynamicBuffer
  requests : List (List UInt8)

/-- The connection that `on_connection` starts to read. -/
def connectionCreate : Connection where
  buf := dynamicBufferCreate 32
  requests := []

/-- A buffer of `on_alloc` after a read: the received bytes, `nread` of them, and behind
them the other bytes of the `buf->len` that `malloc` gave. -/
structure Chunk where
  received : List UInt8
  stale : List UInt8

/-- `on_read` of a read that succeeds. -/
def readChunk (conn : Connection) (chunk : Chunk) : Outcome Connection := do
  let buf ← dynamicBufferWrite (chunk.received ++ chunk.stale) conn.buf
  let headerEnd := findHeaderEnd buf
  if headerEnd ≠ 0 then
    let requests := conn.requests ++ [buf.live]
    let buf ← splice buf headerEnd
    return { buf := buf, requests := requests }
  else return { conn with buf := buf }

end Reading

end Whosecoin.Http
