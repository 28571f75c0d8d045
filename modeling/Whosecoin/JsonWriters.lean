import Whosecoin.Library.JsonTexts
import Whosecoin.Library.Doubles
import Whosecoin.Blockchains
import Whosecoin.DynamicBuffers

namespace Whosecoin.JsonWriters

open Library.Outcomes
open Library.ByteStrings
open Library.JsonTexts (decimal)
open Library.Doubles
open Transactions
open Accounts
open Blocks
open Blockchains
open DynamicBuffers

section Writers

variable (res : DynamicBuffer)

/-- `data[length - 1]`. The index wraps to 2^32 - 1 when the buffer is empty. -/
def lastByte : Outcome UInt8 :=
  match res.live.getLast? with
  | some c => .ok c
  | none => .error .outOfBounds

/-- The assignment `data[length - 1] = c`. -/
def setLastByte (c : UInt8) : DynamicBuffer :=
  { res with
    data := overwrite res.data (res.length - 1) [c]
    length_le := by
      have hlength := res.length_le
      rw [length_overwrite (by omega)]
      exact hlength.trans (le_max_left _ _)
    data_le := by
      have hlength := res.length_le
      have hdata := res.data_le
      have hpos := res.capacity_pos
      rw [length_overwrite (by omega), List.length_singleton]
      omega }

/-- Drop the comma behind the document, if there is one. -/
def jsonWriteEnd : Outcome DynamicBuffer := do
  if (← lastByte res) = 44 then
    return { res with
      length := res.length - 1
      length_le := (Nat.sub_le _ _).trans res.length_le }
  else return res

def jsonWriteObjectStart : Outcome DynamicBuffer :=
  dynamicBufferPutc 123 res

def jsonWriteArrayStart : Outcome DynamicBuffer :=
  dynamicBufferPutc 91 res

/-- The body of the two functions that close a container. -/
def jsonWriteContainerEnd (opening closing : UInt8) : Outcome DynamicBuffer := do
  if (← lastByte res) ≠ opening then dynamicBufferPutc 44 (setLastByte res closing)
  else dynamicBufferPutc 44 (← dynamicBufferPutc closing res)

def jsonWriteObjectEnd : Outcome DynamicBuffer :=
  jsonWriteContainerEnd res 123 125

def jsonWriteArrayEnd : Outcome DynamicBuffer :=
  jsonWriteContainerEnd res 91 93

/-- The body of the two functions that write a string in quotes. -/
def jsonWriteQuoted (following : UInt8) (str : List UInt8) : Outcome DynamicBuffer := do
  let res ← dynamicBufferPutc 34 res
  let res ← dynamicBufferWrite str res
  let res ← dynamicBufferPutc 34 res
  dynamicBufferPutc following res

/-- A string is followed by a comma. -/
def jsonWriteString (str : List UInt8) : Outcome DynamicBuffer :=
  jsonWriteQuoted res 44 str

/-- A key is followed by a colon. -/
def jsonWriteKey (str : List UInt8) : Outcome DynamicBuffer :=
  jsonWriteQuoted res 58 str

/-- The conversion to `uint64_t`, which drops the fraction. Where the result does not
fit it is undefined, and gives whatever the parameter says. -/
def toUInt64 (undefined : ℚ → UInt64) (n : ℚ) : UInt64 :=
  if -1 < n ∧ n < 2 ^ 64 then UInt64.ofNat ⌊n⌋.toNat else undefined n

/-- `sprintf` with `%lf`: six decimals, rounded to the nearest, ties to even. -/
def sprintfLf (n : ℚ) : List UInt8 :=
  let scaled : ℚ := |n| * 10 ^ 6
  let low := ⌊scaled⌋.toNat
  let rest : ℚ := scaled - low
  let digits := if rest < 1 / 2 ∨ (rest = 1 / 2 ∧ low % 2 = 0) then low else low + 1
  let fraction := decimal (digits % 10 ^ 6)
  (if n < 0 then [45] else []) ++ decimal (digits / 10 ^ 6) ++ 46 ::
    (List.replicate (6 - fraction.length) 48 ++ fraction)

/-- `json_write_number`. A `double` is the rational number that it stands for. -/
def jsonWriteNumber (undefined : ℚ → UInt64) (n : ℚ) : Outcome DynamicBuffer :=
  let text := if (⌊n⌋ : ℚ) = n then decimal (toUInt64 undefined n).toNat else sprintfLf n
  dynamicBufferWrite (text ++ [44]) res

end Writers

/-- The `double` that an unsigned integer is converted to. -/
def toDouble (n : Nat) : ℚ :=
  roundTo 53 n

def hexDigit (d : UInt8) : UInt8 :=
  if d < 10 then 48 + d else 87 + d

/-- `binary_to_hex`, and `hash_to_hex`, `public_key_to_hex` and `signature_to_hex`. -/
def binaryToHex (data : List UInt8) : List UInt8 :=
  data.flatMap fun b => [hexDigit (b / 16), hexDigit (b % 16)]

theorem length_binaryToHex (data : List UInt8) : (binaryToHex data).length = 2 * data.length := by
  induction data with
  | nil => rfl
  | cons b data ih =>
      rw [binaryToHex, List.flatMap_cons, List.length_append, ← binaryToHex, ih]
      simp only [List.length_cons, List.length_nil]
      omega

/-- The bytes of a string literal. -/
def ascii (s : String) : List UInt8 :=
  s.toList.map fun c => UInt8.ofNat c.toNat

section Documents

variable (undefined : ℚ → UInt64)

def transactionWriteJson (txn : Transaction) (buf : DynamicBuffer) : Outcome DynamicBuffer := do
  let buf ← jsonWriteObjectStart buf
  let buf ← jsonWriteKey buf (ascii "hash")
  let buf ← jsonWriteString buf (binaryToHex txn.hash.toList)
  let buf ← jsonWriteKey buf (ascii "sender")
  let buf ← jsonWriteString buf (binaryToHex txn.sender.toList)
  let buf ← jsonWriteKey buf (ascii "recipient")
  let buf ← jsonWriteString buf (binaryToHex txn.recipient.toList)
  let buf ← jsonWriteKey buf (ascii "value")
  let buf ← jsonWriteNumber buf undefined (toDouble txn.value.toNat)
  let buf ← jsonWriteKey buf (ascii "nonce")
  let buf ← jsonWriteNumber buf undefined (toDouble txn.nonce.toNat)
  let buf ← jsonWriteKey buf (ascii "signature")
  let buf ← jsonWriteString buf (binaryToHex txn.signature.toList)
  jsonWriteObjectEnd buf

def blockWriteJsonHeader (block : BlockPtr) (buf : DynamicBuffer) : Outcome DynamicBuffer :=
  match block with
  | [] => .error .nullPointer
  | data :: prev => do
      let buf ← jsonWriteObjectStart buf
      let buf ← jsonWriteKey buf (ascii "timestamp")
      let buf ← jsonWriteNumber buf undefined (toDouble data.timestamp.toNat)
      let buf ← jsonWriteKey buf (ascii "prev_block")
      let buf ← jsonWriteString buf (binaryToHex (blockGetHash prev).toList)
      let buf ← jsonWriteKey buf (ascii "merkle_root")
      let buf ← jsonWriteString buf (binaryToHex data.merkleRoot.toList)
      let buf ← jsonWriteKey buf (ascii "public_key")
      let buf ← jsonWriteString buf (binaryToHex data.publicKey.toList)
      let buf ← jsonWriteKey buf (ascii "sortition_proof")
      let buf ← jsonWriteString buf (binaryToHex data.sortitionProof.toList)
      let buf ← jsonWriteKey buf (ascii "sortition_priority")
      let buf ← jsonWriteString buf (binaryToHex data.sortitionPriority.toList)
      let buf ← jsonWriteKey buf (ascii "sortition_seed")
      let buf ← jsonWriteString buf (binaryToHex data.sortitionSeed.toList)
      let buf ← jsonWriteKey buf (ascii "sortition_hash")
      let buf ← jsonWriteString buf (binaryToHex data.sortitionHash.toList)
      let buf ← jsonWriteKey buf (ascii "signature")
      let buf ← jsonWriteString buf (binaryToHex data.signature.toList)
      let buf ← jsonWriteKey buf (ascii "n_transactions")
      let buf ← jsonWriteNumber buf undefined (toDouble data.transactions.length)
      jsonWriteObjectEnd buf

/-- The loop over the children of the previous block. -/
def writeSiblings (block : BlockPtr) (children : List BlockPtr) (buf : DynamicBuffer) :
    Outcome DynamicBuffer :=
  children.foldlM (fun buf sibling =>
    if sibling ≠ block then blockWriteJsonHeader undefined sibling buf else .ok buf) buf

/-- `block_write_json`, with the `children` lists of all blocks. -/
def blockWriteJson (children : BlockPtr → List BlockPtr) (block : BlockPtr)
    (buf : DynamicBuffer) : Outcome DynamicBuffer :=
  match block with
  | [] => .error .nullPointer
  | data :: prev => do
      let buf ← jsonWriteObjectStart buf
      let buf ← jsonWriteKey buf (ascii "hash")
      let buf ← jsonWriteString buf (binaryToHex data.hash.toList)
      let buf ← jsonWriteKey buf (ascii "height")
      let buf ← jsonWriteNumber buf undefined (toDouble data.height.toNat)
      let buf ← jsonWriteKey buf (ascii "siblings")
      let buf ← jsonWriteArrayStart buf
      let buf ←
        if prev ≠ [] then writeSiblings undefined (data :: prev) (children prev) buf
        else .ok buf
      let buf ← jsonWriteArrayEnd buf
      let buf ← jsonWriteKey buf (ascii "header")
      let buf ← blockWriteJsonHeader undefined (data :: prev) buf
      let buf ← jsonWriteKey buf (ascii "transactions")
      let buf ← jsonWriteArrayStart buf
      let buf ← data.transactions.foldlM (fun buf txn =>
        transactionWriteJson undefined txn buf) buf
      let buf ← jsonWriteArrayEnd buf
      jsonWriteObjectEnd buf

/-- The loop of `on_http_blocks_request`. -/
def writeChain (children : BlockPtr → List BlockPtr) :
    (block : BlockPtr) → DynamicBuffer → Outcome DynamicBuffer
  | [], buf => .ok buf
  | data :: prev, buf => do
      let buf ← blockWriteJson undefined children (data :: prev) buf
      writeChain children prev buf

/-- The principal chain as one array. -/
def onHttpBlocksRequest (bc : Blockchain) (buf : DynamicBuffer) : Outcome DynamicBuffer := do
  let buf ← jsonWriteArrayStart buf
  let buf ← writeChain undefined bc.children bc.principal buf
  let buf ← jsonWriteArrayEnd buf
  jsonWriteEnd buf

end Documents

end Whosecoin.JsonWriters
