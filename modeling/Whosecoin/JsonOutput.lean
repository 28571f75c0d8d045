import Whosecoin.BlockTree
import Whosecoin.JsonWriters

/-!
The writers of `json.c` write the texts of JSON values, with their numbers as the
conversions to `double` and back leave them.
-/

namespace Whosecoin.JsonOutput

open Library.Outcomes
open Library.ByteStrings
open Library.JsonTexts
open Library.Doubles
open Transactions
open Accounts
open Blocks
open Blockchains
open DynamicBuffers
open BlockTree
open JsonWriters

/-- A buffer as the program uses it: its capacity is a power of two, and the doubling of
the capacity has not wrapped. -/
structure Ready (buf : DynamicBuffer) : Prop where
  sized : buf.Sized
  short : buf.length < 2 ^ 31

/-- The call puts the text behind the bytes of the buffer, exactly when there is room
for it. -/
structure Emits (call : DynamicBuffer → Outcome DynamicBuffer) (text : List UInt8) : Prop where
  returns_iff : ∀ buf, Ready buf → (Returns (call buf) ↔ buf.length + text.length < 2 ^ 31)
  spec : ∀ buf next, Ready buf → call buf = .ok next →
    next.live = buf.live ++ text ∧ next.Sized

section Emits

variable {f g : DynamicBuffer → Outcome DynamicBuffer} {s t : List UInt8}

theorem length_of_live {buf next : DynamicBuffer} (h : next.live = buf.live ++ t) :
    next.length = buf.length + t.length := by
  rw [← next.live_length, h, List.length_append, buf.live_length]

theorem Emits.ready (hf : Emits f t) {buf next : DynamicBuffer} (hbuf : Ready buf)
    (h : f buf = .ok next) : Ready next := by
  obtain ⟨hlive, hsized⟩ := hf.spec buf next hbuf h
  refine ⟨hsized, ?_⟩
  rw [length_of_live hlive]
  exact (hf.returns_iff buf hbuf).mp ⟨next, h⟩

theorem emits_ok : Emits .ok [] where
  returns_iff := by
    intro buf hbuf
    exact iff_of_true (returns_ok buf) hbuf.short
  spec := by
    intro buf next hbuf h
    cases h
    exact ⟨(List.append_nil _).symm, hbuf.sized⟩

theorem Emits.then (hf : Emits f s) (hg : Emits g t) :
    Emits (fun buf => f buf >>= g) (s ++ t) where
  returns_iff := by
    intro buf hbuf
    rw [returns_bind, List.length_append]
    constructor
    · rintro ⟨middle, hmiddle, hreturns⟩
      have hfit := (hg.returns_iff middle (hf.ready hbuf hmiddle)).mp hreturns
      rw [length_of_live (hf.spec buf middle hbuf hmiddle).1] at hfit
      omega
    · intro hfit
      obtain ⟨middle, hmiddle⟩ := (hf.returns_iff buf hbuf).mpr (by omega)
      refine ⟨middle, hmiddle, (hg.returns_iff middle (hf.ready hbuf hmiddle)).mpr ?_⟩
      rw [length_of_live (hf.spec buf middle hbuf hmiddle).1]
      omega
  spec := by
    intro buf next hbuf h
    obtain ⟨middle, hmiddle, hnext⟩ := (bind_eq_ok _ _ _).mp h
    obtain ⟨hlive, hsized⟩ := hg.spec middle next (hf.ready hbuf hmiddle) hnext
    rw [(hf.spec buf middle hbuf hmiddle).1, List.append_assoc] at hlive
    exact ⟨hlive, hsized⟩

/-- A call that goes back into what has been written. -/
theorem Emits.replace (hf : Emits f s) (hlonger : s.length ≤ t.length)
    (hg : ∀ buf middle : DynamicBuffer, Ready middle → middle.live = buf.live ++ s →
      (Returns (g middle) ↔ buf.length + t.length < 2 ^ 31) ∧
        ∀ next, g middle = .ok next → next.live = buf.live ++ t ∧ next.Sized) :
    Emits (fun buf => f buf >>= g) t where
  returns_iff := by
    intro buf hbuf
    rw [returns_bind]
    constructor
    · rintro ⟨middle, hmiddle, hreturns⟩
      have hlive := (hf.spec buf middle hbuf hmiddle).1
      exact (hg buf middle (hf.ready hbuf hmiddle) hlive).1.mp hreturns
    · intro hfit
      obtain ⟨middle, hmiddle⟩ := (hf.returns_iff buf hbuf).mpr (by omega)
      have hlive := (hf.spec buf middle hbuf hmiddle).1
      exact ⟨middle, hmiddle, (hg buf middle (hf.ready hbuf hmiddle) hlive).1.mpr hfit⟩
  spec := by
    intro buf next hbuf h
    obtain ⟨middle, hmiddle, hnext⟩ := (bind_eq_ok _ _ _).mp h
    have hlive := (hf.spec buf middle hbuf hmiddle).1
    exact (hg buf middle (hf.ready hbuf hmiddle) hlive).2 next hnext

theorem emits_putc (c : UInt8) : Emits (dynamicBufferPutc c) [c] where
  returns_iff := fun _ hbuf => dynamicBufferPutc_returns_iff hbuf.sized c
  spec := fun _ _ hbuf h => ⟨(dynamicBufferPutc_spec h).1, hbuf.sized.putc h⟩

theorem emits_write (src : List UInt8) : Emits (dynamicBufferWrite src) src where
  returns_iff := fun _ hbuf => dynamicBufferWrite_returns_iff hbuf.sized src
  spec := fun _ _ hbuf h => ⟨(dynamicBufferWrite_spec h).1, hbuf.sized.write h⟩

theorem emits_quoted (following : UInt8) (str : PlainString) :
    Emits (fun res => jsonWriteQuoted res following str.chars) (quoted str ++ [following]) := by
  have hemits := (emits_putc 34).then ((emits_write str.chars).then
    ((emits_putc 34).then (emits_putc following)))
  have htext : quoted str ++ [following] = [34] ++ (str.chars ++ ([34] ++ [following])) := by
    simp [quoted]
  rw [htext]
  exact hemits

end Emits

section Containers

variable {buf next : DynamicBuffer}

theorem lastByte_of_live {before : List UInt8} {c : UInt8} (h : buf.live = before ++ [c]) :
    lastByte buf = .ok c := by
  rw [lastByte, h, List.getLast?_append, List.getLast?_singleton]
  rfl

theorem take_of_live {before : List UInt8} {c : UInt8} (h : buf.live = before ++ [c]) :
    buf.length = before.length + 1 ∧ buf.data.take (buf.length - 1) = before := by
  have hlength := congrArg List.length h
  have htake := congrArg (List.take (buf.length - 1)) h
  rw [buf.live_length, List.length_append, List.length_singleton] at hlength
  rw [DynamicBuffer.live, List.take_take, min_eq_left (Nat.sub_le _ _)] at htake
  refine ⟨hlength, ?_⟩
  rw [htake, hlength, Nat.add_sub_cancel, List.take_left]

theorem setLastByte_of_live {before : List UInt8} {c : UInt8} (h : buf.live = before ++ [c])
    (d : UInt8) : (setLastByte buf d).live = before ++ [d] := by
  obtain ⟨hlength, hbefore⟩ := take_of_live h
  have hlast : buf.length - 1 + [d].length = buf.length := by
    rw [hlength]
    rfl
  have hle : buf.length - 1 ≤ buf.data.length := (Nat.sub_le _ _).trans buf.length_le
  have hset := @overwrite_take buf.data [d] _ hle
  rw [hlast, hbefore] at hset
  exact hset

theorem setLastByte_ready (hbuf : Ready buf) (d : UInt8) : Ready (setLastByte buf d) :=
  ⟨hbuf.sized, hbuf.short⟩

theorem containerEnd_empty {opening closing : UInt8} {before : List UInt8}
    (hlive : buf.live = before ++ [opening]) : jsonWriteContainerEnd buf opening closing =
      dynamicBufferPutc closing buf >>= dynamicBufferPutc 44 := by
  rw [jsonWriteContainerEnd, lastByte_of_live hlive, ok_bind, if_neg (not_not.mpr rfl)]

theorem containerEnd_comma {opening closing : UInt8} (hopening : opening ≠ 44)
    {before : List UInt8} (hlive : buf.live = before ++ [44]) :
    jsonWriteContainerEnd buf opening closing =
      dynamicBufferPutc 44 (setLastByte buf closing) := by
  rw [jsonWriteContainerEnd, lastByte_of_live hlive, ok_bind, if_pos hopening.symm]

theorem emits_container {opening : UInt8} (closing : UInt8) (hopening : opening ≠ 44)
    {contents : DynamicBuffer → Outcome DynamicBuffer} {t : List UInt8}
    (hcontents : Emits contents t) (ht : t = [] ∨ t.getLast? = some 44) :
    Emits (fun buf => (dynamicBufferPutc opening buf >>= contents) >>= fun buf =>
      jsonWriteContainerEnd buf opening closing) (opening :: (t.dropLast ++ [closing, 44])) := by
  have hopened := (emits_putc opening).then hcontents
  apply hopened.replace
  · simp only [List.length_append, List.length_cons, List.length_dropLast, List.length_nil]
    omega
  · intro buf middle hmiddle hlive
    rcases ht with rfl | hlast
    · have hend := (emits_putc closing).then (emits_putc 44)
      rw [List.append_nil] at hlive
      rw [containerEnd_empty hlive, hend.returns_iff middle hmiddle, length_of_live hlive]
      refine ⟨Iff.of_eq (congrArg (· < 2 ^ 31) (Nat.add_assoc _ _ _)), ?_⟩
      intro next hnext
      obtain ⟨hnextLive, hsized⟩ := hend.spec middle next hmiddle hnext
      refine ⟨?_, hsized⟩
      rw [hnextLive, hlive, List.append_assoc]
      rfl
    · obtain ⟨body, rfl⟩ := List.getLast?_eq_some_iff.mp hlast
      have hbefore : middle.live = (buf.live ++ opening :: body) ++ [44] := by
        rw [hlive, List.append_assoc]
        rfl
      have hset := setLastByte_of_live hbefore closing
      have hready := setLastByte_ready hmiddle closing
      have hlength : (setLastByte middle closing).length = buf.length + (body.length + 2) := by
        rw [← (setLastByte middle closing).live_length, hset]
        simp only [List.length_append, List.length_cons, List.length_nil, buf.live_length]
        omega
      rw [containerEnd_comma hopening hbefore, (emits_putc 44).returns_iff _ hready, hlength,
        List.dropLast_concat]
      constructor
      · simp only [List.length_append, List.length_cons, List.length_nil]
        omega
      · intro next hnext
        obtain ⟨hnextLive, hsized⟩ := (emits_putc 44).spec _ next hready hnext
        refine ⟨?_, hsized⟩
        rw [hnextLive, hset]
        simp

end Containers

section Values

variable (undefined : ℚ → UInt64)

mutual

/-- The calls that write a value. -/
def writeJson : Json → DynamicBuffer → Outcome DynamicBuffer
  | .number n => fun res => jsonWriteNumber res undefined n
  | .string s => fun res => jsonWriteString res s.chars
  | .array elements => fun res =>
      (jsonWriteArrayStart res >>= writeElements elements) >>= jsonWriteArrayEnd
  | .object members => fun res =>
      (jsonWriteObjectStart res >>= writeMembers members) >>= jsonWriteObjectEnd

def writeElements : List Json → DynamicBuffer → Outcome DynamicBuffer
  | [] => .ok
  | v :: vs => fun res => writeJson v res >>= writeElements vs

def writeMembers : List (PlainString × Json) → DynamicBuffer → Outcome DynamicBuffer
  | [] => .ok
  | (key, v) :: ms => fun res =>
      jsonWriteKey res key.chars >>= fun res => writeJson v res >>= writeMembers ms

end

/-- The number that `json_write_number` makes of an integer. -/
def converted (n : ℤ) : ℤ :=
  (toUInt64 undefined n).toNat

theorem converted_of_nonneg {n : ℤ} (hn : 0 ≤ n) (hlt : n < 2 ^ 64) :
    converted undefined n = n := by
  have hlow : (-1 : ℚ) < n := by
    have hcast : (0 : ℚ) ≤ n := Int.cast_nonneg hn
    linarith
  have hhigh : (n : ℚ) < 2 ^ 64 := by exact_mod_cast hlt
  rw [converted, toUInt64, if_pos ⟨hlow, hhigh⟩, Int.floor_intCast, UInt64.toNat_ofNat',
    Nat.mod_eq_of_lt (by omega)]
  exact Int.toNat_of_nonneg hn

theorem converted_ne {n : ℤ} (hn : n < 0) : converted undefined n ≠ n := by
  have hnonneg : 0 ≤ converted undefined n := Int.natCast_nonneg _
  omega

theorem emits_number (n : ℤ) : Emits (fun res => jsonWriteNumber res undefined n)
    (integer (converted undefined n) ++ [44]) := by
  have hwrite : (fun res => jsonWriteNumber res undefined n) =
      dynamicBufferWrite (decimal (toUInt64 undefined n).toNat ++ [44]) := by
    funext res
    rw [jsonWriteNumber, Int.floor_intCast, if_pos rfl]
  rw [hwrite, converted, integer_natCast]
  exact emits_write _

mutual

theorem emits_json (v : Json) :
    Emits (writeJson undefined v) ((v.map (converted undefined)).text ++ [44]) := by
  match v with
  | .number n =>
      rw [writeJson, Json.map, Json.text]
      exact emits_number undefined n
  | .string s =>
      rw [writeJson, Json.map, Json.text]
      exact emits_quoted 44 s
  | .array elements =>
      have hbracket : (91 : UInt8) ≠ 44 := by decide
      have hcontainer := emits_container 93 hbracket (emits_elements elements) (terminated_last _)
      rw [dropLast_elements] at hcontainer
      rw [writeJson, Json.map, Json.text, List.cons_append, List.append_assoc]
      exact hcontainer
  | .object members =>
      have hbrace : (123 : UInt8) ≠ 44 := by decide
      have hcontainer := emits_container 125 hbrace (emits_members members) (terminated_last _)
      rw [dropLast_members] at hcontainer
      rw [writeJson, Json.map, Json.text, List.cons_append, List.append_assoc]
      exact hcontainer

theorem emits_elements (vs : List Json) : Emits (writeElements undefined vs)
    (terminated ((mapElements (converted undefined) vs).map Json.text)) := by
  match vs with
  | [] =>
      rw [writeElements]
      exact emits_ok
  | v :: vs =>
      rw [writeElements, mapElements, List.map_cons, terminated_cons, List.append_cons]
      exact (emits_json v).then (emits_elements vs)

theorem emits_members (ms : List (PlainString × Json)) : Emits (writeMembers undefined ms)
    (terminated ((mapMembers (converted undefined) ms).map memberText)) := by
  match ms with
  | [] =>
      rw [writeMembers]
      exact emits_ok
  | (key, v) :: ms =>
      have hmember := (emits_quoted 58 key).then ((emits_json v).then (emits_members ms))
      rw [writeMembers, mapMembers, List.map_cons, terminated_cons, memberText]
      simp only [List.append_assoc, List.cons_append, List.nil_append] at hmember ⊢
      exact hmember

end

end Values

section WellWritten

variable {buf : DynamicBuffer} {write : DynamicBuffer → Outcome DynamicBuffer}

/-- An empty buffer, as the program creates them. -/
structure Fresh (buf : DynamicBuffer) : Prop where
  empty : buf.live = []
  sized : buf.Sized

/-- The call leaves a text that denotes the value. -/
def Leaves (call : Outcome DynamicBuffer) (v : Json) : Prop :=
  ∃ next, call = .ok next ∧ parse next.live = some v

/-- The calls and `json_write_end` leave a text that denotes the value. -/
def WellWritten (write : DynamicBuffer → Outcome DynamicBuffer) (v : Json)
    (buf : DynamicBuffer) : Prop :=
  Leaves (write buf >>= jsonWriteEnd) v

theorem Fresh.ready (h : Fresh buf) : Ready buf := by
  refine ⟨h.sized, ?_⟩
  rw [← buf.live_length, h.empty]
  decide

theorem jsonWriteEnd_of_live {text : List UInt8} (h : buf.live = text ++ [44]) :
    ∃ next, jsonWriteEnd buf = .ok next ∧ next.live = text := by
  rw [jsonWriteEnd, lastByte_of_live h, ok_bind, if_pos rfl]
  exact ⟨_, rfl, (take_of_live h).2⟩

theorem wellWritten_iff {w : Json} (hwrite : Emits write (w.text ++ [44])) (hfresh : Fresh buf)
    (v : Json) : WellWritten write v buf ↔ w = v ∧ w.text.length + 1 < 2 ^ 31 := by
  have hlength : buf.length = 0 := by
    rw [← buf.live_length, hfresh.empty]
    rfl
  have hfit := hwrite.returns_iff buf hfresh.ready
  rw [hlength, Nat.zero_add, List.length_append, List.length_singleton] at hfit
  have hended : ∀ middle, write buf = .ok middle →
      ∃ next, jsonWriteEnd middle = .ok next ∧ next.live = w.text := by
    intro middle hmiddle
    apply jsonWriteEnd_of_live
    rw [(hwrite.spec buf middle hfresh.ready hmiddle).1, hfresh.empty, List.nil_append]
  constructor
  · rintro ⟨next, hnext, hparse⟩
    obtain ⟨middle, hmiddle, hend⟩ := (bind_eq_ok _ _ _).mp hnext
    obtain ⟨ended, hcall, hlive⟩ := hended middle hmiddle
    rw [hend, Except.ok.injEq] at hcall
    rw [hcall, hlive, parse_text, Option.some.injEq] at hparse
    exact ⟨hparse, hfit.mp ⟨middle, hmiddle⟩⟩
  · rintro ⟨rfl, hshort⟩
    obtain ⟨middle, hmiddle⟩ := hfit.mpr hshort
    obtain ⟨ended, hcall, hlive⟩ := hended middle hmiddle
    refine ⟨ended, ?_, ?_⟩
    · rw [hmiddle, ok_bind, hcall]
    · rw [hlive, parse_text]

/-- A value comes out right when it has no negative number. -/
theorem wellWritten_value_iff (undefined : ℚ → UInt64) (hfresh : Fresh buf) {v : Json}
    (hsmall : ∀ n ∈ v.numbers, n < 2 ^ 53) : WellWritten (writeJson undefined v) v buf ↔
      (∀ n ∈ v.numbers, 0 ≤ n) ∧ v.text.length + 1 < 2 ^ 31 := by
  have hkept : v.map (converted undefined) = v ↔ ∀ n ∈ v.numbers, 0 ≤ n := by
    rw [map_eq_self_iff]
    refine forall₂_congr fun n hn => ?_
    constructor
    · intro hsame
      exact not_lt.mp fun hneg => converted_ne undefined hneg hsame
    · intro hnonneg
      exact converted_of_nonneg undefined hnonneg
        ((hsmall n hn).trans (by decide))
  rw [wellWritten_iff (emits_json undefined v) hfresh, hkept]
  refine and_congr_right fun hnonneg => ?_
  rw [hkept.mpr hnonneg]

end WellWritten

section Documents

variable (undefined : ℚ → UInt64)

theorem plain_hexDigit {d : UInt8} (hd : d.toNat < 16) : PlainChar (hexDigit d) := by
  rw [← @UInt8.ofNat_toNat d]
  generalize d.toNat = n at hd
  interval_cases n <;> decide

theorem plain_binaryToHex (data : List UInt8) : ∀ c ∈ binaryToHex data, PlainChar c := by
  intro c hc
  obtain ⟨b, -, hc⟩ := List.mem_flatMap.mp hc
  have hlt := b.toNat_lt
  rcases List.mem_cons.mp hc with rfl | hc
  · apply plain_hexDigit
    rw [UInt8.toNat_div]
    exact Nat.div_lt_of_lt_mul hlt
  · rw [List.mem_singleton.mp hc]
    apply plain_hexDigit
    rw [UInt8.toNat_mod]
    exact Nat.mod_lt _ (by decide)

/-- A binary field in hexadecimal digits. -/
def hex (data : List UInt8) : PlainString :=
  ⟨binaryToHex data, plain_binaryToHex data⟩

/-- The name of a member. -/
def key (name : String) (plain : ∀ c ∈ ascii name, PlainChar c := by simp [ascii, PlainChar]) :
    PlainString :=
  ⟨ascii name, plain⟩

@[simp] theorem hex_chars (data : List UInt8) : (hex data).chars = binaryToHex data :=
  rfl

/-- The number that an unsigned integer is converted to. -/
def rounded (n : Nat) : Json :=
  .number (roundTo 53 n)

def transactionJson (txn : Transaction) : Json :=
  .object [
    (key "hash", .string (hex txn.hash.toList)),
    (key "sender", .string (hex txn.sender.toList)),
    (key "recipient", .string (hex txn.recipient.toList)),
    (key "value", rounded txn.value.toNat),
    (key "nonce", rounded txn.nonce.toNat),
    (key "signature", .string (hex txn.signature.toList))]

def headerJson (data : Block) (prev : BlockPtr) : Json :=
  .object [
    (key "timestamp", rounded data.timestamp.toNat),
    (key "prev_block", .string (hex (blockGetHash prev).toList)),
    (key "merkle_root", .string (hex data.merkleRoot.toList)),
    (key "public_key", .string (hex data.publicKey.toList)),
    (key "sortition_proof", .string (hex data.sortitionProof.toList)),
    (key "sortition_priority", .string (hex data.sortitionPriority.toList)),
    (key "sortition_seed", .string (hex data.sortitionSeed.toList)),
    (key "sortition_hash", .string (hex data.sortitionHash.toList)),
    (key "signature", .string (hex data.signature.toList)),
    (key "n_transactions", rounded data.transactions.length)]

/-- The header of a child of the previous block, if it is another block. -/
def siblingJson (block : BlockPtr) : BlockPtr → Option Json
  | [] => none
  | sibling :: parent =>
      if sibling :: parent ≠ block then some (headerJson sibling parent) else none

/-- The other children of the parent. -/
def siblingsJson (children : BlockPtr → List BlockPtr) (data : Block) (prev : BlockPtr) :
    List Json :=
  if prev ≠ [] then (children prev).filterMap (siblingJson (data :: prev)) else []

def blockJson (children : BlockPtr → List BlockPtr) (data : Block) (prev : BlockPtr) : Json :=
  .object [
    (key "hash", .string (hex data.hash.toList)),
    (key "height", rounded data.height.toNat),
    (key "siblings", .array (siblingsJson children data prev)),
    (key "header", headerJson data prev),
    (key "transactions", .array (data.transactions.map transactionJson))]

/-- The documents of a chain, the latest block first. -/
def chainJson (children : BlockPtr → List BlockPtr) : BlockPtr → List Json
  | [] => []
  | data :: prev => blockJson children data prev :: chainJson children prev

theorem writeRounded (n : Nat) (res : DynamicBuffer) :
    writeJson undefined (rounded n) res = jsonWriteNumber res undefined (toDouble n) := by
  rw [rounded, writeJson, Int.cast_natCast, toDouble]

theorem transactionWriteJson_eq (txn : Transaction) :
    transactionWriteJson undefined txn = writeJson undefined (transactionJson txn) := by
  funext buf
  simp only [transactionWriteJson, transactionJson, writeJson, writeMembers, bind_assoc,
    writeRounded, key, hex_chars, ok_bind]

theorem blockWriteJsonHeader_eq (data : Block) (prev : BlockPtr) :
    blockWriteJsonHeader undefined (data :: prev) =
      writeJson undefined (headerJson data prev) := by
  funext buf
  simp only [blockWriteJsonHeader, headerJson, writeJson, writeMembers, bind_assoc, writeRounded,
    key, hex_chars, ok_bind]

theorem writeTransactions_eq (txns : List Transaction) (buf : DynamicBuffer) :
    txns.foldlM (fun buf txn => transactionWriteJson undefined txn buf) buf =
      writeElements undefined (txns.map transactionJson) buf := by
  induction txns generalizing buf with
  | nil => rfl
  | cons txn txns ih =>
      rw [List.foldlM_cons, List.map_cons, writeElements, transactionWriteJson_eq]
      simp only [ih]

theorem writeSiblings_eq (block : BlockPtr) {siblings : List BlockPtr} (hblocks : [] ∉ siblings)
    (buf : DynamicBuffer) : writeSiblings undefined block siblings buf =
      writeElements undefined (siblings.filterMap (siblingJson block)) buf := by
  induction siblings generalizing buf with
  | nil => rfl
  | cons sibling siblings ih =>
      rw [List.mem_cons, not_or] at hblocks
      obtain ⟨sibling, parent, rfl⟩ := List.exists_cons_of_ne_nil (Ne.symm hblocks.1)
      have hrest := ih hblocks.2
      simp only [writeSiblings] at hrest ⊢
      rw [List.foldlM_cons]
      by_cases hother : sibling :: parent ≠ block
      · rw [if_pos hother, blockWriteJsonHeader_eq,
          List.filterMap_cons_some (show siblingJson block (sibling :: parent) = some _ from
            if_pos hother), writeElements]
        simp only [hrest]
      · rw [if_neg hother, List.filterMap_cons_none (show siblingJson block (sibling :: parent) =
            none from if_neg hother), ok_bind]
        exact hrest buf

/-- The lists of children hold blocks, not `NULL`. -/
def Childful (children : BlockPtr → List BlockPtr) : Prop :=
  ∀ p, p ≠ [] → [] ∉ children p

theorem childful_of_tree {stored : List BlockPtr} {bc : Blockchain} (tree : Tree stored bc) :
    Childful bc.children := by
  intro p hp hmem
  rw [tree.children_eq p hp] at hmem
  exact (tree.addable [] (List.mem_of_mem_filter hmem)).1 rfl

variable {children : BlockPtr → List BlockPtr}

theorem blockWriteJson_eq (hchildren : Childful children) (data : Block) (prev : BlockPtr) :
    blockWriteJson undefined children (data :: prev) =
      writeJson undefined (blockJson children data prev) := by
  have hsiblings :
      prev ≠ [] → ∀ buf, writeSiblings undefined (data :: prev) (children prev) buf =
      writeElements undefined (siblingsJson children data prev) buf := by
    intro hprev buf
    rw [siblingsJson, if_pos hprev]
    exact writeSiblings_eq undefined _ (hchildren prev hprev) buf
  have hnone : prev = [] → siblingsJson children data prev = [] := by
    intro hprev
    exact if_neg (not_not.mpr hprev)
  funext buf
  by_cases hprev : prev ≠ []
  · simp only [blockWriteJson, blockJson, writeJson, writeMembers, bind_assoc, writeRounded,
      key, hex_chars, ok_bind, if_pos hprev, hsiblings hprev, writeTransactions_eq,
      blockWriteJsonHeader_eq]
  · simp only [blockWriteJson, blockJson, writeJson, writeMembers, bind_assoc, writeRounded,
      key, hex_chars, ok_bind, if_neg hprev, hnone (not_not.mp hprev), writeElements,
      writeTransactions_eq, blockWriteJsonHeader_eq]

theorem writeChain_eq (hchildren : Childful children) (block : BlockPtr) :
    writeChain undefined children block = writeElements undefined (chainJson children block) := by
  induction block with
  | nil => rfl
  | cons data prev ih =>
      funext buf
      rw [writeChain, chainJson, writeElements, blockWriteJson_eq undefined hchildren, ih]

theorem onHttpBlocksRequest_eq {bc : Blockchain} (hchildren : Childful bc.children)
    (buf : DynamicBuffer) : onHttpBlocksRequest undefined bc buf =
      writeJson undefined (.array (chainJson bc.children bc.principal)) buf >>= jsonWriteEnd := by
  simp only [onHttpBlocksRequest, writeJson, writeChain_eq undefined hchildren, bind_assoc]

/-- The bytes of the document for a value, with each number as it comes out of the
conversions. -/
def documentSize (v : Json) : Nat :=
  (v.map (converted undefined)).text.length

theorem valid_iff {write : DynamicBuffer → Outcome DynamicBuffer} {v : Json} {buf : DynamicBuffer}
    (hwrite : write = writeJson undefined v) (hfresh : Fresh buf) :
    (∃ w, WellWritten write w buf) ↔ documentSize undefined v + 1 < 2 ^ 31 := by
  rw [hwrite]
  simp only [wellWritten_iff (emits_json undefined v) hfresh, exists_eq_left', documentSize]

end Documents

section Output

/-- Values without negative numbers come out as they are, and blocks and the chain as JSON
texts, as long as there is room for them. -/
theorem json_output (undefined : ℚ → UInt64) {buf : DynamicBuffer} (hfresh : Fresh buf)
    {bc : Blockchain} (hchildren : Childful bc.children) :
    (∀ v : Json, (∀ n ∈ v.numbers, n < 2 ^ 53) →
      (WellWritten (writeJson undefined v) v buf ↔
        (∀ n ∈ v.numbers, 0 ≤ n) ∧ v.text.length + 1 < 2 ^ 31)) ∧
    (∀ data prev,
      (∃ w, WellWritten (blockWriteJson undefined bc.children (data :: prev)) w buf) ↔
        documentSize undefined (blockJson bc.children data prev) + 1 < 2 ^ 31) ∧
    ((∃ w, Leaves (onHttpBlocksRequest undefined bc buf) w) ↔
      documentSize undefined (.array (chainJson bc.children bc.principal)) + 1 < 2 ^ 31) := by
  refine ⟨?_, ?_, ?_⟩
  · intro v hsmall
    exact wellWritten_value_iff undefined hfresh hsmall
  · intro data prev
    exact valid_iff undefined (blockWriteJson_eq undefined hchildren data prev) hfresh
  · rw [onHttpBlocksRequest_eq undefined hchildren]
    exact valid_iff undefined rfl hfresh

theorem fresh_create : Fresh (dynamicBufferCreate 32) :=
  ⟨rfl, 5, rfl⟩

theorem json_output_nested : WellWritten (writeJson (fun _ => 0)
    (.array [.number 7, .array [], .object []])) (.array [.number 7, .array [], .object []])
    (dynamicBufferCreate 32) := by
  have hchildren := childful_of_tree tree_blockchainCreate
  apply ((json_output (fun _ => 0) fresh_create hchildren).1 _ ?_).mpr
  · constructor
    · simp [Json.numbers, numbersOf, numbersOfMembers]
    · decide +kernel
  · simp [Json.numbers, numbersOf, numbersOfMembers]

/-- `json_write_number` casts -1 to an unsigned integer. -/
theorem negative_lost : ¬ ∃ undefined : ℚ → UInt64,
    WellWritten (writeJson undefined (.number (-1))) (.number (-1)) (dynamicBufferCreate 32) := by
  rintro ⟨undefined, hwritten⟩
  have hfresh := fresh_create
  obtain ⟨hsame, -⟩ := (wellWritten_iff (emits_json undefined _) hfresh _).mp hwritten
  rw [Json.map, Json.number.injEq] at hsame
  exact converted_ne undefined (by decide) hsame

end Output

end Whosecoin.JsonOutput
