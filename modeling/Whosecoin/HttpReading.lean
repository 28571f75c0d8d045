import Whosecoin.Http

namespace Whosecoin.HttpReading

open Library.Outcomes
open Library.ByteStrings
open DynamicBuffers
open Http

/-- The bytes of a request: they end with their first empty line. -/
structure Terminated (request : List UInt8) : Prop where
  ends : crlfcrlf <:+ request
  first : ∀ start, start <+: request → crlfcrlf <:+ start → start = request

section HeaderEnd

variable {buf : DynamicBuffer} {request : List UInt8}

theorem Terminated.length_pos (h : Terminated request) : 0 < request.length :=
  lt_of_lt_of_le (by decide) h.ends.length_le

theorem Terminated.unique {data other : List UInt8} (h : Terminated request)
    (h' : Terminated other) (hpre : request <+: data) (hpre' : other <+: data) :
    request = other := by
  rcases List.prefix_or_prefix_of_prefix hpre hpre' with hle | hle
  · exact h'.first request hle h.ends
  · exact (h.first other hle h'.ends).symm

theorem memcmp_crlfcrlf_iff {data : List UInt8} {i : Nat} (hi : i + 4 ≤ data.length) :
    memcmp ((data.drop i).take 4) crlfcrlf = 0 ↔ crlfcrlf <:+ data.take (i + 4) := by
  have hlength : ((data.drop i).take 4).length = crlfcrlf.length := by
    rw [List.length_take, List.length_drop]
    show min 4 (data.length - i) = 4
    omega
  rw [memcmp_eq_zero_iff hlength, List.take_add]
  constructor
  · intro heq
    rw [heq]
    exact List.suffix_append _ _
  · intro hsuffix
    have hwithin := List.suffix_of_suffix_length_le hsuffix
      (List.suffix_append (data.take i) ((data.drop i).take 4)) hlength.ge
    exact (hwithin.eq_of_length hlength.symm).symm

theorem find_iff {i : Nat} : ((List.range (buf.length - 3)).find? fun i =>
      memcmp ((buf.live.drop i).take 4) crlfcrlf = 0) = some i ↔
    i + 4 ≤ buf.length ∧ Terminated (buf.live.take (i + 4)) := by
  have hbound : ∀ j, j < buf.length - 3 ↔ j + 4 ≤ buf.live.length := by
    intro j
    rw [buf.live_length]
    omega
  simp only [List.find?_range_eq_some, List.mem_range, hbound, decide_eq_true_eq]
  constructor
  · rintro ⟨hends, hi, hearlier⟩
    rw [memcmp_crlfcrlf_iff hi] at hends
    rw [← buf.live_length]
    refine ⟨hi, hends, ?_⟩
    intro start hstart hsuffix
    have hfour : 4 ≤ start.length := hsuffix.length_le
    have hlength := hstart.length_le
    rw [List.length_take_of_le hi] at hlength
    have hearly : ¬ start.length - 4 < i := by
      intro hlt
      have hnot := hearlier _ hlt
      have hstart' : start = buf.live.take (start.length - 4 + 4) := by
        rw [Nat.sub_add_cancel hfour]
        exact List.prefix_iff_eq_take.mp (hstart.trans (List.take_prefix _ _))
      rw [hstart'] at hsuffix
      have hfound := (memcmp_crlfcrlf_iff (by omega)).mpr hsuffix
      simp [hfound] at hnot
    apply hstart.eq_of_length
    rw [List.length_take_of_le hi]
    omega
  · rintro ⟨hi, hends, hfirst⟩
    rw [← buf.live_length] at hi
    refine ⟨(memcmp_crlfcrlf_iff hi).mpr hends, hi, ?_⟩
    intro j hj
    rw [Bool.not_eq_true', decide_eq_false_iff_not, memcmp_crlfcrlf_iff (by omega)]
    intro hsuffix
    have hsame := hfirst _ (List.take_prefix_take_left (by omega)) hsuffix
    have hlength := congrArg List.length hsame
    rw [List.length_take_of_le (by omega), List.length_take_of_le hi] at hlength
    omega

theorem findHeaderEnd_of_terminated (h : Terminated request) (hpre : request <+: buf.live) :
    findHeaderEnd buf = request.length := by
  have hfour : 4 ≤ request.length := h.ends.length_le
  have hle : request.length ≤ buf.length := by
    rw [← buf.live_length]
    exact hpre.length_le
  have hrequest : request = buf.live.take (request.length - 4 + 4) := by
    rw [Nat.sub_add_cancel hfour]
    exact List.prefix_iff_eq_take.mp hpre
  have hfind := (@find_iff buf (request.length - 4)).mpr ⟨by omega, hrequest ▸ h⟩
  rw [findHeaderEnd, if_neg (by omega), hfind]
  exact Nat.sub_add_cancel hfour

theorem exists_terminated (h : findHeaderEnd buf ≠ 0) : ∃ request, Terminated request ∧
    request <+: buf.live ∧ findHeaderEnd buf = request.length := by
  rw [findHeaderEnd] at h ⊢
  split_ifs at h ⊢ with hshort
  · exact absurd rfl h
  · split at h
    · rename_i i hfind
      obtain ⟨hi, hterm⟩ := find_iff.mp hfind
      refine ⟨_, hterm, List.take_prefix _ _, ?_⟩
      rw [← buf.live_length] at hi
      exact (List.length_take_of_le hi).symm
    · exact absurd rfl h

theorem findHeaderEnd_le (buf : DynamicBuffer) : findHeaderEnd buf ≤ buf.length := by
  by_cases h : findHeaderEnd buf = 0
  · rw [h]
    exact Nat.zero_le _
  · obtain ⟨request, -, hpre, hlength⟩ := exists_terminated h
    rw [hlength, ← buf.live_length]
    exact hpre.length_le

end HeaderEnd

section Reading

variable {conn next : Connection} {chunk : Chunk} {request later : List UInt8}

/-- The bytes that a read adds to the connection buffer. -/
def Chunk.written (chunk : Chunk) : List UInt8 :=
  chunk.received ++ chunk.stale

/-- What a read that returns does: it leaves the connection waiting, or hands the whole
buffer to `on_request` and drops the first request of it. -/
theorem readChunk_spec (h : readChunk conn chunk = .ok next) :
    ∃ buf, dynamicBufferWrite (Chunk.written chunk) conn.buf = .ok buf ∧
      ((findHeaderEnd buf = 0 ∧ next.buf = buf ∧ next.requests = conn.requests) ∨
        (findHeaderEnd buf ≠ 0 ∧ splice buf (findHeaderEnd buf) = .ok next.buf ∧
          next.requests = conn.requests ++ [buf.live])) := by
  rw [readChunk, bind_eq_ok] at h
  obtain ⟨buf, hwrite, h⟩ := h
  refine ⟨buf, hwrite, ?_⟩
  simp only at h
  split at h
  · rename_i hend
    rw [bind_eq_ok] at h
    obtain ⟨spliced, hsplice, h⟩ := h
    rw [pure_eq_ok, Except.ok.injEq] at h
    subst h
    exact .inr ⟨hend, hsplice, rfl⟩
  · rename_i hend
    rw [pure_eq_ok, Except.ok.injEq] at h
    subst h
    exact .inl ⟨not_not.mp hend, rfl, rfl⟩

theorem readChunk_returns_iff (hsized : conn.buf.Sized) (chunk : Chunk) :
    Returns (readChunk conn chunk) ↔
      conn.buf.live.length + (Chunk.written chunk).length < 2 ^ 31 := by
  rw [conn.buf.live_length, ← dynamicBufferWrite_returns_iff hsized]
  constructor
  · rintro ⟨next, h⟩
    obtain ⟨buf, hwrite, -⟩ := readChunk_spec h
    exact ⟨buf, hwrite⟩
  · rintro ⟨buf, hwrite⟩
    rw [Chunk.written] at hwrite
    rw [readChunk, hwrite, ok_bind]
    simp only
    split
    · obtain ⟨spliced, hsplice, -, -⟩ := splice_of_le (findHeaderEnd_le buf)
      rw [hsplice]
      exact returns_ok _
    · exact returns_ok _

theorem readChunk_sized (hsized : conn.buf.Sized) (h : readChunk conn chunk = .ok next) :
    next.buf.Sized := by
  obtain ⟨buf, hwrite, ⟨-, hbuf, -⟩ | ⟨-, hsplice, -⟩⟩ := readChunk_spec h
  · rw [hbuf]
    exact hsized.write hwrite
  · exact (hsized.write hwrite).splice hsplice

theorem readChunk_requests (h : readChunk conn chunk = .ok next) :
    conn.requests <+: next.requests := by
  obtain ⟨buf, -, ⟨-, -, hrequests⟩ | ⟨-, -, hrequests⟩⟩ := readChunk_spec h
  · rw [hrequests]
  · rw [hrequests]
    exact List.prefix_append _ _

theorem readChunk_quiet (h : readChunk conn chunk = .ok next)
    (hquiet : next.requests = conn.requests) :
    next.buf.live = conn.buf.live ++ Chunk.written chunk := by
  obtain ⟨buf, hwrite, ⟨-, hbuf, -⟩ | ⟨-, -, hrequests⟩⟩ := readChunk_spec h
  · rw [hbuf]
    exact (dynamicBufferWrite_spec hwrite).1
  · rw [hquiet] at hrequests
    exact absurd hrequests.symm (by simp)

theorem readChunk_handed {buffer : List UInt8} (h : readChunk conn chunk = .ok next)
    (hrequests : next.requests = conn.requests ++ [buffer]) :
    buffer = conn.buf.live ++ Chunk.written chunk := by
  obtain ⟨buf, hwrite, ⟨-, -, hsame⟩ | ⟨-, -, hmore⟩⟩ := readChunk_spec h
  · rw [hrequests] at hsame
    exact absurd hsame (by simp)
  · rw [hrequests, List.append_cancel_left_eq, List.singleton_inj] at hmore
    rw [hmore]
    exact (dynamicBufferWrite_spec hwrite).1

theorem readChunk_request (h : readChunk conn chunk = .ok next) (hterm : Terminated request)
    (hpre : request <+: conn.buf.live ++ Chunk.written chunk) :
    next.requests = conn.requests ++ [conn.buf.live ++ Chunk.written chunk] ∧
      next.buf.live = (conn.buf.live ++ Chunk.written chunk).drop request.length := by
  obtain ⟨buf, hwrite, hcases⟩ := readChunk_spec h
  have hlive := (dynamicBufferWrite_spec hwrite).1
  have hend := findHeaderEnd_of_terminated hterm (hlive ▸ hpre)
  have hpos := hterm.length_pos
  rcases hcases with ⟨hnone, -, -⟩ | ⟨-, hsplice, hrequests⟩
  · omega
  · rw [hend] at hsplice
    rw [hrequests, (splice_spec hsplice).1, hlive]
    exact ⟨rfl, rfl⟩

theorem readChunk_waiting (h : readChunk conn chunk = .ok next) (hterm : Terminated request)
    (hpre : conn.buf.live ++ Chunk.written chunk <+: request)
    (hshort : (conn.buf.live ++ Chunk.written chunk).length < request.length) :
    next.requests = conn.requests := by
  obtain ⟨buf, hwrite, ⟨-, -, hrequests⟩ | ⟨hend, -, -⟩⟩ := readChunk_spec h
  · exact hrequests
  · obtain ⟨start, hstart, hstartPre, -⟩ := exists_terminated hend
    rw [(dynamicBufferWrite_spec hwrite).1] at hstartPre
    have hsame := hstart.unique hterm (hstartPre.trans hpre) (List.prefix_refl _)
    have hle := hstartPre.length_le
    rw [hsame] at hle
    omega

end Reading

section Runs

variable {conn next : Connection} {chunk : Chunk} {before : List Chunk}
  {request later : List UInt8}

/-- The bytes that a sequence of reads receives. -/
def received (chunks : List Chunk) : List UInt8 :=
  chunks.flatMap Chunk.received

/-- The bytes that a sequence of reads adds to the connection buffer. -/
def written (chunks : List Chunk) : List UInt8 :=
  chunks.flatMap Chunk.written

/-- `on_read` of one read after the other. -/
def readChunks (conn : Connection) (chunks : List Chunk) : Outcome Connection :=
  chunks.foldlM readChunk conn

theorem readChunks_cons (conn : Connection) (chunk : Chunk) (chunks : List Chunk) :
    readChunks conn (chunk :: chunks) = readChunk conn chunk >>= fun c => readChunks c chunks :=
  rfl

theorem readChunks_sized (hsized : conn.buf.Sized) (h : readChunks conn before = .ok next) :
    next.buf.Sized := by
  induction before generalizing conn with
  | nil =>
      cases h
      exact hsized
  | cons chunk before ih =>
      rw [readChunks_cons, bind_eq_ok] at h
      obtain ⟨c, hchunk, hbefore⟩ := h
      exact ih (readChunk_sized hsized hchunk) hbefore

theorem readChunks_requests (h : readChunks conn before = .ok next) :
    conn.requests <+: next.requests := by
  induction before generalizing conn with
  | nil =>
      cases h
      exact List.prefix_refl _
  | cons chunk before ih =>
      rw [readChunks_cons, bind_eq_ok] at h
      obtain ⟨c, hchunk, hbefore⟩ := h
      exact (readChunk_requests hchunk).trans (ih hbefore)

theorem readChunks_quiet (h : readChunks conn before = .ok next)
    (hquiet : next.requests = conn.requests) :
    next.buf.live = conn.buf.live ++ written before := by
  induction before generalizing conn with
  | nil =>
      cases h
      exact (List.append_nil _).symm
  | cons chunk before ih =>
      rw [readChunks_cons, bind_eq_ok] at h
      obtain ⟨c, hchunk, hbefore⟩ := h
      have hfirst := readChunk_requests hchunk
      have hsame : c.requests = conn.requests :=
        (hquiet ▸ readChunks_requests hbefore).eq_of_length_le hfirst.length_le
      rw [ih hbefore (hquiet.trans hsame.symm), readChunk_quiet hchunk hsame, List.append_assoc]
      rfl

/-- The reads of a part of the request, when they return nothing but the request. -/
theorem readChunks_waiting (hsized : conn.buf.Sized) (hterm : Terminated request)
    (hpre : conn.buf.live ++ written before <+: request)
    (hshort : (conn.buf.live ++ written before).length < request.length)
    (hfit : request.length < 2 ^ 31) :
    ∃ next, readChunks conn before = .ok next ∧ next.requests = conn.requests := by
  induction before generalizing conn with
  | nil => exact ⟨conn, rfl, rfl⟩
  | cons chunk before ih =>
      have hsplit : conn.buf.live ++ written (chunk :: before) =
          conn.buf.live ++ Chunk.written chunk ++ written before := by
        rw [List.append_assoc]
        rfl
      rw [hsplit] at hpre hshort
      have hpart : (conn.buf.live ++ Chunk.written chunk).length < request.length := by
        rw [List.length_append] at hshort
        omega
      have hreturns : Returns (readChunk conn chunk) := by
        rw [readChunk_returns_iff hsized, ← List.length_append]
        exact hpart.trans hfit
      obtain ⟨c, hchunk⟩ := hreturns
      have hwait := readChunk_waiting hchunk hterm ((List.prefix_append _ _).trans hpre) hpart
      rw [← readChunk_quiet hchunk hwait] at hpre hshort
      obtain ⟨next, hbefore, hrequests⟩ := ih (readChunk_sized hsized hchunk) hpre hshort
      refine ⟨next, ?_, hrequests.trans hwait⟩
      rw [readChunks_cons, hchunk, ok_bind]
      exact hbefore

end Runs

section Chunking

variable {conn : Connection} {before : List Chunk} {chunk : Chunk} {request later : List UInt8}

/-- A connection between two requests. -/
structure Idle (conn : Connection) : Prop where
  live : conn.buf.live = []
  sized : conn.buf.Sized

/-- The request is handled by the read that completes its header, and the bytes behind it
stay in the connection buffer. -/
def Survives (conn : Connection) (before : List Chunk) (chunk : Chunk)
    (request later : List UInt8) : Prop :=
  ∃ waiting next buffer, readChunks conn before = .ok waiting ∧
    waiting.requests = conn.requests ∧ readChunk waiting chunk = .ok next ∧
    next.requests = conn.requests ++ [buffer] ∧ request <+: buffer ∧ next.buf.live = later

theorem length_written (chunks : List Chunk) : (written chunks).length =
    (received chunks).length + (chunks.map fun c => c.stale.length).sum := by
  induction chunks with
  | nil => rfl
  | cons chunk chunks ih =>
      have hwritten : written (chunk :: chunks) =
          chunk.received ++ chunk.stale ++ written chunks := rfl
      have hreceived : received (chunk :: chunks) = chunk.received ++ received chunks := rfl
      rw [hwritten, hreceived, List.map_cons, List.sum_cons]
      simp only [List.length_append]
      omega

theorem written_eq_received {chunks : List Chunk} (hfull : ∀ c ∈ chunks, c.stale = []) :
    written chunks = received chunks := by
  apply List.flatMap_congr
  intro c hc
  rw [Chunk.written, hfull c hc, List.append_nil]

theorem written_concat (before : List Chunk) (chunk : Chunk) :
    written (before ++ [chunk]) = written before ++ Chunk.written chunk := by
  rw [written, List.flatMap_append, List.flatMap_singleton]
  rfl

theorem Survives.full (h : Survives conn before chunk request later) (hidle : Idle conn)
    (hterm : Terminated request)
    (hstream : received (before ++ [chunk]) = request ++ later) :
    (∀ c ∈ before ++ [chunk], c.stale = []) ∧ (request ++ later).length < 2 ^ 31 := by
  obtain ⟨waiting, next, buffer, hbefore, hquiet, hchunk, hrequests, hpre, hlive⟩ := h
  have hwaiting : waiting.buf.live = written before := by
    rw [readChunks_quiet hbefore hquiet, hidle.live, List.nil_append]
  have hbuffer : buffer = written (before ++ [chunk]) := by
    rw [written_concat, ← hwaiting]
    exact readChunk_handed hchunk (hquiet ▸ hrequests)
  have hwhole : written (before ++ [chunk]) = request ++ later := by
    obtain ⟨rest, hrest⟩ := hpre
    have hfound := readChunk_request hchunk hterm
    rw [hwaiting, ← written_concat, ← hbuffer, ← hrest] at hfound
    have hlater := (hfound (List.prefix_append _ _)).2
    rw [hlive, List.drop_left] at hlater
    rw [← hbuffer, ← hrest, hlater]
  have hsum := length_written (before ++ [chunk])
  rw [hwhole, hstream] at hsum
  have hfit :=
    (readChunk_returns_iff (readChunks_sized hidle.sized hbefore) chunk).mp ⟨_, hchunk⟩
  rw [hwaiting, ← List.length_append, ← written_concat, hwhole] at hfit
  refine ⟨?_, hfit⟩
  intro c hc
  have hzero := List.sum_eq_zero_iff.mp (Nat.left_eq_add.mp hsum) _ (List.mem_map_of_mem hc)
  exact List.length_eq_zero_iff.mp hzero

/-- Reads that fill their buffers are handled as they should. -/
theorem survives_of_full (hidle : Idle conn) (hterm : Terminated request)
    (hstream : received (before ++ [chunk]) = request ++ later)
    (hshort : (received before).length < request.length)
    (hfull : ∀ c ∈ before ++ [chunk], c.stale = [])
    (hfit : (request ++ later).length < 2 ^ 31) :
    Survives conn before chunk request later := by
  have hwritten := (written_eq_received hfull).trans hstream
  have hpart : written before = received before := by
    apply written_eq_received
    intro c hc
    exact hfull c (List.mem_append_left _ hc)
  have hrequest : request.length < 2 ^ 31 := by
    rw [List.length_append] at hfit
    omega
  have hbegun : conn.buf.live ++ written before <+: request := by
    rw [hidle.live, List.nil_append]
    refine List.prefix_of_prefix_length_le ?_ (List.prefix_append request later) ?_
    · rw [← hwritten, written_concat]
      exact List.prefix_append _ _
    · rw [hpart]
      exact hshort.le
  have hunfinished : (conn.buf.live ++ written before).length < request.length := by
    rw [hidle.live, List.nil_append, hpart]
    exact hshort
  obtain ⟨waiting, hbefore, hquiet⟩ :=
    readChunks_waiting hidle.sized hterm hbegun hunfinished hrequest
  have hwaiting : waiting.buf.live = written before := by
    rw [readChunks_quiet hbefore hquiet, hidle.live, List.nil_append]
  have hreturns : Returns (readChunk waiting chunk) := by
    rw [readChunk_returns_iff (readChunks_sized hidle.sized hbefore), ← List.length_append,
      hwaiting, ← written_concat, hwritten]
    exact hfit
  obtain ⟨next, hchunk⟩ := hreturns
  have hfound := readChunk_request hchunk hterm
  rw [hwaiting, ← written_concat, hwritten] at hfound
  obtain ⟨hrequests, hlive⟩ := hfound (List.prefix_append _ _)
  rw [hquiet] at hrequests
  rw [List.drop_left] at hlive
  exact ⟨waiting, next, _, hbefore, hquiet, hchunk, hrequests, List.prefix_append _ _, hlive⟩

/-- The request is handled as it should exactly when every read fills its buffer and the
bytes fit the connection buffer. -/
theorem survives_iff (hidle : Idle conn) (hterm : Terminated request)
    (hstream : received (before ++ [chunk]) = request ++ later)
    (hshort : (received before).length < request.length) :
    Survives conn before chunk request later ↔
      (∀ c ∈ before ++ [chunk], c.stale = []) ∧ (request ++ later).length < 2 ^ 31 := by
  constructor
  · intro hsurvives
    exact hsurvives.full hidle hterm hstream
  · rintro ⟨hfull, hfit⟩
    exact survives_of_full hidle hterm hstream hshort hfull hfit

end Chunking

section Samples

theorem idle_connectionCreate : Idle connectionCreate where
  live := rfl
  sized := ⟨5, rfl⟩

/-- The request `GET / HTTP/1.0`. -/
def getRequest : List UInt8 :=
  [71, 69, 84, 32, 47, 32, 72, 84, 84, 80, 47, 49, 46, 48, 13, 10, 13, 10]

theorem terminated_getRequest : Terminated getRequest where
  ends := by decide
  first := by
    have hinits : ∀ start ∈ getRequest.inits, crlfcrlf <:+ start → start = getRequest := by
      decide
    intro start hstart
    exact hinits start ((List.mem_inits _ _).mpr hstart)

theorem survives_iff_split :
    Survives connectionCreate [⟨getRequest.take 16, []⟩] ⟨[13, 10, 71], []⟩
      getRequest [71] ↔
      (∀ c ∈ [⟨getRequest.take 16, []⟩] ++ [(⟨[13, 10, 71], []⟩ : Chunk)],
        c.stale = []) ∧
        (getRequest ++ [71]).length < 2 ^ 31 :=
  survives_iff idle_connectionCreate terminated_getRequest (by decide) (by decide)

theorem stale_left {stale : List UInt8} (hfit : 18 + stale.length < 2 ^ 31) :
    ∃ next, readChunk connectionCreate ⟨getRequest, stale⟩ = .ok next ∧
      next.buf.live = stale := by
  have hreturns : Returns (readChunk connectionCreate ⟨getRequest, stale⟩) := by
    rw [readChunk_returns_iff idle_connectionCreate.sized, idle_connectionCreate.live,
      Chunk.written, List.length_append]
    exact (Nat.zero_add _).trans_lt hfit
  obtain ⟨next, hchunk⟩ := hreturns
  have hfound := readChunk_request hchunk terminated_getRequest (List.prefix_append _ _)
  exact ⟨next, hchunk, hfound.2.trans List.drop_left⟩

theorem not_survives_of_stale {stale : List UInt8} (hstale : stale ≠ []) :
    ¬ Survives connectionCreate [] ⟨getRequest, stale⟩ getRequest [] := by
  intro hsurvives
  have hfull := (hsurvives.full idle_connectionCreate terminated_getRequest rfl).1
  exact hstale (hfull _ List.mem_cons_self)

/-- A request of 18 bytes in a read buffer of 64 KB leaves the rest of that buffer in the
connection buffer, where nothing has been received after the header. -/
theorem stale_bytes_kept : Terminated getRequest ∧
    (∃ next, readChunk connectionCreate ⟨getRequest, List.replicate 65518 0⟩ = .ok next ∧
      next.buf.live = List.replicate 65518 0) ∧
    ¬ Survives connectionCreate [] ⟨getRequest, List.replicate 65518 0⟩ getRequest [] := by
  refine ⟨terminated_getRequest, stale_left ?_, not_survives_of_stale ?_⟩
  · rw [List.length_replicate]
    decide
  · rw [Ne, List.replicate_eq_nil_iff]
    decide

end Samples

end Whosecoin.HttpReading
