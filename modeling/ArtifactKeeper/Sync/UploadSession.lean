import ArtifactKeeper.Result
import ArtifactKeeper.Traced

/-! The receiver of a chunked upload: opening a session, the `Content-Range` header, and the PATCH
that completes one chunk. -/

namespace ArtifactKeeper.Sync
open Chunking

inductive UploadError where
  | notFound
  | invalidChunk (message : String)
  | chunkInProgress (index : ℤ)
  | invalidStatus (status : String)
  | invalidChunkSize
  | tooLarge (size : ℤ) (max : ℕ)
  deriving DecidableEq, Repr

inductive ChunkStatus where
  | pending
  | uploading (claimedAt : Option ℤ)
  | completed
  | failed
  deriving DecidableEq, Repr

inductive SessionStatus where
  | pending | inProgress | completed | failed | cancelled
  deriving DecidableEq, Repr

/-- A row of `upload_chunks`. -/
structure UploadChunk where
  chunkIndex : ℤ
  byteOffset : ℤ
  byteLength : ℤ
  status : ChunkStatus
  deriving DecidableEq, Repr

/-- A row of `upload_sessions` with its chunk rows. -/
structure UploadSession where
  totalSize : ℤ
  chunkSize : ℤ
  totalChunks : ℤ
  completedChunks : ℤ
  bytesReceived : ℤ
  status : SessionStatus
  chunks : List UploadChunk
  deriving DecidableEq, Repr

def minChunkSize : ℤ := 1048576
def maxChunkSize : ℤ := 268435456
def defaultChunkSize : ℤ := 8388608
def chunkClaimLeaseSecs : ℤ := 300

/-- The size is within the limit of the receiver; a limit of 0 means none. -/
def withinLimit (totalSize : ℤ) (maxUploadSize : ℕ) : Prop :=
  maxUploadSize = 0 ∨ totalSize ≤ maxUploadSize

instance (totalSize : ℤ) (maxUploadSize : ℕ) : Decidable (withinLimit totalSize maxUploadSize) :=
  inferInstanceAs (Decidable (_ ∨ _))

/-- Called with a positive size, so `total_size as u64` is the size. -/
def enforceMaxTotalSize (totalSize : ℤ) (maxUploadSize : ℕ) : Except UploadError Unit :=
  if maxUploadSize ≠ 0 ∧ (maxUploadSize : ℤ) < totalSize then
    .error (.tooLarge totalSize maxUploadSize) else .ok ()

/-- The number of chunks. Sums wrap around as in a release build. -/
def countChunks (totalSize chunkSize : ℤ) : Traced ℤ := do
  let sum ← i64 (totalSize + chunkSize)
  let rounded ← i64 (sum - 1)
  i32 (rounded.tdiv chunkSize)

/-- The row of chunk `i`: index, offset and length. -/
def chunkRow (totalSize chunkSize totalChunks i : ℤ) : Traced (ℤ × ℤ × ℤ) := do
  let offset ← i64 (i * chunkSize)
  let last ← i32 (totalChunks - 1)
  if i = last then
    let left ← i64 (totalSize - offset)
    let length ← i32 left
    return (i, offset, length)
  else return (i, offset, chunkSize)

def insertedRows (totalSize chunkSize totalChunks : ℤ) : Traced (List (ℤ × ℤ × ℤ)) :=
  Traced.each (fun i => chunkRow totalSize chunkSize totalChunks (i : ℕ))
    (List.range totalChunks.toNat)

/-- The session that is opened, with its rows. -/
def openSession (totalSize chunkSize : ℤ) : Traced UploadSession := do
  let totalChunks ← countChunks totalSize chunkSize
  let rows ← insertedRows totalSize chunkSize totalChunks
  return {
    totalSize, chunkSize, totalChunks
    completedChunks := 0
    bytesReceived := 0
    status := .pending
    chunks := rows.map fun r => ⟨r.1, r.2.1, r.2.2, .pending⟩ }

/-- `UploadService::create_session`, with whether its arithmetic was cut anywhere. -/
def createSessionTraced (totalSize : ℤ) (maxUploadSize : ℕ) (chunkSize : Option ℤ) :
    Except UploadError (Traced UploadSession) := do
  if totalSize ≤ 0 then throw (.invalidChunk "total_size must be a positive integer")
  enforceMaxTotalSize totalSize maxUploadSize
  let chunkSize := chunkSize.getD defaultChunkSize
  if chunkSize < minChunkSize ∨ maxChunkSize < chunkSize then throw .invalidChunkSize
  return openSession totalSize chunkSize

def createSession (totalSize : ℤ) (maxUploadSize : ℕ) (chunkSize : Option ℤ) :
    Except UploadError UploadSession :=
  Traced.value <$> createSessionTraced totalSize maxUploadSize chunkSize

/-- `char::is_whitespace`. -/
def isWhitespace (c : Char) : Bool :=
  let n := c.toNat
  (9 ≤ n && n ≤ 13) || n == 0x20 || n == 0x85 || n == 0xA0 || n == 0x1680 ||
    (0x2000 ≤ n && n ≤ 0x200A) || n == 0x2028 || n == 0x2029 || n == 0x202F || n == 0x205F ||
    n == 0x3000

def trim (cs : List Char) : List Char :=
  ((cs.dropWhile isWhitespace).reverse.dropWhile isWhitespace).reverse

/-- `str::split_once`: around the first occurrence. -/
def splitOnce (c : Char) (cs : List Char) : Option (List Char × List Char) :=
  if c ∈ cs then some (cs.takeWhile (· != c), (cs.dropWhile (· != c)).tail) else none

/-- `str::strip_prefix`. -/
def stripStart (pre cs : List Char) : Option (List Char) :=
  if pre.isPrefixOf cs then some (cs.drop pre.length) else none

/-- `str::parse::<i64>`: an optional sign and decimal digits, within range. -/
def parseI64 (cs : List Char) : Option ℤ :=
  let digits := fun (sign : ℤ) (ds : List Char) =>
    if ds.isEmpty || !ds.all Char.isDigit then none
    else
      let v := sign * (Nat.ofDigitChars 10 ds 0 : ℤ)
      if -2 ^ 63 ≤ v ∧ v < 2 ^ 63 then some v else none
  match cs with
  | '-' :: ds => digits (-1) ds
  | '+' :: ds => digits 1 ds
  | ds => digits 1 ds

/-- `parse_content_range`: start, end and total of a header like `bytes 0-9/100`. -/
def parseContentRange (header : String) : Except String (ℤ × ℤ × ℤ) :=
  let text := trim header.toList
  let shown := String.ofList text
  match stripStart "bytes ".toList text with
  | none => .error ("Content-Range must start with 'bytes ': " ++ shown)
  | some rest =>
  match splitOnce '/' rest with
  | none => .error ("Content-Range missing '/': " ++ shown)
  | some (rangePart, totalStr) =>
  match splitOnce '-' rangePart with
  | none => .error ("Content-Range missing '-': " ++ shown)
  | some (startStr, endStr) =>
  match parseI64 startStr with
  | none => .error ("Invalid start byte: " ++ String.ofList startStr)
  | some start =>
  match parseI64 endStr with
  | none => .error ("Invalid end byte: " ++ String.ofList endStr)
  | some stop =>
  match parseI64 totalStr with
  | none => .error ("Invalid total size: " ++ String.ofList totalStr)
  | some total =>
  if stop < start then .error ("start (" ++ toString start ++ ") > end (" ++ toString stop ++ ")")
  else if total ≤ stop then
    .error ("end (" ++ toString stop ++ ") >= total (" ++ toString total ++ ")")
  else .ok (start, stop, total)

/-- How a PATCH is refused: by the handler with a 400, or by the service. -/
inductive PatchError where
  | badRequest (message : String)
  | upload (e : UploadError)
  deriving DecidableEq, Repr

namespace UploadSession

def statusText : SessionStatus → String
  | .pending => "pending"
  | .inProgress => "in_progress"
  | .completed => "completed"
  | .failed => "failed"
  | .cancelled => "cancelled"

/-- The chunk row is marked completed and the session counts it. -/
def completeChunk (s : UploadSession) (index dataLen : ℤ) : UploadSession :=
  { s with
    chunks := s.chunks.map fun c =>
      if c.chunkIndex = index then { c with status := .completed } else c
    completedChunks := s.completedChunks + 1
    bytesReceived := s.bytesReceived + dataLen
    status := if s.status = .pending then .inProgress else s.status }

/-- `UploadService::upload_chunk` for a session of the caller that has not expired. -/
def uploadChunk (s : UploadSession) (now : ℤ) (index dataLen : ℤ) :
    Except UploadError UploadSession :=
  if s.status = .completed ∨ s.status = .cancelled then
    .error (.invalidStatus (statusText s.status))
  else
    match s.chunks.find? fun c => c.chunkIndex == index with
    | none => .error (.invalidChunk ("chunk_index " ++ toString index ++ " out of range (0.." ++
        toString s.totalChunks ++ ")"))
    | some c =>
      match c.status with
      | .completed => .ok s
      | .uploading claimedAt =>
        if claimedAt.all fun t => decide (chunkClaimLeaseSecs < (now - t).tdiv 1000) then
          .ok (s.completeChunk index dataLen)
        else .error (.chunkInProgress index)
      | .pending | .failed => .ok (s.completeChunk index dataLen)

/-- The PATCH handler on a header and the length of the body. -/
def patch (s : UploadSession) (now : ℤ) (header : String) (dataLen : ℤ) :
    Except PatchError UploadSession := do
  let (start, stop, _) ← (parseContentRange header).mapError fun e =>
    .badRequest ("Invalid Content-Range: " ++ e)
  let index := asI32 (start.tdiv s.chunkSize)
  let expectedLen := stop - start + 1
  if expectedLen < dataLen then
    throw (.badRequest ("Body exceeds declared Content-Range length of " ++
      toString expectedLen ++ " bytes"))
  if dataLen ≠ expectedLen then
    throw (.badRequest ("Content-Range declares " ++ toString expectedLen ++
      " bytes but body contains " ++ toString dataLen ++ " bytes"))
  (s.uploadChunk now index dataLen).mapError .upload

end UploadSession

section ContentRange
variable {n : ℕ} {c : Char}

theorem isDigit_of_mem_toDigits (h : c ∈ Nat.toDigits 10 n) : c.isDigit = true :=
  Nat.isDigit_of_mem_toDigits (by omega) (by omega) h

theorem ne_of_mem_toDigits {x : Char} (hx : x.isDigit = false) (h : c ∈ Nat.toDigits 10 n) :
    c ≠ x := by
  rintro rfl
  simp [isDigit_of_mem_toDigits h] at hx

theorem not_isWhitespace_of_isDigit (h : c.isDigit = true) : isWhitespace c = false := by
  have hrange : 48 ≤ c.toNat ∧ c.toNat ≤ 57 := by
    simpa [Char.isDigit, UInt32.le_iff_toNat_le] using h
  simp only [isWhitespace, Bool.or_eq_false_iff, Bool.and_eq_false_iff, decide_eq_false_iff_not,
    beq_eq_false_iff_ne, ne_eq]
  omega

/-- The decimal digits of a number, as `format!` writes it. -/
theorem toList_toString {x : ℤ} (hx : 0 ≤ x) : (toString x).toList = Nat.toDigits 10 x.toNat := by
  obtain ⟨k, rfl⟩ := Int.eq_ofNat_of_zero_le hx
  simp [Int.toString_eq_repr, Int.repr_eq_if, Nat.toList_repr]

theorem parseI64_toDigits (hn : n < 2 ^ 63) : parseI64 (Nat.toDigits 10 n) = some (n : ℤ) := by
  have hall : (Nat.toDigits 10 n).all Char.isDigit = true :=
    List.all_eq_true.mpr fun _ hc => isDigit_of_mem_toDigits hc
  have hne : Nat.toDigits 10 n ≠ [] := Nat.toDigits_ne_nil
  have hvalue : Nat.ofDigitChars 10 (Nat.toDigits 10 n) 0 = n := Nat.ofDigitChars_ten_toDigits
  unfold parseI64
  split
  · next ds h =>
    have hmem : '-' ∈ Nat.toDigits 10 n := by rw [h]; exact List.mem_cons_self
    exact absurd rfl (ne_of_mem_toDigits (by decide) hmem)
  · next ds h =>
    have hmem : '+' ∈ Nat.toDigits 10 n := by rw [h]; exact List.mem_cons_self
    exact absurd rfl (ne_of_mem_toDigits (by decide) hmem)
  · simp only [hall, hvalue, Bool.not_true, Bool.or_false, List.isEmpty_iff, hne, one_mul,
      if_false]
    rw [if_pos ⟨by omega, by omega⟩]

theorem splitOnce_append {xs ys : List Char} (h : c ∉ xs) :
    splitOnce c (xs ++ c :: ys) = some (xs, ys) := by
  have hall : ∀ x ∈ xs, (x != c) = true := by
    intro x hx
    simp only [bne_iff_ne, ne_eq]
    rintro rfl
    exact h hx
  simp [splitOnce, List.takeWhile_append_of_pos hall, List.dropWhile_append_of_pos hall]

/-- Text between two visible characters is not trimmed. -/
theorem trim_eq_self {x : Char} {xs : List Char} (hx : isWhitespace x = false)
    (hc : isWhitespace c = false) : trim (x :: (xs ++ [c])) = x :: (xs ++ [c]) := by
  have hrev : (x :: (xs ++ [c])).reverse = c :: (xs.reverse ++ [x]) := by simp
  unfold trim
  rw [List.dropWhile_cons_of_neg (by simp [hx]), hrev, List.dropWhile_cons_of_neg (by simp [hc]),
    ← hrev, List.reverse_reverse]

/-- A well-formed header is read as it is written. -/
theorem parseContentRange_format {start stop total : ℤ} (hstart : 0 ≤ start) (hstop : start ≤ stop)
    (htotal : stop < total) (hbound : total < 2 ^ 63) :
    parseContentRange ("bytes " ++ toString start ++ "-" ++ toString stop ++ "/" ++
      toString total) = .ok (start, stop, total) := by
  set a := Nat.toDigits 10 start.toNat with ha
  set b := Nat.toDigits 10 stop.toNat with hb
  set d := Nat.toDigits 10 total.toNat with hd
  have htext : ("bytes " ++ toString start ++ "-" ++ toString stop ++ "/" ++
      toString total).toList = "bytes ".toList ++ (a ++ '-' :: b ++ '/' :: d) := by
    simp only [String.toList_append, toList_toString hstart, toList_toString (hstart.trans hstop),
      toList_toString (show (0 : ℤ) ≤ total by omega), ← ha, ← hb, ← hd]
    simp
  -- the last character is a digit of the total
  obtain ⟨d', c, hd'⟩ : ∃ d' c, d = d' ++ [c] :=
    ⟨_, _, (List.dropLast_append_getLast (Nat.toDigits_ne_nil)).symm⟩
  have hc : c.isDigit = true := isDigit_of_mem_toDigits (n := total.toNat) (by rw [← hd, hd']; simp)
  have htrim : trim ("bytes ".toList ++ (a ++ '-' :: b ++ '/' :: d)) =
      "bytes ".toList ++ (a ++ '-' :: b ++ '/' :: d) := by
    have hends : "bytes ".toList ++ (a ++ '-' :: b ++ '/' :: d) =
        'b' :: ((['y', 't', 'e', 's', ' '] ++ (a ++ '-' :: b ++ '/' :: d')) ++ [c]) := by
      simp [hd']
    rw [hends]
    exact trim_eq_self (by decide) (not_isWhitespace_of_isDigit hc)
  have hslash : '/' ∉ a ++ '-' :: b := by
    simp only [List.mem_append, List.mem_cons, not_or]
    exact ⟨fun h => ne_of_mem_toDigits (by decide) h rfl, by decide,
      fun h => ne_of_mem_toDigits (by decide) h rfl⟩
  have hdash : '-' ∉ a := fun h => ne_of_mem_toDigits (by decide) h rfl
  have hvalue : ∀ x : ℤ, 0 ≤ x → x < 2 ^ 63 → parseI64 (Nat.toDigits 10 x.toNat) = some x := by
    intro x hx hx'
    rw [parseI64_toDigits (by omega), Int.toNat_of_nonneg hx]
  have hstrip : stripStart "bytes ".toList ("bytes ".toList ++ (a ++ '-' :: b ++ '/' :: d)) =
      some (a ++ '-' :: b ++ '/' :: d) := by
    simp [stripStart]
  have hstart' : parseI64 a = some start := hvalue start hstart (by omega)
  have hstop' : parseI64 b = some stop := hvalue stop (by omega) (by omega)
  have htotal' : parseI64 d = some total := hvalue total (by omega) hbound
  unfold parseContentRange
  simp only [htext, htrim, hstrip, splitOnce_append hslash, splitOnce_append hdash, hstart',
    hstop', htotal']
  rw [if_neg (by omega), if_neg (by omega)]

end ContentRange

end ArtifactKeeper.Sync
