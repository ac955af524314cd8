import ArtifactKeeper.Bytes
import ArtifactKeeper.Npm.PackumentCache

/-! The value a computed packument has in Redis: a version byte, the write time, the content type
and the content encoding with their lengths, and the body up to the end of the value. -/

namespace ArtifactKeeper.Npm

open Bytes

/-- A slice index that panics. -/
inductive IndexPanic where
  | outOfBounds
  deriving DecidableEq, Repr

/-- `raw[i]`. -/
def index (raw : List UInt8) (i : ℕ) : Except IndexPanic UInt8 :=
  match raw[i]? with
  | some b => .ok b
  | none => .error .outOfBounds

/-- `raw[start..stop]`. -/
def slice (raw : List UInt8) (start stop : ℕ) : Except IndexPanic (List UInt8) :=
  match getSlice raw start stop with
  | some bs => .ok bs
  | none => .error .outOfBounds

def usizeMax : ℕ := 2 ^ 64 - 1

/-- `usize::checked_add`. -/
def checkedAdd (a b : ℕ) : Option ℕ := if a + b ≤ usizeMax then some (a + b) else none

/-- `u64::from_be_bytes(raw.try_into().ok()?)`. -/
def u64FromBeBytes (bs : List UInt8) : Option UInt64 :=
  if bs.length = 8 then some (UInt64.ofNat (ofBeBytes bs)) else none

/-- `u16::from_be_bytes(raw.try_into().ok()?)`. -/
def u16FromBeBytes (bs : List UInt8) : Option UInt16 :=
  if bs.length = 2 then some (UInt16.ofNat (ofBeBytes bs)) else none

def redisEntryVersion : UInt8 := 1

def encodeRedisEntry (entry : CachedPackument) (storedAtMs : UInt64) : List UInt8 :=
  let ct := utf8 entry.contentType
  let enc := utf8 (entry.contentEncoding.getD "")
  [redisEntryVersion] ++ beBytes 8 storedAtMs.toNat ++
    beBytes 2 (UInt16.ofNat (min ct.length 65535)).toNat ++ ct.take (min ct.length 65535) ++
    [UInt8.ofNat (min enc.length 255)] ++ enc.take (min enc.length 255) ++ entry.bytes

/-- An empty encoding field stands for no encoding. -/
def decodeEncoding (encoding : List UInt8) : Option (Option String) :=
  if encoding.isEmpty then some none else (ofUtf8 encoding).map some

/-- `decode_redis_entry` after the two fixed-width numbers have been read. -/
def decodeVariable (raw : List UInt8) (storedAtMs : UInt64) (ctLen : ℕ) :
    Option (CachedPackument × UInt64) := do
  let ctEnd ← checkedAdd 11 ctLen
  let contentType ← ofUtf8 (← getSlice raw 11 ctEnd)
  let encLen ← raw[ctEnd]?
  let encStart ← checkedAdd ctEnd 1
  let encEnd ← checkedAdd encStart encLen.toNat
  let encoding ← getSlice raw (ctEnd + 1) encEnd
  let contentEncoding ← decodeEncoding encoding
  let body ← getSlice raw encEnd raw.length
  return (⟨body, contentType, contentEncoding⟩, storedAtMs)

/-- `decode_redis_entry`; the indexing that can panic is in `Except`, a miss is `none`. -/
def decodeRedisEntry (raw : List UInt8) :
    Except IndexPanic (Option (CachedPackument × UInt64)) := do
  if raw.length < 11 then return none
  if (← index raw 0) ≠ redisEntryVersion then return none
  let some storedAtMs := u64FromBeBytes (← slice raw 1 9) | return none
  let some ctLen := u16FromBeBytes (← slice raw 9 11) | return none
  return decodeVariable raw storedAtMs ctLen.toNat

theorem decodeEncoding_eq_some_iff {encoding : List UInt8} {contentEncoding : Option String} :
    decodeEncoding encoding = some contentEncoding ↔
      utf8 (contentEncoding.getD "") = encoding ∧ contentEncoding ≠ some "" := by
  have hempty : utf8 "" = [] := rfl
  rw [decodeEncoding]
  cases contentEncoding with
  | none => cases encoding <;> simp [hempty]
  | some text =>
    cases encoding with
    | nil =>
      have hinj : utf8 text = [] → text = "" := fun h =>
        Option.some.inj ((ofUtf8_eq_some_iff.mpr h).symm.trans (ofUtf8_utf8 ""))
      simpa using hinj
    | cons b bs =>
      have hne : utf8 text = b :: bs → text ≠ "" := by
        rintro h rfl
        simp [hempty] at h
      simp only [List.isEmpty_cons, Bool.false_eq_true, if_false, Option.map_eq_some_iff,
        Option.some.injEq, exists_eq_right, ofUtf8_eq_some_iff, Option.getD_some, ne_eq]
      exact ⟨fun h => ⟨h, hne h⟩, fun h => h.1⟩

theorem checkedAdd_of_le {a b : ℕ} (h : a + b ≤ usizeMax) : checkedAdd a b = some (a + b) :=
  if_pos h

/-- The part of a value that follows its eleven fixed bytes. -/
def variablePart (e : CachedPackument) : List UInt8 :=
  let enc := utf8 (e.contentEncoding.getD "")
  utf8 e.contentType ++ [UInt8.ofNat enc.length] ++ enc ++ e.bytes

/-- Lengths that their fields hold, and no encoding that is present and empty. -/
def Fits (e : CachedPackument) : Prop :=
  (utf8 e.contentType).length ≤ 65535 ∧ (utf8 (e.contentEncoding.getD "")).length ≤ 255 ∧
    e.contentEncoding ≠ some ""

theorem encodeRedisEntry_eq {e : CachedPackument} (he : Fits e) (t : UInt64) :
    encodeRedisEntry e t = [redisEntryVersion] ++ beBytes 8 t.toNat ++
      beBytes 2 (utf8 e.contentType).length ++ variablePart e := by
  obtain ⟨hct, henc, -⟩ := he
  have hmod : (utf8 e.contentType).length % 65536 = (utf8 e.contentType).length := by omega
  simp [encodeRedisEntry, variablePart, Nat.min_eq_left hct, Nat.min_eq_left henc, hmod]

theorem decodeVariable_variablePart {head : List UInt8} (hhead : head.length = 11)
    {e : CachedPackument} (he : Fits e) (t : UInt64) :
    decodeVariable (head ++ variablePart e) t (utf8 e.contentType).length = some (e, t) := by
  obtain ⟨hct, henc, hne⟩ := he
  have hcts : getSlice (head ++ variablePart e) 11 (11 + (utf8 e.contentType).length) =
      some (utf8 e.contentType) := by
    apply getSlice_of_eq_append head _ ([UInt8.ofNat (utf8 (e.contentEncoding.getD "")).length] ++
      utf8 (e.contentEncoding.getD "") ++ e.bytes)
    · simp [variablePart]
    · exact hhead
    · rfl
  have hlen : (head ++ variablePart e)[11 + (utf8 e.contentType).length]? =
      some (UInt8.ofNat (utf8 (e.contentEncoding.getD "")).length) := by
    rw [variablePart, List.getElem?_append_right (by omega), hhead, Nat.add_sub_cancel_left]
    simp
  have hencs : getSlice (head ++ variablePart e) (11 + (utf8 e.contentType).length + 1)
      (11 + (utf8 e.contentType).length + 1 + (utf8 (e.contentEncoding.getD "")).length) =
      some (utf8 (e.contentEncoding.getD "")) := by
    apply getSlice_of_eq_append (head ++ utf8 e.contentType ++
      [UInt8.ofNat (utf8 (e.contentEncoding.getD "")).length]) _ e.bytes
    · simp [variablePart]
    · simp only [List.length_append, hhead, List.length_singleton]
    · rfl
  have hbody : getSlice (head ++ variablePart e)
      (11 + (utf8 e.contentType).length + 1 + (utf8 (e.contentEncoding.getD "")).length)
      (head ++ variablePart e).length = some e.bytes := by
    apply getSlice_of_eq_append (head ++ utf8 e.contentType ++
      [UInt8.ofNat (utf8 (e.contentEncoding.getD "")).length] ++
      utf8 (e.contentEncoding.getD "")) _ []
    · simp [variablePart]
    · simp only [List.length_append, hhead, List.length_singleton]
    · simp only [variablePart, List.length_append, hhead, List.length_singleton]
      omega
  have hbyte : (UInt8.ofNat (utf8 (e.contentEncoding.getD "")).length).toNat =
      (utf8 (e.contentEncoding.getD "")).length := by
    rw [UInt8.toNat_ofNat']
    omega
  have hmax : usizeMax = 18446744073709551615 := rfl
  rw [decodeVariable]
  simp only [checkedAdd_of_le (show 11 + (utf8 e.contentType).length ≤ usizeMax by omega), hcts,
    Option.bind_eq_bind, Option.bind_some, ofUtf8_utf8, hlen,
    checkedAdd_of_le (show 11 + (utf8 e.contentType).length + 1 ≤ usizeMax by omega), hbyte,
    checkedAdd_of_le (show 11 + (utf8 e.contentType).length + 1 +
      (utf8 (e.contentEncoding.getD "")).length ≤ usizeMax by omega), hencs,
    decodeEncoding_eq_some_iff.mpr ⟨rfl, hne⟩, hbody]
  rfl

theorem variablePart_of_decodeVariable {raw : List UInt8} {t t' : UInt64} {n : ℕ}
    {e : CachedPackument} (h : decodeVariable raw t n = some (e, t')) :
    t' = t ∧ (utf8 e.contentType).length = n ∧ (utf8 (e.contentEncoding.getD "")).length ≤ 255 ∧
      e.contentEncoding ≠ some "" ∧ raw = raw.take 11 ++ variablePart e := by
  simp only [decodeVariable, Option.bind_eq_bind, Option.bind_eq_some_iff] at h
  obtain ⟨ctEnd, hctEnd, ct, hct, contentType, htext, encLen, hencLen, encStart, hstart, encEnd,
    hencEnd, encoding, hencoding, contentEncoding, hdecoded, body, hbody, hret⟩ := h
  obtain ⟨rfl, rfl⟩ := Prod.mk.inj (Option.some.inj hret)
  have hadd : ∀ {a b c : ℕ}, checkedAdd a b = some c → c = a + b := by
    intro a b c h
    rw [checkedAdd] at h
    split at h
    · exact (Option.some.inj h).symm
    · contradiction
  obtain rfl := hadd hctEnd
  obtain rfl := hadd hstart
  obtain rfl := hadd hencEnd
  obtain rfl := ofUtf8_eq_some_iff.mp htext
  obtain ⟨rfl, hne⟩ := decodeEncoding_eq_some_iff.mp hdecoded
  have hctLen := length_of_getSlice hct
  have hencodingLen := length_of_getSlice hencoding
  have hbyte : encLen.toNat < 256 := encLen.toNat_lt
  have htake : raw.take (11 + n + 1) = raw.take (11 + n) ++ [encLen] := by
    rw [List.take_add_one, hencLen, Option.toList_some]
  have hbyteEq : UInt8.ofNat (utf8 (contentEncoding.getD "")).length = encLen := by
    apply UInt8.toNat_inj.mp
    rw [UInt8.toNat_ofNat']
    omega
  have hraw : raw = raw.take raw.length := List.take_length.symm
  -- every field extends the part of the value that precedes it
  rw [take_of_getSlice hbody, take_of_getSlice hencoding, htake, take_of_getSlice hct] at hraw
  refine ⟨rfl, ?_, ?_, hne, ?_⟩
  · show (utf8 contentType).length = n
    omega
  · show (utf8 (contentEncoding.getD "")).length ≤ 255
    omega
  · simpa only [variablePart, hbyteEq, List.append_assoc] using hraw

/-- A value of eleven bytes or more is read by its fixed fields, with no index out of bounds. -/
theorem decodeRedisEntry_fixed (version : UInt8) {time ctLen rest : List UInt8}
    (htime : time.length = 8) (hctLen : ctLen.length = 2) :
    decodeRedisEntry ([version] ++ time ++ ctLen ++ rest) = .ok
      (if version = redisEntryVersion then decodeVariable ([version] ++ time ++ ctLen ++ rest)
        (UInt64.ofNat (ofBeBytes time)) (ofBeBytes ctLen) else none) := by
  have htimes : getSlice ([version] ++ time ++ ctLen ++ rest) 1 9 = some time :=
    getSlice_of_eq_append [version] time (ctLen ++ rest) (by simp) rfl (by omega)
  have hctLens : getSlice ([version] ++ time ++ ctLen ++ rest) 9 11 = some ctLen :=
    getSlice_of_eq_append ([version] ++ time) ctLen rest rfl (by simp [htime]) (by omega)
  have hlen : ¬ ([version] ++ time ++ ctLen ++ rest).length < 11 := by
    simp only [List.length_append, List.length_singleton]
    omega
  have hlt : ofBeBytes ctLen < 65536 := by
    have h := ofBeBytes_lt ctLen
    rwa [hctLen] at h
  have hindex : index ([version] ++ time ++ ctLen ++ rest) 0 = .ok version := by simp [index]
  have hmod : (UInt16.ofNat (ofBeBytes ctLen)).toNat = ofBeBytes ctLen := by
    rw [UInt16.toNat_ofNat']
    omega
  generalize [version] ++ time ++ ctLen ++ rest = raw at *
  rw [decodeRedisEntry, if_neg hlen, hindex]
  by_cases hversion : version = redisEntryVersion
  · simp [hversion, slice, htimes, hctLens, u64FromBeBytes, u16FromBeBytes, htime, hctLen, hmod,
      bind, Except.bind, pure, Except.pure]
  · simp [hversion, bind, Except.bind, pure, Except.pure]

theorem eq_fixed_of_le_length {raw : List UInt8} (h : 11 ≤ raw.length) :
    ∃ version time ctLen rest, time.length = 8 ∧ ctLen.length = 2 ∧
      raw = [version] ++ time ++ ctLen ++ rest := by
  obtain ⟨version, tail, rfl⟩ := List.exists_cons_of_length_pos (show 0 < raw.length by omega)
  rw [List.length_cons] at h
  refine ⟨version, tail.take 8, (tail.drop 8).take 2, (tail.drop 8).drop 2, ?_, ?_, ?_⟩
  · rw [List.length_take]
    omega
  · rw [List.length_take, List.length_drop]
    omega
  · rw [List.append_assoc, List.take_append_drop, List.append_assoc, List.take_append_drop]
    rfl

theorem decodeRedisEntry_encodeRedisEntry {e : CachedPackument} (he : Fits e) (t : UInt64) :
    decodeRedisEntry (encodeRedisEntry e t) = .ok (some (e, t)) := by
  have htime : ofBeBytes (beBytes 8 t.toNat) = t.toNat := ofBeBytes_beBytes 8 _ t.toNat_lt
  have hctLen : ofBeBytes (beBytes 2 (utf8 e.contentType).length) = (utf8 e.contentType).length :=
    ofBeBytes_beBytes 2 _ (Nat.lt_succ_of_le he.1)
  rw [encodeRedisEntry_eq he, decodeRedisEntry_fixed _ (length_beBytes _ _) (length_beBytes _ _),
    if_pos rfl, htime, hctLen, decodeVariable_variablePart (by simp) he, UInt64.ofNat_toNat]

theorem decodeRedisEntry_returns (raw : List UInt8) : ∃ o, decodeRedisEntry raw = .ok o := by
  by_cases hlen : raw.length < 11
  · exact ⟨none, by rw [decodeRedisEntry, if_pos hlen]; rfl⟩
  · obtain ⟨version, time, ctLen, rest, htime, hctLen, rfl⟩ :=
      eq_fixed_of_le_length (Nat.le_of_not_lt hlen)
    exact ⟨_, decodeRedisEntry_fixed version htime hctLen⟩

theorem encodeRedisEntry_of_decodeRedisEntry {raw : List UInt8} {e : CachedPackument} {t : UInt64}
    (h : decodeRedisEntry raw = .ok (some (e, t))) : encodeRedisEntry e t = raw := by
  by_cases hlen : raw.length < 11
  · rw [decodeRedisEntry, if_pos hlen] at h
    cases h
  obtain ⟨version, time, ctLen, rest, htime, hctLen, rfl⟩ :=
    eq_fixed_of_le_length (Nat.le_of_not_lt hlen)
  rw [decodeRedisEntry_fixed version htime hctLen] at h
  split at h
  · rename_i hversion
    subst hversion
    obtain ⟨rfl, hn, henc, hne, hraw⟩ := variablePart_of_decodeVariable (Except.ok.inj h)
    have hlt := ofBeBytes_lt ctLen
    rw [hctLen] at hlt
    have he : Fits e := ⟨by omega, henc, hne⟩
    have htimeEq : beBytes 8 (UInt64.ofNat (ofBeBytes time)).toNat = time := by
      have hlt := ofBeBytes_lt time
      rw [htime] at hlt
      rw [UInt64.toNat_ofNat_of_lt' hlt, ← htime, beBytes_ofBeBytes]
    have hctEq : beBytes 2 (utf8 e.contentType).length = ctLen := by
      rw [hn, ← hctLen, beBytes_ofBeBytes]
    rw [encodeRedisEntry_eq he, htimeEq, hctEq]
    rw [List.take_left' (by simp [htime, hctLen])] at hraw
    exact hraw.symm
  · cases h

/-- Encoding and decoding are inverse to each other: every entry whose lengths fit is read back with
its write time, no value makes the reader index out of bounds, and the only values it accepts are
those the writer makes of what it returns. -/
theorem redisEntry_exact :
    (∀ (e : CachedPackument) (t : UInt64), (utf8 e.contentType).length ≤ 65535 →
      (∀ enc ∈ e.contentEncoding, 1 ≤ (utf8 enc).length ∧ (utf8 enc).length ≤ 255) →
      decodeRedisEntry (encodeRedisEntry e t) = .ok (some (e, t))) ∧
    (∀ raw, decodeRedisEntry raw ≠ .error .outOfBounds) ∧
    ∀ raw e t, decodeRedisEntry raw = .ok (some (e, t)) → encodeRedisEntry e t = raw := by
  refine ⟨?_, ?_, fun raw e t => encodeRedisEntry_of_decodeRedisEntry⟩
  · intro e t hct henc
    apply decodeRedisEntry_encodeRedisEntry
    cases hce : e.contentEncoding with
    | none => exact ⟨hct, by simp [hce, utf8], by simp [hce]⟩
    | some enc =>
      obtain ⟨hpos, hle⟩ := henc enc hce
      refine ⟨hct, by simpa [hce] using hle, ?_⟩
      rintro hempty
      obtain rfl := Option.some.inj (hce.symm.trans hempty)
      simp [utf8] at hpos
  · intro raw herror
    obtain ⟨o, hok⟩ := decodeRedisEntry_returns raw
    cases hok.symm.trans herror

theorem redisEntry_exact_gzip :
    decodeRedisEntry (encodeRedisEntry ⟨[31, 139], "application/json", some "gzip"⟩ 1234567890123) =
      .ok (some (⟨[31, 139], "application/json", some "gzip"⟩, 1234567890123)) :=
  redisEntry_exact.1 _ _ (by decide +kernel) (by
    rintro enc ⟨⟩
    decide +kernel)

end ArtifactKeeper.Npm
