import ArtifactKeeper.Bytes
import ArtifactKeeper.Sync.UploadSession
import ArtifactKeeper.Text

/-! The signature header of webhook deliveries, and its reader. -/

namespace ArtifactKeeper.Webhooks
open Bytes Text
open Sync (parseI64)

/-- HMAC-SHA256, of a key and a message. -/
abbrev Hmac := List UInt8 → List UInt8 → List UInt8

def hexChar (n : ℕ) : Char := Nat.digitChar (n % 16)

def hexEncode (bytes : List UInt8) : List Char :=
  bytes.flatMap fun b => [hexChar (b.toNat / 16), hexChar b.toNat]

/-- `i64::to_string`. -/
def displayI64 (n : ℤ) : List Char :=
  if n < 0 then '-' :: decimal (-n).toNat else decimal n.toNat

def computeV1Signature (hmac : Hmac) (secret : String) (unixSecs : ℤ) (body : List UInt8) :
    List Char :=
  hexEncode (hmac (utf8 secret) (utf8 (String.ofList (displayI64 unixSecs)) ++ utf8 "." ++ body))

def renderHeader (hmac : Hmac) (unixSecs : ℤ) (body : List UInt8) (secrets : List String) :
    List Char :=
  if secrets.isEmpty then []
  else
    let parts := ("t=".toList ++ displayI64 unixSecs) ::
      secrets.map fun secret => "v1=".toList ++ computeV1Signature hmac secret unixSecs body
    [','].intercalate parts

def parsePart (state : Option ℤ × List (List Char)) (part : List Char) :
    Option ℤ × List (List Char) :=
  let part := trim part
  match stripPrefix "t=".toList part with
  | some v => (parseI64 v, state.2)
  | none =>
    match stripPrefix "v1=".toList part with
    | some v => (state.1, state.2 ++ [v])
    | none => state

def parseHeader (header : List Char) : Option (ℤ × List (List Char)) :=
  let (ts, sigs) := (header.splitOn ',').foldl parsePart (none, [])
  ts.bind fun ts => if sigs.isEmpty then none else some (ts, sigs)

variable {hmac : Hmac} {unixSecs : ℤ} {body : List UInt8} {secrets : List String} {secret : String}

/-- A character that neither ends a part nor is trimmed. -/
def Plain (ch : Char) : Prop := ch ≠ ',' ∧ isWhitespace ch = false

theorem plain_of_all {text : List Char} {ch : Char}
    (hall : text.all (fun ch => ch != ',' && !isWhitespace ch) = true) (h : ch ∈ text) :
    Plain ch := by
  have hch := List.all_eq_true.mp hall ch h
  simpa [Plain] using hch

theorem plain_of_isAlphanum {ch : Char} (h : ch.isAlphanum = true) : Plain ch := by
  refine ⟨?_, isWhitespace_of_isAlphanum h⟩
  rintro rfl
  exact absurd h (by decide)

theorem plain_hexChar (n : ℕ) : Plain (hexChar n) := by
  have hall : ∀ k < 16, (Nat.digitChar k).isAlphanum = true := by decide
  exact plain_of_isAlphanum (hall _ (Nat.mod_lt n (by decide)))

theorem plain_of_mem_displayI64 {n : ℤ} {ch : Char} (h : ch ∈ displayI64 n) : Plain ch := by
  have hdigit : ∀ m, ch ∈ decimal m → Plain ch := fun m hm =>
    plain_of_isAlphanum (by simp [Char.isAlphanum, isDigit_of_mem_decimal hm])
  unfold displayI64 at h
  split at h
  · rcases List.mem_cons.mp h with rfl | h
    · exact ⟨by decide, by decide⟩
    · exact hdigit _ h
  · exact hdigit _ h

theorem plain_of_mem_signature {ch : Char} (h : ch ∈ computeV1Signature hmac secret unixSecs body) :
    Plain ch := by
  obtain ⟨b, -, hb⟩ := List.mem_flatMap.mp h
  rcases List.mem_cons.mp hb with rfl | hb
  · exact plain_hexChar _
  · rw [List.mem_singleton.mp hb]
    exact plain_hexChar _

theorem parseI64_displayI64 {n : ℤ} (hlow : -2 ^ 63 ≤ n) (hhigh : n < 2 ^ 63) :
    parseI64 (displayI64 n) = some n := by
  have hdigits : ∀ m, ((decimal m).isEmpty || !(decimal m).all Char.isDigit) = false := by
    intro m
    have hall : (decimal m).all Char.isDigit = true :=
      List.all_eq_true.mpr fun c hc => isDigit_of_mem_decimal hc
    rw [hall]
    simp [decimal_ne_nil]
  have hvalue : ∀ m, Nat.ofDigitChars 10 (decimal m) 0 = m := fun m =>
    Nat.ofDigitChars_ten_toDigits
  unfold displayI64
  split
  · next hneg =>
    have hback : -1 * ((-n).toNat : ℤ) = n := by omega
    rw [parseI64]
    dsimp only
    rw [hdigits, hvalue, hback, if_neg Bool.false_ne_true, if_pos ⟨hlow, hhigh⟩]
  · next hpos =>
    have hback : 1 * (n.toNat : ℤ) = n := by omega
    have hdigit : ∀ ch ∈ decimal n.toNat, ch.isDigit = true := fun ch => isDigit_of_mem_decimal
    unfold parseI64
    dsimp only
    split
    · next rest heq => exact absurd (hdigit '-' (heq ▸ List.mem_cons_self)) (by decide)
    · next rest heq => exact absurd (hdigit '+' (heq ▸ List.mem_cons_self)) (by decide)
    · rw [hdigits, hvalue, hback, if_neg Bool.false_ne_true, if_pos ⟨hlow, hhigh⟩]

theorem trim_of_plain {part : List Char} (h : ∀ ch ∈ part, Plain ch) : trim part = part :=
  trim_of_not_whitespace fun ch hch => (h ch hch).2

theorem parsePart_time {state : Option ℤ × List (List Char)} (hlow : -2 ^ 63 ≤ unixSecs)
    (hhigh : unixSecs < 2 ^ 63) :
    parsePart state ("t=".toList ++ displayI64 unixSecs) = (some unixSecs, state.2) := by
  have hplain : ∀ ch ∈ "t=".toList ++ displayI64 unixSecs, Plain ch := by
    intro ch hch
    rcases List.mem_append.mp hch with hch | hch
    · exact plain_of_all (by decide) hch
    · exact plain_of_mem_displayI64 hch
  have hstrip : stripPrefix "t=".toList ("t=".toList ++ displayI64 unixSecs) =
      some (displayI64 unixSecs) := by
    rw [stripPrefix, if_pos (List.isPrefixOf_iff_prefix.mpr (List.prefix_append _ _)),
      List.drop_left]
  simp only [parsePart, trim_of_plain hplain, hstrip, parseI64_displayI64 hlow hhigh]

theorem plain_of_mem_part {ch : Char}
    (h : ch ∈ "v1=".toList ++ computeV1Signature hmac secret unixSecs body) : Plain ch := by
  rcases List.mem_append.mp h with h | h
  · exact plain_of_all (by decide) h
  · exact plain_of_mem_signature h

theorem parsePart_signature (state : Option ℤ × List (List Char)) :
    parsePart state ("v1=".toList ++ computeV1Signature hmac secret unixSecs body) =
      (state.1, state.2 ++ [computeV1Signature hmac secret unixSecs body]) := by
  have hnot : stripPrefix "t=".toList
      ("v1=".toList ++ computeV1Signature hmac secret unixSecs body) = none := rfl
  have hstrip : stripPrefix "v1=".toList
      ("v1=".toList ++ computeV1Signature hmac secret unixSecs body) =
        some (computeV1Signature hmac secret unixSecs body) := by
    rw [stripPrefix, if_pos (List.isPrefixOf_iff_prefix.mpr (List.prefix_append _ _)),
      List.drop_left]
  simp only [parsePart, trim_of_plain fun ch hch => plain_of_mem_part hch, hnot, hstrip]

theorem foldl_parsePart (state : Option ℤ × List (List Char)) :
    (secrets.map fun secret => "v1=".toList ++ computeV1Signature hmac secret unixSecs body).foldl
        parsePart state =
      (state.1, state.2 ++ secrets.map (computeV1Signature hmac · unixSecs body)) := by
  induction secrets generalizing state with
  | nil => rw [List.map_nil, List.map_nil, List.append_nil, List.foldl_nil]
  | cons secret rest ih =>
    rw [List.map_cons, List.foldl_cons, parsePart_signature, ih, List.map_cons, List.append_assoc,
      List.singleton_append]

/-- The reader gets the time and all signatures of a header, in their order. -/
theorem parseHeader_renderHeader (hlow : -2 ^ 63 ≤ unixSecs) (hhigh : unixSecs < 2 ^ 63)
    (hne : secrets ≠ []) : parseHeader (renderHeader hmac unixSecs body secrets) =
      some (unixSecs, secrets.map (computeV1Signature hmac · unixSecs body)) := by
  have hempty : secrets.isEmpty = false := by simpa using hne
  have hcomma : ∀ part ∈ ("t=".toList ++ displayI64 unixSecs) ::
      secrets.map (fun secret => "v1=".toList ++ computeV1Signature hmac secret unixSecs body),
        ',' ∉ part := by
    intro part hpart hmem
    rcases List.mem_cons.mp hpart with rfl | hpart
    · rcases List.mem_append.mp hmem with hmem | hmem
      · exact absurd hmem (by decide)
      · exact (plain_of_mem_displayI64 hmem).1 rfl
    · obtain ⟨secret, -, rfl⟩ := List.mem_map.mp hpart
      exact (plain_of_mem_part hmem).1 rfl
  rw [parseHeader, renderHeader, hempty, if_neg Bool.false_ne_true]
  dsimp only
  rw [List.splitOn_intercalate ',' hcomma (List.cons_ne_nil _ _), List.foldl_cons,
    parsePart_time hlow hhigh, foldl_parsePart]
  simp [hempty]

/-- What a receiver with one secret checks. -/
def accepts (hmac : Hmac) (secret : String) (body : List UInt8) (header : List Char) : Bool :=
  (parseHeader header).any fun (unixSecs, sigs) =>
    sigs.contains (computeV1Signature hmac secret unixSecs body)

theorem accepts_of_mem (h : secret ∈ secrets) (hlow : -2 ^ 63 ≤ unixSecs)
    (hhigh : unixSecs < 2 ^ 63) :
    accepts hmac secret body (renderHeader hmac unixSecs body secrets) = true := by
  rw [accepts, parseHeader_renderHeader hlow hhigh (List.ne_nil_of_mem h), Option.any_some]
  exact List.elem_eq_true_of_mem (List.mem_map_of_mem h)

end ArtifactKeeper.Webhooks
