import ArtifactKeeper.Bytes
import ArtifactKeeper.PercentEncoding
import ArtifactKeeper.Segments
import ArtifactKeeper.Text
import Mathlib.Data.List.Infix
import Mathlib.Tactic.FinCases

/-! The check of an artifact path, and what it keeps out of the path and of its percent-decoded
bytes. -/

namespace ArtifactKeeper.Uploads
open Bytes PercentEncoding

/-- The variants of `UploadError` that the check returns. -/
inductive PathError where
  | invalidChunk (message : String)
  | pathTooLong (len max : ℕ)
  deriving DecidableEq, Repr

def maxArtifactPathLen : ℕ := 2048

/-- `toLowercase` is `str::to_lowercase`. -/
def validateArtifactPath (toLowercase : List Char → List Char) (path : List Char) :
    Except PathError Unit :=
  let len := (utf8 (String.ofList path)).length
  let lower := toLowercase path
  if path.isEmpty then .error (.invalidChunk "artifact_path cannot be empty")
  else if maxArtifactPathLen < len then .error (.pathTooLong len maxArtifactPathLen)
  else if '\x00' ∈ path then .error (.invalidChunk "artifact_path contains null bytes")
  else if path.head? = some '/' ∨ path.head? = some '\\' then
    .error (.invalidChunk "artifact_path must be relative")
  else if (path.splitOn '/').any fun component =>
      let component := Text.trim component
      component == ['.', '.'] || component == ['.'] ||
        component.isEmpty && decide (['/', '/'] <:+: path) then
    .error (.invalidChunk "artifact_path contains path traversal")
  else if "%2e%2e".toList <:+: lower ∨ "%2f".toList <:+: lower ∨ "%5c".toList <:+: lower then
    .error (.invalidChunk "artifact_path contains encoded traversal characters")
  else if '\\' ∈ path then .error (.invalidChunk "artifact_path must use forward slashes")
  else .ok ()

/-- No segment is `.` or `..`, the path is relative, and there is no backslash and no NUL. -/
structure Safe (path : List UInt8) : Prop where
  no_dots : ∀ seg ∈ path.splitOn 47, seg ≠ [46] ∧ seg ≠ [46, 46]
  relative : path.head? ≠ some 47
  no_backslash : 92 ∉ path
  no_nul : 0 ∉ path

/-- The spellings of `.` and `..` with one dot encoded. -/
def hiddenDots : List (List Char) :=
  ["%2e".toList, "%2E".toList, ".%2e".toList, ".%2E".toList, "%2e.".toList, "%2E.".toList]

/-- `str::to_lowercase` lowers ASCII characters where they stand. -/
def LowersAsciiInside (toLowercase : List Char → List Char) : Prop :=
  ∀ pre e post : List Char, (∀ c ∈ e, c.toNat < 128) →
    e.map Char.toLower <:+: toLowercase (pre ++ e ++ post)

section Escapes

theorem percentDecode_eq_dot_cons {s t : List UInt8} :
    percentDecode s = 46 :: t ↔ ∃ s', percentDecode s' = t ∧
      (s = 46 :: s' ∨ s = 37 :: 50 :: 69 :: s' ∨ s = 37 :: 50 :: 101 :: s') := by
  constructor
  · intro h
    rcases percentDecode_eq_cons h with ⟨s', rfl, ht⟩ | ⟨a, c, hi, lo, s', hhi, hlo, hdot, rfl, ht⟩
    · exact ⟨s', ht, .inl rfl⟩
    · obtain ⟨ha, hc⟩ := @escape_digits a c hi lo 2 14 (by decide) (by decide) hhi hlo hdot
      rw [hexDigit_eq_iff] at ha hc
      have ha' : a = 50 := by grind
      rcases (show c = 69 ∨ c = 101 by grind) with hc' | hc'
      · exact ⟨s', ht, .inr (.inl (by rw [ha', hc']))⟩
      · exact ⟨s', ht, .inr (.inr (by rw [ha', hc']))⟩
  · rintro ⟨s', rfl, rfl | rfl | rfl⟩
    · exact percentDecode_cons fun h => absurd h (by decide)
    · exact @percentDecode_escape 50 69 2 14 rfl rfl s'
    · exact @percentDecode_escape 50 101 2 14 rfl rfl s'

/-- The spellings of `.` and `..`. -/
theorem percentDecode_dots {s : List UInt8} :
    percentDecode s = [46] ∨ percentDecode s = [46, 46] ↔
      s ∈ ([[46], [37, 50, 69], [37, 50, 101], [46, 46], [46, 37, 50, 69], [46, 37, 50, 101],
        [37, 50, 69, 46], [37, 50, 101, 46], [37, 50, 69, 37, 50, 69], [37, 50, 69, 37, 50, 101],
        [37, 50, 101, 37, 50, 69], [37, 50, 101, 37, 50, 101]] : List (List UInt8)) := by
  simp only [percentDecode_eq_dot_cons, percentDecode_eq_nil, List.mem_cons, List.not_mem_nil,
    or_false]
  constructor
  · rintro (⟨s', rfl, rfl | rfl | rfl⟩ | ⟨s', ⟨s'', rfl, rfl | rfl | rfl⟩, rfl | rfl | rfl⟩) <;>
      simp
  · rintro (rfl | rfl | rfl | rfl | rfl | rfl | rfl | rfl | rfl | rfl | rfl | rfl) <;> simp

end Escapes

section Check
variable {toLowercase : List Char → List Char} {path : List Char}

/-- What an accepted path has got past. -/
structure Accepted (toLowercase : List Char → List Char) (path : List Char) : Prop where
  no_nul : '\x00' ∉ path
  relative : path.head? ≠ some '/'
  no_dots : ∀ seg ∈ path.splitOn '/', Text.trim seg ≠ ['.', '.'] ∧ Text.trim seg ≠ ['.']
  no_escapes : ∀ e ∈ ["%2e%2e".toList, "%2f".toList, "%5c".toList], ¬ e <:+: toLowercase path
  no_backslash : '\\' ∉ path

theorem accepted_of_ok (h : validateArtifactPath toLowercase path = .ok ()) :
    Accepted toLowercase path := by
  unfold validateArtifactPath at h
  simp only at h
  split_ifs at h with hempty hlen hnul hroot hdots hescapes hback
  rw [not_or] at hroot
  simp only [List.any_eq_true, Bool.or_eq_true, beq_iff_eq, not_exists, not_and, not_or] at hdots
  refine ⟨hnul, hroot.1, fun seg hseg => (hdots seg hseg).1, ?_, hback⟩
  obtain ⟨hdots', hslash, hback'⟩ := (not_or.trans (and_congr_right' not_or)).mp hescapes
  intro e he
  rcases List.mem_cons.mp he with rfl | he
  · exact hdots'
  · rcases List.mem_cons.mp he with rfl | he
    · exact hslash
    · rw [List.mem_singleton.mp he]
      exact hback'

/-- No escape of the three stands in the path, in either case. -/
theorem Accepted.not_infix (haccepted : Accepted toLowercase path)
    (hlower : LowersAsciiInside toLowercase) {e : List Char} (hascii : ∀ c ∈ e, c.toNat < 128)
    (he : e.map Char.toLower ∈ ["%2e%2e".toList, "%2f".toList, "%5c".toList]) :
    ¬ e <:+: path := by
  rintro ⟨pre, post, rfl⟩
  exact haccepted.no_escapes _ he (hlower pre e post hascii)

theorem splitOn_utf8 (path : List Char) :
    (utf8 (String.ofList path)).splitOn 47 =
      (path.splitOn '/').map fun seg => utf8 (String.ofList seg) := by
  simp only [utf8_ofList]
  apply Segments.splitOn_flatMap (show String.utf8EncodeChar '/' = [47] from rfl)
  intro c hc hmem
  by_cases hlt : c.toNat < 128
  · rw [utf8EncodeChar_of_lt hlt, List.mem_singleton] at hmem
    have hnat := congrArg UInt8.toNat hmem
    rw [UInt8.toNat_ofNat', Nat.mod_eq_of_lt (by omega)] at hnat
    apply hc
    rw [← Char.ofNat_toNat c, ← hnat]
    rfl
  · exact absurd (le_of_mem_utf8EncodeChar (Nat.le_of_not_lt hlt) hmem) (by decide)

theorem head_utf8 (hhead : path.head? ≠ some '/') :
    (utf8 (String.ofList path)).head? ≠ some 47 := by
  intro h
  have hpre : utf8 (String.ofList ['/']) <+: utf8 (String.ofList path) := by
    obtain ⟨rest, hrest⟩ : ∃ rest, utf8 (String.ofList path) = 47 :: rest := by
      cases hbytes : utf8 (String.ofList path) with
      | nil => simp [hbytes] at h
      | cons b rest =>
        rw [hbytes, List.head?_cons, Option.some.injEq] at h
        exact ⟨rest, by rw [h]⟩
    rw [hrest]
    exact ⟨rest, rfl⟩
  obtain ⟨rest, rfl⟩ := ascii_isPrefix (ascii_of_all rfl) hpre
  exact hhead rfl

theorem Accepted.safe (h : Accepted toLowercase path) : Safe (utf8 (String.ofList path)) where
  no_dots := by
    intro seg hseg
    rw [splitOn_utf8, List.mem_map] at hseg
    obtain ⟨seg, hseg, rfl⟩ := hseg
    constructor
    · intro hdot
      rw [@utf8_injective seg ['.'] hdot] at hseg
      exact (h.no_dots _ hseg).2 (by decide)
    · intro hdots
      rw [@utf8_injective seg ['.', '.'] hdots] at hseg
      exact (h.no_dots _ hseg).1 (by decide)
  relative := head_utf8 h.relative
  no_backslash := fun hmem => h.no_backslash (mem_of_mem_utf8 (by decide) hmem)
  no_nul := fun hmem => h.no_nul (mem_of_mem_utf8 (by decide) hmem)

/-- An accepted path encodes no slash and no backslash. -/
theorem Accepted.not_separator_escape (h : Accepted toLowercase path)
    (hlower : LowersAsciiInside toLowercase) {a c hi lo : UInt8} (hhi : hexDigit a = some hi)
    (hlo : hexDigit c = some lo) (hb : hi * 16 + lo = 47 ∨ hi * 16 + lo = 92) :
    ¬ [37, a, c] <:+: utf8 (String.ofList path) := by
  intro hin
  have hnot : ∀ e ∈ ["%2f".toList, "%2F".toList, "%5c".toList, "%5C".toList],
      [37, a, c] ≠ utf8 (String.ofList e) := by
    intro e he heq
    have hascii : ∀ c ∈ e, c.toNat < 128 := ascii_of_all (by fin_cases he <;> rfl)
    rw [heq, ascii_infix_iff hascii] at hin
    exact h.not_infix hlower hascii (by fin_cases he <;> decide) hin
  rcases hb with hb | hb
  · obtain ⟨ha, hc⟩ := @escape_digits a c hi lo 2 15 (by decide) (by decide) hhi hlo hb
    rw [hexDigit_eq_iff] at ha hc
    have ha' : a = 50 := by grind
    rcases (show c = 102 ∨ c = 70 by grind) with hc' | hc'
    · exact hnot "%2f".toList (by simp) (by rw [ha', hc']; decide)
    · exact hnot "%2F".toList (by simp) (by rw [ha', hc']; decide)
  · obtain ⟨ha, hc⟩ := @escape_digits a c hi lo 5 12 (by decide) (by decide) hhi hlo hb
    rw [hexDigit_eq_iff] at ha hc
    have ha' : a = 53 := by grind
    rcases (show c = 99 ∨ c = 67 by grind) with hc' | hc'
    · exact hnot "%5c".toList (by simp) (by rw [ha', hc']; decide)
    · exact hnot "%5C".toList (by simp) (by rw [ha', hc']; decide)

/-- So these are in the decoded bytes only where they are in the path. -/
theorem Accepted.mem_decoded (h : Accepted toLowercase path)
    (hlower : LowersAsciiInside toLowercase) {seg : List Char} (hseg : seg <:+: path) {b : UInt8}
    (hb : b = 47 ∨ b = 92) (hmem : b ∈ percentDecode (utf8 (String.ofList seg))) :
    b ∈ utf8 (String.ofList seg) := by
  rcases mem_percentDecode hmem with hmem | ⟨a, c, hi, lo, hhi, hlo, rfl, hin⟩
  · exact hmem
  · refine absurd (hin.trans ?_) (h.not_separator_escape hlower hhi hlo hb)
    obtain ⟨pre, post, rfl⟩ := hseg
    exact ⟨utf8 (String.ofList pre), utf8 (String.ofList post),
      by simp only [utf8_ofList, List.flatMap_append]⟩

theorem Accepted.splitOn_decoded (h : Accepted toLowercase path)
    (hlower : LowersAsciiInside toLowercase) :
    (percentDecode (utf8 (String.ofList path))).splitOn 47 =
      (path.splitOn '/').map fun seg => percentDecode (utf8 (String.ofList seg)) := by
  have hslash : ∀ seg ∈ (utf8 (String.ofList path)).splitOn 47, 47 ∉ percentDecode seg := by
    intro seg hseg hmem
    rw [splitOn_utf8, List.mem_map] at hseg
    obtain ⟨seg, hseg, rfl⟩ := hseg
    have hin : seg <:+: path := Segments.infix_of_mem_splitOn hseg
    have h47 := h.mem_decoded hlower hin (.inl rfl) hmem
    exact Segments.sep_not_mem_of_mem_splitOn hseg (mem_of_mem_utf8 (by decide) h47)
  have happend : ∀ before after : List UInt8, percentDecode (before ++ 47 :: after) =
      percentDecode before ++ 47 :: percentDecode after := by
    intro before after
    rw [percentDecode_append (by simp [show hexDigit 47 = none from rfl]),
      percentDecode_cons fun h => absurd h (by decide)]
  rw [Segments.splitOn_of_append happend hslash, splitOn_utf8, List.map_map]
  rfl

/-- Of the spellings of `.` and `..` the check leaves the ones with one dot encoded. -/
theorem Accepted.decodes_dots_iff (h : Accepted toLowercase path)
    (hlower : LowersAsciiInside toLowercase) {seg : List Char} (hseg : seg ∈ path.splitOn '/') :
    percentDecode (utf8 (String.ofList seg)) = [46] ∨
      percentDecode (utf8 (String.ofList seg)) = [46, 46] ↔ seg ∈ hiddenDots := by
  have hin : seg <:+: path := Segments.infix_of_mem_splitOn hseg
  rw [percentDecode_dots]
  constructor
  · intro hmem
    have hspelled : ∀ e : List Char, utf8 (String.ofList seg) = utf8 (String.ofList e) →
        seg = e := fun e he => utf8_injective he
    have hencoded : ∀ e ∈ ["%2E%2E".toList, "%2E%2e".toList, "%2e%2E".toList, "%2e%2e".toList],
        seg ≠ e := by
      intro e he heq
      rw [heq] at hin
      refine h.not_infix hlower ?_ ?_ hin
      · exact ascii_of_all (by fin_cases he <;> rfl)
      · fin_cases he <;> decide
    simp only [List.mem_cons, List.not_mem_nil, or_false] at hmem
    rcases hmem with h' | h' | h' | h' | h' | h' | h' | h' | h' | h' | h' | h'
    · exact absurd (hspelled ['.'] h') fun heq => (h.no_dots seg hseg).2 (by rw [heq]; decide)
    · exact hspelled "%2E".toList h' ▸ by decide
    · exact hspelled "%2e".toList h' ▸ by decide
    · exact absurd (hspelled ['.', '.'] h') fun heq => (h.no_dots seg hseg).1 (by rw [heq]; decide)
    · exact hspelled ".%2E".toList h' ▸ by decide
    · exact hspelled ".%2e".toList h' ▸ by decide
    · exact hspelled "%2E.".toList h' ▸ by decide
    · exact hspelled "%2e.".toList h' ▸ by decide
    · exact absurd (hspelled "%2E%2E".toList h') (hencoded _ (by simp))
    · exact absurd (hspelled "%2E%2e".toList h') (hencoded _ (by simp))
    · exact absurd (hspelled "%2e%2E".toList h') (hencoded _ (by simp))
    · exact absurd (hspelled "%2e%2e".toList h') (hencoded _ (by simp))
  · intro hmem
    fin_cases hmem <;> decide

theorem Accepted.nul_decoded_iff (h : Accepted toLowercase path) :
    0 ∈ percentDecode (utf8 (String.ofList path)) ↔ "%00".toList <:+: path := by
  constructor
  · intro hmem
    rcases mem_percentDecode hmem with hmem | ⟨a, c, hi, lo, hhi, hlo, hb, hin⟩
    · exact absurd (mem_of_mem_utf8 (by decide) hmem) h.no_nul
    · obtain ⟨ha, hc⟩ := @escape_digits a c hi lo 0 0 (by decide) (by decide) hhi hlo hb
      rw [hexDigit_eq_iff] at ha hc
      have ha' : a = 48 := by grind
      have hc' : c = 48 := by grind
      rw [ha', hc'] at hin
      exact (ascii_infix_iff (ascii_of_all rfl)).mp hin
  · intro hin
    exact @mem_percentDecode_of_escape 48 48 0 0 _ rfl rfl
      ((ascii_infix_iff (ascii_of_all rfl)).mpr hin)

/-- The decoded bytes of an accepted path are safe, if no segment hides a dot and no NUL is
encoded. -/
theorem Accepted.safe_decoded_iff (h : Accepted toLowercase path)
    (hlower : LowersAsciiInside toLowercase) :
    Safe (percentDecode (utf8 (String.ofList path))) ↔
      (∀ seg ∈ path.splitOn '/', seg ∉ hiddenDots) ∧ ¬ "%00".toList <:+: path := by
  have hdots : (∀ seg ∈ (percentDecode (utf8 (String.ofList path))).splitOn 47,
      seg ≠ [46] ∧ seg ≠ [46, 46]) ↔ ∀ seg ∈ path.splitOn '/', seg ∉ hiddenDots := by
    rw [h.splitOn_decoded hlower, List.forall_mem_map]
    refine forall₂_congr fun seg hseg => ?_
    rw [← h.decodes_dots_iff hlower hseg, not_or]
  rw [← hdots, ← h.nul_decoded_iff]
  constructor
  · exact fun hsafe => ⟨hsafe.no_dots, hsafe.no_nul⟩
  · rintro ⟨hno, hnul⟩
    refine ⟨hno, fun hhead => ?_, fun hmem => ?_, hnul⟩
    · obtain ⟨t, ht⟩ := List.head?_eq_some_iff.mp hhead
      rcases percentDecode_eq_cons ht with ⟨s', hs, -⟩ | ⟨a, c, hi, lo, s', hhi, hlo, hb, hs, -⟩
      · exact h.safe.relative (by rw [hs]; rfl)
      · refine h.not_separator_escape hlower hhi hlo (.inl hb) ⟨[], s', ?_⟩
        rw [hs]
        rfl
    · have hback := h.mem_decoded hlower List.infix_rfl (.inr rfl) hmem
      exact h.no_backslash (mem_of_mem_utf8 (by decide) hback)

end Check

/-- An accepted path and what it decodes to are safe exactly if no segment hides a dot and no NUL is
encoded. -/
theorem artifact_path_safe_iff {toLowercase : List Char → List Char} {path : List Char}
    (hlower : LowersAsciiInside toLowercase)
    (hok : validateArtifactPath toLowercase path = .ok ()) :
    Safe (utf8 (String.ofList path)) ∧ Safe (percentDecode (utf8 (String.ofList path))) ↔
      (∀ seg ∈ path.splitOn '/', seg ∉ hiddenDots) ∧ ¬ "%00".toList <:+: path := by
  have haccepted := accepted_of_ok hok
  rw [haccepted.safe_decoded_iff hlower]
  exact and_iff_right haccepted.safe

theorem lowersAsciiInside_map : LowersAsciiInside (List.map Char.toLower) := fun pre e post _ =>
  ⟨pre.map Char.toLower, post.map Char.toLower, by simp only [List.map_append]⟩

theorem artifact_path_safe_npmrc :
    Safe (utf8 (String.ofList "org/%6eame/.npmrc".toList)) ∧
      Safe (percentDecode (utf8 (String.ofList "org/%6eame/.npmrc".toList))) :=
  (artifact_path_safe_iff lowersAsciiInside_map (by decide +kernel)).mpr (by decide +kernel)

/-- Half-encoded dots are accepted, and so is an encoded NUL. -/
theorem half_encoded_dots_accepted :
    validateArtifactPath (List.map Char.toLower) "a/.%2e/b%00".toList = .ok () ∧
      ¬ Safe (percentDecode (utf8 (String.ofList "a/.%2e/b%00".toList))) := by
  refine ⟨by decide +kernel, fun hsafe => ?_⟩
  exact (hsafe.no_dots [46, 46] (by decide +kernel)).2 rfl

end ArtifactKeeper.Uploads
