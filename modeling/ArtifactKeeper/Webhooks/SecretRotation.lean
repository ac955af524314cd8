import ArtifactKeeper.Machine
import ArtifactKeeper.Webhooks.Signing
import Mathlib.Algebra.Order.Ring.Int

/-! The signing secrets of a webhook at rest, and their rotation with its overlap. -/

namespace ArtifactKeeper.Webhooks
open Bytes Machine Text

/-! ### Secrets at rest -/

/-- HMAC-SHA256, and AES-256-GCM with its key and nonce. -/
structure Crypto where
  hmac : Hmac
  encrypt : List UInt8 → List UInt8 → List UInt8 → List UInt8
  decrypt : List UInt8 → List UInt8 → List UInt8 → Option (List UInt8)

abbrev Nonce := { bytes : List UInt8 // bytes.length = 12 }

/-- What `load_key` and `CredentialEncryption::new` accept as a key. -/
abbrev SecretKey := { bytes : List UInt8 // bytes.length = 32 }

inductive EncryptionError where
  | ciphertextTooShort
  | decryptionFailed
  deriving DecidableEq, Repr

/-- The `legacy_key` is set for what was encrypted under a passphrase. -/
structure CredentialEncryption where
  key : SecretKey
  legacyKey : Option SecretKey

variable (c : Crypto)

def CredentialEncryption.encrypt (e : CredentialEncryption) (nonce : Nonce)
    (plaintext : List UInt8) : List UInt8 :=
  nonce.1 ++ c.encrypt e.key.1 nonce.1 plaintext

def CredentialEncryption.decrypt (e : CredentialEncryption) (data : List UInt8) :
    Except EncryptionError (List UInt8) :=
  if data.length < 28 then .error .ciphertextTooShort
  else
    let nonce := data.take 12
    let ciphertext := data.drop 12
    match c.decrypt e.key.1 nonce ciphertext with
    | some plaintext => .ok plaintext
    | none =>
      match e.legacyKey.bind fun legacy => c.decrypt legacy.1 nonce ciphertext with
      | some plaintext => .ok plaintext
      | none => .error .decryptionFailed

inductive WebhookSecretError where
  | keyMissing
  | crypto (e : EncryptionError)
  | notUtf8
  deriving DecidableEq, Repr

def encryptSecret (key : Option SecretKey) (nonce : Nonce) (plaintext : String) :
    Except WebhookSecretError (List UInt8) :=
  match key with
  | none => .error .keyMissing
  | some key => .ok (CredentialEncryption.encrypt c ⟨key, none⟩ nonce (utf8 plaintext))

def decryptSecret (key : Option SecretKey) (ciphertext : List UInt8) :
    Except WebhookSecretError String :=
  match key with
  | none => .error .keyMissing
  | some key =>
    match CredentialEncryption.decrypt c ⟨key, none⟩ ciphertext with
    | .error e => .error (.crypto e)
    | .ok plaintext =>
      match ofUtf8 plaintext with
      | none => .error .notUtf8
      | some secret => .ok secret

def secretPrefix : List Char := "whsec_".toList

def digestForDisplay (secret : String) : String :=
  let chars := secret.toList
  if chars.length < 8 then secret
  else
    let last4 := chars.drop (chars.length - 4)
    match stripPrefix secretPrefix chars with
    | some rest =>
      if rest.length ≤ 4 then secret
      else String.ofList (secretPrefix ++ "...".toList ++ last4)
    | none => String.ofList (chars.take 4 ++ "...".toList ++ last4)

structure PreparedSecret where
  rawSecret : Option String
  encrypted : Option (List UInt8)
  digest : Option String

def signingNotEnabled : String :=
  "webhook secret signing is not enabled on this deployment (AK_WEBHOOK_SECRET_KEY is unset); " ++
    "create the webhook without a secret, or ask an administrator to configure the signing key"

def prepareSecretForStorage (key : Option SecretKey) (nonce : Nonce) (generated : String)
    (suppliedSecret : Option String) : Except String PreparedSecret :=
  match suppliedSecret.filter (fun s => !(trim s.toList).isEmpty), key with
  | some _, none => .error signingNotEnabled
  | none, none => .ok ⟨none, none, none⟩
  | supplied, some key =>
    let rawSecret := supplied.getD generated
    match encryptSecret c (some key) nonce rawSecret with
    | .error _ => .error "webhook secret encryption failed"
    | .ok encrypted => .ok ⟨some rawSecret, some encrypted, some (digestForDisplay rawSecret)⟩

/-! ### The rotation -/

/-- The columns of `webhooks` that the secrets are in. -/
structure SecretColumns where
  secretEncrypted : Option (List UInt8)
  secretDigest : Option String
  secretPreviousEncrypted : Option (List UInt8)
  secretPreviousExpiresAt : Option ℤ
  secretRotationStartedAt : Option ℤ
  deriving DecidableEq, Repr

/-- The secrets that sign, the current one first, and how many did not decrypt. -/
def decideActiveSecrets (key : Option SecretKey) (columns : SecretColumns) (now : ℤ) :
    List String × ℕ :=
  let load (bytes : Option (List UInt8)) : List String × ℕ :=
    match bytes.filter (!·.isEmpty) with
    | none => ([], 0)
    | some bytes =>
      match decryptSecret c key bytes with
      | .ok secret => ([secret], 0)
      | .error _ => ([], 1)
  let current := load columns.secretEncrypted
  let previous := load (if columns.secretPreviousExpiresAt.any (now < ·) then
    columns.secretPreviousEncrypted else none)
  (current.1 ++ previous.1, current.2 + previous.2)

/-- 24 hours. -/
def secretRotationOverlap : ℤ := 86400000

/-- The update of `rotate_webhook_secret`, which is refused while an overlap lasts. -/
def rotateUpdate (columns : SecretColumns) (start requestedAt : ℤ) (encrypted : List UInt8)
    (digest : String) : Option SecretColumns :=
  if columns.secretPreviousExpiresAt.all (· < start) then
    some {
      secretEncrypted := some encrypted
      secretDigest := some digest
      secretPreviousEncrypted := columns.secretEncrypted
      secretPreviousExpiresAt := columns.secretEncrypted.map fun _ =>
        requestedAt + secretRotationOverlap
      secretRotationStartedAt := some requestedAt }
  else none

def cleanupExpiredPreviousSecrets (columns : SecretColumns) (start : ℤ) : SecretColumns :=
  if columns.secretPreviousEncrypted.isSome && columns.secretPreviousExpiresAt.any (· ≤ start) then
    { columns with secretPreviousEncrypted := none, secretPreviousExpiresAt := none }
  else columns

/-- `issued` has every secret that was put in place, with the end of its overlap once it has been
replaced. -/
structure Vault where
  columns : SecretColumns
  issued : List (String × Option ℤ)
  now : ℤ
  deriving DecidableEq, Repr

/-- A request to rotate, with its new secret. -/
inductive Rotation where
  | idle
  | rotating (secret : String) (encrypted : List UInt8) (requestedAt : ℤ)
  deriving DecidableEq, Repr

inductive RotationLabel where
  | request (secret : String) (nonce : Nonce)
  | update (start : ℤ)
  /-- The statement fails, or the process dies. -/
  | abort
  | cleanup (start : ℤ)
  | elapse (d : ℕ)

/-- A statement may execute though its answer is lost; the answer changes nothing here. -/
def rotationStep (key : Option SecretKey) (s : Vault) :
    Rotation → RotationLabel → Option (Vault × Rotation)
  | .idle, .request secret nonce =>
    match encryptSecret c key nonce secret with
    | .error _ => none
    | .ok encrypted => some (s, .rotating secret encrypted s.now)
  | .rotating secret encrypted requestedAt, .update start =>
    if start ≤ s.now then
      match rotateUpdate s.columns start requestedAt encrypted (digestForDisplay secret) with
      | none => some (s, .idle)
      | some columns =>
        let replaced := s.issued.map fun (old, ends) =>
          (old, ends <|> some (requestedAt + secretRotationOverlap))
        some ({ s with columns := columns, issued := replaced ++ [(secret, none)] }, .idle)
    else none
  | .rotating .., .abort => some (s, .idle)
  | l, .cleanup start =>
    if start ≤ s.now then
      some ({ s with columns := cleanupExpiredPreviousSecrets s.columns start }, l)
    else none
  | l, .elapse d => some ({ s with now := s.now + d }, l)
  | _, _ => none

def rotationProtocol (key : Option SecretKey) : Protocol Vault Rotation RotationLabel where
  step _ s l a := rotationStep c key s l a

/-- A webhook as it was created. -/
def PreparedSecret.created (prepared : PreparedSecret) (now : ℤ) : World Vault Rotation where
  shared :=
    ⟨⟨prepared.encrypted, prepared.digest, none, none, none⟩,
      prepared.rawSecret.toList.map fun secret => (secret, none), now⟩
  procs _ := .idle

/-! ### Every secret signs until its overlap ends -/

/-- What AES-256-GCM promises: what it has encrypted it decrypts, and the tag has 16 bytes. -/
structure Crypto.Lawful (c : Crypto) : Prop where
  decrypt_encrypt : ∀ (key : SecretKey) (nonce : Nonce) plaintext,
    c.decrypt key.1 nonce.1 (c.encrypt key.1 nonce.1 plaintext) = some plaintext
  tag : ∀ (key : SecretKey) (nonce : Nonce) plaintext,
    16 ≤ (c.encrypt key.1 nonce.1 plaintext).length

variable {c} {key : Option SecretKey} {nonce : Nonce} {secret : String} {s s' : Vault}
  {l l' : Rotation} {a : RotationLabel} {columns : SecretColumns} {ct : List UInt8} {p : ℕ}
  {now later : ℤ}

theorem decryptSecret_encryptSecret (hc : c.Lawful)
    (h : encryptSecret c key nonce secret = .ok ct) : decryptSecret c key ct = .ok secret := by
  cases key with
  | none => cases h
  | some key =>
    cases h
    have htag := hc.tag key nonce (utf8 secret)
    have hnonce := nonce.2
    have hlong : ¬ (nonce.1 ++ c.encrypt key.1 nonce.1 (utf8 secret)).length < 28 := by
      rw [List.length_append]
      omega
    have htake : (nonce.1 ++ c.encrypt key.1 nonce.1 (utf8 secret)).take 12 = nonce.1 :=
      List.take_left' hnonce
    have hdrop : (nonce.1 ++ c.encrypt key.1 nonce.1 (utf8 secret)).drop 12 =
        c.encrypt key.1 nonce.1 (utf8 secret) := List.drop_left' hnonce
    simp only [decryptSecret, CredentialEncryption.encrypt, CredentialEncryption.decrypt, hlong,
      if_false, htake, hdrop, hc.decrypt_encrypt, ofUtf8_utf8]

/-- What decrypts is not empty. -/
theorem filter_of_decryptSecret (h : decryptSecret c key ct = .ok secret) :
    (some ct).filter (!·.isEmpty) = some ct := by
  cases ct with
  | cons => rfl
  | nil =>
    cases key with
    | none => cases h
    | some key => simp [decryptSecret, CredentialEncryption.decrypt] at h

/-- Every secret that was put in place is where its signatures come from, for as long as it has
been promised. -/
structure Vault.Kept (c : Crypto) (key : Option SecretKey) (s : Vault) : Prop where
  current : ∀ secret, (secret, none) ∈ s.issued →
    ∃ ct, s.columns.secretEncrypted = some ct ∧ decryptSecret c key ct = .ok secret
  previous : ∀ secret e, (secret, some e) ∈ s.issued → s.now < e →
    s.columns.secretPreviousExpiresAt = some e ∧
      ∃ ct, s.columns.secretPreviousEncrypted = some ct ∧ decryptSecret c key ct = .ok secret

/-- A rotation has its new secret encrypted. -/
def Rotation.Sealed (c : Crypto) (key : Option SecretKey) : Rotation → Prop
  | .idle => True
  | .rotating secret encrypted _ => decryptSecret c key encrypted = .ok secret

theorem rotateUpdate_kept {start requestedAt : ℤ} {encrypted : List UInt8} {digest : String}
    (hs : s.Kept c key) (hstart : start ≤ s.now)
    (hsealed : decryptSecret c key encrypted = .ok secret)
    (h : rotateUpdate s.columns start requestedAt encrypted digest = some columns) :
    Vault.Kept c key { s with
      columns := columns
      issued := (s.issued.map fun (old, ends) =>
        (old, ends <|> some (requestedAt + secretRotationOverlap))) ++ [(secret, none)] } := by
  unfold rotateUpdate at h
  split at h
  · next hfree =>
    cases h
    refine ⟨fun secret' hissued => ?_, fun secret' e hissued hlive => ?_⟩
    · rcases List.mem_append.mp hissued with hold | hnew
      · obtain ⟨⟨old, ends⟩, -, heq⟩ := List.mem_map.mp hold
        cases ends <;> cases heq
      · cases List.mem_singleton.mp hnew
        exact ⟨encrypted, rfl, hsealed⟩
    · rcases List.mem_append.mp hissued with hold | hnew
      · obtain ⟨⟨old, ends⟩, hmem, heq⟩ := List.mem_map.mp hold
        cases ends with
        | none =>
          cases heq
          obtain ⟨ct, hct, hopens⟩ := hs.current _ hmem
          exact ⟨by rw [hct]; rfl, ct, hct, hopens⟩
        | some e' =>
          cases heq
          obtain ⟨hexpires, -⟩ := hs.previous _ _ hmem hlive
          rw [hexpires, Option.all_some, decide_eq_true_eq] at hfree
          dsimp only at hlive
          omega
      · cases List.mem_singleton.mp hnew
  · cases h

theorem cleanup_kept {start : ℤ} (hs : s.Kept c key) (hstart : start ≤ s.now) :
    Vault.Kept c key { s with columns := cleanupExpiredPreviousSecrets s.columns start } := by
  unfold cleanupExpiredPreviousSecrets
  split
  · next hexpired =>
    refine ⟨hs.current, fun secret e hissued hlive => ?_⟩
    obtain ⟨hexpires, -⟩ := hs.previous secret e hissued hlive
    rw [hexpires, Option.any_some, Bool.and_eq_true, decide_eq_true_eq] at hexpired
    have hle := hexpired.2
    dsimp only at hlive
    omega
  · exact hs

theorem rotationStep_kept (hc : c.Lawful) (hs : s.Kept c key) (hl : l.Sealed c key)
    (h : rotationStep c key s l a = some (s', l')) : s'.Kept c key ∧ l'.Sealed c key := by
  unfold rotationStep at h
  split at h
  · split at h
    · cases h
    · next encrypted hencrypted =>
      cases h
      exact ⟨hs, decryptSecret_encryptSecret hc hencrypted⟩
  · split at h
    · next hstart =>
      split at h
      · cases h
        exact ⟨hs, trivial⟩
      · next columns hcolumns =>
        cases h
        exact ⟨rotateUpdate_kept hs hstart hl hcolumns, trivial⟩
    · cases h
  · cases h
    exact ⟨hs, trivial⟩
  · split at h
    · next hstart =>
      cases h
      exact ⟨cleanup_kept hs hstart, hl⟩
    · cases h
  · next d =>
    cases h
    refine ⟨⟨hs.current, fun secret e hissued hlive => hs.previous secret e hissued ?_⟩, hl⟩
    have hlive : s.now + d < e := hlive
    omega
  · cases h

theorem decideActiveSecrets_current (hct : columns.secretEncrypted = some ct)
    (hopens : decryptSecret c key ct = .ok secret) :
    secret ∈ (decideActiveSecrets c key columns later).1 := by
  have hfull := filter_of_decryptSecret hopens
  simp [decideActiveSecrets, hct, hfull, hopens]

theorem decideActiveSecrets_previous {e : ℤ} (hexpires : columns.secretPreviousExpiresAt = some e)
    (hlive : later < e) (hct : columns.secretPreviousEncrypted = some ct)
    (hopens : decryptSecret c key ct = .ok secret) :
    secret ∈ (decideActiveSecrets c key columns later).1 := by
  have hfull := filter_of_decryptSecret hopens
  simp [decideActiveSecrets, hexpires, hlive, hct, hfull, hopens]

theorem Vault.Kept.active {ends : Option ℤ} (hs : s.Kept c key) (h : (secret, ends) ∈ s.issued)
    (hlater : s.now ≤ later) (hlive : ∀ e, ends = some e → later < e) :
    secret ∈ (decideActiveSecrets c key s.columns later).1 := by
  cases ends with
  | none =>
    obtain ⟨ct, hct, hopens⟩ := hs.current secret h
    exact decideActiveSecrets_current hct hopens
  | some e =>
    obtain ⟨hexpires, ct, hct, hopens⟩ :=
      hs.previous secret e h (lt_of_le_of_lt hlater (hlive e rfl))
    exact decideActiveSecrets_previous hexpires (hlive e rfl) hct hopens

theorem created_kept {generated : String} {supplied : Option String} {prepared : PreparedSecret}
    (hc : c.Lawful) (h : prepareSecretForStorage c key nonce generated supplied = .ok prepared) :
    (prepared.created now).shared.Kept c key := by
  refine ⟨fun secret hissued => ?_, fun secret e hissued _ => ?_⟩
  · unfold prepareSecretForStorage at h
    split at h
    · cases h
    · cases h
      cases hissued
    · next key' =>
      dsimp only at h
      split at h
      · cases h
      · next encrypted hencrypted =>
        cases h
        cases List.mem_singleton.mp hissued
        exact ⟨encrypted, rfl, decryptSecret_encryptSecret hc hencrypted⟩
  · obtain ⟨_, -, heq⟩ := List.mem_map.mp hissued
    cases heq

theorem reach_kept {w₀ w : World Vault Rotation}
    (h : (rotationProtocol c key).machine.Reach anyStep w₀ w) (hc : c.Lawful)
    (hs : w₀.shared.Kept c key) (hl : ∀ q, (w₀.procs q).Sealed c key) : w.shared.Kept c key := by
  refine (Protocol.reach_rely_guarantee h (I := (Vault.Kept c key ·))
    (A := fun _ l _ => l.Sealed c key) hs hl ?_).1
  intro w q a s' l' hs hl _ hstep
  obtain ⟨hs', hl'⟩ := rotationStep_kept hc hs (hl q) hstep
  exact ⟨hs', hl', fun r _ => hl r⟩

/-- Whatever rotations and cleanups run and in whatever order, and whichever of them fail: a
receiver accepts the deliveries signed by the secret it was given, until the promised end of the
overlap once that secret has been replaced. -/
theorem overlap_accepts {generated : String} {supplied : Option String} {ends : Option ℤ}
    {prepared : PreparedSecret} {w : World Vault Rotation} {unixSecs : ℤ} {body : List UInt8}
    (hc : c.Lawful)
    (hprepared : prepareSecretForStorage c key nonce generated supplied = .ok prepared)
    (h : (rotationProtocol c key).machine.Reach anyStep (prepared.created now) w)
    (hissued : (secret, ends) ∈ w.shared.issued) (hlater : w.shared.now ≤ later)
    (hlive : ∀ e, ends = some e → later < e) (hlow : -2 ^ 63 ≤ unixSecs)
    (hhigh : unixSecs < 2 ^ 63) :
    accepts c.hmac secret body (renderHeader c.hmac unixSecs body
      (decideActiveSecrets c key w.shared.columns later).1) = true :=
  accepts_of_mem
    ((reach_kept h hc (created_kept hc hprepared) fun _ => trivial).active hissued hlater hlive)
    hlow hhigh

/-! A secret that was supplied and one that replaces it, under a key of zeros. -/

def suppliedSecret : String := "first-secret"

def generatedSecret : String := "whsec_AAAAAAAAAAAAAAAAAAAAAAAAAAAAAAAA"

def signedBody : List UInt8 := utf8 "{}"

def signedText : List UInt8 := utf8 "1700000000.{}"

/-- HMAC-SHA256 of the signed text under either secret. -/
def sampleHmac : Hmac := fun key message =>
  if key = utf8 suppliedSecret ∧ message = signedText then
    [237, 56, 26, 122, 120, 160, 52, 147, 3, 123, 115, 40, 164, 213, 231, 9, 146, 35, 223, 124,
      213, 233, 60, 13, 200, 34, 22, 33, 100, 144, 33, 77]
  else if key = utf8 generatedSecret ∧ message = signedText then
    [246, 103, 76, 3, 76, 100, 28, 158, 142, 139, 90, 54, 47, 144, 246, 40, 43, 176, 63, 214,
      155, 199, 91, 128, 43, 246, 44, 208, 155, 131, 80, 61]
  else key ++ message

def zeroKey : SecretKey := ⟨List.replicate 32 0, rfl⟩

def nonceOf (b : UInt8) : Nonce := ⟨List.replicate 12 b, rfl⟩

def suppliedSealed : List UInt8 :=
  [19, 41, 177, 25, 14, 164, 11, 152, 1, 196, 129, 242, 149, 136, 104, 96, 154, 224, 14, 245, 7,
    36, 202, 207, 178, 118, 87, 166]

def generatedSealed : List UInt8 :=
  [51, 144, 127, 136, 91, 44, 131, 100, 197, 189, 155, 62, 235, 185, 149, 155, 171, 57, 84, 74,
    201, 104, 108, 143, 0, 64, 254, 184, 12, 187, 159, 238, 181, 68, 106, 146, 1, 236, 226, 232,
    247, 125, 181, 254, 59, 93, 145, 36, 164, 148, 177, 71, 247, 136]

/-- The ciphertexts of the two secrets; elsewhere a tag of zeros is appended. -/
def sampleCrypto : Crypto where
  hmac := sampleHmac
  encrypt key nonce plaintext :=
    if key = zeroKey.1 ∧ nonce = (nonceOf 1).1 ∧ plaintext = utf8 suppliedSecret then
      suppliedSealed
    else if key = zeroKey.1 ∧ nonce = (nonceOf 2).1 ∧ plaintext = utf8 generatedSecret then
      generatedSealed
    else plaintext ++ List.replicate 16 0
  decrypt _ _ ciphertext :=
    if ciphertext = suppliedSealed then some (utf8 suppliedSecret)
    else if ciphertext = generatedSealed then some (utf8 generatedSecret)
    else some (ciphertext.take (ciphertext.length - 16))

theorem sampleCrypto_lawful : sampleCrypto.Lawful := by
  have hzeros : ∀ m ct : List UInt8, ct.getLast? ≠ some 0 → m ++ List.replicate 16 0 ≠ ct := by
    rintro m ct hlast rfl
    exact hlast (by simp [List.getLast?_append])
  refine ⟨fun key nonce m => ?_, fun key nonce m => ?_⟩
  · simp only [sampleCrypto]
    split
    · next h => rw [if_pos rfl, h.2.2]
    · split
      · next h => rw [if_neg (by decide), if_pos rfl, h.2.2]
      · rw [if_neg (hzeros m _ (by decide)), if_neg (hzeros m _ (by decide))]
        simp
  · simp only [sampleCrypto]
    split
    · decide
    · split
      · decide
      · simp

/-- One secret replaces the other an hour after the creation; the cleanup comes too early. -/
def rotatedLabels : List (ℕ × RotationLabel) :=
  [(1, .elapse 3600000), (1, .request generatedSecret (nonceOf 2)), (1, .update 3600000),
    (2, .cleanup 3600000)]

def overlapPrepared : PreparedSecret :=
  ⟨some suppliedSecret, some ((nonceOf 1).1 ++ suppliedSealed), some "firs...cret"⟩

/-- The supplied secret still signs an hour before its overlap ends, and the new one does too. -/
theorem overlap_accepts_rotated : ∃ columns : SecretColumns,
    columns.secretPreviousExpiresAt = some 90000000 ∧
      ∀ secret ∈ [suppliedSecret, generatedSecret],
        accepts sampleHmac secret signedBody (renderHeader sampleHmac 1700000000 signedBody
          (decideActiveSecrets sampleCrypto (some zeroKey) columns 86400000).1) = true := by
  have hprepared : prepareSecretForStorage sampleCrypto (some zeroKey) (nonceOf 1) ""
      (some suppliedSecret) = .ok overlapPrepared := rfl
  obtain ⟨w, hrun, hexpires, hissued, hnow⟩ : ∃ w,
      (rotationProtocol sampleCrypto (some zeroKey)).machine.run (overlapPrepared.created 0)
        rotatedLabels = some w ∧ w.shared.columns.secretPreviousExpiresAt = some 90000000 ∧
        w.shared.issued = [(suppliedSecret, some 90000000), (generatedSecret, none)] ∧
        w.shared.now = 3600000 := ⟨_, rfl, rfl, rfl, rfl⟩
  have hreach := reach_of_run rotatedLabels hrun (meets_anyStep _ _)
  refine ⟨w.shared.columns, hexpires, fun secret hsecret => ?_⟩
  obtain ⟨ends, hmem, hlive⟩ : ∃ ends, (secret, ends) ∈ w.shared.issued ∧
      ∀ e, ends = some e → (86400000 : ℤ) < e := by
    rw [hissued]
    rcases List.mem_cons.mp hsecret with rfl | hsecret
    · exact ⟨some 90000000, List.mem_cons_self, fun e he => by cases he; decide⟩
    · cases List.mem_singleton.mp hsecret
      exact ⟨none, List.mem_cons_of_mem _ List.mem_cons_self, fun e he => by cases he⟩
  exact overlap_accepts sampleCrypto_lawful hprepared hreach hmem (hnow ▸ by decide) hlive
    (by decide) (by decide)

end ArtifactKeeper.Webhooks
