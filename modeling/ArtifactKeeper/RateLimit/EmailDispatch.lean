import ArtifactKeeper.Text
import ArtifactKeeper.TokenBucket
import Mathlib.Algebra.Order.Field.Rat
import Mathlib.Data.List.AList
import Mathlib.Tactic.FieldSimp

/-! The limiter of email dispatch: one token bucket per subscription and recipient and one per
recipient domain, with the token arithmetic read as exact. -/

namespace ArtifactKeeper.RateLimit
open TokenBucket

/-- Instants are in nanoseconds, the tokens in units. -/
structure Bucket where
  capacity : ℚ
  refillPerSec : ℚ
  tokens : ℚ
  lastRefill : ℕ
  deriving DecidableEq, Repr

/-- `Duration::as_secs_f64`. -/
def asSecs (nanos : ℕ) : ℚ := nanos / 1000000000

namespace Bucket

def newFull (capacityPerMinute now : ℕ) : Bucket :=
  ⟨capacityPerMinute, capacityPerMinute / 60, capacityPerMinute, now⟩

def tryConsume (b : Bucket) (now : ℕ) : Bucket × Bool :=
  let elapsed := now - b.lastRefill
  let refilled := min (b.tokens + asSecs elapsed * b.refillPerSec) b.capacity
  if 1 ≤ refilled then ({ b with tokens := refilled - 1, lastRefill := now }, true)
  else ({ b with tokens := refilled, lastRefill := now }, false)

end Bucket

inductive RateLimitDecision where
  | allowed | recipientLimited | domainLimited
  deriving DecidableEq, Repr

/-- A `HashMap` of buckets. -/
abbrev Buckets (κ : Type) := AList fun _ : κ => Bucket

/-- A subscription and a lower-cased recipient. -/
abbrev RecipientKey := ℕ × String

structure RateLimiterState where
  recipients : Buckets RecipientKey
  domains : Buckets String
  lastPrune : Option ℕ

/-- `EmailRateLimiter` without its state. -/
structure EmailRateLimiter where
  perRecipientPerMin : ℕ
  perDomainPerMin : ℕ
  deriving DecidableEq, Repr

def recipientMapSoftCap : ℕ := 10000
def domainMapSoftCap : ℕ := 2000
def pruneMinInterval : ℕ := 10000000000
def pruneIdleThreshold : ℕ := 120000000000

/-- `HashMap::retain` by the bucket. -/
def Buckets.retain {κ : Type} (p : Bucket → Bool) (m : Buckets κ) : Buckets κ :=
  ⟨m.entries.filter fun e => p e.2, m.nodupKeys.sublist List.filter_sublist⟩

namespace RateLimiterState

def initial : RateLimiterState := ⟨∅, ∅, none⟩

def prune (s : RateLimiterState) (now : ℕ) : RateLimiterState :=
  let overCap := decide (recipientMapSoftCap < s.recipients.entries.length) ||
    decide (domainMapSoftCap < s.domains.entries.length)
  let intervalOk := s.lastPrune.all fun t => decide (pruneMinInterval ≤ now - t)
  if overCap && intervalOk then
    { recipients := Buckets.retain (fun b => decide (now - b.lastRefill < pruneIdleThreshold))
        s.recipients
      domains := Buckets.retain (fun b => decide (now - b.lastRefill < pruneIdleThreshold))
        s.domains
      lastPrune := some now }
  else s

end RateLimiterState

def extractDomain (addr : String) : String :=
  match Text.rsplitOnce '@' addr.toList with
  | some (_, domain) => Text.toAsciiLowercase (String.ofList domain)
  | none => Text.toAsciiLowercase addr

namespace EmailRateLimiter
variable (l : EmailRateLimiter)

/-- `try_acquire_at` behind the pruning. -/
def acquire (s : RateLimiterState) (subscription : ℕ) (recipient : String) (now : ℕ) :
    RateLimiterState × RateLimitDecision :=
  let recipientLc := Text.toAsciiLowercase recipient
  let domain := extractDomain recipientLc
  let key := (subscription, recipientLc)
  let recipientBucket := (s.recipients.lookup key).getD (.newFull l.perRecipientPerMin now)
  let (recipientBucket, taken) := recipientBucket.tryConsume now
  let s := { s with recipients := s.recipients.insert key recipientBucket }
  if !taken then (s, .recipientLimited)
  else
    let domainBucket := (s.domains.lookup domain).getD (.newFull l.perDomainPerMin now)
    let (domainBucket, taken) := domainBucket.tryConsume now
    let s := { s with domains := s.domains.insert domain domainBucket }
    if !taken then
      let rolledBack := { recipientBucket with
        tokens := min (recipientBucket.tokens + 1) recipientBucket.capacity }
      ({ s with recipients := s.recipients.insert key rolledBack }, .domainLimited)
    else (s, .allowed)

def tryAcquireAt (s : RateLimiterState) (subscription : ℕ) (recipient : String) (now : ℕ) :
    RateLimiterState × RateLimitDecision :=
  l.acquire (s.prune now) subscription recipient now

end EmailRateLimiter

/-- A call of `try_acquire_at`. -/
structure Acquire where
  subscription : ℕ
  recipient : String
  now : ℕ
  deriving DecidableEq, Repr

namespace Acquire

def key (c : Acquire) : RecipientKey := (c.subscription, Text.toAsciiLowercase c.recipient)

def domain (c : Acquire) : String := extractDomain (Text.toAsciiLowercase c.recipient)

end Acquire

/-- The tokens at an instant if the bucket is refilled and not drawn from. -/
def Bucket.level (b : Bucket) (now : ℕ) : ℚ :=
  refill b.capacity b.refillPerSec b.tokens (asSecs (now - b.lastRefill))

/-- A key without a bucket holds what a new one does. -/
def Buckets.level {κ : Type} [DecidableEq κ] (cap : ℕ) (m : Buckets κ) (k : κ) (now : ℕ) : ℚ :=
  match m.lookup k with
  | some b => b.level now
  | none => cap

namespace EmailRateLimiter
variable (l : EmailRateLimiter)

/-- The decisions of a sequence of calls, with or without the pruning. -/
def decisions (acquire : RateLimiterState → ℕ → String → ℕ → RateLimiterState × RateLimitDecision)
    (s : RateLimiterState) : List Acquire → List (Acquire × RateLimitDecision)
  | [] => []
  | c :: rest =>
    let (s', d) := acquire s c.subscription c.recipient c.now
    (c, d) :: decisions acquire s' rest

def stateAfter (s : RateLimiterState) (calls : List Acquire) : RateLimiterState :=
  calls.foldl (fun s c => (l.tryAcquireAt s c.subscription c.recipient c.now).1) s

/-- What the limiter is for. -/
structure HoldsRates : Prop where
  perRecipient : ∀ (calls : List Acquire) (key : RecipientKey) (t₁ t₂ : ℕ),
    (calls.map Acquire.now).Pairwise (· ≤ ·) → t₁ ≤ t₂ →
    (((decisions l.tryAcquireAt .initial calls).countP fun o => o.2 == .allowed && o.1.key == key &&
      decide (t₁ ≤ o.1.now ∧ o.1.now ≤ t₂) : ℕ) : ℚ) ≤
      l.perRecipientPerMin + l.perRecipientPerMin * asSecs (t₂ - t₁) / 60
  perDomain : ∀ (calls : List Acquire) (domain : String) (t₁ t₂ : ℕ),
    (calls.map Acquire.now).Pairwise (· ≤ ·) → t₁ ≤ t₂ →
    (((decisions l.tryAcquireAt .initial calls).countP fun o => o.2 == .allowed &&
      o.1.domain == domain && decide (t₁ ≤ o.1.now ∧ o.1.now ≤ t₂) : ℕ) : ℚ) ≤
      l.perDomainPerMin + l.perDomainPerMin * asSecs (t₂ - t₁) / 60
  /-- A call that is not allowed draws from no bucket. -/
  refused : ∀ (calls : List Acquire) (c : Acquire),
    ((calls ++ [c]).map Acquire.now).Pairwise (· ≤ ·) →
    (l.tryAcquireAt (l.stateAfter .initial calls) c.subscription c.recipient c.now).2 ≠ .allowed →
    ∀ t, c.now ≤ t →
      (∀ key, (l.stateAfter .initial (calls ++ [c])).recipients.level l.perRecipientPerMin key t =
        (l.stateAfter .initial calls).recipients.level l.perRecipientPerMin key t) ∧
      ∀ domain, (l.stateAfter .initial (calls ++ [c])).domains.level l.perDomainPerMin domain t =
        (l.stateAfter .initial calls).domains.level l.perDomainPerMin domain t
  pruning : ∀ calls : List Acquire, (calls.map Acquire.now).Pairwise (· ≤ ·) →
    decisions l.tryAcquireAt .initial calls = decisions l.acquire .initial calls

end EmailRateLimiter

theorem asSecs_nonneg (n : ℕ) : 0 ≤ asSecs n := by
  unfold asSecs
  positivity

theorem asSecs_add (m n : ℕ) : asSecs (m + n) = asSecs m + asSecs n := by
  unfold asSecs
  push_cast
  ring

@[simp] theorem asSecs_zero : asSecs 0 = 0 := by simp [asSecs]

theorem asSecs_sub {m n : ℕ} (h : m ≤ n) : asSecs (n - m) = asSecs n - asSecs m := by
  have hadd := asSecs_add m (n - m)
  rw [Nat.add_sub_cancel' h] at hadd
  linarith

theorem asSecs_mono {m n : ℕ} (h : m ≤ n) : asSecs m ≤ asSecs n := by
  have hpos := asSecs_nonneg (n - m)
  rw [asSecs_sub h] at hpos
  linarith

/-- What every bucket of a map keeps up to the instant of the last call. -/
structure Bucket.Sound (cap now : ℕ) (b : Bucket) : Prop where
  capacity : b.capacity = cap
  rate : b.refillPerSec = cap / 60
  nonneg : 0 ≤ b.tokens
  le_cap : b.tokens ≤ cap
  past : b.lastRefill ≤ now

namespace Bucket
variable {cap now now' t : ℕ} {b : Bucket}

theorem rate_nonneg (cap : ℕ) : (0 : ℚ) ≤ cap / 60 := by positivity

theorem sound_newFull (cap now : ℕ) : (newFull cap now).Sound cap now :=
  ⟨rfl, rfl, by simp [newFull], le_rfl, le_rfl⟩

theorem Sound.mono (h : b.Sound cap now) (hle : now ≤ now') : b.Sound cap now' :=
  { h with past := h.past.trans hle }

theorem Sound.level_nonneg (h : b.Sound cap now) (t : ℕ) : 0 ≤ b.level t := by
  rw [level, h.capacity, h.rate]
  exact refill_nonneg (Nat.cast_nonneg cap) (rate_nonneg cap) h.nonneg (asSecs_nonneg _)

theorem Sound.level_le (h : b.Sound cap now) (t : ℕ) : b.level t ≤ cap := by
  rw [level, h.capacity]
  exact refill_le_cap _ _ _ _

theorem Sound.level_later (h : b.Sound cap now) (ht : now ≤ t) :
    b.level t = refill (cap : ℚ) (cap / 60) (b.level now) (asSecs (t - now)) := by
  have hpast := h.past
  rw [level, level, h.capacity, h.rate, refill_refill (rate_nonneg cap) (asSecs_nonneg _),
    ← asSecs_add]
  congr 2
  omega

/-- Two minutes without a draw fill any bucket. -/
theorem Sound.level_of_idle (h : b.Sound cap now)
    (hidle : pruneIdleThreshold ≤ t - b.lastRefill) : b.level t = cap := by
  rw [level, h.capacity, h.rate]
  refine refill_eq_cap h.nonneg ?_
  have hsecs : 120 ≤ asSecs (t - b.lastRefill) := by
    refine le_trans (le_of_eq ?_) (asSecs_mono hidle)
    norm_num [asSecs, pruneIdleThreshold]
  have hcap : (0 : ℚ) ≤ cap := Nat.cast_nonneg cap
  nlinarith

/-- What `try_consume` comes to, by the level of the bucket. -/
theorem Sound.tryConsume (h : b.Sound cap now) :
    ((b.tryConsume now').2 = decide (1 ≤ b.level now')) ∧ (b.tryConsume now').1.Sound cap now' ∧
      (b.tryConsume now').1.lastRefill = now' ∧
      (b.tryConsume now').1.tokens = b.level now' - if 1 ≤ b.level now' then 1 else 0 := by
  have hlevel : min (b.tokens + asSecs (now' - b.lastRefill) * b.refillPerSec) b.capacity =
      b.level now' := rfl
  have hle_cap := h.level_le now'
  have hpos := h.level_nonneg now'
  unfold Bucket.tryConsume
  simp only [hlevel]
  split
  · next hone =>
    exact ⟨by simp [hone], ⟨h.capacity, h.rate, by linarith, by linarith, le_rfl⟩, rfl, rfl⟩
  · next hone =>
    exact ⟨by simp [hone], ⟨h.capacity, h.rate, hpos, hle_cap, le_rfl⟩, rfl, (sub_zero _).symm⟩

end Bucket

namespace Buckets
variable {κ : Type} [DecidableEq κ] {cap now now' t : ℕ} {m : Buckets κ} {k k' : κ} {b : Bucket}

def Sound (cap now : ℕ) (m : Buckets κ) : Prop := ∀ k, ∀ b ∈ m.lookup k, b.Sound cap now

theorem sound_empty (cap now : ℕ) : Sound cap now (∅ : Buckets κ) := by
  intro k b hb
  simp at hb

theorem Sound.mono (h : Sound cap now m) (hle : now ≤ now') : Sound cap now' m :=
  fun k b hb => (h k b hb).mono hle

theorem Sound.insert (h : Sound cap now m) (hb : b.Sound cap now) :
    Sound cap now (AList.insert k b m) := by
  intro k' b' hb'
  by_cases hk : k' = k
  · subst hk
    rw [AList.lookup_insert, Option.mem_some_iff] at hb'
    exact hb' ▸ hb
  · rw [AList.lookup_insert_ne hk] at hb'
    exact h k' b' hb'

theorem Sound.getD (h : Sound cap now m) (k : κ) :
    ((m.lookup k).getD (.newFull cap now)).Sound cap now := by
  cases hk : m.lookup k with
  | none => exact Bucket.sound_newFull cap now
  | some b => exact h k b hk

theorem Sound.level_le (h : Sound cap now m) (k : κ) (t : ℕ) : m.level cap k t ≤ cap := by
  unfold level
  split
  · next b hb => exact (h k b hb).level_le t
  · exact le_rfl

theorem Sound.level_nonneg (h : Sound cap now m) (k : κ) (t : ℕ) : 0 ≤ m.level cap k t := by
  unfold level
  split
  · next b hb => exact (h k b hb).level_nonneg t
  · exact Nat.cast_nonneg cap

theorem Sound.level_later (h : Sound cap now m) (ht : now ≤ t) :
    m.level cap k t = refill (cap : ℚ) (cap / 60) (m.level cap k now) (asSecs (t - now)) := by
  unfold level
  cases hk : m.lookup k with
  | none =>
    refine (min_eq_right (le_add_of_nonneg_right ?_)).symm
    exact mul_nonneg (asSecs_nonneg _) (Bucket.rate_nonneg cap)
  | some b => exact (h k b hk).level_later ht

theorem level_getD (cap : ℕ) (m : Buckets κ) (k : κ) (now : ℕ) :
    ((m.lookup k).getD (.newFull cap now)).level now = m.level cap k now := by
  unfold level
  cases m.lookup k with
  | none => simp [Bucket.level, Bucket.newFull, refill]
  | some b => rfl

theorem level_insert (cap : ℕ) (m : Buckets κ) (k k' : κ) (b : Bucket) (t : ℕ) :
    level cap (AList.insert k b m) k' t = if k' = k then b.level t else m.level cap k' t := by
  unfold level
  by_cases hk : k' = k
  · subst hk
    rw [AList.lookup_insert, if_pos rfl]
  · rw [AList.lookup_insert_ne hk, if_neg hk]

theorem lookup_retain (p : Bucket → Bool) (m : Buckets κ) (k : κ) :
    (m.retain p).lookup k = (m.lookup k).filter p := by
  ext b
  rw [← Option.mem_def, ← Option.mem_def, AList.mem_lookup_iff, retain, List.mem_filter,
    ← AList.mem_lookup_iff, Option.mem_filter_iff]

theorem Sound.retain (h : Sound cap now m) (p : Bucket → Bool) : Sound cap now (m.retain p) := by
  intro k b hb
  rw [lookup_retain, Option.mem_filter_iff] at hb
  exact h k b hb.1

/-- An idle bucket is as full as none. -/
theorem Sound.level_retain (h : Sound cap now m) (ht : now' ≤ t) (k : κ) :
    level cap (m.retain fun b => decide (now' - b.lastRefill < pruneIdleThreshold)) k t =
      m.level cap k t := by
  unfold level
  rw [lookup_retain]
  cases hk : m.lookup k with
  | none => rfl
  | some b =>
    by_cases hrecent : now' - b.lastRefill < pruneIdleThreshold
    · simp [Option.filter_some, hrecent]
    · simp only [Option.filter_some, hrecent, decide_false, Bool.false_eq_true, if_false]
      exact ((h k b hk).level_of_idle (by omega)).symm

/-- A bucket that is put back after `x` tokens are drawn from it. -/
theorem Sound.level_insert_drawn (h : Sound cap now m) (hb : b.Sound cap now) {x : ℚ}
    (hlast : b.lastRefill = now) (htokens : b.tokens = m.level cap k now - x) (ht : now ≤ t)
    (k' : κ) : level cap (AList.insert k b m) k' t =
      refill (cap : ℚ) (cap / 60) (m.level cap k' now - if k' = k then x else 0)
        (asSecs (t - now)) := by
  rw [level_insert]
  split
  · next hk => rw [Bucket.level, hb.capacity, hb.rate, hlast, htokens, hk]
  · rw [sub_zero, h.level_later ht]

end Buckets

/-- Both maps keep what their buckets do. -/
structure RateLimiterState.Sound (l : EmailRateLimiter) (now : ℕ) (s : RateLimiterState) :
    Prop where
  recipients : s.recipients.Sound l.perRecipientPerMin now
  domains : s.domains.Sound l.perDomainPerMin now

/-- Two states hold the same tokens from an instant on. -/
structure RateLimiterState.SameLevels (l : EmailRateLimiter) (now : ℕ) (s s' : RateLimiterState) :
    Prop where
  recipients : ∀ key t, now ≤ t → s'.recipients.level l.perRecipientPerMin key t =
    s.recipients.level l.perRecipientPerMin key t
  domains : ∀ domain t, now ≤ t → s'.domains.level l.perDomainPerMin domain t =
    s.domains.level l.perDomainPerMin domain t

def decisionOf (recipientLevel domainLevel : ℚ) : RateLimitDecision :=
  if 1 ≤ recipientLevel then if 1 ≤ domainLevel then .allowed else .domainLimited
  else .recipientLimited

/-- What a call does: it decides by the two levels, and draws a token from each if it is allowed. -/
structure Acquired (l : EmailRateLimiter) (s s' : RateLimiterState) (c : Acquire)
    (d : RateLimitDecision) : Prop where
  sound : s'.Sound l c.now
  decision : d = decisionOf (s.recipients.level l.perRecipientPerMin c.key c.now)
    (s.domains.level l.perDomainPerMin c.domain c.now)
  recipients : ∀ key t, c.now ≤ t → s'.recipients.level l.perRecipientPerMin key t =
    refill (l.perRecipientPerMin : ℚ) (l.perRecipientPerMin / 60)
      (s.recipients.level l.perRecipientPerMin key c.now -
        if d = .allowed ∧ key = c.key then 1 else 0) (asSecs (t - c.now))
  domains : ∀ domain t, c.now ≤ t → s'.domains.level l.perDomainPerMin domain t =
    refill (l.perDomainPerMin : ℚ) (l.perDomainPerMin / 60)
      (s.domains.level l.perDomainPerMin domain c.now -
        if d = .allowed ∧ domain = c.domain then 1 else 0) (asSecs (t - c.now))

variable {l : EmailRateLimiter} {s s' : RateLimiterState} {c : Acquire} {now : ℕ}

theorem acquire_acquired (hs : s.Sound l c.now) :
    Acquired l s (l.acquire s c.subscription c.recipient c.now).1 c
      (l.acquire s c.subscription c.recipient c.now).2 := by
  obtain ⟨hr, hd⟩ := hs
  have hrecipient := @Bucket.Sound.tryConsume _ _ c.now _ (hr.getD c.key)
  have hdomain := @Bucket.Sound.tryConsume _ _ c.now _ (hd.getD c.domain)
  rw [Buckets.level_getD] at hrecipient hdomain
  simp only [EmailRateLimiter.acquire]
  rw [show (c.subscription, Text.toAsciiLowercase c.recipient) = c.key from rfl,
    show extractDomain (Text.toAsciiLowercase c.recipient) = c.domain from rfl]
  generalize ((s.recipients.lookup c.key).getD (.newFull l.perRecipientPerMin c.now)).tryConsume
    c.now = rc at *
  generalize ((s.domains.lookup c.domain).getD (.newFull l.perDomainPerMin c.now)).tryConsume
    c.now = dc at *
  obtain ⟨hrtaken, hrsound, hrlast, hrtokens⟩ := hrecipient
  obtain ⟨hdtaken, hdsound, hdlast, hdtokens⟩ := hdomain
  rw [hrtaken, hdtaken]
  by_cases hrone : 1 ≤ s.recipients.level l.perRecipientPerMin c.key c.now
  · rw [if_pos hrone] at hrtokens
    by_cases hdone : 1 ≤ s.domains.level l.perDomainPerMin c.domain c.now
    · rw [if_pos hdone] at hdtokens
      simp only [hrone, hdone, decide_true, Bool.not_true, Bool.false_eq_true, if_false]
      refine ⟨⟨hr.insert hrsound, hd.insert hdsound⟩, ?_, fun key t ht => ?_, fun d t ht => ?_⟩
      · rw [decisionOf, if_pos hrone, if_pos hdone]
      · simpa only [true_and] using hr.level_insert_drawn hrsound hrlast hrtokens ht key
      · simpa only [true_and] using hd.level_insert_drawn hdsound hdlast hdtokens ht d
    · rw [if_neg hdone] at hdtokens
      simp only [hrone, hdone, decide_true, decide_false, Bool.not_true, Bool.not_false,
        Bool.false_eq_true, if_false, if_true]
      -- the token that is put back leaves the bucket as it was refilled
      have hback : min (rc.1.tokens + 1) rc.1.capacity =
          s.recipients.level l.perRecipientPerMin c.key c.now - 0 := by
        rw [hrtokens, hrsound.capacity, sub_add_cancel, sub_zero]
        exact min_eq_left (hr.level_le c.key c.now)
      have hbsound : { rc.1 with tokens := min (rc.1.tokens + 1) rc.1.capacity }.Sound
          l.perRecipientPerMin c.now := by
        refine ⟨hrsound.capacity, hrsound.rate, ?_, ?_, hrsound.past⟩
        · rw [hback, sub_zero]
          exact hr.level_nonneg c.key c.now
        · rw [hback, sub_zero]
          exact hr.level_le c.key c.now
      rw [AList.insert_insert]
      refine ⟨⟨hr.insert hbsound, hd.insert hdsound⟩, ?_, fun key t ht => ?_, fun d t ht => ?_⟩
      · rw [decisionOf, if_pos hrone, if_neg hdone]
      · simpa using hr.level_insert_drawn hbsound hrlast hback ht key
      · simpa using hd.level_insert_drawn hdsound hdlast hdtokens ht d
  · rw [if_neg hrone] at hrtokens
    simp only [hrone, decide_false, Bool.not_false, if_true]
    refine ⟨⟨hr.insert hrsound, hd⟩, ?_, fun key t ht => ?_, fun d t ht => ?_⟩
    · rw [decisionOf, if_neg hrone]
    · simpa using hr.level_insert_drawn hrsound hrlast hrtokens ht key
    · simpa using hd.level_later ht

theorem RateLimiterState.Sound.mono {now' : ℕ} (hs : s.Sound l now) (hle : now ≤ now') :
    s.Sound l now' :=
  ⟨hs.recipients.mono hle, hs.domains.mono hle⟩

theorem sound_initial (l : EmailRateLimiter) (now : ℕ) : RateLimiterState.initial.Sound l now :=
  ⟨Buckets.sound_empty _ _, Buckets.sound_empty _ _⟩

theorem sound_prune (hs : s.Sound l now) (now' : ℕ) : (s.prune now').Sound l now := by
  simp only [RateLimiterState.prune]
  split
  · exact ⟨hs.recipients.retain _, hs.domains.retain _⟩
  · exact hs

/-- Pruning takes no token away and adds none. -/
theorem sameLevels_prune (hs : s.Sound l now) : s.SameLevels l now (s.prune now) := by
  simp only [RateLimiterState.prune]
  split
  · exact ⟨fun key t ht => hs.recipients.level_retain ht key,
      fun domain t ht => hs.domains.level_retain ht domain⟩
  · exact ⟨fun _ _ _ => rfl, fun _ _ _ => rfl⟩

theorem tryAcquireAt_acquired (hs : s.Sound l c.now) :
    Acquired l s (l.tryAcquireAt s c.subscription c.recipient c.now).1 c
      (l.tryAcquireAt s c.subscription c.recipient c.now).2 := by
  have hsame := sameLevels_prune hs
  obtain ⟨hsound, hdecision, hr, hd⟩ := acquire_acquired (sound_prune hs c.now)
  refine ⟨hsound, ?_, fun key t ht => ?_, fun domain t ht => ?_⟩
  · rw [← hsame.recipients _ _ le_rfl, ← hsame.domains _ _ le_rfl]
    exact hdecision
  · rw [← hsame.recipients _ _ le_rfl]
    exact hr key t ht
  · rw [← hsame.domains _ _ le_rfl]
    exact hd domain t ht

section Runs
variable {calls : List Acquire}
  {acquire acquire' : RateLimiterState → ℕ → String → ℕ → RateLimiterState × RateLimitDecision}

/-- An implementation of `try_acquire_at`. -/
def Acquires (l : EmailRateLimiter)
    (acquire : RateLimiterState → ℕ → String → ℕ → RateLimiterState × RateLimitDecision) : Prop :=
  ∀ (s : RateLimiterState) (c : Acquire), s.Sound l c.now →
    Acquired l s (acquire s c.subscription c.recipient c.now).1 c
      (acquire s c.subscription c.recipient c.now).2

/-- The same tokens lead to the same decision and leave the same tokens. -/
theorem Acquired.congr {t t' : RateLimiterState} {d d' : RateLimitDecision}
    (h : Acquired l s s' c d) (h' : Acquired l t t' c d') (hsame : s.SameLevels l c.now t) :
    d = d' ∧ s'.SameLevels l c.now t' := by
  have hd : d = d' := by
    rw [h.decision, h'.decision, hsame.recipients _ _ le_rfl, hsame.domains _ _ le_rfl]
  subst hd
  refine ⟨rfl, fun key u hu => ?_, fun domain u hu => ?_⟩
  · rw [h.recipients key u hu, h'.recipients key u hu, hsame.recipients _ _ le_rfl]
  · rw [h.domains domain u hu, h'.domains domain u hu, hsame.domains _ _ le_rfl]

theorem RateLimiterState.SameLevels.mono {t : RateLimiterState} {now' : ℕ}
    (h : s.SameLevels l now t) (hle : now ≤ now') : s.SameLevels l now' t :=
  ⟨fun key u hu => h.recipients key u (hle.trans hu), fun d u hu => h.domains d u (hle.trans hu)⟩

theorem decisions_congr (ha : Acquires l acquire) (ha' : Acquires l acquire')
    {t : RateLimiterState} (hs : s.Sound l now) (ht : t.Sound l now)
    (hsame : s.SameLevels l now t) (hsorted : (now :: calls.map Acquire.now).Pairwise (· ≤ ·)) :
    EmailRateLimiter.decisions acquire s calls = EmailRateLimiter.decisions acquire' t calls := by
  induction calls generalizing s t now with
  | nil => rfl
  | cons c calls ih =>
    obtain ⟨hnow, hrest⟩ := List.pairwise_cons.mp hsorted
    have hle : now ≤ c.now := hnow c.now List.mem_cons_self
    have hacq := ha s c (hs.mono hle)
    have hacq' := ha' t c (ht.mono hle)
    obtain ⟨hd, hnext⟩ := hacq.congr hacq' (hsame.mono hle)
    simp only [EmailRateLimiter.decisions]
    rw [hd, ih hacq.sound hacq'.sound hnext hrest]

/-- `level` tells the tokens of one bucket, recipient's or domain's, from which the calls that meet
`hit` draw. -/
structure DrawnFrom (l : EmailRateLimiter) (cap : ℕ) (level : RateLimiterState → ℕ → ℚ)
    (hit : Acquire → Bool) : Prop where
  later : ∀ s now t, s.Sound l now → now ≤ t →
    level s t = refill (cap : ℚ) (cap / 60) (level s now) (asSecs (t - now))
  nonneg : ∀ s now t, s.Sound l now → 0 ≤ level s t
  draw : ∀ s s' c d, Acquired l s s' c d →
    level s' c.now + (if d == .allowed && hit c then 1 else 0) ≤ level s c.now

theorem recipients_drawn (l : EmailRateLimiter) (key : RecipientKey) :
    DrawnFrom l l.perRecipientPerMin (fun s => s.recipients.level l.perRecipientPerMin key)
      fun c => c.key == key where
  later _ _ _ hs ht := hs.recipients.level_later ht
  nonneg _ _ t hs := hs.recipients.level_nonneg key t
  draw s s' c d h := by
    have hle := refill_le_add (l.perRecipientPerMin : ℚ) (l.perRecipientPerMin / 60)
      (s.recipients.level l.perRecipientPerMin key c.now -
        if d = .allowed ∧ key = c.key then 1 else 0) (asSecs (c.now - c.now))
    rw [← h.recipients key c.now le_rfl, Nat.sub_self, asSecs_zero, zero_mul, add_zero] at hle
    simp only [Bool.and_eq_true, beq_iff_eq, eq_comm (a := c.key)]
    linarith

theorem domains_drawn (l : EmailRateLimiter) (domain : String) :
    DrawnFrom l l.perDomainPerMin (fun s => s.domains.level l.perDomainPerMin domain)
      fun c => c.domain == domain where
  later _ _ _ hs ht := hs.domains.level_later ht
  nonneg _ _ t hs := hs.domains.level_nonneg domain t
  draw s s' c d h := by
    have hle := refill_le_add (l.perDomainPerMin : ℚ) (l.perDomainPerMin / 60)
      (s.domains.level l.perDomainPerMin domain c.now -
        if d = .allowed ∧ domain = c.domain then 1 else 0) (asSecs (c.now - c.now))
    rw [← h.domains domain c.now le_rfl, Nat.sub_self, asSecs_zero, zero_mul, add_zero] at hle
    simp only [Bool.and_eq_true, beq_iff_eq, eq_comm (a := c.domain)]
    linarith

theorem DrawnFrom.metered {cap : ℕ} {level : RateLimiterState → ℕ → ℚ} {hit : Acquire → Bool}
    (h : DrawnFrom l cap level hit) (ha : Acquires l acquire) (hs : s.Sound l now)
    (hsorted : (now :: calls.map Acquire.now).Pairwise (· ≤ ·)) :
    Metered (cap : ℚ) (cap / 60) (level s now) (asSecs now)
      ((EmailRateLimiter.decisions acquire s calls).map fun o =>
        (asSecs o.1.now, o.2 == .allowed && hit o.1)) := by
  induction calls generalizing s now with
  | nil => trivial
  | cons c calls ih =>
    obtain ⟨hnow, hrest⟩ := List.pairwise_cons.mp hsorted
    have hle : now ≤ c.now := hnow c.now List.mem_cons_self
    have hacq := ha s c (hs.mono hle)
    refine ⟨asSecs_mono hle, _, h.nonneg _ _ _ hacq.sound, ?_, ih hacq.sound hrest⟩
    rw [← asSecs_sub hle, ← h.later s now c.now hs hle]
    exact h.draw s _ c _ hacq

theorem asSecs_le_iff {m n : ℕ} : asSecs m ≤ asSecs n ↔ m ≤ n := by
  rw [asSecs, asSecs, div_le_div_iff_of_pos_right (by norm_num), Nat.cast_le]

/-- The allowed calls on one bucket within an interval. -/
theorem DrawnFrom.count_le {cap : ℕ} {level : RateLimiterState → ℕ → ℚ} {hit : Acquire → Bool}
    (h : DrawnFrom l cap level hit) (ha : Acquires l acquire) (hs : s.Sound l now)
    (hsorted : (now :: calls.map Acquire.now).Pairwise (· ≤ ·)) {t₁ t₂ : ℕ} (ht : t₁ ≤ t₂) :
    (((EmailRateLimiter.decisions acquire s calls).countP fun o => o.2 == .allowed && hit o.1 &&
      decide (t₁ ≤ o.1.now ∧ o.1.now ≤ t₂) : ℕ) : ℚ) ≤ cap + cap * asSecs (t₂ - t₁) / 60 := by
  have hcount := (h.metered ha hs hsorted).count_interval_le (Nat.cast_nonneg cap)
    (Bucket.rate_nonneg cap) (asSecs_mono ht)
  rw [List.countP_map] at hcount
  simp only [Function.comp_def, asSecs_le_iff] at hcount
  refine hcount.trans_eq ?_
  rw [asSecs_sub ht]
  ring

theorem sound_stateAfter (hs : s.Sound l now)
    (hsorted : (now :: calls.map Acquire.now).Pairwise (· ≤ ·)) {t : ℕ} (ht : now ≤ t)
    (hcalls : ∀ c ∈ calls, c.now ≤ t) : (l.stateAfter s calls).Sound l t := by
  induction calls generalizing s now with
  | nil => exact hs.mono ht
  | cons c calls ih =>
    obtain ⟨hnow, hrest⟩ := List.pairwise_cons.mp hsorted
    obtain ⟨hc, hcalls⟩ := List.forall_mem_cons.mp hcalls
    have hacq := tryAcquireAt_acquired (hs.mono (hnow c.now List.mem_cons_self))
    exact ih hacq.sound hrest hc hcalls

theorem Acquired.sameLevels {d : RateLimitDecision} (h : Acquired l s s' c d)
    (hs : s.Sound l c.now) (hd : d ≠ .allowed) : s.SameLevels l c.now s' := by
  refine ⟨fun key t ht => ?_, fun domain t ht => ?_⟩
  · rw [h.recipients key t ht, if_neg fun hall => hd hall.1, sub_zero,
      hs.recipients.level_later ht]
  · rw [h.domains domain t ht, if_neg fun hall => hd hall.1, sub_zero, hs.domains.level_later ht]

theorem sorted_from_zero (h : (calls.map Acquire.now).Pairwise (· ≤ ·)) :
    (0 :: calls.map Acquire.now).Pairwise (· ≤ ·) :=
  List.pairwise_cons.mpr ⟨fun _ _ => Nat.zero_le _, h⟩

end Runs

/-- Email dispatch stays within both rates, refusals cost nothing and pruning is not seen. -/
theorem email_rates_hold (l : EmailRateLimiter) : l.HoldsRates where
  perRecipient calls key t₁ t₂ hsorted ht :=
    (recipients_drawn l key).count_le (fun _ _ => tryAcquireAt_acquired) (sound_initial l 0)
      (sorted_from_zero hsorted) ht
  perDomain calls domain t₁ t₂ hsorted ht :=
    (domains_drawn l domain).count_le (fun _ _ => tryAcquireAt_acquired) (sound_initial l 0)
      (sorted_from_zero hsorted) ht
  refused calls c hsorted hd t ht := by
    rw [List.map_append, List.pairwise_append] at hsorted
    obtain ⟨hbefore, -, hlast⟩ := hsorted
    have hsound := @sound_stateAfter l _ 0 calls (sound_initial l 0) (sorted_from_zero hbefore)
      c.now (Nat.zero_le _) fun b hb => hlast b.now (List.mem_map_of_mem hb) c.now (by simp)
    have hsame := (tryAcquireAt_acquired hsound).sameLevels hsound hd
    rw [EmailRateLimiter.stateAfter, List.foldl_append]
    exact ⟨fun key => hsame.recipients key t ht, fun domain => hsame.domains domain t ht⟩
  pruning calls hsorted :=
    decisions_congr (fun _ _ => tryAcquireAt_acquired) (fun _ _ => acquire_acquired)
      (sound_initial l 0) (sound_initial l 0) ⟨fun _ _ _ => rfl, fun _ _ _ => rfl⟩
      (sorted_from_zero hsorted)

end ArtifactKeeper.RateLimit
