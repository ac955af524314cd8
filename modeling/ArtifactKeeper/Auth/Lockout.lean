import ArtifactKeeper.Auth.Login
import ArtifactKeeper.Machine

/-! Failed logins on one local account beside each other. A call reads the row, takes the time,
verifies the password and writes what it has computed from the row that it read. -/

namespace ArtifactKeeper.Auth
open Machine Chunking

/-- The account and the clock; `failures` are the times that the finished calls have taken, the
last one to finish first. -/
structure LockoutState where
  user : User
  now : ℤ
  failures : List ℤ
  deriving DecidableEq, Repr

/-- A call of `authenticate` with a wrong password. -/
inductive LoginAttempt where
  | idle
  | selected (user : User)
  | verifying (user : User) (now : ℤ)
  | rejected (err : AppError)
  deriving DecidableEq, Repr

inductive LoginAction where
  | select | takeNow | update
  | tick (ms : ℕ)
  deriving DecidableEq, Repr

def loginStep (threshold : ℕ) (durationMinutes : ℤ) (s : LockoutState) :
    LoginAttempt → LoginAction → Option (LockoutState × LoginAttempt)
  | .idle, .select => some (s, .selected s.user)
  | .selected user, .takeNow => some (s, .verifying user s.now)
  | .verifying user now, .update =>
    let newCount := asI32 (user.failedLoginAttempts + 1)
    let lockUntil := shouldLock newCount threshold durationMinutes now
    let message := if failedAttemptIsLocked lockUntil.isSome (isAccountLocked user.lockedUntil now)
      then "Account temporarily locked due to too many failed login attempts"
      else "Invalid username or password"
    some ({ s with
      user := recordFailure newCount lockUntil now s.user
      failures := now :: s.failures }, .rejected (.authentication message))
  | l, .tick ms => some ({ s with now := s.now + ms }, l)
  | _, _ => none

def loginProtocol (threshold : ℕ) (durationMinutes : ℤ) :
    Protocol LockoutState LoginAttempt LoginAction where
  step _ s l a := loginStep threshold durationMinutes s l a

def lockoutStart (user : User) (now : ℤ) : World LockoutState LoginAttempt :=
  ⟨⟨user, now, []⟩, fun _ => .idle⟩

/-- Between the read and the write. -/
def LoginAttempt.open : LoginAttempt → Bool
  | .selected _ => true
  | .verifying _ _ => true
  | _ => false

/-- No call reads the row while another one is between its read and its write, and the column does
not overflow. -/
def OneAtATime (w : World LockoutState LoginAttempt) (a : ℕ × LoginAction) : Prop :=
  match a.2 with
  | .select => ∀ q, (w.procs q).open = false
  | .update => w.shared.user.failedLoginAttempts < 2 ^ 31 - 1
  | _ => True

/-- A call that nothing interrupts is `authenticate` with a wrong password. -/
theorem authenticate_eq_solo {τ : Type} {S : AuthService τ} {X : TokenText τ} {e : Call}
    {username : String} {password : τ} {user : User} {hash : String} {failures : List ℤ} {p : ℕ}
    (hfind : (e.db.users.find? fun u => u.username == username && u.isActive) = some user)
    (hlocal : user.authProvider = .local) (hhash : user.passwordHash = some hash)
    (hverify : X.verify password hash = false) (h0 : 0 ≤ user.failedLoginAttempts)
    (hmax : user.failedLoginAttempts < 2 ^ 31 - 1) :
    ∃ err written, S.authenticate X e username password =
        (.error err, updateUser e.db.users user.id written, e.jtis) ∧
      ((loginProtocol S.config.accountLockoutThreshold
          S.config.accountLockoutDurationMinutes).solo p).run
        (⟨user, e.moment.nowMs, failures⟩, .idle) [.select, .takeNow, .update] =
          some (⟨written user, e.moment.nowMs, e.moment.nowMs :: failures⟩, .rejected err) := by
  have hfit : asI32 (user.failedLoginAttempts + 1) = user.failedLoginAttempts + 1 :=
    asI32_of_lt (by omega) (by omega)
  simp only [AuthService.authenticate, hfind, hlocal, hhash, hverify, Bool.not_false, if_true,
    ne_eq, not_true_eq_false, if_false, Protocol.solo, Machine.run, loginProtocol, loginStep, hfit]
  split
  · exact ⟨_, _, rfl, rfl⟩
  · exact ⟨_, _, rfl, rfl⟩

/-- Every failure is counted, and from the `threshold`-th on the account is locked for the duration
from each. -/
structure CountsFailures (threshold : ℕ) (durationMinutes before : ℤ) (s : LockoutState) :
    Prop where
  counted : s.user.failedLoginAttempts = before + s.failures.length
  locked : 0 < threshold → threshold ≤ s.failures.length →
    ∃ lockedUntil, s.user.lockedUntil = some lockedUntil ∧
      ∀ now ∈ s.failures.take (s.failures.length + 1 - threshold),
        now + durationMinutes * 60000 ≤ lockedUntil

/-- What an open call has read is still what the row holds, and no failure is later. -/
def LoginAttempt.Fresh (s : LockoutState) : LoginAttempt → Prop
  | .selected user => user.failedLoginAttempts = s.user.failedLoginAttempts
  | .verifying user now => user.failedLoginAttempts = s.user.failedLoginAttempts ∧
      now ≤ s.now ∧ ∀ t ∈ s.failures, t ≤ now
  | _ => True

/-- The row between two steps of calls that do not overlap. -/
structure OneOpen (threshold : ℕ) (durationMinutes before : ℤ)
    (w : World LockoutState LoginAttempt) : Prop where
  counts : CountsFailures threshold durationMinutes before w.shared
  past : ∀ t ∈ w.shared.failures, t ≤ w.shared.now
  fresh : ∀ p, (w.procs p).Fresh w.shared
  single : ∀ p q, (w.procs p).open = true → (w.procs q).open = true → p = q

variable {threshold : ℕ} {durationMinutes before : ℤ}

theorem asI32_le {n : ℕ} {k : ℤ} (h : (n : ℤ) ≤ k) : asI32 n ≤ k := by
  unfold asI32
  omega

theorem shouldLock_of_le {n now : ℤ} (hpos : 0 < threshold) (h : asI32 threshold ≤ n) :
    shouldLock n threshold durationMinutes now = some (now + durationMinutes * 60000) := by
  simp [shouldLock, hpos.ne', h]

/-- A failure that is written from the row as it is. -/
theorem CountsFailures.update {s : LockoutState} {now : ℤ}
    (h : CountsFailures threshold durationMinutes before s) (h0 : 0 ≤ before)
    (hmax : s.user.failedLoginAttempts < 2 ^ 31 - 1) (hlast : ∀ t ∈ s.failures, t ≤ now) :
    CountsFailures threshold durationMinutes before
      { s with
        user := recordFailure (asI32 (s.user.failedLoginAttempts + 1))
          (shouldLock (asI32 (s.user.failedLoginAttempts + 1)) threshold durationMinutes now) now
          s.user
        failures := now :: s.failures } := by
  have hcount := h.counted
  have hfit : asI32 (s.user.failedLoginAttempts + 1) = s.user.failedLoginAttempts + 1 :=
    asI32_of_lt (by omega) (by omega)
  refine ⟨?_, fun hpos hk => ?_⟩
  · simp only [recordFailure, hfit, List.length_cons]
    push_cast
    omega
  · simp only [List.length_cons] at hk
    have hlock : asI32 threshold ≤ s.user.failedLoginAttempts + 1 :=
      asI32_le (by omega)
    refine ⟨now + durationMinutes * 60000, ?_, fun t ht => ?_⟩
    · simp only [recordFailure, hfit]
      exact shouldLock_of_le hpos hlock
    · have hle : t ≤ now := by
        rcases List.mem_cons.mp (List.mem_of_mem_take ht) with rfl | ht
        · exact le_rfl
        · exact hlast t ht
      omega

theorem not_open_of_ne {w : World LockoutState LoginAttempt} {p q : ℕ}
    (h : ∀ p q, (w.procs p).open = true → (w.procs q).open = true → p = q)
    (hp : (w.procs p).open = true) (hne : q ≠ p) : (w.procs q).open = false :=
  Bool.eq_false_iff.mpr fun hq => hne (h q p hq hp)

theorem LoginAttempt.fresh_of_not_open {l : LoginAttempt} (h : l.open = false)
    (s : LockoutState) : l.Fresh s := by
  cases l with
  | idle => trivial
  | selected => simp [LoginAttempt.open] at h
  | verifying => simp [LoginAttempt.open] at h
  | rejected => trivial

/-- What the four steps of a call can do. -/
theorem loginStep_cases {s s' : LockoutState} {l l' : LoginAttempt} {a : LoginAction}
    (h : loginStep threshold durationMinutes s l a = some (s', l')) :
    (l = .idle ∧ a = .select ∧ s' = s ∧ l' = .selected s.user) ∨
    (∃ user, l = .selected user ∧ a = .takeNow ∧ s' = s ∧ l' = .verifying user s.now) ∨
    (∃ user now, l = .verifying user now ∧ a = .update ∧ l'.open = false ∧
      s' = { s with
        user := recordFailure (asI32 (user.failedLoginAttempts + 1))
          (shouldLock (asI32 (user.failedLoginAttempts + 1)) threshold durationMinutes now) now
          s.user
        failures := now :: s.failures }) ∨
    ∃ ms, a = .tick ms ∧ l' = l ∧ s' = { s with now := s.now + ms } := by
  unfold loginStep at h
  split at h
  · cases h
    exact .inl ⟨rfl, rfl, rfl, rfl⟩
  · cases h
    exact .inr (.inl ⟨_, rfl, rfl, rfl, rfl⟩)
  · cases h
    exact .inr (.inr (.inl ⟨_, _, rfl, rfl, rfl, rfl⟩))
  · cases h
    exact .inr (.inr (.inr ⟨_, rfl, rfl, rfl⟩))
  · cases h

theorem OneOpen.step {w w' : World LockoutState LoginAttempt} {a : ℕ × LoginAction}
    (h : OneOpen threshold durationMinutes before w) (h0 : 0 ≤ before) (hok : OneAtATime w a)
    (hs : (loginProtocol threshold durationMinutes).machine.step w a = some w') :
    OneOpen threshold durationMinutes before w' := by
  obtain ⟨p, a⟩ := a
  obtain ⟨s', l', hr, rfl⟩ := Protocol.machine_step hs
  rcases loginStep_cases hr with ⟨-, rfl, rfl, rfl⟩ | ⟨user, hl, rfl, rfl, rfl⟩ |
    ⟨user, now, hl, rfl, hl', rfl⟩ | ⟨ms, rfl, rfl, rfl⟩
  · have hclosed : ∀ q, (w.procs q).open = false := hok
    refine ⟨h.counts, h.past, fun q => ?_, fun q r hq hr => ?_⟩
    · by_cases hqp : q = p
      · simp [hqp, LoginAttempt.Fresh]
      · simpa only [Function.update_of_ne hqp] using h.fresh q
    · have honly : ∀ q, (Function.update w.procs p (.selected w.shared.user) q).open = true →
          q = p := by
        intro q hq
        by_contra hqp
        simp [Function.update_of_ne hqp, hclosed q] at hq
      rw [honly q hq, honly r hr]
  · have hfresh := h.fresh p
    have hopen : (w.procs p).open = true := by rw [hl]; rfl
    rw [hl] at hfresh
    refine ⟨h.counts, h.past, fun q => ?_, fun q r hq hr => ?_⟩
    · by_cases hqp : q = p
      · simpa [hqp, LoginAttempt.Fresh] using ⟨hfresh, h.past⟩
      · simpa only [Function.update_of_ne hqp] using h.fresh q
    · have honly : ∀ q, (Function.update w.procs p (.verifying user w.shared.now) q).open = true →
          q = p := by
        intro q hq
        by_contra hqp
        rw [Function.update_of_ne hqp] at hq
        exact hqp (h.single q p hq hopen)
      rw [honly q hq, honly r hr]
  · obtain ⟨hcount, hnow, hlast⟩ : (LoginAttempt.verifying user now).Fresh w.shared :=
      hl ▸ h.fresh p
    have hopen : (w.procs p).open = true := by rw [hl]; rfl
    have hclosed : ∀ q, (Function.update w.procs p l' q).open = false := by
      intro q
      by_cases hqp : q = p
      · simp [hqp, hl']
      · rw [Function.update_of_ne hqp]
        exact not_open_of_ne h.single hopen hqp
    refine ⟨?_, ?_, fun q => LoginAttempt.fresh_of_not_open (hclosed q) _, fun q r hq => ?_⟩
    · rw [hcount]
      exact h.counts.update h0 hok hlast
    · intro t ht
      rcases List.mem_cons.mp ht with rfl | ht
      · exact hnow
      · exact h.past t ht
    · simp [hclosed q] at hq
  · have hprocs : Function.update w.procs p (w.procs p) = w.procs := Function.update_eq_self _ _
    simp only [hprocs]
    refine ⟨⟨h.counts.counted, h.counts.locked⟩, fun t ht => ?_, fun q => ?_, h.single⟩
    · have := h.past t ht
      simp only
      omega
    · have hq := h.fresh q
      cases hl : w.procs q with
      | idle => trivial
      | selected user => simpa [hl, LoginAttempt.Fresh] using hq
      | verifying user now =>
        rw [hl] at hq
        obtain ⟨hcount, hnow, hlast⟩ := hq
        exact ⟨hcount, by simp only; omega, hlast⟩
      | rejected err => trivial

/-- Failures that do not overlap are all counted, and lock the account. -/
theorem failures_counted {user : User} {now : ℤ} {w : World LockoutState LoginAttempt}
    (h0 : 0 ≤ user.failedLoginAttempts)
    (h : (loginProtocol threshold durationMinutes).machine.Reach OneAtATime
      (lockoutStart user now) w) :
    CountsFailures threshold durationMinutes user.failedLoginAttempts w.shared := by
  have hI : OneOpen threshold durationMinutes user.failedLoginAttempts w := by
    refine h.invariant ⟨⟨by simp [lockoutStart], fun hpos hk => ?_⟩, ?_, ?_, ?_⟩
      fun s a s' hs hok hstep => hs.step h0 hok hstep
    · simp [lockoutStart] at hk
      omega
    · simp [lockoutStart]
    · exact fun _ => trivial
    · simp [lockoutStart, LoginAttempt.open]
  exact hI.counts

/-- Two guesses that both read the row before either writes it. -/
def parallelGuesses : List (ℕ × LoginAction) :=
  [(0, .select), (1, .select), (0, .takeNow), (1, .takeNow), (0, .update), (1, .update)]

/-- Both have failed, one is counted, and a threshold of two does not lock. -/
theorem parallel_failures_lost : ∃ w,
    (loginProtocol 2 30).machine.Reach Machine.anyStep (lockoutStart ciUser 0) w ∧
      (∀ p, (w.procs p).open = false) ∧ w.shared.failures = [0, 0] ∧
      w.shared.user.failedLoginAttempts ≠ ciUser.failedLoginAttempts + w.shared.failures.length ∧
      w.shared.user.lockedUntil = none := by
  have hreach := fun w h => @Machine.reach_of_run _ _ (loginProtocol 2 30).machine Machine.anyStep
    (lockoutStart ciUser 0) w parallelGuesses h (Machine.meets_anyStep ..)
  refine ⟨_, hreach _ rfl, fun p => ?_, by decide, by decide, by decide⟩
  match p with
  | 0 | 1 | _ + 2 => rfl

/-- The second guess comes after the first has been written. -/
def serialGuesses : List (ℕ × LoginAction) :=
  [(0, .select), (0, .takeNow), (0, .update), (1, .tick 5), (1, .select), (1, .takeNow),
    (1, .update)]

theorem serialGuesses_meets :
    (loginProtocol 2 30).machine.Meets OneAtATime (lockoutStart ciUser 0) serialGuesses := by
  refine ⟨fun q => rfl, trivial, ?_, trivial, fun q => ?_, trivial, ?_, trivial⟩
  · change ciUser.failedLoginAttempts < 2 ^ 31 - 1
    decide
  · match q with
    | 0 | 1 | _ + 2 => rfl
  · change (1 : ℤ) < 2 ^ 31 - 1
    decide

theorem serial_failures_counted : ∃ w,
    (loginProtocol 2 30).machine.Reach OneAtATime (lockoutStart ciUser 0) w ∧
      w.shared.failures = [5, 0] ∧ w.shared.user.lockedUntil = some 1800005 ∧
      CountsFailures 2 30 0 w.shared := by
  have hreach := fun w h => @Machine.reach_of_run _ _ (loginProtocol 2 30).machine OneAtATime
    (lockoutStart ciUser 0) w serialGuesses h serialGuesses_meets
  exact ⟨_, hreach _ rfl, by decide, by decide,
    @failures_counted 2 30 ciUser 0 _ (by decide) (hreach _ rfl)⟩

end ArtifactKeeper.Auth
