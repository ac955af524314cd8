import Mathlib.Data.List.Basic
import Mathlib.Data.Nat.Notation
import Mathlib.Logic.Function.Basic

/-! The fixed-window limiter of the rate-limiting middleware: one counter and one window start per
key, reset by the call that finds its window over. -/

namespace ArtifactKeeper.RateLimit

/-- `RateLimiter` without its map. Instants and durations are in nanoseconds. -/
structure RateLimiter where
  maxRequests : ℕ
  window : ℕ
  deriving DecidableEq, Repr

def nanosPerSec : ℕ := 1000000000

/-- `RateLimiter::new`. -/
def RateLimiter.new (maxRequests windowSecs : ℕ) : RateLimiter :=
  ⟨maxRequests, windowSecs * nanosPerSec⟩

/-- The request count of a key and the start of its window. -/
structure Entry where
  count : ℕ
  start : ℕ
  deriving DecidableEq, Repr

/-- The `requests` map. -/
abbrev Requests := String → Option Entry

/-- `Ok(remaining)` or `Err(retry_after_secs)`. -/
abbrev Answer := Except ℕ ℕ

namespace RateLimiter
variable (l : RateLimiter)

/-- `check_rate_limit` on the entry of its key. `duration_since` saturates at zero. -/
def checkEntry (entry : Option Entry) (now : ℕ) : Entry × Answer :=
  let entry := entry.getD ⟨0, now⟩
  if l.window ≤ now - entry.start then
    (⟨1, now⟩, .ok (l.maxRequests - 1))
  else if l.maxRequests ≤ entry.count then
    let retryAfter := l.window / nanosPerSec - (now - entry.start) / nanosPerSec
    (entry, .error (max retryAfter 1))
  else
    (⟨entry.count + 1, entry.start⟩, .ok (l.maxRequests - (entry.count + 1)))

def checkRateLimit (requests : Requests) (key : String) (now : ℕ) : Requests × Answer :=
  let (entry, answer) := l.checkEntry (requests key) now
  (Function.update requests key (some entry), answer)

/-- The window of the entry is still open at `now`. -/
def isOpen (now : ℕ) (entry : Entry) : Bool := decide (now - entry.start < l.window)

def cleanupExpired (requests : Requests) (now : ℕ) : Requests :=
  fun key => (requests key).filter (l.isOpen now)

end RateLimiter

/-- A call on the limiter and the instant it reads. -/
inductive Op where
  | check (key : String) (now : ℕ)
  | cleanup (now : ℕ)
  deriving DecidableEq, Repr

namespace Op

def now : Op → ℕ
  | check _ now => now
  | cleanup now => now

def isCheck : Op → Bool
  | check _ _ => true
  | cleanup _ => false

/-- The call asks about another key. -/
def asksOther (key : String) : Op → Bool
  | check key' _ => decide (key' ≠ key)
  | cleanup _ => false

end Op

/-- A finished `check_rate_limit` call: `reset` tells that the window of its key starts with it. -/
structure Checked where
  key : String
  now : ℕ
  reset : Bool
  answer : Answer
  deriving DecidableEq, Repr

def Checked.isOk (c : Checked) : Bool := c.answer.isOk

namespace RateLimiter
variable (l : RateLimiter)

/-- The window of a key starts anew with the call. -/
def resets (entry : Option Entry) (now : ℕ) : Bool := !entry.any (l.isOpen now)

/-- The `check_rate_limit` calls of a sequence with their answers. -/
def checks (requests : Requests) : List Op → List Checked
  | [] => []
  | .check key now :: rest =>
    let (requests', answer) := l.checkRateLimit requests key now
    ⟨key, now, l.resets (requests key) now, answer⟩ :: checks requests' rest
  | .cleanup now :: rest => checks (l.cleanupExpired requests now) rest

/-- The calls on one key, from an empty map. -/
def checksOn (key : String) (ops : List Op) : List Checked :=
  (l.checks (fun _ => none) ops).filter fun c => c.key == key

/-- What the limiter is for. -/
structure Limits : Prop where
  /-- From one reset of a key's window up to the next at most `max_requests` calls pass. -/
  perWindow : ∀ (ops : List Op) (key : String) (calls : List Checked),
    (ops.map Op.now).Pairwise (· ≤ ·) → calls <:+: l.checksOn key ops →
    (∀ c ∈ calls.tail, c.reset = false) → calls.countP Checked.isOk ≤ l.maxRequests
  /-- Twice as many pass within any stretch of time as long as the window. -/
  perInterval : ∀ (ops : List Op) (key : String) (t : ℕ), (ops.map Op.now).Pairwise (· ≤ ·) →
    ((l.checksOn key ops).countP fun c => c.isOk && decide (t ≤ c.now ∧ c.now ≤ t + l.window)) ≤
      2 * l.maxRequests
  /-- Calls on other keys have no part in the answers for a key. -/
  perKey : ∀ (ops : List Op) (key : String), (ops.map Op.now).Pairwise (· ≤ ·) →
    (l.checksOn key (ops.filter fun op => !op.asksOther key)).map Checked.answer =
      (l.checksOn key ops).map Checked.answer
  /-- Nor have cleanups in any answer. -/
  cleanup : ∀ ops ops' : List Op, (ops.map Op.now).Pairwise (· ≤ ·) →
    (ops'.map Op.now).Pairwise (· ≤ ·) → ops.filter Op.isCheck = ops'.filter Op.isCheck →
    (l.checks (fun _ => none) ops).map Checked.answer =
      (l.checks (fun _ => none) ops').map Checked.answer

/-- The instants at which a sequence asks about the key. -/
def instantsOf (key : String) (ops : List Op) : List ℕ :=
  ops.filterMap fun
    | .check key' now => if key' = key then some now else none
    | .cleanup _ => none

/-- One key alone: the calls at the given instants, with no map and no cleanup. -/
def windowCalls (key : String) (entry : Option Entry) : List ℕ → List Checked
  | [] => []
  | now :: rest =>
    ⟨key, now, l.resets entry now, (l.checkEntry entry now).2⟩ ::
      windowCalls key (some (l.checkEntry entry now).1) rest

section Step
variable {l} {entry : Option Entry} {now now' : ℕ}

theorem checkEntry_of_reset (hm : 1 ≤ l.maxRequests) (hw : 0 < l.window)
    (h : l.resets entry now = true) :
    l.checkEntry entry now = (⟨1, now⟩, .ok (l.maxRequests - 1)) := by
  cases entry with
  | none =>
    have hopen : ¬ l.window ≤ 0 := by omega
    have hroom : l.maxRequests ≠ 0 := by omega
    simp [checkEntry, hopen, hroom]
  | some e =>
    have hover : l.window ≤ now - e.start := by simpa [resets, isOpen] using h
    simp [checkEntry, hover]

/-- What a call does to its key: it starts a window, it is counted in the open one, or the open one
is full. -/
theorem checkEntry_cases (hm : 1 ≤ l.maxRequests) (hw : 0 < l.window) :
    (l.resets entry now = true ∧ (∀ e, entry = some e → l.window ≤ now - e.start) ∧
      l.checkEntry entry now = (⟨1, now⟩, .ok (l.maxRequests - 1))) ∨
    ∃ e, entry = some e ∧ l.resets entry now = false ∧ now - e.start < l.window ∧
      ((e.count < l.maxRequests ∧ ∃ left,
          l.checkEntry entry now = (⟨e.count + 1, e.start⟩, .ok left)) ∨
        (l.maxRequests ≤ e.count ∧ ∃ wait, l.checkEntry entry now = (e, .error wait))) := by
  cases hreset : l.resets entry now with
  | true =>
    refine .inl ⟨rfl, ?_, checkEntry_of_reset hm hw hreset⟩
    rintro e rfl
    simpa [resets, isOpen] using hreset
  | false =>
    right
    cases entry with
    | none => simp [resets] at hreset
    | some e =>
      have hopen : now - e.start < l.window := by simpa [resets, isOpen] using hreset
      have hnot : ¬ l.window ≤ now - e.start := by omega
      refine ⟨e, rfl, rfl, hopen, ?_⟩
      by_cases hfull : l.maxRequests ≤ e.count
      · exact .inr ⟨hfull, by simp [checkEntry, hnot, hfull]⟩
      · exact .inl ⟨by omega, by simp [checkEntry, hnot, hfull]⟩

/-- A call sees an expired entry as it sees none. -/
theorem checkEntry_filter (hm : 1 ≤ l.maxRequests) (hw : 0 < l.window) :
    l.checkEntry (entry.filter (l.isOpen now)) now = l.checkEntry entry now := by
  cases entry with
  | none => rfl
  | some e =>
    cases hopen : l.isOpen now e with
    | true => rw [Option.filter_some_pos hopen]
    | false =>
      have hreset : l.resets (some e) now = true := by simp [resets, hopen]
      rw [Option.filter_some_neg (by simp [hopen]), checkEntry_of_reset hm hw hreset]
      exact checkEntry_of_reset hm hw rfl

theorem resets_filter : l.resets (entry.filter (l.isOpen now)) now = l.resets entry now := by
  cases entry with
  | none => rfl
  | some e => cases hopen : l.isOpen now e <;> simp [resets, Option.filter, hopen]

/-- A window that is open later was open before. -/
theorem filter_isOpen_filter (h : now ≤ now') :
    (entry.filter (l.isOpen now)).filter (l.isOpen now') = entry.filter (l.isOpen now') := by
  cases entry with
  | none => rfl
  | some e =>
    cases hopen : l.isOpen now e with
    | true => rw [Option.filter_some_pos hopen]
    | false =>
      have hlater : l.isOpen now' e = false := by
        simp only [isOpen, decide_eq_false_iff_not] at hopen ⊢
        omega
      simp [Option.filter, hopen, hlater]

/-- Entries that are the same while open stay so. -/
theorem filter_isOpen_congr {entry' : Option Entry} (h : now ≤ now')
    (he : entry.filter (l.isOpen now) = entry'.filter (l.isOpen now)) :
    entry.filter (l.isOpen now') = entry'.filter (l.isOpen now') := by
  rw [← filter_isOpen_filter h, he, filter_isOpen_filter h]

theorem checkEntry_congr (hm : 1 ≤ l.maxRequests) (hw : 0 < l.window) {entry' : Option Entry}
    (he : entry.filter (l.isOpen now) = entry'.filter (l.isOpen now)) :
    l.checkEntry entry now = l.checkEntry entry' now ∧
      l.resets entry now = l.resets entry' now := by
  rw [← checkEntry_filter hm hw, he, checkEntry_filter hm hw]
  rw [← resets_filter, he, resets_filter]
  exact ⟨rfl, rfl⟩

end Step

section Run
variable {l} (hm : 1 ≤ l.maxRequests) (hw : 0 < l.window)
include hm hw

/-- The calls on a key are those of the key alone: neither the other keys nor the cleanups between
them show, as long as the two sides agree on the entry while its window is open. -/
theorem filter_checks_eq_windowCalls {key : String} {requests : Requests} {entry : Option Entry}
    {n : ℕ} {ops : List Op} (hsorted : (n :: ops.map Op.now).Pairwise (· ≤ ·))
    (he : (requests key).filter (l.isOpen n) = entry.filter (l.isOpen n)) :
    ((l.checks requests ops).filter fun c => c.key == key) =
      l.windowCalls key entry (instantsOf key ops) := by
  induction ops generalizing requests entry n with
  | nil => rfl
  | cons op ops ih =>
    obtain ⟨hle, hrest⟩ := List.pairwise_cons.mp hsorted
    have hn : n ≤ op.now := hle _ List.mem_cons_self
    have hnow := filter_isOpen_congr hn he
    cases op with
    | check key' now =>
      by_cases hkey : key' = key
      · subst hkey
        obtain ⟨hcheck, hreset⟩ := checkEntry_congr hm hw hnow
        simp only [Op.now] at hcheck hreset
        have hupdate : (Function.update requests key' (some (l.checkEntry entry now).1) key').filter
            (l.isOpen now) = (some (l.checkEntry entry now).1).filter (l.isOpen now) := by
          rw [Function.update_self]
        have htail := ih hrest hupdate
        simp [checks, checkRateLimit, instantsOf, windowCalls, hcheck, hreset] at htail ⊢
        exact htail
      · have hkeep : (l.checkRateLimit requests key' now).1 key = requests key := by
          simp [checkRateLimit, Function.update_of_ne (Ne.symm hkey)]
        have htail := ih hrest (hkeep ▸ hnow)
        simpa [checks, instantsOf, hkey] using htail
    | cleanup now =>
      have hclean : (l.cleanupExpired requests now key).filter (l.isOpen now) =
          entry.filter (l.isOpen now) := by
        rw [cleanupExpired, filter_isOpen_filter (Nat.le_refl now)]
        exact hnow
      simpa [checks, instantsOf] using ih hrest hclean

theorem checksOn_eq_windowCalls {key : String} {ops : List Op}
    (hsorted : (ops.map Op.now).Pairwise (· ≤ ·)) :
    l.checksOn key ops = l.windowCalls key none (instantsOf key ops) := by
  apply filter_checks_eq_windowCalls hm hw (n := 0) _ rfl
  exact List.pairwise_cons.mpr ⟨fun _ _ => Nat.zero_le _, hsorted⟩

/-- A sequence answers as it does without its cleanups. -/
theorem checks_filter_isCheck {requests requests' : Requests} {n : ℕ} {ops : List Op}
    (hsorted : (n :: ops.map Op.now).Pairwise (· ≤ ·))
    (he : ∀ key, (requests key).filter (l.isOpen n) = (requests' key).filter (l.isOpen n)) :
    l.checks requests ops = l.checks requests' (ops.filter Op.isCheck) := by
  induction ops generalizing requests requests' n with
  | nil => rfl
  | cons op ops ih =>
    obtain ⟨hle, hrest⟩ := List.pairwise_cons.mp hsorted
    have hn : n ≤ op.now := hle _ List.mem_cons_self
    have hnow := fun key => filter_isOpen_congr hn (he key)
    cases op with
    | check key now =>
      obtain ⟨hcheck, hreset⟩ := checkEntry_congr hm hw (hnow key)
      simp only [Op.now] at hcheck hreset hnow
      have hupdate : ∀ key', ((l.checkRateLimit requests key now).1 key').filter (l.isOpen now) =
          ((l.checkRateLimit requests' key now).1 key').filter (l.isOpen now) := by
        intro key'
        by_cases hkey : key' = key
        · subst hkey
          simp [checkRateLimit, hcheck]
        · simp only [checkRateLimit, Function.update_of_ne hkey]
          exact hnow key'
      have htail := ih hrest hupdate
      simp only [checks, List.filter_cons, Op.isCheck, if_true, checkRateLimit, hcheck,
        hreset] at htail ⊢
      rw [htail]
    | cleanup now =>
      have hclean : ∀ key, (l.cleanupExpired requests now key).filter (l.isOpen now) =
          (requests' key).filter (l.isOpen now) := by
        intro key
        rw [cleanupExpired, filter_isOpen_filter (Nat.le_refl now)]
        exact hnow key
      simpa [checks, List.filter_cons, Op.isCheck] using ih hrest hclean

/-- How many calls the open window of an entry has left. -/
def room (l : RateLimiter) (entry : Option Entry) : ℕ :=
  (entry.map fun e => l.maxRequests - e.count).getD 0

omit hm hw in
theorem windowCalls_now_mem {key : String} {entry : Option Entry} {times : List ℕ} {c : Checked}
    (h : c ∈ l.windowCalls key entry times) : c.now ∈ times := by
  induction times generalizing entry with
  | nil => cases h
  | cons now rest ih =>
    rcases List.mem_cons.mp h with rfl | h
    · exact List.mem_cons_self
    · exact List.mem_cons_of_mem _ (ih h)

/-- Until the next reset no more calls pass than the open window has left. -/
theorem countP_isOk_le_room {key : String} {entry : Option Entry} {times : List ℕ}
    {calls : List Checked} (hpre : calls <+: l.windowCalls key entry times)
    (hreset : ∀ c ∈ calls, c.reset = false) : calls.countP Checked.isOk ≤ l.room entry := by
  induction times generalizing entry calls with
  | nil =>
    rw [List.prefix_nil.mp hpre]
    exact Nat.zero_le _
  | cons now rest ih =>
    cases calls with
    | nil => exact Nat.zero_le _
    | cons c calls =>
      obtain ⟨hc, hpre⟩ := List.cons_prefix_cons.mp hpre
      have hopen : l.resets entry now = false := by simpa [hc] using hreset c List.mem_cons_self
      have hlater := ih hpre fun d hd => hreset d (List.mem_cons_of_mem c hd)
      rcases @checkEntry_cases l entry now hm hw with
        ⟨h, -⟩ | ⟨e, rfl, -, -, ⟨hfree, left, he⟩ | ⟨hfull, wait, he⟩⟩
      · rw [hopen] at h
        cases h
      · simp only [he, room, Option.map_some, Option.getD_some] at hlater ⊢
        have hok : c.isOk = true := by simp [hc, Checked.isOk, he, Except.isOk, Except.toBool]
        rw [List.countP_cons_of_pos hok]
        omega
      · simp only [he, room, Option.map_some, Option.getD_some] at hlater ⊢
        have hok : ¬ c.isOk = true := by simp [hc, Checked.isOk, he, Except.isOk, Except.toBool]
        rw [List.countP_cons_of_neg hok]
        exact hlater

theorem room_checkEntry {entry : Option Entry} {now : ℕ} :
    l.room (some (l.checkEntry entry now).1) + (if (l.checkEntry entry now).2.isOk then 1 else 0) ≤
      l.maxRequests := by
  rcases @checkEntry_cases l entry now hm hw with
    ⟨-, -, he⟩ | ⟨e, -, -, -, ⟨hfree, left, he⟩ | ⟨hfull, wait, he⟩⟩ <;>
    simp [he, room, Except.isOk, Except.toBool] <;> omega

theorem countP_isOk_window {key : String} {entry : Option Entry} {times : List ℕ}
    {calls : List Checked} (hcalls : calls <:+: l.windowCalls key entry times)
    (hreset : ∀ c ∈ calls.tail, c.reset = false) :
    calls.countP Checked.isOk ≤ l.maxRequests := by
  induction times generalizing entry with
  | nil =>
    rw [List.infix_nil.mp hcalls]
    exact Nat.zero_le _
  | cons now rest ih =>
    rcases List.infix_cons_iff.mp hcalls with hpre | hin
    · cases calls with
      | nil => exact Nat.zero_le _
      | cons c calls =>
        obtain ⟨hc, hpre⟩ := List.cons_prefix_cons.mp hpre
        have hlater := countP_isOk_le_room hm hw hpre hreset
        have hroom := @room_checkEntry l hm hw entry now
        have hok : c.isOk = (l.checkEntry entry now).2.isOk := by rw [hc, Checked.isOk]
        rw [List.countP_cons, hok]
        omega
    · exact ih hin

/-- Passes that are left up to the instant `t + window`, for a key whose entry is the given one:
those of the open window and those of the one that follows, if they start early enough. -/
def passesLeft (l : RateLimiter) (t : ℕ) : Option Entry → ℕ
  | none => 2 * l.maxRequests
  | some e =>
    if t < e.start then l.maxRequests - e.count
    else if t < e.start + l.window then l.maxRequests - e.count + l.maxRequests
    else 2 * l.maxRequests

theorem countP_isOk_interval {key : String} {t : ℕ} {entry : Option Entry} {times : List ℕ}
    (hsorted : times.Pairwise (· ≤ ·)) :
    ((l.windowCalls key entry times).countP fun c =>
      c.isOk && decide (t ≤ c.now ∧ c.now ≤ t + l.window)) ≤ l.passesLeft t entry := by
  induction times generalizing entry with
  | nil => exact Nat.zero_le _
  | cons now rest ih =>
    obtain ⟨hle, hrest⟩ := List.pairwise_cons.mp hsorted
    have hlater := @ih (some (l.checkEntry entry now).1) hrest
    -- past the interval nothing counts
    have hpast : t + l.window < now → ((l.windowCalls key (some (l.checkEntry entry now).1)
        rest).countP fun c => c.isOk && decide (t ≤ c.now ∧ c.now ≤ t + l.window)) = 0 := by
      intro hlt
      apply List.countP_eq_zero.mpr
      intro c hc
      have hnow := hle _ (windowCalls_now_mem hc)
      have hout : ¬ c.now ≤ t + l.window := by omega
      simp [hout]
    rw [windowCalls, List.countP_cons]
    rcases @checkEntry_cases l entry now hm hw with
      ⟨-, hover, he⟩ | ⟨e, rfl, -, hopen, ⟨hfree, left, he⟩ | ⟨hfull, wait, he⟩⟩
    · simp only [he, Checked.isOk, Except.isOk, Except.toBool, Bool.true_and, passesLeft,
        decide_eq_true_eq] at hlater hpast ⊢
      -- a window that starts inside the interval leaves one more for the rest of it
      cases entry with
      | none => grind
      | some e =>
        have hstart := hover e rfl
        simp only []
        grind
    · simp only [he, Checked.isOk, Except.isOk, Except.toBool, Bool.true_and, passesLeft,
        decide_eq_true_eq] at hlater hpast ⊢
      grind
    · simp only [he, Checked.isOk, Except.isOk, Except.toBool, Bool.false_and, passesLeft] at *
      grind

omit hm hw in
theorem instantsOf_sorted {key : String} {ops : List Op}
    (hsorted : (ops.map Op.now).Pairwise (· ≤ ·)) : (instantsOf key ops).Pairwise (· ≤ ·) := by
  apply List.Pairwise.sublist _ hsorted
  induction ops with
  | nil => exact List.Sublist.slnil
  | cons op ops ih =>
    have ih := ih hsorted.tail
    cases op with
    | check key' now =>
      by_cases hkey : key' = key
      · simpa [instantsOf, Op.now, hkey] using ih
      · simpa [instantsOf, Op.now, hkey] using ih.cons now
    | cleanup now => simpa [instantsOf, Op.now] using ih.cons now

omit hm hw in
theorem instantsOf_filter_asksOther (key : String) (ops : List Op) :
    instantsOf key (ops.filter fun op => !op.asksOther key) = instantsOf key ops := by
  induction ops with
  | nil => rfl
  | cons op ops ih =>
    cases op with
    | check key' now =>
      by_cases hkey : key' = key <;> simp_all [instantsOf, Op.asksOther]
    | cleanup now => simp_all [instantsOf, Op.asksOther]

theorem limits_of_pos : l.Limits where
  perWindow ops key calls hsorted hcalls hreset := by
    rw [checksOn_eq_windowCalls hm hw hsorted] at hcalls
    exact countP_isOk_window hm hw hcalls hreset
  perInterval ops key t hsorted := by
    rw [checksOn_eq_windowCalls hm hw hsorted]
    exact countP_isOk_interval hm hw (instantsOf_sorted hsorted)
  perKey ops key hsorted := by
    have hfilter := hsorted.sublist (List.Sublist.map Op.now (List.filter_sublist
      (p := fun op => !op.asksOther key)))
    rw [checksOn_eq_windowCalls hm hw hsorted, checksOn_eq_windowCalls hm hw hfilter,
      instantsOf_filter_asksOther]
  cleanup ops ops' hsorted hsorted' hfilter := by
    have hzero : ∀ ops : List Op, (ops.map Op.now).Pairwise (· ≤ ·) →
        l.checks (fun _ => none) ops = l.checks (fun _ => none) (ops.filter Op.isCheck) :=
      fun ops h => checks_filter_isCheck hm hw (n := 0)
        (List.pairwise_cons.mpr ⟨fun _ _ => Nat.zero_le _, h⟩) fun _ => rfl
    rw [hzero ops hsorted, hzero ops' hsorted', hfilter]

end Run

/-- Two calls on one key, the second when the window of the first is over. -/
def atWindowEnd (l : RateLimiter) : List Op := [.check "ip" 0, .check "ip" l.window]

/-- A limit of zero: a call on a new key is refused, but one that resets the window passes. -/
theorem not_limits_of_zero {l : RateLimiter} (hm : l.maxRequests = 0) (hw : 0 < l.window) :
    ¬ l.Limits := by
  intro h
  have hopen : ¬ l.window ≤ 0 := by omega
  have hcalls : l.checksOn "ip" l.atWindowEnd =
      [⟨"ip", 0, true, .error (max (l.window / nanosPerSec) 1)⟩] ++
        [⟨"ip", l.window, true, .ok 0⟩] := by
    simp [checksOn, atWindowEnd, checks, checkRateLimit, checkEntry, resets, isOpen, hm, hopen]
  have hbound := h.perWindow l.atWindowEnd "ip" [⟨"ip", l.window, true, .ok 0⟩]
    (by simp [atWindowEnd, Op.now]) (hcalls ▸ (List.suffix_append _ _).isInfix) (by simp)
  rw [hm] at hbound
  simp [Checked.isOk, Except.isOk, Except.toBool] at hbound

/-- The limiter keeps to its limit exactly when the limit is not zero. -/
theorem limits_iff (l : RateLimiter) (hw : 0 < l.window) : l.Limits ↔ 1 ≤ l.maxRequests := by
  constructor
  · intro h
    by_contra hzero
    exact not_limits_of_zero (by omega) hw h
  · intro hm
    exact limits_of_pos hm hw

theorem limits_iff_hundred_per_minute :
    0 < (new 100 60).window ∧ ((new 100 60).Limits ↔ 1 ≤ (new 100 60).maxRequests) :=
  ⟨by decide, limits_iff (new 100 60) (by decide)⟩

/-- With a limit of 0 per minute the second of two calls a minute apart passes. -/
theorem zero_limit_passes : ¬ (new 0 60).Limits :=
  fun h => absurd (h.perWindow (new 0 60).atWindowEnd "ip" [⟨"ip", 60000000000, true, .ok 0⟩]
    (by decide) ⟨[⟨"ip", 0, true, .error 60⟩], [], by decide +kernel⟩ (by decide)) (by decide)

end RateLimiter

end ArtifactKeeper.RateLimit
