import ArtifactKeeper.Machine
import Mathlib.Algebra.Order.Ring.Int
import Mathlib.Data.List.Nodup
import Mathlib.Data.List.Sort
import Mathlib.Order.Nat

/-! The retry queue of webhook deliveries: the tables, the ticks of `process_webhook_retries` in the
replicas and the calls beside them. A statement is sent with the `NOW()` of its transaction and
executed not before it; it may fail, and its answer may be lost. Times are in milliseconds. -/

namespace ArtifactKeeper.Webhooks

/-- The number of the claim statement with the row: tokens are drawn without repetition. -/
abbrev Token := ℕ × ℕ

/-- A row of `webhook_deliveries`. A row that was deleted stays, and no statement sees it. -/
structure DeliveryRow where
  id : ℕ
  webhookId : ℕ
  event : String
  payload : String
  success : Bool
  attempts : ℕ
  maxAttempts : ℕ
  responseStatus : Option ℕ
  responseBody : Option String
  deliveredAt : Option ℤ
  nextRetryAt : Option ℤ
  claimedBy : Option String
  claimToken : Option Token
  claimExpiresAt : Option ℤ
  deleted : Bool
  deriving DecidableEq, Repr

structure RetryDeliveryRow where
  id : ℕ
  webhookId : ℕ
  event : String
  payload : String
  attempts : ℕ
  maxAttempts : ℕ
  deriving DecidableEq, Repr

/-- `Claimed<RetryDeliveryRow>`. -/
structure Claimed where
  row : RetryDeliveryRow
  claimToken : Token
  claimedBy : String
  claimExpiresAt : ℤ
  deriving DecidableEq, Repr

structure Webhook where
  id : ℕ
  url : String
  eventSchemaVersion : String
  isEnabled : Bool
  disabledReason : Option String
  deriving DecidableEq, Repr

/-- A request that left: what its headers and its body have of the delivery, and the claim under
which it was sent. -/
structure Post where
  url : String
  deliveryId : ℕ
  event : String
  eventVersion : String
  retryAttempt : Option ℕ
  body : String
  claimToken : Option Token
  deriving DecidableEq, Repr

/-- `claims` counts the claim statements. -/
structure Hub where
  deliveries : List DeliveryRow
  webhooks : List Webhook
  claims : ℕ
  now : ℤ
  posts : List Post
  deriving DecidableEq, Repr

def webhookRetryClaimTtl : ℤ := 120000

def claimBatch : ℕ := 50

/-! ### The schedule of retries -/

def baseDelaySecs : ℕ → ℤ
  | 1 => 30
  | 2 => 60
  | 3 => 120
  | 4 => 300
  | 5 => 600
  | 6 => 1800
  | 7 => 3600
  | 8 => 7200
  | 9 => 14400
  | 10 => 28800
  | 11 => 57600
  | _ => 86400

/-- `seed as i64`. -/
def asI64 (seed : ℕ) : ℤ := if seed < 2 ^ 63 then seed else seed - 2 ^ 64

def applyJitter (base : ℤ) (seed : ℕ) : ℤ :=
  if seed = 0 then base
  else
    let span := max (base / 5) 1
    let mag := asI64 seed % span
    let delta := if seed % 2 = 0 then mag else -mag
    max (base + delta) 1

def deterministicJitterSeed (nanos attempt : ℕ) : ℕ :=
  (nanos + attempt) % 2 ^ 64 * 2654435761 % 2 ^ 64

def webhookRetryDelaySecs (nanos attempt : ℕ) : ℤ :=
  applyJitter (baseDelaySecs attempt) (deterministicJitterSeed nanos attempt)

inductive RetryOutcome where
  | success
  | deadLetter
  | retry (delaySecs : ℤ)
  deriving DecidableEq, Repr

def determineRetryOutcome (nanos : ℕ) (success : Bool) (currentAttempts maxAttempts : ℕ) :
    RetryOutcome :=
  let newAttempts := currentAttempts + 1
  if success then .success
  else if maxAttempts ≤ newAttempts then .deadLetter
  else .retry (webhookRetryDelaySecs nanos newAttempts)

/-- No answer has no status. -/
def isWebhookDeliverySuccess : Option ℕ → Bool
  | some status => 200 ≤ status && status < 300
  | none => false

/-! ### The statements -/

def DeliveryRow.claimable (row : DeliveryRow) (start : ℤ) : Bool :=
  !row.deleted && !row.success && row.nextRetryAt.any (· ≤ start) &&
    row.attempts < row.maxAttempts && row.claimExpiresAt.all (· ≤ start)

/-- The rows that other transactions have locked are skipped. -/
def Hub.candidates (s : Hub) (start : ℤ) (locked : List ℕ) : List DeliveryRow :=
  let due := s.deliveries.filter fun row => row.claimable start && !locked.contains row.id
  (due.insertionSort fun a b => a.nextRetryAt.getD 0 ≤ b.nextRetryAt.getD 0).take claimBatch

def DeliveryRow.claimed (row : DeliveryRow) (claims : ℕ) (claimedBy : String) (expiresAt : ℤ) :
    DeliveryRow :=
  { row with
    claimedBy := some claimedBy
    claimToken := some (claims, row.id)
    claimExpiresAt := some expiresAt }

def DeliveryRow.returning (row : DeliveryRow) (claims : ℕ) (claimedBy : String) (expiresAt : ℤ) :
    Claimed :=
  ⟨⟨row.id, row.webhookId, row.event, row.payload, row.attempts, row.maxAttempts⟩,
    (claims, row.id), claimedBy, expiresAt⟩

def claimDueWebhookDeliveries (s : Hub) (start : ℤ) (locked : List ℕ) (claimedBy : String) :
    Hub × List Claimed :=
  let rows := s.candidates start locked
  let expiresAt := start + webhookRetryClaimTtl
  ({ s with
      deliveries := s.deliveries.map fun row =>
        if row.id ∈ rows.map (·.id) then row.claimed s.claims claimedBy expiresAt else row
      claims := s.claims + 1 },
    rows.map fun row => row.returning s.claims claimedBy expiresAt)

def DeliveryRow.heldBy (row : DeliveryRow) (d : Claimed) : Bool :=
  !row.deleted && row.id = d.row.id && row.claimToken = some d.claimToken

/-- `UPDATE … WHERE id = … AND claim_token = …`, with whether a row was there. -/
def Hub.updateClaimed (s : Hub) (d : Claimed) (set : DeliveryRow → DeliveryRow) : Hub × Bool :=
  ({ s with deliveries := s.deliveries.map fun row => if row.heldBy d then set row else row },
    s.deliveries.any (·.heldBy d))

def DeliveryRow.extended (expiresAt : ℤ) (row : DeliveryRow) : DeliveryRow :=
  { row with claimExpiresAt := some expiresAt }

def DeliveryRow.released (row : DeliveryRow) : DeliveryRow :=
  { row with claimedBy := none, claimToken := none, claimExpiresAt := none }

def DeliveryRow.deadLettered (row : DeliveryRow) : DeliveryRow :=
  { row.released with nextRetryAt := none }

/-- The three updates that record an attempt. -/
def DeliveryRow.recorded (d : Claimed) (outcome : RetryOutcome) (status : Option ℕ)
    (body : Option String) (start : ℤ) (row : DeliveryRow) : DeliveryRow :=
  let row := { row.released with
    responseStatus := status
    responseBody := body
    attempts := d.row.attempts + 1 }
  match outcome with
  | .success => { row with success := true, deliveredAt := some start, nextRetryAt := none }
  | .deadLetter => { row with nextRetryAt := none }
  | .retry delaySecs => { row with nextRetryAt := some (start + delaySecs * 1000) }

def formatDisabledReason (lastDeliveryId : ℕ) : String :=
  "Auto-disabled after dead-letter (delivery " ++ toString lastDeliveryId ++ ")"

def Hub.autoDisableWebhookForDeadLetter (s : Hub) (webhookId lastDeliveryId : ℕ) : Hub :=
  { s with webhooks := s.webhooks.map fun webhook =>
      if webhook.id = webhookId ∧ webhook.isEnabled then
        { webhook with
          isEnabled := false
          disabledReason := webhook.disabledReason <|> some (formatDisabledReason lastDeliveryId) }
      else webhook }

/-- The update of `redeliver`, which does not ask for the claim. -/
def DeliveryRow.redelivered (success : Bool) (status : Option ℕ) (body : Option String)
    (start : ℤ) (row : DeliveryRow) : DeliveryRow :=
  { row with
    responseStatus := status
    responseBody := body
    success := success
    attempts := row.attempts + 1
    deliveredAt := if success then some start else row.deliveredAt }

def Hub.redeliverUpdate (s : Hub) (id : ℕ) (set : DeliveryRow → DeliveryRow) : Hub :=
  { s with deliveries := s.deliveries.map fun row =>
      if row.id = id ∧ !row.deleted then set row else row }

/-- `DELETE FROM webhooks`, which takes the deliveries along. -/
def Hub.deleteWebhook (s : Hub) (id : ℕ) : Hub :=
  { s with
    webhooks := s.webhooks.filter (·.id ≠ id)
    deliveries := s.deliveries.map fun row =>
      if row.webhookId = id then { row with deleted := true } else row }

def Hub.setWebhookEnabled (s : Hub) (id : ℕ) (enabled : Bool) : Hub :=
  { s with webhooks := s.webhooks.map fun webhook =>
      if webhook.id = id then { webhook with isEnabled := enabled } else webhook }

/-- A row of the batch that `enqueue_for_event` inserts. -/
def DeliveryRow.queued (id webhookId : ℕ) (event payload : String) (start : ℤ) : DeliveryRow :=
  ⟨id, webhookId, event, payload, false, 0, 12, none, none, none, some start, none, none, none,
    false⟩

/-! ### The protocol -/

inductive Outcome where
  | done
  | unanswered
  | failed
  deriving DecidableEq, Repr

/-- How a statement changes the tables, and what its caller knows of it. -/
def Outcome.apply {α : Type} (o : Outcome) (s : Hub) (r : Hub × α) : Hub × Option α :=
  match o with
  | .done => (r.1, some r.2)
  | .unanswered => (r.1, none)
  | .failed => (s, none)

/-- A tick of the processor or a call of `redeliver`. From its extension on a tick has the end of
the claim that it extended, which the code does not keep. -/
inductive Worker where
  | idle
  | processing (batch : List Claimed)
  | discarding (d : Claimed) (rest : List Claimed)
  | found (d : Claimed) (url : String) (rest : List Claimed)
  | ready (d : Claimed) (url version : String) (rest : List Claimed)
  | extended (d : Claimed) (url version : String) (expiresAt : ℤ) (rest : List Claimed)
  | sent (d : Claimed) (expiresAt : ℤ) (rest : List Claimed)
  | answered (d : Claimed) (expiresAt : ℤ) (status : Option ℕ) (body : Option String)
      (rest : List Claimed)
  | disabling (d : Claimed) (rest : List Claimed)
  | redelivering (row : RetryDeliveryRow) (url version : String)
  | resent (row : RetryDeliveryRow)
  | reanswered (row : RetryDeliveryRow) (status : Option ℕ) (body : Option String)
  deriving DecidableEq, Repr

inductive Label where
  | claim (start : ℤ) (locked : List ℕ) (o : Outcome)
  | lookup
  | discard (o : Outcome)
  | version
  | extend (start : ℤ) (o : Outcome)
  | post
  | answer (status : Option ℕ) (body : Option String)
  | record (start : ℤ) (nanos : ℕ) (o : Outcome)
  | disable (o : Outcome)
  /-- The batch is at its end, a read fails, or the process dies. -/
  | abort
  | redeliver (id : ℕ)
  | redeliverUpdate (start : ℤ) (o : Outcome)
  | createWebhook (webhook : Webhook)
  | setWebhookEnabled (id : ℕ) (enabled : Bool)
  | deleteWebhook (id : ℕ)
  | enqueue (id webhookId : ℕ) (event payload : String) (start : ℤ)
  | elapse (d : ℕ)
  deriving DecidableEq, Repr

def Hub.webhook (s : Hub) (id : ℕ) : Option Webhook := s.webhooks.find? (·.id = id)

/-- `SELECT event_schema_version`, for a webhook that may be gone. -/
def Hub.eventVersion (s : Hub) (id : ℕ) : String :=
  ((s.webhook id).map (·.eventSchemaVersion)).getD "2026-04-01"

/-- Where the webhook is gone or disabled, or its URL is not allowed, there is no URL to post to. -/
def Hub.target (s : Hub) (validUrl : String → Bool) (id : ℕ) : Option String :=
  (s.webhook id).bind fun webhook =>
    if webhook.isEnabled && validUrl webhook.url then some webhook.url else none

def Hub.redelivery (s : Hub) (validUrl : String → Bool) (id : ℕ) : Option Worker :=
  (s.deliveries.find? fun row => row.id = id && !row.deleted).bind fun row =>
    (s.webhook row.webhookId).bind fun webhook =>
      if validUrl webhook.url then
        some (.redelivering
          ⟨row.id, row.webhookId, row.event, row.payload, row.attempts, row.maxAttempts⟩
          webhook.url webhook.eventSchemaVersion)
      else none

def RetryDeliveryRow.post (row : RetryDeliveryRow) (url version : String)
    (retryAttempt : Option ℕ) (claimToken : Option Token) : Post :=
  ⟨url, row.id, row.event, version, retryAttempt, row.payload, claimToken⟩

/-- The `NOW()` of the statement that is executed. -/
def Label.start : Label → Option ℤ
  | .claim start _ _ | .extend start _ | .record start _ _ | .redeliverUpdate start _
  | .enqueue _ _ _ _ start => some start
  | _ => none

variable (validUrl : String → Bool)

/-- The steps of a tick. -/
def tickStep (claimedBy : String) (s : Hub) : Worker → Label → Option (Hub × Worker)
  | .idle, .claim start locked o =>
    let (s', batch) := o.apply s (claimDueWebhookDeliveries s start locked claimedBy)
    some (s', (batch.map .processing).getD .idle)
  | .processing (d :: rest), .lookup =>
    some (s, match s.target validUrl d.row.webhookId with
      | some url => .found d url rest
      | none => .discarding d rest)
  | .discarding d rest, .discard o =>
    some ((o.apply s (s.updateClaimed d DeliveryRow.deadLettered)).1, .processing rest)
  | .found d url rest, .version => some (s, .ready d url (s.eventVersion d.row.webhookId) rest)
  | .ready d url version rest, .extend start o =>
    let expiresAt := start + webhookRetryClaimTtl
    let (s', held) := o.apply s (s.updateClaimed d (DeliveryRow.extended expiresAt))
    some (s', if held = some true then .extended d url version expiresAt rest
      else .processing rest)
  | .extended d url version expiresAt rest, .post =>
    some ({ s with posts := s.posts ++
      [d.row.post url version (some (d.row.attempts + 1)) (some d.claimToken)] },
      .sent d expiresAt rest)
  | .sent d expiresAt rest, .answer status body => some (s, .answered d expiresAt status body rest)
  | .answered d _ status body rest, .record start nanos o =>
    let outcome := determineRetryOutcome nanos (isWebhookDeliverySuccess status) d.row.attempts
      d.row.maxAttempts
    let (s', held) := o.apply s
      (s.updateClaimed d (DeliveryRow.recorded d outcome status body start))
    some (s', if outcome = .deadLetter ∧ held = some true then .disabling d rest
      else .processing rest)
  | .disabling d rest, .disable o =>
    some ((o.apply s (s.autoDisableWebhookForDeadLetter d.row.webhookId d.row.id, ())).1,
      .processing rest)
  | _, .abort => some (s, .idle)
  | _, _ => none

/-- The steps of `redeliver`. -/
def redeliverStep (s : Hub) : Worker → Label → Option (Hub × Worker)
  | .idle, .redeliver id => (s.redelivery validUrl id).map fun l => (s, l)
  | .redelivering row url version, .post =>
    some ({ s with posts := s.posts ++ [row.post url version none none] }, .resent row)
  | .resent row, .answer status body => some (s, .reanswered row status body)
  | .reanswered row status body, .redeliverUpdate start o =>
    some ((o.apply s (s.redeliverUpdate row.id
      (DeliveryRow.redelivered (isWebhookDeliverySuccess status) status body start), ())).1, .idle)
  | _, _ => none

/-- What comes from elsewhere. -/
def envStep (s : Hub) : Label → Option Hub
  | .createWebhook webhook =>
    if (∀ other ∈ s.webhooks, other.id ≠ webhook.id) ∧ webhook.disabledReason = none then
      some { s with webhooks := s.webhooks ++ [webhook] }
    else none
  | .setWebhookEnabled id enabled => some (s.setWebhookEnabled id enabled)
  | .deleteWebhook id => some (s.deleteWebhook id)
  | .enqueue id webhookId event payload start =>
    if (∀ row ∈ s.deliveries, row.id ≠ id) ∧ (s.webhook webhookId).isSome then
      some { s with deliveries := s.deliveries ++ [.queued id webhookId event payload start] }
    else none
  | .elapse d => some { s with now := s.now + d }
  | _ => none

/-- The ticks of process `p` call themselves `owner p`. -/
def retryProtocol (owner : ℕ → String) : Protocol Hub Worker Label where
  step p s l a :=
    if a.start.all (· ≤ s.now) then
      ((envStep s a).map fun s' => (s', l)).or
        ((tickStep validUrl (owner p) s l a).or (redeliverStep validUrl s l a))
    else none

/-- No claim has been made yet and nothing has been sent. -/
structure Hub.AtRest (s : Hub) : Prop where
  distinct : (s.deliveries.map (·.id)).Nodup
  unclaimed : ∀ row ∈ s.deliveries, row.claimToken = none
  posts : s.posts = []

/-- The claims that a tick has. -/
def Worker.claims : Worker → List Claimed
  | .processing batch => batch
  | .discarding d rest | .found d _ rest | .ready d _ _ rest | .extended d _ _ _ rest
  | .sent d _ rest | .answered d _ _ _ rest | .disabling d rest => d :: rest
  | _ => []

/-- The delivery that a tick sends, from its extension to the record, with the end of the claim. -/
def Worker.sending : Worker → Option (Claimed × ℤ)
  | .extended d _ _ expiresAt _ | .sent d expiresAt _ | .answered d expiresAt _ _ _ =>
    some (d, expiresAt)
  | _ => none

/-- The claim of the request whose attempt is not recorded yet. -/
def Worker.awaited : Worker → Option Claimed
  | .sent d _ _ | .answered d _ _ _ _ => some d
  | _ => none

end ArtifactKeeper.Webhooks
