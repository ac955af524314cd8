import ArtifactKeeper.IpAddr
import ArtifactKeeper.Text

/-! The client address of the rate-limiting middleware: the TCP peer, or what a trusted proxy says
in `X-Forwarded-For`. -/

namespace ArtifactKeeper.RateLimit

open Text

def addrWidth : IpAddr → ℕ
  | .v4 _ => 32
  | .v6 _ => 128

/-- `CidrRange`; its `parse` refuses a longer prefix. -/
structure CidrRange where
  network : IpAddr
  prefixLen : ℕ
  len_le : prefixLen ≤ addrWidth network

/-- The mask of `contains`, with the checked shift. -/
def netMask (w len : ℕ) : BitVec w :=
  if len = 0 then 0 else if w - len < w then BitVec.allOnes w <<< (w - len) else 0

def CidrRange.contains (range : CidrRange) (ip : IpAddr) : Bool :=
  match range.network, ip with
  | .v4 net, .v4 ip =>
    let mask := netMask 32 range.prefixLen
    (net.toBits &&& mask) == (ip.toBits &&& mask)
  | .v6 net, .v6 ip =>
    let mask := netMask 128 range.prefixLen
    (net.toBits &&& mask) == (ip.toBits &&& mask)
  | _, _ => false

/-- The header lines by their lower-case names, in the order of their arrival. -/
abbrev HeaderMap := List (String × List UInt8)

/-- `HeaderMap::get`: the first line of the name. -/
def HeaderMap.get (headers : HeaderMap) (name : String) : Option (List UInt8) :=
  (headers.find? fun h => h.1 == name).map (·.2)

/-- `HeaderValue::to_str`: visible ASCII, spaces and tabs. -/
def toStr (value : List UInt8) : Option (List Char) :=
  if value.all fun b => (32 ≤ b && b < 127) || b == 9 then
    some (value.map fun b => Char.ofNat b.toNat)
  else none

def firstXffTokenIn (headers : HeaderMap) : Option (List Char) := do
  let value ← headers.get "x-forwarded-for"
  let text ← toStr value
  let first := trim (text.takeWhile (· != ','))
  if first.isEmpty then none else some first

def resolveClientIpAddr (headers : HeaderMap) (peer : Option IpAddr)
    (trustedProxies : List CidrRange) : Option IpAddr :=
  match peer with
  | some peer =>
    if trustedProxies.any fun cidr => cidr.contains peer then
      some (((firstXffTokenIn headers).bind IpAddr.parse).getD peer)
    else some peer
  | none => (firstXffTokenIn headers).bind IpAddr.parse

section Cidr

/-- The addresses of the family of the network that agree with it in the bits of the prefix. -/
def CidrRange.Covers (range : CidrRange) (ip : IpAddr) : Prop :=
  match range.network, ip with
  | .v4 net, .v4 ip => SamePrefix net.toBits ip.toBits range.prefixLen
  | .v6 net, .v6 ip => SamePrefix net.toBits ip.toBits range.prefixLen
  | _, _ => False

theorem masked_iff {w len : ℕ} {net ip : BitVec w} (hle : len ≤ w) :
    ((net &&& netMask w len) == (ip &&& netMask w len)) = true ↔ SamePrefix net ip len := by
  by_cases hzero : len = 0
  · subst hzero
    simp [netMask, SamePrefix]
  · rw [← maskedEq_iff (by omega) hle, netMask, if_neg hzero]
    rfl

theorem CidrRange.contains_iff (range : CidrRange) (ip : IpAddr) :
    range.contains ip = true ↔ range.Covers ip := by
  obtain ⟨network, len, hle⟩ := range
  cases network with
  | v4 net =>
    cases ip with
    | v4 ip => exact masked_iff hle
    | v6 ip => simp [CidrRange.contains, CidrRange.Covers]
  | v6 net =>
    cases ip with
    | v4 ip => simp [CidrRange.contains, CidrRange.Covers]
    | v6 ip => exact masked_iff hle

theorem any_contains_iff {trustedProxies : List CidrRange} {peer : IpAddr} :
    (trustedProxies.any fun cidr => cidr.contains peer) = true ↔
      ∃ cidr ∈ trustedProxies, cidr.Covers peer := by
  simp [CidrRange.contains_iff]

end Cidr

section Forwarded

/-- What a proxy sends that appends the address of its peer to the header of the client. -/
def appended (client c : List UInt8) : List UInt8 := client ++ [44, 32] ++ c

/-- The address that a header of the client names as the first one. -/
def claimedAddr (client : List UInt8) : Option IpAddr :=
  (toStr client).bind fun text => IpAddr.parse (trim (text.takeWhile (· != ',')))

theorem toStr_append (xs ys : List UInt8) :
    toStr (xs ++ ys) = (toStr xs).bind fun a => (toStr ys).map (a ++ ·) := by
  by_cases hx : xs.all fun b => (32 ≤ b && b < 127) || b == 9
  · by_cases hy : ys.all fun b => (32 ≤ b && b < 127) || b == 9
    · simp only [toStr, List.all_append, hx, hy, Bool.and_self, if_true, List.map_append]
      rfl
    · simp only [toStr, List.all_append, hx, hy, Bool.and_false]
      rfl
  · simp only [toStr, List.all_append, hx, Bool.false_and]
    rfl

theorem bind_parse_firstXffTokenIn {headers : HeaderMap} {value : List UInt8}
    (h : headers.get "x-forwarded-for" = some value) :
    (firstXffTokenIn headers).bind IpAddr.parse = claimedAddr value := by
  unfold firstXffTokenIn claimedAddr
  cases htext : toStr value with
  | none => simp [h, htext]
  | some text =>
    simp only [h, htext, Option.bind_eq_bind, Option.bind_some]
    cases hfirst : trim (text.takeWhile (· != ',')) with
    | nil => rfl
    | cons d rest => rfl

/-- Nothing that is appended behind a comma shows. -/
theorem claimedAddr_appended {client c : List UInt8} (hc : (toStr c).isSome) :
    claimedAddr (appended client c) = claimedAddr client := by
  obtain ⟨ctext, hctext⟩ := Option.isSome_iff_exists.mp hc
  have hsep : toStr [44, 32] = some [',', ' '] := by decide
  unfold claimedAddr appended
  rw [List.append_assoc, toStr_append, toStr_append, hctext, hsep]
  cases toStr client with
  | none => rfl
  | some text =>
    simp only [Option.bind_some, Option.map_some]
    congr 2
    induction text with
    | nil => rfl
    | cons d rest ih =>
      by_cases hd : d = ','
      · simp [hd]
      · simpa [hd] using ih

theorem isWhitespace_of_isAddrChar {c : Char} (h : IpAddr.isAddrChar c = true) :
    isWhitespace c = false := by
  simp only [IpAddr.isAddrChar, Bool.or_eq_true, beq_iff_eq] at h
  rcases h with (hdigit | rfl) | rfl
  · apply isWhitespace_of_isAlphanum
    obtain ⟨n, hn⟩ := Option.isSome_iff_exists.mp hdigit
    obtain ⟨hvalue, -⟩ := Option.filter_eq_some_iff.mp hn
    by_cases hd : c.isDigit
    · simp [Char.isAlphanum, hd]
    · by_cases hlower : 'a' ≤ c ∧ c ≤ 'z'
      · have h : c.isLower = true := by
          simpa [isLower_eq, Char.le_def] using hlower
        simp [Char.isAlphanum, isAlpha_eq, h]
      · by_cases hupper : 'A' ≤ c ∧ c ≤ 'Z'
        · have h : c.isUpper = true := by
            simpa [isUpper_eq, Char.le_def] using hupper
          simp [Char.isAlphanum, isAlpha_eq, h]
        · simp [hd, hlower, hupper] at hvalue
  · decide
  · decide

/-- The text of an address is its own first token. -/
theorem claimedAddr_of_parse {c : List UInt8} {addr : IpAddr}
    (hc : (toStr c).bind IpAddr.parse = some addr) : claimedAddr c = some addr := by
  obtain ⟨text, htext, hparse⟩ := Option.bind_eq_some_iff.mp hc
  have hchars := IpAddr.isAddrChar_of_parse hparse
  have hcomma : text.takeWhile (· != ',') = text := by
    rw [List.takeWhile_eq_self_iff]
    intro d hd
    rcases eq_or_ne d ',' with rfl | hne
    · exact absurd (hchars _ hd) (by decide)
    · simpa using hne
  rw [claimedAddr, htext, Option.bind_some, hcomma,
    trim_of_not_whitespace fun d hd => isWhitespace_of_isAddrChar (hchars d hd), hparse]

end Forwarded

section Peer
variable {trustedProxies : List CidrRange} {peer : IpAddr}

/-- A trusted peer is believed in what it names first. -/
theorem resolve_trusted (htrusted : ∃ cidr ∈ trustedProxies, cidr.Covers peer)
    {headers : HeaderMap} {value : List UInt8}
    (h : headers.get "x-forwarded-for" = some value) :
    resolveClientIpAddr headers (some peer) trustedProxies =
      some ((claimedAddr value).getD peer) := by
  rw [resolveClientIpAddr, if_pos (any_contains_iff.mpr htrusted), bind_parse_firstXffTokenIn h]

theorem resolve_untrusted (huntrusted : ¬ ∃ cidr ∈ trustedProxies, cidr.Covers peer)
    (headers : HeaderMap) :
    resolveClientIpAddr headers (some peer) trustedProxies = some peer := by
  rw [resolveClientIpAddr, if_neg fun h => huntrusted (any_contains_iff.mp h)]

end Peer

/-- An untrusted peer is its own address whatever it sends. Behind a trusted proxy the first token
of the header decides: two headers to which the proxy has appended the client's address resolve
alike exactly if the clients named the same address, and a header that the proxy has overwritten
resolves to the client's address. -/
theorem client_ip_of_peer (trustedProxies : List CidrRange) (peer : IpAddr) (c : List UInt8)
    (addr : IpAddr) (hc : (toStr c).bind IpAddr.parse = some addr) :
    ((∃ cidr ∈ trustedProxies, cidr.Covers peer) →
        (∀ (headers₁ headers₂ : HeaderMap) (p₁ p₂ : List UInt8),
          headers₁.get "x-forwarded-for" = some (appended p₁ c) →
          headers₂.get "x-forwarded-for" = some (appended p₂ c) →
          (resolveClientIpAddr headers₁ (some peer) trustedProxies =
              resolveClientIpAddr headers₂ (some peer) trustedProxies ↔
            (claimedAddr p₁).getD peer = (claimedAddr p₂).getD peer)) ∧
        ∀ headers : HeaderMap, headers.get "x-forwarded-for" = some c →
          resolveClientIpAddr headers (some peer) trustedProxies = some addr) ∧
      ((¬ ∃ cidr ∈ trustedProxies, cidr.Covers peer) →
        ∀ headers : HeaderMap,
          resolveClientIpAddr headers (some peer) trustedProxies = some peer) := by
  have hsome : (toStr c).isSome := by
    obtain ⟨text, htext, -⟩ := Option.bind_eq_some_iff.mp hc
    rw [htext, Option.isSome_some]
  refine ⟨fun htrusted => ⟨fun headers₁ headers₂ p₁ p₂ h₁ h₂ => ?_, fun headers h => ?_⟩,
    resolve_untrusted⟩
  · rw [resolve_trusted htrusted h₁, resolve_trusted htrusted h₂, claimedAddr_appended hsome,
      claimedAddr_appended hsome, Option.some.injEq]
  · rw [resolve_trusted htrusted h, claimedAddr_of_parse hc, Option.getD_some]

section Loopback

/-- `127.0.0.0/8`. -/
def loopbackRange : CidrRange := ⟨.v4 ⟨127, 0, 0, 0⟩, 8, by decide⟩

def loopbackPeer : IpAddr := .v4 ⟨127, 0, 0, 1⟩

/-- `203.0.113.7`. -/
def clientText : List UInt8 := [50, 48, 51, 46, 48, 46, 49, 49, 51, 46, 55]

/-- `198.51.100.1` and `198.51.100.2`. -/
def spoofed (last : UInt8) : List UInt8 := [49, 57, 56, 46, 53, 49, 46, 49, 48, 48, 46, last]

def forwarded (value : List UInt8) : HeaderMap := [("x-forwarded-for", value)]

theorem loopback_client_ip :
    resolveClientIpAddr (forwarded clientText) (some loopbackPeer) [loopbackRange] =
        some (.v4 ⟨203, 0, 113, 7⟩) ∧
      resolveClientIpAddr (forwarded (spoofed 49)) (some loopbackPeer) [] = some loopbackPeer := by
  have hc : (toStr clientText).bind IpAddr.parse = some (.v4 ⟨203, 0, 113, 7⟩) := by decide
  have htrusted : ∃ cidr ∈ [loopbackRange], cidr.Covers loopbackPeer :=
    any_contains_iff.mp (by decide)
  obtain ⟨hbehind, -⟩ := client_ip_of_peer [loopbackRange] loopbackPeer clientText _ hc
  obtain ⟨-, hdirect⟩ := client_ip_of_peer [] loopbackPeer clientText _ hc
  exact ⟨(hbehind htrusted).2 _ rfl, hdirect (by simp) _⟩

/-- The client names another address in each request, and the key follows it. -/
theorem appended_header_steers :
    loopbackRange.Covers loopbackPeer ∧
      resolveClientIpAddr (forwarded (appended (spoofed 49) clientText)) (some loopbackPeer)
          [loopbackRange] = some (.v4 ⟨198, 51, 100, 1⟩) ∧
      resolveClientIpAddr (forwarded (appended (spoofed 50) clientText)) (some loopbackPeer)
          [loopbackRange] = some (.v4 ⟨198, 51, 100, 2⟩) :=
  ⟨(CidrRange.contains_iff _ _).mp (by decide), by decide, by decide⟩

end Loopback

end ArtifactKeeper.RateLimit
