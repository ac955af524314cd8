import ArtifactKeeper.IpAddr
import ArtifactKeeper.Text
import Mathlib.Data.List.DropRight

/-! Which addresses the server may contact: the classes that are always refused, the private ones
that an operator can allow, and the two places that ask, the check of a URL and the resolver. -/

namespace ArtifactKeeper.Outbound

open Text

inductive OutboundUrlContext where
  | upstream | webhook | ssoDiscovery | trustedInternal
  deriving DecidableEq, Repr

def OutboundUrlContext.envVar : OutboundUrlContext → String
  | .upstream => "UPSTREAM_ALLOW_PRIVATE_IPS"
  | .webhook => "WEBHOOK_ALLOW_PRIVATE_IPS"
  | .ssoDiscovery => "SSO_ALLOW_PRIVATE_IPS"
  | .trustedInternal => "AK_TRUSTED_INTERNAL_ALLOW_PRIVATE_IPS"

/-- The environment variables of the process. -/
abbrev Env := String → Option String

def allowPrivateIpsEnabled (env : Env) (ctx : OutboundUrlContext) : Bool :=
  match env ctx.envVar with
  | some v =>
    let t := trim v.toList
    t == ['1'] || t.map Char.toLower == "true".toList
  | none => false

def privateCidrAllowlistValue (env : Env) : Option (List Char) :=
  ["AK_SSRF_ALLOW_PRIVATE_CIDRS", "UPSTREAM_PRIVATE_IP_ALLOWLIST"].findSome? fun name =>
    (env name).bind fun v =>
      let trimmed := trim v.toList
      if trimmed.isEmpty then none else some trimmed

/-- `ipv4_in_prefix` and `ipv6_in_prefix`, which differ in the width. -/
def inPrefix {w : ℕ} (net ip : BitVec w) (len : ℕ) : Bool :=
  if len = 0 then true else maskedEq net ip len

def cidrContains (entry : List Char) (ip : IpAddr) : Except String Bool :=
  let (addrStr, prefixStr) := match splitOnce '/' entry with
    | some (a, p) => (a, some p)
    | none => (entry, none)
  match IpAddr.parse addrStr with
  | none => .error "invalid IP"
  | some net =>
    match prefixStr with
    | none => .ok (net == ip)
    | some prefixStr =>
      match parseUnsigned 256 prefixStr with
      | none => .error "invalid prefix"
      | some 0 => .error "prefix 0 (all-IPs) is not permitted in the allowlist"
      | some len =>
        match net, ip with
        | .v4 net4, .v4 ip4 =>
          if 32 < len then .error "ipv4 prefix > 32" else .ok (inPrefix net4.toBits ip4.toBits len)
        | .v6 net6, .v6 ip6 =>
          if 128 < len then .error "ipv6 prefix > 128"
          else .ok (inPrefix net6.toBits ip6.toBits len)
        | _, _ => .ok false

def cidrListContains (list : List Char) (ip : IpAddr) : Bool :=
  (list.splitOn ',').any fun raw =>
    let entry := trim raw
    !entry.isEmpty && match cidrContains entry ip with
      | .ok found => found
      | .error _ => false

def privateIpAllowed (env : Env) (ip : IpAddr) (ctx : OutboundUrlContext) : Bool :=
  if ctx = .trustedInternal then true
  else
    match privateCidrAllowlistValue env with
    | some list => cidrListContains list ip
    | none => allowPrivateIpsEnabled env ctx

/-- Oracle's and Alibaba's, outside of the link-local range. -/
def cloudMetadataIps : List Ipv4Addr := [⟨192, 0, 0, 192⟩, ⟨100, 100, 100, 200⟩]

def isHardBlockedIpv4 (v4 : Ipv4Addr) : Bool :=
  v4.isLoopback || v4.isLinkLocal || v4.isUnspecified || v4.isBroadcast || v4 ∈ cloudMetadataIps

/-- The carrier-grade NAT range `100.64.0.0/10`. -/
def isCgnatIpv4 (v4 : Ipv4Addr) : Bool := v4.a == 100 && v4.b &&& 0xc0 == 0x40

def isBlockedIpv4 (env : Env) (v4 : Ipv4Addr) (ctx : OutboundUrlContext) : Bool :=
  if isHardBlockedIpv4 v4 then true
  else if v4.isPrivate then !privateIpAllowed env (.v4 v4) ctx
  else if isCgnatIpv4 v4 then !privateIpAllowed env (.v4 v4) ctx
  else false

/-- `fe80::/10`. -/
def isLinkLocalIpv6 (v6 : Ipv6Addr) : Bool := v6.s0 &&& 0xffc0 == 0xfe80

/-- `fc00::/7`. -/
def isUniqueLocalIpv6 (v6 : Ipv6Addr) : Bool := v6.s0 &&& 0xfe00 == 0xfc00

def isBlockedIpv6 (env : Env) (v6 : Ipv6Addr) (ctx : OutboundUrlContext) : Bool :=
  if v6.isLoopback || v6.isUnspecified then true
  else if isLinkLocalIpv6 v6 then true
  else if isUniqueLocalIpv6 v6 then !privateIpAllowed env (.v6 v6) ctx
  else
    match v6.toIpv4Mapped with
    | some v4 => isBlockedIpv4 env v4 ctx
    | none =>
      match v6.toIpv4 with
      | some v4 => isBlockedIpv4 env v4 ctx
      | none => false

def isBlockedIpIn (env : Env) (ip : IpAddr) (ctx : OutboundUrlContext) : Bool :=
  match ip with
  | .v4 v4 => isBlockedIpv4 env v4 ctx
  | .v6 v6 => isBlockedIpv6 env v6 ctx

inductive BlockReason where
  | hostname (host : List Char)
  | ip (ip : IpAddr)
  deriving DecidableEq, Repr

def blockedHosts : List String :=
  ["localhost", "metadata.google.internal", "metadata.azure.com", "metadata.tencentyun.com",
    "metadata.oraclecloud.com", "metadata.platformequinix.com", "backend", "postgres", "redis",
    "opensearch", "trivy"]

/-- The brackets of an IPv6 literal are taken off. -/
def bareHost (host : List Char) : List Char :=
  match host with
  | '[' :: rest => if rest.getLast? = some ']' then rest.dropLast else host
  | _ => host

/-- `is_blocked_host_str`, for any `str::to_lowercase` and any resolver. -/
def isBlockedHostStr (toLowercase : List Char → List Char)
    (resolve : List Char → Option (List IpAddr)) (env : Env) (host : List Char)
    (ctx : OutboundUrlContext) : Option BlockReason :=
  let normalized := (toLowercase host).rdropWhile (· == '.')
  if blockedHosts.any fun blocked =>
      normalized == blocked.toList || ('.' :: blocked.toList).isSuffixOf normalized then
    some (.hostname host)
  else
    match IpAddr.parse (bareHost host) with
    | some ip => if isBlockedIpIn env ip ctx then some (.ip ip) else none
    | none =>
      match resolve normalized with
      | none => none
      | some addrs => (addrs.find? (isBlockedIpIn env · ctx)).map .ip

structure SocketAddr where
  ip : IpAddr
  port : UInt16
  deriving DecidableEq, Repr

inductive ResolverMode where
  | upstream | trustedInternal | webhook | ssoDiscovery
  deriving DecidableEq, Repr

def isBlockedResolvedIp (env : Env) (ip : IpAddr) : Bool := isBlockedIpIn env ip .upstream

def isBlockedResolvedIpInternal (env : Env) (ip : IpAddr) : Bool :=
  isBlockedIpIn env ip .trustedInternal

def isBlockedResolvedIpWebhook (env : Env) (ip : IpAddr) : Bool := isBlockedIpIn env ip .webhook

def isBlockedResolvedIpSso (env : Env) (ip : IpAddr) : Bool := isBlockedIpIn env ip .ssoDiscovery

def isBlockedFor (env : Env) (mode : ResolverMode) (ip : IpAddr) : Bool :=
  match mode with
  | .upstream => isBlockedResolvedIp env ip
  | .trustedInternal => isBlockedResolvedIpInternal env ip
  | .webhook => isBlockedResolvedIpWebhook env ip
  | .ssoDiscovery => isBlockedResolvedIpSso env ip

def filterAllowed (env : Env) (mode : ResolverMode) (addrs : List SocketAddr) : List SocketAddr :=
  addrs.filter fun sa => !isBlockedFor env mode sa.ip

/-- The context whose URLs a client with this resolver fetches. -/
def ResolverMode.context : ResolverMode → OutboundUrlContext
  | .upstream => .upstream
  | .trustedInternal => .trustedInternal
  | .webhook => .webhook
  | .ssoDiscovery => .ssoDiscovery

section Cidr

def addrWidth : IpAddr → ℕ
  | .v4 _ => 32
  | .v6 _ => 128

/-- The addresses of one family that share the first `len` bits, at least one, with `net`. -/
structure CidrBlock where
  net : IpAddr
  len : ℕ
  len_pos : 0 < len
  len_le : len ≤ addrWidth net

def CidrBlock.Contains (block : CidrBlock) (ip : IpAddr) : Prop :=
  match block.net, ip with
  | .v4 net, .v4 ip => SamePrefix net.toBits ip.toBits block.len
  | .v6 net, .v6 ip => SamePrefix net.toBits ip.toBits block.len
  | _, _ => False

/-- The well-formed entries: an address alone, or an address and the length of the prefix. -/
inductive CidrBlock.WrittenAs (block : CidrBlock) : List Char → Prop
  | address {entry : List Char} (haddr : IpAddr.parse entry = some block.net)
      (hlen : block.len = addrWidth block.net) : block.WrittenAs entry
  | prefixed {addr digits : List Char} (haddr : IpAddr.parse addr = some block.net)
      (hlen : parseUnsigned 256 digits = some block.len) : block.WrittenAs (addr ++ '/' :: digits)

theorem not_slash_of_parse {addr : List Char} {ip : IpAddr} (h : IpAddr.parse addr = some ip) :
    '/' ∉ addr := by
  intro hmem
  exact absurd (IpAddr.isAddrChar_of_parse h _ hmem) (by decide)

/-- An address alone stands for the block of that one address. -/
theorem contains_full_iff {net ip : IpAddr} {block : CidrBlock} (hnet : block.net = net)
    (hlen : block.len = addrWidth net) : block.Contains ip ↔ net = ip := by
  obtain ⟨net, len, hpos, hle⟩ := block
  obtain rfl : net = _ := hnet
  obtain rfl : len = _ := hlen
  cases net with
  | v4 net =>
    cases ip with
    | v4 ip =>
      show SamePrefix net.toBits ip.toBits 32 ↔ _
      rw [eq_of_samePrefix, IpAddr.v4.injEq]
      exact ⟨Ipv4Addr.toBits_inj, congrArg _⟩
    | v6 ip => simp [CidrBlock.Contains]
  | v6 net =>
    cases ip with
    | v4 ip => simp [CidrBlock.Contains]
    | v6 ip =>
      show SamePrefix net.toBits ip.toBits 128 ↔ _
      rw [eq_of_samePrefix, IpAddr.v6.injEq]
      exact ⟨Ipv6Addr.toBits_inj, congrArg _⟩

theorem inPrefix_checked_iff {w : ℕ} {net ip : BitVec w} {len : ℕ} {reason : String}
    (hpos : 0 < len) :
    (if w < len then .error reason else .ok (inPrefix net ip len) : Except String Bool) = .ok true ↔
      len ≤ w ∧ SamePrefix net ip len := by
  by_cases hle : len ≤ w
  · rw [if_neg (by omega), inPrefix, if_neg (by omega), Except.ok.injEq, maskedEq_iff hpos hle]
    exact (and_iff_right hle).symm
  · rw [if_pos (by omega)]
    simp [hle]

theorem cidrContains_address {entry : List Char} {net ip : IpAddr}
    (haddr : IpAddr.parse entry = some net) : cidrContains entry ip = .ok true ↔ net = ip := by
  have hsplit := splitOnce_eq_none_iff.mpr (not_slash_of_parse haddr)
  simp [cidrContains, hsplit, haddr]

theorem cidrContains_prefixed {addr digits : List Char} {net ip : IpAddr} {len : ℕ}
    (haddr : IpAddr.parse addr = some net) (hlen : parseUnsigned 256 digits = some len)
    (hpos : 0 < len) :
    cidrContains (addr ++ '/' :: digits) ip = .ok true ↔
      ∃ hle : len ≤ addrWidth net, (⟨net, len, hpos, hle⟩ : CidrBlock).Contains ip := by
  have hsplit := splitOnce_of_not_mem digits (not_slash_of_parse haddr)
  obtain ⟨n, rfl⟩ : ∃ n, len = n + 1 := ⟨len - 1, by omega⟩
  simp only [cidrContains, hsplit, haddr, hlen]
  cases net with
  | v4 net =>
    cases ip with
    | v4 ip => exact (inPrefix_checked_iff hpos).trans exists_prop.symm
    | v6 ip => simp [CidrBlock.Contains]
  | v6 net =>
    cases ip with
    | v4 ip => simp [CidrBlock.Contains]
    | v6 ip => exact (inPrefix_checked_iff hpos).trans exists_prop.symm

/-- An entry that admits an address starts with an address, and a prefix behind it is not zero. -/
theorem entry_of_cidrContains {entry : List Char} {ip : IpAddr}
    (h : cidrContains entry ip = .ok true) :
    (∃ net, IpAddr.parse entry = some net) ∨ ∃ addr digits net len, entry = addr ++ '/' :: digits ∧
      IpAddr.parse addr = some net ∧ parseUnsigned 256 digits = some len ∧ 0 < len := by
  rw [cidrContains] at h
  cases hsplit : splitOnce '/' entry with
  | none =>
    simp only [hsplit] at h
    cases hparse : IpAddr.parse entry with
    | none => simp [hparse] at h
    | some net => exact .inl ⟨net, rfl⟩
  | some parts =>
    obtain ⟨addr, digits⟩ := parts
    simp only [hsplit] at h
    cases hparse : IpAddr.parse addr with
    | none => simp [hparse] at h
    | some net =>
      cases hlen : parseUnsigned 256 digits with
      | none => simp [hparse, hlen] at h
      | some len =>
        cases len with
        | zero => simp [hparse, hlen] at h
        | succ n =>
          obtain ⟨-, hentry⟩ := splitOnce_eq_some_iff.mp hsplit
          exact .inr ⟨addr, digits, net, n + 1, hentry, hparse, hlen, by omega⟩

/-- The entry admits exactly the addresses of the block it stands for, and none when it is
malformed. -/
theorem cidrContains_iff {entry : List Char} {ip : IpAddr} :
    cidrContains entry ip = .ok true ↔ ∃ block : CidrBlock, block.WrittenAs entry ∧
      block.Contains ip := by
  constructor
  · intro h
    obtain ⟨net, haddr⟩ | ⟨addr, digits, net, len, rfl, haddr, hlen, hpos⟩ :=
      entry_of_cidrContains h
    · have hpos : 0 < addrWidth net := by cases net <;> simp [addrWidth]
      have heq := (cidrContains_address haddr).mp h
      exact ⟨⟨net, _, hpos, le_rfl⟩, .address haddr rfl, (contains_full_iff rfl rfl).mpr heq⟩
    · obtain ⟨hle, hin⟩ := (cidrContains_prefixed haddr hlen hpos).mp h
      exact ⟨⟨net, len, hpos, hle⟩, .prefixed haddr hlen, hin⟩
  · rintro ⟨block, hwritten, hin⟩
    cases hwritten with
    | address haddr hlen =>
      exact (cidrContains_address haddr).mpr ((contains_full_iff rfl hlen).mp hin)
    | prefixed haddr hlen =>
      exact (cidrContains_prefixed haddr hlen block.len_pos).mpr ⟨block.len_le, hin⟩

theorem cidrListContains_iff {list : List Char} {ip : IpAddr} :
    cidrListContains list ip = true ↔ ∃ raw ∈ list.splitOn ',', ∃ block : CidrBlock,
      block.WrittenAs (trim raw) ∧ block.Contains ip := by
  rw [cidrListContains, List.any_eq_true]
  have hentry : ∀ raw : List Char, ((!(trim raw).isEmpty && match cidrContains (trim raw) ip with
      | .ok found => found
      | .error _ => false) = true) ↔ cidrContains (trim raw) ip = .ok true := by
    intro raw
    cases hraw : trim raw with
    | nil => simp [cidrContains, splitOnce, show IpAddr.parse [] = none by decide]
    | cons c cs => cases cidrContains (c :: cs) ip <;> simp
  simp only [hentry, cidrContains_iff]

end Cidr

/-- What lets a private address pass. -/
inductive Admitted (env : Env) (ctx : OutboundUrlContext) (ip : IpAddr) : Prop
  | trusted (hctx : ctx = .trustedInternal)
  | toggled (hlist : privateCidrAllowlistValue env = none)
      (htoggle : allowPrivateIpsEnabled env ctx)
  | listed {list raw : List Char} {block : CidrBlock}
      (hlist : privateCidrAllowlistValue env = some list) (hraw : raw ∈ list.splitOn ',')
      (hblock : block.WrittenAs (trim raw)) (hin : block.Contains ip)

theorem privateIpAllowed_iff {env : Env} {ip : IpAddr} {ctx : OutboundUrlContext} :
    privateIpAllowed env ip ctx = true ↔ Admitted env ctx ip := by
  rw [privateIpAllowed]
  split
  · rename_i hctx
    simp only [true_iff]
    exact .trusted hctx
  · rename_i hctx
    split
    · rename_i list hlist
      rw [cidrListContains_iff]
      constructor
      · rintro ⟨raw, hraw, block, hblock, hin⟩
        exact .listed hlist hraw hblock hin
      · intro h
        cases h with
        | trusted h => exact absurd h hctx
        | toggled h => rw [hlist] at h; cases h
        | listed h hraw hblock hin =>
          obtain rfl := Option.some.inj (hlist.symm.trans h)
          exact ⟨_, hraw, _, hblock, hin⟩
    · rename_i hlist
      constructor
      · exact .toggled hlist
      · intro h
        cases h with
        | trusted h => exact absurd h hctx
        | toggled _ h => exact h
        | listed h => rw [hlist] at h; cases h

section Classes

/-- Loopback, link-local, unspecified, broadcast and cloud metadata, in both families. -/
inductive HardBlocked : IpAddr → Prop
  | loopback {v4 : Ipv4Addr} (h : v4.a = 127) : HardBlocked (.v4 v4)
  | linkLocal {v4 : Ipv4Addr} (ha : v4.a = 169) (hb : v4.b = 254) : HardBlocked (.v4 v4)
  | unspecified : HardBlocked (.v4 ⟨0, 0, 0, 0⟩)
  | broadcast : HardBlocked (.v4 ⟨255, 255, 255, 255⟩)
  | cloudMetadata {v4 : Ipv4Addr} (h : v4 ∈ cloudMetadataIps) : HardBlocked (.v4 v4)
  | loopback6 : HardBlocked (.v6 ⟨0, 0, 0, 0, 0, 0, 0, 1⟩)
  | unspecified6 : HardBlocked (.v6 ⟨0, 0, 0, 0, 0, 0, 0, 0⟩)
  | linkLocal6 {v6 : Ipv6Addr} (h : v6.s0 &&& 0xffc0 = 0xfe80) : HardBlocked (.v6 v6)
  | mapped {v4 : Ipv4Addr} (h : HardBlocked (.v4 v4)) : HardBlocked (.v6 v4.toIpv6Mapped)
  | compatible {v4 : Ipv4Addr} (h : HardBlocked (.v4 v4)) : HardBlocked (.v6 v4.toIpv6Compatible)

/-- The private ranges of IPv4, carrier-grade NAT among them, and the unique local addresses. -/
inductive PrivateAddr : IpAddr → Prop
  | ten {v4 : Ipv4Addr} (h : v4.a = 10) : PrivateAddr (.v4 v4)
  | oneSevenTwo {v4 : Ipv4Addr} (ha : v4.a = 172) (hlo : 16 ≤ v4.b) (hhi : v4.b ≤ 31) :
      PrivateAddr (.v4 v4)
  | oneNineTwo {v4 : Ipv4Addr} (ha : v4.a = 192) (hb : v4.b = 168) : PrivateAddr (.v4 v4)
  | cgnat {v4 : Ipv4Addr} (ha : v4.a = 100) (hb : v4.b &&& 0xc0 = 0x40) : PrivateAddr (.v4 v4)
  | uniqueLocal {v6 : Ipv6Addr} (h : v6.s0 &&& 0xfe00 = 0xfc00) : PrivateAddr (.v6 v6)
  | mapped {v4 : Ipv4Addr} (h : PrivateAddr (.v4 v4)) : PrivateAddr (.v6 v4.toIpv6Mapped)
  | compatible {v4 : Ipv4Addr} (h : PrivateAddr (.v4 v4)) : PrivateAddr (.v6 v4.toIpv6Compatible)

/-- The address whose rules apply: of an IPv4 address inside an IPv6 one, the IPv4 address. -/
def governing : IpAddr → IpAddr
  | .v4 v4 => .v4 v4
  | .v6 v6 =>
    match v6.toIpv4 with
    | some v4 => .v4 v4
    | none => .v6 v6

theorem isHardBlockedIpv4_iff {v4 : Ipv4Addr} :
    isHardBlockedIpv4 v4 = true ↔ HardBlocked (.v4 v4) := by
  simp only [isHardBlockedIpv4, Ipv4Addr.isLoopback, Ipv4Addr.isLinkLocal, Ipv4Addr.isUnspecified,
    Ipv4Addr.isBroadcast, Bool.or_eq_true, Bool.and_eq_true, beq_iff_eq, decide_eq_true_eq]
  constructor
  · rintro ((((h | ⟨ha, hb⟩) | rfl) | rfl) | h)
    · exact .loopback h
    · exact .linkLocal ha hb
    · exact .unspecified
    · exact .broadcast
    · exact .cloudMetadata h
  · intro h
    cases h with
    | loopback h => exact .inl (.inl (.inl (.inl h)))
    | linkLocal ha hb => exact .inl (.inl (.inl (.inr ⟨ha, hb⟩)))
    | unspecified => exact .inl (.inl (.inr rfl))
    | broadcast => exact .inl (.inr rfl)
    | cloudMetadata h => exact .inr h

theorem isPrivate_or_isCgnatIpv4_iff {v4 : Ipv4Addr} :
    v4.isPrivate = true ∨ isCgnatIpv4 v4 = true ↔ PrivateAddr (.v4 v4) := by
  simp only [Ipv4Addr.isPrivate, isCgnatIpv4, Bool.or_eq_true, Bool.and_eq_true, beq_iff_eq,
    decide_eq_true_eq]
  constructor
  · rintro (((h | ⟨⟨ha, hlo⟩, hhi⟩) | ⟨ha, hb⟩) | ⟨ha, hb⟩)
    · exact .ten h
    · exact .oneSevenTwo ha hlo hhi
    · exact .oneNineTwo ha hb
    · exact .cgnat ha hb
  · intro h
    cases h with
    | ten h => exact .inl (.inl (.inl h))
    | oneSevenTwo ha hlo hhi => exact .inl (.inl (.inr ⟨⟨ha, hlo⟩, hhi⟩))
    | oneNineTwo ha hb => exact .inl (.inr ⟨ha, hb⟩)
    | cgnat ha hb => exact .inr ⟨ha, hb⟩

theorem isBlockedIpv4_iff {env : Env} {v4 : Ipv4Addr} {ctx : OutboundUrlContext} :
    isBlockedIpv4 env v4 ctx = true ↔
      HardBlocked (.v4 v4) ∨ PrivateAddr (.v4 v4) ∧ ¬ Admitted env ctx (.v4 v4) := by
  rw [isBlockedIpv4, ← isHardBlockedIpv4_iff, ← isPrivate_or_isCgnatIpv4_iff,
    ← privateIpAllowed_iff]
  cases isHardBlockedIpv4 v4 <;> cases v4.isPrivate <;> cases isCgnatIpv4 v4 <;> simp

/-- An IPv6 address of a hard-blocked class has it by its own bits or by those of the IPv4 address
in it. -/
theorem hardBlocked_v6_iff {v6 : Ipv6Addr} :
    HardBlocked (.v6 v6) ↔ (v6.isLoopback || v6.isUnspecified) = true ∨ isLinkLocalIpv6 v6 = true ∨
      ∃ v4, v6.toIpv4 = some v4 ∧ HardBlocked (.v4 v4) := by
  simp only [Ipv6Addr.isLoopback, Ipv6Addr.isUnspecified, isLinkLocalIpv6, Bool.or_eq_true,
    beq_iff_eq]
  constructor
  · intro h
    cases h with
    | loopback6 => exact .inl (.inl rfl)
    | unspecified6 => exact .inl (.inr rfl)
    | linkLocal6 h => exact .inr (.inl h)
    | mapped h => exact .inr (.inr ⟨_, toIpv4_toIpv6Mapped _, h⟩)
    | compatible h => exact .inr (.inr ⟨_, toIpv4_toIpv6Compatible _, h⟩)
  · rintro ((rfl | rfl) | h | ⟨v4, hv4, h⟩)
    · exact .loopback6
    · exact .unspecified6
    · exact .linkLocal6 h
    · rcases embedded_of_toIpv4 hv4 with rfl | rfl
      · exact .mapped h
      · exact .compatible h

theorem privateAddr_v6_iff {v6 : Ipv6Addr} :
    PrivateAddr (.v6 v6) ↔ isUniqueLocalIpv6 v6 = true ∨
      ∃ v4, v6.toIpv4 = some v4 ∧ PrivateAddr (.v4 v4) := by
  simp only [isUniqueLocalIpv6, beq_iff_eq]
  constructor
  · intro h
    cases h with
    | uniqueLocal h => exact .inl h
    | mapped h => exact .inr ⟨_, toIpv4_toIpv6Mapped _, h⟩
    | compatible h => exact .inr ⟨_, toIpv4_toIpv6Compatible _, h⟩
  · rintro (h | ⟨v4, hv4, h⟩)
    · exact .uniqueLocal h
    · rcases embedded_of_toIpv4 hv4 with rfl | rfl
      · exact .mapped h
      · exact .compatible h

theorem toIpv4_of_isUniqueLocalIpv6 {v6 : Ipv6Addr} (h : isUniqueLocalIpv6 v6 = true) :
    v6.toIpv4 = none := by
  rw [Ipv6Addr.toIpv4, if_neg]
  rintro ⟨hzero, -⟩
  rw [isUniqueLocalIpv6, hzero] at h
  exact absurd h (by decide)

theorem isBlockedIpv6_iff {env : Env} {v6 : Ipv6Addr} {ctx : OutboundUrlContext} :
    isBlockedIpv6 env v6 ctx = true ↔
      HardBlocked (.v6 v6) ∨ PrivateAddr (.v6 v6) ∧ ¬ Admitted env ctx (governing (.v6 v6)) := by
  rw [hardBlocked_v6_iff, privateAddr_v6_iff, isBlockedIpv6]
  split
  · rename_i hown
    exact iff_of_true rfl (.inl (.inl hown))
  · rename_i hown
    split
    · rename_i hlink
      exact iff_of_true rfl (.inl (.inr (.inl hlink)))
    · rename_i hlink
      split
      · rename_i hunique
        rw [← privateIpAllowed_iff]
        simp [hown, hlink, hunique, governing, toIpv4_of_isUniqueLocalIpv6 hunique]
      · rename_i hunique
        -- the mapped form is tried first, but `toIpv4` unwraps it to the same address
        cases hv4 : v6.toIpv4 with
        | none =>
          have hmapped : v6.toIpv4Mapped = none := by
            by_contra hsome
            obtain ⟨v4, hmapped⟩ := Option.ne_none_iff_exists'.mp hsome
            rw [toIpv4_of_toIpv4Mapped hmapped] at hv4
            cases hv4
          simp [hmapped, hown, hlink, hunique]
        | some v4 =>
          have hcode : (match v6.toIpv4Mapped with
              | some v4 => isBlockedIpv4 env v4 ctx
              | none => isBlockedIpv4 env v4 ctx) = isBlockedIpv4 env v4 ctx := by
            cases hmapped : v6.toIpv4Mapped with
            | none => rfl
            | some v4' =>
              obtain rfl := Option.some.inj ((toIpv4_of_toIpv4Mapped hmapped).symm.trans hv4)
              rfl
          dsimp only
          rw [hcode, isBlockedIpv4_iff]
          simp [hown, hlink, hunique, governing, hv4]

/-- The classification as a whole: hard-blocked, or private and not admitted. -/
theorem isBlockedIpIn_iff {env : Env} {ip : IpAddr} {ctx : OutboundUrlContext} :
    isBlockedIpIn env ip ctx = true ↔
      HardBlocked ip ∨ PrivateAddr ip ∧ ¬ Admitted env ctx (governing ip) := by
  cases ip with
  | v4 v4 => exact isBlockedIpv4_iff
  | v6 v6 => exact isBlockedIpv6_iff

theorem isBlockedIpIn_mapped {env : Env} {v4 : Ipv4Addr} {ctx : OutboundUrlContext}
    (h : isBlockedIpIn env (.v4 v4) ctx = true) :
    isBlockedIpIn env (.v6 v4.toIpv6Mapped) ctx = true := by
  rw [isBlockedIpIn_iff] at h ⊢
  rw [governing, toIpv4_toIpv6Mapped]
  exact h.imp .mapped fun hprivate => ⟨.mapped hprivate.1, hprivate.2⟩

theorem isBlockedIpIn_compatible {env : Env} {v4 : Ipv4Addr} {ctx : OutboundUrlContext}
    (h : isBlockedIpIn env (.v4 v4) ctx = true) :
    isBlockedIpIn env (.v6 v4.toIpv6Compatible) ctx = true := by
  rw [isBlockedIpIn_iff] at h ⊢
  rw [governing, toIpv4_toIpv6Compatible]
  exact h.imp .compatible fun hprivate => ⟨.compatible hprivate.1, hprivate.2⟩

end Classes

section Literal

/-- The characters of a host that is an address, possibly in brackets. -/
def isLiteralChar (c : Char) : Bool := IpAddr.isAddrChar c || c == '[' || c == ']'

theorem toNat_lt_of_isLiteralChar {c : Char} (h : isLiteralChar c = true) : c.toNat < 128 := by
  simp only [isLiteralChar, IpAddr.isAddrChar, Bool.or_eq_true, beq_iff_eq] at h
  rcases h with (((h | rfl) | rfl) | rfl) | rfl
  · rw [IpAddr.toDigit] at h
    obtain ⟨d, hd⟩ := Option.isSome_iff_exists.mp h
    obtain ⟨hvalue, -⟩ := Option.filter_eq_some_iff.mp hd
    split at hvalue
    · rename_i hdigit
      simp only [Char.isDigit, Bool.and_eq_true, decide_eq_true_eq] at hdigit
      have hle : c.toNat ≤ '9'.toNat := hdigit.2
      exact Nat.lt_of_le_of_lt hle (by decide)
    · split at hvalue
      · rename_i hlower
        have hle : c.toNat ≤ 'z'.toNat := hlower.2
        exact Nat.lt_of_le_of_lt hle (by decide)
      · split at hvalue
        · rename_i hupper
          have hle : c.toNat ≤ 'Z'.toNat := hupper.2
          exact Nat.lt_of_le_of_lt hle (by decide)
        · cases hvalue
  all_goals decide

theorem isLiteralChar_toLower {c : Char} (h : isLiteralChar c = true) :
    isLiteralChar c.toLower = true := by
  have hall : ∀ n < 128, isLiteralChar (Char.ofNat n) = true →
      isLiteralChar (Char.ofNat n).toLower = true := by decide +kernel
  have hc := hall c.toNat (toNat_lt_of_isLiteralChar h)
  rw [Char.ofNat_toNat] at hc
  exact hc h

theorem isLiteralChar_of_parse {host : List Char} {ip : IpAddr}
    (h : IpAddr.parse (bareHost host) = some ip) : ∀ c ∈ host, isLiteralChar c = true := by
  have haddr := IpAddr.isAddrChar_of_parse h
  intro c hc
  have hbare : c ∈ bareHost host ∨ c = '[' ∨ c = ']' := by
    unfold bareHost
    split
    · rename_i rest
      split
      · rename_i hlast
        rcases List.mem_cons.mp hc with rfl | hc
        · exact .inr (.inl rfl)
        · have hrest : rest = rest.dropLast ++ [']'] :=
            (List.dropLast_append_getLast? _ hlast).symm
          rw [hrest] at hc
          rcases List.mem_append.mp hc with hc | hc
          · exact .inl hc
          · exact .inr (.inr (List.mem_singleton.mp hc))
      · exact .inl hc
    · exact .inl hc
  rcases hbare with hc | rfl | rfl
  · simp [isLiteralChar, haddr c hc]
  · rfl
  · rfl

/-- Every blocked name has a letter that no address has. -/
theorem blockedHosts_not_literal :
    ∀ blocked ∈ blockedHosts, ∃ c ∈ blocked.toList, isLiteralChar c = false := by
  have hall : (blockedHosts.all fun blocked => blocked.toList.any (!isLiteralChar ·)) = true := by
    decide +kernel
  intro blocked hblocked
  obtain ⟨c, hc, hnot⟩ := List.any_eq_true.mp (List.all_eq_true.mp hall blocked hblocked)
  exact ⟨c, hc, by simpa using hnot⟩

/-- The check of a URL whose host is an address comes down to the check of the address. -/
theorem isBlockedHostStr_literal {toLowercase : List Char → List Char}
    {resolve : List Char → Option (List IpAddr)} {env : Env} {host : List Char} {ip : IpAddr}
    {ctx : OutboundUrlContext} (hlower : LowersAscii toLowercase)
    (h : IpAddr.parse (bareHost host) = some ip) :
    isBlockedHostStr toLowercase resolve env host ctx = none ↔
      isBlockedIpIn env ip ctx = false := by
  have hliteral := isLiteralChar_of_parse h
  have hnormalized : ∀ c ∈ (toLowercase host).rdropWhile (· == '.'), isLiteralChar c = true := by
    intro c hc
    have hmem := (List.rdropWhile_prefix _ _).subset hc
    rw [hlower host fun c hc => toNat_lt_of_isLiteralChar (hliteral c hc)] at hmem
    obtain ⟨c', hc', rfl⟩ := List.mem_map.mp hmem
    exact isLiteralChar_toLower (hliteral c' hc')
  have hname : (blockedHosts.any fun blocked =>
      (toLowercase host).rdropWhile (· == '.') == blocked.toList ||
        ('.' :: blocked.toList).isSuffixOf ((toLowercase host).rdropWhile (· == '.'))) = false := by
    rw [List.any_eq_false]
    intro blocked hblocked hmatch
    obtain ⟨c, hc, hnot⟩ := blockedHosts_not_literal blocked hblocked
    have hmem : c ∈ (toLowercase host).rdropWhile (· == '.') := by
      rcases (Bool.or_eq_true _ _).mp hmatch with heq | hsuffix
      · rw [beq_iff_eq.mp heq]
        exact hc
      · exact (List.isSuffixOf_iff_suffix.mp hsuffix).subset (List.mem_cons_of_mem _ hc)
    rw [hnormalized c hmem] at hnot
    cases hnot
  simp only [isBlockedHostStr, hname, h]
  cases isBlockedIpIn env ip ctx <;> simp

end Literal

theorem isBlockedFor_eq (env : Env) (mode : ResolverMode) (ip : IpAddr) :
    isBlockedFor env mode ip = isBlockedIpIn env ip mode.context := by
  cases mode <;> rfl

/-- The policy as the operator is promised it, for one setting of the environment. -/
structure Policy (toLowercase : List Char → List Char) (resolve : List Char → Option (List IpAddr))
    (env : Env) : Prop where
  embedded : ∀ v4 ctx, isBlockedIpIn env (.v4 v4) ctx = true →
    isBlockedIpIn env (.v6 v4.toIpv6Mapped) ctx = true ∧
      isBlockedIpIn env (.v6 v4.toIpv6Compatible) ctx = true
  hardBlocked : ∀ ip ctx, HardBlocked ip → isBlockedIpIn env ip ctx = true
  admitted : ∀ ip ctx, PrivateAddr ip → ¬ HardBlocked ip →
    (isBlockedIpIn env ip ctx = false ↔ Admitted env ctx (governing ip))
  resolved : ∀ mode addrs, filterAllowed env mode addrs =
    addrs.filter fun sa => isBlockedIpIn env sa.ip mode.context = false
  literal : ∀ mode addrs sa host, IpAddr.parse (bareHost host) = some sa.ip →
    (sa ∈ filterAllowed env mode addrs ↔
      sa ∈ addrs ∧ isBlockedHostStr toLowercase resolve env host mode.context = none)

theorem policy_holds {toLowercase : List Char → List Char} (hlower : LowersAscii toLowercase)
    (resolve : List Char → Option (List IpAddr)) (env : Env) :
    Policy toLowercase resolve env := by
  have hresolved : ∀ mode addrs, filterAllowed env mode addrs =
      addrs.filter fun sa => isBlockedIpIn env sa.ip mode.context = false := by
    intro mode addrs
    rw [filterAllowed]
    congr 1
    funext sa
    rw [isBlockedFor_eq]
    cases isBlockedIpIn env sa.ip mode.context <;> rfl
  constructor
  · intro v4 ctx h
    exact ⟨isBlockedIpIn_mapped h, isBlockedIpIn_compatible h⟩
  · intro ip ctx h
    exact isBlockedIpIn_iff.mpr (.inl h)
  · intro ip ctx hprivate hnot
    rw [← Bool.not_eq_true, isBlockedIpIn_iff]
    simp [hprivate, hnot]
  · exact hresolved
  · intro mode addrs sa host hhost
    rw [hresolved, List.mem_filter, isBlockedHostStr_literal hlower hhost, decide_eq_true_eq]

/-- One block is listed beside an entry that stands for every address, which is ignored. -/
theorem policy_holds_listed :
    let env : Env := fun name =>
      if name = "AK_SSRF_ALLOW_PRIVATE_CIDRS" then some "0.0.0.0/0, 10.0.0.0/8" else none
    Policy (·.map Char.toLower) (fun _ => none) env ∧
      isBlockedIpIn env (.v4 ⟨10, 1, 2, 3⟩) .webhook = false ∧
      isBlockedIpIn env (.v4 ⟨192, 168, 0, 1⟩) .webhook = true := by
  exact ⟨policy_holds (fun _ _ => rfl) _ _, by decide +kernel, by decide +kernel⟩

/-- A trusted internal service is reached on a private network that no setting allows. -/
theorem trustedInternal_needs_no_setting :
    ¬ ∀ (env : Env) (ctx : OutboundUrlContext) (ip : IpAddr), PrivateAddr ip → ¬ HardBlocked ip →
      isBlockedIpIn env ip ctx = false →
      allowPrivateIpsEnabled env ctx = true ∨ ∃ list, privateCidrAllowlistValue env = some list ∧
        ∃ raw ∈ list.splitOn ',', ∃ block : CidrBlock, block.WrittenAs (trim raw) ∧
          block.Contains ip := by
  intro h
  have hnot : ¬ HardBlocked (.v4 ⟨10, 0, 0, 1⟩) := by
    rw [← isHardBlockedIpv4_iff]
    decide
  rcases h (fun _ => none) .trustedInternal (.v4 ⟨10, 0, 0, 1⟩) (.ten rfl) hnot rfl with
    htoggle | ⟨list, hlist, -⟩
  · cases htoggle
  · cases hlist

end ArtifactKeeper.Outbound
