import CwdGate.Packet.RrType
import CwdGate.Validator.Nsec3

namespace CwdGate.DnsCache
open List
open Validator (SecStatus)

structure QueryInfo where
  qname : Name
  qtype : UInt16
  qclass : UInt16

/-- The values of `enum rrset_trust` that the lookup tells apart. -/
inductive RrsetTrust where
  | addNoAA
  | authNoAA
  | addAA
  | authAA
  | other
  deriving DecidableEq, Repr

/-- `ub_packed_rrset_key`. `target` is what `get_cname_target` finds; `sigLabels` are label
counts. -/
structure PackedRrset where
  id : Nat
  dname : Name
  type : UInt16
  rrsetClass : UInt16
  flags : UInt32
  ttl : Int
  ttlAdd : Int
  security : SecStatus
  trust : RrsetTrust
  target : Option Name
  sigLabels : List Nat

/-- `rrset_ref`: the address of the RRset, what is there now, and the id it had. -/
structure RrsetRef where
  addr : Nat
  key : PackedRrset
  id : Nat

structure ReplyInfo where
  flags : UInt16
  qdcount : Nat
  ttl : Int
  prefetchTtl : Int
  serveExpiredTtl : Int
  security : SecStatus
  authoritative : Bool
  reasonBogus : Nat
  anNumrrsets : Nat
  nsNumrrsets : Nat
  arNumrrsets : Nat
  refs : List RrsetRef

/-- The reply of a `dns_msg`, with its own copies of the RRsets. -/
structure ReplyCopy where
  flags : UInt16
  qdcount : Nat
  ttl : Int
  prefetchTtl : Int
  serveExpiredTtl : Int
  security : SecStatus
  authoritative : Bool
  reasonBogus : Nat
  anNumrrsets : Nat
  nsNumrrsets : Nat
  arNumrrsets : Nat
  rrsets : List PackedRrset

structure DnsMsg where
  qinfo : QueryInfo
  rep : ReplyCopy

/-- An entry of the message cache, with the flags that are in its hash value. -/
structure MsgEntry where
  key : QueryInfo
  flags : UInt16
  data : ReplyInfo

/-- The configuration, the time, the two caches, and whether there is memory for a message. -/
structure CacheEnv where
  hardenBelowNxdomain : Bool
  qnameMinimisation : Bool
  denyAny : Bool
  serveExpired : Bool
  serveExpiredTtl : Int
  serveExpiredReplyTtl : Int
  serveOriginalTtl : Bool
  now : Int
  msgCache : List MsgEntry
  rrsetCache : List PackedRrset
  mem : Name → Bool

def bitQR : UInt16 := 0x8000
def rcodeNoerror : UInt16 := 0
def rcodeNxdomain : UInt16 := 3
def rcodeNotimpl : UInt16 := 4
def rcodeYxdomain : UInt16 := 6
def typeDNSKEY : UInt16 := 48

def flagsGetRcode (flags : UInt16) : UInt16 := flags &&& 0xf

def prefetchTtlCalc (ttl : Int) : Int := ttl - ttl / 10

def sameName (d1 d2 : Name) : Bool := queryDnameCompare d1 d2 = .eq

variable (env : CacheEnv)

def msgLookup (k : QueryInfo) (flags : UInt16) : Option MsgEntry :=
  env.msgCache.find? fun e =>
    e.flags = flags ∧ e.key.qtype = k.qtype ∧ sameName e.key.qname k.qname ∧ e.key.qclass = k.qclass

def rrsetCacheLookup (qname : Name) (qtype qclass : UInt16) : Option PackedRrset :=
  (env.rrsetCache.find? fun r =>
    sameName r.dname qname ∧ r.type = qtype ∧ r.rrsetClass = qclass ∧ r.flags = 0).filter
    fun r => env.now ≤ r.ttl

def packedRrsetCopyRegion (r : PackedRrset) (now : Int) : PackedRrset :=
  let adjust := if env.serveOriginalTtl then r.ttlAdd else now
  { r with
    ttl := if r.ttl < adjust then (if env.serveExpired then env.serveExpiredReplyTtl else 0)
      else r.ttl - adjust
    ttlAdd := 0 }

/-- `rrset_array_lock`, after an RRset at address `prev`. -/
def rrsetArrayLock (timenow : Int) : Option Nat → List RrsetRef → Bool
  | _, [] => true
  | prev, ref :: refs =>
    if prev = some ref.addr then rrsetArrayLock timenow prev refs
    else if ref.id ≠ ref.key.id ∨ ref.key.ttl < timenow then false
    else rrsetArrayLock timenow (some ref.addr) refs

def replyCheckCnameChain (sname : Name) : List RrsetRef → Bool
  | [] => true
  | ref :: refs =>
    if ref.key.type = RrType.dname then replyCheckCnameChain sname refs
    else if ¬ sameName sname ref.key.dname then false
    else if ref.key.type = RrType.cname then
      replyCheckCnameChain (ref.key.target.getD sname) refs
    else replyCheckCnameChain sname refs

def replyAllRrsetsSecure (r : ReplyInfo) : Bool :=
  r.refs.all fun ref => ref.key.security = .secure

def firstType (r : ReplyInfo) : Option UInt16 := r.refs.head?.map fun ref => ref.key.type

def copyReply (r : ReplyInfo) (now : Int) (isExpired : Bool) : ReplyCopy :=
  let ttl := if isExpired then env.serveExpiredReplyTtl else r.ttl - now
  { flags := r.flags
    qdcount := r.qdcount
    ttl := ttl
    prefetchTtl := if now < r.prefetchTtl then r.prefetchTtl - now else prefetchTtlCalc ttl
    serveExpiredTtl := ttl + env.serveExpiredTtl
    security := r.security
    authoritative := r.authoritative
    reasonBogus := r.reasonBogus
    anNumrrsets := r.anNumrrsets
    nsNumrrsets := r.nsNumrrsets
    arNumrrsets := r.arNumrrsets
    rrsets := r.refs.map fun ref => packedRrsetCopyRegion env ref.key now }

def tomsg (q : QueryInfo) (r : ReplyInfo) (now : Int) (allowExpired : Bool) : Option DnsMsg :=
  let isExpired := decide (r.ttl < now)
  let nowControl := if isExpired then r.ttl - env.serveExpiredReplyTtl else now
  if isExpired ∧ ¬ allowExpired then none
  else if isExpired ∧ env.serveExpiredTtl ≠ 0 ∧ r.serveExpiredTtl < now then none
  else if isExpired ∧ flagsGetRcode r.flags ≠ rcodeNoerror ∧
      flagsGetRcode r.flags ≠ rcodeNxdomain ∧ flagsGetRcode r.flags ≠ rcodeYxdomain then none
  else if ¬ env.mem q.qname then none
  else if ¬ rrsetArrayLock nowControl none r.refs then none
  else if 0 < r.anNumrrsets ∧ (firstType r = some RrType.cname ∨ firstType r = some RrType.dname) ∧
      ¬ replyCheckCnameChain q.qname (r.refs.take r.anNumrrsets) then none
  else if r.security = .secure ∧ ¬ replyAllRrsetsSecure r then none
  else some ⟨q, copyReply env r now isExpired⟩

section Partial

variable (k : QueryInfo) (r : PackedRrset)

def rrsetsReply (flags : UInt16) (ttl : Int) (rrsets : List PackedRrset) : ReplyCopy where
  flags := flags
  qdcount := 1
  ttl := ttl
  prefetchTtl := prefetchTtlCalc ttl
  serveExpiredTtl := ttl + env.serveExpiredTtl
  security := .unchecked
  authoritative := false
  reasonBogus := 0
  anNumrrsets := rrsets.length
  nsNumrrsets := 0
  arNumrrsets := 0
  rrsets := rrsets

def rrsetMsg (q : QueryInfo) : Option DnsMsg :=
  if r.ttl < env.now ∨ ¬ env.mem q.qname then none
  else some ⟨q, rrsetsReply env bitQR (r.ttl - env.now) [packedRrsetCopyRegion env r env.now]⟩

/-- `find_closest_of_type` for DNAMEs, from a name on. -/
def findClosestDname (qclass : UInt16) : Name → Option PackedRrset
  | [] => rrsetCacheLookup env [] RrType.dname qclass
  | l :: n =>
    match rrsetCacheLookup env (l :: n) RrType.dname qclass with
    | some r => some r
    | none => findClosestDname qclass n

def synthCname (q : QueryInfo) (newname : Name) : PackedRrset where
  id := 0
  dname := q.qname
  type := RrType.cname
  rrsetClass := r.rrsetClass
  flags := 0
  ttl := r.ttl - env.now
  ttlAdd := 0
  security := .unchecked
  trust := .other
  target := some newname
  sigLabels := []

def synthDnameMsg (q : QueryInfo) : Option DnsMsg :=
  if r.ttl < env.now ∨ ¬ env.mem q.qname then none
  else
    let dname := packedRrsetCopyRegion env r env.now
    match r.target with
    | none => none
    | some dtarg =>
      let newname := q.qname.take (q.qname.length - r.dname.length) ++ dtarg
      if 255 < wireLen newname then
        some ⟨q, rrsetsReply env (bitQR ||| rcodeYxdomain) (r.ttl - env.now) [dname]⟩
      else
        some ⟨q, rrsetsReply env bitQR (r.ttl - env.now) [dname, synthCname env r q newname]⟩

def dnameAnswer : Option DnsMsg :=
  match k.qname with
  | [] => none
  | _ :: parent =>
    match findClosestDname env k.qclass parent with
    | none => none
    | some r =>
      match synthDnameMsg env r k with
      | none => none
      | some msg =>
        if r.security = .secure ∨ (rrsetCacheLookup env k.qname RrType.cname k.qclass).isSome then
          some msg
        else none

/-- `val_rrset_wildcard` gives a wildcard name. -/
def isWildcardExpansion : Bool :=
  match r.sigLabels with
  | [] => false
  | labcount :: rest =>
    let wn := if dnameIsWild r.dname then r.dname.tail else r.dname
    rest.all (· = labcount) && labcount < wn.length

def cnameAnswer : Option DnsMsg :=
  if k.qtype = RrType.ds then none
  else
    match rrsetCacheLookup env k.qname RrType.cname k.qclass with
    | none => none
    | some r => if isWildcardExpansion r then none else rrsetMsg env r k

def keyAnswer : Option DnsMsg :=
  if k.qtype ≠ RrType.ds ∧ k.qtype ≠ typeDNSKEY then none
  else
    match rrsetCacheLookup env k.qname k.qtype k.qclass with
    | none => none
    | some r =>
      if r.trust ≠ .addNoAA ∧ r.trust ≠ .addAA ∧
          (k.qtype = RrType.ds ∨ (r.trust ≠ .authNoAA ∧ r.trust ≠ .authAA)) then rrsetMsg env r k
      else none

def anyRrsets : List PackedRrset :=
  [RrType.a, RrType.aaaa, RrType.mx, RrType.soa, RrType.ns, RrType.dname].filterMap fun t =>
    (rrsetCacheLookup env k.qname t k.qclass).filter fun r => r.trust = .other

def fillAny : Option DnsMsg :=
  if ¬ env.mem k.qname then none
  else if env.denyAny then
    some ⟨k, { rrsetsReply env (bitQR ||| rcodeNotimpl) 0 [] with
      serveExpiredTtl := 0
      security := .indeterminate }⟩
  else if (anyRrsets env k).isEmpty then none
  else
    some ⟨k, { rrsetsReply env bitQR 0 ((anyRrsets env k).map fun r =>
      packedRrsetCopyRegion env r env.now) with serveExpiredTtl := 0 }⟩

end Partial

def iterScrubNxdomain (rep : ReplyCopy) : ReplyCopy :=
  { rep with
    rrsets := rep.rrsets.drop rep.anNumrrsets
    anNumrrsets := 0 }

/-- The cached message for a name above the query name, for the type of the query or type A. -/
def nxdomainEntry (k : QueryInfo) (flags : UInt16) (name : Name) : Option (QueryInfo × ReplyInfo) :=
  match msgLookup env { k with qname := name } flags with
  | some e => some ({ k with qname := name }, e.data)
  | none =>
    if k.qtype ≠ RrType.a ∧ env.qnameMinimisation then
      (msgLookup env { k with qname := name, qtype := RrType.a } flags).map fun e =>
        ({ k with qname := name, qtype := RrType.a }, e.data)
    else none

/-- The NXDOMAIN that is made of the cached message for a name above the query name. -/
def nxdomainFrom (k : QueryInfo) (flags : UInt16) (name : Name) : Option (ReplyInfo × DnsMsg) :=
  match nxdomainEntry env k flags name with
  | none => none
  | some (q, data) =>
    if flagsGetRcode data.flags = rcodeNxdomain ∧ data.security = .secure ∧
        (data.anNumrrsets = 0 ∨ firstType data ≠ some RrType.cname) then
      (tomsg env q data env.now false).map fun msg =>
        (data, ⟨{ q with qname := k.qname },
          iterScrubNxdomain { msg.rep with security := .unchecked }⟩)
    else none

/-- The search of `dns_cache_lookup` for an NXDOMAIN above a name, not above the stub. -/
def nxdomainSearch (k : QueryInfo) (flags : UInt16) (dpname : Option Name) :
    Name → Option (Name × ReplyInfo × DnsMsg)
  | [] => none
  | l :: n =>
    if dpname.any fun dp => !dnameSubdomainC (l :: n) dp then none
    else
      match nxdomainFrom env k flags n with
      | some (data, msg) => some (n, data, msg)
      | none => nxdomainSearch k flags dpname n

inductive CacheAnswer where
  | none
  | message (msg : DnsMsg)
  | rrsets (msg : DnsMsg)
  | nxdomain (name : Name) (data : ReplyInfo) (msg : DnsMsg)

/-- The answers of `dns_cache_lookup` that come before the search for an NXDOMAIN. -/
def directAnswer (k : QueryInfo) (flags : UInt16) (noPartial : Bool) : CacheAnswer :=
  match (msgLookup env k flags).bind fun e => tomsg env e.key e.data env.now false with
  | some msg => .message msg
  | none =>
    match if noPartial then none else (dnameAnswer env k).or (cnameAnswer env k) with
    | some msg => .rrsets msg
    | none =>
      match keyAnswer env k with
      | some msg => .rrsets msg
      | none => .none

def dnsCacheLookup (k : QueryInfo) (flags : UInt16) (noPartial : Bool) (dpname : Option Name) :
    CacheAnswer :=
  match directAnswer env k flags noPartial with
  | .none =>
    match if env.hardenBelowNxdomain then nxdomainSearch env k flags dpname k.qname else none with
    | some (name, data, msg) => .nxdomain name data msg
    | none =>
      if k.qtype = RrType.any then
        match fillAny env k with
        | some msg => .rrsets msg
        | none => .none
      else .none
  | answer => answer

section Search
variable {env} {k : QueryInfo} {flags : UInt16} {dpname : Option Name} {q name : Name}
  {data : ReplyInfo} {msg : DnsMsg}

theorem tomsg_fresh {q : QueryInfo} {now : Int} (h : tomsg env q data now false = some msg) :
    now ≤ data.ttl := by
  apply Int.not_lt.1
  intro hlt
  simp [tomsg, hlt] at h

/-- A cached message that an NXDOMAIN may be made of. -/
structure Proves (env : CacheEnv) (k : QueryInfo) (flags : UInt16) (name : Name)
    (data : ReplyInfo) : Prop where
  cached : ∃ e ∈ env.msgCache, e.data = data ∧ lowerName e.key.qname = lowerName name ∧
    e.key.qclass = k.qclass ∧ e.flags = flags ∧ (e.key.qtype = k.qtype ∨ e.key.qtype = RrType.a)
  rcode : flagsGetRcode data.flags = rcodeNxdomain
  secure : data.security = .secure
  unexpired : env.now ≤ data.ttl
  noCname : data.anNumrrsets = 0 ∨ firstType data ≠ some RrType.cname

theorem msgLookup_mem {q : QueryInfo} {e : MsgEntry} (h : msgLookup env q flags = some e) :
    e ∈ env.msgCache ∧ e.flags = flags ∧ e.key.qtype = q.qtype ∧
      lowerName e.key.qname = lowerName q.qname ∧ e.key.qclass = q.qclass := by
  have hmem := mem_of_find?_eq_some h
  have hfound := find?_some h
  simp only [decide_eq_true_eq, sameName, queryDnameCompare_eq_iff] at hfound
  exact ⟨hmem, hfound⟩

theorem nxdomainEntry_cached (h : nxdomainEntry env k flags name = some (r, data)) :
    ∃ e ∈ env.msgCache, e.data = data ∧ lowerName e.key.qname = lowerName name ∧
      e.key.qclass = k.qclass ∧ e.flags = flags ∧
        (e.key.qtype = k.qtype ∨ e.key.qtype = RrType.a) := by
  rw [nxdomainEntry] at h
  split at h
  case h_1 e he =>
    cases h
    obtain ⟨hmem, hflags, htype, hname, hclass⟩ := msgLookup_mem he
    exact ⟨e, hmem, rfl, hname, hclass, hflags, .inl htype⟩
  case h_2 =>
    split at h
    case isFalse => cases h
    case isTrue =>
      obtain ⟨e, he, heq⟩ := Option.map_eq_some_iff.1 h
      cases heq
      obtain ⟨hmem, hflags, htype, hname, hclass⟩ := msgLookup_mem he
      exact ⟨e, hmem, rfl, hname, hclass, hflags, .inr htype⟩

theorem nxdomainFrom_proves (h : nxdomainFrom env k flags name = some (data, msg)) :
    Proves env k flags name data := by
  rw [nxdomainFrom] at h
  split at h
  case h_1 => cases h
  case h_2 r data' hentry =>
    split at h
    case isFalse => cases h
    case isTrue hok =>
      obtain ⟨m, hm, heq⟩ := Option.map_eq_some_iff.1 h
      cases heq
      exact ⟨nxdomainEntry_cached hentry, hok.1, hok.2.1, tomsg_fresh hm, hok.2.2⟩

/-- The name without its first `i` labels is the first one above it with a message to use. -/
structure FirstAbove (env : CacheEnv) (k : QueryInfo) (flags : UInt16) (q : Name) (i : Nat) :
    Prop where
  pos : 0 < i
  le : i ≤ q.length
  used : nxdomainFrom env k flags (q.drop i) ≠ none
  before : ∀ j, 0 < j → j < i → nxdomainFrom env k flags (q.drop j) = none

theorem nxdomainSearch_some (h : nxdomainSearch env k flags dpname q = some (name, data, msg)) :
    ∃ i, FirstAbove env k flags q i ∧ name = q.drop i ∧
      nxdomainFrom env k flags name = some (data, msg) ∧
      ∀ dp, dpname = some dp → key dp <+: key (q.drop (i - 1)) := by
  induction q with
  | nil => cases h
  | cons l n ih =>
    rw [nxdomainSearch] at h
    split at h
    case isTrue => cases h
    case isFalse hstub =>
      have hdp : ∀ dp, dpname = some dp → key dp <+: key (l :: n) := by
        rintro dp rfl
        rw [← dnameSubdomainC_iff]
        simpa using hstub
      split at h
      case h_1 data' msg' hfrom =>
        cases h
        refine ⟨1, ⟨Nat.one_pos, ?_, ?_, ?_⟩, rfl, hfrom, hdp⟩
        · exact Nat.succ_le_succ (Nat.zero_le _)
        · rw [drop_one, tail_cons, hfrom]
          exact nofun
        · omega
      case h_2 hnone =>
        obtain ⟨i, hfirst, hname, hfrom, hstub'⟩ := ih h
        refine ⟨i + 1, ⟨Nat.succ_pos _, ?_, ?_, ?_⟩, ?_, hfrom, ?_⟩
        · exact Nat.succ_le_succ hfirst.le
        · exact hfirst.used
        · intro j hpos hlt
          obtain ⟨j, rfl⟩ := Nat.exists_eq_succ_of_ne_zero (Nat.ne_of_gt hpos)
          by_cases hj : j = 0
          · rw [hj]
            exact hnone
          · exact hfirst.before j (Nat.pos_of_ne_zero hj) (by omega)
        · exact hname
        · intro dp heq
          have hpos := hfirst.pos
          obtain ⟨i, rfl⟩ := Nat.exists_eq_succ_of_ne_zero (Nat.ne_of_gt hpos)
          exact hstub' dp heq

theorem nxdomainSearch_of_first (h : FirstAbove env k flags q i)
    (hfrom : nxdomainFrom env k flags (q.drop i) = some (data, msg))
    (hdp : ∀ dp, dpname = some dp → ∀ j < i, key dp <+: key (q.drop j)) :
    nxdomainSearch env k flags dpname q = some (q.drop i, data, msg) := by
  induction q generalizing i with
  | nil => exact absurd h.le (Nat.not_le_of_lt h.pos)
  | cons l n ih =>
    obtain ⟨i, rfl⟩ := Nat.exists_eq_succ_of_ne_zero (Nat.ne_of_gt h.pos)
    have hstub : (dpname.any fun dp => !dnameSubdomainC (l :: n) dp) = false := by
      cases hcase : dpname with
      | none => rfl
      | some dp =>
        have hsub := (dnameSubdomainC_iff (l :: n) dp).2 (hdp dp hcase 0 h.pos)
        rw [Option.any_some, hsub]
        rfl
    rw [nxdomainSearch, hstub, if_neg Bool.false_ne_true]
    by_cases hi : i = 0
    · subst hi
      have hfrom' : nxdomainFrom env k flags n = some (data, msg) := hfrom
      rw [hfrom']
      rfl
    · have hnone : nxdomainFrom env k flags n = none := h.before 1 Nat.one_pos (by omega)
      rw [hnone]
      apply ih _ hfrom
      · intro dp heq j hj
        exact hdp dp heq (j + 1) (by omega)
      · refine ⟨Nat.pos_of_ne_zero hi, Nat.le_of_succ_le_succ h.le, h.used, ?_⟩
        intro j hpos hlt
        exact h.before (j + 1) (Nat.succ_pos _) (by omega)

theorem key_drop_mono (h : i ≤ j) : key (q.drop j) <+: key (q.drop i) := by
  rw [key_drop, key_drop]
  exact take_prefix_take_left (by omega)

theorem dnsCacheLookup_nxdomain
    (h : dnsCacheLookup env k flags noPartial dpname = .nxdomain name data msg) :
    directAnswer env k flags noPartial = .none ∧ env.hardenBelowNxdomain = true ∧
      nxdomainSearch env k flags dpname k.qname = some (name, data, msg) := by
  rw [dnsCacheLookup] at h
  split at h
  case h_1 hdirect =>
    apply And.intro hdirect
    cases hharden : env.hardenBelowNxdomain with
    | false =>
      simp only [hharden, Bool.false_eq_true, if_false] at h
      split at h
      · split at h <;> cases h
      · cases h
    | true =>
      simp only [hharden, if_true] at h
      split at h
      case h_1 heq =>
        cases h
        exact ⟨rfl, heq⟩
      case h_2 =>
        split at h
        · split at h <;> cases h
        · cases h
  case h_2 =>
    rw [directAnswer] at h
    split at h
    · cases h
    · split at h
      · cases h
      · split at h <;> cases h

theorem dnsCacheLookup_of_search (hdirect : directAnswer env k flags noPartial = .none)
    (hharden : env.hardenBelowNxdomain = true)
    (hsearch : nxdomainSearch env k flags dpname k.qname = some (name, data, msg)) :
    dnsCacheLookup env k flags noPartial dpname = .nxdomain name data msg := by
  simp only [dnsCacheLookup, hdirect, hharden, if_true, hsearch]

/-- The first message to use is the one for the name directly above the stub. -/
def UsesAboveStub (env : CacheEnv) (k : QueryInfo) (flags : UInt16) (dpname : Name) : Prop :=
  ∃ i, FirstAbove env k flags k.qname i ∧ key (k.qname.drop (i - 1)) = key dpname

def topNxdomain : MsgEntry where
  key := ⟨[[97]], RrType.a, 1⟩
  flags := 0
  data :=
    { flags := bitQR ||| rcodeNxdomain
      qdcount := 1
      ttl := 300
      prefetchTtl := 270
      serveExpiredTtl := 300
      security := .secure
      authoritative := true
      reasonBogus := 0
      anNumrrsets := 0
      nsNumrrsets := 0
      arNumrrsets := 0
      refs := [] }

def topNxdomainEnv : CacheEnv where
  hardenBelowNxdomain := true
  qnameMinimisation := true
  denyAny := false
  serveExpired := false
  serveExpiredTtl := 0
  serveExpiredReplyTtl := 30
  serveOriginalTtl := false
  now := 100
  msgCache := [topNxdomain]
  rrsetCache := []
  mem := fun _ => true

def CacheAnswer.nxdomainName : CacheAnswer → Option Name
  | .nxdomain name _ _ => some name
  | _ => Option.none

end Search

/-- What both walks are given. The times of the cache are absolute, so none is negative. -/
structure ClosestSearch where
  env : CacheEnv
  ttl_nonneg : ∀ r ∈ env.rrsetCache, 0 ≤ r.ttl
  searchtype : UInt16
  qclass : UInt16
  expiretop : Option Name

section Closest

variable (c : ClosestSearch)

def rrsetAt (timenow : Int) (qname : Name) : Option PackedRrset :=
  rrsetCacheLookup { c.env with now := timenow } qname c.searchtype c.qclass

def isExpiretop (qname : Name) : Bool :=
  c.expiretop.any fun top => wireLen qname = wireLen top ∧ sameName qname top

/-- `rrset_expired_above`, with the name where it ends; `none` is behind the root. -/
def rrsetExpiredAbove : Name → Bool × Option Name
  | [] => (false, none)
  | _ :: qname =>
    if (rrsetAt c 0 qname).any (·.ttl < c.env.now) then (true, some qname)
    else if isExpiretop c qname then (false, some qname)
    else rrsetExpiredAbove qname

/-- The loop of `find_closest_of_type`. -/
def findClosestLoop (noexpiredabove : Bool) : Nat → Name → Option PackedRrset
  | 0, _ => none
  | fuel + 1, qname =>
    match rrsetAt c c.env.now qname with
    | none => qname.tail?.bind (findClosestLoop noexpiredabove fuel)
    | some rrset =>
      if !noexpiredabove || isExpiretop c qname then some rrset
      else
        let (expired, upper) := rrsetExpiredAbove c qname
        let again := if expired then none else rrsetAt c c.env.now qname
        again.or (upper.bind (findClosestLoop noexpiredabove fuel))

def findClosestOfType (qname : Name) (stripfront noexpiredabove : Bool) : Option PackedRrset :=
  (if stripfront then qname.tail? else some qname).bind fun qname =>
    findClosestLoop c noexpiredabove (qname.length + 1) qname

def ExpiredAt (n : Name) : Prop :=
  ∃ r ∈ c.env.rrsetCache.find? fun r => sameName r.dname n ∧ r.type = c.searchtype ∧
    r.rrsetClass = c.qclass ∧ r.flags = 0, r.ttl < c.env.now
  deriving Decidable

/-- No expired RRset is above `n`, where names above `expiretop` count only if `n` is one. -/
def NoneExpiredAbove (n : Name) : Prop :=
  ∀ a ∈ n.tails, a ≠ n → (∀ s ∈ n.tails, a <:+ s → s ≠ a → ¬ isExpiretop c s) → ¬ ExpiredAt c a
  deriving Decidable

/-- The unexpired RRset at the first of the names that has one and none expired above it. -/
def closest (names : List Name) : Option PackedRrset :=
  names.findSome? fun n => if NoneExpiredAbove c n then rrsetAt c c.env.now n else none

end Closest

theorem expired_lookup : (rrsetAt c 0 n).any (·.ttl < c.env.now) ↔ ExpiredAt c n := by
  unfold rrsetAt rrsetCacheLookup ExpiredAt
  dsimp only
  cases hfind : c.env.rrsetCache.find? _ with
  | none => simp
  | some r => simp [c.ttl_nonneg r (mem_of_find?_eq_some hfind)]

theorem noneExpiredAbove_of_top (htop : isExpiretop c n = true) : NoneExpiredAbove c n := by
  intro a ha hne hfree
  exact absurd htop (hfree n (by simp) (by simpa using ha) hne.symm)

theorem noneExpiredAbove_cons (htop : isExpiretop c (l :: n) = false) :
    NoneExpiredAbove c (l :: n) ↔ ¬ ExpiredAt c n ∧ NoneExpiredAbove c n := by
  simp only [NoneExpiredAbove, mem_tails, suffix_cons_iff]
  constructor
  · intro h
    refine ⟨h n (.inr suffix_rfl) (by simp) ?_, ?_⟩
    · rintro s (rfl | hs) hle hne
      · simp [htop]
      · exact absurd (hs.eq_of_length_le hle.length_le) hne
    · intro a ha hne hfree
      refine h a (.inr ha) ?_ ?_
      · rintro rfl
        simpa using ha.length_le
      · rintro s (rfl | hs)
        · simp [htop]
        · exact hfree s hs
  · rintro ⟨hn, habove⟩ a (rfl | ha) hne hfree
    · exact absurd rfl hne
    · by_cases heq : a = n
      · rwa [heq]
      · exact habove a ha heq fun s hs => hfree s (.inr hs)

/-- Names up to an expired RRset are skipped, and have it above them. -/
theorem rrsetExpiredAbove_spec (htop : isExpiretop c n = false) :
    if (rrsetExpiredAbove c n).1 then ¬ NoneExpiredAbove c n ∧ ∃ a,
      (rrsetExpiredAbove c n).2 = some a ∧ a.length < n.length ∧
        closest c n.tails = closest c a.tails
    else NoneExpiredAbove c n := by
  induction n with
  | nil => simp [rrsetExpiredAbove, NoneExpiredAbove]
  | cons l n ih =>
    simp only [rrsetExpiredAbove, expired_lookup, noneExpiredAbove_cons htop]
    by_cases hexp : ExpiredAt c n
    · simp [hexp, closest, noneExpiredAbove_cons htop]
    · by_cases hn : isExpiretop c n = true
      · simp [hexp, hn, noneExpiredAbove_of_top hn]
      · simp only [hexp, hn, not_false_eq_true, true_and, if_false, Bool.false_eq_true]
        specialize ih (by simpa using hn)
        split at ih
        case isTrue h =>
          obtain ⟨hnot, a, hup, hlen, heq⟩ := ih
          rw [if_pos h]
          refine ⟨hnot, a, hup, by simp; omega, ?_⟩
          rw [← heq]
          simp [closest, noneExpiredAbove_cons htop, hnot]
        case isFalse h =>
          rw [if_neg h]
          exact ih

theorem findClosestLoop_closest (hfuel : n.length < fuel) :
    findClosestLoop c true fuel n = closest c n.tails := by
  induction fuel generalizing n with
  | zero => cases hfuel
  | succ fuel ih =>
    rw [findClosestLoop]
    split
    case h_1 hnone =>
      cases n with
      | nil => simp [closest, hnone]
      | cons l n =>
        rw [tail?_cons, Option.bind_some, ih (Nat.lt_of_succ_lt_succ hfuel)]
        simp [closest, hnone]
    case h_2 rrset hsome =>
      have hfound (h : NoneExpiredAbove c n) : closest c n.tails = some rrset := by
        cases n <;> simp [closest, h, hsome]
      by_cases htop : isExpiretop c n = true
      · simp [htop, hfound (noneExpiredAbove_of_top htop)]
      · have hspec := rrsetExpiredAbove_spec (Bool.not_eq_true _ ▸ htop)
        split at hspec
        case isTrue h =>
          obtain ⟨-, a, hup, hlen, heq⟩ := hspec
          simp [htop, h, hup, heq, ih (show a.length < fuel by omega)]
        case isFalse h => simp [htop, h, hsome, hfound hspec]

/-- The RRset at the longest name is found, whatever names the inner walk skips. -/
theorem find_closest_of_type_longest (c : ClosestSearch) (qname : Name) (stripfront : Bool) :
    findClosestOfType c qname stripfront true =
      closest c (if stripfront then qname.tails.tail else qname.tails) := by
  cases stripfront with
  | false => exact findClosestLoop_closest (Nat.lt_succ_self _)
  | true =>
    cases qname with
    | nil => rfl
    | cons l n => exact findClosestLoop_closest (Nat.lt_succ_self _)

end CwdGate.DnsCache
