import CwdGate.Validator.Nsec3Progress

namespace CwdGate.Validator
open Std Lib List

/-- A correct NSEC3 chain: names in hash order, with empty non-terminals and nothing below a
delegation. -/
structure Nsec3Zone (env : Nsec3Env) where
  apex : Name
  iter : Nat
  salt : List UInt8
  names : List Name
  windows : Name → List BitmapBlock
  iter_lt : iter < 65536
  salt_lt : salt.length < 256
  sorted : (names.map (nsec3Hash env iter salt)).Pairwise (List.compareLex compare · · = .lt)
  below : ∀ n ∈ names, key apex <+: key n
  closed : ∀ n ∈ names, ∀ a : Name, key apex <+: key a → key a <+: key n →
    ∃ m ∈ names, key m = key a
  cut : ∀ n ∈ names, BitmapListed (windows n) typeNS → ¬ BitmapListed (windows n) typeSOA →
    ∀ m ∈ names, key n <+: key m → m.length ≤ n.length
  windowsWf : ∀ n, BlocksWf (windows n)

section zone
variable {env : Nsec3Env}

def Nsec3Zone.hash (z : Nsec3Zone env) (n : Name) : List UInt8 := nsec3Hash env z.iter z.salt n

def Nsec3Zone.hashes (z : Nsec3Zone env) : List (List UInt8) := z.names.map z.hash

/-- The hash that the record of the `i`-th name names; the last one wraps to the first. -/
def Nsec3Zone.nextHash (z : Nsec3Zone env) (i : Nat) : List UInt8 := circNext z.hashes [] i

def Nsec3Zone.Has (z : Nsec3Zone env) (n : Name) : Prop := ∃ m ∈ z.names, key m = key n

/-- A name has a record in the chain with neither the type nor a CNAME. -/
def Nsec3Zone.NoData (z : Nsec3Zone env) (n : Name) (type : UInt16) : Prop :=
  ∃ m ∈ z.names, key m = key n ∧ ¬ BitmapListed (z.windows m) type ∧
    ¬ BitmapListed (z.windows m) typeCNAME

/-- `rr` is the record of the chain at the name `n`, up to letter case. -/
structure Nsec3Of (z : Nsec3Zone env) (i : Nat) (n : Name) (rr : Nsec3Rr) : Prop where
  owner : z.names[i]? = some n
  dname : ∃ lab nm, rr.dname = lab :: nm ∧ lowerLabel lab = b32NtopExtendedHex (z.hash n)
  data : ∃ len0 len1 flags, rr.data = [len0, len1, 1, flags, (z.iter / 256).toUInt8,
    (z.iter % 256).toUInt8, z.salt.length.toUInt8] ++ (z.salt ++ (z.nextHash i).length.toUInt8 ::
      (z.nextHash i ++ encodeBlocks (z.windows n)))

variable {z : Nsec3Zone env} {rr : Nsec3Rr}

theorem Nsec3Of.mem (h : Nsec3Of z i n rr) : n ∈ z.names := List.mem_of_getElem? h.owner

theorem Nsec3Zone.length_hash (z : Nsec3Zone env) : (z.hash n).length = 20 :=
  length_nsec3Hash _

theorem Nsec3Of.hash_mem (h : Nsec3Of z i n rr) : z.hashes[i]? = some (z.hash n) := by
  unfold Nsec3Zone.hashes
  rw [getElem?_map, h.owner]
  rfl

theorem Nsec3Of.length_nextHash (h : Nsec3Of z i n rr) : (z.nextHash i).length = 20 := by
  have hlen : ∀ x ∈ z.hashes, x.length = 20 := by
    intro x hx
    obtain ⟨m, -, rfl⟩ := mem_map.1 hx
    exact z.length_hash
  unfold Nsec3Zone.nextHash circNext
  cases hn : z.hashes[i + 1]? with
  | some x => exact hlen x (mem_of_getElem? hn)
  | none =>
    have hmem := mem_of_getElem? h.hash_mem
    cases hs : z.hashes with
    | nil => rw [hs] at hmem; cases hmem
    | cons x xs => exact hlen x (hs ▸ mem_cons_self)

theorem Nsec3Of.getIter (h : Nsec3Of z i n rr) : nsec3GetIter rr = z.iter := by
  obtain ⟨len0, len1, flags, hd⟩ := h.data
  have hi := z.iter_lt
  unfold nsec3GetIter
  rw [hd, if_neg (by simp)]
  simp only [cons_append, getD_cons_succ, getD_cons_zero]
  rw [toNat_toUInt8_of_lt (by omega), toNat_toUInt8_of_lt (by omega)]
  omega

theorem Nsec3Of.getSalt (h : Nsec3Of z i n rr) : nsec3GetSalt rr = some z.salt := by
  obtain ⟨len0, len1, flags, hd⟩ := h.data
  unfold nsec3GetSalt
  rw [hd, if_neg (by simp)]
  simp only [cons_append, nil_append, getD_cons_succ, getD_cons_zero, drop_succ_cons, drop_zero]
  rw [toNat_toUInt8_of_lt z.salt_lt, if_neg (by simp; omega), take_left' rfl]

theorem getD_append_cons (h : pre.length = k) : (pre ++ x :: rest).getD k d = x := by
  rw [getD_append_right _ _ _ _ (Nat.le_of_eq h), h, Nat.sub_self]
  rfl

theorem drop_append_cons (h : pre.length = k) : (pre ++ x :: rest).drop (k + 1) = rest := by
  rw [← singleton_append, ← append_assoc, drop_left' (by simp [h])]

theorem Nsec3Of.around_next (h : Nsec3Of z i n rr) :
    ∃ pre : List UInt8, pre.length = 2 + 5 + z.salt.length ∧
      rr.data = pre ++ (z.nextHash i).length.toUInt8 ::
        (z.nextHash i ++ encodeBlocks (z.windows n)) := by
  obtain ⟨len0, len1, flags, hd⟩ := h.data
  refine ⟨[len0, len1, 1, flags, (z.iter / 256).toUInt8, (z.iter % 256).toUInt8,
    z.salt.length.toUInt8] ++ z.salt, ?_, ?_⟩
  · rw [length_append]
    rfl
  · rw [hd, append_assoc]

theorem Nsec3Of.lengths (h : Nsec3Of z i n rr) :
    (rr.data.getD (2 + 4) 0).toNat = z.salt.length ∧
      (rr.data.getD (2 + 5 + z.salt.length) 0).toNat = 20 ∧
      rr.data.length = 2 + 5 + z.salt.length + 1 + 20 + (encodeBlocks (z.windows n)).length := by
  obtain ⟨len0, len1, flags, hdata⟩ := h.data
  obtain ⟨pre, hpre, hd⟩ := h.around_next
  have hnext := h.length_nextHash
  refine ⟨?_, ?_, ?_⟩
  · rw [hdata]
    exact toNat_toUInt8_of_lt z.salt_lt
  · rw [hd, getD_append_cons hpre, hnext]
    rfl
  · rw [hd, length_append, length_cons, length_append, hpre, hnext]
    omega

theorem Nsec3Of.getNextowner (h : Nsec3Of z i n rr) :
    nsec3GetNextowner rr = some (z.nextHash i) := by
  obtain ⟨pre, hpre, hd⟩ := h.around_next
  obtain ⟨hsalt, hat, hlen⟩ := h.lengths
  unfold nsec3GetNextowner
  simp only [hsalt, hat]
  rw [if_neg (by omega), if_neg (by omega), if_neg (by omega), hd, drop_append_cons hpre,
    take_left' h.length_nextHash]

theorem Nsec3Of.hasType (h : Nsec3Of z i n rr) (type : UInt16) :
    nsec3HasType rr type = true ↔ BitmapListed (z.windows n) type := by
  obtain ⟨pre, hpre, hd⟩ := h.around_next
  obtain ⟨hsalt, hat, hlen⟩ := h.lengths
  have hskip : 2 + 4 + (1 + z.salt.length) = 2 + 5 + z.salt.length := by omega
  have hbits : rr.data.drop (2 + 5 + z.salt.length + (1 + 20)) = encodeBlocks (z.windows n) := by
    rw [← Nat.add_assoc, ← drop_drop, hd, drop_append_cons hpre, drop_left' h.length_nextHash]
  unfold nsec3HasType
  simp only [hsalt, hskip, hat, hbits]
  rw [if_neg (by omega), if_neg (by omega), if_neg (by omega)]
  exact nsecbitmapHasTypeRdata_encode (z.windowsWf n)

end zone

/-- Every entry of the cache holds the hash that its record's parameters give. -/
def CacheOk (env : Nsec3Env) (ct : List Nsec3CachedHash) : Prop :=
  ∀ c ∈ ct, ∃ salt, nsec3GetSalt c.nsec3 = some salt ∧ c = newHash env c.nsec3 c.dname salt

def HashFor (env : Nsec3Env) (nm : Name) (rr : Nsec3Rr) (c : Nsec3CachedHash) : Prop :=
  c.hash = nsec3Hash env (nsec3GetIter rr) ((nsec3GetSalt rr).getD []) nm ∧
    c.b32 = b32NtopExtendedHex c.hash

theorem hashFor_of_key (hct : CacheOk env ct) (hc : c ∈ ct) (hkey : c.key = hashKey nm rr) :
    HashFor env nm rr c := by
  obtain ⟨salt, hsalt, heq⟩ := hct c hc
  simp only [Nsec3CachedHash.key, hashKey, Prod.mk.injEq, hsalt, Option.getD_some] at hkey
  obtain ⟨hname, -, hiter, hs⟩ := hkey
  have hhash : c.hash = nsec3Hash env (nsec3GetIter c.nsec3) salt c.dname :=
    congrArg Nsec3CachedHash.hash heq
  have hb32 : c.b32 = b32NtopExtendedHex (nsec3Hash env (nsec3GetIter c.nsec3) salt c.dname) :=
    congrArg Nsec3CachedHash.b32 heq
  constructor
  · rw [hhash, hiter, hs]
    exact nsec3Hash_congr _ hname
  · rw [hb32, hhash]

/-- The cache is right, and what was found passed its test on the right hash of the name. -/
def Found (env : Nsec3Env) (test : Nsec3CachedHash → Nsec3Rr → Bool) (nm : Name)
    (rrs : List Nsec3Rr) (r : Option Nsec3Rr × Nsec3State) : Prop :=
  CacheOk env r.2.ct ∧ ∀ rr, r.1 = some rr → rr ∈ rrs ∧ ∃ c, HashFor env nm rr c ∧ test c rr = true

theorem Found.cons (h : Found env test nm rrs r) (rr : Nsec3Rr) : Found env test nm (rr :: rrs) r := by
  apply And.intro h.1
  intro x hx
  obtain ⟨hmem, hc⟩ := h.2 x hx
  exact ⟨mem_cons_of_mem _ hmem, hc⟩

theorem Found.head (hct : CacheOk env t.ct) (hc : HashFor env nm rr c) (htest : test c rr = true) :
    Found env test nm (rr :: rrs) (some rr, t) := by
  apply And.intro hct
  intro x hx
  cases hx
  exact ⟨mem_cons_self, c, hc, htest⟩

theorem findNsec3Loop_found (hct : CacheOk env s.ct) :
    Found env test nm rrs (findNsec3Loop env test nm rrs e s) := by
  induction rrs generalizing e s with
  | nil => exact ⟨hct, fun _ h => absurd h (Option.some_ne_none _).symm⟩
  | cons rr rrs ih =>
    rw [findNsec3Loop]
    by_cases hmax : maxNsec3Calculations ≤ s.calculations
    · rw [if_pos hmax]
      apply And.intro _ (by simp)
      split <;> exact hct
    rw [if_neg hmax]
    have hspec := nsec3HashName_spec env rr nm s
    generalize nsec3HashName env rr nm s = m at hspec
    cases hspec with
    | cached c mem key =>
      dsimp only
      split
      next htest => exact Found.head hct (hashFor_of_key hct mem key) htest
      next => exact (ih hct).cons rr
    | malloc n m fail => exact ⟨hct, by simp⟩
    | malformed fresh bad =>
      apply Found.cons
      apply ih
      exact hct
    | computed salt hsalt halgo fresh =>
      have hfor : HashFor env nm rr (newHash env rr nm salt) := by
        constructor
        · rw [hsalt]
          rfl
        · rfl
      have hok : CacheOk env (newHash env rr nm salt :: s.ct) := by
        exact forall_mem_cons.2 ⟨⟨salt, hsalt, rfl⟩, hct⟩
      dsimp only
      split
      next htest => exact Found.head hok hfor htest
      next => exact Found.cons (ih hok) rr

theorem lowerLabel_b32Ntop : lowerLabel (b32NtopExtendedHex src) = b32NtopExtendedHex src := by
  have hchar : ∀ d, tolower (b32Char d) = b32Char d := by
    apply forall_octet
    decide +kernel
  have hpad : tolower 61 = 61 := by decide
  unfold lowerLabel
  fun_induction b32NtopExtendedHex src <;> simp_all

theorem b32Ntop_injective (hl : xs.length = ys.length) (h5 : xs.length % 5 = 0)
    (h : b32NtopExtendedHex xs = b32NtopExtendedHex ys) : xs = ys := by
  have hcmp := compareLex_b32Ntop hl h5
  rw [h, @ReflCmp.compare_self _ (List.compareLex compare)] at hcmp
  exact LawfulEqCmp.eq_of_compare hcmp.symm

section tests
variable {env : Nsec3Env} {z : Nsec3Zone env}

theorem Nsec3Of.hashFor (h : Nsec3Of z i n rr) (hc : HashFor env nm rr c) :
    c.hash = z.hash nm ∧ c.b32 = b32NtopExtendedHex (z.hash nm) := by
  have hhash : c.hash = z.hash nm := by
    rw [hc.1, h.getIter, h.getSalt]
    rfl
  exact ⟨hhash, hhash ▸ hc.2⟩

theorem Nsec3Of.hash_of_matches (h : Nsec3Of z i n rr) (hc : HashFor env nm rr c)
    (htest : nsec3HashMatchesOwner zone c rr = true) : z.hash n = z.hash nm := by
  obtain ⟨lab, nm', hd, hlab⟩ := h.dname
  obtain ⟨-, hb32⟩ := h.hashFor hc
  unfold nsec3HashMatchesOwner at htest
  rw [hd] at htest
  simp only [decide_eq_true_eq] at htest
  have heq : lowerLabel lab = lowerLabel c.b32 := LawfulEqCmp.eq_of_compare htest.2.2.1
  rw [hlab, hb32, lowerLabel_b32Ntop] at heq
  exact b32Ntop_injective (by rw [z.length_hash, z.length_hash]) (by rw [z.length_hash]) heq

theorem Nsec3Of.compare_owner (hlab : lowerLabel lab = b32NtopExtendedHex (z.hash n))
    (hb32 : nm' = b32NtopExtendedHex (z.hash nm)) :
    labelCompareLower lab nm' = (z.hash n).compareLex compare (z.hash nm) := by
  unfold labelCompareLower
  rw [hlab, hb32, lowerLabel_b32Ntop, compareLex_b32Ntop (by rw [z.length_hash, z.length_hash])
    (by rw [z.length_hash])]

theorem Nsec3Of.decode_owner (hlab : lowerLabel lab = b32NtopExtendedHex (z.hash n)) :
    b32PtonExtendedHex (wire (lab :: rest)).tail lab.length = some (z.hash n) := by
  have hlen : lab.length = 32 := by
    have := congrArg length hlab
    rwa [length_lowerLabel, length_b32NtopExtendedHex _ (by rw [z.length_hash]),
      z.length_hash] at this
  have hsz : (UInt64.ofNat lab.length).toNat = lab.length := by
    rw [hlen]
    rfl
  exact b32PtonLoop_ntop (by rw [z.length_hash]) hlab hsz (wire rest) []

theorem Nsec3Of.not_mem_of_covers (h : Nsec3Of z i n rr) (hc : HashFor env nm rr c)
    (htest : nsec3Covers zone c rr = true) : z.hash nm ∉ z.hashes := by
  obtain ⟨lab, nm', hd, hlab⟩ := h.dname
  obtain ⟨hhash, hb32⟩ := h.hashFor hc
  apply not_mem_of_between (c := List.compareLex compare) (d := []) z.sorted h.hash_mem
  unfold nsec3Covers at htest
  rw [h.getNextowner, hd] at htest
  dsimp only at htest
  split at htest
  next => cases htest
  next hlens =>
    simp only [not_or, not_not] at hlens
    split at htest
    next hlt =>
      left
      rw [Nsec3Of.compare_owner hlab hb32, hhash] at hlt
      exact hlt
    next =>
      right
      rw [← hlens.2.2.2.1, Nsec3Of.decode_owner hlab] at htest
      dsimp only at htest
      split at htest
      next => cases htest
      next =>
        split at htest
        next => cases htest
        next =>
          rw [decide_eq_true_eq, hhash] at htest
          exact htest

theorem Nsec3Zone.not_has_of_hash (h : z.hash nm ∉ z.hashes) : ¬ z.Has nm := by
  intro hhas
  obtain ⟨m, hm, hk⟩ := hhas
  apply h
  have hhash : z.hash m = z.hash nm := nsec3Hash_congr z.iter (key_injective_iff.1 hk)
  rw [← hhash]
  exact mem_map_of_mem hm

end tests

section soundness
variable {env : Nsec3Env} {z : Nsec3Zone env} {flt : Nsec3Filter} {qinfo : QueryInfo} {fuel : Nat}

def FromChain (z : Nsec3Zone env) (flt : Nsec3Filter) : Prop :=
  ∀ rr ∈ filterRrs flt, ∃ i n, Nsec3Of z i n rr

/-- No name that the proofs hash collides with a name of the chain. -/
def HashInjective (z : Nsec3Zone env) (qname : Name) : Prop :=
  ∀ n ∈ z.names, ∀ m ∈ candidates qname, z.hash n = z.hash m → key n = key m

theorem findMatchingNsec3_sound (hchain : FromChain z flt) (hinj : HashInjective z qinfo.qname)
    (hnm : nm ∈ candidates qinfo.qname) (hct : CacheOk env s.ct) :
    CacheOk env (findMatchingNsec3 env flt nm s).2.ct ∧
      ∀ rr, (findMatchingNsec3 env flt nm s).1 = some rr →
        ∃ i n, Nsec3Of z i n rr ∧ key n = key nm := by
  obtain ⟨hok, hfound⟩ := findNsec3Loop_found hct
  apply And.intro hok
  intro rr hr
  obtain ⟨hmem, c, hc, htest⟩ := hfound rr hr
  obtain ⟨i, n, hof⟩ := hchain rr hmem
  exact ⟨i, n, hof, hinj n hof.mem nm hnm (hof.hash_of_matches hc htest)⟩

theorem findCoveringNsec3_sound (hchain : FromChain z flt) (hct : CacheOk env s.ct) :
    CacheOk env (findCoveringNsec3 env flt nm s).2.ct ∧
      ∀ rr, (findCoveringNsec3 env flt nm s).1 = some rr → ¬ z.Has nm := by
  obtain ⟨hok, hfound⟩ := findNsec3Loop_found hct
  apply And.intro hok
  intro rr hr
  obtain ⟨hmem, c, hc, htest⟩ := hfound rr hr
  obtain ⟨i, n, hof⟩ := hchain rr hmem
  exact Nsec3Zone.not_has_of_hash (hof.not_mem_of_covers hc htest)

theorem nsec3FindClosestEncloser_sound (hchain : FromChain z flt)
    (hinj : HashInjective z qinfo.qname) (fuel : Nat) (hnm : nm <:+ qinfo.qname)
    (hct : CacheOk env s.ct) :
    Post (nsec3FindClosestEncloser env flt fuel nm s) fun r =>
      CacheOk env r.2.ct ∧ ∀ ce rr, r.1 = some (ce, rr) → ce <:+ qinfo.qname ∧
        ∃ i n, Nsec3Of z i n rr ∧ key n = key ce := by
  induction fuel generalizing nm s with
  | zero => exact .none
  | succ fuel ih =>
    rw [nsec3FindClosestEncloser]
    split
    case isFalse => exact .some ⟨hct, by simp⟩
    split
    case isTrue => exact .some ⟨hct, by simp⟩
    have hm := findMatchingNsec3_sound hchain hinj (mem_candidates_of_suffix hnm) hct
    generalize findMatchingNsec3 env flt nm s = m at hm
    obtain ⟨_ | rr, s'⟩ := m
    case none => exact ih ((tail_suffix nm).trans hnm) hm.1
    case some =>
      apply Post.some
      apply And.intro hm.1
      intro ce rr' hce
      cases hce
      exact ⟨hnm, hm.2 rr rfl⟩

/-- `ce` is the longest ancestor of the query name that has a record in the chain. -/
structure ClosestEncloser (z : Nsec3Zone env) (q ce : Name) : Prop where
  suffix : ce <:+ q
  shorter : ce.length < q.length
  has : z.Has ce
  above : ∀ a, a <:+ q → ce.length < a.length → ¬ z.Has a

theorem closestEncloser_of_nextCloser (hsuf : ce <:+ q) (hlen : ce.length < q.length)
    (hhas : z.Has ce) (hnc : ¬ z.Has (nextCloser q ce)) : ClosestEncloser z q ce := by
  apply ClosestEncloser.mk hsuf hlen hhas
  intro a ha hless hhas'
  apply hnc
  have hnclen : (nextCloser q ce).length = ce.length + 1 := by
    unfold nextCloser dnameRemoveLabels dnameCountLabels
    rw [length_drop]
    omega
  have hca := suffix_of_suffix_length_le hsuf (nextCloser_suffix q ce) (by omega)
  have hna := suffix_of_suffix_length_le (nextCloser_suffix q ce) ha (by omega)
  obtain ⟨n, hn, hkn⟩ := hhas
  obtain ⟨m, hm, hkm⟩ := hhas'
  have hapex : key z.apex <+: key (nextCloser q ce) :=
    (hkn ▸ z.below n hn).trans (key_prefix_of_suffix hca)
  exact z.closed m hm (nextCloser q ce) hapex (hkm ▸ key_prefix_of_suffix hna)

theorem suffix_length_lt (h : ce <:+ q) (hne : queryDnameCompare ce q ≠ .eq) :
    ce.length < q.length := by
  apply Nat.lt_of_le_of_ne h.length_le
  intro hlen
  apply hne
  rw [h.eq_of_length hlen]
  exact (queryDnameCompare_eq_iff q q).2 rfl

inductive CeSound (z : Nsec3Zone env) (q : Name) : SecStatus → Option CeResponse → Prop
  | failed {sec : SecStatus} (ce : Option CeResponse) (h : sec = .bogus ∨ sec = .unchecked) :
    CeSound z q sec ce
  | proved {r : CeResponse} (h : ClosestEncloser z q r.ce) : CeSound z q .secure (some r)
  | delegation {r : CeResponse} {n : Name} (suffix : r.ce <:+ q) (mem : n ∈ z.names)
    (hkey : key n = key r.ce) (ns : BitmapListed (z.windows n) typeNS)
    (soa : ¬ BitmapListed (z.windows n) typeSOA) : CeSound z q .insecure (some r)

theorem searchFailed_bogus :
    searchFailed s .bogus = .bogus ∨ searchFailed s .bogus = .unchecked := by
  unfold searchFailed
  split
  · exact .inl rfl
  · split
    · exact .inr rfl
    · exact .inl rfl

theorem searchFailed_ne (h1 : sec ≠ other) (h2 : .bogus ≠ other)
    (h3 : .unchecked ≠ other) : searchFailed s sec ≠ other := by
  unfold searchFailed
  split
  · exact h2
  · split
    · exact h3
    · exact h1

theorem nodataMatching_secure (h : nodataMatching qinfo rr = .secure) :
    nsec3HasType rr qinfo.qtype ≠ true ∧ nsec3HasType rr typeCNAME ≠ true := by
  unfold nodataMatching at h
  split at h
  next => cases h
  next htype =>
    split at h
    next => cases h
    next hcname => exact ⟨htype, hcname⟩

theorem nodataWildcard_secure (h : nodataWildcard qinfo nc rr = .secure) :
    nsec3HasType rr qinfo.qtype ≠ true ∧ nsec3HasType rr typeCNAME ≠ true := by
  unfold nodataWildcard at h
  split at h
  next => cases h
  next htype =>
    split at h
    next => cases h
    next hcname => exact ⟨htype, hcname⟩

theorem nodataOptout_ne_secure : nodataOptout nc ≠ .secure := by
  unfold nodataOptout
  repeat' split
  all_goals nofun

theorem Nsec3Of.noData (h : Nsec3Of z i n rr) (hk : key n = key nm)
    (htypes : nsec3HasType rr type ≠ true ∧ nsec3HasType rr typeCNAME ≠ true) :
    z.NoData nm type := by
  rw [ne_eq, h.hasType, ne_eq, h.hasType] at htypes
  exact ⟨n, h.mem, hk, htypes⟩

theorem Nsec3Zone.no_wildcard_below_cut (hn : n ∈ z.names) (hk : key n = key ce)
    (hns : BitmapListed (z.windows n) typeNS) (hsoa : ¬ BitmapListed (z.windows n) typeSOA) :
    ¬ z.NoData (wildLabel :: ce) type := by
  intro hno
  obtain ⟨m, hm, hkm, -⟩ := hno
  have hp : key n <+: key m := by
    rw [hk, hkm]
    exact key_prefix_of_suffix (suffix_cons _ _)
  have hle := z.cut n hn hns hsoa m hm hp
  have hl1 := congrArg length hk
  have hl2 := congrArg length hkm
  rw [length_key, length_key] at hl1 hl2
  rw [length_cons] at hl2
  omega

variable (hchain : FromChain z flt) (hinj : HashInjective z qinfo.qname)
include hchain hinj

theorem nsec3ProveClosestEncloser_sound (fuel : Nat) (hct : CacheOk env s.ct) :
    Post (nsec3ProveClosestEncloser env fuel flt qinfo true s) fun r =>
      CacheOk env r.2.2.ct ∧ CeSound z qinfo.qname r.1 r.2.1 := by
  unfold nsec3ProveClosestEncloser
  have hfind := nsec3FindClosestEncloser_sound hchain hinj fuel (suffix_refl qinfo.qname) hct
  generalize nsec3FindClosestEncloser env flt fuel qinfo.qname s = x at hfind
  obtain _ | ⟨_ | ⟨c, ceRr⟩, s'⟩ := x
  · exact .none
  · exact .some ⟨hfind.get.1, .failed _ searchFailed_bogus⟩
  obtain ⟨hok, hfound⟩ := hfind.get
  obtain ⟨hsuf, i, n, hof, hkey⟩ := hfound c ceRr rfl
  dsimp only
  split
  · exact .some ⟨hok, .failed _ (.inl rfl)⟩
  rename_i hne
  split
  case isTrue hns =>
    rw [hof.hasType, hof.hasType] at hns
    split
    · exact .some ⟨hok, .delegation hsuf hof.mem hkey hns.1 hns.2⟩
    · exact .some ⟨hok, .failed _ (.inl rfl)⟩
  split
  · exact .some ⟨hok, .failed _ (.inl rfl)⟩
  obtain ⟨hok2, hnot⟩ := findCoveringNsec3_sound hchain hok
  generalize findCoveringNsec3 env flt (nextCloser qinfo.qname c) s' = m at hok2 hnot
  obtain ⟨_ | nc, s2⟩ := m
  · exact .some ⟨hok2, .failed _ searchFailed_bogus⟩
  · exact .some ⟨hok2, .proved (closestEncloser_of_nextCloser hsuf (suffix_length_lt hsuf hne)
      ⟨n, hof.mem, hkey⟩ (hnot nc rfl))⟩

/-- Nothing between the closest encloser and the query name, and no wildcard at the encloser. -/
theorem nsec3DoProveNameerror_sound (hct : CacheOk env s.ct) :
    Post (nsec3DoProveNameerror env fuel flt qinfo s) fun r => r.1 = .secure →
      ∃ ce, ClosestEncloser z qinfo.qname ce ∧ ¬ z.Has (wildLabel :: ce) := by
  unfold nsec3DoProveNameerror
  have hp := nsec3ProveClosestEncloser_sound hchain hinj fuel hct
  generalize nsec3ProveClosestEncloser env fuel flt qinfo true s = x at hp
  obtain _ | ⟨sec, ce, s'⟩ := x
  · exact .none
  obtain ⟨hok, hsound⟩ := hp.get
  cases hsound with
  | failed ce hsec => rcases hsec with rfl | rfl <;> exact .some nofun
  | delegation suffix mem hkey ns soa => exact .some nofun
  | @proved r hce =>
    obtain ⟨hct2, -, hwc⟩ := nsec3CeWildcard_spec
    dsimp only
    generalize nsec3CeWildcard env r.ce s' = w at hct2 hwc
    obtain ⟨_ | wc, s2⟩ := w
    · exact .some nofun
    cases hwc wc rfl
    obtain ⟨-, hnot⟩ := findCoveringNsec3_sound hchain (hct2.symm ▸ hok)
    dsimp only
    generalize findCoveringNsec3 env flt (wildLabel :: r.ce) s2 = m at hnot
    obtain ⟨_ | rr, s3⟩ := m
    · exact .some fun hst => absurd hst (searchFailed_ne nofun nofun nofun)
    · dsimp only
      split <;> exact .some fun _ => ⟨r.ce, hce, hnot rr rfl⟩

theorem nodataClosestEncloser_sound (hce : ce.ce <:+ qinfo.qname) (hct : CacheOk env s.ct)
    (h : (nodataClosestEncloser env flt qinfo ce s).1 = .secure) :
    z.NoData (wildLabel :: ce.ce) qinfo.qtype := by
  unfold nodataClosestEncloser at h
  have hfail : ∀ s', searchFailed s' (nodataOptout ce.ncRr) ≠ .secure :=
    fun s' => searchFailed_ne nodataOptout_ne_secure nofun nofun
  obtain ⟨hct2, -, hwc⟩ := nsec3CeWildcard_spec
  generalize nsec3CeWildcard env ce.ce s = w at h hct2 hwc
  obtain ⟨_ | wc, s2⟩ := w
  · exact absurd h (hfail _)
  cases hwc wc rfl
  obtain ⟨-, hmatch⟩ :=
    findMatchingNsec3_sound hchain hinj (wild_mem_candidates hce) (hct2.symm ▸ hct)
  dsimp only at h
  generalize findMatchingNsec3 env flt (wildLabel :: ce.ce) s2 = m at h hmatch
  obtain ⟨_ | rr, s3⟩ := m
  · exact absurd h (hfail _)
  · obtain ⟨i, n, hof, hk⟩ := hmatch rr rfl
    exact hof.noData hk (nodataWildcard_secure h)

/-- The name, or the wildcard at its closest encloser, has a record without the types. -/
theorem nsec3DoProveNodata_sound (hct : CacheOk env s.ct) :
    Post (nsec3DoProveNodata env fuel flt qinfo s) fun r => r.1 = .secure →
      z.NoData qinfo.qname qinfo.qtype ∨
        (¬ z.Has qinfo.qname ∧ ∃ ce, ClosestEncloser z qinfo.qname ce ∧
          z.NoData (wildLabel :: ce) qinfo.qtype) := by
  unfold nsec3DoProveNodata
  have hm := findMatchingNsec3_sound hchain hinj
    (mem_candidates_of_suffix (suffix_refl qinfo.qname)) hct
  generalize findMatchingNsec3 env flt qinfo.qname s = m at hm
  obtain ⟨_ | rr, s'⟩ := m
  case some =>
    apply Post.some
    intro hsec
    obtain ⟨i, n, hof, hk⟩ := hm.2 rr rfl
    exact .inl (hof.noData hk (nodataMatching_secure hsec))
  dsimp only
  split
  · exact .some nofun
  split
  · exact .some nofun
  have hp := nsec3ProveClosestEncloser_sound hchain hinj fuel hm.1
  generalize nsec3ProveClosestEncloser env fuel flt qinfo true s' = x at hp
  obtain _ | ⟨sec, ce, s2⟩ := x
  · exact .none
  obtain ⟨hok, hsound⟩ := hp.get
  dsimp only at hok hsound ⊢
  cases hsound with
  | failed ce hsec => rcases hsec with rfl | rfl <;> exact .some nofun
  | @proved r hce =>
    apply Post.some
    intro hsec
    have hno := nodataClosestEncloser_sound hchain hinj hce.suffix hok hsec
    exact .inr ⟨hce.above qinfo.qname (suffix_refl _) hce.shorter, r.ce, hce, hno⟩
  | @delegation r n suffix mem hkey ns soa =>
    rw [if_neg nofun]
    split
    · exact .some nofun
    · apply Post.some
      intro hsec
      have hno := nodataClosestEncloser_sound hchain hinj suffix hok hsec
      exact absurd hno (Nsec3Zone.no_wildcard_below_cut mem hkey ns soa)

end soundness

theorem proveStart_ne_secure : proveStart ve list qinfo kkey ≠ .error .secure := by
  unfold proveStart
  repeat' split
  all_goals nofun

/-- Secure name error and nodata answers are right for every chain that the records belong to. -/
theorem proveStart_some {body : Nsec3Filter → Option (SecStatus × Nsec3State)}
    (h : (match proveStart ve list qinfo kkey with
      | .error sec => some (sec, s)
      | .ok flt => body flt) = some (.secure, t)) :
    ∃ flt, filterInit list qinfo = some flt ∧ body flt = some (.secure, t) := by
  cases hst : proveStart ve list qinfo kkey with
  | error sec =>
    rw [hst] at h
    cases h
    exact absurd hst proveStart_ne_secure
  | ok flt =>
    rw [hst] at h
    exact ⟨flt, proveStart_ok hst, h⟩

theorem nsec3_secure_sound {env : Nsec3Env} {z : Nsec3Zone env} {fuel : Nat}
    {ve : List (Nat × Nat)} {list : List RrsetKey} {qinfo : QueryInfo} {kkey : Option KeyEntry}
    {s t : Nsec3State} (hct : CacheOk env s.ct) (hinj : HashInjective z qinfo.qname)
    (hchain : ∀ flt, filterInit list qinfo = some flt → FromChain z flt) :
    (nsec3ProveNameerror env fuel ve list qinfo kkey s = some (.secure, t) →
      ∃ ce, ClosestEncloser z qinfo.qname ce ∧ ¬ z.Has qinfo.qname ∧ ¬ z.Has (wildLabel :: ce)) ∧
    (nsec3ProveNodata env fuel ve list qinfo kkey s = some (.secure, t) →
      z.NoData qinfo.qname qinfo.qtype ∨
        (¬ z.Has qinfo.qname ∧ ∃ ce, ClosestEncloser z qinfo.qname ce ∧
          z.NoData (wildLabel :: ce) qinfo.qtype)) := by
  constructor
  · intro h
    obtain ⟨flt, hf, hbody⟩ := proveStart_some h
    obtain ⟨ce, hce, hwild⟩ :=
      nsec3DoProveNameerror_sound (hchain flt hf) hinj hct _ hbody rfl
    exact ⟨ce, hce, hce.above _ (suffix_refl _) hce.shorter, hwild⟩
  · intro h
    obtain ⟨flt, hf, hbody⟩ := proveStart_some h
    exact nsec3DoProveNodata_sound (hchain flt hf) hinj hct _ hbody rfl

def padEnv : Nsec3Env where
  sha1 bytes := Vector.ofFn fun i => bytes.getD i.val 0
  mem _ := true

def soleZone : Nsec3Zone padEnv where
  apex := [[122]]
  iter := 0
  salt := []
  names := [[[122]]]
  windows _ := []
  iter_lt := by decide
  salt_lt := by decide
  sorted := List.pairwise_singleton _ _
  below := by decide
  closed n hn a ha hp := by
    rw [List.mem_singleton.1 hn] at hp
    exact ⟨[[122]], List.mem_singleton_self _, ha.eq_of_length_le hp.length_le⟩
  cut _ _ hns := by
    obtain ⟨blk, hblk, -⟩ := hns
    cases hblk
  windowsWf _ := blocksWf_nil

def soleRrset : RrsetKey :=
  ⟨[b32NtopExtendedHex (soleZone.hash [[122]]), [122]], 50, 1,
    [[0, 26, 1, 0, 0, 0, 0, 20] ++ soleZone.hash [[122]]], true⟩

theorem soleRr_of (h : rr ∈ soleRrset.rrs) : Nsec3Of soleZone 0 [[122]] rr := by
  rw [mem_singleton.1 h]
  exact ⟨rfl, ⟨_, _, rfl, by decide⟩, ⟨0, 26, 0, by decide⟩⟩

theorem nsec3_secure_sound_sole :
    (∃ t, nsec3ProveNameerror padEnv 3 [(0, 0)] [soleRrset] nsec3Query (some ⟨true, 0⟩) ⟨[], 0, 0⟩ =
      some (.secure, t)) ∧
    ∃ ce, ClosestEncloser soleZone [[120], [122]] ce ∧ ¬ soleZone.Has [[120], [122]] ∧
      ¬ soleZone.Has (wildLabel :: ce) := by
  have hct : CacheOk padEnv [] := nofun
  have hinj : HashInjective soleZone [[120], [122]] := by
    unfold HashInjective
    decide
  have hchain : ∀ flt, filterInit [soleRrset] nsec3Query = some flt → FromChain soleZone flt := by
    intro flt hf rr hrr
    obtain ⟨-, -, s, hs, hmem⟩ := mem_filterRrs hrr
    cases hf
    rw [mem_singleton.1 hs] at hmem
    exact ⟨0, [[122]], soleRr_of hmem⟩
  have hrun : ∃ t, nsec3ProveNameerror padEnv 3 [(0, 0)] [soleRrset] nsec3Query
      (some ⟨true, 0⟩) ⟨[], 0, 0⟩ = some (.secure, t) := ⟨_, rfl⟩
  obtain ⟨t, ht⟩ := hrun
  exact ⟨⟨t, ht⟩, (nsec3_secure_sound hct hinj hchain).1 ht⟩

end CwdGate.Validator
