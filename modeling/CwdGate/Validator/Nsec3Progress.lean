import CwdGate.Lib.Loop
import CwdGate.Validator.Nsec3

namespace CwdGate.Validator
open Std Lib List

/-- The cache grew by `k` entries, all of them new and with keys from `K`. -/
def Adds (K : List HashKey) (k : Nat) (ct ct' : List Nsec3CachedHash) : Prop :=
  ∃ new : List Nsec3CachedHash, ct' = new ++ ct ∧ new.length = k ∧
    (new.map Nsec3CachedHash.key).Nodup ∧ (∀ c ∈ new, Uncached ct c.key) ∧ ∀ c ∈ new, c.key ∈ K

section adds
variable {ct : List Nsec3CachedHash}

theorem Adds.refl (K : List HashKey) (ct : List Nsec3CachedHash) : Adds K 0 ct ct :=
  ⟨[], rfl, rfl, nodup_nil, nofun, nofun⟩

theorem Adds.one (hc : Uncached ct c.key) (hK : c.key ∈ K) : Adds K 1 ct (c :: ct) := by
  exact ⟨[c], rfl, rfl, nodup_singleton _, forall_mem_singleton.2 hc, forall_mem_singleton.2 hK⟩

theorem Adds.trans (h : Adds K k ct ct') (h' : Adds K l ct' ct'') : Adds K (k + l) ct ct'' := by
  obtain ⟨new, rfl, rfl, hnd, hfr, hk⟩ := h
  obtain ⟨new', rfl, rfl, hnd', hfr', hk'⟩ := h'
  have hnodup : ((new' ++ new).map Nsec3CachedHash.key).Nodup := by
    rw [map_append]
    apply hnd'.append hnd
    intro key hkey' hkey
    obtain ⟨c', hc', rfl⟩ := mem_map.1 hkey'
    obtain ⟨c, hc, heq⟩ := mem_map.1 hkey
    exact hfr' c' hc' c (mem_append_left _ hc) heq
  have hfresh := forall_mem_append.2 ⟨fun c hc d hd => hfr' c hc d (mem_append_right _ hd), hfr⟩
  exact ⟨new' ++ new, (append_assoc _ _ _).symm, by rw [length_append, Nat.add_comm],
    hnodup, hfresh, forall_mem_append.2 ⟨hk', hk⟩⟩

theorem Adds.le (h : Adds K k ct ct') : k ≤ K.dedup.length := by
  obtain ⟨new, -, rfl, hnd, -, hk⟩ := h
  have hsub : new.map Nsec3CachedHash.key ⊆ K.dedup := by
    intro key hkey
    obtain ⟨c, hc, rfl⟩ := mem_map.1 hkey
    exact mem_dedup.2 (hk c hc)
  have hle := (List.Nodup.subperm hnd hsub).length_le
  rwa [length_map] at hle

theorem Adds.exists_new (h : Adds K k ct ct') (hk : 0 < k) : ∃ c ∈ ct', Uncached ct c.key := by
  obtain ⟨new, rfl, rfl, -, hfr, -⟩ := h
  obtain ⟨c, hc⟩ := exists_mem_of_length_pos hk
  exact ⟨c, mem_append_left _ hc, hfr c hc⟩

end adds

/-- Every calculation that was counted has left its entry in the cache. -/
def Accounted (K : List HashKey) (s t : Nsec3State) : Prop :=
  ∃ k : Nat, Adds K k s.ct t.ct ∧ t.calculations = s.calculations + k

section accounted
variable {s t : Nsec3State}

theorem Accounted.refl (K : List HashKey) (s : Nsec3State) : Accounted K s s :=
  ⟨0, Adds.refl K s.ct, (Int.add_zero _).symm⟩

theorem Accounted.trans (h : Accounted K s t) (h' : Accounted K t u) : Accounted K s u := by
  obtain ⟨k, hk, hc⟩ := h
  obtain ⟨l, hl, hc'⟩ := h'
  exact ⟨k + l, hk.trans hl, by rw [hc', hc]; omega⟩

theorem Accounted.of_eq (hct : t.ct = s.ct) (hc : t.calculations = s.calculations) :
    Accounted K s t :=
  ⟨0, hct ▸ Adds.refl K s.ct, by rw [hc]; omega⟩

end accounted

/-- The parameters of every record can be read. -/
def WellFormed (rrs : List Nsec3Rr) : Prop :=
  ∀ rr ∈ rrs, (nsec3GetSalt rr).isSome = true ∧ nsec3GetAlgo rr = 1

section search
variable {env : Nsec3Env}

theorem findNsec3Loop_accounted (hwf : WellFormed rrs) (hK : ∀ rr ∈ rrs, hashKey nm rr ∈ K)
    (s : Nsec3State) : Accounted K s (findNsec3Loop env test nm rrs 0 s).2 := by
  induction rrs generalizing s with
  | nil => exact Accounted.refl K s
  | cons rr rrs ih =>
    have ih := ih (forall_mem_cons.1 hwf).2 (forall_mem_cons.1 hK).2
    obtain ⟨hsalt, halgo⟩ := hwf rr mem_cons_self
    rw [findNsec3Loop]
    by_cases hmax : maxNsec3Calculations ≤ s.calculations
    · have hne : ¬ (0 : Int) = s.calculations := by
        unfold maxNsec3Calculations at hmax
        omega
      rw [if_pos hmax, if_neg hne]
      exact Accounted.refl K s
    rw [if_neg hmax]
    have hspec := nsec3HashName_spec env rr nm s
    generalize nsec3HashName env rr nm s = r at hspec
    cases hspec with
    | cached c mem key =>
      dsimp only
      split
      · exact Accounted.refl K s
      · exact ih s
    | malloc n m fail => exact Accounted.of_eq rfl rfl
    | malformed fresh bad =>
      rcases bad with bad | bad
      · rw [bad] at hsalt
        cases hsalt
      · exact absurd halgo bad
    | computed salt hs ha fresh =>
      have hone : Accounted K s ⟨newHash env rr nm salt :: s.ct, s.allocs + 3,
          s.calculations + 1⟩ :=
        ⟨1, Adds.one fresh (hK rr mem_cons_self), rfl⟩
      dsimp only
      split
      · exact hone
      · exact hone.trans (ih _)

def candidates (qname : Name) : List Name :=
  qname.tails ++ qname.tails.map (wildLabel :: ·)

theorem mem_candidates_of_suffix (h : nm <:+ q) : nm ∈ candidates q :=
  mem_append_left _ ((mem_tails _ _).2 h)

theorem wild_mem_candidates (h : ce <:+ q) : wildLabel :: ce ∈ candidates q :=
  mem_append_right _ (mem_map_of_mem ((mem_tails _ _).2 h))

theorem nextCloser_suffix (q ce : Name) : nextCloser q ce <:+ q := List.drop_suffix _ _

/-- The keys of all candidate names under the parameters of all records. -/
def hashPairs (flt : Nsec3Filter) (qname : Name) : List HashKey :=
  (candidates qname).flatMap fun nm => (filterRrs flt).map (hashKey nm)

theorem hashKey_mem_hashPairs (h : nm ∈ candidates q) (hr : rr ∈ filterRrs flt) :
    hashKey nm rr ∈ hashPairs flt q :=
  mem_flatMap.2 ⟨nm, h, mem_map_of_mem hr⟩

variable (env) (hwf : WellFormed (filterRrs flt))
include hwf

theorem findMatchingNsec3_accounted (h : nm ∈ candidates q) (s : Nsec3State) :
    Accounted (hashPairs flt q) s (findMatchingNsec3 env flt nm s).2 :=
  findNsec3Loop_accounted hwf (fun _ hr => hashKey_mem_hashPairs h hr) s

theorem findCoveringNsec3_accounted (h : nm ∈ candidates q) (s : Nsec3State) :
    Accounted (hashPairs flt q) s (findCoveringNsec3 env flt nm s).2 :=
  findNsec3Loop_accounted hwf (fun _ hr => hashKey_mem_hashPairs h hr) s

theorem nsec3FindClosestEncloser_accounted (fuel : Nat) (hnm : nm <:+ q) (s : Nsec3State) :
    Post (nsec3FindClosestEncloser env flt fuel nm s) fun r =>
      Accounted (hashPairs flt q) s r.2 ∧ ∀ ce rr, r.1 = some (ce, rr) → ce <:+ q := by
  induction fuel generalizing nm s with
  | zero => exact .none
  | succ fuel ih =>
    rw [nsec3FindClosestEncloser]
    split
    case isFalse => exact .some ⟨.refl _ _, nofun⟩
    split
    case isTrue => exact .some ⟨.refl _ _, nofun⟩
    have hm := findMatchingNsec3_accounted env hwf (mem_candidates_of_suffix hnm) s
    generalize findMatchingNsec3 env flt nm s = m at hm
    obtain ⟨_ | rr, s'⟩ := m
    case none =>
      exact (ih ((tail_suffix nm).trans hnm) s').mono fun r h => ⟨hm.trans h.1, h.2⟩
    case some =>
      apply Post.some
      apply And.intro hm
      intro ce rr' hce
      cases hce
      exact hnm

end search

/-- A proof counts what it adds, and asks to be called again only when the budget is spent. -/
def Resumable (K : List HashKey) (s : Nsec3State) (sec : SecStatus) (t : Nsec3State) : Prop :=
  Accounted K s t ∧ (sec = .unchecked → maxNsec3Calculations ≤ t.calculations)

theorem searchFailed_unchecked (hsec : sec ≠ .unchecked) (h : searchFailed s sec = .unchecked) :
    maxNsec3Calculations ≤ s.calculations := by
  unfold searchFailed at h
  split at h
  · cases h
  split at h
  case isTrue hmax => exact hmax
  case isFalse => exact absurd h hsec

section resumable
variable {s t : Nsec3State}

theorem Resumable.of_ne (h : Accounted K s t) (hsec : sec ≠ .unchecked) : Resumable K s sec t :=
  ⟨h, fun hc => absurd hc hsec⟩

theorem Resumable.failed (h : Accounted K s t) (hsec : sec ≠ .unchecked) :
    Resumable K s (searchFailed t sec) t :=
  ⟨h, searchFailed_unchecked hsec⟩

theorem Resumable.trans (h : Accounted K s t) (h' : Resumable K t sec u) : Resumable K s sec u :=
  ⟨h.trans h'.1, h'.2⟩

end resumable

theorem nsec3CeWildcard_spec :
    (nsec3CeWildcard env ce s).2.ct = s.ct ∧
      (nsec3CeWildcard env ce s).2.calculations = s.calculations ∧
      ∀ wc, (nsec3CeWildcard env ce s).1 = some wc → wc = wildLabel :: ce := by
  unfold nsec3CeWildcard
  split
  · exact ⟨rfl, rfl, nofun⟩
  split
  · exact ⟨rfl, rfl, fun wc hwc => (Option.some.inj hwc).symm⟩
  · exact ⟨rfl, rfl, nofun⟩

theorem nodataMatching_ne : nodataMatching qinfo rr ≠ .unchecked := by
  unfold nodataMatching
  repeat' split
  all_goals nofun

theorem nodataWildcard_ne : nodataWildcard qinfo nc rr ≠ .unchecked := by
  unfold nodataWildcard
  repeat' split
  all_goals nofun

theorem nodataOptout_ne : nodataOptout nc ≠ .unchecked := by
  unfold nodataOptout
  repeat' split
  all_goals nofun

theorem nodsMatching_ne : (nodsMatching qinfo rr).1 ≠ .unchecked := by
  unfold nodsMatching
  repeat' split
  all_goals nofun

theorem nodsOptout_ne : (nodsOptout nc).1 ≠ .unchecked := by
  unfold nodsOptout
  repeat' split
  all_goals nofun

theorem nxornodataStatus_unchecked (h : (nxornodataStatus secnx sec).1 = .unchecked) :
    sec = .unchecked := by
  unfold nxornodataStatus at h
  repeat' split at h
  all_goals first | exact h | cases h

section proofs
variable (env : Nsec3Env) (qinfo : QueryInfo) (hwf : WellFormed (filterRrs flt))
include hwf

theorem nsec3ProveClosestEncloser_resumable (b : Bool) (fuel : Nat) (s : Nsec3State) :
    Post (nsec3ProveClosestEncloser env fuel flt qinfo b s) fun r =>
      Resumable (hashPairs flt qinfo.qname) s r.1 r.2.2 ∧
        ∀ c, r.2.1 = some c → c.ce <:+ qinfo.qname := by
  unfold nsec3ProveClosestEncloser
  have hfind := nsec3FindClosestEncloser_accounted env hwf fuel (suffix_refl qinfo.qname) s
  generalize nsec3FindClosestEncloser env flt fuel qinfo.qname s = x at hfind
  obtain _ | ⟨_ | ⟨c, ceRr⟩, s'⟩ := x
  · exact .none
  · exact .some ⟨.failed hfind.get.1 nofun, nofun⟩
  obtain ⟨hacc, hsuf⟩ := hfind.get
  have hkeep : ∀ nc r, (some ⟨c, ceRr, nc⟩ : Option CeResponse) = some r → r.ce <:+ qinfo.qname := by
    intro nc r hr
    cases hr
    exact hsuf c ceRr rfl
  dsimp only
  split
  · split <;> exact .some ⟨.of_ne hacc nofun, hkeep _⟩
  split
  · split <;> exact .some ⟨.of_ne hacc nofun, hkeep _⟩
  split
  · exact .some ⟨.of_ne hacc nofun, hkeep _⟩
  have hcov := findCoveringNsec3_accounted env hwf
    (mem_candidates_of_suffix (nextCloser_suffix qinfo.qname c)) s'
  generalize findCoveringNsec3 env flt (nextCloser qinfo.qname c) s' = m at hcov
  obtain ⟨_ | nc, s''⟩ := m
  · exact .some ⟨.failed (hacc.trans hcov) nofun, hkeep _⟩
  · exact .some ⟨.of_ne (hacc.trans hcov) nofun, hkeep _⟩

theorem nsec3DoProveNameerror_resumable (fuel : Nat) (s : Nsec3State) :
    Post (nsec3DoProveNameerror env fuel flt qinfo s) fun r =>
      Resumable (hashPairs flt qinfo.qname) s r.1 r.2 := by
  unfold nsec3DoProveNameerror
  have hp := nsec3ProveClosestEncloser_resumable env qinfo hwf true fuel s
  generalize nsec3ProveClosestEncloser env fuel flt qinfo true s = x at hp
  split
  · exact .none
  case h_3 => exact .some hp.get.1
  case h_2 ce s' =>
    obtain ⟨hres, hsuf⟩ := hp.get
    obtain ⟨hct, hcalc, hwc⟩ := nsec3CeWildcard_spec
    generalize nsec3CeWildcard env ce.ce s' = w at hct hcalc hwc
    have hall := hres.1.trans (.of_eq hct hcalc)
    obtain ⟨_ | wc, s2⟩ := w
    · exact .some (.of_ne hall nofun)
    have hmem : wc ∈ candidates qinfo.qname := by
      rw [hwc wc rfl]
      exact wild_mem_candidates (hsuf ce rfl)
    have hcov := findCoveringNsec3_accounted env hwf hmem s2
    dsimp only
    generalize findCoveringNsec3 env flt wc s2 = m at hcov
    obtain ⟨_ | rr, s3⟩ := m
    · exact .some (.failed (hall.trans hcov) nofun)
    · dsimp only
      split <;> exact .some (.of_ne (hall.trans hcov) nofun)

theorem nodataClosestEncloser_resumable (hce : ce.ce <:+ qinfo.qname) :
    Resumable (hashPairs flt qinfo.qname) s (nodataClosestEncloser env flt qinfo ce s).1
      (nodataClosestEncloser env flt qinfo ce s).2 := by
  unfold nodataClosestEncloser
  obtain ⟨hct, hcalc, hwc⟩ := nsec3CeWildcard_spec
  generalize nsec3CeWildcard env ce.ce s = w at hct hcalc hwc
  have hwacc : Accounted (hashPairs flt qinfo.qname) s w.2 := .of_eq hct hcalc
  obtain ⟨_ | wc, s2⟩ := w
  · exact .failed hwacc nodataOptout_ne
  have hmem : wc ∈ candidates qinfo.qname := by
    rw [hwc wc rfl]
    exact wild_mem_candidates hce
  have hmat := findMatchingNsec3_accounted env hwf hmem s2
  dsimp only
  generalize findMatchingNsec3 env flt wc s2 = m at hmat
  obtain ⟨_ | rr, s3⟩ := m
  · exact .failed (hwacc.trans hmat) nodataOptout_ne
  · exact .of_ne (hwacc.trans hmat) nodataWildcard_ne

theorem nsec3DoProveNodata_resumable (fuel : Nat) (s : Nsec3State) :
    Post (nsec3DoProveNodata env fuel flt qinfo s) fun r =>
      Resumable (hashPairs flt qinfo.qname) s r.1 r.2 := by
  unfold nsec3DoProveNodata
  have hmat := findMatchingNsec3_accounted env hwf
    (mem_candidates_of_suffix (suffix_refl qinfo.qname)) s
  generalize findMatchingNsec3 env flt qinfo.qname s = m at hmat
  obtain ⟨_ | rr, s'⟩ := m
  case some => exact .some (.of_ne hmat nodataMatching_ne)
  dsimp only
  split
  · exact .some (.of_ne hmat nofun)
  split
  case isTrue hmax => exact .some ⟨hmat, fun _ => hmax⟩
  have hp := nsec3ProveClosestEncloser_resumable env qinfo hwf true fuel s'
  generalize nsec3ProveClosestEncloser env fuel flt qinfo true s' = x at hp
  obtain _ | ⟨sec, ce, s2⟩ := x
  · exact .none
  obtain ⟨hsub, hsuf⟩ := hp.get
  have hres : Resumable _ s sec s2 := .trans hmat hsub
  dsimp only
  split
  · exact .some (.of_ne hres.1 nofun)
  split
  · exact .some (.of_ne hres.1 nofun)
  split
  case isTrue hun => exact .some ⟨hres.1, fun _ => hres.2 hun⟩
  cases ce with
  | none => exact .some (.of_ne hres.1 nofun)
  | some ce => exact .some (.trans hres.1 (nodataClosestEncloser_resumable env qinfo hwf (hsuf ce rfl)))

theorem nsec3DoProveNods_resumable : Post (nsec3DoProveNods env fuel flt qinfo s) fun r =>
      Resumable (hashPairs flt qinfo.qname) s r.1.1 r.2 := by
  unfold nsec3DoProveNods
  have hmat := findMatchingNsec3_accounted env hwf
    (mem_candidates_of_suffix (suffix_refl qinfo.qname)) s
  generalize findMatchingNsec3 env flt qinfo.qname s = m at hmat
  obtain ⟨_ | rr, s'⟩ := m
  case some => exact .some (.of_ne hmat nodsMatching_ne)
  dsimp only
  split
  · exact .some (.of_ne hmat nofun)
  split
  case isTrue hmax => exact .some ⟨hmat, fun _ => hmax⟩
  have hp := nsec3ProveClosestEncloser_resumable env qinfo hwf true fuel s'
  generalize nsec3ProveClosestEncloser env fuel flt qinfo true s' = x at hp
  obtain _ | ⟨sec, ce, s2⟩ := x
  · exact .none
  have hres : Resumable _ s sec s2 := .trans hmat hp.get.1
  dsimp only
  split
  case isTrue hun => exact .some ⟨hres.1, fun _ => hres.2 hun⟩
  split
  · exact .some (.of_ne hres.1 nofun)
  · exact .some (.of_ne hres.1 nodsOptout_ne)

end proofs

def proofPairs (list : List RrsetKey) (qinfo : QueryInfo) : List HashKey :=
  match filterInit list qinfo with
  | none => []
  | some flt => hashPairs flt qinfo.qname

theorem proveStart_spec (ve : List (Nat × Nat)) (list : List RrsetKey) (qinfo : QueryInfo)
    (kkey : Option KeyEntry) :
    match proveStart ve list qinfo kkey with
    | .error sec => sec = .bogus ∨ sec = .insecure
    | .ok flt => filterInit list qinfo = some flt := by
  unfold proveStart
  cases kkey with
  | none => exact .inl rfl
  | some kkey =>
    dsimp only
    by_cases hgood : list = [] ∨ ¬ kkey.isgood = true
    · rw [if_pos hgood]
      exact .inl rfl
    rw [if_neg hgood]
    cases filterInit list qinfo with
    | none => exact .inl rfl
    | some flt =>
      dsimp only
      cases nsec3IterationCountHigh ve flt kkey with
      | true => exact .inr rfl
      | false => rfl

theorem proveStart_ok (h : proveStart ve list qinfo kkey = .ok flt) :
    filterInit list qinfo = some flt := by
  have hspec := proveStart_spec ve list qinfo kkey
  rwa [h] at hspec

theorem proveStart_error (h : proveStart ve list qinfo kkey = .error sec) :
    sec = .bogus ∨ sec = .insecure := by
  have hspec := proveStart_spec ve list qinfo kkey
  rwa [h] at hspec

/-- The cache grows by keys of the query, by at least one when the proof asks to be called again. -/
def Advances (K : List HashKey) (ct : List Nsec3CachedHash) (sec : SecStatus)
    (ct' : List Nsec3CachedHash) : Prop :=
  ∃ k, Adds K k ct ct' ∧ (sec = .unchecked → 0 < k)

theorem Advances.of_ne (h : sec ≠ .unchecked) : Advances K ct sec ct :=
  ⟨0, Adds.refl K ct, fun hc => absurd hc h⟩

theorem Resumable.advances (h : Resumable K s sec t) (hs : s.calculations < maxNsec3Calculations) :
    Advances K s.ct sec t.ct := by
  obtain ⟨⟨k, hk, hc⟩, hun⟩ := h
  have hpos : sec = .unchecked → 0 < k := by
    intro hsec
    have := hun hsec
    omega
  exact ⟨k, hk, hpos⟩

section run
variable {env : Nsec3Env} {ve : List (Nat × Nat)} {list : List RrsetKey} {qinfo : QueryInfo}
  {kkey : Option KeyEntry} {s : Nsec3State}

/-- No record that the filter lets through has a malformed salt. -/
def SaltsReadable (list : List RrsetKey) (qinfo : QueryInfo) : Prop :=
  ∀ flt, filterInit list qinfo = some flt → ∀ rr ∈ filterRrs flt, (nsec3GetSalt rr).isSome = true

theorem SaltsReadable.wellFormed (h : SaltsReadable list qinfo)
    (hf : filterInit list qinfo = some flt) : WellFormed (filterRrs flt) := by
  intro rr hrr
  exact ⟨h flt hf rr hrr, algo_of_known (mem_filterRrs hrr).1⟩

theorem proofPairs_eq (hf : filterInit list qinfo = some flt) :
    proofPairs list qinfo = hashPairs flt qinfo.qname := by
  unfold proofPairs
  rw [hf]

theorem advances_of_start {body : Nsec3Filter → Option (α × Nsec3State)} (status : α → SecStatus)
    (error : SecStatus → α) (herror : ∀ sec, status (error sec) = sec)
    (hs : s.calculations < maxNsec3Calculations)
    (hbody : ∀ flt, filterInit list qinfo = some flt → Post (body flt) fun r =>
      Resumable (hashPairs flt qinfo.qname) s (status r.1) r.2) :
    Post (match proveStart ve list qinfo kkey with
      | .error sec => some (error sec, s)
      | .ok flt => body flt) fun r =>
        Advances (proofPairs list qinfo) s.ct (status r.1) r.2.ct := by
  cases hst : proveStart ve list qinfo kkey with
  | error sec =>
    apply Post.some
    rw [herror]
    apply Advances.of_ne
    rcases proveStart_error hst with rfl | rfl <;> nofun
  | ok flt =>
    have hf := proveStart_ok hst
    rw [proofPairs_eq hf]
    exact (hbody flt hf).mono fun r hres => hres.advances hs

theorem some_nsec3ProveWildcard : some (nsec3ProveWildcard env ve list qinfo kkey wc s) =
    match proveStart ve list qinfo kkey with
    | .error sec => some (sec, s)
    | .ok flt => some (match findCoveringNsec3 env flt (nextCloser qinfo.qname wc) s with
      | (none, s) => (searchFailed s .bogus, s)
      | (some ncRr, s) => if nsec3HasOptout ncRr then (.insecure, s) else (.secure, s)) := by
  unfold nsec3ProveWildcard
  cases proveStart ve list qinfo kkey <;> rfl

theorem nsec3ProveWildcard_advances (hwf : SaltsReadable list qinfo)
    (hs : s.calculations < maxNsec3Calculations) :
    Post (some (nsec3ProveWildcard env ve list qinfo kkey wc s)) fun r =>
      Advances (proofPairs list qinfo) s.ct r.1 r.2.ct := by
  rw [some_nsec3ProveWildcard]
  apply advances_of_start id id (fun _ => rfl) hs
  intro flt hf
  have hcov := findCoveringNsec3_accounted env (hwf.wellFormed hf)
    (mem_candidates_of_suffix (nextCloser_suffix qinfo.qname wc)) s
  generalize findCoveringNsec3 env flt (nextCloser qinfo.qname wc) s = m at hcov
  obtain ⟨_ | rr, s'⟩ := m
  · exact .some (.failed hcov (by decide))
  · dsimp only
    split <;> exact .some (.of_ne hcov (by simp))

variable (hwf : SaltsReadable list qinfo)
include hwf

theorem nsec3ProveNods_advances : Post (nsec3ProveNods env fuel ve list qinfo kkey s) fun r =>
      Advances (proofPairs list qinfo) s.ct r.1.1 r.2.ct := by
  unfold nsec3ProveNods
  cases kkey with
  | none => exact .some (.of_ne nofun)
  | some kkey =>
    dsimp only
    split
    · exact .some (.of_ne nofun)
    split
    · exact .some (.of_ne nofun)
    cases hf : filterInit list qinfo with
    | none => exact .some (.of_ne nofun)
    | some flt =>
      dsimp only
      split
      · exact .some (.of_ne nofun)
      apply Post.map
      rw [proofPairs_eq hf]
      have hzero : (0 : Int) < maxNsec3Calculations := by decide
      exact (nsec3DoProveNods_resumable env _ (hwf.wellFormed hf)).mono fun r h => h.advances hzero

theorem nsec3ProveNxornodata_advances (hs : s.calculations < maxNsec3Calculations) :
    Post (nsec3ProveNxornodata env fuel ve list qinfo kkey s) fun r =>
      Advances (proofPairs list qinfo) s.ct r.1.1 r.2.ct := by
  apply advances_of_start Prod.fst (fun sec => (sec, false)) (fun _ => rfl) hs
  intro flt hf
  have hw := hwf.wellFormed hf
  have hnx := nsec3DoProveNameerror_resumable env qinfo hw fuel s
  generalize nsec3DoProveNameerror env fuel flt qinfo s = x at hnx
  obtain _ | ⟨secnx, s'⟩ := x
  · exact .none
  have hres := hnx.get
  dsimp only
  split
  · exact .some (.of_ne hres.1 nofun)
  split
  case isTrue hun => exact .some ⟨hres.1, fun _ => hres.2 hun⟩
  have hnd := nsec3DoProveNodata_resumable env qinfo hw fuel s'
  generalize nsec3DoProveNodata env fuel flt qinfo s' = x at hnd
  obtain _ | ⟨sec, s''⟩ := x
  · exact .none
  · exact .some ⟨hres.1.trans hnd.get.1, fun h => hnd.get.2 (nxornodataStatus_unchecked h)⟩

/-- With readable salts every proof that asks to be called again has cached a new hash. -/
theorem runNsec3Proof_advances (hs : s.calculations < maxNsec3Calculations) :
    Post (runNsec3Proof env fuel ve list qinfo kkey s proof) fun r =>
      Advances (proofPairs list qinfo) s.ct r.1 r.2.ct := by
  cases proof with
  | nameerror =>
    apply advances_of_start id id (fun _ => rfl) hs
    exact fun flt hf => nsec3DoProveNameerror_resumable env _ (hwf.wellFormed hf) fuel s
  | nodata =>
    apply advances_of_start id id (fun _ => rfl) hs
    exact fun flt hf => nsec3DoProveNodata_resumable env _ (hwf.wellFormed hf) fuel s
  | wildcard wc => exact nsec3ProveWildcard_advances hwf hs
  | nods =>
    apply Post.map
    exact nsec3ProveNods_advances hwf
  | nxornodata =>
    apply Post.map
    exact nsec3ProveNxornodata_advances hwf hs

end run

/-- Proofs for a query can be suspended `n` times in a row, each continued with the cache left. -/
def Suspends (env : Nsec3Env) (ve : List (Nat × Nat)) (list : List RrsetKey) (qinfo : QueryInfo)
    (kkey : Option KeyEntry) : Nat → List Nsec3CachedHash → Prop
  | 0, _ => True
  | n + 1, ct => ∃ fuel allocs calculations proof t, calculations < maxNsec3Calculations ∧
      runNsec3Proof env fuel ve list qinfo kkey ⟨ct, allocs, calculations⟩ proof =
        some (.unchecked, t) ∧ Suspends env ve list qinfo kkey n t.ct

theorem Suspends.adds (hwf : SaltsReadable list qinfo) (h : Suspends env ve list qinfo kkey n ct) :
    ∃ k ct', n ≤ k ∧ Adds (proofPairs list qinfo) k ct ct' := by
  induction n generalizing ct with
  | zero => exact ⟨0, ct, Nat.le_refl 0, Adds.refl _ _⟩
  | succ n ih =>
    obtain ⟨fuel, allocs, calculations, proof, t, hc, hrun, hrest⟩ := h
    obtain ⟨k, hadd, hpos⟩ := runNsec3Proof_advances hwf hc _ hrun
    obtain ⟨l, ct', hle, hadd'⟩ := ih hrest
    have := hpos rfl
    exact ⟨k + l, ct', by omega, hadd.trans hadd'⟩

def stubEnv : Nsec3Env where
  sha1 _ := Vector.replicate 20 0
  mem _ := true

def nsec3Below (rrData : List (List UInt8)) : RrsetKey := ⟨[[97], [122]], 50, 1, rrData, true⟩

def nsec3Query : QueryInfo := ⟨[[120], [122]], 1, 1⟩

def saltedRrset : RrsetKey :=
  nsec3Below ((List.range 8).map fun i => [0, 6, 1, 0, 0, 0, 1, i.toUInt8])

def shortRrset : RrsetKey := nsec3Below (List.replicate 8 [0, 4, 1, 0, 0, 0])

def SearchOpen (s : Nsec3State) : Prop :=
  ¬ (maxNsec3Calculations ≤ s.calculations ∨ s.calculations = maxNsec3Errors)

instance (s : Nsec3State) : Decidable (SearchOpen s) :=
  inferInstanceAs (Decidable (¬ (_ ∨ _)))

/-- The state after names were tried in turn, when none matched and the budget lasted. -/
def tryNames (env : Nsec3Env) (flt : Nsec3Filter) : List Name → Nsec3State → Option Nsec3State
  | [], s => some s
  | nm :: nms, s =>
    if SearchOpen s then
      match findMatchingNsec3 env flt nm s with
      | (some _, _) => none
      | (none, s') => tryNames env flt nms s'
    else none

/-- Trying the root once more finds nothing and changes nothing. -/
def RootStalls (env : Nsec3Env) (flt : Nsec3Filter) (s : Nsec3State) : Prop :=
  SearchOpen s ∧ findMatchingNsec3 env flt [] s = (none, s)

/-- In the root zone all names up to the root were tried, and the root stalls. -/
def SearchStalls (env : Nsec3Env) (flt : Nsec3Filter) (qname : Name) (s : Nsec3State) : Prop :=
  flt.zone = [] ∧ ∃ t, tryNames env flt qname.tails s = some t ∧ RootStalls env flt t

def SearchEnds (env : Nsec3Env) (flt : Nsec3Filter) (nm : Name) (s : Nsec3State) : Prop :=
  ∃ fuel, (nsec3FindClosestEncloser env flt fuel nm s).isSome = true

section search
variable {env : Nsec3Env} {flt : Nsec3Filter}

theorem SearchEnds.of_not_subdomain (h : dnameSubdomainC nm flt.zone = false) :
    SearchEnds env flt nm s := by
  use 1
  simp [nsec3FindClosestEncloser, h]

theorem SearchEnds.of_closed (h : ¬ SearchOpen s) : SearchEnds env flt nm s := by
  use 1
  rw [nsec3FindClosestEncloser]
  split
  · rw [if_pos (not_not.1 h)]
    rfl
  · rfl

theorem SearchEnds.of_found (h : findMatchingNsec3 env flt nm s = (some rr, t)) :
    SearchEnds env flt nm s := by
  use 1
  rw [nsec3FindClosestEncloser, h]
  split
  · split <;> rfl
  · rfl

theorem searchEnds_step (hsub : dnameSubdomainC nm flt.zone = true) (hopen : SearchOpen s)
    (h : findMatchingNsec3 env flt nm s = (none, t)) :
    SearchEnds env flt nm s ↔ SearchEnds env flt (dnameRemoveLabel nm) t := by
  have hround : ∀ fuel, nsec3FindClosestEncloser env flt (fuel + 1) nm s =
      nsec3FindClosestEncloser env flt fuel (dnameRemoveLabel nm) t := by
    intro fuel
    rw [nsec3FindClosestEncloser, if_pos hsub, if_neg hopen, h]
  constructor
  · rintro ⟨_ | fuel, hf⟩
    · cases hf
    · exact ⟨fuel, hround fuel ▸ hf⟩
  · rintro ⟨fuel, hf⟩
    exact ⟨fuel + 1, (hround fuel).symm ▸ hf⟩

theorem subdomain_root (h : zone = []) : dnameSubdomainC nm zone = true := by
  rw [dnameSubdomainC_iff, h]
  exact nil_prefix

theorem not_root_subdomain (h : zone ≠ []) : dnameSubdomainC [] zone = false := by
  rw [← Bool.not_eq_true, dnameSubdomainC_iff]
  intro hp
  have hlen := hp.length_le
  rw [length_key, length_key] at hlen
  exact h (length_eq_zero_iff.1 (Nat.le_zero.1 hlen))

theorem searchEnds_of_zone (hz : flt.zone ≠ []) (nm : Name) (s : Nsec3State) :
    SearchEnds env flt nm s := by
  induction nm generalizing s with
  | nil => exact SearchEnds.of_not_subdomain (not_root_subdomain hz)
  | cons l nm ih =>
    by_cases hsub : dnameSubdomainC (l :: nm) flt.zone = true
    · by_cases hopen : SearchOpen s
      · rcases hf : findMatchingNsec3 env flt (l :: nm) s with ⟨found, t⟩
        cases found with
        | some rr => exact SearchEnds.of_found hf
        | none => exact (searchEnds_step hsub hopen hf).2 (ih t)
      · exact SearchEnds.of_closed hopen
    · exact SearchEnds.of_not_subdomain (Bool.eq_false_iff.2 hsub)

theorem not_searchEnds_of_rootStalls (hz : flt.zone = []) (h : RootStalls env flt s) :
    ¬ SearchEnds env flt [] s := by
  rintro ⟨fuel, hf⟩
  induction fuel with
  | zero => cases hf
  | succ fuel ih =>
    rw [nsec3FindClosestEncloser, if_pos (subdomain_root hz), if_neg h.1, h.2] at hf
    exact ih hf

def Saturated (nm : Name) (rrs : List Nsec3Rr) (ct : List Nsec3CachedHash) : Prop :=
  ∀ rr ∈ rrs, ¬ Uncached ct (hashKey nm rr) ∨ nsec3GetSalt rr = none ∨ nsec3GetAlgo rr ≠ 1

theorem not_searchOpen_max (h : maxNsec3Calculations ≤ s.calculations) :
    ¬ SearchOpen (if e = s.calculations then { s with calculations := maxNsec3Errors } else s) := by
  split
  · exact fun hopen => hopen (.inr rfl)
  · exact fun hopen => hopen (.inl h)

section allocations
variable (hmem : ∀ n, env.mem n = true)

include hmem

theorem findNsec3Loop_saturates (h : findNsec3Loop env test nm rrs e s = (none, t))
    (hopen : SearchOpen t) : (∀ c ∈ s.ct, c ∈ t.ct) ∧ Saturated nm rrs t.ct := by
  induction rrs generalizing e s with
  | nil =>
    cases h
    exact ⟨fun _ hc => hc, nofun⟩
  | cons rr rrs ih =>
    rw [findNsec3Loop] at h
    by_cases hmax : maxNsec3Calculations ≤ s.calculations
    · rw [if_pos hmax] at h
      cases h
      exact absurd hopen (not_searchOpen_max hmax)
    rw [if_neg hmax] at h
    have hspec := nsec3HashName_spec env rr nm s
    generalize nsec3HashName env rr nm s = r at h hspec
    cases hspec with
    | cached c mem key =>
      dsimp only at h
      split at h
      next => cases h
      next =>
        obtain ⟨hsub, hsat⟩ := ih h
        exact ⟨hsub, forall_mem_cons.2 ⟨.inl fun hun => hun c (hsub c mem) key, hsat⟩⟩
    | malloc n m fail =>
      rw [hmem m] at fail
      cases fail
    | malformed fresh bad =>
      obtain ⟨hsub, hsat⟩ := ih h
      exact ⟨hsub, forall_mem_cons.2 ⟨.inr bad, hsat⟩⟩
    | computed salt hs ha fresh =>
      dsimp only at h
      split at h
      next => cases h
      next =>
        obtain ⟨hsub, hsat⟩ := ih h
        have hnew := hsub (newHash env rr nm salt) mem_cons_self
        exact ⟨(forall_mem_cons.1 hsub).2, forall_mem_cons.2 ⟨.inl fun hun => hun _ hnew rfl, hsat⟩⟩

theorem findNsec3Loop_again (hsat : Saturated nm rrs s.ct)
    (h : findNsec3Loop env test nm rrs e s = (none, t)) (hopen : SearchOpen t) :
    t.ct = s.ct ∧ s.calculations ≤ t.calculations ∧
      ((∃ rr ∈ rrs, Uncached s.ct (hashKey nm rr)) → s.calculations < t.calculations) ∧
      ((∀ rr ∈ rrs, ¬ Uncached s.ct (hashKey nm rr)) → t = s) := by
  induction rrs generalizing e s with
  | nil =>
    cases h
    exact ⟨rfl, Int.le_refl _, nofun, fun _ => rfl⟩
  | cons rr rrs ih =>
    rw [findNsec3Loop] at h
    by_cases hmax : maxNsec3Calculations ≤ s.calculations
    · rw [if_pos hmax] at h
      cases h
      exact absurd hopen (not_searchOpen_max hmax)
    rw [if_neg hmax] at h
    have hspec := nsec3HashName_spec env rr nm s
    generalize nsec3HashName env rr nm s = r at h hspec
    have hrest := (forall_mem_cons.1 hsat).2
    cases hspec with
    | cached c mem key =>
      dsimp only at h
      split at h
      next => cases h
      next =>
        obtain ⟨hct, hle, hlt, heq⟩ := ih hrest h
        have hlt' : (∃ r ∈ rr :: rrs, Uncached s.ct (hashKey nm r)) →
            s.calculations < t.calculations := by
          rw [exists_mem_cons_iff]
          rintro (hun | hex)
          · exact absurd key (hun c mem)
          · exact hlt hex
        exact ⟨hct, hle, hlt', fun hall => heq (forall_mem_cons.1 hall).2⟩
    | malloc n m fail =>
      rw [hmem m] at fail
      cases fail
    | malformed fresh bad =>
      have hih := ih (s := { s with
        allocs := s.allocs + 1, calculations := s.calculations + 1 }) hrest h
      obtain ⟨hct, hle, -, -⟩ := hih
      have hless := Int.lt_of_add_one_le hle
      exact ⟨hct, Int.le_of_lt hless, fun _ => hless,
        fun hall => absurd fresh (hall rr mem_cons_self)⟩
    | computed salt hs ha fresh =>
      rcases hsat rr mem_cons_self with hun | hnone | halgo
      · exact absurd fresh hun
      · rw [hs] at hnone
        cases hnone
      · exact absurd ha halgo

end allocations

section root
variable (hmem : ∀ n, env.mem n = true) (hz : flt.zone = [])
include hmem hz

/-- With the hashes of the root cached, the search ends unless it stalls: each round spends
budget. -/
theorem searchEnds_of_saturated (s : Nsec3State)
    (hn : (maxNsec3Calculations - s.calculations).toNat ≤ n)
    (hsat : Saturated [] (filterRrs flt) s.ct) (hstall : ¬ RootStalls env flt s) :
    SearchEnds env flt [] s := by
  induction n generalizing s with
  | zero =>
    apply SearchEnds.of_closed
    intro hopen
    apply hopen
    left
    omega
  | succ n ih =>
    by_cases hopen : SearchOpen s
    · rcases hf : findMatchingNsec3 env flt [] s with ⟨found, t⟩
      cases found with
      | some rr => exact SearchEnds.of_found hf
      | none =>
        rw [searchEnds_step (subdomain_root hz) hopen hf]
        by_cases hopen' : SearchOpen t
        · obtain ⟨hct, hle, hlt, heq⟩ := findNsec3Loop_again hmem hsat hf hopen'
          by_cases hun : ∃ rr ∈ filterRrs flt, Uncached s.ct (hashKey [] rr)
          · have hless := hlt hun
            have hstall' : ¬ RootStalls env flt t := by
              intro hst
              have hagain := findNsec3Loop_again hmem (hct.symm ▸ hsat) hst.2 hst.1
              exact Int.lt_irrefl _ (hagain.2.2.1 (hct.symm ▸ hun))
            exact ih t (by omega) (hct.symm ▸ hsat) hstall'
          · have hts : t = s := heq fun rr hrr hc => hun ⟨rr, hrr, hc⟩
            rw [hts] at hf
            exact absurd ⟨hopen, hf⟩ hstall
        · exact SearchEnds.of_closed hopen'
    · exact SearchEnds.of_closed hopen

omit hmem in
theorem searchEnds_cons_iff {s : Nsec3State}
    (hnext : ∀ t, findMatchingNsec3 env flt nm s = (none, t) →
      (SearchEnds env flt (dnameRemoveLabel nm) t ↔
        ¬ ∃ u, tryNames env flt nms t = some u ∧ RootStalls env flt u)) :
    SearchEnds env flt nm s ↔
      ¬ ∃ u, tryNames env flt (nm :: nms) s = some u ∧ RootStalls env flt u := by
  rw [tryNames]
  by_cases hopen : SearchOpen s
  · rw [if_pos hopen]
    rcases hf : findMatchingNsec3 env flt nm s with ⟨found, t⟩
    cases found with
    | some rr => exact iff_of_true (SearchEnds.of_found hf) nofun
    | none => exact (searchEnds_step (subdomain_root hz) hopen hf).trans (hnext t hf)
  · rw [if_neg hopen]
    exact iff_of_true (SearchEnds.of_closed hopen) nofun

theorem searchEnds_root_iff :
    SearchEnds env flt [] s ↔ ¬ ∃ t, tryNames env flt [[]] s = some t ∧ RootStalls env flt t := by
  apply searchEnds_cons_iff hz
  intro t hf
  simp only [tryNames, Option.some.injEq, exists_eq_left']
  constructor
  · intro hends hstall
    exact not_searchEnds_of_rootStalls hz hstall hends
  · intro hstall
    by_cases hopen : SearchOpen t
    · exact searchEnds_of_saturated hmem hz t le_rfl
        (findNsec3Loop_saturates hmem hf hopen).2 hstall
    · exact SearchEnds.of_closed hopen

end root

/-- The search ends except in the root zone, when the root does not match and stalls. -/
theorem searchEnds_iff (hmem : ∀ n, env.mem n = true) (s : Nsec3State) :
    SearchEnds env flt nm s ↔ ¬ SearchStalls env flt nm s := by
  by_cases hz : flt.zone = []
  · simp only [SearchStalls, hz, true_and]
    induction nm generalizing s with
    | nil => exact searchEnds_root_iff hmem hz
    | cons l nm ih => exact searchEnds_cons_iff hz fun t _ => ih t
  · exact iff_of_true (searchEnds_of_zone hz nm s) fun h => hz h.1

end search

section proofs
variable {env : Nsec3Env} {flt : Nsec3Filter} {qinfo : QueryInfo}

theorem nsec3FindClosestEncloser_mono (hle : fuel ≤ fuel')
    (h : nsec3FindClosestEncloser env flt fuel nm s = some r) :
    nsec3FindClosestEncloser env flt fuel' nm s = some r := by
  induction fuel generalizing fuel' nm s with
  | zero => cases h
  | succ fuel ih =>
    cases fuel' with
    | zero => cases hle
    | succ fuel' =>
      rw [nsec3FindClosestEncloser] at h ⊢
      rcases hf : findMatchingNsec3 env flt nm s with ⟨_ | rr, t⟩
      · grind
      · rwa [hf] at h

theorem nsec3ProveClosestEncloser_isSome :
    (nsec3ProveClosestEncloser env fuel flt qinfo b s).isSome =
      (nsec3FindClosestEncloser env flt fuel qinfo.qname s).isSome := by
  unfold nsec3ProveClosestEncloser
  repeat' split
  all_goals simp_all

theorem nsec3ProveClosestEncloser_mono (hle : fuel ≤ fuel')
    (h : nsec3ProveClosestEncloser env fuel flt qinfo b s = some r) :
    nsec3ProveClosestEncloser env fuel' flt qinfo b s = some r := by
  unfold nsec3ProveClosestEncloser at h ⊢
  cases hf : nsec3FindClosestEncloser env flt fuel qinfo.qname s with
  | none =>
    rw [hf] at h
    cases h
  | some p =>
    rw [nsec3FindClosestEncloser_mono hle hf]
    rwa [hf] at h

theorem nsec3DoProveNameerror_isSome :
    (nsec3DoProveNameerror env fuel flt qinfo s).isSome =
      (nsec3FindClosestEncloser env flt fuel qinfo.qname s).isSome := by
  rw [← nsec3ProveClosestEncloser_isSome]
  unfold nsec3DoProveNameerror
  cases nsec3ProveClosestEncloser env fuel flt qinfo true s with
  | none => rfl
  | some r =>
    repeat' split
    all_goals simp_all

theorem nsec3DoProveNameerror_mono (hle : fuel ≤ fuel')
    (h : nsec3DoProveNameerror env fuel flt qinfo s = some r) :
    nsec3DoProveNameerror env fuel' flt qinfo s = some r := by
  unfold nsec3DoProveNameerror at h ⊢
  cases hp : nsec3ProveClosestEncloser env fuel flt qinfo true s with
  | none =>
    rw [hp] at h
    cases h
  | some p =>
    rw [nsec3ProveClosestEncloser_mono hle hp]
    rwa [hp] at h

theorem nsec3DoProveNameerror_unique (h : nsec3DoProveNameerror env fuel flt qinfo s = some r)
    (h' : nsec3DoProveNameerror env fuel' flt qinfo s = some r') : r = r' := by
  have hmax := nsec3DoProveNameerror_mono (Nat.le_max_left fuel fuel') h
  have hmax' := nsec3DoProveNameerror_mono (Nat.le_max_right fuel fuel') h'
  exact Option.some.inj (hmax.symm.trans hmax')

theorem exists_forall_ok {start : Except ε α} {P : Nat → α → Prop} :
    (∃ fuel, ∀ a, start = .ok a → P fuel a) ↔ ∀ a, start = .ok a → ∃ fuel, P fuel a := by
  cases start <;> simp

/-- The name itself has no record, and the search that follows stalls. -/
def NodataStalls (env : Nsec3Env) (flt : Nsec3Filter) (qname : Name) (s : Nsec3State) : Prop :=
  ∃ t, findMatchingNsec3 env flt qname s = (none, t) ∧ SearchOpen t ∧ SearchStalls env flt qname t

theorem nsec3DoProveNodata_isSome :
    (nsec3DoProveNodata env fuel flt qinfo s).isSome = true ↔
      ∀ t, findMatchingNsec3 env flt qinfo.qname s = (none, t) → SearchOpen t →
        (nsec3FindClosestEncloser env flt fuel qinfo.qname t).isSome = true := by
  unfold nsec3DoProveNodata
  rcases findMatchingNsec3 env flt qinfo.qname s with ⟨found, t⟩
  cases found with
  | some rr => simp
  | none =>
    simp only [Prod.mk.injEq, true_and, forall_eq']
    by_cases herr : t.calculations = maxNsec3Errors
    · simp only [herr, if_true, Option.isSome_some, true_iff]
      exact fun hopen => absurd (.inr herr) hopen
    by_cases hmax : maxNsec3Calculations ≤ t.calculations
    · simp only [herr, hmax, if_true, if_false, Option.isSome_some, true_iff]
      exact fun hopen => absurd (.inl hmax) hopen
    · have hopen : SearchOpen t := fun h => h.elim hmax herr
      simp only [herr, hmax, if_false, hopen, true_imp_iff]
      rw [← nsec3ProveClosestEncloser_isSome]
      cases nsec3ProveClosestEncloser env fuel flt qinfo true t with
      | none => simp
      | some r =>
        repeat' split
        all_goals simp_all

theorem nsec3DoProveNods_isSome :
    (nsec3DoProveNods env fuel flt qinfo s).isSome =
      (nsec3DoProveNodata env fuel flt qinfo s).isSome := by
  unfold nsec3DoProveNods nsec3DoProveNodata
  rcases findMatchingNsec3 env flt qinfo.qname s with ⟨found, t⟩
  cases found with
  | some rr => rfl
  | none =>
    dsimp only
    split
    · rfl
    · split
      · rfl
      · cases nsec3ProveClosestEncloser env fuel flt qinfo true t with
        | none => rfl
        | some r =>
          repeat' split
          all_goals simp_all

theorem nsec3DoProveNodata_mono (hle : fuel ≤ fuel')
    (h : (nsec3DoProveNodata env fuel flt qinfo s).isSome = true) :
    (nsec3DoProveNodata env fuel' flt qinfo s).isSome = true := by
  rw [nsec3DoProveNodata_isSome] at h ⊢
  intro t ht hopen
  obtain ⟨r, hr⟩ := Option.isSome_iff_exists.1 (h t ht hopen)
  rw [nsec3FindClosestEncloser_mono hle hr]
  rfl

theorem nodata_ends_iff :
    (∃ fuel, (nsec3DoProveNodata env fuel flt qinfo s).isSome = true) ↔
      ∀ t, findMatchingNsec3 env flt qinfo.qname s = (none, t) → SearchOpen t →
        SearchEnds env flt qinfo.qname t := by
  constructor
  · rintro ⟨fuel, hf⟩ t ht hopen
    exact ⟨fuel, nsec3DoProveNodata_isSome.1 hf t ht hopen⟩
  intro h
  rcases hf : findMatchingNsec3 env flt qinfo.qname s with ⟨found, t⟩
  by_cases hrest : found = none ∧ SearchOpen t
  · obtain ⟨hnone, hopen⟩ := hrest
    rw [hnone] at hf
    obtain ⟨fuel, hends⟩ := h t hf hopen
    refine ⟨fuel, nsec3DoProveNodata_isSome.2 ?_⟩
    intro t' ht' _
    cases hf.symm.trans ht'
    exact hends
  · refine ⟨0, nsec3DoProveNodata_isSome.2 ?_⟩
    intro t' ht' hopen'
    cases hf.symm.trans ht'
    exact absurd ⟨rfl, hopen'⟩ hrest

theorem nodata_ends_iff_stalls (hmem : ∀ n, env.mem n = true) :
    (∃ fuel, (nsec3DoProveNodata env fuel flt qinfo s).isSome = true) ↔
      ¬ NodataStalls env flt qinfo.qname s := by
  rw [nodata_ends_iff]
  constructor
  · rintro h ⟨t, ht, hopen, hst⟩
    exact (searchEnds_iff hmem t).1 (h t ht hopen) hst
  · intro h t ht hopen
    exact (searchEnds_iff hmem t).2 fun hst => h ⟨t, ht, hopen, hst⟩

theorem nameerror_ends_iff :
    (∃ fuel, (nsec3DoProveNameerror env fuel flt qinfo s).isSome = true) ↔
      SearchEnds env flt qinfo.qname s := by
  simp only [nsec3DoProveNameerror_isSome, SearchEnds]

end proofs

section run
variable {env : Nsec3Env} {ve : List (Nat × Nat)} {list : List RrsetKey} {qinfo : QueryInfo}
  {kkey : Option KeyEntry} {s : Nsec3State}

def ProofEnds (env : Nsec3Env) (ve : List (Nat × Nat)) (list : List RrsetKey) (qinfo : QueryInfo)
    (kkey : Option KeyEntry) (s : Nsec3State) (proof : Nsec3Proof) : Prop :=
  ∃ fuel, (runNsec3Proof env fuel ve list qinfo kkey s proof).isSome = true

def ProofStalls (env : Nsec3Env) (ve : List (Nat × Nat)) (list : List RrsetKey)
    (qinfo : QueryInfo) (kkey : Option KeyEntry) (s : Nsec3State) : Nsec3Proof → Prop
  | .nameerror => ∃ flt, proveStart ve list qinfo kkey = .ok flt ∧
      SearchStalls env flt qinfo.qname s
  | .nodata => ∃ flt, proveStart ve list qinfo kkey = .ok flt ∧ NodataStalls env flt qinfo.qname s
  | .wildcard _ => False
  | .nods => listIsSecure list = true ∧ ∃ flt, proveStart ve list qinfo kkey = .ok flt ∧
      NodataStalls env flt qinfo.qname { s with calculations := 0 }
  | .nxornodata => ∃ flt, proveStart ve list qinfo kkey = .ok flt ∧
      (SearchStalls env flt qinfo.qname s ∨
        ∃ fuel secnx t, nsec3DoProveNameerror env fuel flt qinfo s = some (secnx, t) ∧
          secnx ≠ .secure ∧ secnx ≠ .unchecked ∧ NodataStalls env flt qinfo.qname t)

theorem ends_of_start {body : Nat → Nsec3Filter → Option (SecStatus × Nsec3State)} :
    (∃ fuel, (match proveStart ve list qinfo kkey with
      | .error sec => some (sec, s)
      | .ok flt => body fuel flt).isSome = true) ↔
      ∀ flt, proveStart ve list qinfo kkey = .ok flt → ∃ fuel, (body fuel flt).isSome = true := by
  cases proveStart ve list qinfo kkey <;> simp

theorem nsec3ProveNods_isSome :
    (nsec3ProveNods env fuel ve list qinfo kkey s).isSome = true ↔
      ∀ flt, proveStart ve list qinfo kkey = .ok flt → listIsSecure list = true →
        (nsec3DoProveNodata env fuel flt qinfo { s with calculations := 0 }).isSome = true := by
  unfold nsec3ProveNods proveStart
  cases kkey with
  | none => simp
  | some kkey =>
    dsimp only
    by_cases hgood : list = [] ∨ ¬ kkey.isgood = true
    · rw [if_pos hgood, if_pos hgood]
      simp
    · rw [if_neg hgood, if_neg hgood]
      by_cases hsec : listIsSecure list = true
      · cases filterInit list qinfo with
        | none => simp [hsec]
        | some flt =>
          by_cases hhigh : nsec3IterationCountHigh ve flt kkey = true
          · simp [hsec, hhigh]
          · simp [hsec, hhigh, nsec3DoProveNods_isSome]
      · simp [hsec]

theorem nsec3ProveNxornodata_isSome :
    (nsec3ProveNxornodata env fuel ve list qinfo kkey s).isSome = true ↔
      ∀ flt, proveStart ve list qinfo kkey = .ok flt →
        ∃ secnx t, nsec3DoProveNameerror env fuel flt qinfo s = some (secnx, t) ∧
          (secnx ≠ .secure → secnx ≠ .unchecked →
            (nsec3DoProveNodata env fuel flt qinfo t).isSome = true) := by
  unfold nsec3ProveNxornodata
  cases proveStart ve list qinfo kkey with
  | error sec => simp
  | ok flt =>
    simp only [Except.ok.injEq, forall_eq']
    cases nsec3DoProveNameerror env fuel flt qinfo s with
    | none => simp
    | some p =>
      obtain ⟨secnx, t⟩ := p
      by_cases h1 : secnx = .secure
      · simp [h1]
      · by_cases h2 : secnx = .unchecked
        · simp [h2]
        · simp only [h1, h2, if_false, Option.some.injEq, Prod.mk.injEq]
          cases hnd : nsec3DoProveNodata env fuel flt qinfo t with
          | none => simp [h1, h2, hnd]
          | some r => simp [hnd]

theorem nxornodata_ends_of_search (hsearch : SearchEnds env flt qinfo.qname s)
    (hnodata : ∀ fuel secnx t, nsec3DoProveNameerror env fuel flt qinfo s = some (secnx, t) →
      secnx ≠ .secure → secnx ≠ .unchecked →
        ∃ fuel, (nsec3DoProveNodata env fuel flt qinfo t).isSome = true) :
    ∃ fuel secnx t, nsec3DoProveNameerror env fuel flt qinfo s = some (secnx, t) ∧
      (secnx ≠ .secure → secnx ≠ .unchecked →
        (nsec3DoProveNodata env fuel flt qinfo t).isSome = true) := by
  obtain ⟨fuel, hsome⟩ := nameerror_ends_iff.2 hsearch
  obtain ⟨⟨secnx, t⟩, hnx⟩ := Option.isSome_iff_exists.1 hsome
  by_cases hdone : secnx ≠ .secure ∧ secnx ≠ .unchecked
  · obtain ⟨fuel', hsome'⟩ := hnodata fuel secnx t hnx hdone.1 hdone.2
    exact ⟨max fuel fuel', secnx, t, nsec3DoProveNameerror_mono (Nat.le_max_left _ _) hnx,
      fun _ _ => nsec3DoProveNodata_mono (Nat.le_max_right _ _) hsome'⟩
  · exact ⟨fuel, secnx, t, hnx, fun h1 h2 => absurd ⟨h1, h2⟩ hdone⟩

theorem nxornodata_ends_iff (hmem : ∀ n, env.mem n = true) :
    (∃ fuel, (nsec3ProveNxornodata env fuel ve list qinfo kkey s).isSome = true) ↔
      ¬ ProofStalls env ve list qinfo kkey s .nxornodata := by
  simp only [nsec3ProveNxornodata_isSome, exists_forall_ok, ProofStalls]
  constructor
  · rintro h ⟨flt, hst, hcase⟩
    obtain ⟨fuel, secnx, t, hnx, hnd⟩ := h flt hst
    rcases hcase with hsearch | ⟨fuel', secnx', t', hnx', h1, h2, hstalls⟩
    · apply (searchEnds_iff hmem s).1 _ hsearch
      exact nameerror_ends_iff.1 ⟨fuel, by rw [hnx]; rfl⟩
    · cases nsec3DoProveNameerror_unique hnx hnx'
      exact (nodata_ends_iff_stalls hmem).1 ⟨fuel, hnd h1 h2⟩ hstalls
  · intro h flt hst
    apply nxornodata_ends_of_search
    · exact (searchEnds_iff hmem s).2 fun hc => h ⟨flt, hst, .inl hc⟩
    · intro fuel secnx t hnx h1 h2
      exact (nodata_ends_iff_stalls hmem).2
        fun hc => h ⟨flt, hst, .inr ⟨fuel, secnx, t, hnx, h1, h2, hc⟩⟩

theorem proofEnds_iff (hmem : ∀ n, env.mem n = true) :
    ProofEnds env ve list qinfo kkey s proof ↔ ¬ ProofStalls env ve list qinfo kkey s proof := by
  cases proof with
  | nameerror =>
    apply ends_of_start.trans
    simp only [ProofStalls, nameerror_ends_iff, searchEnds_iff hmem, not_exists, not_and]
  | nodata =>
    apply ends_of_start.trans
    simp only [ProofStalls, nodata_ends_iff_stalls hmem, not_exists, not_and]
  | wildcard wc => exact iff_of_true ⟨0, rfl⟩ not_false
  | nods =>
    unfold ProofEnds ProofStalls runNsec3Proof
    simp only [Option.isSome_map, nsec3ProveNods_isSome]
    cases hst : proveStart ve list qinfo kkey with
    | error sec => simp
    | ok flt =>
      by_cases hsec : listIsSecure list = true
      · simp [hsec, nodata_ends_iff_stalls hmem]
      · simp [hsec]
  | nxornodata =>
    unfold ProofEnds runNsec3Proof
    simp only [Option.isSome_map]
    exact nxornodata_ends_iff hmem

theorem proofEnds_of_zone (hz : ∀ flt, filterInit list qinfo = some flt → flt.zone ≠ []) :
    ProofEnds env ve list qinfo kkey s proof := by
  have hsearch : ∀ flt, proveStart ve list qinfo kkey = .ok flt → ∀ nm t, SearchEnds env flt nm t :=
    fun flt hst => searchEnds_of_zone (hz flt (proveStart_ok hst))
  have hnodata : ∀ flt, proveStart ve list qinfo kkey = .ok flt → ∀ t, ∃ fuel,
      (nsec3DoProveNodata env fuel flt qinfo t).isSome = true :=
    fun flt hst t => nodata_ends_iff.2 fun t' _ _ => hsearch flt hst _ t'
  cases proof with
  | nameerror =>
    exact ends_of_start.2 fun flt hst => nameerror_ends_iff.2 (hsearch flt hst _ s)
  | nodata => exact ends_of_start.2 fun flt hst => hnodata flt hst s
  | wildcard wc => exact ⟨0, rfl⟩
  | nods =>
    unfold ProofEnds runNsec3Proof
    simp only [Option.isSome_map, nsec3ProveNods_isSome]
    apply exists_forall_ok.2
    intro flt hst
    obtain ⟨fuel, hf⟩ := hnodata flt hst { s with calculations := 0 }
    exact ⟨fuel, fun _ => hf⟩
  | nxornodata =>
    unfold ProofEnds runNsec3Proof
    simp only [Option.isSome_map, nsec3ProveNxornodata_isSome]
    apply exists_forall_ok.2
    intro flt hst
    exact nxornodata_ends_of_search (hsearch flt hst _ s) fun _ _ t _ _ _ => hnodata flt hst t

end run

def rootNsec3Rrset : RrsetKey := ⟨[[97]], 50, 1, [[0, 5, 1, 0, 0, 0, 0]], true⟩

end CwdGate.Validator
