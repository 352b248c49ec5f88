import CwdGate.Validator.NegCacheInv

namespace CwdGate.Validator
open Std Lib List

section

section

variable {neg : NegCache} {z el : Nat}

theorem valNegDataCompare_lex (hp : e.labs p = dnameCountLabels (e.name p))
    (hl : labs = dnameCountLabels nm) :
    valNegDataCompare e p nm labs = (key (e.name p)).compareLex canonOrd (key nm) :=
  valNegDataCompare_eq hp hl

def BeforeEnd (end' : Option Name) (k : List Label) : Prop :=
  ∀ e, end' = some e → k.compareLex canonOrd (key e) = .lt

theorem split_of_deleted (hn : tree.Nodup) (htree : tree = xs ++ cur :: rest)
    (hs : tree'.Sublist tree) (hrest : ∀ d ∈ rest, d ∈ tree') (hel : el ∈ xs) (hel' : el ∈ tree') :
    ∃ xs', tree' = xs' ++ rest ∧ el ∈ xs' := by
  have htree : tree = (xs ++ [cur]) ++ rest := by rw [htree]; simp
  rw [htree] at hs hn
  obtain ⟨l1, l2, rfl, h1, h2⟩ := sublist_append_iff.1 hs
  obtain ⟨-, hnr, hdisj⟩ := nodup_append.1 hn
  have hsub : rest ⊆ l2 := by
    intro d hd
    rcases mem_append.1 (hrest d hd) with hd1 | hd2
    · exact absurd rfl (hdisj d (h1.subset hd1) d hd)
    · exact hd2
  have heq : l2 = rest := h2.eq_of_length_le (List.Nodup.subperm hnr hsub).length_le
  refine ⟨l1, by rw [heq], ?_⟩
  rcases mem_append.1 hel' with hd1 | hd2
  · exact hd1
  · exact absurd rfl (hdisj el (mem_append_left _ hel) el (h2.subset hd2))

theorem NegCache.InUse.of_zone (hd : neg.InUse d) (h : NegInv hold neg) (hzone : neg.zone d = z) :
    z ∈ neg.tree ∧ d ∈ neg.dataTree z ∧ neg.datas.inUse d = true := by
  obtain ⟨w, hw, hdw, hdu⟩ := hd
  rw [h.zone w hw d hdw] at hzone
  subst hzone
  exact ⟨hw, hdw, hdu⟩

theorem NegInv.cut (h : NegInv hold neg) (hz : z ∈ neg.tree)
    (htree : neg.dataTree z = xs ++ cur :: rest) :
    cur ∉ xs ∧ nextOf (neg.dataTree z) cur = rest.head? ∧
      (∀ d ∈ xs, (key (neg.datas.name d)).compareLex canonOrd (key (neg.datas.name cur)) = .lt) ∧
      ∀ d ∈ rest,
        (key (neg.datas.name cur)).compareLex canonOrd (key (neg.datas.name d)) = .lt := by
  have hnd := (h.datas z hz).counts.nodup
  have hsorted := (h.datas z hz).sorted
  rw [htree] at hnd hsorted ⊢
  obtain ⟨-, hafter, hbefore⟩ := pairwise_append.1 hsorted
  have hcur : cur ∉ xs := fun hm => (nodup_append.1 hnd).2.2 cur hm cur mem_cons_self rfl
  exact ⟨hcur, nextOf_append hcur, fun d hd => hbefore d hd cur mem_cons_self,
    (pairwise_cons.1 hafter).1⟩

/-- What wiping out a part of the elements behind `el` leaves. -/
structure Wiped (neg : NegCache) (z el : Nat) (gone : Nat → Prop) (neg' : NegCache) : Prop where
  inv : NegInv none neg'
  shrunk : Shrunk neg neg'
  used : neg'.InUse el
  inUse : ∀ d, neg'.InUse d ↔ neg.InUse d ∧ ¬ gone d

theorem wipeoutLoop_spec {end' : Option Name} {xs rest : List Nat} {fuel : Nat}
    (h : NegInv none neg) (hz : z ∈ neg.tree) (htree : neg.dataTree z = xs ++ rest)
    (hel : el ∈ xs) (hu : neg.datas.inUse el = true) (hf : rest.length ≤ fuel) :
    Wiped neg z el (fun d => d ∈ rest ∧ BeforeEnd end' (key (neg.datas.name d)))
      (wipeoutLoop z el end' fuel neg rest.head?) := by
  induction rest generalizing neg xs fuel with
  | nil =>
    have hend : wipeoutLoop z el end' fuel neg none = neg := by cases fuel <;> rfl
    rw [head?_nil, hend]
    refine ⟨h, .refl _, ⟨z, hz, by rw [htree]; simpa using hel, hu⟩, fun d => ?_⟩
    simp
  | cons cur rest ih =>
    obtain ⟨fuel, rfl⟩ : ∃ k, fuel = k + 1 := ⟨fuel - 1, by simp at hf; omega⟩
    have hok := h.datas z hz
    obtain ⟨hcx, hnext, hbehind, hafter⟩ := h.cut hz htree
    have hcur : cur ∈ neg.dataTree z := by rw [htree]; simp
    have helt : el ∈ neg.dataTree z := by rw [htree]; exact mem_append_left _ hel
    have hgt : valNegDataCompare neg.datas cur (neg.datas.name el) (neg.datas.labs el) = .gt := by
      rw [valNegDataCompare_lex (hok.labs cur hcur) (hok.labs el helt)]
      exact OrientedCmp.gt_of_lt (hbehind el hel)
    have hend : ∀ e, valNegDataCompare neg.datas cur e (dnameCountLabels e) =
        (key (neg.datas.name cur)).compareLex canonOrd (key e) := fun e =>
      valNegDataCompare_lex (hok.labs cur hcur) rfl
    rw [head?_cons, wipeoutLoop]
    simp only [hgt, ne_eq, not_true_eq_false, if_false, hnext, hend]
    by_cases hstop : (end'.any fun e => decide
        (¬ (key (neg.datas.name cur)).compareLex canonOrd (key e) = .lt)) = true
    · rw [if_pos hstop]
      -- everything behind is at or after the end point too
      have hno : ∀ d ∈ cur :: rest, ¬ BeforeEnd end' (key (neg.datas.name d)) := by
        intro d hd hb
        cases end' with
        | none => cases hstop
        | some e =>
          have hne : ¬ (key (neg.datas.name cur)).compareLex canonOrd (key e) = .lt := by
            simpa using hstop
          have hde := hb e rfl
          rcases mem_cons.1 hd with rfl | hd
          · exact hne hde
          · exact hne (TransCmp.lt_trans (hafter d hd) hde)
      refine ⟨h, .refl _, ⟨z, hz, helt, hu⟩, fun d => ?_⟩
      constructor
      · exact fun hd => ⟨hd, fun hc => hno d hc.1 hc.2⟩
      · exact fun hd => hd.1
    · rw [if_neg hstop]
      have hbefore : BeforeEnd end' (key (neg.datas.name cur)) := by
        rintro e rfl
        by_contra hc
        exact hstop (by simpa using hc)
      have hrest : rest.length ≤ fuel := by simpa using hf
      by_cases hcu : neg.datas.inUse cur = true
      · rw [if_pos hcu]
        have hdel := h.deleteData hz hcur hcu
        have hne : el ≠ cur := fun he => hcx (he ▸ hel)
        have hel1 := (hdel.inUse el).2 ⟨⟨z, hz, helt, hu⟩, hne⟩
        obtain ⟨hz1, helt1, hu1⟩ := hel1.of_zone hdel.inv (z := z) (by
          rw [hdel.zone]
          exact h.zone z hz el helt)
        obtain ⟨xs', htree', helx⟩ := split_of_deleted hok.counts.nodup htree
          hdel.dataTree (fun d hd => by
            by_contra hc
            have hd' : d ∈ neg.dataTree z := by rw [htree]; simp [hd]
            have hle : ((key (neg.datas.name d)).compareLex canonOrd
                (key (neg.datas.name cur))).isLE :=
              prefix_isLE (hdel.above d hd' hc).2
            exact OrientedCmp.not_isLE_of_lt (hafter d hd) hle) hel helt1
        have hw := ih hdel.inv hz1 htree' helx hu1 hrest
        refine ⟨hw.inv, hdel.shrunk.trans hw.shrunk, hw.used, fun d => ?_⟩
        rw [hw.inUse, hdel.inUse, hdel.name, mem_cons]
        grind
      · rw [if_neg hcu]
        have hw := @ih neg (xs ++ [cur]) fuel h hz (by rw [htree]; simp)
          (mem_append_left _ hel) hu hrest
        have hnot : ¬ neg.InUse cur := by
          rintro ⟨_, _, _, hdu⟩
          exact hcu hdu
        refine ⟨hw.inv, hw.shrunk, hw.used, fun d => ?_⟩
        rw [hw.inUse, mem_cons]
        grind

/-- The owners that a record with an end point wipes out of its zone. -/
def WipedOut (apex owner : List Label) (nsec : NegRrset) (k : List Label) : Prop :=
  ∃ e, wipeoutEnd nsec = some e ∧ apex <+: owner ∧ apex <+: key e ∧
    owner.compareLex canonOrd k = .lt ∧ (key e = apex ∨ k.compareLex canonOrd (key e) = .lt)

theorem NegInv.wipeout (h : NegInv none neg) (hz : z ∈ neg.tree) (hel : el ∈ neg.dataTree z)
    (hu : neg.datas.inUse el = true) (nsec : NegRrset) :
    Wiped neg z el (fun d => d ∈ neg.dataTree z ∧
      WipedOut (key (neg.zones.name z)) (key (neg.datas.name el)) nsec (key (neg.datas.name d)))
      (wipeout neg z el nsec) := by
  have hnothing : (∀ k, ¬ WipedOut (key (neg.zones.name z)) (key (neg.datas.name el)) nsec k) →
      Wiped neg z el (fun d => d ∈ neg.dataTree z ∧
        WipedOut (key (neg.zones.name z)) (key (neg.datas.name el)) nsec
          (key (neg.datas.name d))) neg := fun hno =>
    ⟨h, .refl _, ⟨z, hz, hel, hu⟩, fun d =>
      ⟨fun hd => ⟨hd, fun hc => hno _ hc.2⟩, fun hd => hd.1⟩⟩
  unfold Validator.wipeout
  cases hend : wipeoutEnd nsec with
  | none =>
    apply hnothing
    rintro k ⟨e, he, -⟩
    cases hend.symm.trans he
  | some e =>
    simp only [dnameSubdomainC_iff]
    split
    next hout =>
      apply hnothing
      rintro k ⟨e', he', h1, h2, -⟩
      cases hend.symm.trans he'
      exact hout.elim (· h1) (· h2)
    next hin =>
      obtain ⟨h1, h2⟩ := not_or.1 hin
      rw [not_not] at h1 h2
      obtain ⟨xs, rest, htree⟩ := append_of_mem hel
      obtain ⟨-, hnext, hbehind, hafter⟩ := h.cut hz htree
      have htree' : neg.dataTree z = (xs ++ [el]) ++ rest := by rw [htree]; simp
      have hrest : ∀ d ∈ neg.dataTree z, (d ∈ rest ↔
          (key (neg.datas.name el)).compareLex canonOrd (key (neg.datas.name d)) = .lt) := by
        intro d hd
        refine ⟨hafter d, fun hlt => ?_⟩
        rw [htree] at hd
        rcases mem_append.1 hd with hdx | hdr
        · exact absurd (Ordering.isLE_of_eq_lt (hbehind d hdx)) (OrientedCmp.not_isLE_of_lt hlt)
        · rcases List.mem_cons.1 hdr with rfl | hdr
          · cases hlt.symm.trans ReflCmp.compare_self
          · exact hdr
      have hlen : rest.length ≤ (neg.dataTree z).length := by
        rw [htree, length_append, length_cons]
        omega
      generalize hend' : (if queryDnameCompare e (neg.zones.name z) = .eq then none
        else some e) = end'
      have hw := @wipeoutLoop_spec neg z el end' _ rest _ h hz htree' (by simp) hu hlen
      rw [hnext]
      refine ⟨hw.inv, hw.shrunk, hw.used, fun d => ?_⟩
      rw [hw.inUse]
      apply and_congr_right
      intro hd
      apply not_congr
      have hq : queryDnameCompare e (neg.zones.name z) = .eq ↔ key e = key (neg.zones.name z) := by
        rw [queryDnameCompare_eq_iff, key_injective_iff]
      have hbe : BeforeEnd end' (key (neg.datas.name d)) ↔ key e = key (neg.zones.name z) ∨
          (key (neg.datas.name d)).compareLex canonOrd (key e) = .lt := by
        rw [← hend', ← hq, BeforeEnd]
        split
        next hqe => simp [hqe]
        next hqe => simp [hqe]
      rw [hbe]
      constructor
      · rintro ⟨hdr, hb⟩
        have hdt : d ∈ neg.dataTree z := by rw [htree]; simp [hdr]
        exact ⟨hdt, e, hend, h1, h2, (hrest d hdt).1 hdr, hb⟩
      · rintro ⟨hdt, e', he', -, -, hlt, hb⟩
        cases hend.symm.trans he'
        exact ⟨(hrest d hdt).2 hlt, hb⟩

end

variable {neg : NegCache} {z : Nat}

/-- A record for the zone `k` brings its own owner in and wipes others out. -/
def insertEffect (k : UInt16 × List Label) (s : NegRrset) (a : ZoneOwner → Prop) (x : ZoneOwner) :
    Prop :=
  if k.2 <+: key s.dname ∧ s.Usable then
    (a x ∨ x = (k, key s.dname)) ∧ ¬ (x.1 = k ∧ WipedOut k.2 (key s.dname) s x.2)
  else a x

structure Inserted (neg : NegCache) (z : Nat) (k : UInt16 × List Label) (a : ZoneOwner → Prop)
    (neg' : NegCache) : Prop where
  inv : NegInv (some z) neg'
  mem : z ∈ neg'.tree
  path : neg'.zones.path neg'.dclass z = k
  max : neg'.max = neg.max
  holds : ∀ x, neg'.Holds x ↔ a x

theorem NegInv.storeNsec3 (h : NegInv hold neg) (s : NegRrset) :
    NegInv hold (negStoreNsec3 neg z s) ∧
      negStoreNsec3 neg z s = { neg with nsec3 := (negStoreNsec3 neg z s).nsec3 } := by
  have heq : negStoreNsec3 neg z s = { neg with nsec3 := (negStoreNsec3 neg z s).nsec3 } := by
    unfold negStoreNsec3
    split
    · split
      · rfl
      · split <;> rfl
    · rfl
  rw [heq]
  exact ⟨{ h with }, rfl⟩

theorem NegInv.zone_inj (h : NegInv hold neg) (hd : neg.InUse d) (hz : z ∈ neg.tree) :
    neg.zones.path neg.dclass (neg.zone d) = neg.zones.path neg.dclass z ↔ d ∈ neg.dataTree z := by
  obtain ⟨w, hw, hdw, hdu⟩ := hd
  rw [h.zone w hw d hdw]
  constructor
  · intro heq
    rw [← h.zones.counts.inj w hw z hz heq]
    exact hdw
  · intro hdz
    rw [← h.zone w hw d hdw, h.zone z hz d hdz]

theorem NegInv.insertData (h : NegInv (some z) neg) (hz : z ∈ neg.tree)
    (hk : neg.zones.path neg.dclass z = k) (hs : k.2 <+: key s.dname) :
    Inserted neg z k (insertEffect k s neg.Holds) (negInsertData neg z s) := by
  rw [negInsertData]
  by_cases hu : s.Usable
  · rw [if_neg (not_not_intro hu)]
    obtain ⟨neg1, el, heq, ht⟩ := h.findOrCreateData hz s.dname
    simp only [heq]
    have hi2 := ht.inv.storeNsec3 (z := z) s
    generalize negDataTakeInuse neg1 el = neg2 at ht hi2
    obtain ⟨hi3, heq3⟩ := hi2
    generalize negStoreNsec3 neg2 z s = neg3 at hi3 heq3
    have hz3 : z ∈ neg3.tree := by
      rw [heq3]
      exact ht.tree ▸ hz
    have hel3 : el ∈ neg3.dataTree z := by rw [heq3]; exact ht.mem
    have hu3 : neg3.datas.inUse el = true := by rw [heq3]; exact ht.used
    have hw := hi3.wipeout hz3 hel3 hu3 s
    have hzn : neg3.zones.path neg3.dclass z = k := by
      rw [heq3]
      simp only [ht.zones, ht.dclass]
      exact hk
    have hname : key (neg3.datas.name el) = key s.dname := by rw [heq3]; exact ht.name
    have hapex : key (neg3.zones.name z) = k.2 := congrArg Prod.snd hzn
    rw [hname, hapex] at hw
    generalize Validator.wipeout neg3 z el s = neg4 at hw
    obtain ⟨hz4, hel4, -⟩ := hw.used.of_zone hw.inv (z := z) (by
      rw [hw.shrunk.zone]
      exact hi3.zone z hz3 el hel3)
    have hzu := (hw.inv.used z hz4).2 (.inl (ne_nil_of_mem hel4))
    refine ⟨hw.inv.holding hzu, hz4, ?_, ?_, fun x => ?_⟩
    · rw [← hzn, NegElems.path, NegElems.path, hw.shrunk.zones_name, hw.shrunk.dclass]
    · rw [hw.shrunk.max, heq3]
      exact ht.max
    have hhold3 : ∀ x, neg3.Holds x ↔ neg.Holds x ∨ x = (k, key s.dname) := by
      intro x
      rw [← hk, ← ht.holds, heq3]
      rfl
    rw [insertEffect, if_pos ⟨hs, hu⟩, ← hhold3]
    constructor
    · rintro ⟨d, hd, rfl⟩
      have hd3 := (hw.inUse d).1 hd
      simp only [NegElems.path, hw.shrunk.zones_name, hw.shrunk.dclass, hw.shrunk.zone,
        hw.shrunk.name]
      refine ⟨⟨d, hd3.1, rfl⟩, fun hc => hd3.2 ⟨?_, hc.2⟩⟩
      exact (hi3.zone_inj hd3.1 hz3).1 (hc.1.trans hzn.symm)
    · rintro ⟨⟨d, hd, rfl⟩, hno⟩
      refine ⟨d, (hw.inUse d).2 ⟨hd, fun hc => hno ⟨?_, hc.2⟩⟩, ?_⟩
      · exact ((hi3.zone_inj hd hz3).2 hc.1).trans hzn
      · simp only [NegElems.path, hw.shrunk.zones_name, hw.shrunk.dclass, hw.shrunk.zone,
          hw.shrunk.name]
  · rw [if_pos hu]
    refine ⟨h, hz, hk, rfl, fun x => ?_⟩
    rw [insertEffect, if_neg fun hc => hu hc.2]

/-- What the records of a message do to the owners in use, one after the other. -/
def insertEffects (k : UInt16 × List Label) (rrsets : List NegRrset) (a : ZoneOwner → Prop) :
    ZoneOwner → Prop :=
  rrsets.foldl (fun a s => insertEffect k s a) a

theorem insertEffect_congr (h : ∀ x, a x ↔ b x) (x : ZoneOwner) :
    insertEffect k s a x ↔ insertEffect k s b x := by
  rw [insertEffect, insertEffect, h]

theorem insertEffects_congr (h : ∀ x, a x ↔ b x) :
    insertEffects k rrsets a x ↔ insertEffects k rrsets b x := by
  induction rrsets generalizing a b with
  | nil => exact h x
  | cons s rrsets ih => exact ih (insertEffect_congr h)

theorem NegInv.insertAll (h : NegInv (some z) neg) (hz : z ∈ neg.tree)
    (hk : neg.zones.path neg.dclass z = k) (rrsets : List NegRrset) :
    Inserted neg z k (insertEffects k rrsets neg.Holds) (rrsets.foldl (fun neg s =>
      if dnameSubdomainC s.dname (neg.zones.name z) then negInsertData neg z s else neg) neg) := by
  induction rrsets generalizing neg with
  | nil => exact ⟨h, hz, hk, rfl, fun _ => Iff.rfl⟩
  | cons s rrsets ih =>
    have hone : Inserted neg z k (insertEffect k s neg.Holds)
        (if dnameSubdomainC s.dname (neg.zones.name z) then negInsertData neg z s else neg) := by
      have hsub : dnameSubdomainC s.dname (neg.zones.name z) = true ↔ k.2 <+: key s.dname := by
        rw [dnameSubdomainC_iff, ← hk]
        rfl
      by_cases hs : k.2 <+: key s.dname
      · rw [if_pos (hsub.2 hs)]
        exact h.insertData hz hk hs
      · rw [if_neg fun hc => hs (hsub.1 hc)]
        refine ⟨h, hz, hk, rfl, fun x => ?_⟩
        rw [insertEffect, if_neg fun hc => hs hc.1]
    have hrest := ih hone.inv hone.mem hone.path
    exact ⟨hrest.inv, hrest.mem, hrest.path, hrest.max.trans hone.max, fun x =>
      (hrest.holds x).trans (insertEffects_congr hone.holds)⟩

theorem NegInv.findOrCreateZone (h : NegInv none neg) (dname : Name) (c : UInt16) :
    ∃ neg1 z, negFindOrCreateZone neg dname c = (neg1, some z) ∧
      ZoneTaken neg (c, key dname) z (valNegZoneTakeInuse neg1 z) := by
  rw [negFindOrCreateZone]
  cases hf : negFindZone neg dname c with
  | some z =>
    obtain ⟨hz, hp⟩ := h.findZone_some hf
    exact ⟨neg, z, rfl, hp ▸ h.takeZone hz⟩
  | none =>
    obtain ⟨neg1, heq, ht⟩ := h.createZone (h.findZone_none hf)
    exact ⟨neg1, neg.fresh, heq, ht⟩

/-- What adding a message does: space is made, then its records come in. -/
structure Added (neg : NegCache) (need : Nat) (k : UInt16 × List Label) (rrsets : List NegRrset)
    (neg' : NegCache) : Prop where
  inv : NegInv none neg'
  max : neg'.max = neg.max
  holds : ∀ x, neg'.Holds x ↔ insertEffects k rrsets (negMakeSpace neg need).Holds x

theorem NegInv.add (h : NegInv none neg) (need : Nat) (dname : Name) (c : UInt16)
    (rrsets : List NegRrset) :
    Added neg need (c, key dname) rrsets (negAdd neg need dname c rrsets) := by
  obtain ⟨hi, hs, -⟩ := h.makeSpace need
  rw [negAdd]
  generalize hsp : negMakeSpace neg need = neg1 at hi hs
  obtain ⟨neg2, z, hopen, ht⟩ := hi.findOrCreateZone dname c
  simp only [hopen]
  have hins := ht.inv.insertAll ht.mem ht.path rrsets
  generalize valNegZoneTakeInuse neg2 z = neg3 at ht hins
  generalize rrsets.foldl (fun neg s => if dnameSubdomainC s.dname (neg.zones.name z) = true then
    negInsertData neg z s else neg) neg3 = neg4 at hins
  have hmax := hins.max.trans (ht.max.trans hs.max)
  have hholds : ∀ x, neg4.Holds x ↔
      insertEffects (c, key dname) rrsets (negMakeSpace neg need).Holds x := fun x => by
    rw [hsp]
    exact (hins.holds x).trans (insertEffects_congr ht.holds)
  split
  next hnil =>
    obtain ⟨hi', -, hin⟩ := hins.inv.deleteZone hins.mem hnil
    exact ⟨hi', hmax, fun x => (holds_congr hin (fun _ _ => ⟨rfl, rfl⟩) x).trans (hholds x)⟩
  next hne => exact ⟨hins.inv.release hne, hmax, hholds⟩

theorem NegInv.addreply (h : NegInv none neg) (rep : ReplyInfo) :
    NegInv none (valNegAddreply neg rep) := by
  rw [valNegAddreply]
  split
  · exact h
  · split
    next => exact h
    next => exact (h.add ..).inv

theorem NegInv.addreferral (h : NegInv none neg) (rep : ReplyInfo) (zoneName : Name) :
    NegInv none (valNegAddreferral neg rep zoneName) := by
  rw [valNegAddreferral]
  split
  next => exact h
  next =>
    split
    · exact h
    · exact (h.add ..).inv

/-- One operation on the negative cache. An element that is deleted is one in use. -/
inductive NegStep : NegCache → NegCache → Prop
  | addreply (neg : NegCache) (rep : ReplyInfo) : NegStep neg (valNegAddreply neg rep)
  | addreferral (neg : NegCache) (rep : ReplyInfo) (zoneName : Name) :
      NegStep neg (valNegAddreferral neg rep zoneName)
  | deleteData (neg : NegCache) (el : Nat) (h : neg.InUse el) : NegStep neg (negDeleteData neg el)
  | makeSpace (neg : NegCache) (need : Nat) : NegStep neg (negMakeSpace neg need)

inductive NegReachable (max maxiter : Nat) : NegCache → Prop
  | create : NegReachable max maxiter (valNegCreate max maxiter)
  | step {neg neg' : NegCache} (h : NegReachable max maxiter neg) (hs : NegStep neg neg') :
      NegReachable max maxiter neg'

theorem NegInv.step (h : NegInv none neg) (hs : NegStep neg neg') : NegInv none neg' := by
  cases hs with
  | addreply rep => exact h.addreply rep
  | addreferral rep zoneName => exact h.addreferral rep zoneName
  | deleteData el hel =>
    obtain ⟨z, hz, hd, hu⟩ := hel
    exact (h.deleteData hz hd hu).inv
  | makeSpace need => exact (h.makeSpace need).1

theorem NegReachable.inv {max maxiter : Nat} (h : NegReachable max maxiter neg) :
    NegInv none neg := by
  induction h with
  | create => exact .create max maxiter
  | step _ hs ih => exact ih.step hs

/-- Elements count those in use at or below them, each below that for its name without a label. -/
structure ElemsConsistent (e : NegElems) (tree : List Nat) (below : Nat → Nat → Bool) : Prop where
  count : ∀ p ∈ tree, e.count p = tree.countP (fun q => e.inUse q && below p q) ∧ 0 < e.count p
  parent : ∀ p ∈ tree, match e.parent p with
    | none => e.name p = []
    | some q => q ∈ tree ∧ below q p = true ∧ e.name p ≠ [] ∧
        queryDnameCompare (e.name q) (dnameRemoveLabel (e.name p)) = .eq

/-- The representation invariant between operations. -/
structure NegConsistent (neg : NegCache) : Prop where
  zones : ElemsConsistent neg.zones neg.tree fun p q =>
    neg.dclass p = neg.dclass q ∧ dnameSubdomainC (neg.zones.name q) (neg.zones.name p)
  datas : ∀ z ∈ neg.tree, ElemsConsistent neg.datas (neg.dataTree z) fun p q =>
    dnameSubdomainC (neg.datas.name q) (neg.datas.name p)
  lru : ∃ xs : List Nat, neg.lru.Reads xs ∧ xs.Nodup ∧ ∀ d, d ∈ xs ↔
    ∃ z ∈ neg.tree, d ∈ neg.dataTree z ∧ neg.datas.inUse d = true
  inUse : ∀ z ∈ neg.tree, neg.zones.inUse z = true ↔ neg.dataTree z ≠ []
  use : neg.use =
    (neg.tree.map fun z => wireLen (neg.zones.name z) + sizeofNegZone).sum +
    (neg.tree.map fun z =>
      ((neg.dataTree z).map fun d => wireLen (neg.datas.name d) + sizeofNegData).sum).sum

theorem TreeOk.consistent {γ : Type} [DecidableEq γ] [Ord γ] {e : NegElems} {cls : Nat → γ}
    {elems : List Nat} {fresh : Nat} (h : TreeOk e cls elems fresh)
    (hpos : ∀ p ∈ elems, 0 < e.count p) {below : Nat → Nat → Bool}
    (hb : ∀ p q, below p q = decide (Above (e.path cls p) (e.path cls q))) :
    ElemsConsistent e elems below := by
  constructor
  · intro p hp
    refine ⟨?_, hpos p hp⟩
    rw [h.counts.count p hp]
    simp only [hb]
  · intro p hp
    rcases h.counts.up p hp with ⟨hnil, hpar⟩ | ⟨q, hq, x, hpar, hpath⟩
    · rw [hpar]
      have hlen := congrArg length hnil
      rw [NegElems.path, length_key] at hlen
      exact eq_nil_of_length_eq_zero hlen
    · rw [hpar]
      have hkey : key (e.name p) = key (e.name q) ++ [x] := congrArg Prod.snd hpath
      have hne : e.name p ≠ [] := by
        intro hnil
        rw [hnil] at hkey
        simp [key, lowerName] at hkey
      refine ⟨hq, ?_, hne, ?_⟩
      · rw [hb, decide_eq_true_eq, hpath]
        exact above_concat_iff.2 (.inr (.refl _))
      · rw [queryDnameCompare_eq_iff, ← key_injective_iff]
        cases hn : e.name p with
        | nil => exact absurd hn hne
        | cons l nm =>
          rw [hn, key_cons] at hkey
          exact (append_inj_left' hkey rfl).symm

theorem NegInv.consistent (h : NegInv none neg) : NegConsistent neg where
  zones := h.zones.consistent h.zones_pos fun p q => by
    rw [Bool.eq_iff_iff, decide_eq_true_eq, decide_eq_true_eq, dnameSubdomainC_iff]
    rfl
  datas z hz := (h.datas z hz).consistent (h.datas_pos z hz) fun p q => by
    rw [Bool.eq_iff_iff, decide_eq_true_eq, dnameSubdomainC_iff]
    exact ⟨fun hp => ⟨rfl, hp⟩, fun hp => hp.2⟩
  lru := by
    obtain ⟨xs, hxs, hin⟩ := h.lru
    exact ⟨xs, hxs, hxs.nodup, hin⟩
  inUse z hz := by simpa using h.used z hz
  use := by
    rw [h.use, NegCache.bytes]
    congr 2
    · apply map_congr_left
      intro z hz
      rw [h.zones.len z hz]
    · apply map_congr_left
      intro z hz
      congr 1
      apply map_congr_left
      intro d hd
      rw [(h.datas z hz).len d hd]

/-- The representation invariant holds in every state of the negative cache. -/
theorem neg_cache_consistent {max maxiter : Nat} (h : NegReachable max maxiter neg) :
    NegConsistent neg :=
  h.inv.consistent

def rootReply : ReplyInfo where
  security := .secure
  anNumrrsets := 0
  nsNumrrsets := 2
  rrsets := [⟨[], typeSOA, 1, .secure, [], []⟩, ⟨[[97]], typeNSEC, 1, .secure, [[0, 1, 0]], []⟩]

theorem neg_cache_consistent_rootReply :
    (valNegAddreply (valNegCreate 1000 0) rootReply).use = 365 ∧
      NegConsistent (valNegAddreply (valNegCreate 1000 0) rootReply) :=
  ⟨by decide, neg_cache_consistent (.step (@NegReachable.create 1000 0) (.addreply _ _))⟩

/-- The states in which `neg_insert_data` is called: the zone is open, with some records
inserted. -/
inductive NegInserting (max maxiter : Nat) (z : Nat) : NegCache → Prop
  | opened {neg neg' : NegCache} (h : NegReachable max maxiter neg) (need : Nat) {dname : Name}
      {c : UInt16} (heq : negFindOrCreateZone (negMakeSpace neg need) dname c = (neg', some z)) :
      NegInserting max maxiter z (valNegZoneTakeInuse neg' z)
  | inserted {neg : NegCache} (h : NegInserting max maxiter z neg) {s : NegRrset}
      (hs : dnameSubdomainC s.dname (neg.zones.name z)) :
      NegInserting max maxiter z (negInsertData neg z s)

theorem NegInserting.inv {max maxiter : Nat} (h : NegInserting max maxiter z neg) :
    NegInv (some z) neg ∧ z ∈ neg.tree := by
  induction h with
  | opened h need heq =>
    obtain ⟨neg1, w, heq', ht⟩ := (h.inv.makeSpace need).1.findOrCreateZone _ _
    cases heq.symm.trans heq'
    exact ⟨ht.inv, ht.mem⟩
  | inserted _ hs ih =>
    have hi := ih.1.insertData ih.2 rfl (dnameSubdomainC_iff _ _ |>.1 hs)
    exact ⟨hi.inv, hi.mem⟩

/-- The next name of an NSEC or NSEC3 record. -/
def NextName (s : NegRrset) (e : Name) : Prop :=
  ValidName e ∧ ∃ d rest, s.rrData = d :: rest ∧
    (s.type = typeNSEC ∧ (∃ rdlen types, rdlen.length = 2 ∧ d = rdlen ++ (wire e ++ types)) ∨
    s.type = typeNSEC3 ∧ ∃ hash, nsec3GetNextowner ⟨s.dname, d⟩ = some hash ∧
      e = b32NtopExtendedHex hash :: dnameRemoveLabel s.dname)

theorem NextName.wipeoutEnd_eq (h : NextName s e) : wipeoutEnd s = some e := by
  obtain ⟨hv, d, rest, hdata, ⟨htype, rdlen, types, hlen, rfl⟩ | ⟨htype, hash, hhash, rfl⟩⟩ := h
  · have hpos := wireLen_pos e
    rw [wipeoutEnd, hdata]
    dsimp only
    rw [if_neg (by rw [length_append, length_append, length_wire]; omega), if_pos htype,
      drop_left' hlen, nameAt_wire hv]
  · have hlong : 7 ≤ d.length := by
      by_contra hlt
      rw [nsec3GetNextowner, if_pos (by simpa using hlt)] at hhash
      cases hhash
    have hlab := hv.label_pos _ mem_cons_self
    have h63 := hv.label_le _ mem_cons_self
    have h255 := hv.len_le
    have hb32 := length_le_b32NtopExtendedHex hash
    rw [wireLen] at h255
    rw [wipeoutEnd, hdata]
    dsimp only
    rw [if_neg (by omega), if_neg (by rw [htype]; decide), nsec3GetNextownerB32, hhash]
    dsimp only
    rw [if_neg (by omega), if_neg (by omega), if_neg (by omega)]

/-- Behind the owner and before the next name; behind the owner when that is the apex. -/
def InGap (apex : Name) (s : NegRrset) (e : Name) (k : List Label) : Prop :=
  (key s.dname).compareLex canonOrd k = .lt ∧
    (key e = key apex ∨ k.compareLex canonOrd (key e) = .lt)

/-- After an insert the owner is in use, and no owner of the zone in its gap; the others stay in
use. -/
theorem neg_insert_data_clears_gap {max maxiter : Nat} (h : NegInserting max maxiter z neg)
    (s : NegRrset) (hu : s.Usable) (e : Name) (hnext : NextName s e)
    (hown : dnameSubdomainC s.dname (neg.zones.name z))
    (hend : dnameSubdomainC e (neg.zones.name z)) :
    let zone := neg.zones.path neg.dclass z
    (negInsertData neg z s).Holds (zone, key s.dname) ∧
    (∀ k, (negInsertData neg z s).Holds (zone, k) → ¬ InGap (neg.zones.name z) s e k) ∧
    ∀ x, neg.Holds x → ¬ (x.1 = zone ∧ InGap (neg.zones.name z) s e x.2) →
      (negInsertData neg z s).Holds x := by
  obtain ⟨hi, hz⟩ := h.inv
  rw [dnameSubdomainC_iff] at hown hend
  have hins := hi.insertData hz rfl hown
  have hgap : ∀ k, WipedOut (key (neg.zones.name z)) (key s.dname) s k ↔
      InGap (neg.zones.name z) s e k := by
    intro k
    rw [WipedOut, hnext.wipeoutEnd_eq]
    constructor
    · rintro ⟨e', he, -, -, hk⟩
      rw [Option.some.inj he]
      exact hk
    · exact fun hk => ⟨e, rfl, hown, hend, hk⟩
  have hholds : ∀ x, (negInsertData neg z s).Holds x ↔
      (neg.Holds x ∨ x = (neg.zones.path neg.dclass z, key s.dname)) ∧
        ¬ (x.1 = neg.zones.path neg.dclass z ∧ InGap (neg.zones.name z) s e x.2) := by
    intro x
    rw [hins.holds, insertEffect, if_pos ⟨hown, hu⟩, ← hgap]
    rfl
  refine ⟨(hholds _).2 ⟨.inr rfl, ?_⟩, fun k hk hg => ((hholds _).1 hk).2 ⟨rfl, hg⟩,
    fun x hx hg => (hholds x).2 ⟨.inl hx, hg⟩⟩
  rintro ⟨-, hlt, -⟩
  cases hlt.symm.trans ReflCmp.compare_self

def openedCache : NegCache :=
  valNegZoneTakeInuse (negFindOrCreateZone (negMakeSpace (valNegCreate 1000 0) 0) [] 1).1 0

theorem neg_insert_data_clears_gap_root :
    let s : NegRrset := ⟨[[97]], typeNSEC, 1, .secure, [[0, 1, 0]], []⟩
    (negInsertData openedCache 0 s).Holds ((1, []), key [[97]]) ∧
    (∀ k, (negInsertData openedCache 0 s).Holds ((1, []), k) → ¬ InGap [] s [] k) ∧
    ∀ x, openedCache.Holds x → ¬ (x.1 = (1, []) ∧ InGap [] s [] x.2) →
      (negInsertData openedCache 0 s).Holds x :=
  neg_insert_data_clears_gap
    (@NegInserting.opened 1000 0 0 _ _ .create 0 [] 1 rfl) _ (.inl rfl) []
    ⟨.nil, _, _, rfl, .inl ⟨rfl, [0, 1], [], rfl, rfl⟩⟩ (by decide) (by decide)

end

open Function

variable {neg : NegCache}

def NegCache.zonePaths (neg : NegCache) : List (UInt16 × List Label) :=
  neg.tree.map (neg.zones.path neg.dclass)

def NegCache.dataPaths (neg : NegCache) : List ZoneOwner :=
  neg.tree.flatMap fun z =>
    (neg.dataTree z).map fun d => (neg.zones.path neg.dclass z, key (neg.datas.name d))

/-- The memory of the elements at some places. -/
def pathBytes (zs : List (UInt16 × List Label)) (ds : List ZoneOwner) : Nat :=
  (zs.map fun p => wireLen p.2.reverse + sizeofNegZone).sum +
    (ds.map fun x => wireLen x.2.reverse + sizeofNegData).sum

theorem wireLen_key : wireLen (key n).reverse = wireLen n := by
  rw [key, reverse_reverse, wireLen_lowerName]

section
variable (h : NegInv none neg)
include h

theorem NegInv.use_eq : neg.use = pathBytes neg.zonePaths neg.dataPaths := by
  rw [h.consistent.use, pathBytes, NegCache.zonePaths, NegCache.dataPaths, map_map,
    map_flatMap, flatMap_def, sum_flatten, map_map]
  congr 2
  · apply map_congr_left
    intro z _
    rw [comp_apply, NegElems.path, wireLen_key]
  · apply map_congr_left
    intro z _
    rw [comp_apply, map_map]
    congr 1
    apply map_congr_left
    intro d _
    rw [comp_apply, wireLen_key]

theorem NegInv.nodup_zonePaths : neg.zonePaths.Nodup :=
  List.Nodup.map_on (fun p hp q hq => h.zones.counts.inj p hp q hq) h.zones.counts.nodup

theorem NegInv.nodup_dataPaths : neg.dataPaths.Nodup := by
  rw [NegCache.dataPaths, nodup_flatMap]
  constructor
  · intro z hz
    apply List.Nodup.map_on _ (h.datas z hz).counts.nodup
    intro d hd d' hd' heq
    have hkey : key (neg.datas.name d) = key (neg.datas.name d') := congrArg Prod.snd heq
    exact (h.datas z hz).counts.inj d hd d' hd' (Prod.ext rfl hkey)
  · apply List.Nodup.pairwise_of_forall_ne h.zones.counts.nodup
    intro z hz w hw hne x hx hx'
    obtain ⟨d, -, rfl⟩ := mem_map.1 hx
    obtain ⟨d', -, heq⟩ := mem_map.1 hx'
    exact hne (h.zones.counts.inj z hz w hw (congrArg Prod.fst heq).symm)

theorem NegInv.exists_holds (hz : z ∈ neg.tree) (hd : d ∈ neg.dataTree z) :
    ∃ k, key (neg.datas.name d) <+: k ∧ neg.Holds (neg.zones.path neg.dclass z, k) := by
  obtain ⟨u, hu, huu, hab⟩ := ((h.datas z hz).counts.count_pos_iff hd).1 (h.datas_pos z hz d hd)
  refine ⟨key (neg.datas.name u), hab.2, u, ⟨z, hz, hu, huu⟩, ?_⟩
  rw [h.zone z hz u hu]

theorem NegInv.mem_zonePaths : p ∈ neg.zonePaths ↔ ∃ x, neg.Holds x ∧ Above p x.1 := by
  constructor
  · intro hp
    obtain ⟨z, hz, rfl⟩ := mem_map.1 hp
    obtain ⟨w, hw, hwu, hab⟩ := (h.zones.counts.count_pos_iff hz).1 (h.zones_pos z hz)
    obtain ⟨d, hd⟩ := exists_mem_of_ne_nil _ ((h.consistent.inUse w hw).1 hwu)
    obtain ⟨k, -, hk⟩ := h.exists_holds hw hd
    exact ⟨_, hk, hab⟩
  · rintro ⟨x, ⟨d, ⟨w, hw, hd, -⟩, rfl⟩, hab⟩
    rw [h.zone w hw d hd] at hab
    obtain ⟨q, hq, rfl⟩ := h.zones.counts.exists_above hw hab
    exact mem_map_of_mem hq

theorem NegInv.mem_dataPaths : y ∈ neg.dataPaths ↔ ∃ x, neg.Holds x ∧ y.1 = x.1 ∧ y.2 <+: x.2 := by
  constructor
  · intro hy
    obtain ⟨z, hz, hy⟩ := mem_flatMap.1 hy
    obtain ⟨d, hd, rfl⟩ := mem_map.1 hy
    obtain ⟨k, hpre, hk⟩ := h.exists_holds hz hd
    exact ⟨_, hk, rfl, hpre⟩
  · rintro ⟨x, ⟨d, ⟨w, hw, hd, -⟩, rfl⟩, h1, h2⟩
    rw [h.zone w hw d hd] at h1
    obtain ⟨q, hq, hqp⟩ := (h.datas w hw).counts.exists_above hd (a := ((), y.2)) ⟨rfl, h2⟩
    refine mem_flatMap.2 ⟨w, hw, mem_map.2 ⟨q, hq, ?_⟩⟩
    have hkey : key (neg.datas.name q) = y.2 := congrArg Prod.snd hqp
    exact Prod.ext h1.symm hkey

end

theorem sum_map_le_of_subset {α : Type} {l l₁ l₂ : List α} (f : α → Nat) (hn : l.Nodup)
    (h : ∀ x ∈ l, x ∈ l₁ ∨ x ∈ l₂) : (l.map f).sum ≤ (l₁.map f).sum + (l₂.map f).sum := by
  have hsub : l ⊆ l₁ ++ l₂ := fun x hx => mem_append.2 (h x hx)
  obtain ⟨l', hperm, hs⟩ := List.Nodup.subperm hn hsub
  rw [← sum_append, ← map_append, ← (hperm.map f).sum_eq]
  exact (hs.map f).sum_le_sum fun _ _ => Nat.zero_le _

/-- A cache that holds no more than two others together uses no more memory than they do. -/
theorem NegInv.use_le (h : NegInv none neg) (h₁ : NegInv none neg₁) (h₂ : NegInv none neg₂)
    (hh : ∀ x, neg.Holds x → neg₁.Holds x ∨ neg₂.Holds x) : neg.use ≤ neg₁.use + neg₂.use := by
  have hzs : ∀ p ∈ neg.zonePaths, p ∈ neg₁.zonePaths ∨ p ∈ neg₂.zonePaths := by
    intro p hp
    obtain ⟨x, hx, hab⟩ := h.mem_zonePaths.1 hp
    rcases hh x hx with hx | hx
    · exact .inl (h₁.mem_zonePaths.2 ⟨x, hx, hab⟩)
    · exact .inr (h₂.mem_zonePaths.2 ⟨x, hx, hab⟩)
  have hds : ∀ y ∈ neg.dataPaths, y ∈ neg₁.dataPaths ∨ y ∈ neg₂.dataPaths := by
    intro y hy
    obtain ⟨x, hx, hab⟩ := h.mem_dataPaths.1 hy
    rcases hh x hx with hx | hx
    · exact .inl (h₁.mem_dataPaths.2 ⟨x, hx, hab⟩)
    · exact .inr (h₂.mem_dataPaths.2 ⟨x, hx, hab⟩)
  have hz := sum_map_le_of_subset (fun p => wireLen p.2.reverse + sizeofNegZone)
    h.nodup_zonePaths hzs
  have hd := sum_map_le_of_subset (fun x => wireLen x.2.reverse + sizeofNegData)
    h.nodup_dataPaths hds
  rw [h.use_eq, h₁.use_eq, h₂.use_eq, pathBytes, pathBytes, pathBytes]
  omega

inductive NegMessage
  | reply (rep : ReplyInfo)
  | referral (rep : ReplyInfo) (zoneName : Name)

/-- The zone of a message that gets that far, and the records to insert. -/
def NegMessage.plan : NegMessage → Option ((Name × UInt16) × List NegRrset)
  | .reply rep =>
    if replyHasNsec rep then
      (replyZone rep).map (·, rep.authority.filter (·.type = typeNSEC))
    else none
  | .referral rep zoneName =>
    match replyNsecSigner rep with
    | none => none
    | some zone =>
      if dnameSubdomainC zone.1 zoneName then
        some (zone, rep.authority.filter fun s => s.type = typeNSEC ∨ s.type = typeNSEC3)
      else none

def NegMessage.rep : NegMessage → ReplyInfo
  | .reply rep => rep
  | .referral rep _ => rep

def NegMessage.need (m : NegMessage) : Nat :=
  m.plan.elim 0 fun p => calcDataNeed m.rep + calcZoneNeed p.1.1

def NegMessage.add (neg : NegCache) : NegMessage → NegCache
  | .reply rep => valNegAddreply neg rep
  | .referral rep zoneName => valNegAddreferral neg rep zoneName

theorem NegMessage.add_eq (m : NegMessage) :
    m.plan = none ∧ (∀ neg, m.add neg = neg) ∨
      ∃ d c rrsets, m.plan = some ((d, c), rrsets) ∧
        ∀ neg, m.add neg = negAdd neg m.need d c rrsets := by
  cases m with
  | reply rep =>
    simp only [NegMessage.plan, NegMessage.need, NegMessage.add, valNegAddreply, NegMessage.rep]
    by_cases hn : replyHasNsec rep = true
    · cases hz : replyZone rep with
      | none => simp [hn]
      | some zone =>
        obtain ⟨d, c⟩ := zone
        simp [hn]
    · simp [hn]
  | referral rep zoneName =>
    simp only [NegMessage.plan, NegMessage.need, NegMessage.add, valNegAddreferral, NegMessage.rep]
    cases hz : replyNsecSigner rep with
    | none => simp
    | some zone =>
      obtain ⟨d, c⟩ := zone
      by_cases hs : dnameSubdomainC d zoneName = true
      · simp [hs]
      · simp [hs]

theorem insertEffect_subset {a b c : ZoneOwner → Prop} (h : ∀ x, a x → b x ∨ c x) (x : ZoneOwner)
    (hx : insertEffect k s a x) : b x ∨ insertEffect k s c x := by
  rw [insertEffect] at hx ⊢
  split at hx
  next hu =>
    rw [if_pos hu]
    obtain ⟨hx | hx, hno⟩ := hx
    · exact (h x hx).imp_right fun hc => ⟨.inl hc, hno⟩
    · exact .inr ⟨.inr hx, hno⟩
  next hu =>
    rw [if_neg hu]
    exact h x hx

theorem insertEffects_subset {rrsets : List NegRrset} {a b c : ZoneOwner → Prop}
    (h : ∀ x, a x → b x ∨ c x) (hx : insertEffects k rrsets a x) :
    b x ∨ insertEffects k rrsets c x := by
  induction rrsets generalizing a c with
  | nil => exact h x hx
  | cons s rrsets ih => exact ih (insertEffect_subset h) hx

theorem makeSpace_create (max maxiter need : Nat) :
    negMakeSpace (valNegCreate max maxiter) need = valNegCreate max maxiter := rfl

theorem NegInv.add_use_le (h : NegInv none neg) (need : Nat) (d : Name) (c : UInt16)
    (rrsets : List NegRrset) :
    (negAdd neg need d c rrsets).use ≤ (negMakeSpace neg need).use +
      (negAdd (valNegCreate need 0) need d c rrsets).use := by
  have hadd := h.add need d c rrsets
  have hempty := (NegInv.create need 0).add need d c rrsets
  apply hadd.inv.use_le (h.makeSpace need).1 hempty.inv
  intro x hx
  rw [hempty.holds, makeSpace_create]
  exact insertEffects_subset (fun y hy => .inl hy) ((hadd.holds x).1 hx)

example : (NegMessage.add (valNegCreate (NegMessage.reply rootReply).need 0)
    (.reply rootReply)).use ≤ (NegMessage.reply rootReply).need := by decide

def chaosReply : ReplyInfo where
  security := .secure
  anNumrrsets := 0
  nsNumrrsets := 3
  rrsets := [⟨[], typeSOA, 3, .secure, [], []⟩,
    ⟨[[98]], typeNSEC, 3, .secure, [[0, 3, 1, 99, 0]], []⟩,
    ⟨[[99]], typeNSEC, 3, .secure, [[0, 1, 0]], []⟩]

end CwdGate.Validator
