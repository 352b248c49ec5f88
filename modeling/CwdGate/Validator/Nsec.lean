import CwdGate.Dname.Name

namespace CwdGate.Validator
open Std Lib List

def typeNS : UInt16 := 2
def typeSOA : UInt16 := 6
def typeDNAME : UInt16 := 39

def bitMasks : List UInt8 := [0x80, 0x40, 0x20, 0x10, 0x08, 0x04, 0x02, 0x01]

def nsecbitmapLoop (type : UInt16) : Nat → List UInt8 → Bool
  | 0, _ => false
  | fuel + 1, bitmap =>
    match bitmap with
    | win :: winlen :: rest =>
      if rest.length < 1 then false
      else if rest.length < winlen.toNat ∨ winlen.toNat < 1 ∨ winlen.toNat > 32 then false
      else if win.toNat = type.toNat / 256 then
        let mybyte := type.toNat % 256 / 8
        if winlen.toNat ≤ mybyte then false
        else (rest.getD mybyte 0 &&& bitMasks.getD (type.toNat % 8) 0) != 0
      else nsecbitmapLoop type fuel (rest.drop winlen.toNat)
    | _ => false

def nsecbitmapHasTypeRdata (bitmap : List UInt8) (type : UInt16) : Bool :=
  nsecbitmapLoop type bitmap.length bitmap

/-- An NSEC RRset: its owner and the rdata of its records, each behind a 16-bit length. -/
structure NsecRrset where
  dname : Name
  rrData : List (List UInt8)

def nsecHasType (nsec : NsecRrset) (type : UInt16) : Bool :=
  match nsec.rrData with
  | [] => false
  | d :: _ =>
    if d.length < 2 + 1 then false
    else
      let len := dnameValid (d.drop 2) (d.length - 2)
      if len = 0 then false
      else nsecbitmapHasTypeRdata ((d.drop 2).drop len) type

def nsecGetNext (nsec : NsecRrset) : Option Name :=
  match nsec.rrData with
  | [] => none
  | d :: _ =>
    if d.length < 2 + 1 then none
    else if dnameValid (d.drop 2) (d.length - 2) = 0 then none
    else some (nameAt (d.drop 2))

def valNsecProvesNameError (nsec : NsecRrset) (qname : Name) : Bool :=
  let owner := nsec.dname
  match nsecGetNext nsec with
  | none => false
  | some next =>
    if queryDnameCompare qname owner = .eq then false
    else if dnameSubdomainC qname owner ∧ (nsecHasType nsec typeDNAME ∨
        (nsecHasType nsec typeNS ∧ ¬ nsecHasType nsec typeSOA)) then false
    else if queryDnameCompare owner next = .eq then dnameStrictSubdomainC qname next
    else if dnameCanonicalCompare owner next = .gt then
      dnameCanonicalCompare owner qname = .lt ∧ dnameStrictSubdomainC qname next
    else
      dnameCanonicalCompare owner qname = .lt ∧ dnameCanonicalCompare qname next = .lt

def nsecClosestEncloser (qname : Name) (nsec : NsecRrset) : Option Name :=
  match nsecGetNext nsec with
  | none => none
  | some next =>
    let common1 := dnameGetSharedTopdomain nsec.dname qname
    let common2 := dnameGetSharedTopdomain next qname
    if dnameCountLabels common1 > dnameCountLabels common2 then some common1 else some common2

def wildLabel : Label := [42]

def valNsecProvesNoWc (nsec : NsecRrset) (qname : Name) : Bool :=
  match nsecClosestEncloser qname nsec with
  | none => false
  | some ce =>
    let labs := dnameCountLabels qname - dnameCountLabels ce
    if labs > 0 then
      let strip := dnameRemoveLabels qname labs
      if wireLen strip > 255 - 2 then false
      else valNsecProvesNameError nsec (wildLabel :: strip)
    else false

/-- One window of a type bitmap. -/
structure BitmapBlock where
  win : UInt8
  bits : List UInt8

def BitmapListed (blocks : List BitmapBlock) (type : UInt16) : Prop :=
  ∃ blk ∈ blocks, blk.win.toNat = type.toNat / 256 ∧
    ∃ b, blk.bits[type.toNat % 256 / 8]? = some b ∧ b.toNat.testBit (7 - type.toNat % 8)

def encodeBlocks : List BitmapBlock → List UInt8
  | [] => []
  | blk :: blocks => blk.win :: blk.bits.length.toUInt8 :: blk.bits ++ encodeBlocks blocks

structure BlocksWf (blocks : List BitmapBlock) : Prop where
  windows : (blocks.map BitmapBlock.win).Nodup
  pos : ∀ blk ∈ blocks, 0 < blk.bits.length
  le : ∀ blk ∈ blocks, blk.bits.length ≤ 32

theorem blocksWf_nil : BlocksWf [] := ⟨.nil, nofun, nofun⟩

theorem BlocksWf.tail {blk : BitmapBlock} {blocks : List BitmapBlock}
    (h : BlocksWf (blk :: blocks)) : BlocksWf blocks where
  windows := (List.nodup_cons.1 h.windows).2
  pos b hb := h.pos b (List.mem_cons_of_mem _ hb)
  le b hb := h.le b (List.mem_cons_of_mem _ hb)

theorem bitMask_testBit (hk : k < 8) :
    ((b &&& bitMasks.getD k 0) != 0) = b.toNat.testBit (7 - k) := by
  have key : ∀ (i : Fin 256) (k : Fin 8),
      ((UInt8.ofNat i.val &&& bitMasks.getD k.val 0) != 0) = i.val.testBit (7 - k.val) := by
    decide +kernel
  have h := key ⟨b.toNat, b.toNat_lt⟩ ⟨k, hk⟩
  simpa using h

theorem nsecbitmapLoop_encode (hw : BlocksWf blocks) (fuel : Nat) (hf : blocks.length ≤ fuel) :
    nsecbitmapLoop type fuel (encodeBlocks blocks) = true ↔ BitmapListed blocks type := by
  induction blocks generalizing fuel with
  | nil => cases fuel <;> simp [nsecbitmapLoop, encodeBlocks, BitmapListed]
  | cons blk blocks ih =>
    cases fuel with
    | zero => simp at hf
    | succ fuel =>
      have h0 := hw.pos blk mem_cons_self
      have h32 := hw.le blk mem_cons_self
      have hl : blk.bits.length.toUInt8.toNat = blk.bits.length := toNat_toUInt8_of_lt (by omega)
      have hlen : ¬ (blk.bits ++ encodeBlocks blocks).length < 1 := by
        rw [length_append]; omega
      have hok : ¬ ((blk.bits ++ encodeBlocks blocks).length < blk.bits.length ∨
          blk.bits.length < 1 ∨ blk.bits.length > 32) := by
        rw [length_append]; omega
      simp only [nsecbitmapLoop, encodeBlocks, cons_append, hl]
      rw [if_neg hlen, if_neg hok]
      by_cases hwin : blk.win.toNat = type.toNat / 256
      · rw [if_pos hwin]
        have hother : ¬ BitmapListed blocks type := by
          rintro ⟨blk', hm, hw', -⟩
          refine (nodup_cons.1 hw.windows).1 (mem_map.2 ⟨blk', hm, ?_⟩)
          exact UInt8.toNat_inj.1 (hw'.trans hwin.symm)
        have hmod : type.toNat % 8 = type.toNat % 256 % 8 := by omega
        by_cases hb : blk.bits.length ≤ type.toNat % 256 / 8
        · rw [if_pos hb]
          simp only [Bool.false_eq_true, false_iff]
          rintro ⟨blk', hm, hw', b, hget, hbit⟩
          rcases mem_cons.1 hm with rfl | hm
          · rw [getElem?_eq_none hb] at hget
            cases hget
          · exact hother ⟨blk', hm, hw', b, hget, hbit⟩
        · rw [if_neg hb]
          have hb' := Nat.lt_of_not_le hb
          rw [bitMask_testBit (Nat.mod_lt _ (by decide)), getD_append _ _ _ _ hb',
            getD_eq_getElem _ _ hb']
          constructor
          · intro h
            exact ⟨blk, mem_cons_self, hwin, _, getElem?_eq_getElem hb', h⟩
          · rintro ⟨blk', hm, hw', b, hget, hbit⟩
            rcases mem_cons.1 hm with rfl | hm
            · rw [getElem?_eq_getElem hb'] at hget
              cases hget
              exact hbit
            · exact absurd ⟨blk', hm, hw', b, hget, hbit⟩ hother
      · rw [if_neg hwin, drop_left' rfl, ih hw.tail fuel (by simpa using hf)]
        constructor
        · rintro ⟨blk', hm, h⟩
          exact ⟨blk', mem_cons_of_mem _ hm, h⟩
        · rintro ⟨blk', hm, hw', h⟩
          rcases mem_cons.1 hm with rfl | hm
          · exact absurd hw' hwin
          · exact ⟨blk', hm, hw', h⟩

theorem length_le_encodeBlocks : blocks.length ≤ (encodeBlocks blocks).length := by
  induction blocks with
  | nil => exact Nat.zero_le _
  | cons blk blocks ih =>
    simp only [encodeBlocks, cons_append, length_cons, length_append]
    omega

theorem nsecbitmapHasTypeRdata_encode (hw : BlocksWf blocks) :
    nsecbitmapHasTypeRdata (encodeBlocks blocks) type = true ↔ BitmapListed blocks type :=
  nsecbitmapLoop_encode hw _ length_le_encodeBlocks

def NameLt (a b : Name) : Prop := (key a).compareLex canonOrd (key b) = .lt

instance (a b : Name) : Decidable (NameLt a b) :=
  inferInstanceAs (Decidable ((key a).compareLex canonOrd (key b) = .lt))

/-- The owners of an NSEC chain in canonical order, the apex first, with their type windows. -/
structure Zone where
  apex : Name
  rest : List Name
  windows : Name → List BitmapBlock
  sorted : (apex :: rest).Pairwise NameLt
  below : ∀ o ∈ rest, key apex <+: key o
  valid : ∀ o ∈ apex :: rest, ValidName o
  windowsWf : ∀ o, BlocksWf (windows o)

def Zone.owners (z : Zone) : List Name := z.apex :: z.rest

/-- The owner that the NSEC of the `i`-th owner names; the last one wraps to the apex. -/
def Zone.nextOwner (z : Zone) (i : Nat) : Name := (z.owners[i + 1]?).getD z.apex

def Zone.hasType (z : Zone) (o : Name) (type : UInt16) : Prop := BitmapListed (z.windows o) type

/-- A name exists as an owner or as an empty non-terminal. -/
def Zone.Exists (z : Zone) (n : Name) : Prop := ∃ o ∈ z.owners, key n <+: key o

/-- `nsec` is the record of the chain at owner `o`, up to letter case. -/
structure NsecOf (z : Zone) (i : Nat) (o : Name) (nsec : NsecRrset) : Prop where
  owner : z.owners[i]? = some o
  dname : lowerName nsec.dname = lowerName o
  rdata : ∃ len0 len1 next others, ValidName next ∧ lowerName next = lowerName (z.nextOwner i) ∧
    nsec.rrData = (len0 :: len1 :: wire next ++ encodeBlocks (z.windows o)) :: others

theorem key_eq_of_lowerName (h : lowerName a = lowerName b) : key a = key b :=
  key_injective_iff.2 h

section record
variable {z : Zone} {i : Nat} {o : Name} {nsec : NsecRrset}

variable (h : NsecOf z i o nsec)
include h

theorem NsecOf.next : ∃ next, nsecGetNext nsec = some next ∧ key next = key (z.nextOwner i) := by
  obtain ⟨len0, len1, next, others, hv, hl, hd⟩ := h.rdata
  have hpos := wireLen_pos next
  refine ⟨next, ?_, key_eq_of_lowerName hl⟩
  simp only [nsecGetNext, hd, cons_append, length_cons, length_append, length_wire,
    drop_succ_cons, drop_zero]
  rw [if_neg (by omega), dnameValid_wire hv _ (by omega), if_neg (by omega), nameAt_wire hv]

theorem NsecOf.hasType (type : UInt16) : nsecHasType nsec type = true ↔ z.hasType o type := by
  obtain ⟨len0, len1, next, others, hv, hl, hd⟩ := h.rdata
  have hpos := wireLen_pos next
  simp only [nsecHasType, hd, cons_append, length_cons, length_append, length_wire,
    drop_succ_cons, drop_zero]
  rw [if_neg (by omega), dnameValid_wire hv _ (by omega), if_neg (by omega),
    drop_left' (length_wire next)]
  exact nsecbitmapHasTypeRdata_encode (z.windowsWf o)

theorem NsecOf.owner_mem : o ∈ z.owners :=
  mem_of_getElem? h.owner

theorem NsecOf.key_dname : key nsec.dname = key o :=
  key_eq_of_lowerName h.dname

end record

theorem Zone.nextOwner_mem (z : Zone) : z.nextOwner i ∈ z.owners := by
  unfold Zone.nextOwner
  cases h : z.owners[i + 1]? with
  | none => exact mem_cons_self
  | some o => exact mem_of_getElem? h

theorem Zone.apex_prefix (z : Zone) (h : o ∈ z.owners) : key z.apex <+: key o := by
  rcases mem_cons.1 h with rfl | h
  · exact prefix_refl _
  · exact z.below o h

theorem NameLt.isLE (h : NameLt a b) :
    ((key a).compareLex canonOrd (key b)).isLE := Ordering.isLE_of_eq_lt h

def nameCmp (a b : Name) : Ordering := (key a).compareLex canonOrd (key b)

instance : TransCmp nameCmp where
  eq_swap {a b} := @OrientedCmp.eq_swap _ (List.compareLex canonOrd) _ (key a) (key b)
  isLE_trans {a b c} :=
    @TransCmp.isLE_trans _ (List.compareLex canonOrd) _ (key a) (key b) (key c)

theorem sorted_around {owners : List Name} (hs : owners.Pairwise NameLt) (hi : owners[i]? = some o)
    (hx : x ∈ owners) :
    ((key x).compareLex canonOrd (key o)).isLE ∨
      ∃ o', owners[i + 1]? = some o' ∧ ((key o').compareLex canonOrd (key x)).isLE :=
  pairwise_around (c := nameCmp) hs hi hx

theorem Zone.le_last (z : Zone) (hi : z.owners[i]? = some o) (hlast : z.owners[i + 1]? = none)
    (hx : x ∈ z.owners) : ((key x).compareLex canonOrd (key o)).isLE := by
  rcases sorted_around z.sorted hi hx with hle | ⟨o', ho', -⟩
  · exact hle
  · simp only [Zone.owners] at hlast
    rw [hlast] at ho'
    cases ho'

theorem Zone.last_of_next_le (z : Zone) (hi : z.owners[i]? = some o)
    (hle : ((key (z.nextOwner i)).compareLex canonOrd (key o)).isLE) : z.owners[i + 1]? = none := by
  cases hc : z.owners[i + 1]? with
  | none => rfl
  | some o' =>
    have hno : z.nextOwner i = o' := by unfold Zone.nextOwner; rw [hc]; rfl
    have hp : NameLt o o' := lt_next_of_pairwise (c := nameCmp) z.sorted hi hc
    rw [hno] at hle
    exact absurd hle (OrientedCmp.not_isLE_of_lt hp)

/-- What a successful name error proof says about the chain around its record. -/
structure Covers (z : Zone) (i : Nat) (o q : Name) : Prop where
  owner_lt : NameLt o q
  around : ∀ x ∈ z.owners, ((key x).compareLex canonOrd (key o)).isLE ∨
    (NameLt q (z.nextOwner i) ∧ ((key (z.nextOwner i)).compareLex canonOrd (key x)).isLE)

theorem covers_of_between (hi : z.owners[i]? = some o) (hlt : NameLt o q)
    (hnext : NameLt q (z.nextOwner i)) : Covers z i o q := by
  apply Covers.mk hlt
  intro x hx
  rcases sorted_around z.sorted hi hx with hle | ⟨o', ho', hle⟩
  · exact .inl hle
  · have hno : z.nextOwner i = o' := by
      unfold Zone.nextOwner Zone.owners; rw [ho']; rfl
    exact .inr ⟨hnext, hno ▸ hle⟩

theorem covers_of_order {next : Name} (hn : NsecOf z i o nsec) (hkn : key next = key (z.nextOwner i))
    (h : (if queryDnameCompare nsec.dname next = .eq then dnameStrictSubdomainC q next
      else if dnameCanonicalCompare nsec.dname next = .gt then
        decide (dnameCanonicalCompare nsec.dname q = .lt ∧ dnameStrictSubdomainC q next = true)
      else decide (dnameCanonicalCompare nsec.dname q = .lt ∧
        dnameCanonicalCompare q next = .lt)) = true) : Covers z i o q := by
  have hko := hn.key_dname
  split at h
  next heq =>
    -- the only record of the chain
    have hkey : key o = key (z.nextOwner i) := by
      rw [← hko, ← hkn]
      exact key_eq_of_lowerName ((queryDnameCompare_eq_iff _ _).1 heq)
    have hle : ((key (z.nextOwner i)).compareLex canonOrd (key o)).isLE := by
      rw [hkey, @ReflCmp.compare_self _ (List.compareLex canonOrd)]
      rfl
    obtain ⟨hp, hlen⟩ := (dnameStrictSubdomainC_iff _ _).1 h
    rw [hkn, ← hkey] at hp
    have hlen' : (key o).length < (key q).length := by
      rw [hkey, ← hkn, length_key, length_key]
      exact hlen
    exact ⟨prefix_lt hp hlen',
      fun x hx => .inl (z.le_last hn.owner (z.last_of_next_le hn.owner hle) hx)⟩
  next =>
    split at h
    next hgt =>
      -- the last record of the chain
      rw [dnameCanonicalCompare_spec, hko, hkn] at hgt
      have hlt := @OrientedCmp.lt_of_gt _ (List.compareLex canonOrd) _ _ _ hgt
      rw [decide_eq_true_eq, dnameCanonicalCompare_spec, hko] at h
      have hlast := z.last_of_next_le hn.owner (Ordering.isLE_of_eq_lt hlt)
      exact ⟨h.1, fun x hx => .inl (z.le_last hn.owner hlast hx)⟩
    next =>
      rw [decide_eq_true_eq, dnameCanonicalCompare_spec, dnameCanonicalCompare_spec, hko, hkn] at h
      exact covers_of_between hn.owner h.1 h.2

theorem covers_of_nameError (hn : NsecOf z i o nsec) (h : valNsecProvesNameError nsec q = true) :
    Covers z i o q ∧ ¬ (key o <+: key q ∧ (z.hasType o typeDNAME ∨
      (z.hasType o typeNS ∧ ¬ z.hasType o typeSOA))) := by
  obtain ⟨next, hnext, hkn⟩ := hn.next
  simp only [valNsecProvesNameError, hnext] at h
  split at h
  next => cases h
  next hne =>
    split at h
    next => cases h
    next hcut =>
      refine ⟨covers_of_order hn hkn h, ?_⟩
      rintro ⟨hp, htypes⟩
      apply hcut
      refine ⟨(dnameSubdomainC_iff _ _).2 (by rw [hn.key_dname]; exact hp), ?_⟩
      rcases htypes with hd | ⟨hns, hsoa⟩
      · exact .inl ((hn.hasType _).2 hd)
      · exact .inr ⟨(hn.hasType _).2 hns, fun hc => hsoa ((hn.hasType _).1 hc)⟩

section covers
variable {z : Zone} {i : Nat} {o q : Name}

theorem Covers.not_owner (h : Covers z i o q) : ∀ x ∈ z.owners, key x ≠ key q := by
  intro x hx heq
  rcases h.around x hx with hle | ⟨hlt, hle⟩
  · rw [heq] at hle
    exact @OrientedCmp.not_isLE_of_lt _ (List.compareLex canonOrd) _ _ _ h.owner_lt hle
  · rw [heq] at hle
    exact @OrientedCmp.not_isLE_of_lt _ (List.compareLex canonOrd) _ _ _ hlt hle

theorem Covers.not_exists (h : Covers z i o q) (hnext : ¬ key q <+: key (z.nextOwner i)) :
    ¬ z.Exists q := by
  rintro ⟨x, hx, hp⟩
  have hqx := prefix_isLE (c := canonOrd) hp
  rcases h.around x hx with hle | ⟨hlt, hle⟩
  · exact @OrientedCmp.not_isLE_of_lt _ (List.compareLex canonOrd) _ _ _ h.owner_lt
      (TransCmp.isLE_trans hqx hle)
  · exact hnext (prefix_of_between (List.prefix_refl _) hp hlt.isLE hle)

theorem Covers.ancestor (h : Covers z i o q) (ha : a <+: key q) (hx : x ∈ z.owners)
    (hax : a <+: key x) : a <+: key o ∨ a <+: key (z.nextOwner i) := by
  rcases h.around x hx with hle | ⟨hlt, hle⟩
  · exact .inl (prefix_of_between hax ha hle h.owner_lt.isLE)
  · exact .inr (prefix_of_between ha hax hlt.isLE hle)

end covers

/-- The closest encloser computed from a record: the longer of its two shared top domains. -/
theorem nsecClosestEncloser_spec (hn : NsecOf z i o nsec) (hq : key z.apex <+: key q) :
    ∃ ce, nsecClosestEncloser q nsec = some ce ∧ key ce <+: key q ∧ key z.apex <+: key ce ∧
      (key ce <+: key o ∨ key ce <+: key (z.nextOwner i)) ∧
      ∀ a : List Label, a <+: key q → (a <+: key o ∨ a <+: key (z.nextOwner i)) →
        a.length ≤ ce.length := by
  obtain ⟨next, hnext, hkn⟩ := hn.next
  have hshared : ∀ {n x}, key n = key x → x ∈ z.owners →
      key (dnameGetSharedTopdomain n q) <+: key q ∧
      key z.apex <+: key (dnameGetSharedTopdomain n q) ∧
      key (dnameGetSharedTopdomain n q) <+: key x ∧
      ∀ a, a <+: key q → a <+: key x → a.length ≤ (dnameGetSharedTopdomain n q).length := by
    intro n x hk hx
    rw [← length_key (dnameGetSharedTopdomain n q), key_dnameGetSharedTopdomain, hk]
    have hlen : ((key x).take (commonLen (key x) (key q))).length = commonLen (key x) (key q) := by
      rw [length_take, Nat.min_eq_left (commonLen_le_left _ _)]
    rw [hlen]
    refine ⟨take_prefix_of_le_commonLen le_rfl, ?_, take_prefix _ _,
      fun a ha hax => length_le_commonLen hax ha⟩
    exact prefix_of_prefix_length_le (z.apex_prefix hx) ( take_prefix _ _)
      ((length_le_commonLen (z.apex_prefix hx) hq).trans_eq hlen.symm)
  obtain ⟨hq1, hapex1, ho1, hmax1⟩ := hshared hn.key_dname hn.owner_mem
  obtain ⟨hq2, hapex2, ho2, hmax2⟩ := hshared hkn z.nextOwner_mem
  simp only [nsecClosestEncloser, hnext]
  split
  next hgt =>
    simp only [dnameCountLabels] at hgt
    refine ⟨_, rfl, hq1, hapex1, .inl ho1, ?_⟩
    rintro a ha (hao | han)
    · exact hmax1 a ha hao
    · exact (hmax2 a ha han).trans (by omega)
  next hle =>
    simp only [dnameCountLabels] at hle
    refine ⟨_, rfl, hq2, hapex2, .inr ho2, ?_⟩
    rintro a ha (hao | han)
    · exact (hmax1 a ha hao).trans (by omega)
    · exact hmax2 a ha han

/-- `ce` is the longest ancestor of `q` that exists in the zone. -/
structure IsClosestEncloser (z : Zone) (q ce : Name) : Prop where
  ancestor : key ce <+: key q
  exist : z.Exists ce
  longest : ∀ a : Name, key a <+: key q → z.Exists a → a.length ≤ ce.length

theorem covers_wildcard (hn : NsecOf z i o nsec) (hq : key z.apex <+: key q)
    (h : valNsecProvesNoWc nsec q = true) :
    ∃ ce, nsecClosestEncloser q nsec = some ce ∧
      ∀ ce', key ce' = key ce → Covers z i o (wildLabel :: ce') := by
  obtain ⟨ce, hce, hp, hapex, -⟩ := nsecClosestEncloser_spec hn hq
  refine ⟨ce, hce, fun ce' hce' => ?_⟩
  simp only [valNsecProvesNoWc, hce] at h
  split at h
  next hlabs =>
    split at h
    next => cases h
    next =>
      have hstrip : key (dnameRemoveLabels q (dnameCountLabels q - dnameCountLabels ce)) =
          key ce' := by
        rw [dnameRemoveLabels, key_drop, hce']
        have : q.length - (dnameCountLabels q - dnameCountLabels ce) = (key ce).length := by
          have h1 : dnameCountLabels q = q.length + 1 := rfl
          have h2 : dnameCountLabels ce = ce.length + 1 := rfl
          rw [length_key]
          omega
        rw [this]
        exact (prefix_iff_eq_take.1 hp).symm
      have hc := (covers_of_nameError hn h).1
      have hk : key (wildLabel :: dnameRemoveLabels q (dnameCountLabels q - dnameCountLabels ce)) =
          key (wildLabel :: ce') := by
        rw [key_cons, key_cons, hstrip]
      refine ⟨?_, ?_⟩
      · have := hc.owner_lt
        unfold NameLt at this ⊢
        rwa [hk] at this
      · intro x hx
        have := hc.around x hx
        unfold NameLt at this ⊢
        rwa [hk] at this
  next => cases h

/-- What a name error proof and a wildcard proof say of the query name in the zone. -/
def NameErrorSound (z : Zone) (o : Name) (nsec nsec' : NsecRrset) (q : Name) : Prop :=
  valNsecProvesNameError nsec q = true →
    (∀ x ∈ z.owners, key x ≠ key q) ∧ ¬ z.Exists q ∧
    ¬ (key o <+: key q ∧ (z.hasType o typeDNAME ∨ (z.hasType o typeNS ∧ ¬ z.hasType o typeSOA))) ∧
    ∃ ce, nsecClosestEncloser q nsec = some ce ∧ IsClosestEncloser z q ce ∧
      (valNsecProvesNoWc nsec' q = true → ¬ z.Exists (wildLabel :: ce))

/-- The zone `z.` with the single further owner `a.b.z.`, so that `b.z.` is empty. -/
def entZone : Zone where
  apex := [[122]]
  rest := [[[97], [98], [122]]]
  windows _ := []
  sorted := by decide
  below := by decide
  valid := by decide
  windowsWf _ := blocksWf_nil

def entNsec : NsecRrset where
  dname := [[122]]
  rrData := [0 :: 7 :: wire [[97], [98], [122]]]

theorem entNsec_of : NsecOf entZone 0 [[122]] entNsec where
  owner := rfl
  dname := rfl
  rdata := ⟨0, 7, [[97], [98], [122]], [], by decide, rfl, by decide⟩

theorem name_error_unsound_empty_nonterminal :
    ¬ ∀ (z : Zone) (i j : Nat) (o o' q : Name) (nsec nsec' : NsecRrset),
      NsecOf z i o nsec → NsecOf z j o' nsec' → key z.apex <+: key q →
        NameErrorSound z o nsec nsec' q := by
  intro h
  have hs := h entZone 0 0 [[122]] [[122]] [[98], [122]] entNsec entNsec entNsec_of entNsec_of
    (by decide) (by decide)
  exact hs.2.1 ⟨[[97], [98], [122]], by decide, by decide⟩

/-- A name error proof is right if the next owner is not below the query name, and so is a wildcard
proof with the same closest encloser. -/
theorem name_error_sound_of_next {z : Zone} {i j : Nat} {o o' q : Name} {nsec nsec' : NsecRrset}
    (hn : NsecOf z i o nsec) (hn' : NsecOf z j o' nsec') (hq : key z.apex <+: key q)
    (hnext : ¬ key q <+: key (z.nextOwner i)) (h : valNsecProvesNameError nsec q = true) :
    (∀ x ∈ z.owners, key x ≠ key q) ∧ ¬ z.Exists q ∧
    ¬ (key o <+: key q ∧ (z.hasType o typeDNAME ∨ (z.hasType o typeNS ∧ ¬ z.hasType o typeSOA))) ∧
    ∃ ce, nsecClosestEncloser q nsec = some ce ∧ IsClosestEncloser z q ce ∧
      (valNsecProvesNoWc nsec' q = true →
        (∀ ce', nsecClosestEncloser q nsec' = some ce' → lowerName ce' = lowerName ce) →
        (∀ x ∈ z.owners, key x ≠ key (wildLabel :: ce)) ∧
        (¬ key (wildLabel :: ce) <+: key (z.nextOwner j) → ¬ z.Exists (wildLabel :: ce))) := by
  obtain ⟨hc, hcut⟩ := covers_of_nameError hn h
  obtain ⟨ce, hce, hanc, -, hex, hlong⟩ := nsecClosestEncloser_spec hn hq
  refine ⟨hc.not_owner, hc.not_exists hnext, hcut, ce, hce, ⟨hanc, ?_, ?_⟩, ?_⟩
  · rcases hex with hex | hex
    · exact ⟨o, hn.owner_mem, hex⟩
    · exact ⟨_, z.nextOwner_mem, hex⟩
  · rintro a ha ⟨x, hx, hax⟩
    have := hlong (key a) ha (hc.ancestor ha hx hax)
    rwa [length_key] at this
  · intro hwc hsame
    obtain ⟨ce', hce', hcov⟩ := covers_wildcard hn' hq hwc
    have hk : key ce = key ce' := (key_eq_of_lowerName (hsame ce' hce')).symm
    exact ⟨(hcov ce hk).not_owner, (hcov ce hk).not_exists⟩

def pairZone : Zone where
  apex := [[122]]
  rest := [[[98], [122]]]
  windows _ := []
  sorted := by decide
  below := by decide
  valid := by decide
  windowsWf _ := blocksWf_nil

def pairNsec : NsecRrset where
  dname := [[90]]
  rrData := [0 :: 5 :: wire [[98], [90]]]

theorem pairNsec_of : NsecOf pairZone 0 [[122]] pairNsec where
  owner := rfl
  dname := rfl
  rdata := ⟨0, 5, [[98], [90]], [], by decide, rfl, by decide⟩

theorem name_error_sound_pairZone :
    ¬ pairZone.Exists [[97], [122]] ∧
    ∃ ce, nsecClosestEncloser [[97], [122]] pairNsec = some ce ∧
      IsClosestEncloser pairZone [[97], [122]] ce ∧
      (valNsecProvesNoWc pairNsec [[97], [122]] = true →
        (∀ ce', nsecClosestEncloser [[97], [122]] pairNsec = some ce' →
          lowerName ce' = lowerName ce) →
        (∀ x ∈ pairZone.owners, key x ≠ key (wildLabel :: ce)) ∧
        (¬ key (wildLabel :: ce) <+: key (pairZone.nextOwner 0) →
          ¬ pairZone.Exists (wildLabel :: ce))) :=
  have h := name_error_sound_of_next pairNsec_of pairNsec_of (q := [[97], [122]]) (by decide)
    (by decide) (by decide)
  ⟨h.2.1, h.2.2.2⟩

def typeCNAME : UInt16 := 5
def typeDS : UInt16 := 43

/-- The search of `nsec_proves_nodata` for a wildcard above the next owner; it ends at the root. -/
def wildcardEntLoop (owner qname : Name) : Name → Option Name
  | [] => none
  | l :: ce =>
    if dnameCanonicalCompare owner (l :: ce) = .lt then
      if dnameSubdomainC qname (l :: ce) then none
      else if dnameIsWild (l :: ce) ∧ dnameStrictSubdomainC qname ce then some ce
      else wildcardEntLoop owner qname ce
    else none

/-- `nsec_proves_nodata`: `none` for 0, otherwise 1 with what is left in `wc`. -/
def nsecProvesNodata (nsec : NsecRrset) (qname : Name) (qtype : UInt16) : Option (Option Name) :=
  if queryDnameCompare nsec.dname qname ≠ .eq then
    match nsecGetNext nsec with
    | none => none
    | some nm =>
      if dnameStrictSubdomainC nm qname ∧ dnameCanonicalCompare nsec.dname qname = .lt then
        some none
      else if dnameIsWild nsec.dname then
        let ce := dnameRemoveLabel nsec.dname
        if dnameStrictSubdomainC qname ce then
          if nsecHasType nsec typeCNAME then none
          else if nsecHasType nsec typeNS ∧ ¬ nsecHasType nsec typeSOA then none
          else if nsecHasType nsec qtype then none
          else some (some ce)
        else none
      else (wildcardEntLoop nsec.dname qname nm).map some
  else if nsecHasType nsec qtype then none
  else if nsecHasType nsec typeCNAME then none
  else if qtype ≠ typeDS ∧ nsecHasType nsec typeNS ∧ ¬ nsecHasType nsec typeSOA then none
  else if qtype = typeDS ∧ nsecHasType nsec typeSOA ∧ qname ≠ [] then none
  else some none

def Zone.TypeAt (z : Zone) (n : Name) (type : UInt16) : Prop :=
  ∃ x ∈ z.owners, key x = key n ∧ z.hasType x type

def Zone.NoData (z : Zone) (n : Name) (type : UInt16) : Prop :=
  ¬ z.TypeAt n type ∧ ¬ z.TypeAt n typeCNAME

/-- What `nsec_proves_nodata` says of the zone. A DS is judged at the parent. -/
def NodataSound (z : Zone) (qname : Name) (qtype : UInt16) : Option (Option Name) → Prop
  | none => True
  | some none => z.Exists qname ∧ z.NoData qname qtype ∧
      (qtype = typeDS → qname ≠ [] → ¬ z.TypeAt qname typeSOA)
  | some (some ce) => z.Exists (wildLabel :: ce) ∧ z.NoData (wildLabel :: ce) qtype

theorem key_prefix_of_suffix (h : m <:+ n) : key m <+: key n :=
  reverse_prefix.2 (h.map lowerLabel)

theorem dnameIsWild_iff (d : Name) : dnameIsWild d = true ↔ ∃ ce, d = wildLabel :: ce := by
  cases d with
  | nil => simp [dnameIsWild]
  | cons l ce => simp [dnameIsWild, wildLabel]

theorem wildcardEntLoop_spec (h : wildcardEntLoop owner q nm = some ce) :
    wildLabel :: ce <:+ nm ∧ NameLt owner (wildLabel :: ce) ∧
      ¬ key (wildLabel :: ce) <+: key q ∧ key ce <+: key q ∧ ce.length < q.length := by
  induction nm with
  | nil => cases h
  | cons l nm ih =>
    rw [wildcardEntLoop] at h
    split at h
    next hlt =>
      split at h
      next => cases h
      next hsub =>
        split at h
        next hw =>
          cases h
          obtain ⟨hwild, hstrict⟩ := hw
          obtain ⟨ce', heq⟩ := (dnameIsWild_iff _).1 hwild
          cases heq
          rw [dnameCanonicalCompare_spec] at hlt
          rw [dnameSubdomainC_iff] at hsub
          exact ⟨suffix_refl _, hlt, hsub, (dnameStrictSubdomainC_iff _ _).1 hstrict⟩
        next =>
          obtain ⟨hs, hrest⟩ := ih h
          exact ⟨hs.trans (suffix_cons l nm), hrest⟩
    next => cases h

/-- The next owner is itself a wildcard that applies to the query name. -/
structure NextWildApplies (owner next qname : Name) : Prop where
  notWild : dnameIsWild owner = false
  other : key owner ≠ key qname
  lt : NameLt owner next
  wild : ∃ ce, next = wildLabel :: ce ∧ key ce <+: key qname ∧ ce.length < qname.length
  above : ¬ key next <+: key qname

theorem wildcardEntLoop_next {next : Name} (h : NextWildApplies owner next q)
    (hce : next = wildLabel :: ce) : wildcardEntLoop owner q next = some ce := by
  obtain ⟨ce', heq, hp, hl⟩ := h.wild
  have habove := h.above
  have hlt := h.lt
  rw [hce] at habove hlt heq
  cases heq
  rw [← dnameSubdomainC_iff] at habove
  rw [hce, wildcardEntLoop, if_pos (by rw [dnameCanonicalCompare_spec]; exact hlt),
    if_neg habove, if_pos ⟨(dnameIsWild_iff _).2 ⟨ce, rfl⟩, (dnameStrictSubdomainC_iff _ _).2 ⟨hp, hl⟩⟩]

section soundness
variable {z : Zone} {i : Nat} {o : Name} {nsec : NsecRrset}

theorem NameLt.ne_key (h : NameLt a b) : key a ≠ key b := by
  intro heq
  unfold NameLt at h
  rw [heq, @ReflCmp.compare_self _ (List.compareLex canonOrd)] at h
  cases h

theorem Zone.owner_unique (hx : x ∈ z.owners) (hy : y ∈ z.owners) (h : key x = key y) : x = y := by
  have hp : z.owners.Pairwise fun a b => key a = key b → a = b :=
    z.sorted.imp fun hlt heq => absurd heq hlt.ne_key
  have hflip : z.owners.Pairwise (flip fun a b => key a = key b → a = b) :=
    hp.imp fun hab hba => (hab hba.symm).symm
  exact hp.forall_of_forall_of_flip (fun _ _ _ => rfl) hflip hx hy h

theorem Zone.typeAt_owner (ho : o ∈ z.owners) (hk : key o = key q) :
    z.TypeAt q type ↔ z.hasType o type := by
  constructor
  · intro h
    obtain ⟨x, hx, hxq, ht⟩ := h
    rwa [z.owner_unique hx ho (hxq.trans hk.symm)] at ht
  · intro h
    exact ⟨o, ho, hk, h⟩

theorem Covers.not_typeAt (h : Covers z i o q) (type : UInt16) : ¬ z.TypeAt q type := by
  intro ht
  obtain ⟨x, hx, hxq, -⟩ := ht
  exact h.not_owner x hx hxq

section
variable (hn : NsecOf z i o nsec)
include hn

theorem ent_of_ancestor (hlt : NameLt nsec.dname n) (hp : key n <+: key (z.nextOwner i))
    (hlen : n.length < (z.nextOwner i).length) : z.Exists n ∧ ∀ type, ¬ z.TypeAt n type := by
  have hc : Covers z i o n := by
    apply covers_of_between hn.owner
    · unfold NameLt at hlt ⊢
      rwa [hn.key_dname] at hlt
    · exact prefix_lt hp (by simpa using hlen)
  exact ⟨⟨_, z.nextOwner_mem, hp⟩, hc.not_typeAt⟩

theorem nodata_exact (hq : key nsec.dname = key q) :
    NodataSound z q qtype (nsecProvesNodata nsec q qtype) := by
  have hk : key o = key q := hn.key_dname.symm.trans hq
  have htype : ∀ type, nsecHasType nsec type ≠ true → ¬ z.TypeAt q type := by
    intro type hno hat
    exact hno ((hn.hasType type).2 ((Zone.typeAt_owner hn.owner_mem hk).1 hat))
  rw [nsecProvesNodata, if_neg (not_not.2 ((queryDnameCompare_eq_iff _ _).2
    (key_injective_iff.1 hq)))]
  by_cases ht : nsecHasType nsec qtype = true
  · rw [if_pos ht]
    trivial
  rw [if_neg ht]
  by_cases hcn : nsecHasType nsec typeCNAME = true
  · rw [if_pos hcn]
    trivial
  rw [if_neg hcn]
  split
  next => trivial
  next =>
    split
    next => trivial
    next hds =>
      have hex : z.Exists q := ⟨o, hn.owner_mem, by rw [hk]⟩
      have hsoa : qtype = typeDS → q ≠ [] → ¬ z.TypeAt q typeSOA := by
        intro hd hroot
        exact htype typeSOA fun hs => hds ⟨hd, hs, hroot⟩
      exact ⟨hex, ⟨htype _ ht, htype _ hcn⟩, hsoa⟩

theorem nodata_wildcard (hw : nsec.dname = wildLabel :: ce) :
    NodataSound z q qtype
      (if dnameStrictSubdomainC q ce then
        if nsecHasType nsec typeCNAME then none
        else if nsecHasType nsec typeNS ∧ ¬ nsecHasType nsec typeSOA then none
        else if nsecHasType nsec qtype then none
        else some (some ce)
      else none) := by
  have hk : key o = key (wildLabel :: ce) := by rw [← hw, hn.key_dname]
  have htype : ∀ type, nsecHasType nsec type ≠ true → ¬ z.TypeAt (wildLabel :: ce) type := by
    intro type hno hat
    exact hno ((hn.hasType type).2 ((Zone.typeAt_owner hn.owner_mem hk).1 hat))
  by_cases hsub : dnameStrictSubdomainC q ce = true
  · rw [if_pos hsub]
    by_cases hcn : nsecHasType nsec typeCNAME = true
    · rw [if_pos hcn]
      trivial
    rw [if_neg hcn]
    by_cases hns : nsecHasType nsec typeNS = true ∧ ¬ nsecHasType nsec typeSOA = true
    · rw [if_pos hns]
      trivial
    rw [if_neg hns]
    by_cases ht : nsecHasType nsec qtype = true
    · rw [if_pos ht]
      trivial
    rw [if_neg ht]
    exact ⟨⟨o, hn.owner_mem, by rw [hk]⟩, htype _ ht, htype _ hcn⟩
  · rw [if_neg hsub]
    trivial

theorem nodata_wildcardEnt {next : Name} (hkn : key next = key (z.nextOwner i))
    (hw : dnameIsWild nsec.dname = false) (hq : key nsec.dname ≠ key q)
    (hcond : NextWildApplies nsec.dname next q → z.NoData next qtype) :
    NodataSound z q qtype ((wildcardEntLoop nsec.dname q next).map some) := by
  cases hloop : wildcardEntLoop nsec.dname q next with
  | none => trivial
  | some ce =>
    obtain ⟨hsuf, hlt, habove, hp, hlen⟩ := wildcardEntLoop_spec hloop
    have hpn : key (wildLabel :: ce) <+: key (z.nextOwner i) := hkn ▸ key_prefix_of_suffix hsuf
    by_cases heq : wildLabel :: ce = next
    · have hex : z.Exists (wildLabel :: ce) := ⟨_, z.nextOwner_mem, hpn⟩
      have happ : NextWildApplies nsec.dname next q :=
        ⟨hw, hq, heq ▸ hlt, ⟨ce, heq.symm, hp, hlen⟩, heq ▸ habove⟩
      exact ⟨hex, heq ▸ hcond happ⟩
    · have hless : (wildLabel :: ce).length < (z.nextOwner i).length := by
        have hle := hsuf.length_le
        have hne : (wildLabel :: ce).length ≠ next.length := fun hc => heq (hsuf.eq_of_length hc)
        have hkl := congrArg length hkn
        rw [length_key, length_key] at hkl
        omega
      obtain ⟨hex, hno⟩ := ent_of_ancestor hn hlt hpn hless
      exact ⟨hex, hno _, hno _⟩

end

theorem nsecProvesNodata_nextWild {next : Name} (hnext : nsecGetNext nsec = some next)
    (h : NextWildApplies nsec.dname next q) (hce : next = wildLabel :: ce) :
    nsecProvesNodata nsec q qtype = some (some ce) := by
  have hother : queryDnameCompare nsec.dname q ≠ .eq := by
    intro hc
    exact h.other (key_injective_iff.2 ((queryDnameCompare_eq_iff _ _).1 hc))
  have hnot : ¬ (dnameStrictSubdomainC next q = true ∧
      dnameCanonicalCompare nsec.dname q = .lt) := by
    intro hc
    obtain ⟨ce', heq, -, hl⟩ := h.wild
    have hshort := ((dnameStrictSubdomainC_iff _ _).1 hc.1).2
    rw [heq, length_cons] at hshort
    omega
  have hwild := h.notWild
  rw [nsecProvesNodata, if_pos hother]
  simp only [hnext]
  rw [if_neg hnot, hwild, if_neg Bool.false_ne_true, wildcardEntLoop_next h hce]
  rfl

/-- A nodata answer is right unless the next owner is a wildcard that applies, with the type or a
CNAME. -/
theorem nodata_sound_iff {next : Name} (hn : NsecOf z i o nsec)
    (hnext : nsecGetNext nsec = some next) (q : Name) (qtype : UInt16) :
    NodataSound z q qtype (nsecProvesNodata nsec q qtype) ↔
      (NextWildApplies nsec.dname next q → z.NoData next qtype) := by
  obtain ⟨next', hnext', hkn⟩ := hn.next
  rw [hnext] at hnext'
  cases hnext'
  constructor
  · intro hs happ
    obtain ⟨ce, hce, -⟩ := happ.wild
    rw [nsecProvesNodata_nextWild hnext happ hce] at hs
    rw [hce]
    exact hs.2
  · intro hcond
    by_cases hq : key nsec.dname = key q
    · exact nodata_exact hn hq
    have hother : queryDnameCompare nsec.dname q ≠ .eq := by
      intro hc
      exact hq (key_injective_iff.2 ((queryDnameCompare_eq_iff _ _).1 hc))
    rw [nsecProvesNodata, if_pos hother]
    simp only [hnext]
    split
    next hent =>
      obtain ⟨hp, hlen⟩ := (dnameStrictSubdomainC_iff _ _).1 hent.1
      have hlt : NameLt nsec.dname q := by
        have := hent.2
        rwa [dnameCanonicalCompare_spec] at this
      have hkl := congrArg length hkn
      rw [length_key, length_key] at hkl
      obtain ⟨hex, hno⟩ := ent_of_ancestor hn hlt (hkn ▸ hp) (hkl ▸ hlen)
      exact ⟨hex, ⟨hno _, hno _⟩, fun _ _ => hno _⟩
    next =>
      split
      next hw =>
        obtain ⟨ce, hce⟩ := (dnameIsWild_iff _).1 hw
        rw [hce, dnameRemoveLabel, tail_cons]
        exact nodata_wildcard hn hce
      next hw =>
        exact nodata_wildcardEnt hn hkn (Bool.not_eq_true _ ▸ hw) hq hcond

end soundness

theorem nodata_sound_entZone :
    nsecProvesNodata entNsec [[98], [122]] 1 = some none ∧
      NodataSound entZone [[98], [122]] 1 (nsecProvesNodata entNsec [[98], [122]] 1) := by
  have hwild : NextWildApplies entNsec.dname [[97], [98], [122]] [[98], [122]] →
      entZone.NoData [[97], [98], [122]] 1 := by
    intro h
    obtain ⟨ce, hce, -⟩ := h.wild
    cases hce
  exact ⟨by decide, (nodata_sound_iff entNsec_of (by decide) _ _).2 hwild⟩

def wildZone : Zone where
  apex := [[122]]
  rest := [[wildLabel, [122]]]
  windows o := if o = [wildLabel, [122]] then [⟨0, [0x40]⟩] else []
  sorted := by decide
  below := by decide
  valid := by decide
  windowsWf o := by
    split
    · exact ⟨by decide, by decide, by decide⟩
    · exact blocksWf_nil

def wildNsec : NsecRrset where
  dname := [[122]]
  rrData := [0 :: 5 :: wire [wildLabel, [122]]]

theorem wildNsec_of : NsecOf wildZone 0 [[122]] wildNsec where
  owner := rfl
  dname := rfl
  rdata := ⟨0, 5, [wildLabel, [122]], [], by decide, rfl, by decide⟩

theorem nodata_unsound_nextWild :
    ¬ ∀ (z : Zone) (i : Nat) (o : Name) (nsec : NsecRrset), NsecOf z i o nsec →
      ∀ (q : Name) (qtype : UInt16), NodataSound z q qtype (nsecProvesNodata nsec q qtype) := by
  intro h
  have hs := h wildZone 0 [[122]] wildNsec wildNsec_of [[120], [122]] 1
  apply hs.2.1
  exact ⟨[wildLabel, [122]], by decide, rfl, ⟨0, [0x40]⟩, mem_singleton_self _,
    by decide, 0x40, rfl, by decide⟩

end CwdGate.Validator
