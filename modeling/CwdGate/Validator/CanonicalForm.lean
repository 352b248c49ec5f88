import CwdGate.Validator.CanonicalBytes
import CwdGate.Validator.Sigcrypt
import CwdGate.Services.RrsetCache

namespace CwdGate.Sigcrypt
open Std Lib List

section

variable {count : Nat}

/-- The fields in front of the last name of a type, and how many of them are names. -/
def CanonType.fields : CanonType → List RdfType × Nat
  | .name | .nxt => ([.dname], 1)
  | .twoNames => ([.dname, .dname], 2)
  | .int16Name => ([.int16, .dname], 1)
  | .sig => ([.rrtype, .alg, .int8, .int32, .time, .time, .int16, .dname], 1)
  | .px => ([.int16, .dname, .dname], 2)
  | .naptr => ([.int16, .int16, .str, .str, .str, .dname], 1)
  | .srv => ([.int16, .int16, .int16, .dname], 1)
  | .binary => ([], 0)

theorem sldnsRrDescript_canonType (h : canonType type ≠ .binary) :
    ∃ wf, (sldnsRrDescript type).wireformat = (canonType type).fields.1 ++ wf ∧
      (sldnsRrDescript type).dnameCount = (canonType type).fields.2 ∧
      (canonType type = .name → wf = []) := by
  rw [canonType] at h ⊢
  rw [sldnsRrDescript]
  generalize type.toNat = t at h ⊢
  split at h
  all_goals first
    | exact ⟨_, rfl, rfl, fun _ => rfl⟩
    | exact ⟨_, rfl, rfl, fun h => nomatch h⟩
    | exact absurd rfl h

def fieldStarts : Nat → List RdField → List Nat
  | _, [] => []
  | at_, .raw bytes :: fields => fieldStarts (at_ + bytes.length) fields
  | at_, .dname n :: fields => at_ :: fieldStarts (at_ + wireLen n) fields

theorem Layout.valid (h : Layout wf count fields) (hn : .dname n ∈ fields) : ValidName n := by
  induction h with
  | rest _ => cases mem_singleton.1 hn
  | dname hv _ ih =>
    rcases mem_cons.1 hn with h | h
    · cases h
      exact hv
    · exact ih h
  | str _ _ ih => exact ih ((mem_cons.1 hn).resolve_left nofun)
  | fixed _ _ _ _ _ ih => exact ih ((mem_cons.1 hn).resolve_left nofun)

theorem foldl_lowerAt_fieldStarts (hfuel : 127 ≤ fuel)
    (hv : ∀ n, .dname n ∈ fields → ValidName n) (before : List UInt8) :
    (fieldStarts before.length fields).foldl (fun rd at_ => lowerAt fuel at_ rd)
        (before ++ fieldsOctets fields) = before ++ fieldsOctets (fields.map RdField.lower) := by
  induction fields generalizing before with
  | nil => rfl
  | cons f fields ih =>
    have hrest : ∀ n, .dname n ∈ fields → ValidName n :=
      fun n hn => hv n (mem_cons_of_mem _ hn)
    cases f with
    | raw bytes =>
      have h := ih hrest (before ++ bytes)
      rw [length_append, append_assoc, append_assoc] at h
      exact h
    | dname n =>
      have hn := hv n mem_cons_self
      have hwalk := lowerWalk_wire hn.labels (hn.length_le.trans hfuel) (fieldsOctets fields)
      have h := ih hrest (before ++ wire (lowerName n))
      rw [length_append, length_wire, wireLen_lowerName, append_assoc, append_assoc] at h
      have hcons : fieldsOctets (.dname n :: fields) = wire n ++ fieldsOctets fields := rfl
      rw [fieldStarts, foldl_cons, lowerAt, take_left, drop_left, hcons, hwalk]
      exact h

section inversion
variable {rdf : RdfType} {wf : List RdfType} {fields : List RdField}

theorem Layout.rest_inv (h : Layout wf 0 fields) :
    ∃ bytes, fields = [.raw bytes] ∧ (wf = [] → bytes = []) := by
  cases h with
  | rest hb => exact ⟨_, rfl, hb⟩

theorem Layout.dname_inv (h : Layout (.dname :: wf) (count + 1) fields) :
    ∃ n rest, fields = .dname n :: rest ∧ ValidName n ∧ Layout wf count rest := by
  cases h with
  | dname hv h => exact ⟨_, _, rfl, hv, h⟩
  | fixed hd => exact absurd rfl hd

theorem Layout.str_inv (h : Layout (.str :: wf) (count + 1) fields) :
    ∃ text rest, fields = .raw (text.length.toUInt8 :: text) :: rest ∧ text.length ≤ 255 ∧
      Layout wf (count + 1) rest := by
  cases h with
  | str hlen h => exact ⟨_, _, rfl, hlen, h⟩
  | fixed _ hs => exact absurd rfl hs

theorem Layout.fixed_inv (h : Layout (rdf :: wf) (count + 1) fields)
    (hr : rdf ≠ .dname ∧ rdf ≠ .str) :
    ∃ bytes rest, fields = .raw bytes :: rest ∧ bytes.length = getRdfSize rdf ∧
      Layout wf (count + 1) rest := by
  cases h with
  | dname => exact absurd rfl hr.1
  | str => exact absurd rfl hr.2
  | fixed _ _ hlen _ h => exact ⟨_, _, rfl, hlen, h⟩

end inversion

theorem Layout.front (h : Layout (l ++ wf) (count + 1) fields)
    (hl : ∀ rdf ∈ l, rdf ≠ .dname ∧ rdf ≠ .str) :
    ∃ bytes rest, bytes.length = (l.map getRdfSize).sum ∧ Layout wf (count + 1) rest ∧
      fieldsOctets fields = bytes ++ fieldsOctets rest ∧
      ∀ at_, fieldStarts at_ fields = fieldStarts (at_ + bytes.length) rest := by
  induction l generalizing fields with
  | nil => exact ⟨[], fields, rfl, h, rfl, fun _ => rfl⟩
  | cons rdf l ih =>
    obtain ⟨b, _, rfl, hb, h⟩ := h.fixed_inv (hl rdf mem_cons_self)
    obtain ⟨bytes, rest, hlen, h, hoct, hat⟩ :=
      ih h (forall_mem_cons.1 hl).2
    refine ⟨b ++ bytes, rest, by simp [hb, hlen], h, by simp [fieldOctets, hoct], ?_⟩
    intro at_
    rw [fieldStarts, hat, length_append, Nat.add_assoc]

theorem Layout.name_start (h : Layout (l ++ .dname :: wf) 1 fields)
    (hl : ∀ rdf ∈ l, rdf ≠ .dname ∧ rdf ≠ .str) :
    (l.map getRdfSize).sum < (fieldsOctets fields).length ∧
      fieldStarts 0 fields = [(l.map getRdfSize).sum] := by
  obtain ⟨b, _, hb, h, hoct, hat⟩ := h.front hl
  obtain ⟨n, _, rfl, -, h⟩ := h.dname_inv
  obtain ⟨bytes, rfl, -⟩ := h.rest_inv
  have hpos := wireLen_pos n
  refine ⟨?_, by simp [hat, fieldStarts, hb]⟩
  rw [hoct, length_append, hb]
  simp [fieldOctets]
  omega

theorem Layout.names_start (h : Layout (l ++ .dname :: .dname :: wf) 2 fields)
    (hl : ∀ rdf ∈ l, rdf ≠ .dname ∧ rdf ≠ .str) {k : Nat} (hk : (l.map getRdfSize).sum = k) :
    k < (fieldsOctets fields).length ∧ fieldStarts 0 fields =
      [k, k + dnameValid ((fieldsOctets fields).drop k) ((fieldsOctets fields).length - k)] := by
  obtain ⟨b, _, hb, h, hoct, hat⟩ := h.front hl
  obtain ⟨n, _, rfl, hn, h⟩ := h.dname_inv
  obtain ⟨m, _, rfl, -, h⟩ := h.dname_inv
  obtain ⟨bytes, rfl, -⟩ := h.rest_inv
  have hpos := wireLen_pos n
  rw [hk] at hb
  rw [hoct, drop_left' hb, fieldsOctets_cons, fieldOctets, hat]
  rw [dnameValid_wire hn _ (by simp [hb])]
  refine ⟨?_, by simp [fieldStarts, hb]⟩
  simp [hb]
  omega

theorem Layout.naptrAt_eq (h : Layout (replicate n .str ++ .dname :: wf) 1 fields) :
    ∃ k, naptrAt n (fieldsOctets fields) = some k ∧ ∀ at_, fieldStarts at_ fields = [at_ + k] := by
  induction n generalizing fields with
  | zero =>
    obtain ⟨name, _, rfl, -, h⟩ := h.dname_inv
    obtain ⟨bytes, rfl, -⟩ := h.rest_inv
    have hpos := wireLen_pos name
    refine ⟨0, ?_, fun _ => rfl⟩
    rw [naptrAt, if_neg (by simp [fieldOctets]; omega)]
  | succ n ih =>
    obtain ⟨t, rest, rfl, hlen, h⟩ := h.str_inv
    obtain ⟨k, hk, hat⟩ := ih h
    have hoct : fieldsOctets (.raw (t.length.toUInt8 :: t) :: rest) =
        t.length.toUInt8 :: t ++ fieldsOctets rest := rfl
    have htext : (peek (t.length.toUInt8 :: t ++ fieldsOctets rest)).toNat = t.length :=
      toNat_toUInt8_of_lt (by omega)
    refine ⟨t.length + 1 + k, ?_, ?_⟩
    · rw [hoct, naptrAt, htext, if_neg (by simp), drop_left' (length_cons ..), hk]
      rfl
    · intro at_
      rw [fieldStarts, hat, length_cons, Nat.add_assoc]

theorem Layout.nameStarts_eq
    (h : Layout (sldnsRrDescript type).wireformat (sldnsRrDescript type).dnameCount fields)
    (hb : canonType type ≠ .binary) :
    nameStarts type (fieldsOctets fields) = fieldStarts 0 fields := by
  obtain ⟨wf, hwf, hcount, -⟩ := sldnsRrDescript_canonType hb
  rw [hwf, hcount] at h
  rw [nameStarts]
  generalize canonType type = ct at h hb
  cases ct with
  | binary => exact absurd rfl hb
  | name => exact (h.name_start (forall_mem_nil _)).2.symm
  | nxt => exact (h.name_start (forall_mem_nil _)).2.symm
  | twoNames =>
    have hat := (h.names_start (k := 0) (forall_mem_nil _) rfl).2
    rw [Nat.zero_add] at hat
    exact hat.symm
  | int16Name =>
    obtain ⟨hlen, hat⟩ := h.name_start (l := [.int16]) (by decide)
    exact (if_neg (Nat.not_lt.2 hlen)).trans hat.symm
  | sig =>
    obtain ⟨hlen, hat⟩ := h.name_start
      (l := [.rrtype, .alg, .int8, .int32, .time, .time, .int16]) (by decide)
    exact (if_neg (Nat.not_lt.2 hlen)).trans hat.symm
  | px =>
    obtain ⟨hlen, hat⟩ := h.names_start (l := [.int16]) (by decide) rfl
    exact (if_neg (Nat.not_lt.2 hlen)).trans hat.symm
  | naptr =>
    obtain ⟨b, rest, hb, h, hoct, hat⟩ := h.front (l := [.int16, .int16]) (by decide)
    obtain ⟨k, hk, hname⟩ := h.naptrAt_eq (n := 3)
    have hb : b.length = 4 := hb
    dsimp only
    rw [hoct, if_neg (by simp [hb]), drop_left' hb, hk, hat, hname, hb]
    rfl
  | srv =>
    obtain ⟨hlen, hat⟩ := h.name_start (l := [.int16, .int16, .int16]) (by decide)
    exact (if_neg (Nat.not_lt.2 hlen)).trans hat.symm

/-- The types whose rdata names the code puts in lower case. -/
def lowerTypes : List Nat :=
  [2, 3, 4, 5, 6, 7, 8, 9, 12, 14, 15, 17, 18, 21, 24, 26, 30, 33, 35, 36, 39, 46]

/-- The types of RFC 4034 section 6.2: HINFO, A6 and NSEC are on that list too. -/
def rfc4034Types : List Nat := lowerTypes ++ [13, 38, 47]

/-- The canonical form of an rdata, for a list of types whose names go to lower case. -/
def canonRdata (types : List Nat) (type : UInt16) (rd : List UInt8) : List UInt8 :=
  if type.toNat ∈ types then
    match rdataFields (sldnsRrDescript type).wireformat (sldnsRrDescript type).dnameCount rd with
    | some fields => fieldsOctets (fields.map RdField.lower)
    | none => rd
  else rd

/-- A record as it is stored, with an rdata that is well formed for its type. -/
structure WellFormed (type : UInt16) (data : List UInt8) : Prop where
  len_ge : 2 ≤ data.length
  rdlength : data.take 2 = u16Bytes (data.length - 2)
  layout : (sldnsRrDescript type).dnameCount ≠ 0 → ∃ fields,
    Layout (sldnsRrDescript type).wireformat (sldnsRrDescript type).dnameCount fields ∧
      data.drop 2 = fieldsOctets fields

theorem canonType_ne_binary_iff : canonType type ≠ .binary ↔ type.toNat ∈ lowerTypes := by
  rw [canonType]
  generalize type.toNat = t
  split
  all_goals first
    | exact ⟨fun _ => by decide, fun _ => nofun⟩
    | exact ⟨fun h => absurd rfl h, fun h => by simp_all [lowerTypes]⟩

theorem readName_wire (hv : ValidName n) : readName (wire n ++ rest) = some (n, rest) := by
  have hlen := length_wire n
  rw [readName, nameAt_wire hv, take_left' hlen, drop_left' hlen, if_pos ⟨hv, rfl⟩]

theorem rdataFields_raw (hd : rdf ≠ .dname) (hne : bytes ≠ [])
    (hlen : rdfLen rdf (peek (bytes ++ rest)) = bytes.length)
    (hrest : rdataFields wf (count + 1) rest = some fields) :
    rdataFields (rdf :: wf) (count + 1) (bytes ++ rest) = some (.raw bytes :: fields) := by
  rw [rdataFields, if_neg (by simp [hne]), if_neg hd, hlen, if_neg (by simp), drop_left, take_left,
    hrest]
  rfl

theorem Layout.rdataFields_eq (h : Layout wf count fields) :
    rdataFields wf count (fieldsOctets fields) = some fields := by
  induction h with
  | @rest wf bytes _ =>
    have hraw : fieldsOctets [.raw bytes] = bytes := append_nil _
    rw [hraw]
    cases wf with
    | nil => rfl
    | cons rdf wf => rw [rdataFields, if_pos (.inr rfl)]
  | @dname wf count n fields hv _ ih =>
    obtain ⟨b, bytes, hb⟩ := wire_ne_nil n
    rw [rdataFields, if_neg (by simp [fieldOctets, hb]), if_pos rfl, fieldsOctets_cons, fieldOctets,
      readName_wire hv]
    dsimp only
    rw [Nat.add_sub_cancel, ih]
    rfl
  | @str wf count text fields hlen _ ih =>
    have htext : text.length.toUInt8.toNat = text.length := toNat_toUInt8_of_lt (by omega)
    exact rdataFields_raw (by decide) (cons_ne_nil _ _) (congrArg (· + 1) htext) ih
  | @fixed rdf wf count bytes fields hd hs hlen hpos _ ih =>
    exact rdataFields_raw hd (length_pos_iff.1 hpos) ((if_neg hs).trans hlen.symm) ih

theorem compare_toUInt8 {m n : Nat} (hm : m < 256) (hn : n < 256) :
    compare m.toUInt8 n.toUInt8 = if m < n then .lt else if m = n then .eq else .gt := by
  have hlt : m.toUInt8 < n.toUInt8 ↔ m < n := by
    rw [UInt8.lt_iff_toNat_lt, toNat_toUInt8_of_lt hm, toNat_toUInt8_of_lt hn]
  have heq : m.toUInt8 = n.toUInt8 ↔ m = n := by
    rw [← UInt8.toNat_inj, toNat_toUInt8_of_lt hm, toNat_toUInt8_of_lt hn]
  rw [compare_octet]
  simp only [hlt, heq]

theorem queryDnameCompare_wire (hn : ∀ l ∈ n, 0 < l.length ∧ l.length ≤ 63)
    (hm : ∀ l ∈ m, 0 < l.length ∧ l.length ≤ 63) :
    queryDnameCompare n m = (wire (lowerName n)).compareLex compare (wire (lowerName m)) := by
  have hwire : ∀ (l : Label) (n : Name), wire (lowerName (l :: n)) =
      l.length.toUInt8 :: (lowerLabel l ++ wire (lowerName n)) := fun l n => by
    change (lowerLabel l).length.toUInt8 :: (lowerLabel l ++ wire (lowerName n)) = _
    rw [length_lowerLabel]
  have hnil : wire (lowerName []) = [(0 : Nat).toUInt8] := rfl
  induction n generalizing m with
  | nil =>
    cases m with
    | nil => rfl
    | cons l m =>
      obtain ⟨hpos, h63⟩ := hm l mem_cons_self
      have hcmp := @compare_toUInt8 0 l.length (by omega) (by omega)
      rw [if_pos hpos] at hcmp
      rw [hwire, hnil, List.compareLex_cons_cons, hcmp]
      rfl
  | cons l n ih =>
    obtain ⟨hpos, h63⟩ := hn l mem_cons_self
    cases m with
    | nil =>
      have hcmp := @compare_toUInt8 l.length 0 (by omega) (by omega)
      rw [if_neg (by omega), if_neg (by omega)] at hcmp
      rw [hwire, hnil, List.compareLex_cons_cons, hcmp]
      rfl
    | cons l' m =>
      obtain ⟨hpos', h63'⟩ := hm l' mem_cons_self
      have hcmp := @compare_toUInt8 l.length l'.length (by omega) (by omega)
      have ih := ih (forall_mem_cons.1 hn).2 (m := m) (forall_mem_cons.1 hm).2
      rw [hwire, hwire, List.compareLex_cons_cons, hcmp, queryDnameCompare]
      by_cases hlen : l.length = l'.length
      · have hlow : (lowerLabel l).length = (lowerLabel l').length := by
          rw [length_lowerLabel, length_lowerLabel, hlen]
        have hmem := memlowercmp_eq l l' le_rfl (Nat.le_of_eq hlen)
        rw [take_length, hlen, take_length] at hmem
        rw [if_neg (not_not_intro hlen), if_neg (by omega), if_pos hlen, hlen,
          compareLex_append hlow, hmem, ih]
        cases (lowerLabel l).compareLex compare (lowerLabel l') <;> rfl
      · rw [if_pos hlen, if_neg hlen]
        split <;> rfl

theorem WellFormed.fields (h : WellFormed type data) (hb : canonType type ≠ .binary) : ∃ fields,
      Layout (sldnsRrDescript type).wireformat (sldnsRrDescript type).dnameCount fields ∧
      data.drop 2 = fieldsOctets fields ∧
      canonRdata lowerTypes type (data.drop 2) = fieldsOctets (fields.map RdField.lower) := by
  obtain ⟨wf, -, hcount, -⟩ := sldnsRrDescript_canonType hb
  have hpos : (sldnsRrDescript type).dnameCount ≠ 0 := by
    rw [hcount]
    cases ht : canonType type with
    | binary => exact absurd ht hb
    | _ => decide
  obtain ⟨fields, hlay, hrd⟩ := h.layout hpos
  refine ⟨fields, hlay, hrd, ?_⟩
  rw [hrd, canonRdata, if_pos (canonType_ne_binary_iff.1 hb), hlay.rdataFields_eq]

theorem canonRdata_binary (hb : canonType type = .binary) : canonRdata lowerTypes type rd = rd :=
  if_neg fun hm => canonType_ne_binary_iff.2 hm hb

theorem WellFormed.lowerRdata_eq {type : UInt16} {data : List UInt8} (h : WellFormed type data)
    {fuel : Nat} (hfuel : 127 ≤ fuel) :
    lowerRdata fuel type (data.drop 2) = canonRdata lowerTypes type (data.drop 2) := by
  by_cases hb : canonType type = .binary
  · have hstarts : nameStarts type (data.drop 2) = [] := by rw [nameStarts, hb]
    rw [lowerRdata, hstarts, canonRdata_binary hb]
    rfl
  · obtain ⟨fields, hlay, hrd, hcanon⟩ := h.fields hb
    have hfold := foldl_lowerAt_fieldStarts hfuel (fun n hn => hlay.valid hn) []
    rw [hcanon, hrd, lowerRdata, hlay.nameStarts_eq hb]
    exact hfold

theorem Layout.name_only
    (h : Layout (sldnsRrDescript type).wireformat (sldnsRrDescript type).dnameCount fields)
    (ht : canonType type = .name) : ∃ n, ValidName n ∧ fieldsOctets fields = wire n ∧
      fieldsOctets (fields.map RdField.lower) = wire (lowerName n) := by
  have hb : canonType type ≠ .binary := by rw [ht]; nofun
  obtain ⟨wf, hwf, hcount, hnil⟩ := sldnsRrDescript_canonType hb
  rw [hwf, hcount, ht, hnil ht] at h
  obtain ⟨n, _, rfl, hn, h⟩ := h.dname_inv
  obtain ⟨bytes, rfl, hbytes⟩ := h.rest_inv
  rw [hbytes rfl]
  exact ⟨n, hn, append_nil _, append_nil _⟩

/-- `canonical_compare` orders well-formed records as their canonical rdata. -/
theorem canonicalCompareRdata_eq (hi : WellFormed type ri) (hj : WellFormed type rj) :
    canonicalCompareRdata type ri rj = (canonRdata lowerTypes type (ri.drop 2)).compareLex compare
      (canonRdata lowerTypes type (rj.drop 2)) := by
  by_cases hb : canonType type = .binary
  · rw [canonicalCompareRdata, hb, canonRdata_binary hb, canonRdata_binary hb]
  obtain ⟨fields, hlay, hrd, hcanon⟩ := hi.fields hb
  obtain ⟨fields', hlay', hrd', hcanon'⟩ := hj.fields hb
  have hby : canonicalCompareByfield (sldnsRrDescript type) (fieldsOctets fields)
      (fieldsOctets fields') = _ := compareByfieldLoop_eq ⟨rfl, rfl, rfl, fun _ => rfl⟩
  rw [hlay.bytes_eq, hlay'.bytes_eq] at hby
  rw [hcanon, hcanon', canonicalCompareRdata, hrd, hrd']
  cases ht : canonType type with
  | binary => exact absurd ht hb
  | name =>
    obtain ⟨n, hn, hwire, hlow⟩ := hlay.name_only ht
    obtain ⟨m, hm, hwire', hlow'⟩ := hlay'.name_only ht
    have hlen : ri.length - 2 = wireLen n := by
      rw [← length_drop, hrd, hwire, length_wire]
    have hlen' : rj.length - 2 = wireLen m := by
      rw [← length_drop, hrd', hwire', length_wire]
    have hvalid := dnameValid_wire hn [] le_rfl
    have hvalid' := dnameValid_wire hm [] le_rfl
    have hname := nameAt_wire hn []
    have hname' := nameAt_wire hm []
    have hpos := wireLen_pos n
    have hpos' := wireLen_pos m
    rw [append_nil] at hvalid hvalid' hname hname'
    rw [hlow, hlow', hwire, hwire', hlen, hlen', hvalid, hvalid', if_neg (by omega), hname,
      hname', queryDnameCompare_wire hn.labels hm.labels]
  | _ => exact hby

def RrsetOk (k : Rrset) : Prop := ∀ r ∈ k.rrs, WellFormed k.type r.data

theorem Rrset.rrData_eq {k : Rrset} (h : i < k.rrs.length) : k.rrData i = k.rrs[i].data := by
  rw [Rrset.rrData, getElem?_eq_getElem h]
  rfl

theorem Rrset.rrData_mem {k : Rrset} (h : i < k.rrs.length) : ∃ r ∈ k.rrs, k.rrData i = r.data :=
  ⟨k.rrs[i], getElem_mem h, k.rrData_eq h⟩

theorem RrsetOk.rrData {k : Rrset} (h : RrsetOk k) (hi : i < k.rrs.length) :
    WellFormed k.type (k.rrData i) := by
  obtain ⟨r, hr, heq⟩ := Rrset.rrData_mem hi
  rw [heq]
  exact h r hr

theorem mem_canonicalSort (h : i ∈ canonicalSort k) : i < k.rrs.length :=
  mem_range.1 ((mem_of_mem_insertAll h).resolve_right not_mem_nil)

def Rrset.canon (k : Rrset) (i : Nat) : List UInt8 := canonRdata lowerTypes k.type ((k.rrData i).drop 2)

theorem canonicalCompare_eq (h : RrsetOk k) (hi : i < k.rrs.length) (hj : j < k.rrs.length) :
    canonicalCompare k i j = (k.canon i).compareLex compare (k.canon j) := by
  rw [canonicalCompare]
  split
  next he =>
    rw [he]
    exact (ReflCmp.compare_self).symm
  next => exact canonicalCompareRdata_eq (h.rrData hi) (h.rrData hj)

theorem canonicalSort_eq (h : RrsetOk k) :
    canonicalSort k = insertAll (fun i j => (k.canon i).compareLex compare (k.canon j))
      (range k.rrs.length) [] :=
  insertAll_congr (P := fun i => i < k.rrs.length)
    (fun _ _ hi hj => canonicalCompare_eq h hi hj) (fun _ hi => mem_range.1 hi)
    fun _ hi => absurd hi not_mem_nil

theorem pairwise_canonicalSort (h : RrsetOk k) :
    (canonicalSort k).Pairwise fun i j => (k.canon i).compareLex compare (k.canon j) = .lt := by
  rw [canonicalSort_eq h]
  exact pairwise_insertAll .nil

theorem exists_canonicalSort (h : RrsetOk k) (hi : i < k.rrs.length) :
    ∃ j ∈ canonicalSort k, k.canon j = k.canon i := by
  rw [canonicalSort_eq h]
  obtain ⟨j, hj, he⟩ := @exists_mem_insertAll _
    (fun i j => (k.canon i).compareLex compare (k.canon j)) (fun _ => ReflCmp.compare_self)
    (range k.rrs.length) [] i (mem_range.2 hi)
  exact ⟨j, hj, (LawfulEqCmp.eq_of_compare he).symm⟩

theorem mem_map_canon {k : Rrset} (hk : RrsetOk k) :
    rd ∈ (canonicalSort k).map k.canon ↔
      ∃ r ∈ k.rrs, canonRdata lowerTypes k.type (r.data.drop 2) = rd := by
  rw [mem_map]
  constructor
  · rintro ⟨i, hi, rfl⟩
    obtain ⟨r, hr, heq⟩ := Rrset.rrData_mem (mem_canonicalSort hi)
    exact ⟨r, hr, by rw [Rrset.canon, heq]⟩
  · rintro ⟨r, hr, rfl⟩
    obtain ⟨i, hi, rfl⟩ := getElem_of_mem hr
    obtain ⟨j, hj, hcanon⟩ := exists_canonicalSort hk hi
    exact ⟨j, hj, by rw [hcanon, Rrset.canon, Rrset.rrData_eq hi]⟩

/-- The owner name that is signed: the labels in front of the last `labels` are one asterisk. -/
def signedOwner (dname : Name) (labels : Nat) : Name :=
  if labels < dnameSignameLabelCount dname then [42] :: dname.drop (dname.length - labels)
  else dname

/-- The string of RFC 4034 section 3.1.8.1, when names in rdata of the types go to lower case. -/
def SignedString (types : List Nat) (k : Rrset) (sig out : List UInt8) : Prop :=
  ∃ rds : List (List UInt8),
    rds.Pairwise (fun a b => a.compareLex compare b = .lt) ∧
    (∀ rd, rd ∈ rds ↔ ∃ r ∈ k.rrs, canonRdata types k.type (r.data.drop 2) = rd) ∧
    out = (sig.drop 2).take 18 ++ wire (lowerName (nameAt (sig.drop 20))) ++
      rds.flatMap fun rd => wire (lowerName (signedOwner k.dname (octetAt sig 5))) ++
        u16Bytes k.type.toNat ++ u16Bytes k.rrsetClass.toNat ++ (sig.drop 6).take 4 ++
        u16Bytes rd.length ++ rd

structure SigOk (dname : Name) (sig : List UInt8) (signerLen : Nat) : Prop where
  signer : ∃ n rest, ValidName n ∧ sig.drop 20 = wire n ++ rest ∧ signerLen = wireLen n
  len_ge : 2 + 20 ≤ sig.length
  labels : octetAt sig 5 ≤ dnameSignameLabelCount dname

theorem of_ite_error {ε α : Type} {p : Prop} [Decidable p] {e : ε} {x : Except ε α} {a : α}
    (h : (if p then .error e else x) = .ok a) : ¬ p ∧ x = .ok a := by
  split at h
  · cases h
  next hp => exact ⟨hp, h⟩

theorem sigFields_ok {dname : Name} (h : sigFields dname type dnskey idx sig = .ok signerLen) :
    SigOk dname sig signerLen := by
  obtain ⟨hlen, h⟩ := of_ite_error h
  iterate 2 obtain ⟨-, h⟩ := of_ite_error h
  obtain ⟨hsigner, h⟩ := of_ite_error h
  iterate 6 obtain ⟨-, h⟩ := of_ite_error h
  obtain ⟨hlabels, h⟩ := of_ite_error h
  cases h
  obtain ⟨n, rest, hn, hdrop, hwire⟩ := dnameValid_name (by rw [length_drop]; omega) hsigner
  exact ⟨⟨n, rest, hn, hdrop, hwire⟩, le_of_not_gt hlen, le_of_not_gt hlabels⟩

theorem canOwner_eq_signedOwner (hle : labels ≤ dnameSignameLabelCount dname)
    (hwild : ¬ (dnameIsWild dname = true ∧ labels < dnameSignameLabelCount dname)) :
    canOwner dname labels = signedOwner dname labels := by
  rw [canOwner, signedOwner]
  by_cases heq : labels = dnameSignameLabelCount dname
  · rw [if_pos heq, if_neg (by omega)]
  · have hlt := Nat.lt_of_le_of_ne hle heq
    have hcount : dnameSignameLabelCount dname = dname.length :=
      if_neg fun hw => hwild ⟨hw, hlt⟩
    rw [if_neg heq, if_pos hlt, hcount, dnameRemoveLabels]

theorem rrsetCanonical_ok (h : (rrsetCanonical buf k sig siglen sortree sect hasQstate).ok = true) :
    (canonicalForm buf k sig siglen (sortree.getD (canonicalSort k))).1 = true ∧
    (rrsetCanonical buf k sig siglen sortree sect hasQstate).buf =
      (canonicalForm buf k sig siglen (sortree.getD (canonicalSort k))).2.buf.flip := by
  rw [rrsetCanonical] at h ⊢
  split at h
  · cases h
  next hcount =>
    rw [if_neg hcount]
    dsimp only at h ⊢
    split at h
    · cases h
    next hform =>
      rw [if_neg hform]
      refine ⟨not_not.1 hform, ?_⟩
      split <;> rfl

theorem getD_drop_octet (sig : List UInt8) (i : Nat) :
    ((sig.drop 2).getD i 0).toNat = octetAt sig (2 + i) := by
  rw [octetAt, getD_eq_getElem?_getD, getElem?_drop, getD_eq_getElem?_getD]

theorem SigOk.parts (h : SigOk dname sig signerLen) :
    ∃ n, ValidName n ∧ nameAt (sig.drop 20) = n ∧ signerLen = wireLen n ∧
      ((sig.drop 2).take 18).length = 18 ∧
      (sig.drop 2).take (18 + signerLen) = (sig.drop 2).take 18 ++ wire n := by
  obtain ⟨n, rest, hn, hdrop, rfl⟩ := h.signer
  have hlen := h.len_ge
  refine ⟨n, hn, by rw [hdrop, nameAt_wire hn], rfl, ?_, ?_⟩
  · rw [length_take, length_drop]
    omega
  · rw [take_add, drop_drop, hdrop, take_left' (length_wire n)]

theorem SigOk.signed_part (h : SigOk dname sig signerLen) (hfuel : 127 ≤ fuel) :
    lowerAt fuel 18 ((sig.drop 2).take (18 + signerLen)) =
      (sig.drop 2).take 18 ++ wire (lowerName (nameAt (sig.drop 20))) := by
  obtain ⟨n, hn, hname, -, h18, hparts⟩ := h.parts
  have hwalk := lowerWalk_wire hn.labels (hn.length_le.trans hfuel) []
  rw [append_nil, append_nil] at hwalk
  rw [hparts, lowerAt, take_left' h18, drop_left' h18, hwalk, hname]

theorem WellFormed.recordBytes_eq (h : WellFormed k.type data) :
    recordBytes cap k ttl data = u16Bytes k.type.toNat ++ u16Bytes k.rrsetClass.toNat ++ ttl ++
      u16Bytes (canonRdata lowerTypes k.type (data.drop 2)).length ++
      canonRdata lowerTypes k.type (data.drop 2) := by
  have hlow := @WellFormed.lowerRdata_eq _ _ h (cap + 128) (by omega)
  have hlen : (canonRdata lowerTypes k.type (data.drop 2)).length = data.length - 2 := by
    rw [← hlow, length_lowerRdata, length_drop]
  rw [recordBytes, hlow, h.rdlength, hlen]

theorem RrsetOk.len_ge (h : RrsetOk k) : ∀ i ∈ canonicalSort k, 2 ≤ (k.rrData i).length :=
  fun _ hi => (h.rrData (mem_canonicalSort hi)).len_ge

theorem RrsetOk.signedString {k : Rrset} (hk : RrsetOk k) {sig : List UInt8}
    (hv : ValidName k.dname) (hsig : SigOk k.dname sig signerLen)
    (hwild : ¬ (dnameIsWild k.dname = true ∧ octetAt sig 5 < dnameSignameLabelCount k.dname))
    (hform : (canonicalForm buf k (sig.drop 2) (18 + signerLen) (canonicalSort k)).1 = true) :
    SignedString lowerTypes k sig
      (bytesAt (canonicalForm buf k (sig.drop 2) (18 + signerLen) (canonicalSort k)).2.buf.data 0
        (canonicalForm buf k (sig.drop 2) (18 + signerLen) (canonicalSort k)).2.buf.position) := by
  have hlabels := getD_drop_octet sig 3
  obtain ⟨hfits, known, hat, -⟩ := @canonicalForm_bytes buf k (sig.drop 2) (18 + signerLen) _ hv
    (hlabels ▸ hsig.labels) hk.len_ge
  rw [hform] at hfits
  have hbytes := canonBytes_of_fits hfits.symm
  have hmap : ∀ walk : List Nat, (∀ i ∈ walk, i < k.rrs.length) →
      (walk.flatMap fun i => wire (lowerName (canOwner k.dname ((sig.drop 2).getD 3 0).toNat)) ++
        recordBytes buf.capacity k (((sig.drop 2).drop 4).take 4) (k.rrData i)) =
      (walk.map k.canon).flatMap fun rd =>
        wire (lowerName (signedOwner k.dname (octetAt sig 5))) ++ u16Bytes k.type.toNat ++
          u16Bytes k.rrsetClass.toNat ++ (sig.drop 6).take 4 ++ u16Bytes rd.length ++ rd := by
    intro walk hwalk
    rw [flatMap_map]
    apply flatMap_congr
    intro i hi
    rw [(hk.rrData (hwalk i hi)).recordBytes_eq, hlabels,
      canOwner_eq_signedOwner hsig.labels hwild, drop_drop]
    simp only [append_assoc]
    rfl
  refine ⟨(canonicalSort k).map k.canon, pairwise_map.2 (pairwise_canonicalSort hk),
    fun rd => mem_map_canon hk, ?_⟩
  · rw [hat.position, hat.bytes, formBytes, hbytes, hsig.signed_part (by omega),
      hmap _ fun i hi => mem_canonicalSort hi]

/-- A buffer of `rrset_canonical` holds the signed string, with names of `lowerTypes` in lower
case. -/
theorem rrsetCanonical_signedString {buf : Sbuffer} {k dnskey : Rrset} {idx signerLen : Nat}
    {sig : List UInt8} {sortree : Option (List Nat)} {sect : PktSection} {hasQstate : Bool}
    (hv : ValidName k.dname) (hk : RrsetOk k)
    (hsig : sigFields k.dname k.type dnskey idx sig = .ok signerLen)
    (hwild : ¬ (dnameIsWild k.dname = true ∧ octetAt sig 5 < dnameSignameLabelCount k.dname))
    (hsort : sortree = none ∨ sortree = some (canonicalSort k))
    (hok : (rrsetCanonical buf k (sig.drop 2) (18 + signerLen) sortree sect hasQstate).ok = true) :
    SignedString lowerTypes k sig
      (bytesAt
        (rrsetCanonical buf k (sig.drop 2) (18 + signerLen) sortree sect hasQstate).buf.data 0
        (rrsetCanonical buf k (sig.drop 2) (18 + signerLen) sortree sect hasQstate).buf.limit) := by
  have hsort : sortree.getD (canonicalSort k) = canonicalSort k := by
    rcases hsort with rfl | rfl <;> rfl
  obtain ⟨hform, hbuf⟩ := rrsetCanonical_ok hok
  rw [hsort] at hform hbuf
  rw [hbuf]
  exact hk.signedString hv (sigFields_ok hsig) hwild hform

def sampleKeys : Rrset := ⟨[], 48, 1, [⟨3600, [0, 5, 1, 0, 3, 8, 0]⟩]⟩

def sampleSig (type : UInt8) : List UInt8 :=
  [0, 20, 0, type, 8, 1, 0, 0, 14, 16, 0, 0, 0, 9, 0, 0, 0, 1, 4, 8, 0, 7]

def sampleRrset (type : UInt16) (data : List UInt8) : Rrset :=
  ⟨[[97]], type, 1, [⟨3600, data⟩]⟩

def sampleBuffer : Sbuffer := ⟨fun _ => 0, 0, 100, 100, 0⟩

theorem sampleName_valid : ValidName [[97]] := ⟨by decide, by decide, by decide⟩

theorem rrsetCanonical_signedString_ns :
    SignedString lowerTypes (sampleRrset 2 [0, 3, 1, 66, 0]) (sampleSig 2)
      (bytesAt (rrsetCanonical sampleBuffer (sampleRrset 2 [0, 3, 1, 66, 0])
        ((sampleSig 2).drop 2) (18 + 1) none .answer false).buf.data 0
        (rrsetCanonical sampleBuffer (sampleRrset 2 [0, 3, 1, 66, 0])
          ((sampleSig 2).drop 2) (18 + 1) none .answer false).buf.limit) := by
  have hk : RrsetOk (sampleRrset 2 [0, 3, 1, 66, 0]) := by
    intro r hr
    rw [mem_singleton.1 hr]
    exact ⟨by decide, by decide, fun _ => ⟨[.dname [[66]], .raw []],
      .dname ⟨by decide, by decide, by decide⟩ (.rest fun _ => rfl), by decide⟩⟩
  have hsig : sigFields [[97]] 2 sampleKeys 0 (sampleSig 2) = .ok 1 := by decide
  exact rrsetCanonical_signedString sampleName_valid hk hsig (by decide) (.inl rfl) (by decide)

theorem rrsetCanonical_nsec_keeps_case :
    ValidName [[97]] ∧ RrsetOk (sampleRrset 47 [0, 6, 1, 66, 0, 0, 1, 64]) ∧
    sigFields [[97]] 47 sampleKeys 0 (sampleSig 47) = .ok 1 ∧
    (rrsetCanonical sampleBuffer (sampleRrset 47 [0, 6, 1, 66, 0, 0, 1, 64])
      ((sampleSig 47).drop 2) (18 + 1) none .answer false).ok = true ∧
    ¬ SignedString rfc4034Types (sampleRrset 47 [0, 6, 1, 66, 0, 0, 1, 64]) (sampleSig 47)
      (bytesAt (rrsetCanonical sampleBuffer (sampleRrset 47 [0, 6, 1, 66, 0, 0, 1, 64])
        ((sampleSig 47).drop 2) (18 + 1) none .answer false).buf.data 0
        (rrsetCanonical sampleBuffer (sampleRrset 47 [0, 6, 1, 66, 0, 0, 1, 64])
          ((sampleSig 47).drop 2) (18 + 1) none .answer false).buf.limit) := by
  refine ⟨sampleName_valid, ?_, by decide, by decide, ?_⟩
  · intro r hr
    rw [mem_singleton.1 hr]
    exact ⟨by decide, by decide, fun _ => ⟨[.dname [[66]], .raw [0, 1, 64]],
      .dname ⟨by decide, by decide, by decide⟩ (.rest nofun), by decide⟩⟩
  · rintro ⟨rds, hp, hm, hout⟩
    have hrds : rds = [[1, 98, 0, 0, 1, 64]] := by
      refine eq_of_pairwise_lt hp (pairwise_singleton _ _) fun rd => ?_
      rw [hm, mem_singleton]
      constructor
      · rintro ⟨r, hr, rfl⟩
        rw [mem_singleton.1 hr]
        decide
      · rintro rfl
        exact ⟨_, mem_singleton_self _, by decide⟩
    rw [hrds] at hout
    exact absurd hout (by decide)

end

open RrsetCache (RrsetTrust)
open Validator (SecStatus)

/-- An RRset with the other fields that `rrset_canonical_equal` reads. -/
structure StoredRrset extends Rrset where
  flags : UInt32
  ttl : Int
  rrsigCount : Nat
  trust : RrsetTrust
  security : SecStatus

def basicEqual (k1 k2 : StoredRrset) : Bool :=
  wireLen k1.dname = wireLen k2.dname ∧ k1.flags = k2.flags ∧ k1.type = k2.type ∧
    k1.rrsetClass = k2.rrsetClass ∧ queryDnameCompare k1.dname k2.dname = .eq ∧
    k1.ttl = k2.ttl ∧ k1.rrs.length = k2.rrs.length ∧ k1.rrsigCount = k2.rrsigCount ∧
    k1.trust = k2.trust ∧ k1.security = k2.security

/-- The key `fk` that two records are compared under: all but its records is zero. -/
def pairKey (data1 data2 : List UInt8) : Rrset := ⟨[], 0, 0, [⟨0, data1⟩, ⟨0, data2⟩]⟩

def canonicalEqualLoop (k1 k2 : Rrset) : List Nat → List Nat → Bool
  | p1 :: sortree1, p2 :: sortree2 =>
    if canonicalCompare (pairKey (k1.rrData p1) (k2.rrData p2)) 0 1 ≠ .eq then false
    else canonicalEqualLoop k1 k2 sortree1 sortree2
  | _, _ => true

/-- `rrset_canonical_equal`. Allocations succeed. -/
def rrsetCanonicalEqual (k1 k2 : StoredRrset) : Bool :=
  if ¬ basicEqual k1 k2 then false
  else if k1.rrs.length > rrCountMax ∨ k2.rrs.length > rrCountMax then true
  else
    let sortree1 := canonicalSort k1.toRrset
    let sortree2 := canonicalSort k2.toRrset
    if sortree1.length ≠ sortree2.length then false
    else canonicalEqualLoop k1.toRrset k2.toRrset sortree1 sortree2

/-- The canonical forms of the records are the same, whatever their order and number. -/
def SameForms (k1 k2 : Rrset) : Prop :=
  ∀ rd, (∃ r ∈ k1.rrs, canonRdata lowerTypes k1.type (r.data.drop 2) = rd) ↔
    ∃ r ∈ k2.rrs, canonRdata lowerTypes k2.type (r.data.drop 2) = rd

def Rrset.First (k : Rrset) (i : Nat) : Prop :=
  i < k.rrs.length ∧ ∀ j < i, k.canon j ≠ k.canon i

/-- Records that are the first with one canonical form have the same octets. -/
def SpeltAlike (k1 k2 : Rrset) : Prop :=
  ∀ i j, k1.First i → k2.First j → k1.canon i = k2.canon j →
    (k1.rrData i).drop 2 = (k2.rrData j).drop 2

variable {k1 k2 : Rrset}

theorem mem_canonicalSort_iff (h : RrsetOk k) : i ∈ canonicalSort k ↔ k.First i := by
  rw [canonicalSort_eq h]
  exact mem_insertAll_range

theorem sameForms_iff (h1 : RrsetOk k1) (h2 : RrsetOk k2) :
    SameForms k1 k2 ↔ (canonicalSort k1).map k1.canon = (canonicalSort k2).map k2.canon := by
  constructor
  · intro h
    refine eq_of_pairwise_lt (pairwise_map.2 (pairwise_canonicalSort h1))
      (pairwise_map.2 (pairwise_canonicalSort h2)) fun rd => ?_
    rw [mem_map_canon h1, mem_map_canon h2]
    exact h rd
  · intro h rd
    rw [← mem_map_canon h1, ← mem_map_canon h2, h]

theorem canonicalCompare_pairKey : canonicalCompare (pairKey a b) 0 1 = .eq ↔ a.drop 2 = b.drop 2 :=
  @LawfulEqCmp.compare_eq_iff_eq _ (List.compareLex compare) _ _ _

theorem canonicalEqualLoop_iff (hlen : t1.length = t2.length) :
    canonicalEqualLoop k1 k2 t1 t2 = true ↔
      (t1.map fun i => (k1.rrData i).drop 2) = t2.map fun i => (k2.rrData i).drop 2 := by
  induction t1 generalizing t2 with
  | nil =>
    cases t2 with
    | nil => exact iff_of_true rfl rfl
    | cons p2 t2 => cases hlen
  | cons p1 t1 ih =>
    cases t2 with
    | nil => cases hlen
    | cons p2 t2 =>
      rw [canonicalEqualLoop, map_cons, map_cons, cons.injEq, ← ih (Nat.succ.inj hlen),
        ← canonicalCompare_pairKey]
      split
      next hne => exact iff_of_false nofun fun h => hne h.1
      next heq => exact (and_iff_right (not_not.1 heq)).symm

theorem map_eq_map_iff_spelt {t1 t2 : List Nat} {f1 f2 g h : Nat → List UInt8}
    (hn : (t1.map f1).Nodup) (hf : t1.map f1 = t2.map f2) :
    t1.map g = t2.map h ↔ ∀ i ∈ t1, ∀ j ∈ t2, f1 i = f2 j → g i = h j := by
  induction t1 generalizing t2 with
  | nil =>
    rw [map_nil, eq_comm, map_eq_nil_iff] at hf
    rw [hf]
    exact iff_of_true rfl nofun
  | cons i t1 ih =>
    cases t2 with
    | nil => cases hf
    | cons j t2 =>
      rw [map_cons, map_cons, cons.injEq] at hf
      rw [map_cons, nodup_cons] at hn
      have hi := hn.1
      have hj := hn.1
      rw [hf.2, hf.1] at hj
      rw [map_cons, map_cons, cons.injEq, ih hn.2 hf.2]
      simp only [forall_mem_cons]
      refine ⟨fun h => ⟨⟨fun _ => h.1, ?_⟩, ?_⟩, fun h => ⟨h.1.1 hf.1, fun i' hi' => (h.2 i' hi').2⟩⟩
      · intro j' hj' he
        exact absurd (mem_map.2 ⟨j', hj', he.symm.trans hf.1⟩) hj
      · intro i' hi'
        refine ⟨fun he => ?_, h.2 i' hi'⟩
        exact absurd (mem_map.2 ⟨i', hi', he.trans hf.1.symm⟩) hi

theorem rrsetCanonicalEqual_iff {k1 k2 : StoredRrset} (hbasic : basicEqual k1 k2 = true)
    (hle : k1.rrs.length ≤ rrCountMax) : rrsetCanonicalEqual k1 k2 = true ↔
      ((canonicalSort k1.toRrset).map fun i => (k1.rrData i).drop 2) =
        (canonicalSort k2.toRrset).map fun i => (k2.rrData i).drop 2 := by
  have hcount := (of_decide_eq_true hbasic).2.2.2.2.2.2.1
  rw [rrsetCanonicalEqual, if_neg (not_not_intro hbasic), if_neg (by omega)]
  dsimp only
  split
  next hne =>
    refine iff_of_false nofun fun heq => hne ?_
    rw [← length_map, heq, length_map]
  next hlen => exact canonicalEqualLoop_iff (not_not.1 hlen)

/-- The result is right unless records that differ in case come first, or there are too many
records. -/
theorem rrsetCanonicalEqual_iff_forms (k1 k2 : StoredRrset) (hbasic : basicEqual k1 k2 = true)
    (h1 : RrsetOk k1.toRrset) (h2 : RrsetOk k2.toRrset) :
    (rrsetCanonicalEqual k1 k2 = true ↔ SameForms k1.toRrset k2.toRrset) ↔
      (k1.rrs.length ≤ rrCountMax ∧
        (SameForms k1.toRrset k2.toRrset → SpeltAlike k1.toRrset k2.toRrset)) ∨
      (rrCountMax < k1.rrs.length ∧ SameForms k1.toRrset k2.toRrset) := by
  have htype := (of_decide_eq_true hbasic).2.2.1
  by_cases hle : k1.rrs.length ≤ rrCountMax
  · rw [rrsetCanonicalEqual_iff hbasic hle]
    have hforms : ((canonicalSort k1.toRrset).map fun i => (k1.rrData i).drop 2) =
        ((canonicalSort k2.toRrset).map fun i => (k2.rrData i).drop 2) →
        SameForms k1.toRrset k2.toRrset := by
      intro h
      have hcanon := congrArg (map (canonRdata lowerTypes k1.type)) h
      rw [map_map, map_map] at hcanon
      rw [sameForms_iff h1 h2]
      refine hcanon.trans ?_
      rw [htype]
      rfl
    have hspelt := fun hs => map_eq_map_iff_spelt (g := fun i => (k1.rrData i).drop 2)
      (h := fun i => (k2.rrData i).drop 2)
      (nodup_of_pairwise_lt (pairwise_canonicalSort h1)) ((sameForms_iff h1 h2).1 hs)
    simp only [mem_canonicalSort_iff h1, mem_canonicalSort_iff h2] at hspelt
    rw [or_iff_left fun h => absurd hle (Nat.not_le.2 h.1), and_iff_right hle]
    constructor
    · intro h hs i j hi hj
      exact (hspelt hs).1 (h.2 hs) i hi j hj
    · exact fun h => ⟨hforms, fun hs => (hspelt hs).2 fun i hi j hj => h hs i j hi hj⟩
  · have htrue : rrsetCanonicalEqual k1 k2 = true := by
      rw [rrsetCanonicalEqual, if_neg (not_not_intro hbasic), if_pos (by omega)]
    simp [htrue, Nat.not_le.1 hle, hle]

def nsRrset (datas : List (List UInt8)) : StoredRrset :=
  ⟨⟨[[97]], 2, 1, datas.map (⟨3600, ·⟩)⟩, 0, 3600, 0, .ansNoAA, .unchecked⟩

theorem nsRrset_ok (hd : ∀ d ∈ datas, ∃ b, d = [0, 3, 1, b, 0]) :
    RrsetOk (nsRrset datas).toRrset := by
  intro r hr
  obtain ⟨d, hd', rfl⟩ := mem_map.1 hr
  obtain ⟨b, rfl⟩ := hd d hd'
  have hlen : [0, 3] = u16Bytes 3 := by decide
  exact ⟨by simp, hlen, fun _ => ⟨[.dname [[b]], .raw []],
    .dname ⟨by simp, by simp, by simp [wireLen]⟩ (.rest fun _ => rfl), rfl⟩⟩

theorem rrsetCanonicalEqual_iff_forms_reordered : ∃ a b, a ≠ b ∧
    basicEqual (nsRrset [a, b]) (nsRrset [b, a]) = true ∧
    ((rrsetCanonicalEqual (nsRrset [a, b]) (nsRrset [b, a]) = true ↔
        SameForms (nsRrset [a, b]).toRrset (nsRrset [b, a]).toRrset) ↔
      ((nsRrset [a, b]).rrs.length ≤ rrCountMax ∧
        (SameForms (nsRrset [a, b]).toRrset (nsRrset [b, a]).toRrset →
          SpeltAlike (nsRrset [a, b]).toRrset (nsRrset [b, a]).toRrset)) ∨
      (rrCountMax < (nsRrset [a, b]).rrs.length ∧
        SameForms (nsRrset [a, b]).toRrset (nsRrset [b, a]).toRrset)) :=
  ⟨[0, 3, 1, 98, 0], [0, 3, 1, 99, 0], by decide, by decide,
    rrsetCanonicalEqual_iff_forms _ _ (by decide) (nsRrset_ok (by simp)) (nsRrset_ok (by simp))⟩

theorem rrsetCanonicalEqual_sees_case :
    basicEqual (nsRrset [[0, 3, 1, 98, 0]]) (nsRrset [[0, 3, 1, 66, 0]]) = true ∧
    RrsetOk (nsRrset [[0, 3, 1, 98, 0]]).toRrset ∧ RrsetOk (nsRrset [[0, 3, 1, 66, 0]]).toRrset ∧
    SameForms (nsRrset [[0, 3, 1, 98, 0]]).toRrset (nsRrset [[0, 3, 1, 66, 0]]).toRrset ∧
    rrsetCanonicalEqual (nsRrset [[0, 3, 1, 98, 0]]) (nsRrset [[0, 3, 1, 66, 0]]) = false := by
  have h1 : RrsetOk (nsRrset [[0, 3, 1, 98, 0]]).toRrset := nsRrset_ok (by simp)
  have h2 : RrsetOk (nsRrset [[0, 3, 1, 66, 0]]).toRrset := nsRrset_ok (by simp)
  exact ⟨by decide, h1, h2, (sameForms_iff h1 h2).2 (by decide), by decide⟩

end CwdGate.Sigcrypt
