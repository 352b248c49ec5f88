import CwdGate.Lib.OrdTree
import CwdGate.Packet.RrDef

namespace CwdGate.Sigcrypt
open Lib

/-- One record of a packed RRset: its TTL, and its rdata behind a 16-bit length. -/
structure Rr where
  ttl : Nat
  data : List UInt8
  deriving DecidableEq

/-- The fields of an RRset that canonicalization and verification read, but for the signatures. -/
structure Rrset where
  dname : Name
  type : UInt16
  rrsetClass : UInt16
  rrs : List Rr
  deriving DecidableEq

def Rrset.rrData (k : Rrset) (i : Nat) : List UInt8 := ((k.rrs[i]?).map Rr.data).getD []

def Rrset.rrTtl (k : Rrset) (i : Nat) : Nat := ((k.rrs[i]?).map Rr.ttl).getD 0

/-- A position of `canonical_compare_byfield`: the formats to come, `dname_i`, `lablen_i`,
`dname_num_i`. -/
structure Sweep where
  wireformat : List RdfType
  dname : Bool
  lablen : Nat
  dnameNum : Nat
  deriving DecidableEq

/-- A length octet of a name, with `left` octets of the rdata behind it. -/
def Sweep.nameByte (s : Sweep) (b : UInt8) (left : Nat) : Sweep :=
  if b = 0 then
    { s with dname := false, dnameNum := s.dnameNum - 1,
             lablen := if s.dnameNum - 1 = 0 then left else 0 }
  else { s with dname := true, lablen := b.toNat }

/-- Advance over the octet `b`. The source reads `_wireformat` without a bound; no field follows the
last name while the loop runs. -/
def Sweep.advance (s : Sweep) (b : UInt8) (left : Nat) : Sweep :=
  if s.lablen = 0 then
    if s.dname then s.nameByte b left
    else
      match s.wireformat with
      | [] => s
      | .dname :: wf => { s with wireformat := wf }.nameByte b left
      | .str :: wf => { s with wireformat := wf, lablen := b.toNat }
      | rdf :: wf => { s with wireformat := wf, lablen := (getRdfSize rdf + (2 ^ 64 - 1)) % 2 ^ 64 }
  else { s with lablen := s.lablen - 1 }

/-- An octet as it is compared: in lower case inside a label. -/
def Sweep.octet (s : Sweep) (b : UInt8) : UInt8 :=
  if s.dname ∧ s.lablen ≠ 0 then tolower b else b

/-- The loop of `canonical_compare_byfield` and the comparison of what it leaves. -/
def compareByfieldLoop : List UInt8 → List UInt8 → Sweep → Sweep → Ordering
  | bi :: di, bj :: dj, si, sj =>
    if si.dnameNum > 0 ∨ sj.dnameNum > 0 then
      if si.octet bi ≠ sj.octet bj then
        if si.octet bi < sj.octet bj then .lt else .gt
      else compareByfieldLoop di dj (si.advance bi di.length) (sj.advance bj dj.length)
    else (bi :: di).compareLex compare (bj :: dj)
  | di, dj, _, _ => di.compareLex compare dj

def canonicalCompareByfield (desc : RrDescriptor) (di dj : List UInt8) : Ordering :=
  compareByfieldLoop di dj ⟨desc.wireformat, false, 0, desc.dnameCount⟩
    ⟨desc.wireformat, false, 0, desc.dnameCount⟩

/-- The types by where the names that go to lower case stand in the rdata. -/
inductive CanonType
  | name | nxt | twoNames | int16Name | sig | px | naptr | srv | binary
  deriving DecidableEq

/-- The case labels of the two switches. NSEC, HINFO and A6 are with the binary types. -/
def canonType (type : UInt16) : CanonType :=
  match type.toNat with
  | 2 | 3 | 4 | 5 | 7 | 8 | 9 | 12 | 39 => .name
  | 30 => .nxt
  | 14 | 17 | 6 => .twoNames
  | 21 | 18 | 36 | 15 => .int16Name
  | 24 | 46 => .sig
  | 26 => .px
  | 35 => .naptr
  | 33 => .srv
  | _ => .binary

/-- The comparison of `canonical_compare` for two different records. -/
def canonicalCompareRdata (type : UInt16) (ri rj : List UInt8) : Ordering :=
  match canonType type with
  | .name =>
    if dnameValid (ri.drop 2) (ri.length - 2) = 0 ∨ dnameValid (rj.drop 2) (rj.length - 2) = 0 then
      .eq
    else queryDnameCompare (nameAt (ri.drop 2)) (nameAt (rj.drop 2))
  | .binary => (ri.drop 2).compareLex compare (rj.drop 2)
  | _ => canonicalCompareByfield (sldnsRrDescript type) (ri.drop 2) (rj.drop 2)

def canonicalCompare (k : Rrset) (i j : Nat) : Ordering :=
  if i = j then .eq else canonicalCompareRdata k.type (k.rrData i) (k.rrData j)

/-- `canonical_sort`: the records of the tree in its order. An equal record is not inserted. -/
def canonicalSort (k : Rrset) : List Nat :=
  insertAll (canonicalCompare k) (List.range k.rrs.length) []

def tolowerLoop : Nat → Sbuffer → Nat → Sbuffer
  | 0, buf, _ => buf
  | fuel + 1, buf, dname =>
    let labellen := buf.data dname
    if labellen = 0 then buf
    else tolowerLoop fuel
      (buf.writeAt (dname + 1) ((bytesAt buf.data (dname + 1) labellen.toNat).map tolower))
      (dname + 1 + labellen.toNat)

/-- `query_dname_tolower`. A name has at most 127 labels; more rounds have led out of the buffer. -/
def queryDnameTolower (buf : Sbuffer) (dname : Nat) : Sbuffer :=
  tolowerLoop (buf.capacity + 128) buf dname

def dnameValidIn (buf : Sbuffer) (dname maxlen : Nat) : Nat :=
  dnameValid (bytesAt buf.data dname maxlen) maxlen

def dnameSignameLabelCount (d : Name) : Nat := if dnameIsWild d then d.tail.length else d.length

/-- `insert_can_owner`: the buffer and `can_owner_len`. -/
def insertCanOwner (buf : Sbuffer) (dname : Name) (sig : List UInt8) : Sbuffer × Nat :=
  let rrsigLabels := (sig.getD 3 0).toNat
  let fqdnLabels := dnameSignameLabelCount dname
  if rrsigLabels = fqdnLabels then
    (queryDnameTolower (buf.write (wire dname)) buf.position, wireLen dname)
  else if rrsigLabels < fqdnLabels then
    let nm := dnameRemoveLabels dname (fqdnLabels - rrsigLabels)
    (queryDnameTolower ((buf.write [1, 42]).write (wire nm)) buf.position, wireLen nm + 2)
  else (buf, 0)

/-- Three text fields of a NAPTR rdata are skipped: where the name starts, if it is there. -/
def naptrName (buf : Sbuffer) : Nat → Nat → Nat → Option Nat
  | 0, datstart, len => if len < 1 then none else some datstart
  | texts + 1, datstart, len =>
    let text := (buf.data datstart).toNat + 1
    if len < text then none else naptrName buf texts (datstart + text) (len - text)

def canonicalizeRdata (buf : Sbuffer) (type : UInt16) (len : Nat) : Sbuffer :=
  let datstart := buf.position - len + 2
  match canonType type with
  | .nxt | .name => queryDnameTolower buf datstart
  | .twoNames =>
    let buf := queryDnameTolower buf datstart
    queryDnameTolower buf (datstart + dnameValidIn buf datstart (len - 2))
  | .int16Name => if len < 2 + 2 + 1 then buf else queryDnameTolower buf (datstart + 2)
  | .sig => if len < 2 + 18 + 1 then buf else queryDnameTolower buf (datstart + 18)
  | .px =>
    if len < 2 + 2 + 1 then buf
    else
      let buf := queryDnameTolower buf (datstart + 2)
      queryDnameTolower buf (datstart + 2 + dnameValidIn buf (datstart + 2) (len - 2 - 2))
  | .naptr =>
    if len < 2 + 4 then buf
    else
      match naptrName buf 3 (datstart + 4) (len - (2 + 4)) with
      | none => buf
      | some name => queryDnameTolower buf name
  | .srv => if len < 2 + 6 + 1 then buf else queryDnameTolower buf (datstart + 6)
  | .binary => buf

/-- The buffer, and where the canonical owner name stands in it and how long it is. -/
structure Canon where
  buf : Sbuffer
  canOwner : Option Nat
  canOwnerLen : Nat

/-- The owner name of one more record. The first time `insert` writes it. -/
def Canon.putOwner (c : Canon) (insert : Sbuffer → Sbuffer × Nat) : Canon :=
  match c.canOwner with
  | some at_ => { c with buf := c.buf.write (bytesAt c.buf.data at_ c.canOwnerLen) }
  | none =>
    let r := insert c.buf
    { buf := r.1, canOwner := some c.buf.position, canOwnerLen := r.2 }

def putRdata (buf : Sbuffer) (k : Rrset) (ttl : List UInt8) (i : Nat) : Sbuffer :=
  let buf := buf.write (u16Bytes k.type.toNat)
  let buf := buf.write (u16Bytes k.rrsetClass.toNat)
  let buf := buf.write ttl
  let buf := buf.write (k.rrData i)
  canonicalizeRdata buf k.type (k.rrData i).length

/-- The loop over the sorted records; false when a record is found not to fit. -/
def canonLoop (k : Rrset) (insert : Sbuffer → Sbuffer × Nat) (ttl : Nat → List UInt8) :
    List Nat → Canon → Bool × Canon
  | [], c => (true, c)
  | i :: walk, c =>
    if c.buf.remaining < c.canOwnerLen + 2 + 2 + 4 + (k.rrData i).length then (false, c)
    else
      let c := c.putOwner insert
      canonLoop k insert ttl walk { c with buf := putRdata c.buf k (ttl i) i }

def rrCountMax : Nat := 0xffffff

/-- The part of `rrset_canonical` behind the sort: the signature's fields, then the records. -/
def canonicalForm (buf : Sbuffer) (k : Rrset) (sig : List UInt8) (siglen : Nat)
    (sortree : List Nat) : Bool × Canon :=
  let buf := buf.clear.write (sig.take siglen)
  let buf := queryDnameTolower buf 18
  canonLoop k (fun buf => insertCanOwner buf k.dname sig) (fun _ => (sig.drop 4).take 4) sortree
    ⟨buf, none, 0⟩

def rrsetCanonicalizeToBuffer (buf : Sbuffer) (k : Rrset) : Bool × Sbuffer :=
  if k.rrs.length > rrCountMax then (false, buf)
  else
    let insert := fun (buf : Sbuffer) =>
      (queryDnameTolower (buf.write (wire k.dname)) buf.position, wireLen k.dname)
    let r := canonLoop k insert (fun i => u32Bytes (k.rrTtl i)) (canonicalSort k)
      ⟨buf.clear, none, 0⟩
    (r.1, if r.1 then r.2.buf.flip else r.2.buf)

inductive PktSection where
  | question
  | answer
  | authority
  | additional
  | any
  | anyNoquestion
  deriving DecidableEq, Repr

/-- What `rrset_canonical` returns and leaves behind. -/
structure Canonical where
  ok : Bool
  buf : Sbuffer
  sortree : Option (List Nat)
  dname : Name

/-- `rrset_canonical`; `hasQstate`: a `qstate` is given. Allocations succeed, and the tree left when
there are too many records is not there. -/
def rrsetCanonical (buf : Sbuffer) (k : Rrset) (sig : List UInt8) (siglen : Nat)
    (sortree : Option (List Nat)) (sect : PktSection) (hasQstate : Bool) : Canonical :=
  if sortree = none ∧ k.rrs.length > rrCountMax then ⟨false, buf, sortree, k.dname⟩
  else
    let tree := sortree.getD (canonicalSort k)
    let r := canonicalForm buf k sig siglen tree
    if ¬ r.1 then ⟨false, r.2.buf, some tree, k.dname⟩
    else
      let buf := r.2.buf.flip
      -- a wildcard-expanded NSEC gets the name that was signed, whatever the signature is worth
      if k.type = 47 ∧ sect = .authority ∧ hasQstate then
        ⟨true, buf, some tree, nameAt (bytesAt buf.data (r.2.canOwner.getD 0) r.2.canOwnerLen)⟩
      else ⟨true, buf, some tree, k.dname⟩

open Std

def Sweep.bytes : Sweep → List UInt8 → List UInt8
  | _, [] => []
  | s, b :: bs => if s.dnameNum > 0 then s.octet b :: (s.advance b bs.length).bytes bs else b :: bs

/-- The two sides of the comparison, while all octets so far are equal. -/
structure Sweep.Agree (s t : Sweep) : Prop where
  wireformat : s.wireformat = t.wireformat
  dname : s.dname = t.dname
  dnameNum : s.dnameNum = t.dnameNum
  lablen : 0 < s.dnameNum → s.lablen = t.lablen

theorem Sweep.Agree.nameByte {s t : Sweep} (h : s.Agree t) (b : UInt8) (left left' : Nat) :
    (s.nameByte b left).Agree (t.nameByte b left') := by
  by_cases hb : b = 0
  · rw [Sweep.nameByte, Sweep.nameByte, if_pos hb, if_pos hb]
    refine ⟨h.wireformat, rfl, congrArg (· - 1) h.dnameNum, fun hpos => ?_⟩
    have hs := Nat.ne_of_gt hpos
    have ht : t.dnameNum - 1 ≠ 0 := h.dnameNum ▸ hs
    rw [if_neg hs, if_neg ht]
  · rw [Sweep.nameByte, Sweep.nameByte, if_neg hb, if_neg hb]
    exact ⟨h.wireformat, rfl, h.dnameNum, fun _ => rfl⟩

theorem Sweep.Agree.advance {s t : Sweep} (h : s.Agree t) (hnum : 0 < s.dnameNum)
    (hb : s.octet b = t.octet b') (left left' : Nat) :
    (s.advance b left).Agree (t.advance b' left') := by
  have hlab := h.lablen hnum
  rw [Sweep.advance, Sweep.advance, ← hlab, ← h.dname, ← h.wireformat]
  by_cases h0 : s.lablen = 0
  · have hbb : b = b' := by
      rw [Sweep.octet, Sweep.octet, ← hlab, h0] at hb
      simpa using hb
    subst hbb
    rw [if_pos h0, if_pos h0]
    split
    · exact h.nameByte b left left'
    · cases hwf : s.wireformat with
      | nil => exact h
      | cons rdf wf =>
        have hnext : Sweep.Agree { s with wireformat := wf }
            { t with wireformat := wf, dname := s.dname } :=
          ⟨rfl, rfl, h.dnameNum, h.lablen⟩
        cases rdf with
        | dname => exact hnext.nameByte b left left'
        | _ => exact ⟨rfl, rfl, h.dnameNum, fun _ => rfl⟩
  · rw [if_neg h0, if_neg h0]
    exact ⟨rfl, rfl, h.dnameNum, fun _ => rfl⟩

theorem compare_octet (a b : UInt8) :
    compare a b = if a < b then .lt else if a = b then .eq else .gt := rfl

theorem compareByfieldLoop_eq {s t : Sweep} (h : s.Agree t) :
    compareByfieldLoop di dj s t = (s.bytes di).compareLex compare (t.bytes dj) := by
  induction di generalizing dj s t with
  | nil =>
    cases dj with
    | nil => rfl
    | cons bj dj =>
      simp only [compareByfieldLoop, Sweep.bytes]
      split <;> rfl
  | cons bi di ih =>
    cases dj with
    | nil =>
      simp only [compareByfieldLoop, Sweep.bytes]
      split <;> rfl
    | cons bj dj =>
      rw [compareByfieldLoop, Sweep.bytes, Sweep.bytes, ← h.dnameNum]
      by_cases hnum : s.dnameNum > 0
      · rw [if_pos (.inl hnum), if_pos hnum, if_pos hnum, List.compareLex_cons_cons, compare_octet]
        by_cases he : s.octet bi = t.octet bj
        · have hlt : ¬ t.octet bj < t.octet bj := UInt8.lt_irrefl _
          rw [if_neg (not_not_intro he), he, if_neg hlt, if_pos rfl, ih (h.advance hnum he _ _)]
          rfl
        · rw [if_pos he, if_neg he]
          split <;> rfl
      · rw [if_neg (by simpa using hnum), if_neg hnum, if_neg hnum]

/-- The fields of an rdata in wire order. Behind the last name is anything, if a field is to
come. -/
inductive Layout : List RdfType → Nat → List RdField → Prop
  | rest {wf : List RdfType} {bytes : List UInt8} : (wf = [] → bytes = []) →
      Layout wf 0 [.raw bytes]
  | dname {wf : List RdfType} {count : Nat} {n : Name} {fields : List RdField} : ValidName n →
      Layout wf count fields → Layout (.dname :: wf) (count + 1) (.dname n :: fields)
  | str {wf : List RdfType} {count : Nat} {text : List UInt8} {fields : List RdField} :
      text.length ≤ 255 → Layout wf (count + 1) fields →
      Layout (.str :: wf) (count + 1) (.raw (text.length.toUInt8 :: text) :: fields)
  | fixed {rdf : RdfType} {wf : List RdfType} {count : Nat} {bytes : List UInt8}
      {fields : List RdField} : rdf ≠ .dname → rdf ≠ .str → bytes.length = getRdfSize rdf →
      0 < bytes.length → Layout wf (count + 1) fields →
      Layout (rdf :: wf) (count + 1) (.raw bytes :: fields)

def fieldOctets : RdField → List UInt8
  | .raw bytes => bytes
  | .dname name => wire name

def fieldsOctets (fields : List RdField) : List UInt8 := fields.flatMap fieldOctets

@[simp] theorem fieldsOctets_cons :
    fieldsOctets (f :: fields) = fieldOctets f ++ fieldsOctets fields := List.flatMap_cons

theorem getRdfSize_le (rdf : RdfType) : getRdfSize rdf ≤ 16 := by
  cases rdf <;> decide

theorem Sweep.bytes_raw {s : Sweep} (hd : s.dname = false) (hn : 0 < s.dnameNum)
    {bytes : List UInt8} (hl : s.lablen = bytes.length) (after : List UInt8) :
    s.bytes (bytes ++ after) = bytes ++ { s with lablen := 0 }.bytes after := by
  induction bytes generalizing s with
  | nil =>
    obtain ⟨wf, d, lablen, num⟩ := s
    cases hl
    rfl
  | cons b bytes ih =>
    have h0 : s.lablen ≠ 0 := by rw [hl]; exact Nat.succ_ne_zero _
    have hadv : s.advance b (bytes ++ after).length = { s with lablen := s.lablen - 1 } :=
      if_neg h0
    have hoct : s.octet b = b := if_neg fun h => by rw [hd] at h; exact Bool.false_ne_true h.1
    have hl' : s.lablen - 1 = bytes.length := by rw [hl]; rfl
    have hrest := @ih { s with lablen := s.lablen - 1 } hd hn hl'
    rw [List.cons_append, Sweep.bytes, if_pos hn, hadv, hoct, hrest]
    rfl

theorem Sweep.bytes_label {s : Sweep} (hd : s.dname = true) (hn : 0 < s.dnameNum)
    {l : Label} (hl : s.lablen = l.length) (after : List UInt8) :
    s.bytes (l ++ after) = lowerLabel l ++ { s with lablen := 0 }.bytes after := by
  induction l generalizing s with
  | nil =>
    obtain ⟨wf, d, lablen, num⟩ := s
    cases hl
    rfl
  | cons b l ih =>
    have h0 : s.lablen ≠ 0 := by rw [hl]; exact Nat.succ_ne_zero _
    have hadv : s.advance b (l ++ after).length = { s with lablen := s.lablen - 1 } := if_neg h0
    have hoct : s.octet b = tolower b := if_pos ⟨hd, h0⟩
    have hl' : s.lablen - 1 = l.length := by rw [hl]; rfl
    have hrest := @ih { s with lablen := s.lablen - 1 } hd hn hl'
    rw [List.cons_append, Sweep.bytes, if_pos hn, hadv, hoct, hrest]
    rfl

theorem Sweep.bytes_zero {s : Sweep} (hn : s.dnameNum = 0) (bytes : List UInt8) :
    s.bytes bytes = bytes := by
  cases bytes with
  | nil => rfl
  | cons b bytes => rw [Sweep.bytes, if_neg (by omega)]

theorem Sweep.bytes_name {wf : List RdfType} {num : Nat} {n : Name}
    (hv : ∀ l ∈ n, 0 < l.length ∧ l.length ≤ 63) (after : List UInt8) :
    Sweep.bytes ⟨wf, true, 0, num + 1⟩ (wire n ++ after) =
      wire (lowerName n) ++ Sweep.bytes ⟨wf, false, 0, num⟩ after := by
  induction n with
  | nil =>
    have hbytes : Sweep.bytes ⟨wf, true, 0, num + 1⟩ (0 :: after) =
        0 :: Sweep.bytes ⟨wf, false, if num = 0 then after.length else 0, num⟩ after := rfl
    change Sweep.bytes ⟨wf, true, 0, num + 1⟩ (0 :: after) =
      0 :: Sweep.bytes ⟨wf, false, 0, num⟩ after
    rw [hbytes]
    by_cases h0 : num = 0
    · rw [Sweep.bytes_zero h0, Sweep.bytes_zero h0]
    · rw [if_neg h0]
  | cons l n ih =>
    obtain ⟨hlen, hne⟩ := length_octet (hv l List.mem_cons_self)
    have hstep : Sweep.advance ⟨wf, true, 0, num + 1⟩ l.length.toUInt8
        (l ++ (wire n ++ after)).length = ⟨wf, true, l.length, num + 1⟩ := by
      change Sweep.nameByte ⟨wf, true, 0, num + 1⟩ l.length.toUInt8 _ = _
      rw [Sweep.nameByte, if_neg hne, hlen]
    have hlabel := @Sweep.bytes_label ⟨wf, true, l.length, num + 1⟩ rfl (Nat.succ_pos num) l rfl
      (wire n ++ after)
    have hwire : wire (lowerName (l :: n)) =
        (lowerLabel l).length.toUInt8 :: lowerLabel l ++ wire (lowerName n) := rfl
    have hoct : Sweep.octet ⟨wf, true, 0, num + 1⟩ l.length.toUInt8 = l.length.toUInt8 :=
      if_neg fun h => h.2 rfl
    rw [wire, List.append_assoc, List.cons_append, Sweep.bytes, if_pos (Nat.succ_pos num), hstep,
      hlabel, ih fun l hl => hv l (List.mem_cons_of_mem _ hl), hwire, length_lowerLabel, hoct]
    simp only [List.cons_append, List.append_assoc]

theorem Sweep.bytes_enter {wf : List RdfType} {num : Nat} {b : UInt8} {bytes : List UInt8} :
    Sweep.bytes ⟨.dname :: wf, false, 0, num⟩ (b :: bytes) =
      Sweep.bytes ⟨wf, true, 0, num⟩ (b :: bytes) := by
  have hoct : Sweep.octet ⟨.dname :: wf, false, 0, num⟩ b = b := if_neg fun h => h.2 rfl
  have hoct' : Sweep.octet ⟨wf, true, 0, num⟩ b = b := if_neg fun h => h.2 rfl
  have hadv : Sweep.advance ⟨.dname :: wf, false, 0, num⟩ b bytes.length =
      Sweep.nameByte ⟨wf, false, 0, num⟩ b bytes.length := rfl
  have hadv' : Sweep.advance ⟨wf, true, 0, num⟩ b bytes.length =
      Sweep.nameByte ⟨wf, true, 0, num⟩ b bytes.length := rfl
  have hname : Sweep.nameByte ⟨wf, false, 0, num⟩ b bytes.length =
      Sweep.nameByte ⟨wf, true, 0, num⟩ b bytes.length := rfl
  rw [Sweep.bytes, Sweep.bytes, hoct, hoct', hadv, hadv', hname]

theorem wire_ne_nil (n : Name) : ∃ b bytes, wire n = b :: bytes := by
  cases n with
  | nil => exact ⟨0, [], rfl⟩
  | cons l n => exact ⟨l.length.toUInt8, l ++ wire n, rfl⟩

theorem Layout.bytes_eq {fields : List RdField} (h : Layout wf count fields) :
    Sweep.bytes ⟨wf, false, 0, count⟩ (fieldsOctets fields) =
      fieldsOctets (fields.map RdField.lower) := by
  induction h with
  | rest _ => exact Sweep.bytes_zero rfl _
  | @dname wf count n fields hv _ ih =>
    obtain ⟨b, bytes, hb⟩ := wire_ne_nil n
    have henter := @Sweep.bytes_enter wf (count + 1) b (bytes ++ fieldsOctets fields)
    rw [← List.cons_append, ← hb] at henter
    have hname := @Sweep.bytes_name wf count n
      (fun l hl => ⟨hv.label_pos l hl, hv.label_le l hl⟩) (fieldsOctets fields)
    rw [fieldsOctets_cons, fieldOctets, henter, hname, ih]
    rfl
  | @str wf count text fields hlen _ ih =>
    have htext : text.length.toUInt8.toNat = text.length := toNat_toUInt8_of_lt (by omega)
    have hadv : Sweep.advance ⟨.str :: wf, false, 0, count + 1⟩ text.length.toUInt8
        (text ++ fieldsOctets fields).length =
        ⟨wf, false, text.length.toUInt8.toNat, count + 1⟩ := rfl
    have hraw := @Sweep.bytes_raw ⟨wf, false, text.length, count + 1⟩ rfl (Nat.succ_pos count)
      text rfl (fieldsOctets fields)
    have hoct : Sweep.octet ⟨.str :: wf, false, 0, count + 1⟩ text.length.toUInt8 =
        text.length.toUInt8 := if_neg fun h => h.2 rfl
    rw [fieldsOctets_cons, fieldOctets, List.cons_append, Sweep.bytes, if_pos (Nat.succ_pos count),
      hadv, htext, hraw, hoct, ih]
    rfl
  | @fixed rdf wf count bytes fields hd hs hlen hpos _ ih =>
    cases bytes with
    | nil => exact absurd hpos (Nat.lt_irrefl 0)
    | cons b bytes =>
      have hsize : (getRdfSize rdf + (2 ^ 64 - 1)) % 2 ^ 64 = bytes.length := by
        have := getRdfSize_le rdf
        rw [List.length_cons] at hlen
        omega
      have hadv : Sweep.advance ⟨rdf :: wf, false, 0, count + 1⟩ b
          (bytes ++ fieldsOctets fields).length = ⟨wf, false, bytes.length, count + 1⟩ := by
        rw [← hsize]
        cases rdf with
        | dname => exact absurd rfl hd
        | str => exact absurd rfl hs
        | _ => rfl
      have hraw := @Sweep.bytes_raw ⟨wf, false, bytes.length, count + 1⟩ rfl (Nat.succ_pos count)
        bytes rfl (fieldsOctets fields)
      have hoct : Sweep.octet ⟨rdf :: wf, false, 0, count + 1⟩ b = b := if_neg fun h => h.2 rfl
      rw [fieldsOctets_cons, fieldOctets, List.cons_append, Sweep.bytes,
        if_pos (Nat.succ_pos count), hadv, hraw, hoct, ih]
      rfl

end CwdGate.Sigcrypt
