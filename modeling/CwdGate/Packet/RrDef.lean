import CwdGate.Packet.Sbuffer

namespace CwdGate

/-- The `LDNS_RDF_TYPE_*` values in types with names; `other` for those that `get_rdf_size` does not
know. -/
inductive RdfType
  | dname | str | cls | alg | int8 | int16 | rrtype | certAlg | int32 | time | a | period
  | tsigtime | aaaa | other
  deriving DecidableEq

def getRdfSize : RdfType → Nat
  | .cls | .alg | .int8 => 1
  | .int16 | .rrtype | .certAlg => 2
  | .int32 | .time | .a | .period => 4
  | .tsigtime => 6
  | .aaaa => 16
  | .dname | .str | .other => 0

/-- The fields of `sldns_rr_descriptor` that tell where the domain names of an rdata are. -/
structure RrDescriptor where
  wireformat : List RdfType
  compress : Bool
  dnameCount : Nat
  deriving DecidableEq

/-- `sldns_rr_descript`. Types without names have a zero `_dname_count`; their formats are never
read. -/
def sldnsRrDescript (type : UInt16) : RrDescriptor :=
  match type.toNat with
  | 2 | 3 | 4 | 5 | 7 | 8 | 9 | 12 => ⟨[.dname], true, 1⟩
  | 6 => ⟨[.dname, .dname, .int32, .period, .period, .period, .period], true, 2⟩
  | 14 => ⟨[.dname, .dname], true, 2⟩
  | 15 => ⟨[.int16, .dname], true, 1⟩
  | 17 => ⟨[.dname, .dname], false, 2⟩
  | 18 | 21 | 36 | 64 | 65 | 107 => ⟨[.int16, .dname], false, 1⟩
  | 24 | 46 =>
    ⟨[.rrtype, .alg, .int8, .int32, .time, .time, .int16, .dname, .other], false, 1⟩
  | 26 => ⟨[.int16, .dname, .dname], false, 2⟩
  | 30 | 47 => ⟨[.dname, .other], false, 1⟩
  | 33 => ⟨[.int16, .int16, .int16, .dname], false, 1⟩
  | 35 => ⟨[.int16, .int16, .str, .str, .str, .dname], false, 1⟩
  | 39 => ⟨[.dname], false, 1⟩
  | 58 => ⟨[.dname, .dname], false, 2⟩
  | 249 => ⟨[.dname, .time, .time, .int16, .other, .other, .other], false, 1⟩
  | 250 => ⟨[.dname, .tsigtime, .int16, .other, .int16, .other, .other], false, 1⟩
  | _ => ⟨[], false, 0⟩

/-- One piece of an rdata: octets as they are, or a domain name. -/
inductive RdField
  | raw (bytes : List UInt8)
  | dname (name : Name)
  deriving DecidableEq

def RdField.lower : RdField → RdField
  | .raw bytes => .raw bytes
  | .dname name => .dname (lowerName name)

def rdfLen (rdf : RdfType) (first : UInt8) : Nat :=
  if rdf = .str then first.toNat + 1 else getRdfSize rdf

/-- An uncompressed name at the head of memory, and what follows it. -/
def readName (bytes : List UInt8) : Option (Name × List UInt8) :=
  let n := nameAt bytes
  if ValidName n ∧ bytes.take (wireLen n) = wire n then some (n, bytes.drop (wireLen n)) else none

/-- The pieces of an uncompressed rdata; `none` when a field does not fit. -/
def rdataFields : List RdfType → Nat → List UInt8 → Option (List RdField)
  | [], _, rdata => some [.raw rdata]
  | rdf :: wireformat, count, rdata =>
    if rdata = [] ∨ count = 0 then some [.raw rdata]
    else if rdf = .dname then
      match readName rdata with
      | none => none
      | some (n, rest) => (rdataFields wireformat (count - 1) rest).map (.dname n :: ·)
    else
      let len := rdfLen rdf (peek rdata)
      if rdata.length < len then none
      else (rdataFields wireformat count (rdata.drop len)).map (.raw (rdata.take len) :: ·)

/-- Its length in front, and for types whose names are compressed, fields that fit. -/
structure RdataOk (desc : RrDescriptor) (data : List UInt8) : Prop where
  rdlength : data.take 2 = u16Bytes (data.length - 2)
  len_ge : 2 ≤ data.length
  len_lt : data.length < 65538
  fields : desc.compress = true → (rdataFields desc.wireformat desc.dnameCount (data.drop 2)).isSome

instance (desc : RrDescriptor) (data : List UInt8) : Decidable (RdataOk desc data) :=
  decidable_of_iff (data.take 2 = u16Bytes (data.length - 2) ∧ 2 ≤ data.length ∧
      data.length < 65538 ∧ (desc.compress = true →
        (rdataFields desc.wireformat desc.dnameCount (data.drop 2)).isSome))
    ⟨fun h => ⟨h.1, h.2.1, h.2.2.1, h.2.2.2⟩, fun h => ⟨h.1, h.2, h.3, h.4⟩⟩

end CwdGate
