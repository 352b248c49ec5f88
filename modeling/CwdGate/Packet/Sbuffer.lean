import CwdGate.Lib.Memory
import CwdGate.Dname.Name

namespace CwdGate
open Lib

section

section

/-- `struct sldns_buffer`. The asserts are compiled away, so a write may pass `limit`; `high` is one
past the last octet ever written. -/
structure Sbuffer where
  data : Nat → UInt8
  position : Nat
  limit : Nat
  capacity : Nat
  high : Nat

def u16Bytes (v : Nat) : List UInt8 := [(v / 256).toUInt8, v.toUInt8]

def u32Bytes (v : Nat) : List UInt8 := u16Bytes (v / 65536) ++ u16Bytes v

def readU16 (data : Nat → UInt8) (pos : Nat) : Nat :=
  (data pos).toNat * 256 + (data (pos + 1)).toNat

def readU32 (data : Nat → UInt8) (pos : Nat) : Nat :=
  readU16 data pos * 65536 + readU16 data (pos + 2)

@[simp] theorem length_u16Bytes (v : Nat) : (u16Bytes v).length = 2 := rfl

@[simp] theorem length_u32Bytes : (u32Bytes v).length = 4 := rfl

theorem readU16_of_holds (h : Holds F data pos (u16Bytes v)) : readU16 data pos = v % 65536 := by
  obtain ⟨-, h0, -, h1, -⟩ := h
  simp only [readU16, h0, h1, Nat.toUInt8, UInt8.toNat_ofNat']
  omega

theorem readU32_of_holds (h : Holds F data pos (u32Bytes v)) : readU32 data pos = v % 2 ^ 32 := by
  obtain ⟨h0, h1⟩ := holds_append.1 h
  have h1 : readU16 data (pos + 2) = v % 65536 := readU16_of_holds h1
  rw [readU32, readU16_of_holds h0, h1]
  omega

namespace Sbuffer
variable (b : Sbuffer)

def clear : Sbuffer := { b with position := 0, limit := b.capacity }

def flip : Sbuffer := { b with limit := b.position, position := 0 }

def setPosition (mark : Nat) : Sbuffer := { b with position := mark }

def skip (count : Nat) : Sbuffer := { b with position := b.position + count }

def setLimit (limit : Nat) : Sbuffer :=
  { b with limit := limit, position := if b.position > limit then limit else b.position }

def remaining : Nat := if b.position < b.limit then b.limit - b.position else 0

def writeAt (pos : Nat) (bytes : List UInt8) : Sbuffer :=
  { b with data := blit b.data pos bytes,
           high := if bytes = [] then b.high else max b.high (pos + bytes.length) }

def write (bytes : List UInt8) : Sbuffer :=
  { b.writeAt b.position bytes with position := b.position + bytes.length }

variable {b}

theorem remaining_eq : b.remaining = b.limit - b.position := by
  unfold remaining
  split <;> omega

@[simp] theorem write_nil : b.write [] = b := by
  simp [write, writeAt]

theorem write_append : b.write (xs ++ ys) = (b.write xs).write ys := by
  simp only [write, writeAt, blit_append, List.length_append, Nat.add_assoc, mk.injEq, true_and,
    List.append_eq_nil_iff]
  cases xs with
  | nil => simp
  | cons x xs =>
    cases ys with
    | nil => simp
    | cons y ys =>
      simp only [reduceCtorEq, and_self, ↓reduceIte, List.length_cons]
      omega

@[simp] theorem position_write (xs : List UInt8) :
    (b.write xs).position = b.position + xs.length := rfl

theorem remaining_write : (b.write xs).remaining = b.remaining - xs.length := by
  rw [remaining_eq, remaining_eq, position_write, Nat.sub_sub]
  rfl

theorem data_write_of_lt (h : i < b.position) : (b.write xs).data i = b.data i := blit_of_lt xs h

theorem holds_write {F : Nat → Prop} (h : ∀ i, b.position ≤ i → i < b.position + xs.length → F i) :
    Holds F (b.write xs).data b.position xs := holds_blit h

end Sbuffer

def labelIsPtr (x : UInt8) : Bool := x &&& 0xc0 == 0xc0

def ptrOffset (x y : UInt8) : Nat := ((x &&& 0x3f).toNat <<< 8) ||| y.toNat

def ptrCreate (offset : Nat) : Nat := (0xc000 ||| offset) % 65536

theorem ptrCreate_eq (h : offset ≤ 0x3fff) : ptrCreate offset = 0xc000 + offset := by
  have hor : 0xc000 ||| offset = 0xc000 + offset :=
    (Nat.shiftLeft_add_eq_or_of_lt (i := 14) (b := offset) (by omega) 3).symm
  rw [ptrCreate, hor]
  omega

theorem labelIsPtr_ptrCreate (h : offset ≤ 0x3fff) :
    labelIsPtr (ptrCreate offset / 256).toUInt8 = true := by
  have key : ∀ k : Fin 64, labelIsPtr (0xc0 + k.val).toUInt8 = true := by decide
  rw [ptrCreate_eq h, show (0xc000 + offset) / 256 = 0xc0 + offset / 256 by omega]
  exact key ⟨offset / 256, by omega⟩

theorem ptrOffset_ptrCreate (h : offset ≤ 0x3fff) :
    ptrOffset (ptrCreate offset / 256).toUInt8 (ptrCreate offset).toUInt8 = offset := by
  have key : ∀ k : Fin 64, ((0xc0 + k.val).toUInt8 &&& 0x3f).toNat = k.val := by decide
  have hlo : (ptrCreate offset).toUInt8.toNat = offset % 256 := by
    rw [ptrCreate_eq h, Nat.toUInt8, UInt8.toNat_ofNat']
    omega
  have hhi : ((ptrCreate offset / 256).toUInt8 &&& 0x3f).toNat = offset / 256 := by
    rw [ptrCreate_eq h, show (0xc000 + offset) / 256 = 0xc0 + offset / 256 by omega]
    exact key ⟨offset / 256, by omega⟩
  rw [ptrOffset, hlo, hhi, ← Nat.shiftLeft_add_eq_or_of_lt (by omega), Nat.shiftLeft_eq]
  omega

theorem labelIsPtr_of_le (h : n ≤ 63) : labelIsPtr n.toUInt8 = false := by
  have := toUInt8_and_c0 h
  simp [labelIsPtr, this]

/-- The loop of `pkt_dname_len`: the length, zero on error, and the position it ends at. -/
def pktDnameLenLoop (data : Nat → UInt8) (limit : Nat) : Nat → Nat → Nat → Nat → Nat → Nat × Nat
  | 0, pos, _, _, _ => (0, pos)
  | fuel + 1, pos, len, ptrcount, endpos =>
    if limit - pos < 1 then (0, pos)
    else
      let labellen := data pos
      if labelIsPtr labellen then
        if limit - (pos + 1) < 1 then (0, pos + 1)
        else
          let ptr := ptrOffset labellen (data (pos + 1))
          if ptrcount > 256 then (0, pos + 2)
          else if limit ≤ ptr then (0, pos + 2)
          else pktDnameLenLoop data limit fuel ptr len (ptrcount + 1)
            (if endpos = 0 then pos + 2 else endpos)
      else if labellen.toNat > 0x3f then (0, pos + 1)
      else
        let len' := len + (1 + labellen.toNat)
        if len' > 255 then (0, pos + 1)
        else if labellen.toNat = 0 then (len', if endpos = 0 then pos + 1 else endpos)
        else if limit - (pos + 1) < labellen.toNat then (0, pos + 1)
        else pktDnameLenLoop data limit fuel (pos + 1 + labellen.toNat) len' ptrcount endpos

/-- More than `pkt_dname_len` and `dname_pkt_copy` use: 257 pointers and 255 octets of labels. -/
def nameRounds : Nat := 515

/-- `pkt_dname_len`: zero on error; the position moves past the name. -/
def pktDnameLen (pkt : Sbuffer) : Nat × Sbuffer :=
  let r := pktDnameLenLoop pkt.data pkt.limit nameRounds pkt.position 0 0 0
  (r.1, { pkt with position := r.2 })

def bytesAt (data : Nat → UInt8) (pos : Nat) : Nat → List UInt8
  | 0 => []
  | len + 1 => data pos :: bytesAt data (pos + 1) len

def dnamePktCopyLoop (data : Nat → UInt8) (limit : Nat) : Nat → Nat → Nat → Nat → List UInt8
  | 0, _, _, _ => []
  | fuel + 1, dname, comprcount, len =>
    let lablen := data dname
    if lablen = 0 then [0]
    else if labelIsPtr lablen then
      if comprcount > 256 then [0]
      else if ptrOffset lablen (data (dname + 1)) ≥ limit then []
      else dnamePktCopyLoop data limit fuel (ptrOffset lablen (data (dname + 1)))
        (comprcount + 1) len
    else if lablen.toNat > 63 then [0]
    else
      let len' := len + (lablen.toNat + 1)
      if len' ≥ 255 then [0]
      else lablen :: bytesAt data (dname + 1) lablen.toNat ++
        dnamePktCopyLoop data limit fuel (dname + 1 + lablen.toNat) comprcount len'

/-- `dname_pkt_copy`: the octets written for the name at offset `dname` of the packet. -/
def dnamePktCopy (pkt : Sbuffer) (dname : Nat) : List UInt8 :=
  dnamePktCopyLoop pkt.data pkt.limit nameRounds dname 0 0

end

open List

def wireLabels : Name → List UInt8
  | [] => []
  | l :: n => l.length.toUInt8 :: l ++ wireLabels n

theorem wire_eq : wire n = wireLabels n ++ [0] := by
  induction n with
  | nil => rfl
  | cons l n ih => simp only [wire, wireLabels, ih, cons_append, append_assoc]

theorem length_wireLabels : (wireLabels n).length + 1 = wireLen n := by
  have h := length_wire n
  rw [wire_eq, length_append] at h
  exact h

theorem wireLabels_append : wireLabels (n ++ m) = wireLabels n ++ wireLabels m := by
  induction n with
  | nil => rfl
  | cons l n ih => simp only [cons_append, wireLabels, ih, append_assoc]

/-- A name stands at an offset, in octets of `F`, with the pointers followed and the offset behind
it. -/
inductive NameAt (F : Nat → Prop) (data : Nat → UInt8) : Nat → Name → Nat → Nat → Prop
  | root {pos : Nat} : F pos → data pos = 0 → NameAt F data pos [] 0 (pos + 1)
  | label {pos hops next : Nat} {l : Label} {n : Name} : 0 < l.length → l.length ≤ 63 →
      Holds F data pos (l.length.toUInt8 :: l) → NameAt F data (pos + (l.length + 1)) n hops next →
      NameAt F data pos (l :: n) hops next
  | pointer {pos target hops next : Nat} {n : Name} : target ≤ 0x3fff →
      Holds F data pos (u16Bytes (ptrCreate target)) → NameAt F data target n hops next →
      NameAt F data pos n (hops + 1) (pos + 2)

variable {F G : Nat → Prop} {data data' : Nat → UInt8} {pos hops next : Nat} {n m : Name}

theorem NameAt.mono (h : ∀ i, F i → G i ∧ data' i = data i) (hn : NameAt F data pos n hops next) :
    NameAt G data' pos n hops next := by
  induction hn with
  | root hF hd => exact .root (h _ hF).1 ((h _ hF).2.trans hd)
  | label h0 h63 hl _ ih => exact .label h0 h63 (hl.mono h) ih
  | pointer ht hp _ ih => exact .pointer ht (hp.mono h) ih

theorem NameAt.labels (hv : ∀ l ∈ n, 0 < l.length ∧ l.length ≤ 63)
    (hn : Holds F data pos (wireLabels n))
    (hm : NameAt F data (pos + (wireLabels n).length) m hops next) :
    NameAt F data pos (n ++ m) hops next := by
  induction n generalizing pos with
  | nil => exact hm
  | cons l n ih =>
    obtain ⟨h0, h63⟩ := hv l mem_cons_self
    obtain ⟨hl, hr⟩ := holds_append.1 hn
    refine .label h0 h63 hl (ih (forall_mem_cons.1 hv).2 hr ?_)
    have hlen : pos + (l.length + 1) + (wireLabels n).length =
        pos + (wireLabels (l :: n)).length := by
      simp only [wireLabels, cons_append, length_cons, length_append]
      omega
    rwa [hlen]

theorem ValidName.labels (h : ValidName n) : ∀ l ∈ n, 0 < l.length ∧ l.length ≤ 63 :=
  fun l hl => ⟨h.label_pos l hl, h.label_le l hl⟩

theorem NameAt.lt_next (hn : NameAt F data pos n hops next) : pos < next := by
  induction hn with
  | root => omega
  | label _ _ _ _ ih => omega
  | pointer => omega

theorem bytesAt_of_holds (h : Holds F data pos xs) : bytesAt data pos xs.length = xs := by
  induction xs generalizing pos with
  | nil => rfl
  | cons x xs ih => rw [length_cons, bytesAt, h.2.1, ih h.2.2]

@[simp] theorem length_bytesAt (data : Nat → UInt8) (pos len : Nat) :
    (bytesAt data pos len).length = len := by
  induction len generalizing pos with
  | zero => rfl
  | succ len ih => rw [bytesAt, length_cons, ih]

theorem bytesAt_add :
    bytesAt data pos (len + len') = bytesAt data pos len ++ bytesAt data (pos + len) len' := by
  induction len generalizing pos with
  | zero => rw [Nat.zero_add]; rfl
  | succ len ih =>
    rw [Nat.succ_add, bytesAt, bytesAt, ih, Nat.add_assoc, Nat.add_comm 1 len]
    rfl

theorem bytesAt_congr (h : ∀ i, pos ≤ i → i < pos + len → data i = data' i) :
    bytesAt data pos len = bytesAt data' pos len := by
  induction len generalizing pos with
  | zero => rfl
  | succ len ih =>
    rw [bytesAt, bytesAt, h pos le_rfl (by omega), ih fun i h1 h2 => h i (by omega) (by omega)]

theorem take_bytesAt (data : Nat → UInt8) {pos len n : Nat} (h : n ≤ len) :
    (bytesAt data pos len).take n = bytesAt data pos n := by
  obtain ⟨k, rfl⟩ := Nat.exists_eq_add_of_le h
  rw [bytesAt_add, take_left' (length_bytesAt _ _ _)]

theorem drop_bytesAt (data : Nat → UInt8) {pos len n : Nat} (h : n ≤ len) :
    (bytesAt data pos len).drop n = bytesAt data (pos + n) (len - n) := by
  obtain ⟨k, rfl⟩ := Nat.exists_eq_add_of_le h
  rw [bytesAt_add, drop_left' (length_bytesAt _ _ _), Nat.add_sub_cancel_left]

theorem bytesAt_blit (data : Nat → UInt8) (pos : Nat) (xs : List UInt8) :
    bytesAt (blit data pos xs) pos xs.length = xs :=
  bytesAt_of_holds (F := fun _ => True) (holds_blit fun _ _ _ => trivial)

theorem NameAt.start_mem (h : NameAt F data pos n hops next) : F pos := by
  cases h with
  | root h _ => exact h
  | label _ _ h _ => exact h.1
  | pointer _ h _ => exact h.1

theorem root_octet (hz : x = 0) : ¬ labelIsPtr x = true := by
  rw [hz]
  decide

theorem label_octet (h0 : 0 < l.length) (h63 : l.length ≤ 63)
    (hl : Holds F data pos (l.length.toUInt8 :: l)) :
    data pos ≠ 0 ∧ ¬ labelIsPtr (data pos) = true ∧ (data pos).toNat = l.length := by
  rw [hl.2.1]
  obtain ⟨hb, hz⟩ := length_octet ⟨h0, h63⟩
  refine ⟨hz, ?_, hb⟩
  rw [labelIsPtr_of_le h63]
  exact Bool.false_ne_true

theorem pointer_octets (ht : target ≤ 0x3fff)
    (hp : Holds F data pos (u16Bytes (ptrCreate target))) :
    data pos ≠ 0 ∧ labelIsPtr (data pos) = true ∧
      ptrOffset (data pos) (data (pos + 1)) = target := by
  rw [hp.2.1, hp.2.2.2.1]
  have hptr := labelIsPtr_ptrCreate ht
  refine ⟨fun h0 => ?_, hptr, ptrOffset_ptrCreate ht⟩
  rw [h0] at hptr
  exact absurd hptr (by decide)

section
variable (hF : ∀ i, F i → i < limit) (hn : NameAt F data pos n hops next)
  (hfuel : n.length + hops < fuel) (hlen : len + wireLen n ≤ 255)

include hF hn hfuel hlen

theorem pktDnameLenLoop_of_nameAt (hptr : ptrcount + hops ≤ 257) :
    pktDnameLenLoop data limit fuel pos len ptrcount endpos =
      (len + wireLen n, if endpos = 0 then next else endpos) := by
  induction fuel generalizing pos n hops next len ptrcount endpos with
  | zero => omega
  | succ fuel ih =>
    have hlt := hF pos hn.start_mem
    rw [pktDnameLenLoop, if_neg (by omega)]
    cases hn with
    | root hp hz =>
      simp only [wireLen] at hlen ⊢
      rw [if_neg (root_octet hz), hz, if_neg (by decide), if_neg (by simpa using hlen)]
      rfl
    | @label _ _ _ l n h0 h63 hl hn =>
      obtain ⟨hne, hnp, hb⟩ := label_octet h0 h63 hl
      have hend := Holds.end_le hF hl (by simp)
      simp only [length_cons, wireLen] at hend hfuel hlen ⊢
      rw [if_neg hnp]
      simp only [hb]
      rw [if_neg (by omega), if_neg (by omega), if_neg (by omega), if_neg (by omega),
        show pos + 1 + l.length = pos + (l.length + 1) by omega,
        ih hn (by omega) (by omega) hptr]
      congr 1
      omega
    | pointer ht hp hn =>
      obtain ⟨-, hip, hoff⟩ := pointer_octets ht hp
      have hend := Holds.end_le hF hp (by simp)
      have hlt := hF _ hn.start_mem
      rw [length_u16Bytes] at hend
      rw [if_pos hip]
      simp only [hoff]
      rw [if_neg (by omega), if_neg (by omega), if_neg (by omega), ih hn (by omega) hlen (by omega)]
      congr 1
      split
      · rw [if_neg (by omega)]
      · rfl

theorem dnamePktCopyLoop_of_nameAt (hptr : comprcount + hops ≤ 257) :
    dnamePktCopyLoop data limit fuel pos comprcount len = wire n := by
  induction fuel generalizing pos n hops next len comprcount with
  | zero => omega
  | succ fuel ih =>
    rw [dnamePktCopyLoop]
    cases hn with
    | root hp hz =>
      rw [hz, if_pos rfl]
      rfl
    | @label _ _ _ l n h0 h63 hl hn =>
      obtain ⟨hne, hnp, hb⟩ := label_octet h0 h63 hl
      have hpos := wireLen_pos n
      simp only [length_cons, wireLen] at hfuel hlen
      rw [if_neg hne, if_neg hnp]
      simp only [hb]
      rw [if_neg (by omega), if_neg (by omega), bytesAt_of_holds hl.2.2, hl.2.1,
        show pos + 1 + l.length = pos + (l.length + 1) by omega,
        ih hn (by omega) (by omega) hptr, wire]
    | pointer ht hp hn =>
      obtain ⟨hne, hip, hoff⟩ := pointer_octets ht hp
      have hlt := hF _ hn.start_mem
      rw [if_neg hne, if_pos hip]
      simp only [hoff]
      rw [if_neg (by omega), if_neg (by omega), ih hn (by omega) hlen (by omega)]

end

/-- A name of at most 255 octets behind at most 257 pointers is read back by both readers. -/
theorem pktDnameLen_of_nameAt (pkt : Sbuffer) (hF : ∀ i, F i → i < pkt.limit)
    (hn : NameAt F pkt.data pkt.position n hops next) (hlen : wireLen n ≤ 255)
    (hlab : n.length ≤ 127) (hptr : hops ≤ 257) :
    pktDnameLen pkt = (wireLen n, { pkt with position := next }) := by
  rw [pktDnameLen, pktDnameLenLoop_of_nameAt hF hn (by unfold nameRounds; omega) (by omega)
    (by omega)]
  simp

theorem dnamePktCopy_of_nameAt (hF : ∀ i, F i → i < pkt.limit)
    (hn : NameAt F pkt.data pos n hops next) (hlen : wireLen n ≤ 255) (hlab : n.length ≤ 127)
    (hptr : hops ≤ 257) : dnamePktCopy pkt pos = wire n :=
  dnamePktCopyLoop_of_nameAt hF hn (by unfold nameRounds; omega) (by omega) (by omega)

end

def dnamePktCompareLoop (data : Nat → UInt8) (limit : Nat) : Nat → Nat → Nat → Nat → Nat → Ordering
  | 0, _, _, _, _ => .lt
  | fuel + 1, d1, d2, count1, count2 =>
    let len1 := data d1
    let len2 := data d2
    if len1 = 0 ∧ len2 = 0 then .eq
    else if labelIsPtr len1 then
      if ptrOffset len1 (data (d1 + 1)) ≥ limit then .lt
      else if count1 > 256 then .lt
      else dnamePktCompareLoop data limit fuel (ptrOffset len1 (data (d1 + 1))) d2 (count1 + 1)
        count2
    else if labelIsPtr len2 then
      if ptrOffset len2 (data (d2 + 1)) ≥ limit then .gt
      else if count2 > 256 then .gt
      else dnamePktCompareLoop data limit fuel d1 (ptrOffset len2 (data (d2 + 1))) count1
        (count2 + 1)
    else if len1 ≠ len2 then
      if len1 < len2 then .lt else .gt
    else
      match memlowercmp (bytesAt data (d1 + 1) len1.toNat) (bytesAt data (d2 + 1) len1.toNat)
        len1.toNat with
      | .eq => dnamePktCompareLoop data limit fuel (d1 + 1 + len1.toNat) (d2 + 1 + len1.toNat)
        count1 count2
      | c => c

/-- `dname_pkt_compare`; two names that `pkt_dname_len` accepts do not use up the rounds. -/
def dnamePktCompare (pkt : Sbuffer) (d1 d2 : Nat) : Ordering :=
  dnamePktCompareLoop pkt.data pkt.limit (nameRounds + nameRounds) d1 d2 0 0

def dnamePktHashLoop (hashlittle : List UInt8 → UInt32 → UInt32) (data : Nat → UInt8)
    (limit : Nat) : Nat → Nat → Nat → UInt32 → UInt32
  | 0, _, _, h => h
  | fuel + 1, dname, count, h =>
    let lablen := data dname
    if lablen = 0 then h
    else if labelIsPtr lablen then
      if ptrOffset lablen (data (dname + 1)) ≥ limit then h
      else if count > 256 then h
      else dnamePktHashLoop hashlittle data limit fuel (ptrOffset lablen (data (dname + 1)))
        (count + 1) h
    else dnamePktHashLoop hashlittle data limit fuel (dname + 1 + lablen.toNat) count
      (hashlittle (lablen :: (bytesAt data (dname + 1) lablen.toNat).map tolower) h)

def dnamePktHash (hashlittle : List UInt8 → UInt32 → UInt32) (pkt : Sbuffer) (dname : Nat)
    (h : UInt32) : UInt32 := dnamePktHashLoop hashlittle pkt.data pkt.limit nameRounds dname 0 h

def dnameQueryHash (hashlittle : List UInt8 → UInt32 → UInt32) : Name → UInt32 → UInt32
  | [], h => h
  | l :: n, h => dnameQueryHash hashlittle n (hashlittle (l.length.toUInt8 :: l.map tolower) h)

theorem dnameQueryHash_lower :
    dnameQueryHash f n h = (lowerName n).foldl (fun h l => f (l.length.toUInt8 :: l) h) h := by
  induction n generalizing h with
  | nil => rfl
  | cons l n ih => simp [dnameQueryHash, ih, lowerName, lowerLabel]

/-- Names equal up to case have one hash. -/
theorem dname_query_hash_of_compare (h : queryDnameCompare a b = .eq) :
    dnameQueryHash hashlittle a s = dnameQueryHash hashlittle b s := by
  rw [dnameQueryHash_lower, (queryDnameCompare_eq_iff _ _).1 h, dnameQueryHash_lower]

theorem dname_query_hash_of_compare_letters :
    dnameQueryHash (fun l _ => l.sum.toUInt32) [[65]] 0 = 98 :=
  dname_query_hash_of_compare (b := [[97]]) (by decide)

theorem ptrOffset_eq : ptrOffset x y = (x &&& 0x3f).toNat * 256 + y.toNat := by
  rw [ptrOffset, ← Nat.shiftLeft_add_eq_or_of_lt y.toNat_lt, Nat.shiftLeft_eq]

theorem labelIsPtr_octet : ∀ x : UInt8, labelIsPtr x = true →
    x.toNat = 0xc0 + (x &&& 0x3f).toNat ∧ (x &&& 0x3f).toNat < 64 :=
  forall_octet (by decide +kernel)

theorem ptrOffset_le (h : labelIsPtr x = true) : ptrOffset x y ≤ 0x3fff := by
  have := (labelIsPtr_octet x h).2
  have := y.toNat_lt
  rw [ptrOffset_eq]
  omega

theorem u16Bytes_ptrOffset (h : labelIsPtr x = true) :
    u16Bytes (ptrCreate (ptrOffset x y)) = [x, y] := by
  obtain ⟨hx, hlt⟩ := labelIsPtr_octet x h
  have hy := y.toNat_lt
  have hval : ptrCreate (ptrOffset x y) = x.toNat * 256 + y.toNat := by
    rw [ptrCreate_eq (ptrOffset_le h), ptrOffset_eq]
    omega
  have hhi : (x.toNat * 256 + y.toNat) / 256 = x.toNat := by omega
  have hlo : (x.toNat * 256 + y.toNat).toUInt8 = y := by
    rw [← UInt8.toNat_inj, Nat.toUInt8, UInt8.toNat_ofNat']
    omega
  rw [u16Bytes, hval, hhi, hlo]
  exact congrArg (· :: [y]) UInt8.ofNat_toNat

theorem holds_bytesAt (h : ∀ i, pos ≤ i → i < pos + len → F i) :
    Holds F data pos (bytesAt data pos len) := by
  induction len generalizing pos with
  | zero => trivial
  | succ len ih =>
    exact ⟨h pos le_rfl (by omega), rfl, ih fun i h1 h2 => h i (by omega) (by omega)⟩

/-- What `pkt_dname_len` measures is a name. -/
def Measured (data : Nat → UInt8) (limit pos len ptrcount : Nat) (r : Nat × Nat) : Prop :=
  r.1 ≠ 0 → ∃ n hops next, NameAt (· < limit) data pos n hops next ∧ r.1 = len + wireLen n ∧
    len + wireLen n ≤ 255 ∧ ptrcount + hops ≤ 257

theorem Measured.zero : Measured data limit pos len ptrcount (0, x) := fun h => absurd rfl h

theorem Measured.pointer {data : Nat → UInt8} (hpos : pos + 1 < limit)
    (hp : labelIsPtr (data pos) = true)
    (h : Measured data limit (ptrOffset (data pos) (data (pos + 1))) len (ptrcount + 1) r) :
    Measured data limit pos len ptrcount r := by
  intro h0
  obtain ⟨n, hops, next, hn, hr, hlen, hhops⟩ := h h0
  have hholds : Holds (· < limit) data pos
      (u16Bytes (ptrCreate (ptrOffset (data pos) (data (pos + 1))))) := by
    rw [u16Bytes_ptrOffset hp]
    exact ⟨by omega, rfl, hpos, rfl, trivial⟩
  exact ⟨n, hops + 1, pos + 2, .pointer (ptrOffset_le hp) hholds hn, hr, hlen, by omega⟩

theorem Measured.label {data : Nat → UInt8} (hpos : pos + (data pos).toNat < limit)
    (h0 : (data pos).toNat ≠ 0) (h63 : (data pos).toNat ≤ 63)
    (h : Measured data limit (pos + 1 + (data pos).toNat) (len + (1 + (data pos).toNat)) ptrcount
      r) : Measured data limit pos len ptrcount r := by
  intro hr0
  obtain ⟨n, hops, next, hn, hr, hlen, hhops⟩ := h hr0
  have hb := length_bytesAt data (pos + 1) (data pos).toNat
  have hholds : Holds (· < limit) data pos
      ((bytesAt data (pos + 1) (data pos).toNat).length.toUInt8 ::
        bytesAt data (pos + 1) (data pos).toNat) := by
    rw [hb, show (data pos).toNat.toUInt8 = data pos from UInt8.ofNat_toNat]
    exact ⟨by omega, rfl, holds_bytesAt fun i h1 h2 => by omega⟩
  have hwire : wireLen (bytesAt data (pos + 1) (data pos).toNat :: n) =
      1 + (data pos).toNat + wireLen n := by
    rw [wireLen, hb]
    omega
  refine ⟨bytesAt data (pos + 1) (data pos).toNat :: n, hops, next,
    .label (by omega) (by omega) hholds ?_, by omega, by omega, hhops⟩
  rwa [hb, show pos + ((data pos).toNat + 1) = pos + 1 + (data pos).toNat by omega]

theorem pktDnameLenLoop_measured (hptr : ptrcount ≤ 257) :
    Measured data limit pos len ptrcount
      (pktDnameLenLoop data limit fuel pos len ptrcount endpos) := by
  induction fuel generalizing pos len ptrcount endpos with
  | zero => exact .zero
  | succ fuel ih =>
    rw [pktDnameLenLoop]
    split
    case isTrue => exact .zero
    dsimp only
    split
    case isTrue hp =>
      split
      case isTrue => exact .zero
      split
      case isTrue => exact .zero
      split
      case isTrue => exact .zero
      exact .pointer (by omega) hp (ih (by omega))
    split
    case isTrue => exact .zero
    split
    case isTrue => exact .zero
    split
    case isTrue hpos _ _ hlen hz =>
      intro _
      refine ⟨[], 0, pos + 1, .root (by omega) (UInt8.toNat_inj.1 hz), ?_, ?_, hptr⟩ <;>
        simp only [wireLen] <;> omega
    split
    case isTrue => exact .zero
    exact .label (by omega) (by omega) (by omega) (ih hptr)

theorem NameAt.labels_ok (h : NameAt F data pos n hops next) :
    ∀ l ∈ n, 0 < l.length ∧ l.length ≤ 63 := by
  induction h with
  | root => exact nofun
  | label h0 h63 _ _ ih => exact List.forall_mem_cons.2 ⟨⟨h0, h63⟩, ih⟩
  | pointer _ _ _ ih => exact ih

theorem dnamePktHashLoop_of_nameAt (hF : ∀ i, F i → i < limit) (hn : NameAt F data d n hops next)
    (hcount : count + hops ≤ 257) (hfuel : n.length + hops < fuel) :
    dnamePktHashLoop hashlittle data limit fuel d count h = dnameQueryHash hashlittle n h := by
  induction fuel generalizing d n hops next count h with
  | zero => omega
  | succ fuel ih =>
    rw [dnamePktHashLoop]
    cases hn with
    | root hp hz =>
      rw [if_pos hz]
      rfl
    | label h0 h63 hl hn =>
      obtain ⟨hne, hnp, hb⟩ := label_octet h0 h63 hl
      rw [List.length_cons] at hfuel
      rw [if_neg hne, if_neg hnp, hb, bytesAt_of_holds hl.2.2, hl.2.1, Nat.add_right_comm,
        Nat.add_assoc, ih hn hcount (by omega), dnameQueryHash]
    | pointer ht hp hn =>
      obtain ⟨hne, hptr, hoff⟩ := pointer_octets ht hp
      have hlt := hF _ hn.start_mem
      rw [if_neg hne, if_pos hptr, hoff, if_neg (by omega), if_neg (by omega)]
      exact ih hn (by omega) (by omega)

theorem dnamePktCompareLoop_of_nameAt (hF : ∀ i, F i → i < limit)
    (hn : NameAt F data d1 n hops1 next1) (hm : NameAt F data d2 m hops2 next2)
    (h1 : count1 + hops1 ≤ 257) (h2 : count2 + hops2 ≤ 257)
    (hfuel : n.length + hops1 + (m.length + hops2) < fuel) :
    dnamePktCompareLoop data limit fuel d1 d2 count1 count2 = queryDnameCompare n m := by
  induction fuel generalizing d1 d2 hops1 hops2 next1 next2 n m count1 count2 with
  | zero => omega
  | succ fuel ih =>
    rw [dnamePktCompareLoop]
    cases hn with
    | pointer ht hp hn =>
      obtain ⟨hne, hptr, hoff⟩ := pointer_octets ht hp
      have hlt := hF _ hn.start_mem
      rw [if_neg fun h => hne h.1, if_pos hptr, hoff, if_neg (by omega), if_neg (by omega)]
      exact ih hn hm (by omega) h2 (by omega)
    | root hp hz =>
      cases hm with
      | root hp' hz' => exact if_pos ⟨hz, hz'⟩
      | pointer ht hp' hm =>
        obtain ⟨hne, hptr, hoff⟩ := pointer_octets ht hp'
        have hlt := hF _ hm.start_mem
        rw [if_neg fun h => hne h.2, if_neg (root_octet hz), if_pos hptr, hoff, if_neg (by omega),
          if_neg (by omega)]
        exact ih (.root hp hz) hm h1 (by omega) (by omega)
      | label h0 h63 hl hm =>
        obtain ⟨hne, hnp, hb⟩ := label_octet h0 h63 hl
        have hlt : data d1 < data d2 := by
          rw [UInt8.lt_iff_toNat_lt, hz, hb]
          exact h0
        rw [if_neg fun h => hne h.2, if_neg (root_octet hz), if_neg hnp, if_pos (hz ▸ hne.symm),
          if_pos hlt]
        rfl
    | @label _ _ _ l n h0 h63 hl hn =>
      obtain ⟨hne, hnp, hb⟩ := label_octet h0 h63 hl
      rw [if_neg fun h => hne h.1, if_neg hnp]
      cases hm with
      | pointer ht hp' hm =>
        obtain ⟨-, hptr, hoff⟩ := pointer_octets ht hp'
        have hlt := hF _ hm.start_mem
        rw [if_pos hptr, hoff, if_neg (by omega), if_neg (by omega)]
        exact ih (.label h0 h63 hl hn) hm h1 (by omega) (by omega)
      | root hp' hz' =>
        have hlt : ¬ data d1 < data d2 := by
          rw [UInt8.lt_iff_toNat_lt, hz']
          exact Nat.not_lt_zero _
        rw [if_neg (root_octet hz'), if_pos (hz' ▸ hne), if_neg hlt]
        rfl
      | @label _ _ _ l' m h0' h63' hl' hm =>
        obtain ⟨-, hnp', hb'⟩ := label_octet h0' h63' hl'
        have heq : data d1 = data d2 ↔ l.length = l'.length := by
          rw [← UInt8.toNat_inj, hb, hb']
        rw [if_neg hnp', queryDnameCompare]
        simp only [ne_eq, heq, UInt8.lt_iff_toNat_lt, hb, hb']
        split
        case isTrue => rfl
        case isFalse hlen =>
          have hlen := not_not.1 hlen
          rw [List.length_cons, List.length_cons] at hfuel
          have hrest := ih hn hm h1 h2 (by omega)
          have hbytes := bytesAt_of_holds hl'.2.2
          rw [← hlen] at hrest hbytes
          rw [bytesAt_of_holds hl.2.2, hbytes, Nat.add_assoc d1, Nat.add_comm 1, Nat.add_assoc d2,
            Nat.add_comm 1]
          cases memlowercmp l l' l.length with
          | eq => exact hrest
          | lt => rfl
          | gt => rfl

/-- A name that `pkt_dname_len` accepts at an offset. -/
def PktName (pkt : Sbuffer) (d : Nat) (n : Name) : Prop :=
  ValidName n ∧ ∃ hops next, NameAt (· < pkt.limit) pkt.data d n hops next ∧ hops ≤ 257

theorem exists_pktName (h : 0 < (pktDnameLen (pkt.setPosition d)).1) :
    ∃ n, PktName pkt d n ∧ (pktDnameLen (pkt.setPosition d)).1 = wireLen n := by
  obtain ⟨n, hops, next, hn, hr, hlen, hh⟩ :=
    pktDnameLenLoop_measured (Nat.zero_le _) (Nat.ne_of_gt h)
  have hl := hn.labels_ok
  have hv : ValidName n := ⟨fun l h => (hl l h).1, fun l h => (hl l h).2, by omega⟩
  exact ⟨n, ⟨hv, hops, next, hn, by omega⟩, hr.trans (Nat.zero_add _)⟩

theorem PktName.copy_eq (h : PktName pkt d n) : dnamePktCopy pkt d = wire n := by
  obtain ⟨hv, hops, next, hn, hh⟩ := h
  exact dnamePktCopy_of_nameAt (fun _ hi => hi) hn hv.len_le hv.length_le hh

theorem PktName.nameAt_copy (h : PktName pkt d n) : nameAt (dnamePktCopy pkt d) = n := by
  have hw := nameAt_wire h.1 []
  rwa [List.append_nil, ← h.copy_eq] at hw

/-- The readers of names in a packet take the same name from an offset that `pkt_dname_len` accepts.
-/
theorem pkt_dname_readers_agree (hashlittle : List UInt8 → UInt32 → UInt32) (pkt : Sbuffer)
    (d : Nat) (hd : 0 < (pktDnameLen (pkt.setPosition d)).1) :
    (∃ n, ValidName n ∧ dnamePktCopy pkt d = wire n ∧
      (dnamePktCopy pkt d).length = (pktDnameLen (pkt.setPosition d)).1) ∧
    (∀ h, dnamePktHash hashlittle pkt d h =
      dnameQueryHash hashlittle (nameAt (dnamePktCopy pkt d)) h) ∧
    ∀ e, 0 < (pktDnameLen (pkt.setPosition e)).1 → dnamePktCompare pkt d e =
      queryDnameCompare (nameAt (dnamePktCopy pkt d)) (nameAt (dnamePktCopy pkt e)) := by
  obtain ⟨n, hn, hlen⟩ := exists_pktName hd
  obtain ⟨hv, hops, next, hat, hhops⟩ := id hn
  have hlabels := hv.length_le
  refine ⟨⟨n, hv, hn.copy_eq, by rw [hn.copy_eq, length_wire, hlen]⟩, ?_, ?_⟩
  · intro h
    rw [hn.nameAt_copy]
    exact dnamePktHashLoop_of_nameAt (fun _ hi => hi) hat (by omega) (by unfold nameRounds; omega)
  · intro e he
    obtain ⟨m, hm, -⟩ := exists_pktName he
    rw [hn.nameAt_copy, hm.nameAt_copy]
    obtain ⟨hv', hops', next', hat', hhops'⟩ := hm
    have hlabels' := hv'.length_le
    exact dnamePktCompareLoop_of_nameAt (fun _ hi => hi) hat hat' (by omega) (by omega)
      (by unfold nameRounds; omega)

def pointerPkt : Sbuffer :=
  ⟨blit (fun _ => 0) 0 [1, 97, 0, 1, 66, 0xc0, 0], 0, 7, 7, 7⟩

theorem pkt_dname_readers_agree_pointer :
    (∃ n, ValidName n ∧ dnamePktCopy pointerPkt 3 = wire n ∧
      (dnamePktCopy pointerPkt 3).length = (pktDnameLen (pointerPkt.setPosition 3)).1) ∧
    (∀ h, dnamePktHash (fun bytes h => bytes.foldl (fun h b => h + b.toUInt32) h) pointerPkt 3 h =
      dnameQueryHash (fun bytes h => bytes.foldl (fun h b => h + b.toUInt32) h)
        (nameAt (dnamePktCopy pointerPkt 3)) h) ∧
    ∀ e, 0 < (pktDnameLen (pointerPkt.setPosition e)).1 → dnamePktCompare pointerPkt 3 e =
      queryDnameCompare (nameAt (dnamePktCopy pointerPkt 3)) (nameAt (dnamePktCopy pointerPkt e)) :=
  pkt_dname_readers_agree _ pointerPkt 3 (by decide +kernel)

open List

/-- The loop of `pkt_dname_len` with the offsets that it reads, for a number of rounds. -/
def pktDnameLenTrace (data : Nat → UInt8) (limit : Nat) :
    Nat → Nat → Nat → Nat → Nat → Option ((Nat × Nat) × List Nat)
  | 0, _, _, _, _ => none
  | fuel + 1, pos, len, ptrcount, endpos =>
    if limit - pos < 1 then some ((0, pos), [])
    else
      let labellen := data pos
      if labelIsPtr labellen then
        if limit - (pos + 1) < 1 then some ((0, pos + 1), [pos])
        else
          let ptr := ptrOffset labellen (data (pos + 1))
          if ptrcount > 256 then some ((0, pos + 2), [pos, pos + 1])
          else if limit ≤ ptr then some ((0, pos + 2), [pos, pos + 1])
          else (pktDnameLenTrace data limit fuel ptr len (ptrcount + 1)
            (if endpos = 0 then pos + 2 else endpos)).map (Prod.map id ([pos, pos + 1] ++ ·))
      else if labellen.toNat > 0x3f then some ((0, pos + 1), [pos])
      else
        let len' := len + (1 + labellen.toNat)
        if len' > 255 then some ((0, pos + 1), [pos])
        else if labellen.toNat = 0 then
          some ((len', if endpos = 0 then pos + 1 else endpos), [pos])
        else if limit - (pos + 1) < labellen.toNat then some ((0, pos + 1), [pos])
        else (pktDnameLenTrace data limit fuel (pos + 1 + labellen.toNat) len' ptrcount endpos).map
          (Prod.map id ([pos] ++ ·))

/-- The walk ends with a result, and all that it reads is below the limit. -/
def ReadsBelow (limit : Nat) (t : Option ((Nat × Nat) × List Nat)) (r : Nat × Nat) : Prop :=
  ∃ reads, t = some (r, reads) ∧ ∀ i ∈ reads, i < limit

theorem ReadsBelow.ite {c : Prop} [Decidable c] (h1 : c → ReadsBelow limit t1 r1)
    (h2 : ¬ c → ReadsBelow limit t2 r2) :
    ReadsBelow limit (if c then t1 else t2) (if c then r1 else r2) := by
  by_cases hc : c
  · rw [if_pos hc, if_pos hc]
    exact h1 hc
  · rw [if_neg hc, if_neg hc]
    exact h2 hc

theorem ReadsBelow.prepend (h : ReadsBelow limit t r) (hx : ∀ i ∈ xs, i < limit) :
    ReadsBelow limit (t.map (Prod.map id (xs ++ ·))) r := by
  obtain ⟨reads, rfl, hreads⟩ := h
  exact ⟨xs ++ reads, rfl, forall_mem_append.2 ⟨hx, hreads⟩⟩

theorem pktDnameLenTrace_reads (hptr : ptrcount ≤ 257) (hlen : len ≤ 255)
    (hfuel : 257 - ptrcount + (255 - len) < fuel) :
    ReadsBelow limit (pktDnameLenTrace data limit fuel pos len ptrcount endpos)
      (pktDnameLenLoop data limit fuel pos len ptrcount endpos) := by
  -- every round follows one of 257 pointers or takes octets of a name of 255
  induction fuel generalizing pos len ptrcount endpos with
  | zero => omega
  | succ fuel ih =>
    refine .ite (fun _ => ⟨[], rfl, nofun⟩) fun h0 => ?_
    have hpos : ∀ i ∈ [pos], i < limit := by
      intro i hi
      rw [mem_singleton] at hi
      omega
    refine .ite (fun _ => ?_) fun _ => .ite (fun _ => ⟨_, rfl, hpos⟩) fun _ =>
      .ite (fun _ => ⟨_, rfl, hpos⟩) fun _ => .ite (fun _ => ⟨_, rfl, hpos⟩) fun _ =>
      .ite (fun _ => ⟨_, rfl, hpos⟩) fun _ => ?_
    · refine .ite (fun _ => ⟨_, rfl, hpos⟩) fun h1 => ?_
      have hpair : ∀ i ∈ [pos, pos + 1], i < limit :=
        forall_mem_cons.2 ⟨by omega, forall_mem_singleton.2 (by omega)⟩
      refine .ite (fun _ => ⟨_, rfl, hpair⟩) fun _ => .ite (fun _ => ⟨_, rfl, hpair⟩) fun _ => ?_
      exact (ih (by omega) hlen (by omega)).prepend hpair
    · exact (ih hptr (by omega) (by omega)).prepend hpos

/-- `pkt_dname_len` ends without reading behind the limit, and accepts names of at most 255 octets:
it gives the length of the uncompressed name and goes behind the name. -/
theorem pkt_dname_len_name (pkt : Sbuffer) :
    ReadsBelow pkt.limit (pktDnameLenTrace pkt.data pkt.limit nameRounds pkt.position 0 0 0)
      ((pktDnameLen pkt).1, (pktDnameLen pkt).2.position) ∧
    ((pktDnameLen pkt).1 = 0 ∨ 1 ≤ (pktDnameLen pkt).1 ∧ (pktDnameLen pkt).1 ≤ 255 ∧
      ∃ n hops, ValidName n ∧ (pktDnameLen pkt).1 = wireLen n ∧
        NameAt (· < pkt.limit) pkt.data pkt.position n hops (pktDnameLen pkt).2.position ∧
        dnamePktCopy pkt pkt.position = wire n) := by
  refine ⟨pktDnameLenTrace_reads (by omega) (by omega) (by decide), ?_⟩
  by_cases h : (pktDnameLen pkt).1 = 0
  · exact .inl h
  obtain ⟨n, hops, next, hn, -, hlen, hhops⟩ := pktDnameLenLoop_measured (Nat.zero_le _) h
  rw [Nat.zero_add] at hlen hhops
  have hl := hn.labels_ok
  have hv : ValidName n := ⟨fun l h => (hl l h).1, fun l h => (hl l h).2, hlen⟩
  rw [pktDnameLen_of_nameAt pkt (fun _ hi => hi) hn hlen hv.length_le hhops]
  exact .inr ⟨wireLen_pos n, hlen, n, hops, hv, rfl, hn,
    PktName.copy_eq ⟨hv, hops, next, hn, hhops⟩⟩

/-- The offsets that the loop of `dname_valid` reads. -/
def dnameValidLoopReads (maxlen : Nat) : Nat → Nat → List UInt8 → List Nat
  | 0, _, _ => []
  | fuel + 1, len, dname =>
    let labellen := peek dname
    len :: if labellen = 0 then []
    else if labellen &&& 0xc0 ≠ 0 then []
    else
      let len' := len + (labellen.toNat + 1)
      if len' ≥ 255 then []
      else if len' > maxlen then []
      else dnameValidLoopReads maxlen fuel len' (dname.tail.drop labellen.toNat)

def dnameValidReads (dname : List UInt8) (maxlen : Nat) : List Nat :=
  if maxlen = 0 then [] else dnameValidLoopReads maxlen 256 0 dname

theorem dnameValidLoopReads_cons :
    dnameValidLoopReads maxlen (fuel + 1) len (b :: bytes) =
      len :: if b = 0 then []
      else if b &&& 0xc0 ≠ 0 then []
      else if len + (b.toNat + 1) ≥ 255 then []
      else if len + (b.toNat + 1) > maxlen then []
      else dnameValidLoopReads maxlen fuel (len + (b.toNat + 1)) (bytes.drop b.toNat) := rfl

theorem dnameValidLoop_le : dnameValidLoop maxlen fuel len dname ≤ maxlen := by
  induction fuel generalizing len dname with
  | zero => exact Nat.zero_le _
  | succ fuel ih =>
    simp only [dnameValidLoop]
    split
    · split <;> omega
    split
    · exact Nat.zero_le _
    split
    · exact Nat.zero_le _
    split
    · exact Nat.zero_le _
    · exact ih

theorem dnameValid_eq_iff (h0 : 0 < n) :
    dnameValid (bytes ++ beyond) bytes.length = n ↔
      n ≤ bytes.length ∧ ∃ name, ValidName name ∧ bytes.take n = wire name := by
  constructor
  · intro h
    have hle : dnameValid (bytes ++ beyond) bytes.length ≤ bytes.length := by
      rw [dnameValid]
      split
      · exact Nat.zero_le _
      · exact dnameValidLoop_le
    have hlong : bytes.length ≤ (bytes ++ beyond).length := by
      rw [length_append]
      omega
    obtain ⟨name, rest, hv, hmem, hlen⟩ := dnameValid_name hlong (h ▸ Nat.ne_of_gt h0)
    rw [h] at hle hlen
    refine ⟨hle, name, hv, ?_⟩
    rw [← @take_append_of_le_length _ _ beyond _ hle, hmem, take_left' (by rw [length_wire, hlen])]
  · rintro ⟨hle, name, hv, htake⟩
    have hlen : wireLen name = n := by
      rw [← length_wire, ← htake, length_take_of_le hle]
    rw [← take_append_drop n bytes, htake, append_assoc, dnameValid_wire hv _ (by simp [hlen]), hlen]

theorem dnameValidLoopReads_out {bytes : List UInt8} (hmax : maxlen = len + bytes.length)
    (hlen : len ≤ 254) (hfuel : 254 - len < fuel) :
    (∃ i ∈ dnameValidLoopReads maxlen fuel len (bytes ++ beyond), maxlen ≤ i) ↔
      maxlen < 255 ∧ ∃ labels, (∀ l ∈ labels, 0 < l.length ∧ l.length ≤ 63) ∧
        bytes = wireLabels labels := by
  induction fuel generalizing len bytes with
  | zero => omega
  | succ fuel ih =>
    cases bytes with
    | nil =>
      rw [length_nil] at hmax
      exact iff_of_true ⟨len, mem_cons_self, by omega⟩ ⟨by omega, [], nofun, rfl⟩
    | cons b bytes =>
      rw [length_cons] at hmax
      have hfirst : ∀ xs, (∃ i ∈ len :: xs, maxlen ≤ i) ↔ ∃ i ∈ xs, maxlen ≤ i := by
        intro xs
        rw [exists_mem_cons_iff, or_iff_right (by omega)]
      -- a first label that fits sends the walk on, to the octets behind it
      have hlabel : (maxlen < 255 ∧ ∃ labels, (∀ l ∈ labels, 0 < l.length ∧ l.length ≤ 63) ∧
          b :: bytes = wireLabels labels) ↔ b ≠ 0 ∧ b &&& 0xc0 = 0 ∧ b.toNat ≤ bytes.length ∧
          maxlen < 255 ∧ ∃ labels, (∀ l ∈ labels, 0 < l.length ∧ l.length ≤ 63) ∧
            bytes.drop b.toNat = wireLabels labels := by
        constructor
        · rintro ⟨h255, _ | ⟨l, labels⟩, hok, heq⟩
          · cases heq
          obtain ⟨⟨h0, h63⟩, hok⟩ := forall_mem_cons.1 hok
          obtain ⟨rfl, rfl⟩ := cons.inj heq
          obtain ⟨hl, hz⟩ := length_octet ⟨h0, h63⟩
          rw [hl]
          exact ⟨hz, toUInt8_and_c0 h63, by simp, h255, labels, hok, by simp⟩
        · rintro ⟨hz, hc, hle, h255, labels, hok, heq⟩
          have hlen := length_take_of_le hle
          refine ⟨h255, bytes.take b.toNat :: labels, forall_mem_cons.2 ⟨?_, hok⟩, ?_⟩
          · rw [hlen]
            exact ⟨Nat.pos_of_ne_zero fun h => hz (UInt8.toNat_inj.1 h), toNat_le_of_and_c0 hc⟩
          · rw [wireLabels, hlen, ← heq, cons_append, take_append_drop]
            exact congrArg (· :: bytes) UInt8.ofNat_toNat.symm
      rw [hlabel, cons_append, dnameValidLoopReads_cons, hfirst]
      by_cases hz : b = 0
      · simp [hz]
      by_cases hc : b &&& 0xc0 ≠ 0
      · simp [hz, hc]
      rw [if_neg hz, if_neg hc]
      by_cases h255 : len + (b.toNat + 1) ≥ 255
      · simp
        omega
      by_cases hbig : len + (b.toNat + 1) > maxlen
      · simp
        omega
      have hle : b.toNat ≤ bytes.length := by omega
      rw [if_neg h255, if_neg hbig, drop_append_of_le_length hle,
        ih (by rw [length_drop]; omega) (by omega) (by omega)]
      simp [hz, not_not.1 hc, hle]

/-- `dname_valid` accepts the names that fit, and reads the octet behind the array just when labels
without a root label fill it. -/
theorem dname_valid_inside_iff (bytes beyond : List UInt8) :
    ((∀ i ∈ dnameValidReads (bytes ++ beyond) bytes.length, i < bytes.length) ∧
      ∀ n, 0 < n → (dnameValid (bytes ++ beyond) bytes.length = n ↔
        n ≤ bytes.length ∧ ∃ name, ValidName name ∧ bytes.take n = wire name)) ↔
    ¬ (bytes.length < 255 ∧ ∃ labels, labels ≠ [] ∧
      (∀ l ∈ labels, 0 < l.length ∧ l.length ≤ 63) ∧ bytes = wireLabels labels) := by
  rw [and_iff_left fun n => dnameValid_eq_iff, dnameValidReads]
  split
  case isTrue h0 =>
    refine iff_of_true nofun fun ⟨_, labels, hne, _, heq⟩ => ?_
    obtain ⟨l, n, rfl⟩ := exists_cons_of_ne_nil hne
    rw [length_eq_zero_iff.1 h0] at heq
    cases heq
  case isFalse h0 =>
    rw [← not_iff_not, not_not]
    push Not
    rw [dnameValidLoopReads_out (Nat.zero_add _).symm (by omega) (by omega)]
    refine and_congr_right fun _ => ⟨?_, ?_⟩
    · rintro ⟨labels, hok, heq⟩
      refine ⟨labels, fun hnil => ?_, hok, heq⟩
      rw [heq, hnil] at h0
      exact h0 rfl
    · rintro ⟨labels, -, hok, heq⟩
      exact ⟨labels, hok, heq⟩

theorem dname_valid_reads_behind :
    dnameValidReads [1, 97] 2 = [0, 2] ∧ ¬ ∀ i ∈ dnameValidReads [1, 97] 2, i < 2 := by
  decide +kernel

end CwdGate
