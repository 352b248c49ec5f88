import CwdGate.Packet.Sbuffer

namespace CwdGate.Services
open Lib List

def readOctet (data : Nat → UInt8) (limit pos : Nat) : Option UInt8 :=
  if pos < limit then some (data pos) else none

def readOctets (data : Nat → UInt8) (limit pos len : Nat) : Option (List UInt8) :=
  if pos + len ≤ limit then some (bytesAt data pos len) else none

/-- The loop of `serviced_check_qname`; none for a read behind an end, or without rounds left. -/
def servicedCheckQnameLoop (pkt : Sbuffer) (qbuf : Nat → UInt8) (qbuflen : Nat) :
    Nat → Nat → UInt8 → Nat → UInt8 → Nat → Option Bool
  | 0, _, _, _, _, _ => none
  | fuel + 1, d1, len1, d2, len2, count =>
    if len1 = 0 ∧ len2 = 0 then some true
    else if labelIsPtr len1 then
      if d1 ≥ pkt.limit then some false
      else
        (readOctet pkt.data pkt.limit d1).bind fun low =>
        if ptrOffset len1 low ≥ pkt.limit then some false
        else
          (readOctet pkt.data pkt.limit (ptrOffset len1 low)).bind fun len1' =>
          if count > 256 then some false
          else servicedCheckQnameLoop pkt qbuf qbuflen fuel (ptrOffset len1 low + 1) len1' d2 len2
            (count + 1)
    else if d2 > qbuflen then some false
    else if len1 ≠ len2 then some false
    else if len1.toNat > 63 then some false
    else if d1 + len1.toNat ≥ pkt.limit then some false
    else
      (readOctets pkt.data pkt.limit d1 len1.toNat).bind fun label1 =>
      (readOctets qbuf qbuflen d2 len1.toNat).bind fun label2 =>
      if label1 ≠ label2 then some false
      else
        (readOctet pkt.data pkt.limit (d1 + len1.toNat)).bind fun len1' =>
        (readOctet qbuf qbuflen (d2 + len2.toNat)).bind fun len2' =>
        servicedCheckQnameLoop pkt qbuf qbuflen fuel (d1 + len1.toNat + 1) len1'
          (d2 + len2.toNat + 1) len2' count

def servicedCheckQname (pkt : Sbuffer) (qbuf : Nat → UInt8) (qbuflen : Nat) : Option Bool :=
  if pkt.limit < 12 + 1 + 4 then some false
  else
    (readOctet pkt.data pkt.limit 12).bind fun len1 =>
    (readOctet qbuf qbuflen 10).bind fun len2 =>
    servicedCheckQnameLoop pkt qbuf qbuflen nameRounds 13 len1 11 len2 0

/-- A run ends with the truth of `p`. -/
def Answers (r : Option Bool) (p : Prop) : Prop := ∃ b, r = some b ∧ (b = true ↔ p)

theorem Answers.no (h : ¬ p) : Answers (some false) p := ⟨false, rfl, by simp [h]⟩

theorem Answers.ite {c : Prop} [Decidable c] (h1 : c → Answers t p) (h2 : ¬ c → Answers e p) :
    Answers (if c then t else e) p := by
  split
  · exact h1 ‹_›
  · exact h2 ‹_›

theorem Answers.bind (h : o = some x) (ha : Answers (f x) p) : Answers (o.bind f) p := by
  rwa [h]

variable {count : Nat}

theorem holds_wire_start (h : Holds (· < limit) data q (wire n)) : q < limit := by
  cases n with
  | nil => exact h.1
  | cons l n => exact h.1

/-- A name stands at an offset, within the pointers that are left. -/
def NameBehind (pkt : Sbuffer) (pos : Nat) (n : Name) (count : Nat) : Prop :=
  ∃ hops next, NameAt (· < pkt.limit) pkt.data pos n hops next ∧ count + hops ≤ 257

theorem NameBehind.lt_limit (h : NameBehind pkt pos n count) : pos < pkt.limit ∧ count ≤ 257 := by
  obtain ⟨hops, next, hn, hle⟩ := h
  exact ⟨hn.start_mem, by omega⟩

theorem nameBehind_pointer {pkt : Sbuffer} (hp : labelIsPtr (pkt.data pos) = true) :
    NameBehind pkt pos n count ↔ pos + 1 < pkt.limit ∧
      NameBehind pkt (ptrOffset (pkt.data pos) (pkt.data (pos + 1))) n (count + 1) := by
  constructor
  · rintro ⟨hops, next, hn, hle⟩
    cases hn with
    | root _ hz => exact absurd hp (root_octet hz)
    | label h0 h63 hl => exact absurd hp (label_octet h0 h63 hl).2.1
    | pointer ht hptr hn =>
      rw [(pointer_octets ht hptr).2.2]
      exact ⟨hptr.2.2.1, _, _, hn, by omega⟩
  · rintro ⟨hlt, hops, next, hn, hle⟩
    refine ⟨hops + 1, pos + 2, .pointer (ptrOffset_le hp) ?_ hn, by omega⟩
    rw [u16Bytes_ptrOffset hp]
    exact ⟨by omega, rfl, hlt, rfl, trivial⟩

theorem nameBehind_label (hp : ¬ labelIsPtr (pkt.data pos) = true) (h0 : 0 < l.length)
    (h63 : l.length ≤ 63) : NameBehind pkt pos (l :: n) count ↔
      Holds (· < pkt.limit) pkt.data pos (l.length.toUInt8 :: l) ∧
        NameBehind pkt (pos + (l.length + 1)) n count := by
  constructor
  · rintro ⟨hops, next, hn, hle⟩
    cases hn with
    | label _ _ hl hn => exact ⟨hl, hops, next, hn, hle⟩
    | pointer ht hptr => exact absurd (pointer_octets ht hptr).2.1 hp
  · rintro ⟨hl, hops, next, hn, hle⟩
    exact ⟨hops, next, .label h0 h63 hl hn, hle⟩

theorem servicedCheckQnameLoop_answers (hv : ∀ l ∈ n, 0 < l.length ∧ l.length ≤ 63)
    (hq : Holds (· < qbuflen) qbuf q (wire n)) (hpos : pos < pkt.limit) (hcount : count ≤ 257)
    (hfuel : n.length + (257 - count) < fuel) :
    Answers (servicedCheckQnameLoop pkt qbuf qbuflen fuel (pos + 1) (pkt.data pos) (q + 1) (qbuf q)
      count) (NameBehind pkt pos n count) := by
  induction fuel generalizing pos n q count with
  | zero => omega
  | succ fuel ih =>
    refine .ite (fun hz => ?_) fun hz => .ite (fun hp => ?_) fun hp => ?_
    · cases n with
      | nil => exact ⟨true, rfl, iff_of_true rfl ⟨0, _, .root hpos hz.1, hcount⟩⟩
      | cons l n => exact absurd (hq.2.1.symm.trans hz.2) (length_octet (hv l mem_cons_self)).2
    · rw [nameBehind_pointer hp]
      refine .ite (fun h => .no fun hn => by omega) fun h => .bind (if_pos (by omega)) ?_
      refine .ite (fun ht => .no fun hn => ?_) fun ht => .bind (if_pos (by omega)) ?_
      · exact ht.not_gt hn.2.lt_limit.1
      refine .ite (fun hc => .no fun hn => ?_) fun hc => ?_
      · have := hn.2.lt_limit.2
        omega
      rw [and_iff_right (by omega)]
      exact ih hv hq (by omega) (by omega) (by omega)
    cases n with
    | nil =>
      have hne : pkt.data pos ≠ qbuf q := fun h => hz ⟨h.trans hq.2.1, hq.2.1⟩
      have hno : ¬ NameBehind pkt pos [] count := by
        rintro ⟨hops, next, hn, hle⟩
        cases hn with
        | root _ h => exact hne (h.trans hq.2.1.symm)
        | pointer ht hptr => exact hp (pointer_octets ht hptr).2.1
      exact .ite (fun _ => .no hno) fun _ => .ite (fun _ => .no hno) fun h => absurd hne h
    | cons l n =>
      obtain ⟨h0, h63⟩ := hv l mem_cons_self
      obtain ⟨⟨hlt, hlen2, hl⟩, hqn⟩ := holds_append.1 hq
      have hb := (length_octet ⟨h0, h63⟩).1
      rw [length_cons, Nat.add_comm l.length, ← Nat.add_assoc] at hqn
      have hend := holds_wire_start hqn
      rw [nameBehind_label hp h0 h63, hlen2]
      refine .ite (fun h => by omega) fun _ => .ite (fun h => .no fun hn => h hn.1.2.1) fun heq => ?_
      have hlen1 := not_not.1 heq
      rw [hlen1, hb]
      refine .ite (fun h => by omega) fun _ => .ite (fun h => .no fun hn => ?_) fun hlim => ?_
      · have := hn.2.lt_limit.1
        omega
      refine .bind (if_pos (by omega)) (.bind (if_pos (by omega)) ?_)
      rw [bytesAt_of_holds hl]
      refine .ite (fun h => .no fun hn => h (bytesAt_of_holds hn.1.2.2)) fun hbytes => ?_
      refine .bind (if_pos (by omega)) (.bind (if_pos (by omega)) ?_)
      have hlabel : Holds (· < pkt.limit) pkt.data (pos + 1) l :=
        not_not.1 hbytes ▸ holds_bytesAt fun i h1 h2 => by omega
      rw [and_iff_right ⟨hpos, hlen1, hlabel⟩]
      rw [Nat.add_comm l.length, ← Nat.add_assoc]
      exact ih (forall_mem_cons.1 hv).2 hqn (by omega) hcount (by grind)

/-- `serviced_check_qname` reads inside both buffers and, in a packet of 17 octets or more, finds the
name that was sent, in the same case. -/
theorem serviced_check_qname_iff (pkt : Sbuffer) (hv : ValidName qname)
    (hq : Holds (· < qbuflen) qbuf 10 (wire qname)) :
    Answers (servicedCheckQname pkt qbuf qbuflen)
      (17 ≤ pkt.limit ∧ ∃ hops next, NameAt (· < pkt.limit) pkt.data 12 qname hops next ∧
        hops ≤ 256 + 1) := by
  refine .ite (fun h => .no (by omega)) fun h => .bind (if_pos (by omega)) ?_
  refine .bind (if_pos (holds_wire_start hq)) ?_
  have hrounds : qname.length + (257 - 0) < nameRounds := by
    have := hv.length_le
    unfold nameRounds
    omega
  have := servicedCheckQnameLoop_answers hv.labels hq (show 12 < pkt.limit by omega) (by omega) hrounds
  simpa only [and_iff_right (show 17 ≤ pkt.limit by omega), NameBehind, Nat.zero_add] using this

theorem serviced_check_qname_letter :
    Answers (servicedCheckQname ⟨blit (fun _ => 0) 12 [1, 97], 0, 19, 19, 19⟩
      (blit (fun _ => 0) 10 (wire [[97]])) 17) (17 ≤ 19 ∧ ∃ hops next,
      NameAt (· < 19) (blit (fun _ => 0) 12 [1, 97]) 12 [[97]] hops next ∧ hops ≤ 256 + 1) :=
  serviced_check_qname_iff ⟨blit (fun _ => 0) 12 [1, 97], 0, 19, 19, 19⟩
    ⟨by decide, by decide, by decide⟩ (holds_blit fun i _ h => Nat.lt_of_lt_of_le h (by decide))

/-- The root name stands in a packet that is too short. -/
theorem serviced_check_qname_short :
    servicedCheckQname ⟨fun _ => 0, 0, 13, 13, 13⟩ (fun _ => 0) 15 = some false ∧
      NameAt (· < 13) (fun _ => 0) 12 [] 0 13 := ⟨rfl, .root (by decide) rfl⟩

end CwdGate.Services
