import CwdGate.Validator.CanonicalForm

namespace CwdGate.Sigcrypt
open Lib List

/-- The walk of `query_dname_tolower` ends in the octets; `lablen` octets of a label are to go. -/
def endsInside : Nat → List UInt8 → Bool
  | _, [] => false
  | 0, b :: bs => if b = 0 then true else endsInside b.toNat bs
  | lablen + 1, _ :: bs => endsInside lablen bs

theorem endsInside_eq (lablen : Nat) : endsInside lablen bs = endsInside 0 (bs.drop lablen) := by
  induction bs generalizing lablen with
  | nil => cases lablen <;> rfl
  | cons b bs ih =>
    cases lablen with
    | zero => rfl
    | succ lablen => exact ih lablen

theorem endsInside_cons (hb : b ≠ 0) : endsInside 0 (b :: bs) = endsInside 0 (bs.drop b.toNat) := by
  rw [endsInside, if_neg hb, endsInside_eq]

theorem endsInside_bytesAt (h0 : data dname ≠ 0) :
    endsInside 0 (bytesAt data dname (n + 1)) =
      if (data dname).toNat ≤ n then
        endsInside 0 (bytesAt data (dname + 1 + (data dname).toNat) (n - (data dname).toNat))
      else false := by
  rw [bytesAt, endsInside_cons h0]
  split
  next hle => rw [drop_bytesAt _ hle]
  next hgt => rw [drop_of_length_le (by rw [length_bytesAt]; omega)]; rfl

theorem endsInside_lowerWalk : endsInside 0 (lowerWalk fuel 0 bs) = endsInside 0 bs := by
  induction fuel generalizing bs with
  | zero => rw [lowerWalk_zero]
  | succ fuel ih =>
    cases bs with
    | nil => rw [lowerWalk_nil]
    | cons b bs =>
      rw [lowerWalk]
      split
      · rfl
      next hb => rw [endsInside_cons hb, endsInside_cons hb, drop_lowerWalk, ih]

theorem endsInside_wire (hv : ∀ l ∈ n, 0 < l.length ∧ l.length ≤ 63) (rest : List UInt8) :
    endsInside 0 (wire n ++ rest) = true := by
  induction n with
  | nil => rfl
  | cons l n ih =>
    obtain ⟨hlen, hne⟩ := length_octet (hv l mem_cons_self)
    rw [wire, append_assoc, cons_append, endsInside_cons hne, hlen, drop_left]
    exact ih (forall_mem_cons.1 hv).2

theorem le_high_lowerLabelAt : b.high ≤ (lowerLabelAt b dname len).high := by
  rw [lowerLabelAt, Sbuffer.writeAt]
  dsimp only
  split <;> omega

theorem high_lowerLabelAt {b : Sbuffer} {dname len : Nat} (hlen : 0 < len) :
    (lowerLabelAt b dname len).high = max b.high (dname + len) := by
  have hne : (bytesAt b.data dname len).map tolower ≠ [] := by
    intro h
    have := congrArg length h
    rw [length_map, length_bytesAt, length_nil] at this
    omega
  rw [lowerLabelAt, Sbuffer.writeAt]
  rw [if_neg hne, length_map, length_bytesAt]

theorem tolowerLoop_succ (h0 : b.data dname ≠ 0) :
    tolowerLoop (fuel + 1) b dname =
      tolowerLoop fuel (lowerLabelAt b (dname + 1) (b.data dname).toNat)
        (dname + 1 + (b.data dname).toNat) := by
  exact if_neg h0

theorem le_high_tolowerLoop (fuel : Nat) (b : Sbuffer) (dname : Nat) :
    b.high ≤ (tolowerLoop fuel b dname).high :=
  tolowerLoop_induction (P := fun b' => b.high ≤ b'.high) _ _ _ le_rfl fun _ _ _ _ h =>
    h.trans le_high_lowerLabelAt

theorem tolowerLoop_inside {fuel : Nat} {b : Sbuffer} {dname n : Nat}
    (h : endsInside 0 (bytesAt b.data dname n) = true) :
    (tolowerLoop fuel b dname).high ≤ max b.high (dname + n) ∧
    ∀ i, dname + n ≤ i → (tolowerLoop fuel b dname).data i = b.data i := by
  induction fuel generalizing b dname n with
  | zero => exact ⟨Nat.le_max_left _ _, fun _ _ => rfl⟩
  | succ fuel ih =>
    by_cases h0 : b.data dname = 0
    · rw [tolowerLoop, if_pos h0]
      exact ⟨Nat.le_max_left _ _, fun _ _ => rfl⟩
    cases n with
    | zero => cases h
    | succ n =>
      rw [endsInside_bytesAt h0] at h
      split at h
      next hle =>
        have hpos := Nat.pos_of_ne_zero fun hz => h0 (UInt8.toNat_inj.1 hz)
        have hbytes : bytesAt (lowerLabelAt b (dname + 1) (b.data dname).toNat).data
            (dname + 1 + (b.data dname).toNat) (n - (b.data dname).toNat) =
            bytesAt b.data (dname + 1 + (b.data dname).toNat) (n - (b.data dname).toNat) :=
          bytesAt_congr fun i hi _ => lowerLabelAt_of_ge b (dname + 1) hi
        rw [← hbytes] at h
        obtain ⟨hhigh, hdata⟩ := ih h
        rw [high_lowerLabelAt hpos] at hhigh
        rw [tolowerLoop_succ h0]
        refine ⟨by omega, fun i hi => ?_⟩
        rw [hdata i (by omega)]
        exact lowerLabelAt_of_ge b (dname + 1) (by omega)
      next => cases h

theorem tolowerLoop_escapes {cap fuel : Nat} {b : Sbuffer} {dname stop : Nat}
    (hstale : ∀ i, stop ≤ i → dname ≤ i → b.data i = 255)
    (hrun : stop ≤ dname ∨ endsInside 0 (bytesAt b.data dname (stop - dname)) = false)
    (hfuel : cap < fuel + dname) (hcap : dname ≤ cap) : cap < (tolowerLoop fuel b dname).high := by
  induction fuel generalizing b dname with
  | zero => omega
  | succ fuel ih =>
    have h0 : b.data dname ≠ 0 := by
      intro hz
      rcases Nat.lt_or_ge dname stop with hlt | hge
      · obtain ⟨n, hn⟩ : ∃ n, stop - dname = n + 1 := ⟨stop - dname - 1, by omega⟩
        have hrun := hrun.resolve_left (by omega)
        rw [hn, bytesAt, hz] at hrun
        cases hrun
      · rw [hstale dname hge le_rfl] at hz
        cases hz
    have hpos := Nat.pos_of_ne_zero fun hz => h0 (UInt8.toNat_inj.1 hz)
    have hhigh := @high_lowerLabelAt b (dname + 1) _ hpos
    have hmono := le_high_tolowerLoop fuel (lowerLabelAt b (dname + 1) (b.data dname).toNat)
      (dname + 1 + (b.data dname).toNat)
    have hsame : ∀ i, dname + 1 + (b.data dname).toNat ≤ i →
        (lowerLabelAt b (dname + 1) (b.data dname).toNat).data i = b.data i :=
      fun i hi => lowerLabelAt_of_ge b (dname + 1) hi
    rw [tolowerLoop_succ h0]
    rcases Nat.lt_or_ge cap (dname + 1 + (b.data dname).toNat) with hover | hin
    · omega
    apply ih
    · intro i hi hd
      rw [hsame i hd]
      exact hstale i hi (by omega)
    · rcases Nat.lt_or_ge (dname + 1 + (b.data dname).toNat) stop with hlt | hge
      · right
        obtain ⟨n, hn⟩ : ∃ n, stop - dname = n + 1 := ⟨stop - dname - 1, by omega⟩
        have hrun := hrun.resolve_left (by omega)
        rw [hn, endsInside_bytesAt h0, if_pos (by omega)] at hrun
        have hlen : stop - (dname + 1 + (b.data dname).toNat) = n - (b.data dname).toNat := by
          omega
        rw [hlen, bytesAt_congr fun i hi _ => hsame i hi]
        exact hrun
      · exact .inl hge
    · omega
    · exact hin

/-- A step of the canonicalization that writes up to its position and not behind it. -/
structure Grows (b b' : Sbuffer) : Prop where
  position : b.position ≤ b'.position
  mono : b.high ≤ b'.high
  high : b'.high ≤ max b.high b'.position
  reach : b.position < b'.position → b'.position ≤ b'.high
  stale : ∀ i, b'.position ≤ i → b'.data i = b.data i

theorem Grows.refl (b : Sbuffer) : Grows b b :=
  ⟨le_rfl, le_rfl, Nat.le_max_left _ _, fun h => absurd h (lt_irrefl _), fun _ _ => rfl⟩

theorem Grows.trans (h : Grows b b') (h' : Grows b' b'') : Grows b b'' := by
  have hp := h.position
  have hp' := h'.position
  have hm := h.mono
  have hm' := h'.mono
  have hh := h.high
  have hh' := h'.high
  refine ⟨hp.trans hp', hm.trans hm', by omega, fun hlt => ?_, fun i hi => ?_⟩
  · rcases Nat.lt_or_ge b'.position b''.position with hlt' | hge
    · exact h'.reach hlt'
    · have := h.reach (by omega)
      omega
  · rw [h'.stale i hi, h.stale i (by omega)]

theorem Grows.write (b : Sbuffer) (xs : List UInt8) : Grows b (b.write xs) := by
  by_cases hx : xs = []
  · rw [hx, Sbuffer.write_nil]
    exact .refl b
  · have hhigh : (b.write xs).high = max b.high (b.position + xs.length) := if_neg hx
    have hpos := Sbuffer.position_write (b := b) xs
    refine ⟨by omega, by omega, by omega, fun _ => by omega, fun i hi => ?_⟩
    exact blit_of_ge xs (by omega)

theorem Grows.tolower (hd : dname ≤ b.position)
    (h : endsInside 0 (bytesAt b.data dname (b.position - dname)) = true) :
    Grows b (queryDnameTolower b dname) := by
  obtain ⟨hhigh, hdata⟩ := @tolowerLoop_inside (b.capacity + 128) _ _ _ h
  have hpos : (queryDnameTolower b dname).position = b.position := tolowerLoop_position _ _ _
  have hstop : dname + (b.position - dname) = b.position := by omega
  rw [hstop] at hhigh hdata
  rw [← hpos] at hhigh hdata
  exact ⟨hpos ▸ le_rfl, le_high_tolowerLoop _ _ _, hhigh, fun hlt => by omega, hdata⟩

theorem Grows.name (b : Sbuffer) (hv : ∀ l ∈ n, 0 < l.length ∧ l.length ≤ 63) :
    Grows b (queryDnameTolower (b.write (wire n)) b.position) := by
  apply (Grows.write b (wire n)).trans
  apply Grows.tolower (Nat.le_add_right _ _)
  have hbytes := bytesAt_blit b.data b.position (wire n)
  rw [Sbuffer.position_write, Nat.add_sub_cancel_left]
  have hends := endsInside_wire hv []
  rw [append_nil] at hends
  exact (congrArg (endsInside 0) hbytes).trans hends

/-- The walks from a list of starts end inside the rdata, one after the other. -/
def StartsEnd (fuel : Nat) : List Nat → List UInt8 → Prop
  | [], _ => True
  | at_ :: starts, rd =>
    endsInside 0 (rd.drop at_) = true ∧ StartsEnd fuel starts (lowerAt fuel at_ rd)

/-- The rdata stands right before the position. -/
structure RdataAt (fuel : Nat) (b : Sbuffer) (datstart : Nat) (rd : List UInt8) : Prop where
  bytes : bytesAt b.data datstart rd.length = rd
  stop : datstart + rd.length = b.position
  capacity : b.capacity + 128 = fuel

section rdata
variable {b : Sbuffer}

section
variable (h : RdataAt fuel b datstart rd)
include h

theorem RdataAt.drop (hat : at_ ≤ rd.length) :
    bytesAt b.data (datstart + at_) (b.position - (datstart + at_)) = rd.drop at_ := by
  have hlen : b.position - (datstart + at_) = rd.length - at_ := by
    rw [← h.stop]
    omega
  rw [hlen, ← drop_bytesAt _ hat, h.bytes]

theorem RdataAt.tolower (at_ : Nat) :
    RdataAt fuel (queryDnameTolower b (datstart + at_)) datstart (lowerAt fuel at_ rd) := by
  refine ⟨?_, ?_, ?_⟩
  · rw [length_lowerAt, bytesAt_tolower, h.bytes, h.capacity]
  · rw [length_lowerAt, h.stop]
    exact (tolowerLoop_position _ _ _).symm
  · rw [queryDnameTolower_capacity, h.capacity]

theorem RdataAt.grows (hat : at_ ≤ rd.length) (hends : endsInside 0 (rd.drop at_) = true) :
    Grows b (queryDnameTolower b (datstart + at_)) := by
  have hstop := h.stop
  apply Grows.tolower (by omega)
  rw [h.drop hat]
  exact hends

theorem RdataAt.lowerStarts_grows (hle : ∀ at_ ∈ starts, at_ ≤ rd.length)
    (hends : StartsEnd fuel starts rd) : Grows b (lowerStarts b datstart starts) := by
  induction starts generalizing b rd with
  | nil => exact .refl b
  | cons at_ starts ih =>
    have hat := hle at_ mem_cons_self
    refine (h.grows hat hends.1).trans (ih (h.tolower at_) (fun s hs => ?_) hends.2)
    rw [length_lowerAt]
    exact hle s (mem_cons_of_mem _ hs)

end

theorem le_high_lowerStarts (b : Sbuffer) (datstart : Nat) (starts : List Nat) :
    b.high ≤ (lowerStarts b datstart starts).high := by
  induction starts generalizing b with
  | nil => exact le_rfl
  | cons at_ starts ih => exact (le_high_tolowerLoop _ _ _).trans (ih _)

theorem RdataAt.lowerStarts_escapes (h : RdataAt fuel b datstart rd)
    (hle : ∀ at_ ∈ starts, at_ ≤ rd.length) (hstale : ∀ i, b.position ≤ i → b.data i = 255)
    (hcap : b.position ≤ b.capacity) (hends : ¬ StartsEnd fuel starts rd) :
    b.capacity < (lowerStarts b datstart starts).high := by
  induction starts generalizing b rd with
  | nil => exact absurd trivial hends
  | cons at_ starts ih =>
    have hat := hle at_ mem_cons_self
    have hstop := h.stop
    by_cases hin : endsInside 0 (rd.drop at_) = true
    · have hgrows := h.grows hat hin
      have hpos : (queryDnameTolower b (datstart + at_)).position = b.position :=
        tolowerLoop_position _ _ _
      have hcapacity := queryDnameTolower_capacity b (datstart + at_)
      have hrest := ih (h.tolower at_)
        (fun s hs => by
          rw [length_lowerAt]
          exact hle s (mem_cons_of_mem _ hs))
        (fun i hi => by
          rw [hgrows.stale i hi]
          exact hstale i (hpos ▸ hi))
        (by rw [hpos, hcapacity]; exact hcap) fun hrest => hends ⟨hin, hrest⟩
      rw [hcapacity] at hrest
      exact hrest
    · have hout := @tolowerLoop_escapes b.capacity (b.capacity + 128) b (datstart + at_)
        b.position (fun i hi _ => hstale i hi)
        (.inr (by rw [h.drop hat]; exact Bool.eq_false_iff.2 hin)) (by omega) (by omega)
      exact lt_of_lt_of_le hout (le_high_lowerStarts _ _ _)

end rdata

/-- Every name of the rdata that goes to lower case ends inside the rdata. -/
def NamesEnd (type : UInt16) (rd : List UInt8) : Prop :=
  ∀ at_ ∈ nameStarts type rd, endsInside 0 (rd.drop at_) = true

instance (type : UInt16) (rd : List UInt8) : Decidable (NamesEnd type rd) :=
  inferInstanceAs (Decidable (∀ at_ ∈ nameStarts type rd, endsInside 0 (rd.drop at_) = true))

theorem naptrAt_le (h : naptrAt texts rd = some at_) : at_ ≤ rd.length := by
  induction texts generalizing rd at_ with
  | zero =>
    rw [naptrAt] at h
    split at h
    · cases h
    · cases h
      exact Nat.zero_le _
  | succ texts ih =>
    rw [naptrAt] at h
    split at h
    · cases h
    next hlen =>
      obtain ⟨k, hk, rfl⟩ := Option.map_eq_some_iff.1 h
      have := ih hk
      rw [length_drop] at this
      omega

theorem nameStarts_cases :
    nameStarts type rd = [] ∨ (∃ at_ ≤ rd.length, nameStarts type rd = [at_]) ∨
      ∃ at_ ≤ rd.length, nameStarts type rd =
        [at_, at_ + dnameValid (rd.drop at_) (rd.length - at_)] := by
  have hone : ∀ {m at_ : Nat}, at_ ≤ m → (if rd.length < m then [] else [at_]) = [] ∨
      ∃ s ≤ rd.length, (if rd.length < m then [] else [at_]) = [s] := by
    intro m at_ hat
    split
    · exact .inl rfl
    · exact .inr ⟨at_, by omega, rfl⟩
  rw [nameStarts]
  cases canonType type with
  | binary => exact .inl rfl
  | name => exact .inr (.inl ⟨0, Nat.zero_le _, rfl⟩)
  | nxt => exact .inr (.inl ⟨0, Nat.zero_le _, rfl⟩)
  | twoNames => exact .inr (.inr ⟨0, Nat.zero_le _, by rw [Nat.zero_add]; rfl⟩)
  | int16Name => exact (hone (by decide)).imp_right .inl
  | sig => exact (hone (by decide)).imp_right .inl
  | srv => exact (hone (by decide)).imp_right .inl
  | px =>
    dsimp only
    split
    · exact .inl rfl
    next hlen => exact .inr (.inr ⟨2, by omega, rfl⟩)
  | naptr =>
    dsimp only
    split
    · exact .inl rfl
    next hlen =>
      cases hn : naptrAt 3 (rd.drop 4) with
      | none => exact .inl rfl
      | some k =>
        have := naptrAt_le hn
        rw [length_drop] at this
        exact .inr (.inl ⟨4 + k, by omega, rfl⟩)

theorem endsInside_second (hfuel : 127 ≤ fuel) (hat : at_ ≤ rd.length) :
    at_ + dnameValid (rd.drop at_) (rd.length - at_) ≤ rd.length ∧
    endsInside 0 ((lowerAt fuel at_ rd).drop (at_ + dnameValid (rd.drop at_) (rd.length - at_))) =
      endsInside 0 (rd.drop (at_ + dnameValid (rd.drop at_) (rd.length - at_))) := by
  have hlow : (lowerAt fuel at_ rd).drop at_ = lowerWalk fuel 0 (rd.drop at_) := by
    rw [lowerAt, drop_left' (length_take_of_le hat)]
  rw [← drop_drop, ← drop_drop, hlow]
  by_cases h0 : dnameValid (rd.drop at_) (rd.length - at_) = 0
  · rw [h0, drop_zero, drop_zero]
    exact ⟨hat, endsInside_lowerWalk⟩
  · obtain ⟨n, rest, hn, hdrop, hlen⟩ := dnameValid_name (by rw [length_drop]) h0
    have hle := congrArg length hdrop
    rw [length_drop, length_append, length_wire] at hle
    rw [hlen, hdrop, lowerWalk_wire hn.labels (hn.length_le.trans hfuel)]
    refine ⟨by omega, ?_⟩
    rw [drop_left' (by rw [length_wire, wireLen_lowerName]), drop_left' (length_wire n)]

theorem startsEnd_iff (hfuel : 127 ≤ fuel) :
    StartsEnd fuel (nameStarts type rd) rd ↔ NamesEnd type rd := by
  rw [NamesEnd]
  rcases nameStarts_cases with h | ⟨s, hs, h⟩ | ⟨s, hs, h⟩
  · rw [h]
    exact ⟨fun _ _ hm => absurd hm not_mem_nil, fun _ => trivial⟩
  · rw [h, StartsEnd, StartsEnd, forall_mem_singleton, and_true]
  · rw [h, StartsEnd, StartsEnd, StartsEnd, (endsInside_second hfuel hs).2, forall_mem_cons,
      forall_mem_singleton, and_true]

theorem nameStarts_le : ∀ at_ ∈ nameStarts type rd, at_ ≤ rd.length := by
  rcases nameStarts_cases with h | ⟨s, hs, h⟩ | ⟨s, hs, h⟩
  · rw [h]
    exact fun _ hm => absurd hm not_mem_nil
  · rw [h, forall_mem_singleton]
    exact hs
  · rw [h, forall_mem_cons, forall_mem_singleton]
    exact ⟨hs, (endsInside_second (Nat.le_refl 127) hs).1⟩

/-- The owner name is written without leaving its place. -/
def Tight (insert : Sbuffer → Sbuffer × Nat) : Prop := ∀ b, Grows b (insert b).1

theorem Canon.grows_putOwner {insert : Sbuffer → Sbuffer × Nat} (ht : Tight insert) (c : Canon) :
    Grows c.buf (c.putOwner insert).buf := by
  rw [Canon.putOwner]
  split
  · exact .write _ _
  · exact ht c.buf

/-- Each record that is not found too big has room with its owner name, and its names end in it. -/
def Inside (cap : Nat) (k : Rrset) (ownerLen : Nat) : List Nat → Bool → Nat → Prop
  | [], _, _ => True
  | i :: walk, known, pos =>
    cap - pos < (if known then ownerLen else 0) + 2 + 2 + 4 + (k.rrData i).length ∨
    pos + ownerLen + 8 + (k.rrData i).length ≤ cap ∧ NamesEnd k.type ((k.rrData i).drop 2) ∧
      Inside cap k ownerLen walk true (pos + ownerLen + 8 + (k.rrData i).length)

theorem length_recordBytes (hlen : 2 ≤ data.length) (httl : ttl.length = 4) :
    (recordBytes cap k ttl data).length = 8 + data.length := by
  rw [recordBytes]
  simp only [length_append, length_u16Bytes, httl, length_lowerRdata, length_take, length_drop]
  omega

section loop
variable {cap : Nat} {owner xs : List UInt8} {insert : Sbuffer → Sbuffer × Nat} {k : Rrset}
  {ttl : Nat → List UInt8} {walk : List Nat} {c : Canon}

theorem length_written (hi : 2 ≤ (k.rrData i).length) (httl : (ttl i).length = 4) :
    (xs ++ owner ++ recordBytes cap k (ttl i) (k.rrData i)).length =
      xs.length + owner.length + 8 + (k.rrData i).length := by
  rw [length_append, length_append, length_recordBytes hi httl]
  omega

theorem Canon.At.split (h : c.At cap owner known xs) (hins : WritesOwner cap owner insert)
    (ht : Tight insert) {i : Nat} (hi : 2 ≤ (k.rrData i).length) (httl : (ttl i).length = 4) :
    ∃ b datstart, Grows c.buf b ∧
      b.position = xs.length + owner.length + 8 + (k.rrData i).length ∧ b.capacity = cap ∧
      RdataAt (cap + 128) b datstart ((k.rrData i).drop 2) ∧
      (c.record k insert ttl i).buf =
        lowerStarts b datstart (nameStarts k.type ((k.rrData i).drop 2)) := by
  have hput := h.putOwner hins
  have hpos := hput.position
  rw [length_append] at hpos
  have hhead : (recordHead k (ttl i) (k.rrData i)).length = 10 := by
    rw [recordHead, length_append, length_append, length_append, httl, length_take_of_le hi]
    rfl
  have hdrop : ((k.rrData i).drop 2).length = (k.rrData i).length - 2 := length_drop ..
  refine ⟨_, _, (c.grows_putOwner ht).trans (.write _ _), ?_, hput.capacity,
    ⟨bytesAt_write_append, ?_, congrArg (· + 128) hput.capacity⟩, putRdata_eq _ hi _⟩
  · rw [Sbuffer.position_write, length_append, hhead, hdrop, hpos]
    omega
  · rw [Sbuffer.position_write, length_append, Nat.add_assoc]

section run
variable (hlen : ∀ i ∈ walk, 2 ≤ (k.rrData i).length) (httl : ∀ i, (ttl i).length = 4)
  (hins : WritesOwner cap owner insert) (ht : Tight insert) (h : c.At cap owner known xs)

include hlen httl hins ht h

theorem le_high_canonLoop : c.buf.high ≤ (canonLoop k insert ttl walk c).2.buf.high := by
  induction walk generalizing c known xs with
  | nil => exact le_rfl
  | cons i walk ih =>
    have hi := hlen i mem_cons_self
    rcases canonLoop_cons h walk with ⟨-, hstep⟩ | ⟨-, hstep⟩
    · rw [hstep]
    · rw [hstep]
      obtain ⟨b, datstart, hgrows, -, -, -, heq⟩ := h.split hins ht hi (httl i)
      have hlow := le_high_lowerStarts b datstart (nameStarts k.type ((k.rrData i).drop 2))
      rw [← heq] at hlow
      exact (hgrows.mono.trans hlow).trans (ih (forall_mem_cons.1 hlen).2 (h.record hins hi ttl))

theorem canonLoop_high_le (hhigh : c.buf.high ≤ cap)
    (hin : Inside cap k owner.length walk known xs.length) :
    (canonLoop k insert ttl walk c).2.buf.high ≤ cap := by
  induction walk generalizing c known xs with
  | nil => exact hhigh
  | cons i walk ih =>
    have hi := hlen i mem_cons_self
    rcases canonLoop_cons h walk with ⟨hfit, hstep⟩ | ⟨hfit, hstep⟩
    · rw [hstep]
      exact hhigh
    rw [hstep]
    obtain ⟨hroom, hnames, hrest⟩ := hin.resolve_left hfit
    obtain ⟨b, datstart, hgrows, -, -, hrd, heq⟩ := h.split hins ht hi (httl i)
    have hlow := hrd.lowerStarts_grows nameStarts_le ((startsEnd_iff (by omega)).2 hnames)
    rw [← heq] at hlow
    have hrec := h.record hins hi ttl
    have hle := (hgrows.trans hlow).high
    rw [hrec.position, length_written hi (httl i)] at hle
    refine ih (forall_mem_cons.1 hlen).2 hrec (hle.trans (Nat.max_le.2 ⟨hhigh, hroom⟩)) ?_
    rw [length_written hi (httl i)]
    exact hrest

theorem inside_of_canonLoop_high (hstale : ∀ i, c.buf.position ≤ i → c.buf.data i = 255)
    (hhigh : (canonLoop k insert ttl walk c).2.buf.high ≤ cap) :
    Inside cap k owner.length walk known xs.length := by
  induction walk generalizing c known xs with
  | nil => trivial
  | cons i walk ih =>
    have hi := hlen i mem_cons_self
    rcases canonLoop_cons h walk with ⟨hfit, -⟩ | ⟨-, hstep⟩
    · exact .inl hfit
    right
    rw [hstep] at hhigh
    obtain ⟨b, datstart, hgrows, hpos, hcap, hrd, heq⟩ := h.split hins ht hi (httl i)
    have hrest := (forall_mem_cons.1 hlen).2
    have hrec := h.record hins hi ttl
    have hrun := (le_high_canonLoop hrest httl hins ht hrec).trans hhigh
    have hmono := le_high_lowerStarts b datstart (nameStarts k.type ((k.rrData i).drop 2))
    rw [← heq] at hmono
    have hreach := hgrows.reach (by rw [hpos, h.position]; omega)
    have hroom := hreach.trans (hmono.trans hrun)
    have hbstale : ∀ j, b.position ≤ j → b.data j = 255 := fun j hj => by
      rw [hgrows.stale j hj, hstale j (hgrows.position.trans hj)]
    have hnames : NamesEnd k.type ((k.rrData i).drop 2) := by
      by_contra hn
      have hout := hrd.lowerStarts_escapes nameStarts_le hbstale (hcap.symm ▸ hroom)
        fun hs => hn ((startsEnd_iff (by omega)).1 hs)
      rw [← heq, hcap] at hout
      omega
    have hlow := hrd.lowerStarts_grows nameStarts_le ((startsEnd_iff (by omega)).2 hnames)
    rw [← heq] at hlow
    have hnext := ih hrest hrec (fun j hj => by
      rw [hlow.stale j hj, hbstale j (hlow.position.trans hj)]) hhigh
    rw [length_written hi (httl i)] at hnext
    exact ⟨hpos ▸ hroom, hnames, hnext⟩

end run

end loop

def taken (cap : Nat) (k : Rrset) (ownerLen : Nat) : List Nat → Nat → List Nat
  | [], _ => []
  | i :: walk, pos =>
    if pos + ownerLen + 8 + (k.rrData i).length ≤ cap then
      i :: taken cap k ownerLen walk (pos + ownerLen + 8 + (k.rrData i).length)
    else []

/-- There is room for the start and for the owner name of the first record, and names end inside. -/
structure FitsBuffer (cap start ownerLen : Nat) (k : Rrset) : Prop where
  start_le : start ≤ cap
  first : ∀ i, (canonicalSort k).head? = some i → start + 8 + (k.rrData i).length ≤ cap →
    start + ownerLen + 8 + (k.rrData i).length ≤ cap
  names : ∀ i ∈ taken cap k ownerLen (canonicalSort k) start, NamesEnd k.type ((k.rrData i).drop 2)

theorem inside_iff {walk : List Nat} (hpos : pos ≤ cap) :
    Inside cap k ownerLen walk known pos ↔
      (known = false → ∀ i, walk.head? = some i → pos + 8 + (k.rrData i).length ≤ cap →
        pos + ownerLen + 8 + (k.rrData i).length ≤ cap) ∧
      ∀ i ∈ taken cap k ownerLen walk pos, NamesEnd k.type ((k.rrData i).drop 2) := by
  induction walk generalizing known pos with
  | nil => simp [Inside, taken]
  | cons i walk ih =>
    simp only [Inside, taken, head?_cons, Option.some.injEq, forall_eq']
    by_cases hroom : pos + ownerLen + 8 + (k.rrData i).length ≤ cap
    · rw [if_pos hroom, forall_mem_cons, ih hroom]
      have hfit : ¬ cap - pos < (if known then ownerLen else 0) + 2 + 2 + 4 + (k.rrData i).length := by
        split <;> omega
      simp [hroom, hfit]
    · cases known <;> simp [hroom] <;> omega

theorem fitsBuffer_iff {cap start ownerLen : Nat} :
    FitsBuffer cap start ownerLen k ↔
      start ≤ cap ∧ Inside cap k ownerLen (canonicalSort k) false start := by
  constructor
  · intro h
    exact ⟨h.start_le, (inside_iff h.start_le).2 ⟨fun _ => h.first, h.names⟩⟩
  · rintro ⟨hle, hin⟩
    obtain ⟨hfirst, hnames⟩ := (inside_iff hle).1 hin
    exact ⟨hle, hfirst rfl, hnames⟩

theorem tight_insertName (hv : ∀ l ∈ n, 0 < l.length ∧ l.length ≤ 63) :
    Tight (insertName n) := fun b => .name b hv

def staleBuffer (cap : Nat) : Sbuffer := ⟨fun _ => 255, 0, 0, cap, 0⟩

theorem canonLoop_high_iff {cap : Nat} {owner start : List UInt8}
    {insert : Sbuffer → Sbuffer × Nat} {k : Rrset} {ttl : Nat → List UInt8}
    {before : Sbuffer → Sbuffer} (hlen : ∀ i ∈ canonicalSort k, 2 ≤ (k.rrData i).length)
    (httl : ∀ i, (ttl i).length = 4) (hins : WritesOwner cap owner insert) (ht : Tight insert)
    (hfill : ∀ b, b.capacity = cap → Filled cap (before b) start)
    (hgrows : ∀ b, Grows b.clear (before b)) :
    (∀ b : Sbuffer, b.capacity = cap → b.high ≤ cap →
      (canonLoop k insert ttl (canonicalSort k) ⟨before b, none, 0⟩).2.buf.high ≤ cap) ↔
    FitsBuffer cap start.length owner.length k := by
  rw [fitsBuffer_iff]
  constructor
  · intro h
    have hstale := h (staleBuffer cap) rfl (Nat.zero_le _)
    have hg := hgrows (staleBuffer cap)
    have hf := hfill (staleBuffer cap) rfl
    refine ⟨?_, inside_of_canonLoop_high hlen httl hins ht hf.canon (fun i hi => ?_) hstale⟩
    · have hmono := (le_high_canonLoop hlen httl hins ht hf.canon).trans hstale
      rcases Nat.eq_zero_or_pos start.length with h0 | hpos
      · omega
      · have hreach := hg.reach (by rw [hf.position]; exact hpos)
        rw [hf.position] at hreach
        exact hreach.trans hmono
    · exact hg.stale i hi
  · rintro ⟨hle, hin⟩ b hcap hhigh
    have hg := (hgrows b).high
    have hf := hfill b hcap
    rw [hf.position] at hg
    exact canonLoop_high_le hlen httl hins ht hf.canon (hg.trans (Nat.max_le.2 ⟨hhigh, hle⟩)) hin

theorem rrsetCanonical_high :
    (rrsetCanonical buf k sig siglen sortree sect hasQstate).buf.high =
      if sortree = none ∧ k.rrs.length > rrCountMax then buf.high
      else (canonicalForm buf k sig siglen (sortree.getD (canonicalSort k))).2.buf.high := by
  rw [rrsetCanonical]
  split
  · rfl
  · dsimp only
    split
    · rfl
    · split <;> rfl

theorem SigOk.before (h : SigOk dname sig signerLen) :
    ((sig.drop 2).take (18 + signerLen)).length = 18 + signerLen ∧
    endsInside 0 (((sig.drop 2).take (18 + signerLen)).drop 18) = true := by
  obtain ⟨n, hn, -, hsigner, h18, hparts⟩ := h.parts
  have hends := endsInside_wire hn.labels []
  rw [append_nil] at hends
  rw [hparts, length_append, h18, length_wire, drop_left' h18, hsigner]
  exact ⟨rfl, hends⟩

theorem grows_signature (h18 : 18 ≤ xs.length) (hends : endsInside 0 (xs.drop 18) = true)
    (buf : Sbuffer) : Grows buf.clear (queryDnameTolower (buf.clear.write xs) 18) := by
  apply (Grows.write buf.clear xs).trans
  have hpos : (buf.clear.write xs).position = xs.length := Nat.zero_add _
  apply Grows.tolower (by rw [hpos]; exact h18)
  have hbytes := bytesAt_blit buf.data 0 xs
  have hdrop := @drop_bytesAt (buf.clear.write xs).data 0 xs.length 18 h18
  rw [hpos, ← hdrop]
  exact (congrArg (fun l => endsInside 0 (l.drop 18)) hbytes).trans hends

theorem high_le_iff {P F : Prop} [Decidable P] {f g : Sbuffer → Nat}
    (hg : (∀ b : Sbuffer, b.capacity = cap → b.high ≤ cap → g b ≤ cap) ↔ F)
    (hf : ∀ b, f b = if P then b.high else g b) :
    (∀ b : Sbuffer, b.capacity = cap → b.high ≤ cap → f b ≤ cap) ↔ P ∨ F := by
  simp only [hf]
  by_cases hP : P
  · simp only [if_pos hP]
    exact ⟨fun _ => .inl hP, fun _ _ _ h => h⟩
  · simp only [if_neg hP]
    rw [hg]
    exact ⟨.inr, fun h => h.resolve_left hP⟩

/-- Both functions stay in their buffer exactly when there are too many records or there is room. -/
theorem rrsetCanonical_in_buffer_iff {k dnskey : Rrset} {idx signerLen : Nat} {sig : List UInt8}
    {sortree : Option (List Nat)} {sect : PktSection} {hasQstate : Bool} (cap : Nat)
    (hv : ValidName k.dname) (hlen : ∀ r ∈ k.rrs, 2 ≤ r.data.length)
    (hsig : sigFields k.dname k.type dnskey idx sig = .ok signerLen)
    (hsort : sortree = none ∨ sortree = some (canonicalSort k)) :
    ((∀ buf : Sbuffer, buf.capacity = cap → buf.high ≤ cap →
        (rrsetCanonical buf k (sig.drop 2) (18 + signerLen) sortree sect hasQstate).buf.high ≤
          cap) ↔
      (sortree = none ∧ k.rrs.length > rrCountMax) ∨
        FitsBuffer cap (18 + signerLen) (wireLen (canOwner k.dname (octetAt sig 5))) k) ∧
    ((∀ buf : Sbuffer, buf.capacity = cap → buf.high ≤ cap →
        (rrsetCanonicalizeToBuffer buf k).2.high ≤ cap) ↔
      k.rrs.length > rrCountMax ∨ FitsBuffer cap 0 (wireLen k.dname) k) := by
  have hsort : sortree.getD (canonicalSort k) = canonicalSort k := by
    rcases hsort with rfl | rfl <;> rfl
  have hrd : ∀ i ∈ canonicalSort k, 2 ≤ (k.rrData i).length := by
    intro i hi
    obtain ⟨r, hr, heq⟩ := Rrset.rrData_mem (mem_canonicalSort hi)
    rw [heq]
    exact hlen r hr
  have hwlen : ∀ n, (wire (lowerName n)).length = wireLen n := fun n => by
    rw [length_wire, wireLen_lowerName]
  constructor
  · have hok := sigFields_ok hsig
    obtain ⟨hslen, hends⟩ := hok.before
    have hlabels := getD_drop_octet sig 3
    have hle : ((sig.drop 2).getD 3 0).toNat ≤ dnameSignameLabelCount k.dname :=
      hlabels ▸ hok.labels
    have htlen := hok.len_ge
    have hloop := @canonLoop_high_iff cap _ _
      (insertName (canOwner k.dname ((sig.drop 2).getD 3 0).toNat)) k
      (fun _ => ((sig.drop 2).drop 4).take 4)
      (fun b => queryDnameTolower (b.clear.write ((sig.drop 2).take (18 + signerLen))) 18) hrd
      (fun _ => by
        rw [length_take, length_drop, length_drop]
        omega)
      (writesOwner_canOwner hv hle) (tight_insertName (canOwner_labels hv _))
      (fun b hb => hb ▸ ((filled_clear b).write _).tolower 18)
      (grows_signature (by omega) hends)
    rw [length_lowerAt, nil_append, hslen, hwlen, hlabels] at hloop
    refine high_le_iff hloop fun buf => ?_
    rw [rrsetCanonical_high, hsort, canonicalForm, insertCanOwner_eq hle, hlabels]
  · have hloop := @canonLoop_high_iff cap _ _ (insertName k.dname) k
      (fun i => u32Bytes (k.rrTtl i)) Sbuffer.clear hrd (fun _ => rfl)
      (writesOwner_insertName hv.labels hv.length_le) (tight_insertName hv.labels)
      (fun b hb => hb ▸ filled_clear b) fun b => .refl b.clear
    rw [length_nil, hwlen] at hloop
    refine high_le_iff hloop fun buf => ?_
    rw [rrsetCanonicalizeToBuffer]
    split
    · rfl
    · dsimp only
      split <;> rfl

theorem rrsetCanonical_in_buffer_iff_ns :
    ((∀ buf : Sbuffer, buf.capacity = 33 → buf.high ≤ 33 →
        (rrsetCanonical buf (sampleRrset 2 [0, 3, 1, 66, 0]) ((sampleSig 2).drop 2) (18 + 1) none
          .answer false).buf.high ≤ 33) ↔
      (none = (none : Option (List Nat)) ∧
        (sampleRrset 2 [0, 3, 1, 66, 0]).rrs.length > rrCountMax) ∨
        FitsBuffer 33 (18 + 1) (wireLen (canOwner [[97]] (octetAt (sampleSig 2) 5)))
          (sampleRrset 2 [0, 3, 1, 66, 0])) ∧
    ((∀ buf : Sbuffer, buf.capacity = 33 → buf.high ≤ 33 →
        (rrsetCanonicalizeToBuffer buf (sampleRrset 2 [0, 3, 1, 66, 0])).2.high ≤ 33) ↔
      (sampleRrset 2 [0, 3, 1, 66, 0]).rrs.length > rrCountMax ∨
        FitsBuffer 33 0 (wireLen [[97]]) (sampleRrset 2 [0, 3, 1, 66, 0])) := by
  have hsig : sigFields [[97]] 2 sampleKeys 0 (sampleSig 2) = .ok 1 := by decide
  exact rrsetCanonical_in_buffer_iff 33 sampleName_valid (by decide) hsig (.inl rfl)

theorem rrsetCanonical_leaves_buffer :
    sigFields [[97]] 2 sampleKeys 0 (sampleSig 2) = .ok 1 ∧
    (rrsetCanonical ⟨fun _ => 0, 0, 33, 33, 0⟩ (sampleRrset 2 [0, 3, 1, 66, 0])
      ((sampleSig 2).drop 2) (18 + 1) none .answer false).ok = true ∧
    (rrsetCanonical ⟨fun _ => 0, 0, 33, 33, 0⟩ (sampleRrset 2 [0, 3, 1, 66, 0])
      ((sampleSig 2).drop 2) (18 + 1) none .answer false).buf.high = 35 ∧
    (rrsetCanonicalizeToBuffer ⟨fun _ => 0, 0, 14, 14, 0⟩ (sampleRrset 2 [0, 3, 1, 66, 0])).1 =
      true ∧
    (rrsetCanonicalizeToBuffer ⟨fun _ => 0, 0, 14, 14, 0⟩
      (sampleRrset 2 [0, 3, 1, 66, 0])).2.high = 16 := by
  decide

end CwdGate.Sigcrypt
