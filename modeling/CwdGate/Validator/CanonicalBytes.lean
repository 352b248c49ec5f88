import CwdGate.Validator.Canonical

namespace CwdGate.Sigcrypt
open Lib List

/-- `query_dname_tolower` on octets: `fuel` labels, the first with `lablen` octets to go. -/
def lowerWalk : Nat → Nat → List UInt8 → List UInt8
  | fuel, lablen + 1, b :: bs => tolower b :: lowerWalk fuel lablen bs
  | fuel + 1, 0, b :: bs => if b = 0 then b :: bs else b :: lowerWalk fuel b.toNat bs
  | _, _, bs => bs

@[simp] theorem lowerWalk_nil : lowerWalk fuel lablen [] = [] := by
  cases fuel <;> cases lablen <;> rfl

@[simp] theorem lowerWalk_zero : lowerWalk 0 0 bs = bs := by
  cases bs <;> rfl

theorem lowerWalk_eq :
    lowerWalk fuel lablen bs =
      (bs.take lablen).map tolower ++ lowerWalk fuel 0 (bs.drop lablen) := by
  induction bs generalizing lablen with
  | nil => simp
  | cons b bs ih =>
    cases lablen with
    | zero => rfl
    | succ lablen =>
      cases fuel <;>
      · rw [lowerWalk, ih]
        rfl

@[simp] theorem length_lowerWalk : (lowerWalk fuel lablen bs).length = bs.length := by
  induction bs generalizing fuel lablen with
  | nil => rw [lowerWalk_nil]
  | cons b bs ih =>
    cases lablen with
    | succ lablen => cases fuel <;> rw [lowerWalk, length_cons, ih, length_cons]
    | zero =>
      cases fuel with
      | zero => rfl
      | succ fuel =>
        rw [lowerWalk]
        split
        · rfl
        · rw [length_cons, ih, length_cons]

def lowerAt (fuel at_ : Nat) (bs : List UInt8) : List UInt8 :=
  bs.take at_ ++ lowerWalk fuel 0 (bs.drop at_)

@[simp] theorem length_lowerAt :
    (lowerAt fuel at_ bs).length = bs.length := by
  rw [lowerAt, length_append, length_lowerWalk, ← length_append, take_append_drop]

section buffer
variable (fuel : Nat) (buf : Sbuffer) (dname : Nat)

def lowerLabelAt (len : Nat) : Sbuffer :=
  buf.writeAt dname ((bytesAt buf.data dname len).map tolower)

theorem tolowerLoop_induction {P : Sbuffer → Prop} (hbuf : P buf)
    (hstep : ∀ b d len, dname < d → P b → P (lowerLabelAt b d len)) :
    P (tolowerLoop fuel buf dname) := by
  induction fuel generalizing buf dname with
  | zero => exact hbuf
  | succ fuel ih =>
    rw [tolowerLoop]
    split
    · exact hbuf
    · apply ih _ _ (hstep _ _ _ (Nat.lt_succ_self _) hbuf)
      intro b d len hd
      exact hstep b d len (by omega)

@[simp] theorem tolowerLoop_position : (tolowerLoop fuel buf dname).position = buf.position :=
  tolowerLoop_induction (P := fun b => b.position = buf.position) _ _ _ rfl fun _ _ _ _ h => h

@[simp] theorem tolowerLoop_limit : (tolowerLoop fuel buf dname).limit = buf.limit :=
  tolowerLoop_induction (P := fun b => b.limit = buf.limit) _ _ _ rfl fun _ _ _ _ h => h

@[simp] theorem tolowerLoop_capacity : (tolowerLoop fuel buf dname).capacity = buf.capacity :=
  tolowerLoop_induction (P := fun b => b.capacity = buf.capacity) _ _ _ rfl fun _ _ _ _ h => h

theorem tolowerLoop_below (hi : i ≤ dname) : (tolowerLoop fuel buf dname).data i = buf.data i :=
  tolowerLoop_induction (P := fun b => b.data i = buf.data i) _ _ _ rfl fun _ _ _ hd h =>
    (blit_of_lt _ (Nat.lt_of_le_of_lt hi hd)).trans h

theorem bytesAt_lowerLabelAt (h : n ≤ len) :
    bytesAt (lowerLabelAt buf dname len).data dname n = (bytesAt buf.data dname n).map tolower := by
  have hlen : ((bytesAt buf.data dname len).map tolower).length = len := by
    rw [length_map, length_bytesAt]
  have hblit := bytesAt_blit buf.data dname ((bytesAt buf.data dname len).map tolower)
  rw [hlen] at hblit
  have htake := @take_bytesAt (lowerLabelAt buf dname len).data dname len n h
  rw [← htake]
  change (bytesAt (blit buf.data dname _) dname len).take n = _
  rw [hblit, ← map_take, take_bytesAt _ h]

theorem lowerLabelAt_of_ge (h : dname + len ≤ i) :
    (lowerLabelAt buf dname len).data i = buf.data i :=
  blit_of_ge _ (by rw [length_map, length_bytesAt]; exact h)

theorem bytesAt_split {m m' : Nat → UInt8} {g : UInt8 → UInt8} {start at_ : Nat} {fuel : Nat}
    (hlow : ∀ n ≤ at_, bytesAt m' start n = (bytesAt m start n).map g)
    (hrest : ∀ n, bytesAt m' (start + at_) n = lowerWalk fuel 0 (bytesAt m (start + at_) n)) :
    bytesAt m' start n = ((bytesAt m start n).take at_).map g ++
      lowerWalk fuel 0 ((bytesAt m start n).drop at_) := by
  rcases Nat.le_total n at_ with hle | hle
  · have hlen : (bytesAt m start n).length ≤ at_ := by rwa [length_bytesAt]
    rw [hlow n hle, take_of_length_le hlen, drop_of_length_le hlen, lowerWalk_nil, append_nil]
  · obtain ⟨k, rfl⟩ := Nat.exists_eq_add_of_le hle
    rw [bytesAt_add, bytesAt_add, take_left' (length_bytesAt _ _ _),
      drop_left' (length_bytesAt _ _ _), hlow at_ le_rfl, hrest]

theorem tolowerLoop_bytes (n : Nat) :
    bytesAt (tolowerLoop fuel buf dname).data dname n =
      lowerWalk fuel 0 (bytesAt buf.data dname n) := by
  induction fuel generalizing buf dname n with
  | zero => rw [lowerWalk_zero]; rfl
  | succ fuel ih =>
    cases n with
    | zero => rfl
    | succ n =>
      have hfirst := tolowerLoop_below (fuel + 1) buf dname (Nat.le_refl dname)
      have hlabel : bytesAt (tolowerLoop fuel (lowerLabelAt buf (dname + 1) (buf.data dname).toNat)
          (dname + 1 + (buf.data dname).toNat)).data (dname + 1) n =
          lowerWalk fuel (buf.data dname).toNat (bytesAt buf.data (dname + 1) n) := by
        rw [lowerWalk_eq]
        refine bytesAt_split (fun m hm => ?_) (fun m => ?_)
        · rw [← bytesAt_lowerLabelAt buf (dname + 1) hm]
          exact bytesAt_congr fun i _ hi => tolowerLoop_below _ _ _ (by omega)
        · rw [ih, bytesAt_congr fun i hi _ => lowerLabelAt_of_ge buf (dname + 1) hi]
      rw [bytesAt, bytesAt, hfirst, tolowerLoop, lowerWalk]
      by_cases h0 : buf.data dname = 0
      · rw [if_pos h0, if_pos h0]
      · rw [if_neg h0, if_neg h0]
        exact congrArg _ hlabel

end buffer

theorem drop_lowerWalk (fuel lablen : Nat) :
    (lowerWalk fuel lablen bs).drop lablen = lowerWalk fuel 0 (bs.drop lablen) := by
  induction bs generalizing lablen with
  | nil => simp
  | cons b bs ih =>
    cases lablen with
    | zero => rfl
    | succ lablen => cases fuel <;> exact ih lablen

theorem dnameValidLoop_lowerWalk :
    dnameValidLoop maxlen rounds len (lowerWalk fuel 0 bs) =
      dnameValidLoop maxlen rounds len bs := by
  induction rounds generalizing len fuel bs with
  | zero => rfl
  | succ rounds ih =>
    cases bs with
    | nil => rw [lowerWalk_nil]
    | cons b bs =>
      cases fuel with
      | zero => rw [lowerWalk_zero]
      | succ fuel =>
        by_cases h0 : b = 0
        · rw [lowerWalk, if_pos h0]
        · rw [lowerWalk, if_neg h0, dnameValidLoop_cons, dnameValidLoop_cons, drop_lowerWalk, ih]

theorem dnameValid_lowerWalk : dnameValid (lowerWalk fuel 0 bs) maxlen = dnameValid bs maxlen := by
  rw [dnameValid, dnameValid, dnameValidLoop_lowerWalk]

def naptrAt : Nat → List UInt8 → Option Nat
  | 0, rd => if rd.length < 1 then none else some 0
  | texts + 1, rd =>
    let text := (peek rd).toNat + 1
    if rd.length < text then none else (naptrAt texts (rd.drop text)).map (text + ·)

/-- Where `canonicalize_rdata` starts to put names in lower case, as offsets in the rdata. -/
def nameStarts (type : UInt16) (rd : List UInt8) : List Nat :=
  match canonType type with
  | .nxt | .name => [0]
  | .twoNames => [0, dnameValid rd rd.length]
  | .int16Name => if rd.length < 3 then [] else [2]
  | .sig => if rd.length < 19 then [] else [18]
  | .px => if rd.length < 3 then [] else [2, 2 + dnameValid (rd.drop 2) (rd.length - 2)]
  | .naptr => if rd.length < 4 then [] else (naptrAt 3 (rd.drop 4)).toList.map (4 + ·)
  | .srv => if rd.length < 7 then [] else [6]
  | .binary => []

theorem naptrName_eq :
    naptrName buf texts datstart len =
      (naptrAt texts (bytesAt buf.data datstart len)).map (datstart + ·) := by
  induction texts generalizing datstart len with
  | zero =>
    rw [naptrName, naptrAt, length_bytesAt]
    split <;> rfl
  | succ texts ih =>
    rw [naptrName, naptrAt, length_bytesAt]
    cases len with
    | zero =>
      rfl
    | succ len =>
      change (if len + 1 < (buf.data datstart).toNat + 1 then none else _) =
        (if len + 1 < (buf.data datstart).toNat + 1 then none else _).map _
      by_cases hlen : len + 1 < (buf.data datstart).toNat + 1
      · rw [if_pos hlen, if_pos hlen]
        rfl
      · have hpeek : peek (bytesAt buf.data datstart (len + 1)) = buf.data datstart := rfl
        rw [if_neg hlen, if_neg hlen, ih, hpeek, drop_bytesAt _ (le_of_not_gt hlen), Option.map_map]
        congr 1
        funext k
        exact Nat.add_assoc _ _ _

theorem dnameValidIn_tolower :
    dnameValidIn (queryDnameTolower buf dname) dname maxlen =
      dnameValid (bytesAt buf.data dname maxlen) maxlen := by
  rw [dnameValidIn, queryDnameTolower, tolowerLoop_bytes, dnameValid_lowerWalk]

def lowerStarts (buf : Sbuffer) (datstart : Nat) (starts : List Nat) : Sbuffer :=
  starts.foldl (fun buf at_ => queryDnameTolower buf (datstart + at_)) buf

theorem canonicalizeRdata_eq (hlen : 2 ≤ len) (hstart : datstart = buf.position - len + 2) :
    canonicalizeRdata buf type len =
      lowerStarts buf datstart (nameStarts type (bytesAt buf.data datstart (len - 2))) := by
  have hlow : ∀ {m k : Nat} {starts : List Nat} {b : Sbuffer},
      m = k + 2 → (m ≤ len → lowerStarts buf datstart starts = b) →
      (if len < m then buf else b) =
        lowerStarts buf datstart (if len - 2 < k then [] else starts) := by
    intro m k starts b hm hb
    by_cases h : len < m
    · rw [if_pos h, if_pos (by omega)]
      rfl
    · rw [if_neg h, if_neg (by omega), hb (le_of_not_gt h)]
  rw [canonicalizeRdata, nameStarts, length_bytesAt, ← hstart]
  cases canonType type with
  | nxt => rfl
  | name => rfl
  | binary => rfl
  | twoNames =>
    dsimp only
    rw [dnameValidIn_tolower]
    rfl
  | int16Name => exact hlow rfl fun _ => rfl
  | sig => exact hlow rfl fun _ => rfl
  | srv => exact hlow rfl fun _ => rfl
  | px =>
    apply hlow rfl
    intro hm
    dsimp only
    rw [dnameValidIn_tolower, drop_bytesAt _ (by omega), Nat.add_assoc]
    rfl
  | naptr =>
    apply hlow rfl
    intro hm
    rw [naptrName_eq, drop_bytesAt _ (by omega), Nat.sub_sub]
    cases naptrAt 3 (bytesAt buf.data (datstart + 4) (len - (2 + 4))) with
    | none => rfl
    | some at_ => exact congrArg (queryDnameTolower buf) (Nat.add_assoc _ _ _).symm

structure Content (b : Sbuffer) (xs : List UInt8) : Prop where
  position : b.position = xs.length
  bytes : bytesAt b.data 0 xs.length = xs

theorem Content.write (h : Content b xs) (ys : List UInt8) : Content (b.write ys) (xs ++ ys) := by
  have hblit := bytesAt_blit b.data xs.length ys
  have hlow : bytesAt (b.write ys).data 0 xs.length = xs := by
    rw [← h.bytes, length_bytesAt]
    exact bytesAt_congr fun i _ hi => blit_of_lt ys (by rw [h.position]; omega)
  refine ⟨?_, ?_⟩
  · rw [Sbuffer.position_write, h.position, length_append]
  · rw [length_append, bytesAt_add, hlow, Nat.zero_add]
    congr 1
    rw [← h.position] at hblit ⊢
    exact hblit

theorem bytesAt_tolower (b : Sbuffer) (start at_ n : Nat) :
    bytesAt (queryDnameTolower b (start + at_)).data start n =
      lowerAt (b.capacity + 128) at_ (bytesAt b.data start n) := by
  rw [lowerAt, ← map_id (take at_ _)]
  refine bytesAt_split (fun n hn => ?_) (tolowerLoop_bytes _ b (start + at_))
  rw [map_id]
  exact bytesAt_congr fun i _ hi => tolowerLoop_below _ _ _ (by omega)

theorem Content.tolower (h : Content b xs) (at_ : Nat) :
    Content (queryDnameTolower b at_) (lowerAt (b.capacity + 128) at_ xs) := by
  have hbytes := bytesAt_tolower b 0 at_ xs.length
  rw [h.bytes, Nat.zero_add] at hbytes
  refine ⟨?_, ?_⟩
  · rw [queryDnameTolower, tolowerLoop_position, h.position, length_lowerAt]
  · rw [length_lowerAt, hbytes]

def lowerRdata (fuel : Nat) (type : UInt16) (rd : List UInt8) : List UInt8 :=
  (nameStarts type rd).foldl (fun rd at_ => lowerAt fuel at_ rd) rd

theorem lowerAt_add (fuel start at_ : Nat) (xs : List UInt8) :
    lowerAt fuel (start + at_) xs = xs.take start ++ lowerAt fuel at_ (xs.drop start) := by
  rw [lowerAt, lowerAt, take_add, drop_drop, append_assoc]

theorem length_foldl_lowerAt (starts : List Nat) :
    (starts.foldl (fun rd at_ => lowerAt fuel at_ rd) rd).length = rd.length := by
  induction starts generalizing rd with
  | nil => rfl
  | cons at_ starts ih => rw [foldl_cons, ih, length_lowerAt]

@[simp] theorem length_lowerRdata :
    (lowerRdata fuel type rd).length = rd.length := length_foldl_lowerAt _

@[simp] theorem queryDnameTolower_limit :
    (queryDnameTolower b at_).limit = b.limit := tolowerLoop_limit _ _ _

@[simp] theorem queryDnameTolower_capacity (b : Sbuffer) (at_ : Nat) :
    (queryDnameTolower b at_).capacity = b.capacity := tolowerLoop_capacity _ _ _

/-- What the canonicalization keeps of a buffer, and the octets it has written. -/
structure Filled (cap : Nat) (b : Sbuffer) (xs : List UInt8) : Prop extends Content b xs where
  limit : b.limit = cap
  capacity : b.capacity = cap

variable {b : Sbuffer}

theorem Filled.write (h : Filled cap b xs) (ys : List UInt8) :
    Filled cap (b.write ys) (xs ++ ys) := ⟨h.toContent.write ys, h.limit, h.capacity⟩

theorem Filled.tolower (h : Filled cap b xs) (at_ : Nat) :
    Filled cap (queryDnameTolower b at_) (lowerAt (cap + 128) at_ xs) := by
  have hc := h.toContent.tolower at_
  rw [h.capacity] at hc
  exact ⟨hc, queryDnameTolower_limit.trans h.limit,
    (queryDnameTolower_capacity _ _).trans h.capacity⟩

theorem Filled.lowerStarts {before : List UInt8} (starts : List Nat) (h : Filled cap b (before ++ rd)) :
    Filled cap (lowerStarts b before.length starts)
      (before ++ starts.foldl (fun rd at_ => lowerAt (cap + 128) at_ rd) rd) := by
  induction starts generalizing b rd with
  | nil => exact h
  | cons at_ starts ih =>
    have hstep := h.tolower (before.length + at_)
    rw [lowerAt_add, take_left, drop_left] at hstep
    exact ih hstep

def recordBytes (cap : Nat) (k : Rrset) (ttl data : List UInt8) : List UInt8 :=
  u16Bytes k.type.toNat ++ u16Bytes k.rrsetClass.toNat ++ ttl ++ data.take 2 ++
    lowerRdata (cap + 128) k.type (data.drop 2)

def recordHead (k : Rrset) (ttl data : List UInt8) : List UInt8 :=
  u16Bytes k.type.toNat ++ u16Bytes k.rrsetClass.toNat ++ ttl ++ data.take 2

theorem bytesAt_write_append :
    bytesAt (b.write (ys ++ zs)).data (b.position + ys.length) zs.length = zs := by
  have h := bytesAt_blit b.data b.position (ys ++ zs)
  rw [length_append, bytesAt_add] at h
  exact (append_inj h (length_bytesAt _ _ _)).2

theorem putRdata_eq (b : Sbuffer) (hlen : 2 ≤ (k.rrData i).length) (ttl : List UInt8) :
    putRdata b k ttl i = lowerStarts
      (b.write (recordHead k ttl (k.rrData i) ++ (k.rrData i).drop 2))
      (b.position + (recordHead k ttl (k.rrData i)).length)
      (nameStarts k.type ((k.rrData i).drop 2)) := by
  have hwrite : b.write (recordHead k ttl (k.rrData i) ++ (k.rrData i).drop 2) =
      (((b.write (u16Bytes k.type.toNat)).write (u16Bytes k.rrsetClass.toNat)).write
        ttl).write (k.rrData i) := by
    rw [recordHead, append_assoc _ (take 2 _), take_append_drop]
    simp only [Sbuffer.write_append]
  have hdrop : ((k.rrData i).drop 2).length = (k.rrData i).length - 2 := length_drop ..
  have hstart : b.position + (recordHead k ttl (k.rrData i)).length =
      (b.write (recordHead k ttl (k.rrData i) ++ (k.rrData i).drop 2)).position -
        (k.rrData i).length + 2 := by
    rw [Sbuffer.position_write, length_append, hdrop, recordHead]
    simp only [length_append, length_take_of_le hlen]
    omega
  rw [putRdata, ← hwrite, canonicalizeRdata_eq hlen hstart, ← hdrop, bytesAt_write_append]

theorem Filled.putRdata (h : Filled cap b xs) (hlen : 2 ≤ (k.rrData i).length) (ttl : List UInt8) :
    Filled cap (putRdata b k ttl i) (xs ++ recordBytes cap k ttl (k.rrData i)) := by
  have hw := h.write (recordHead k ttl (k.rrData i) ++ (k.rrData i).drop 2)
  rw [← append_assoc] at hw
  have hlow := hw.lowerStarts (nameStarts k.type ((k.rrData i).drop 2))
  rw [length_append, ← h.position, append_assoc] at hlow
  rw [putRdata_eq b hlen]
  exact hlow

/-- The loop over the sorted records on octets; `known` is that the owner name has been written. -/
def canonBytes (cap : Nat) (k : Rrset) (owner : List UInt8) (ttl : Nat → List UInt8) :
    List Nat → Bool → List UInt8 → Bool × List UInt8
  | [], _, xs => (true, xs)
  | i :: walk, known, xs =>
    if cap - xs.length < (if known then owner.length else 0) + 2 + 2 + 4 + (k.rrData i).length then
      (false, xs)
    else canonBytes cap k owner ttl walk true (xs ++ owner ++ recordBytes cap k (ttl i) (k.rrData i))

/-- The locals of the loop, when `owner` is the canonical owner name. -/
structure Canon.At (cap : Nat) (owner : List UInt8) (c : Canon) (known : Bool)
    (xs : List UInt8) : Prop extends Filled cap c.buf xs where
  len : c.canOwnerLen = if known then owner.length else 0
  owner : match c.canOwner with
    | none => known = false
    | some at_ => known = true ∧ ∃ before after, xs = before ++ owner ++ after ∧ at_ = before.length

def WritesOwner (cap : Nat) (owner : List UInt8) (insert : Sbuffer → Sbuffer × Nat) : Prop :=
  ∀ b xs, Filled cap b xs → Filled cap (insert b).1 (xs ++ owner) ∧ (insert b).2 = owner.length

variable {owner : List UInt8} {insert : Sbuffer → Sbuffer × Nat}

theorem bytesAt_middle {before mid after : List UInt8} (h : Content b (before ++ mid ++ after)) :
    bytesAt b.data before.length mid.length = mid := by
  have hbytes := h.bytes
  rw [length_append, length_append, bytesAt_add, bytesAt_add, Nat.zero_add] at hbytes
  have hfirst := (append_inj hbytes (by simp)).1
  exact (append_inj hfirst (length_bytesAt _ _ _)).2

theorem Canon.At.putOwner {c : Canon} {known : Bool} (h : c.At cap owner known xs)
    (hins : WritesOwner cap owner insert) :
    (c.putOwner insert).At cap owner true (xs ++ owner) := by
  have howner := h.owner
  cases hc : c.canOwner with
  | none =>
    obtain ⟨hfill, hlen⟩ := hins _ _ h.toFilled
    have hput : c.putOwner insert = ⟨(insert c.buf).1, some c.buf.position, (insert c.buf).2⟩ := by
      rw [Canon.putOwner, hc]
    rw [hput]
    refine ⟨hfill, hlen, rfl, xs, [], ?_, h.position⟩
    rw [append_nil]
  | some at_ =>
    rw [hc] at howner
    obtain ⟨hknown, before, after, hxs, hat⟩ := howner
    have hlen : c.canOwnerLen = owner.length := by rw [h.len, hknown]; rfl
    have hbytes : bytesAt c.buf.data at_ c.canOwnerLen = owner := by
      rw [hlen, hat]
      exact bytesAt_middle (hxs ▸ h.toContent)
    have hput : c.putOwner insert = { c with buf := c.buf.write owner } := by
      rw [Canon.putOwner, hc]
      dsimp only
      rw [hbytes]
    have hfill := h.toFilled.write owner
    rw [hput]
    refine ⟨hfill, hlen, ?_⟩
    rw [hc]
    exact ⟨rfl, before, after ++ owner, by rw [hxs, append_assoc], hat⟩

theorem Canon.At.extend {c : Canon} {known : Bool} (h : c.At cap owner known xs) {buf : Sbuffer}
    {ys : List UInt8} (hfill : Filled cap buf (xs ++ ys)) :
    Canon.At cap owner { c with buf := buf } known (xs ++ ys) := by
  refine ⟨hfill, h.len, ?_⟩
  have howner := h.owner
  cases hc : c.canOwner with
  | none =>
    rw [hc] at howner
    exact howner
  | some at_ =>
    rw [hc] at howner
    obtain ⟨hknown, before, after, hxs, hat⟩ := howner
    exact ⟨hknown, before, after ++ ys, by rw [hxs, append_assoc], hat⟩

def Canon.record (c : Canon) (k : Rrset) (insert : Sbuffer → Sbuffer × Nat)
    (ttl : Nat → List UInt8) (i : Nat) : Canon :=
  { c.putOwner insert with buf := putRdata (c.putOwner insert).buf k (ttl i) i }

theorem Canon.At.record {c : Canon} (h : c.At cap owner known xs)
    (hins : WritesOwner cap owner insert) (hlen : 2 ≤ (k.rrData i).length)
    (ttl : Nat → List UInt8) :
    (c.record k insert ttl i).At cap owner true
      (xs ++ owner ++ recordBytes cap k (ttl i) (k.rrData i)) :=
  (h.putOwner hins).extend ((h.putOwner hins).toFilled.putRdata hlen (ttl i))

theorem canonLoop_cons (h : c.At cap owner known xs) (walk : List Nat) :
    (cap - xs.length < (if known then owner.length else 0) + 2 + 2 + 4 + (k.rrData i).length ∧
      canonLoop k insert ttl (i :: walk) c = (false, c)) ∨
    (¬ cap - xs.length < (if known then owner.length else 0) + 2 + 2 + 4 + (k.rrData i).length ∧
      canonLoop k insert ttl (i :: walk) c =
        canonLoop k insert ttl walk (c.record k insert ttl i)) := by
  rw [← h.len, ← h.limit, ← h.position, ← Sbuffer.remaining_eq, canonLoop]
  by_cases hfit : c.buf.remaining < c.canOwnerLen + 2 + 2 + 4 + (k.rrData i).length
  · exact .inl ⟨hfit, if_pos hfit⟩
  · exact .inr ⟨hfit, if_neg hfit⟩

theorem canonLoop_bytes {k : Rrset} {ttl : Nat → List UInt8} {walk : List Nat}
    (hlen : ∀ i ∈ walk, 2 ≤ (k.rrData i).length) (hins : WritesOwner cap owner insert) {c : Canon}
    {known : Bool} (h : c.At cap owner known xs) :
    (canonLoop k insert ttl walk c).1 = (canonBytes cap k owner ttl walk known xs).1 ∧
    ∃ known', (canonLoop k insert ttl walk c).2.At cap owner known'
        (canonBytes cap k owner ttl walk known xs).2 ∧
      (known = true ∨ walk ≠ [] ∧ (canonBytes cap k owner ttl walk known xs).1 = true →
        known' = true) := by
  induction walk generalizing c known xs with
  | nil => exact ⟨rfl, known, h, fun hk => hk.elim id fun hk => absurd rfl hk.1⟩
  | cons i walk ih =>
    rw [canonBytes]
    rcases canonLoop_cons h walk with ⟨hfit, heq⟩ | ⟨hfit, heq⟩
    · rw [heq, if_pos hfit]
      exact ⟨rfl, known, h, fun hk => hk.elim id fun hk => nomatch hk.2⟩
    · obtain ⟨hok, known', hat, hknown⟩ := ih (forall_mem_cons.1 hlen).2
        (h.record hins (hlen i mem_cons_self) ttl)
      rw [heq, if_neg hfit]
      exact ⟨hok, known', hat, fun _ => hknown (.inl rfl)⟩

theorem lowerWalk_wire (hv : ∀ l ∈ n, 0 < l.length ∧ l.length ≤ 63) (hfuel : n.length ≤ fuel)
    (after : List UInt8) : lowerWalk fuel 0 (wire n ++ after) = wire (lowerName n) ++ after := by
  induction n generalizing fuel with
  | nil => cases fuel <;> rfl
  | cons l n ih =>
    obtain ⟨fuel, rfl⟩ : ∃ k, fuel = k + 1 := Nat.exists_eq_add_one.2 (by
      rw [length_cons] at hfuel
      omega)
    obtain ⟨hlen, hne⟩ := length_octet (hv l mem_cons_self)
    have hwire : wire (lowerName (l :: n)) =
        (lowerLabel l).length.toUInt8 :: (lowerLabel l ++ wire (lowerName n)) := rfl
    rw [wire, append_assoc, cons_append, lowerWalk, if_neg hne, lowerWalk_eq, hlen,
      take_left, drop_left,
      ih (forall_mem_cons.1 hv).2 (Nat.le_of_succ_le_succ hfuel), hwire,
      length_lowerLabel, cons_append, append_assoc]
    rfl

/-- The owner name of `insert_can_owner`, before lower case, for a label count in range. -/
def canOwner (dname : Name) (labels : Nat) : Name :=
  if labels = dnameSignameLabelCount dname then dname
  else [42] :: dnameRemoveLabels dname (dnameSignameLabelCount dname - labels)

theorem Filled.name (h : Filled cap b xs) (hv : ∀ l ∈ n, 0 < l.length ∧ l.length ≤ 63)
    (hlen : n.length ≤ 127) :
    Filled cap (queryDnameTolower (b.write (wire n)) b.position) (xs ++ wire (lowerName n)) := by
  have hw := (h.write (wire n)).tolower b.position
  have hwalk := lowerWalk_wire hv (hlen.trans (Nat.le_add_left 127 (cap + 1))) []
  rw [append_nil, append_nil] at hwalk
  rw [h.position, lowerAt, take_left, drop_left, hwalk, ← h.position] at hw
  exact hw

theorem signame_le_length (d : Name) : dnameSignameLabelCount d ≤ d.length := by
  rw [dnameSignameLabelCount]
  split
  · rw [length_tail]
    exact Nat.sub_le _ _
  · exact le_rfl

theorem canOwner_labels (hv : ValidName dname) (labels : Nat) :
    ∀ l ∈ canOwner dname labels, 0 < l.length ∧ l.length ≤ 63 := by
  intro l hl
  rw [canOwner] at hl
  split at hl
  · exact hv.labels l hl
  · rcases mem_cons.1 hl with rfl | hl
    · decide
    · exact hv.labels l (mem_of_mem_drop hl)

theorem length_canOwner_le (hle : labels ≤ dnameSignameLabelCount dname) :
    (canOwner dname labels).length ≤ dname.length := by
  have := signame_le_length dname
  rw [canOwner]
  split
  · exact le_rfl
  · rw [dnameRemoveLabels, length_cons, length_drop]
    omega

def insertName (n : Name) (b : Sbuffer) : Sbuffer × Nat :=
  (queryDnameTolower (b.write (wire n)) b.position, wireLen n)

theorem writesOwner_insertName (hv : ∀ l ∈ n, 0 < l.length ∧ l.length ≤ 63)
    (hlen : n.length ≤ 127) : WritesOwner cap (wire (lowerName n)) (insertName n) := by
  intro b xs h
  refine ⟨h.name hv hlen, ?_⟩
  rw [length_wire, wireLen_lowerName]
  rfl

theorem insertCanOwner_eq (hle : (sig.getD 3 0).toNat ≤ dnameSignameLabelCount dname) :
    (fun b => insertCanOwner b dname sig) = insertName (canOwner dname (sig.getD 3 0).toNat) := by
  funext b
  rw [insertCanOwner, canOwner]
  by_cases heq : (sig.getD 3 0).toNat = dnameSignameLabelCount dname
  · rw [if_pos heq, if_pos heq]
    rfl
  · have hlt := lt_of_le_of_ne hle heq
    have hwrite : ∀ n, (b.write [1, 42]).write (wire n) = b.write (wire ([42] :: n)) :=
      fun n => Sbuffer.write_append.symm
    rw [if_neg heq, if_neg heq, if_pos hlt]
    dsimp only
    rw [hwrite, insertName, wireLen, Nat.add_comm]
    rfl

theorem writesOwner_canOwner (hv : ValidName dname) (hle : labels ≤ dnameSignameLabelCount dname) :
    WritesOwner cap (wire (lowerName (canOwner dname labels))) (insertName (canOwner dname labels)) :=
  writesOwner_insertName (canOwner_labels hv _) ((length_canOwner_le hle).trans hv.length_le)

theorem filled_clear (buf : Sbuffer) : Filled buf.capacity buf.clear [] := ⟨⟨rfl, rfl⟩, rfl, rfl⟩

theorem Filled.canon (h : Filled cap b xs) : Canon.At cap owner ⟨b, none, 0⟩ false xs :=
  ⟨h, rfl, rfl⟩

section form
variable {buf : Sbuffer} {k : Rrset} {sig : List UInt8} {siglen : Nat} {sortree : List Nat}

def formBytes (cap : Nat) (k : Rrset) (sig : List UInt8) (siglen : Nat) (sortree : List Nat) :
    Bool × List UInt8 :=
  canonBytes cap k (wire (lowerName (canOwner k.dname (sig.getD 3 0).toNat)))
    (fun _ => (sig.drop 4).take 4) sortree false (lowerAt (cap + 128) 18 (sig.take siglen))

theorem canonicalForm_bytes (hv : ValidName k.dname)
    (hle : (sig.getD 3 0).toNat ≤ dnameSignameLabelCount k.dname)
    (hlen : ∀ i ∈ sortree, 2 ≤ (k.rrData i).length) :
    (canonicalForm buf k sig siglen sortree).1 = (formBytes buf.capacity k sig siglen sortree).1 ∧
    ∃ known, (canonicalForm buf k sig siglen sortree).2.At buf.capacity
        (wire (lowerName (canOwner k.dname (sig.getD 3 0).toNat))) known
        (formBytes buf.capacity k sig siglen sortree).2 ∧
      (sortree ≠ [] → (formBytes buf.capacity k sig siglen sortree).1 = true → known = true) := by
  have hsig := ((filled_clear buf).write (sig.take siglen)).tolower 18
  rw [canonicalForm, insertCanOwner_eq hle]
  obtain ⟨hok, known, hat, hknown⟩ := canonLoop_bytes hlen (writesOwner_canOwner hv hle) hsig.canon
  exact ⟨hok, known, hat, fun hne hfits => hknown (.inr ⟨hne, hfits⟩)⟩

theorem Canon.At.bytes_owner {c : Canon} (h : c.At cap owner true xs) :
    bytesAt c.buf.data (c.canOwner.getD 0) c.canOwnerLen = owner := by
  have howner := h.owner
  rw [h.len]
  cases hc : c.canOwner with
  | none =>
    rw [hc] at howner
    cases howner
  | some at_ =>
    rw [hc] at howner
    obtain ⟨-, before, after, hxs, hat⟩ := howner
    rw [Option.getD_some, hat]
    exact bytesAt_middle (hxs ▸ h.toContent)

end form

theorem canonBytes_of_fits {walk : List Nat}
    (h : (canonBytes cap k owner ttl walk known xs).1 = true) :
    (canonBytes cap k owner ttl walk known xs).2 =
      xs ++ walk.flatMap fun i => owner ++ recordBytes cap k (ttl i) (k.rrData i) := by
  induction walk generalizing known xs with
  | nil =>
    rw [flatMap_nil, append_nil]
    rfl
  | cons i walk ih =>
    rw [canonBytes] at h ⊢
    by_cases hfit : cap - xs.length <
        (if known then owner.length else 0) + 2 + 2 + 4 + (k.rrData i).length
    · rw [if_pos hfit] at h
      cases h
    · rw [if_neg hfit] at h ⊢
      rw [ih h, flatMap_cons]
      simp only [append_assoc]

end CwdGate.Sigcrypt
