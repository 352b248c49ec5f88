import CwdGate.Encode.Msgencode

namespace CwdGate.Encode
open Lib

/-- Nothing is written behind the limit, unless the position was there before. -/
structure Within (s t : EncState) : Prop where
  limit : t.pkt.limit = s.pkt.limit
  capacity : t.pkt.capacity = s.pkt.capacity
  position : t.pkt.position ≤ max s.pkt.position s.pkt.limit
  high : t.pkt.high ≤ max s.pkt.high s.pkt.limit
  grown : s.pkt.high ≤ t.pkt.high

theorem Within.refl (s : EncState) : Within s s where
  limit := rfl
  capacity := rfl
  position := Nat.le_max_left _ _
  high := Nat.le_max_left _ _
  grown := le_rfl

theorem Within.trans (s t u : EncState) (h : Within s t) (h' : Within t u) : Within s u where
  limit := h'.limit.trans h.limit
  capacity := h'.capacity.trans h.capacity
  position := by
    have h1 := h.position
    have h2 := h'.position
    rw [h.limit] at h2
    omega
  high := by
    have h1 := h.high
    have h2 := h'.high
    rw [h.limit] at h2
    omega
  grown := h.grown.trans h'.grown

theorem Within.of_pkt_eq (h : t.pkt = s.pkt) : Within s t := by
  constructor <;> simp only [h] <;> omega

theorem Within.writeAt (h : pos + bytes.length ≤ s.pkt.limit) :
    Within s { s with pkt := s.pkt.writeAt pos bytes } := by
  constructor <;> simp only [Sbuffer.writeAt]
  · exact Nat.le_max_left _ _
  · split <;> omega
  · split <;> omega

theorem Within.write (h : bytes.length ≤ s.pkt.remaining) :
    Within s { s with pkt := s.pkt.write bytes } := by
  by_cases hb : bytes = []
  · rw [hb, Sbuffer.write_nil]
    exact Within.refl s
  have hlen := List.length_pos_iff.2 hb
  rw [Sbuffer.remaining_eq] at h
  constructor <;> simp only [Sbuffer.write, Sbuffer.writeAt, if_neg hb] <;> omega

theorem Within.writeCount (h : 12 ≤ s.pkt.limit) (sect : Section) :
    Within s (writeCount sect s) := by
  cases sect
  all_goals
    apply Within.writeAt
    simp only [length_u16Bytes]
    omega

theorem Within.tcSet (h : 12 ≤ s.pkt.limit) : Within s (tcSet s) := by
  apply Within.writeAt
  simp only [List.length_singleton]
  omega

def EncState.Ample (s : EncState) : Prop := ∀ i, s.region i = true

/-- A program that stays within the limit, and runs out of memory only when an allocation fails. -/
abbrev Fed {α : Type} (x : Enc α) (s : EncState) (Q : α → EncState → Prop) : Prop :=
  Prog.Safe Within EncState.Ample .outmem x s Q

section rules
variable {α : Type} {s : EncState}

theorem within_bind (hx : Fed x s Q) (hf : ∀ a t, Within s t → Q a t → Fed (f a) t Q') :
    Fed (x >>= f) s Q' := Prog.Safe.bind Within.trans hx hf

theorem within_pure (h : Q a s) : Fed (pure a : Enc α) s Q := Prog.Safe.pure Within.refl h

theorem within_need : Fed (need n) s fun _ t => n ≤ t.pkt.remaining ∧ s = t :=
  (Prog.Safe.require Within.refl _ (by decide)).mono fun _ _ _ h => ⟨h.2 ▸ of_decide_eq_true h.1, h.2⟩

theorem within_bind_read {f : EncState → α} {g : α → Enc β} (h : Fed (g (f s)) s Q) :
    Fed (Prog.read f >>= g) s Q := ⟨h.spec, h.keeps, h.never⟩

theorem within_bind_need {g : Unit → Enc α} (h : n ≤ s.pkt.remaining → Fed (g ()) s Q) :
    Fed (need n >>= g) s Q := by
  refine within_bind within_need ?_
  rintro _ _ - ⟨hn, rfl⟩
  exact h hn

theorem within_emit (h : bytes.length ≤ s.pkt.remaining) :
    Fed (emit bytes) s fun _ t => t.pkt.remaining + bytes.length = s.pkt.remaining := by
  refine (Prog.Safe.update (Within.write h) id).mono ?_
  rintro _ t - rfl
  rw [Sbuffer.remaining_write]
  omega

theorem within_still (h : (f s).pkt = s.pkt) (hr : (f s).region = s.region) :
    Fed (Prog.update f : Enc Unit) s fun _ t => t.pkt = s.pkt := by
  refine (Prog.Safe.update (Within.of_pkt_eq h) fun hs i => hr ▸ hs i).mono ?_
  rintro _ t - rfl
  exact h

theorem within_regionalAlloc : Fed regionalAlloc s fun _ t => t.pkt = s.pkt := by
  by_cases h : s.region 0 = true
  · exact .of_ok (if_pos h) (Within.of_pkt_eq rfl) (fun hs i => hs (i + 1)) rfl
  · exact .of_error (if_neg h) (Within.refl s) id fun hs => absurd (hs 0) h

theorem within_need_emit (h : bytes.length ≤ n) :
    Fed (do need n; emit bytes) s fun _ t => n ≤ t.pkt.remaining + bytes.length := by
  refine within_bind_need fun hn => ?_
  refine (within_emit (h.trans hn)).mono ?_
  omega

end rules

section names
variable {s : EncState} {key : PackedRrset}

theorem compressTreeStoreLoop_within :
    Fed (compressTreeStoreLoop closest insertpt uplabs d labs offset vine) s
      fun _ t => t.pkt = s.pkt := by
  induction uplabs generalizing s d labs offset vine with
  | zero =>
    unfold compressTreeStoreLoop hangVine
    split
    · exact within_still rfl rfl
    · exact within_pure rfl
  | succ uplabs ih =>
    unfold compressTreeStoreLoop
    split
    · exact within_pure rfl
    · refine within_bind within_regionalAlloc ?_
      intro _ t _ ht
      exact ih.mono fun _ _ _ hu => hu.trans ht

theorem compressTreeStore_within :
    Fed (compressTreeStore d labs offset closest insertpt) s
      fun _ t => t.pkt = s.pkt := compressTreeStoreLoop_within

theorem copyLabels_within : Fed (copyLabels k d) s fun _ _ => True := by
  induction k generalizing s d with
  | zero => exact within_pure trivial
  | succ k ih =>
    refine within_bind_need fun hn => ?_
    refine within_bind (within_emit ?_) fun _ _ _ _ => ih
    cases d <;> simpa [lablen] using hn

theorem writeCompressedDname_within : Fed (writeCompressedDname d labs p) s fun _ _ => True := by
  unfold writeCompressedDname
  split
  · exact (within_need_emit (Nat.le_refl 1)).mono fun _ _ _ _ => trivial
  · apply within_bind_read
    refine within_bind copyLabels_within fun _ _ _ _ =>
    within_bind_need fun hn => ?_
    refine within_bind (within_still rfl rfl) fun _ u _ hu => ?_
    refine (within_emit ?_).mono fun _ _ _ _ => trivial
    rw [hu]
    exact hn

theorem dnameBufferWriteLoop_within : Fed (dnameBufferWriteLoop d) s fun _ _ => True := by
  induction d generalizing s with
  | nil => exact within_pure trivial
  | cons l d ih =>
    refine within_bind_need fun hn => ?_
    refine within_bind (within_emit ?_) fun _ _ _ _ => ih
    rw [List.length_append, List.length_singleton]
    exact hn

theorem compressAnyDname_within : Fed (compressAnyDname d labs) s fun _ _ => True := by
  apply within_bind_read
  refine within_bind (within_still rfl rfl) fun _ _ _ _ => within_bind_read ?_
  refine within_bind (Q := fun _ _ => True) ?_ fun _ _ _ _ =>
    compressTreeStore_within.mono fun _ _ _ _ => trivial
  cases (compressTreeLookup _ d labs).1 with
  | cons p _ => exact writeCompressedDname_within
  | nil =>
    refine within_bind_need fun hn => ?_
    exact within_bind (within_emit hn) fun _ _ _ _ => dnameBufferWriteLoop_within

theorem writeFirstOwner_within :
    Fed (writeFirstOwner key ownerPos ownerLabs p) s fun _ t => 10 ≤ t.pkt.remaining := by
  cases p with
  | cons p _ =>
    refine within_bind writeCompressedDname_within fun _ _ _ _ =>
    within_bind_need fun hn => ?_
    exact within_pure hn
  | nil =>
    refine within_bind_need fun hn => ?_
    refine within_bind (within_emit (by rw [length_wire]; omega)) fun _ t _ ht => within_pure ?_
    rw [length_wire] at ht
    omega

theorem writeOwnerPtr_within (h : 2 ≤ room) :
    Fed (writeOwnerPtr key ownerPtr room) s fun _ t => room ≤ t.pkt.remaining + 2 := by
  apply within_bind_read
  refine within_bind (within_still rfl rfl) fun _ _ _ _ =>
    within_bind_need fun hn => ?_
  refine within_bind (within_still rfl rfl) fun _ u _ hu => ?_
  refine (within_emit ?_).mono fun _ t _ ht => ?_
  · rw [hu, length_u16Bytes]
    omega
  · rw [hu, length_u16Bytes] at ht
    omega

theorem compressOwner_within :
    Fed (compressOwner key ownerPos ownerPtr ownerLabs) s fun _ t => 10 ≤ t.pkt.remaining := by
  unfold compressOwner
  split
  · apply within_bind_read
    refine within_bind (within_still rfl rfl) fun _ _ _ _ => within_bind_read ?_
    refine within_bind writeFirstOwner_within fun ptr t _ ht => ?_
    refine within_bind compressTreeStore_within fun _ u _ hu => within_pure ?_
    rw [hu]
    exact ht
  · split
    · apply within_bind_read
      refine within_bind (within_still rfl rfl) fun _ _ _ _ =>
    within_bind_need fun hn => ?_
      refine within_bind (within_emit ?_) fun _ t _ ht => within_pure ?_
      · simp only [List.length_singleton]
        omega
      · simp only [List.length_singleton] at ht
        omega
    · exact within_bind (writeOwnerPtr_within (by omega)) fun _ t _ ht => within_pure (by omega)

end names

section records
variable {s : EncState} {key : PackedRrset} {cfg : EncodeConfig}

theorem length_memBytes : (memBytes len mem).length = len := by
  rw [memBytes, List.length_append, List.length_take, List.length_replicate]
  omega

theorem compressRdataLoop_within :
    Fed (compressRdataLoop wf count rdata todolen) s fun _ _ => True := by
  induction wf generalizing s count rdata todolen with
  | nil => exact within_pure trivial
  | cons rdf wf ih =>
    unfold compressRdataLoop
    split
    · exact within_pure trivial
    · split
      · exact within_bind compressAnyDname_within fun _ _ _ _ => ih
      · refine within_bind_need fun hn => ?_
        exact within_bind (within_emit (by rwa [length_memBytes])) fun _ _ _ _ => ih

theorem compressRdataBody_within (h : 2 ≤ s.pkt.remaining) :
    Fed (compressRdataBody data todolen desc) s fun _ _ => True := by
  have hskip : Within s { s with pkt := s.pkt.skip 2 } := by
    rw [Sbuffer.remaining_eq] at h
    constructor <;> simp only [Sbuffer.skip] <;> omega
  refine within_bind (Prog.Safe.update hskip id) fun _ _ _ _ => ?_
  refine within_bind compressRdataLoop_within fun r _ _ _ => ?_
  refine (within_need_emit ?_).mono fun _ _ _ _ => trivial
  rw [length_memBytes]

theorem compressRdata_within (h : 2 ≤ s.pkt.remaining) :
    Fed (compressRdata data todolen desc) s fun _ _ => True := by
  apply within_bind_read
  refine within_bind (compressRdataBody_within h) fun _ t hw _ => ?_
  refine (Prog.Safe.update (Within.writeAt ?_) id).mono fun _ _ _ _ => trivial
  rw [Sbuffer.remaining_eq] at h
  rw [hw.limit, length_u16Bytes]
  omega

theorem encodeRdata_within (h : 2 ≤ s.pkt.remaining) :
    Fed (encodeRdata c data) s fun _ _ => True := by
  cases c with
  | some desc => exact compressRdata_within h
  | none => exact (within_need_emit le_rfl).mono fun _ _ _ _ => trivial

theorem encodeData_within :
    Fed (encodeData cfg key adjust ownerPos rrs ownerPtr) s fun _ _ => True := by
  induction rrs generalizing s ownerPtr with
  | nil => exact within_pure trivial
  | cons rr rrs ih =>
    refine within_bind compressOwner_within fun ptr t _ ht => ?_
    have hlen : (rrHead key.type key.rrsetClass (replyTtl cfg adjust rr.ttl)).length = 8 := rfl
    refine within_bind (within_emit (by omega)) fun _ u _ hu => ?_
    exact within_bind (encodeRdata_within (by omega)) fun _ _ _ _ => ih

theorem encodeSigOwner_within :
    Fed (encodeSigOwner key ownerPtr len) s fun _ t => 8 + len ≤ t.pkt.remaining := by
  unfold encodeSigOwner
  split
  · exact (writeOwnerPtr_within (by omega)).mono fun _ t _ ht => by omega
  · refine within_bind compressAnyDname_within fun _ _ _ _ => within_need.mono ?_
    omega

theorem encodeSig_within : Fed (encodeSig cfg key adjust ownerPtr rr) s fun _ _ => True := by
  refine within_bind encodeSigOwner_within fun _ t _ ht => ?_
  have hlen : (rrHead 46 key.rrsetClass (replyTtl cfg adjust rr.ttl)).length = 8 := rfl
  refine within_bind (within_emit (by omega)) fun _ u _ hu => ?_
  exact (within_emit (by omega)).mono fun _ _ _ _ => trivial

theorem within_each {α : Type} {f : α → Enc Unit} {as : List α}
    (hf : ∀ a s, Fed (f a) s fun _ _ => True) : Fed (Prog.each f as) s fun _ _ => True :=
  Prog.Safe.each Within.refl Within.trans hf as s

theorem encodeRrset_within {adjust : Int} {rrs rrsigs : List PackedRr} :
    Fed (encodeRrset cfg key adjust rrs rrsigs) s fun _ _ => True := by
  apply within_bind_read
  exact within_bind encodeData_within fun _ _ _ _ => within_each fun _ _ => encodeSig_within

theorem addCount_within : Fed (addCount sect n) s fun _ _ => True :=
  (within_still (by cases sect <;> rfl) (by cases sect <;> rfl)).mono fun _ _ _ _ => trivial

theorem packedRrsetEncode_within :
    Fed (packedRrsetEncode cfg timenow doData doSig sect qtype dnssec rrOffset key) s
      fun _ _ => True := by
  unfold packedRrsetEncode
  split
  · exact within_pure trivial
  · exact within_bind encodeRrset_within fun _ _ _ _ => addCount_within

theorem trimOnError_within (h : Fed x s fun _ _ => True) :
    Fed (trimOnError x) s fun _ _ => True := by
  rcases hx : x s with ⟨e | _, t⟩
  · have hk := h.spec.1.of_run hx
    have hrun : trimOnError x s = (.error e, { t with pkt := t.pkt.setPosition s.pkt.position }) := by
      unfold trimOnError
      rw [hx]
    refine .of_error hrun ⟨hk.limit, hk.capacity, Nat.le_max_left _ _, hk.high, hk.grown⟩
      (fun hs => (h.keeps_run hx hs : t.Ample)) fun hs he => ?_
    rw [he] at hx
    exact h.never hs (congrArg Prod.fst hx)
  · have hrun : trimOnError x s = (.ok (), t) := by
      unfold trimOnError
      rw [hx]
    exact .of_ok hrun (h.spec.1.of_run hx) (h.keeps_run hx) trivial

theorem insertSection_within {rrsets : List PackedRrset} {timenow : Int} {sect : Section}
    {qtype : UInt16} {dnssec : Bool} {rrOffset : Nat} :
    Fed (insertSection cfg rrsets timenow sect qtype dnssec rrOffset) s fun _ _ => True := by
  unfold insertSection
  split
  · exact within_each fun _ _ => trimOnError_within packedRrsetEncode_within
  · exact within_bind (within_each fun _ _ => trimOnError_within packedRrsetEncode_within)
      fun _ _ _ _ => within_each fun _ _ => trimOnError_within packedRrsetEncode_within

end records

section memory
variable {cfg : EncodeConfig}

theorem orFinish_fed (hs : s.Ample)
    (hx : Fed x s fun _ _ => True) (hnext : ∀ u : EncState, u.Ample → (next u).1 = true) :
    (orFinish x finish next s).1 = true := by
  unfold orFinish
  rcases hr : x s with ⟨(_ | _) | _, t⟩
  · rfl
  · exact absurd (congrArg Prod.fst hr) (hx.never hs)
  · exact hnext t (hx.keeps_run hr hs)

theorem EncState.Ample.writeCount (hs : s.Ample) (sect : Section) : (writeCount sect s).Ample := by
  cases sect <;> exact hs

theorem replySections_fed {qinfo : QueryInfo} {rep : ReplyInfo} {id flags : UInt16}
    {timenow : Int} {dnssec minimise : Bool} {s : EncState} (hs : s.Ample) :
    (replySections cfg qinfo rep id flags timenow dnssec minimise s).1 = true := by
  refine orFinish_fed hs insertSection_within fun s1 hs1 => ?_
  refine orFinish_fed hs1 insertSection_within fun s2 hs2 => ?_
  split
  · rfl
  refine orFinish_fed (hs2.writeCount _) insertSection_within fun s3 hs3 => ?_
  split
  · rfl
  exact orFinish_fed (hs3.writeCount _) insertSection_within fun _ _ => rfl

end memory

section reply
variable {cfg : EncodeConfig} {qinfo : QueryInfo} {rep : ReplyInfo} {id flags udpsize : UInt16}
  {buffer : Sbuffer} {timenow : Int} {region : Nat → Bool} {dnssec minimise : Bool} {t : EncState}

theorem orFinish_cases (h : orFinish x finish next s = r) :
    (∃ v u, x s = (.ok v, u) ∧ next u = r) ∨
      (∃ u, x s = (.error .trunc, u) ∧ r = (true, flipPkt (finish u))) ∨
      ∃ u, x s = (.error .outmem, u) ∧ r = (false, u) := by
  unfold orFinish at h
  rcases hx : x s with ⟨(_ | _) | v, u⟩
  · rw [hx] at h
    exact .inr (.inl ⟨u, rfl, h.symm⟩)
  · rw [hx] at h
    exact .inr (.inr ⟨u, rfl, h.symm⟩)
  · rw [hx] at h
    exact .inl ⟨v, u, rfl, h⟩

theorem orFinish_pure : orFinish (pure v) finish next s = next s := rfl

theorem orFinish_within (hb : Within b s) (hx : Fed x s fun _ _ => True)
    (h : orFinish x finish next s = (true, t)) (hfin : ∀ u, Within b u → Within b (finish u))
    (hnext : ∀ u, Within b u → next u = (true, t) → ∃ v, t = flipPkt v ∧ Within b v) :
    ∃ v, t = flipPkt v ∧ Within b v := by
  rcases orFinish_cases h with ⟨_, u, hr, hn⟩ | ⟨u, hr, ht⟩ | ⟨u, hr, ht⟩
  · exact hnext u (Within.trans _ _ _ hb (hx.spec.1.of_run hr)) hn
  · cases ht
    exact ⟨_, rfl, hfin u (Within.trans _ _ _ hb (hx.spec.1.of_run hr))⟩
  · cases ht

theorem replySections_within (hlim : 12 ≤ s.pkt.limit)
    (h : replySections cfg qinfo rep id flags timenow dnssec minimise s = (true, t)) :
    ∃ v, t = flipPkt v ∧ Within s v := by
  have hcount : ∀ (sect : Section) (u : EncState), Within s u → Within s (writeCount sect u) :=
    fun sect u hu => Within.trans _ _ _ hu (Within.writeCount (hu.limit ▸ hlim) sect)
  have htc : ∀ (sect : Section) (u : EncState), Within s u → Within s (tcSet (writeCount sect u)) :=
    fun sect u hu => Within.trans _ _ _ (hcount sect u hu)
      (Within.tcSet ((hcount sect u hu).limit ▸ hlim))
  refine orFinish_within (Within.refl s) insertSection_within h (htc .answer) fun s1 hs1 h1 => ?_
  refine orFinish_within hs1 insertSection_within h1 (htc .answer) fun s2 hs2 h2 => ?_
  split at h2
  · cases h2
    exact ⟨_, rfl, hcount .answer s2 hs2⟩
  refine orFinish_within (hcount .answer s2 hs2) insertSection_within h2 (htc .authority)
    fun s3 hs3 h3 => ?_
  split at h3
  · cases h3
    exact ⟨_, rfl, hcount .authority s3 hs3⟩
  refine orFinish_within (hcount .authority s3 hs3) insertSection_within h3 (hcount .additional)
    fun s4 hs4 h4 => ?_
  cases h4
  exact ⟨_, rfl, hcount .additional s4 hs4⟩

theorem insertQuery_pkt (h : insertQuery qinfo s = (.ok v, t)) :
    wireLen qinfo.qname + 4 ≤ s.pkt.remaining ∧ t.pkt.limit = s.pkt.limit ∧
      t.pkt.capacity = s.pkt.capacity ∧
      t.pkt.position = s.pkt.position + wireLen (questionName qinfo) + 4 ∧
      t.pkt.high = max s.pkt.high t.pkt.position ∧ (s.Ample → t.Ample) := by
  obtain ⟨_, _, h1, h⟩ := Prog.bind_ok h
  obtain ⟨hneed, rfl⟩ := Prog.require_ok h1
  obtain ⟨pos, _, h2, h⟩ := Prog.bind_ok h
  cases h2
  obtain ⟨_, s1, h3, h⟩ := Prog.bind_ok h
  obtain ⟨_, s2, h4, h⟩ := Prog.bind_ok h
  obtain ⟨hpkt, hfed⟩ : s2.pkt = s.pkt ∧ (s.Ample → s2.Ample) := by
    cases h3
    have hstore := compressTreeStore_within.spec.2 _ _ h4
    have hkeeps := fun hs => compressTreeStore_within.keeps_run h4 hs
    exact ⟨hstore, hkeeps⟩
  obtain ⟨_, s3, h5, h6⟩ := Prog.bind_ok h
  refine ⟨of_decide_eq_true hneed, ?_⟩
  obtain ⟨ht, hreg⟩ : t.pkt = s3.pkt.write (u16Bytes qinfo.qtype.toNat ++
      u16Bytes qinfo.qclass.toNat) ∧ t.region = s3.region := by
    cases h6
    exact ⟨rfl, rfl⟩
  have h3 : s3.pkt.limit = s.pkt.limit ∧ s3.pkt.capacity = s.pkt.capacity ∧
      s3.pkt.position = s.pkt.position + wireLen (questionName qinfo) ∧
      s.pkt.high ≤ s3.pkt.high ∧ s3.pkt.high ≤ max s.pkt.high s3.pkt.position ∧
      s3.region = s2.region := by
    unfold writeQname at h5
    split at h5
    · cases h5
      simp only [hpkt, Sbuffer.skip, true_and, and_true]
      omega
    · cases h5
      simp only [hpkt, Sbuffer.write, Sbuffer.writeAt, length_wire, true_and, and_true]
      split <;> omega
  obtain ⟨hl, hc, hp, hlo, hhi, hreg3⟩ := h3
  have hample : s.Ample → t.Ample := by
    unfold EncState.Ample at hfed ⊢
    rwa [hreg, hreg3]
  refine and_assoc.1 (and_assoc.1 (and_assoc.1 ⟨?_, hample⟩))
  rw [ht]
  simp only [Sbuffer.write, Sbuffer.writeAt, u16Bytes, List.cons_append, List.nil_append,
    List.length_cons, List.length_nil, reduceCtorEq, ↓reduceIte, hl, hc, hp, true_and]
  omega

theorem compressTreeStoreLoop_error
    (h : compressTreeStoreLoop closest insertpt uplabs dname labs offset vine s = (.error e, t)) :
    e = .outmem ∧ t.pkt = s.pkt := by
  induction uplabs generalizing dname labs offset vine s with
  | zero =>
    unfold compressTreeStoreLoop hangVine at h
    split at h <;> cases h
  | succ uplabs ih =>
    unfold compressTreeStoreLoop at h
    split at h
    · cases h
    rcases Prog.bind_error h with h | ⟨_, u, hu, h⟩
    · unfold regionalAlloc at h
      split at h <;> cases h
      exact ⟨rfl, rfl⟩
    · unfold regionalAlloc at hu
      split at hu <;> cases hu
      have hp := ih h
      exact hp

theorem insertQuery_error (h : insertQuery qinfo s = (.error e, t)) :
    t.pkt = s.pkt ∧ (e = .trunc → t = s ∧ s.pkt.remaining < wireLen qinfo.qname + 4) ∧
      (e = .outmem → ¬ s.Ample) := by
  rcases Prog.bind_error h with h | ⟨_, _, h1, h⟩
  · unfold need Prog.require at h
    split at h
    · cases h
    · rename_i hn
      cases h
      exact ⟨rfl, fun _ => ⟨rfl, by simpa using hn⟩, nofun⟩
  obtain ⟨-, rfl⟩ := Prog.require_ok h1
  rcases Prog.bind_error h with h | ⟨_, _, h2, h⟩
  · cases h
  cases h2
  rcases Prog.bind_error h with h | ⟨_, _, h3, h⟩
  · cases h
  cases h3
  rcases Prog.bind_error h with h | ⟨_, _, -, h⟩
  · obtain ⟨rfl, hp⟩ := compressTreeStoreLoop_error h
    have hfed := fun hs => compressTreeStore_within.never hs (congrArg Prod.fst h)
    exact ⟨hp, nofun, fun _ => hfed⟩
  rcases Prog.bind_error h with h | ⟨_, _, -, h⟩
  · unfold writeQname at h
    split at h <;> cases h
  · cases h

theorem startPkt_limit : (startPkt buffer udpsize).limit = min udpsize.toNat buffer.capacity := by
  unfold startPkt
  split
  · rename_i h
    exact (Nat.min_eq_left (le_of_lt h)).symm
  · exact (Nat.min_eq_right (by omega)).symm

theorem startPkt_capacity : (startPkt buffer udpsize).capacity = buffer.capacity := by
  unfold startPkt
  split <;> rfl

theorem startPkt_high : (startPkt buffer udpsize).high = buffer.high := by
  unfold startPkt
  split <;> rfl

theorem startPkt_position : (startPkt buffer udpsize).position = 0 := by
  unfold startPkt
  split <;> rfl

theorem startPkt_header (id flags : UInt16) (qdcount : UInt8) :
    ∃ pkt, (startPkt buffer udpsize).write (replyHeader id flags qdcount) = pkt ∧
      pkt.limit = min udpsize.toNat buffer.capacity ∧ pkt.capacity = buffer.capacity ∧
      pkt.position = 12 ∧ pkt.high = max buffer.high 12 := by
  refine ⟨_, rfl, startPkt_limit, startPkt_capacity, ?_, ?_⟩
  · rw [Sbuffer.position_write, startPkt_position]
    rfl
  · simp [Sbuffer.write, Sbuffer.writeAt, startPkt_position, startPkt_high, replyHeader, u16Bytes]

/-- Behind the header and the question, nothing is written past the limit. -/
theorem replyInfoEncode_within
    (h : replyInfoEncode cfg qinfo rep id flags buffer timenow region udpsize dnssec minimise =
      (true, t)) :
    ∃ b v, t = flipPkt v ∧ Within b v ∧ b.pkt.limit = min udpsize.toNat buffer.capacity ∧
      12 ≤ b.pkt.limit ∧ b.pkt.capacity = buffer.capacity ∧
      b.pkt.high = max buffer.high b.pkt.position ∧
      (b.pkt.position = 12 ∨ rep.qdcount ≠ 0 ∧ wireLen qinfo.qname + 16 ≤ b.pkt.limit ∧
        b.pkt.position = wireLen (questionName qinfo) + 16) := by
  unfold replyInfoEncode at h
  dsimp only at h
  split at h
  · cases h
  rename_i hrem
  rw [Sbuffer.remaining_eq, startPkt_position, startPkt_limit, Nat.sub_zero, Nat.not_lt] at hrem
  obtain ⟨pkt, hpkt, hl, hc, hp, hh⟩ :=
    @startPkt_header udpsize buffer id flags rep.qdcount
  rw [hpkt] at h
  split at h
  · rename_i hqd
    rcases orFinish_cases h with ⟨_, b, hr, hn⟩ | ⟨u, hr, ht⟩ | ⟨u, hr, ht⟩
    · obtain ⟨hneed, hbl, hbc, hbp, hbh, -⟩ := insertQuery_pkt hr
      rw [Sbuffer.remaining_eq] at hneed
      simp only [hl, hc, hp, hh] at hneed hbl hbc hbp hbh
      obtain ⟨v, ht, hv⟩ := replySections_within (by omega) hn
      exact ⟨b, v, ht, hv, hbl, by omega, hbc, by omega, .inr ⟨hqd, by omega, by omega⟩⟩
    · cases ht
      obtain ⟨rfl, -⟩ := (insertQuery_error hr).2.1 rfl
      refine ⟨_, _, rfl, Within.trans _ _ _ (Within.writeAt ?_) (Within.tcSet ?_), hl, ?_, hc, ?_,
        .inl hp⟩
      · simp only [length_u16Bytes]
        omega
      · change 12 ≤ pkt.limit
        omega
      · simp only
        omega
      · simp only
        omega
    · cases ht
  · rw [orFinish_pure] at h
    obtain ⟨v, ht, hv⟩ := replySections_within (hl ▸ hrem) h
    exact ⟨_, v, ht, hv, hl, hl ▸ hrem, hc, by simp only [hh, hp], .inl hp⟩

/-- A question that passes the check on `qname` is written, whatever the length of its name. -/
theorem replyInfoEncode_question (hr : ∀ i, region i = true) (hqd : rep.qdcount ≠ 0)
    (hfit : wireLen qinfo.qname + 16 ≤ min udpsize.toNat buffer.capacity) :
    ∃ t, replyInfoEncode cfg qinfo rep id flags buffer timenow region udpsize dnssec minimise =
      (true, t) ∧ wireLen (questionName qinfo) + 16 ≤ t.pkt.high := by
  unfold replyInfoEncode
  rw [if_neg (by
    rw [Sbuffer.remaining_eq, startPkt_position, startPkt_limit]
    omega), if_pos hqd]
  obtain ⟨pkt, hpkt, hl, -, hp, -⟩ := @startPkt_header udpsize buffer id flags rep.qdcount
  rw [hpkt]
  generalize hs : (⟨pkt, .null, region, 0, 0, 0, [], []⟩ : EncState) = s
  have hpkt : s.pkt = pkt := by rw [← hs]
  have hample : s.Ample := by
    rw [← hs]
    exact hr
  rcases hx : insertQuery qinfo s with ⟨(_ | _) | _, u⟩
  · have hno := ((insertQuery_error hx).2.1 rfl).2
    rw [Sbuffer.remaining_eq, hpkt, hl, hp] at hno
    omega
  · exact absurd hample ((insertQuery_error hx).2.2 rfl)
  obtain ⟨-, hul, -, hup, huh, hfed⟩ := insertQuery_pkt hx
  rw [hpkt] at hul hup huh
  have htrue := @replySections_fed cfg qinfo rep id flags timenow dnssec minimise u (hfed hample)
  obtain ⟨v, hv, hw⟩ := replySections_within (show 12 ≤ u.pkt.limit by omega) (Prod.ext htrue rfl)
  refine ⟨flipPkt v, ?_, ?_⟩
  · unfold orFinish
    rw [hx]
    exact Prod.ext htrue hv
  · have := hw.grown
    change _ ≤ v.pkt.high
    omega

end reply

end CwdGate.Encode
