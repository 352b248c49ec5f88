import CwdGate.Validator.CanonicalForm

namespace CwdGate.Sigcrypt
open Lib List
open Validator (SecStatus)

section

section lowercase
variable {d : Name}

theorem tolower_eq_asterisk : ∀ b : UInt8, tolower b = 42 → b = 42 :=
  forall_octet (by decide +kernel)

theorem lowerLabel_eq_asterisk (h : lowerLabel l = [42]) : l = [42] := by
  obtain ⟨b, rfl, hb⟩ := map_eq_singleton_iff.1 h
  rw [tolower_eq_asterisk b hb]

theorem dnameIsWild_iff : dnameIsWild d = true ↔ ∃ n, lowerName d = [42] :: n := by
  cases d with
  | nil => exact ⟨(nomatch ·), fun h => nomatch h.choose_spec⟩
  | cons l d =>
    constructor
    · intro h
      have hl : l = [42] := by simpa [dnameIsWild] using h
      exact ⟨lowerName d, by rw [hl]; rfl⟩
    · rintro ⟨n, h⟩
      have hl := lowerLabel_eq_asterisk (cons.inj h).1
      rw [hl]
      rfl

theorem dnameIsWild_congr (h : lowerName d = lowerName e) : dnameIsWild d = dnameIsWild e := by
  rw [Bool.eq_iff_iff, dnameIsWild_iff, dnameIsWild_iff, h]

theorem lowerName_drop : lowerName (d.drop n) = (lowerName d).drop n :=
  map_drop

section
variable (h : lowerName d = lowerName e)
include h

theorem length_congr : d.length = e.length := by
  rw [← length_lowerName d, h, length_lowerName]

theorem signame_congr : dnameSignameLabelCount d = dnameSignameLabelCount e := by
  rw [dnameSignameLabelCount, dnameSignameLabelCount, dnameIsWild_congr h, length_tail,
    length_tail, length_congr h]

theorem dnameSubdomainC_congr : dnameSubdomainC d n = dnameSubdomainC e n := by
  rw [Bool.eq_iff_iff, dnameSubdomainC_iff, dnameSubdomainC_iff, key, key, key, h]

theorem canOwner_congr : lowerName (canOwner d labels) = lowerName (canOwner e labels) := by
  rw [canOwner, canOwner, signame_congr h]
  split
  · exact h
  · apply congrArg (lowerLabel [42] :: ·)
    change lowerName (d.drop _) = lowerName (e.drop _)
    rw [lowerName_drop, lowerName_drop, h]

theorem sigFields_congr : sigFields d type dnskey idx sig = sigFields e type dnskey idx sig := by
  simp only [sigFields, dnameSubdomainC_congr h, signame_congr h]

end

theorem canOwner_eq_iff (hle : labels ≤ dnameSignameLabelCount d) :
    lowerName (canOwner d labels) = lowerName d ↔ (labels < dnameSignameLabelCount d →
        dnameIsWild d = true ∧ labels + 1 = dnameSignameLabelCount d) := by
  by_cases heq : labels = dnameSignameLabelCount d
  · rw [canOwner, if_pos heq]
    exact ⟨fun _ hlt => absurd heq (ne_of_lt hlt), fun _ => rfl⟩
  have hcount := signame_le_length d
  have hlt := lt_of_le_of_ne hle heq
  have hlow : lowerName (canOwner d labels) =
      [42] :: lowerName (d.drop (dnameSignameLabelCount d - labels)) := by
    rw [canOwner, if_neg heq]
    rfl
  rw [hlow]
  constructor
  · intro h _
    have hlen := congrArg length h
    rw [length_cons, length_lowerName, length_lowerName, length_drop] at hlen
    exact ⟨dnameIsWild_iff.2 ⟨_, h.symm⟩, by omega⟩
  · intro h
    obtain ⟨hwild, hone⟩ := h hlt
    obtain ⟨n, hn⟩ := dnameIsWild_iff.1 hwild
    rw [show dnameSignameLabelCount d - labels = 1 by omega, lowerName_drop, hn]
    rfl

theorem canOwner_valid (hv : ValidName d)
    (hle : labels ≤ dnameSignameLabelCount d) : ValidName (canOwner d labels) := by
  have hlab := canOwner_labels hv labels
  refine ⟨fun l hl => (hlab l hl).1, fun l hl => (hlab l hl).2, ?_⟩
  rw [canOwner]
  split
  · exact hv.len_le
  next hne =>
    have hcount := signame_le_length d
    obtain ⟨j, hj⟩ : ∃ j, dnameSignameLabelCount d - labels = j + 1 :=
      ⟨dnameSignameLabelCount d - labels - 1, by omega⟩
    have hlen := hv.len_le
    rw [hj, dnameRemoveLabels, wireLen]
    cases d with
    | nil =>
      rw [length_nil] at hcount
      omega
    | cons l d =>
      have hpos := hv.label_pos l mem_cons_self
      have happ := wireLen_append (d.take j) (d.drop j)
      have htake := wireLen_pos (d.take j)
      rw [take_append_drop] at happ
      rw [wireLen] at hlen
      change [42].length + 1 + wireLen (d.drop j) ≤ 255
      rw [length_singleton]
      omega

end lowercase

/-- An RRset as it is stored: there is a record, and every rdata has its length in front. -/
structure Packed (k : Rrset) : Prop where
  rrs_ne : k.rrs ≠ []
  len_ge : ∀ r ∈ k.rrs, 2 ≤ r.data.length

structure StateOk (c : Setting) (cap : Nat) (s : VerifyState) : Prop where
  valid : ValidName s.dname
  capacity : s.buf.capacity = cap
  sortree : s.sortree = none ∨
    s.sortree = some (canonicalSort c.rrset) ∧ c.rrset.rrs.length ≤ rrCountMax

/-- The octets of the canonical form for an owner name, and whether all of them fit. -/
def Setting.form (c : Setting) (cap : Nat) (d : Name) (sig : List UInt8) (signerLen : Nat) :
    Bool × List UInt8 :=
  formBytes cap { c.rrset with dname := d } (sig.drop 2) (18 + signerLen) (canonicalSort c.rrset)

def Setting.fits (c : Setting) (cap : Nat) (d : Name) (sig : List UInt8) (signerLen : Nat) :
    Bool := c.rrset.rrs.length ≤ rrCountMax && (c.form cap d sig signerLen).1

/-- An NSEC of the authority section, for which `rrset_canonical` replaces the owner name. -/
def Setting.replacesOwner (c : Setting) : Bool :=
  c.rrset.type = 47 ∧ c.sect = .authority ∧ c.hasQstate

def Setting.ownerAfter (c : Setting) (d : Name) (sig : List UInt8) : Name :=
  if c.replacesOwner then lowerName (canOwner d (octetAt sig 5)) else d

variable {c : Setting} {cap : Nat} {s : VerifyState} {sig : List UInt8}

theorem canonBytes_dname (d : Name) (owner : List UInt8) (ttl : Nat → List UInt8) (walk : List Nat)
    (known : Bool) (xs : List UInt8) :
    canonBytes cap { k with dname := d } owner ttl walk known xs =
      canonBytes cap k owner ttl walk known xs := by
  induction walk generalizing known xs with
  | nil => rfl
  | cons i walk ih =>
    rw [canonBytes, canonBytes, ih]
    rfl

theorem Setting.form_congr (h : lowerName d = lowerName e) :
    c.form cap d sig signerLen = c.form cap e sig signerLen := by
  have heq : ∀ d, c.form cap d sig signerLen = canonBytes cap c.rrset
      (wire (lowerName (canOwner d ((sig.drop 2).getD 3 0).toNat)))
      (fun _ => ((sig.drop 2).drop 4).take 4) (canonicalSort c.rrset) false
      (lowerAt (cap + 128) 18 ((sig.drop 2).take (18 + signerLen))) :=
    fun d => canonBytes_dname d _ _ _ _ _
  rw [heq, heq, canOwner_congr h]

theorem Packed.sort_ne (h : Packed c.rrset) : canonicalSort c.rrset ≠ [] := by
  obtain ⟨r, rest, hr⟩ := exists_cons_of_ne_nil h.rrs_ne
  obtain ⟨j, hj, -⟩ := @exists_mem_insertAll _ (canonicalCompare c.rrset) (fun _ => if_pos rfl)
    (range c.rrset.rrs.length) [] 0 (mem_range.2 (by rw [hr]; exact Nat.succ_pos _))
  exact ne_nil_of_mem hj

theorem Packed.sort_len (h : Packed c.rrset) :
    ∀ i ∈ canonicalSort c.rrset, 2 ≤ (c.rrset.rrData i).length := by
  intro i hi
  obtain ⟨r, hr, heq⟩ := Rrset.rrData_mem (mem_canonicalSort hi)
  rw [heq]
  exact h.len_ge r hr

/-- The owner name in lower case, and the canonical form once it is made. -/
structure View where
  name : Name
  canon : Option (List UInt8)

def VerifyState.view (s : VerifyState) : View :=
  ⟨lowerName s.dname, if s.bufCanon then some (bytesAt s.buf.data 0 s.buf.limit) else none⟩

structure Canonicalized (c : Setting) (cap : Nat) (s : VerifyState) (sig : List UInt8)
    (signerLen : Nat) (r : Bool × VerifyState) : Prop where
  ok : r.1 = c.fits cap s.dname sig signerLen
  state : StateOk c cap r.2
  view : r.2.view =
    if c.fits cap s.dname sig signerLen then
      ⟨lowerName (c.ownerAfter s.dname sig), some (c.form cap s.dname sig signerLen).2⟩
    else ⟨lowerName s.dname, none⟩

theorem StateOk.canonicalize (hk : Packed c.rrset) (hs : StateOk c cap s)
    (hcanon : s.bufCanon = false) (hsig : SigOk s.dname sig signerLen) :
    Canonicalized c cap s sig signerLen (s.canonicalize c sig signerLen) := by
  have hlabels := getD_drop_octet sig 3
  obtain ⟨hform, known, hat, hknown⟩ := @canonicalForm_bytes s.buf
    { c.rrset with dname := s.dname } (sig.drop 2) (18 + signerLen) (canonicalSort c.rrset)
    hs.valid (hlabels ▸ hsig.labels) hk.sort_len
  rw [hs.capacity] at hform hat hknown
  have htree : s.sortree.getD (canonicalSort { c.rrset with dname := s.dname }) =
      canonicalSort c.rrset := by
    rcases hs.sortree with h | ⟨h, -⟩ <;> rw [h] <;> rfl
  rw [VerifyState.canonicalize, hcanon, if_neg Bool.false_ne_true, rrsetCanonical]
  by_cases hcount : s.sortree = none ∧ c.rrset.rrs.length > rrCountMax
  · have hfits : c.fits cap s.dname sig signerLen = false := by
      rw [Setting.fits, decide_eq_false (Nat.not_le_of_lt hcount.2)]
      rfl
    rw [if_pos hcount]
    exact ⟨hfits.symm, ⟨hs.valid, hs.capacity, hs.sortree⟩, by rw [hfits]; rfl⟩
  · have hle : c.rrset.rrs.length ≤ rrCountMax := by
      rcases hs.sortree with h | ⟨-, h⟩
      · exact le_of_not_gt fun hlt => hcount ⟨h, hlt⟩
      · exact h
    rw [if_neg hcount, htree]
    dsimp only
    generalize canonicalForm s.buf { c.rrset with dname := s.dname } (sig.drop 2) (18 + signerLen)
      (canonicalSort c.rrset) = r at hform hat ⊢
    have hfits : c.fits cap s.dname sig signerLen = r.1 := by
      rw [Setting.fits, decide_eq_true hle, Bool.true_and, hform]
      rfl
    rw [← hfits]
    cases hok : c.fits cap s.dname sig signerLen with
    | false =>
      exact ⟨hok.symm, ⟨hs.valid, hat.capacity, .inr ⟨rfl, hle⟩⟩, by rw [hok]; rfl⟩
    | true =>
      have hbytes := hat.bytes
      rw [← hat.position] at hbytes
      have hnew := canOwner_valid hs.valid hsig.labels
      have hlow := ValidName.of_lower (lowerName_lowerName _) hnew
      have hread : nameAt (bytesAt r.2.buf.data (r.2.canOwner.getD 0) r.2.canOwnerLen) =
          lowerName (canOwner s.dname (octetAt sig 5)) := by
        rw [hknown hk.sort_ne (by rw [← hform, ← hfits, hok])] at hat
        rw [hat.bytes_owner, hlabels]
        have := nameAt_wire hlow []
        rwa [append_nil] at this
      by_cases hrep : c.rrset.type = 47 ∧ c.sect = .authority ∧ c.hasQstate = true
      · have howner : c.ownerAfter s.dname sig = lowerName (canOwner s.dname (octetAt sig 5)) :=
          if_pos (decide_eq_true hrep)
        rw [if_neg (by decide), if_pos hrep]
        refine ⟨hok.symm, ⟨hread.symm ▸ hlow, hat.capacity, .inr ⟨rfl, hle⟩⟩, ?_⟩
        rw [hok, if_pos rfl, howner, ← hread]
        exact congrArg (View.mk _ <| some ·) hbytes
      · have howner : c.ownerAfter s.dname sig = s.dname :=
          if_neg fun h => hrep (of_decide_eq_true h)
        rw [if_neg (by decide), if_neg hrep]
        refine ⟨hok.symm, ⟨hs.valid, hat.capacity, .inr ⟨rfl, hle⟩⟩, ?_⟩
        rw [hok, if_pos rfl, howner]
        exact congrArg (View.mk _ <| some ·) hbytes

structure Keeps (s t : VerifyState) : Prop where
  dname : t.dname = s.dname
  buf : t.buf = s.buf
  sortree : t.sortree = s.sortree
  bufCanon : t.bufCanon = s.bufCanon

theorem VerifyState.keeps_fail (s : VerifyState) (why : String × EdeCode) : Keeps s (s.fail why) :=
  ⟨rfl, rfl, rfl, rfl⟩

theorem VerifyState.keeps_verify (s : VerifyState) (c : Setting) (idx : Nat) (sig : List UInt8)
    (signerLen : Nat) : Keeps s (s.verify c idx sig signerLen).2 := by
  rw [VerifyState.verify]
  cases dnskeyGetPubkey c.dnskey idx with
  | none => exact ⟨rfl, rfl, rfl, rfl⟩
  | some key =>
    dsimp only
    split
    · cases checkDates c.env sig with
      | none => exact ⟨rfl, rfl, rfl, rfl⟩
      | some why => exact ⟨rfl, rfl, rfl, rfl⟩
    · exact ⟨rfl, rfl, rfl, rfl⟩

theorem Keeps.stateOk (h : Keeps s t) (hs : StateOk c cap s) : StateOk c cap t :=
  ⟨h.dname ▸ hs.valid, h.buf ▸ hs.capacity, h.sortree ▸ hs.sortree⟩

theorem Keeps.view (h : Keeps s t) : t.view = s.view := by
  rw [VerifyState.view, VerifyState.view, h.dname, h.bufCanon, h.buf]

def Setting.verdict (c : Setting) (idx : Nat) (sig : List UInt8) (signerLen : Nat)
    (canon : List UInt8) : SecStatus :=
  match dnskeyGetPubkey c.dnskey idx with
  | none => .unchecked
  | some key =>
    let sec := (c.env.verifyCanonrrset canon (octetAt sig 4) (sig.drop (20 + signerLen)) key).1
    if sec = .secure ∧ (checkDates c.env sig).isSome then .bogus else sec

theorem VerifyState.verify_fst : (s.verify c idx sig signerLen).1 =
    c.verdict idx sig signerLen (bytesAt s.buf.data 0 s.buf.limit) := by
  rw [VerifyState.verify, Setting.verdict]
  cases dnskeyGetPubkey c.dnskey idx with
  | none => rfl
  | some key =>
    dsimp only
    split
    next hsec => cases checkDates c.env sig <;> simp [hsec]
    next hsec => rw [if_neg fun h => hsec h.1]

theorem Setting.fits_congr (h : lowerName d = lowerName e) :
    c.fits cap d sig signerLen = c.fits cap e sig signerLen := by
  rw [Setting.fits, Setting.fits, Setting.form_congr h]

theorem Setting.ownerAfter_congr (h : lowerName d = lowerName e) :
    lowerName (c.ownerAfter d sig) = lowerName (c.ownerAfter e sig) := by
  rw [Setting.ownerAfter, Setting.ownerAfter]
  split
  · rw [canOwner_congr h]
  · exact h

def Setting.Reaches (c : Setting) (cap : Nat) (d : Name) (sig : List UInt8) (i : Nat) : Prop :=
  ∃ signerLen, sigFields d c.rrset.type c.dnskey i sig = .ok signerLen ∧
    c.fits cap d sig signerLen = true

theorem Setting.reaches_congr (h : lowerName d = lowerName e) :
    c.Reaches cap d sig i ↔ c.Reaches cap e sig i := by
  simp only [Setting.Reaches, sigFields_congr h, Setting.fits_congr h]

def View.trial (c : Setting) (cap : Nat) (sig : List UInt8) (i : Nat) (v : View) :
    SecStatus × View :=
  match sigFields v.name c.rrset.type c.dnskey i sig, v.canon with
  | .error _, _ => (.bogus, v)
  | .ok signerLen, some bytes => (c.verdict i sig signerLen bytes, v)
  | .ok signerLen, none =>
    if c.fits cap v.name sig signerLen then
      (c.verdict i sig signerLen (c.form cap v.name sig signerLen).2,
        ⟨lowerName (c.ownerAfter v.name sig), some (c.form cap v.name sig signerLen).2⟩)
    else (.unchecked, v)

theorem StateOk.trial (hk : Packed c.rrset) (hs : StateOk c cap s) (sig : List UInt8) (i : Nat) :
    StateOk c cap (dnskeyVerifyRrsetSig c i sig s).2 ∧
      ((dnskeyVerifyRrsetSig c i sig s).1, (dnskeyVerifyRrsetSig c i sig s).2.view) =
        s.view.trial c cap sig i := by
  have hlow : lowerName s.view.name = lowerName s.dname := lowerName_lowerName _
  rw [dnskeyVerifyRrsetSig, View.trial, sigFields_congr hlow]
  cases hf : sigFields s.dname c.rrset.type c.dnskey i sig with
  | error why =>
    have hkeep := s.keeps_fail why
    exact ⟨hkeep.stateOk hs, Prod.ext rfl hkeep.view⟩
  | ok signerLen =>
    cases hcanon : s.bufCanon with
    | true =>
      have hc : s.canonicalize c sig signerLen = (true, s) := if_pos hcanon
      have hv : s.view.canon = some (bytesAt s.buf.data 0 s.buf.limit) := if_pos hcanon
      have hkeep := s.keeps_verify c i sig signerLen
      dsimp only
      rw [hc, hv, if_pos rfl]
      exact ⟨hkeep.stateOk hs, Prod.ext VerifyState.verify_fst hkeep.view⟩
    | false =>
      have hc := hs.canonicalize hk hcanon (sigFields_ok hf)
      have hv : s.view.canon = none := if_neg (by rw [hcanon]; decide)
      have hview := hc.view
      rw [hv]
      dsimp only
      rw [hc.ok, Setting.fits_congr hlow, Setting.form_congr hlow]
      split
      next hfits =>
        have hkeep := (s.canonicalize c sig signerLen).2.keeps_verify c i sig signerLen
        rw [if_pos hfits] at hview
        refine ⟨hkeep.stateOk hc.state, Prod.ext ?_ ?_⟩
        · have hcanon := congrArg View.canon hview
          rw [VerifyState.view] at hcanon
          split at hcanon
          · rw [VerifyState.verify_fst, Option.some.inj hcanon]
          · cases hcanon
        · rw [hkeep.view, hview, Setting.ownerAfter_congr hlow]
      next hfits =>
        rw [if_neg hfits] at hview
        exact ⟨hc.state, Prod.ext rfl (by rw [hview, ← hv]; rfl)⟩

variable {v : View} {keys : List Nat}

theorem View.trial_canon (h : v.canon = some bytes) : (v.trial c cap sig i).2 = v := by
  rw [View.trial, h]
  split <;> first | rfl | contradiction

theorem View.trial_reaches (hv : v.canon = none) (h : c.Reaches cap v.name sig i) :
    ∃ bytes, (v.trial c cap sig i).2 = ⟨lowerName (c.ownerAfter v.name sig), some bytes⟩ := by
  obtain ⟨signerLen, hf, hfits⟩ := h
  rw [View.trial, hf, hv]
  dsimp only
  rw [if_pos hfits]
  exact ⟨_, rfl⟩

theorem View.trial_not_reaches (hv : v.canon = none) (h : ¬ c.Reaches cap v.name sig i) :
    (v.trial c cap sig i).1 ≠ .secure ∧ (v.trial c cap sig i).2 = v := by
  rw [View.trial, hv]
  cases hf : sigFields v.name c.rrset.type c.dnskey i sig with
  | error why => exact ⟨nofun, rfl⟩
  | ok signerLen =>
    dsimp only
    rw [if_neg fun hfits => h ⟨signerLen, hf, hfits⟩]
    exact ⟨nofun, rfl⟩

/-- The status, the number of trials and the view behind the trials of the keys. -/
def keysView (c : Setting) (cap : Nat) (sig : List UInt8) :
    List Nat → Nat → Nat → View → SecStatus × Nat × View
  | [], nc, ni, v =>
    (if nc = 0 then .bogus else if ni = nc then .indeterminate else .bogus, 0, v)
  | i :: keys, nc, ni, v =>
    if ¬ keyMatches c.dnskey sig i then keysView c cap sig keys nc ni v
    else
      let r := v.trial c cap sig i
      if r.1 = .secure then (r.1, 1, r.2)
      else
        let q := keysView c cap sig keys (nc + 1) (if r.1 = .indeterminate then ni + 1 else ni) r.2
        (q.1, q.2.1 + 1, q.2.2)

theorem keysView_canon (h : v.canon = some bytes) : (keysView c cap sig keys nc ni v).2.2 = v := by
  induction keys generalizing nc ni with
  | nil => rfl
  | cons i keys ih =>
    rw [keysView]
    split
    · exact ih
    · dsimp only
      rw [View.trial_canon h]
      split
      · rfl
      · exact ih

theorem keysView_name (hv : v.canon = none) :
    ((∃ i ∈ keys, keyMatches c.dnskey sig i = true ∧ c.Reaches cap v.name sig i) →
      (keysView c cap sig keys nc ni v).2.2.name = lowerName (c.ownerAfter v.name sig)) ∧
    ((¬ ∃ i ∈ keys, keyMatches c.dnskey sig i = true ∧ c.Reaches cap v.name sig i) →
      (keysView c cap sig keys nc ni v).2.2.name = v.name) := by
  induction keys generalizing nc ni with
  | nil => exact ⟨fun h => absurd h.choose_spec.1 not_mem_nil, fun _ => rfl⟩
  | cons i keys ih =>
    rw [exists_mem_cons_iff, keysView]
    by_cases hm : keyMatches c.dnskey sig i = true
    · rw [if_neg (not_not_intro hm)]
      dsimp only
      by_cases hr : c.Reaches cap v.name sig i
      · obtain ⟨bytes, hview⟩ := View.trial_reaches hv hr
        refine ⟨fun _ => ?_, fun h => absurd (.inl ⟨hm, hr⟩) h⟩
        rw [hview]
        split
        · rfl
        · rw [keysView_canon rfl]
      · obtain ⟨hsec, hview⟩ := View.trial_not_reaches hv hr
        rw [if_neg hsec, hview, or_iff_right fun h => hr h.2]
        exact ih
    · rw [if_pos hm, or_iff_right fun h => hm h.1]
      exact ih

theorem le_keysLoop_verified {sig : List UInt8} {keys : List Nat} {nc ni : Nat} {p : Progress} :
    p.verified ≤ (keysLoop c sig keys nc ni p).2.verified := by
  induction keys generalizing nc ni p with
  | nil =>
    rw [keysLoop]
    split
    · exact le_rfl
    · split <;> exact le_rfl
  | cons i keys ih =>
    have hstep : p.verified ≤ (p.trial c sig i).2.verified := Nat.le_succ _
    rw [keysLoop]
    split
    · exact ih
    · dsimp only
      split
      · exact hstep
      · split
        · exact hstep
        · exact hstep.trans ih

theorem keysLoop_match (hm : keyMatches c.dnskey sig i = true)
    (hle : p.verified + 1 ≤ maxValidateRrsigs) :
    keysLoop c sig (i :: keys) nc ni p =
      if (p.trial c sig i).1 = .secure then p.trial c sig i
      else keysLoop c sig keys (nc + 1)
        (if (p.trial c sig i).1 = .indeterminate then ni + 1 else ni) (p.trial c sig i).2 := by
  have hmax : ¬ (p.trial c sig i).2.verified > maxValidateRrsigs := not_lt_of_ge hle
  rw [keysLoop, if_neg (not_not_intro hm)]
  dsimp only
  rw [if_neg hmax]

theorem keysLoop_skip (hm : ¬ keyMatches c.dnskey sig i = true) :
    keysLoop c sig (i :: keys) nc ni p = keysLoop c sig keys nc ni p := by
  rw [keysLoop, if_pos hm]

theorem keysLoop_match_le (hm : keyMatches c.dnskey sig i = true) :
    p.verified + 1 ≤ (keysLoop c sig (i :: keys) nc ni p).2.verified := by
  have hstep : p.verified + 1 = (p.trial c sig i).2.verified := rfl
  rw [keysLoop, if_neg (not_not_intro hm), hstep]
  dsimp only
  split
  · exact le_rfl
  · split
    · exact le_rfl
    · exact le_keysLoop_verified

/-- The outcome of the work on a signature, by what the rest of the run can see of it. -/
structure Follows (c : Setting) (cap : Nat) (seen : VerifyState → β) (p : Progress)
    (r : SecStatus × Progress) (a : SecStatus × Nat × β) : Prop where
  state : StateOk c cap r.2.state
  sec : r.1 = a.1
  verified : r.2.verified = p.verified + a.2.1
  seen : seen r.2.state = a.2.2

theorem keysLoop_follows (hk : Packed c.rrset) (hp : StateOk c cap p.state)
    (hle : (keysLoop c sig keys nc ni p).2.verified ≤ maxValidateRrsigs ∨
      p.verified + (keysView c cap sig keys nc ni p.state.view).2.1 ≤ maxValidateRrsigs) :
    Follows c cap VerifyState.view p (keysLoop c sig keys nc ni p)
      (keysView c cap sig keys nc ni p.state.view) := by
  induction keys generalizing nc ni p with
  | nil =>
    have hfail := fun why => p.state.keeps_fail why
    rw [keysLoop, keysView]
    split
    · exact ⟨(hfail _).stateOk hp, rfl, rfl, (hfail _).view⟩
    · split
      · exact ⟨(hfail _).stateOk hp, rfl, rfl, (hfail _).view⟩
      · exact ⟨hp, rfl, rfl, rfl⟩
  | cons i keys ih =>
    rw [keysView] at hle ⊢
    by_cases hm : keyMatches c.dnskey sig i = true
    · obtain ⟨hp', htrial⟩ := hp.trial hk sig i
      rw [if_neg (not_not_intro hm), ← htrial] at hle ⊢
      have hsec : (dnskeyVerifyRrsetSig c i sig p.state).1 = (p.trial c sig i).1 := rfl
      have hstate : (dnskeyVerifyRrsetSig c i sig p.state).2 = (p.trial c sig i).2.state := rfl
      have hp1 : p.verified + 1 ≤ maxValidateRrsigs := by
        rcases hle with hle | hle
        · exact (keysLoop_match_le hm).trans hle
        · dsimp only at hle
          split at hle
          · exact hle
          · dsimp only at hle
            omega
      rw [keysLoop_match hm hp1, hsec, hstate] at hle ⊢
      by_cases hs : (p.trial c sig i).1 = .secure
      · rw [if_pos hs, if_pos hs]
        exact ⟨hp', rfl, rfl, rfl⟩
      · rw [if_neg hs, if_neg hs] at hle ⊢
        have hverified : (p.trial c sig i).2.verified = p.verified + 1 := rfl
        have h := ih hp' (hle.imp id fun h => by rw [hverified]; dsimp only at h; omega)
        exact ⟨h.state, h.sec, by rw [h.verified, hverified]; dsimp only; omega, h.seen⟩
    · rw [keysLoop_skip hm, if_pos hm] at hle ⊢
      exact ih hp hle

/-- Some key takes the signature as far as the canonical form. -/
def Setting.Tried (c : Setting) (cap : Nat) (d : Name) (sig : List UInt8) : Prop :=
  c.env.dnskeyAlgoIdIsSupported (rrsetGetSigAlgo sig) = true ∧
    ∃ i ∈ List.range c.dnskey.rrs.length, keyMatches c.dnskey sig i = true ∧ c.Reaches cap d sig i

def Setting.signature (c : Setting) (cap : Nat) (sig : List UInt8) (name : Name) :
    SecStatus × Nat × Name :=
  if ¬ c.env.dnskeyAlgoIdIsSupported (rrsetGetSigAlgo sig) then (.insecure, 0, name)
  else
    let r := keysView c cap sig (List.range c.dnskey.rrs.length) 0 0 ⟨name, none⟩
    (r.1, r.2.1, r.2.2.name)

theorem Setting.signature_name :
    (c.Tried cap d sig → (c.signature cap sig (lowerName d)).2.2 = lowerName (c.ownerAfter d sig)) ∧
    (¬ c.Tried cap d sig → (c.signature cap sig (lowerName d)).2.2 = lowerName d) := by
  have hlow := lowerName_lowerName d
  rw [Setting.signature, Setting.Tried]
  by_cases hsup : c.env.dnskeyAlgoIdIsSupported (rrsetGetSigAlgo sig) = true
  · obtain ⟨hreach, hnot⟩ := @keysView_name c cap sig ⟨lowerName d, none⟩
      (range c.dnskey.rrs.length) 0 0 rfl
    simp only [Setting.reaches_congr hlow, Setting.ownerAfter_congr hlow] at hreach hnot
    rw [if_neg (not_not_intro hsup)]
    exact ⟨fun h => hreach h.2, fun h => hnot fun hex => h ⟨hsup, hex⟩⟩
  · rw [if_pos hsup]
    exact ⟨fun h => absurd h.1 hsup, fun _ => rfl⟩

theorem dnskeysetVerifyRrsetSig_follows (hk : Packed c.rrset) (hp : StateOk c cap p.state)
    (hle : (dnskeysetVerifyRrsetSig c sig p).2.verified ≤ maxValidateRrsigs ∨
      p.verified + (c.signature cap sig (lowerName p.state.dname)).2.1 ≤ maxValidateRrsigs) :
    Follows c cap (fun s => lowerName s.dname) p (dnskeysetVerifyRrsetSig c sig p)
      (c.signature cap sig (lowerName p.state.dname)) := by
  rw [dnskeysetVerifyRrsetSig, Setting.signature] at hle ⊢
  split
  · exact ⟨⟨hp.valid, hp.capacity, hp.sortree⟩, rfl, rfl, rfl⟩
  next hsup =>
    rw [if_neg hsup, if_neg hsup] at hle
    have h := @keysLoop_follows c cap sig (range c.dnskey.rrs.length)
      0 0 { p with state := { p.state with bufCanon := false } } hk
      ⟨hp.valid, hp.capacity, hp.sortree⟩ hle
    exact ⟨h.state, h.sec, h.verified, congrArg View.name h.seen⟩

def needsAfter (sec : SecStatus) (algo : UInt8) (needs : Option AlgoNeeds) : Option AlgoNeeds :=
  if sec = .secure then needs.map fun n => (algoNeedsSetSecure n algo).2
  else if sec = .bogus then needs.map fun n => algoNeedsSetBogus n algo
  else needs

def Ends (sec : SecStatus) (algo : UInt8) (needs : Option AlgoNeeds) : Prop :=
  sec = .secure ∧ (needs.map fun n => (algoNeedsSetSecure n algo).1).getD true = true

instance (sec : SecStatus) (algo : UInt8) (needs : Option AlgoNeeds) :
    Decidable (Ends sec algo needs) := inferInstanceAs (Decidable (_ ∧ _))

theorem sigsLoop_cons :
    sigsLoop c (sig :: sigs) needs p =
      if Ends (dnskeysetVerifyRrsetSig c sig p).1 (rrsetGetSigAlgo sig).toUInt8 needs then
        dnskeysetVerifyRrsetSig c sig p
      else if (dnskeysetVerifyRrsetSig c sig p).2.verified > maxValidateRrsigs then
        (.bogus, (dnskeysetVerifyRrsetSig c sig p).2.fail
          ("too many RRSIG validations", .dnssecBogus))
      else sigsLoop c sigs
        (needsAfter (dnskeysetVerifyRrsetSig c sig p).1 (rrsetGetSigAlgo sig).toUInt8 needs)
        (dnskeysetVerifyRrsetSig c sig p).2 := rfl

/-- The table and the progress behind some signatures, unless the run ends before. -/
def sigsAfter (c : Setting) : List (List UInt8) → Option AlgoNeeds → Progress →
    Option (Option AlgoNeeds × Progress)
  | [], needs, p => some (needs, p)
  | sig :: sigs, needs, p =>
    let r := dnskeysetVerifyRrsetSig c sig p
    if Ends r.1 (rrsetGetSigAlgo sig).toUInt8 needs then none
    else if r.2.verified > maxValidateRrsigs then none
    else sigsAfter c sigs (needsAfter r.1 (rrsetGetSigAlgo sig).toUInt8 needs) r.2

theorem sigsLoop_append (needs : Option AlgoNeeds) (p : Progress) :
    sigsLoop c (pre ++ post) needs p = match sigsAfter c pre needs p with
      | some met => sigsLoop c post met.1 met.2
      | none => sigsLoop c pre needs p := by
  induction pre generalizing needs p with
  | nil => rfl
  | cons sig pre ih =>
    rw [cons_append, sigsLoop_cons, sigsLoop_cons, sigsAfter]
    split
    · rfl
    · split
      · rfl
      · exact ih _ _

def NeedsEq : Option AlgoNeeds → Option AlgoNeeds → Prop
  | none, none => True
  | some n, some m => n.num = m.num ∧ ∀ a, n.needs a = .no ↔ m.needs a = .no
  | _, _ => False

theorem NeedsEq.refl (needs : Option AlgoNeeds) : NeedsEq needs needs := by
  cases needs with
  | none => trivial
  | some n => exact ⟨rfl, fun _ => Iff.rfl⟩

theorem NeedsEq.setBogus (h : NeedsEq (some n) (some m)) (algo : UInt8) :
    NeedsEq (some n) (some (algoNeedsSetBogus m algo)) := by
  refine ⟨h.1.trans algoNeedsSetBogus_num.symm, fun a => ?_⟩
  rw [algoNeedsSetBogus_no_iff]
  exact h.2 a

theorem NeedsEq.symm (h : NeedsEq n m) : NeedsEq m n := by
  match n, m, h with
  | none, none, _ => trivial
  | some _, some _, h => exact ⟨h.1.symm, fun a => (h.2 a).symm⟩

theorem NeedsEq.setSecure (h : NeedsEq (some n) (some m)) (algo : UInt8) :
    (algoNeedsSetSecure n algo).1 = (algoNeedsSetSecure m algo).1 ∧
    NeedsEq (some (algoNeedsSetSecure n algo).2) (some (algoNeedsSetSecure m algo).2) := by
  rw [algoNeedsSetSecure, algoNeedsSetSecure]
  by_cases hno : n.needs algo = .no
  · rw [if_neg (not_not_intro hno), if_neg (not_not_intro ((h.2 algo).1 hno))]
    exact ⟨rfl, h⟩
  · rw [if_pos hno, if_pos fun hm => hno ((h.2 algo).2 hm), h.1]
    refine ⟨rfl, rfl, fun a => ?_⟩
    have hset : ∀ n : AlgoNeeds, (n.set algo .no).needs a = if a = algo then .no else n.needs a :=
      fun _ => rfl
    rw [hset, hset]
    split
    · exact Iff.rfl
    · exact h.2 a

theorem NeedsEq.after (h : NeedsEq n m) (sec : SecStatus) (algo : UInt8) :
    NeedsEq (needsAfter sec algo n) (needsAfter sec algo m) := by
  rw [needsAfter, needsAfter]
  match n, m, h with
  | none, none, _ => split <;> [trivial; split <;> trivial]
  | some n, some m, h =>
    split
    · exact (h.setSecure algo).2
    · split
      · exact (h.setBogus algo).symm.setBogus algo |>.symm
      · exact h

theorem NeedsEq.ends_iff (h : NeedsEq n m) : Ends sec algo n ↔ Ends sec algo m := by
  match n, m, h with
  | none, none, _ => rfl
  | some n, some m, h =>
    rw [Ends, Ends, Option.map_some, Option.map_some, (h.setSecure algo).1]

theorem needsEq_needsAfter (hsec : sec ≠ .secure) : NeedsEq needs (needsAfter sec algo needs) := by
  rw [needsAfter, if_neg hsec]
  split
  · cases needs with
    | none => trivial
    | some n => exact (NeedsEq.refl _).setBogus algo
  · exact NeedsEq.refl _

theorem le_dnskeysetVerifyRrsetSig_verified {sig : List UInt8} {p : Progress} :
    p.verified ≤ (dnskeysetVerifyRrsetSig c sig p).2.verified := by
  rw [dnskeysetVerifyRrsetSig]
  split
  · exact le_rfl
  · exact @le_keysLoop_verified c sig _ 0 0 { p with state := { p.state with bufCanon := false } }

theorem sigsLoop_nil : (sigsLoop c [] needs p).1 = .bogus ∧
    (sigsLoop c [] needs p).2.verified = p.verified := by
  cases needs with
  | none => exact ⟨rfl, rfl⟩
  | some n =>
    rw [sigsLoop]
    split <;> exact ⟨rfl, rfl⟩

theorem le_sigsLoop_verified : p.verified ≤ (sigsLoop c sigs needs p).2.verified := by
  induction sigs generalizing needs p with
  | nil => exact sigsLoop_nil.2.ge
  | cons sig sigs ih =>
    have hstep := @le_dnskeysetVerifyRrsetSig_verified c sig p
    rw [sigsLoop_cons]
    split
    · exact hstep
    · split
      · exact hstep
      · exact hstep.trans ih

theorem le_sigsLoop_cons_verified :
    (dnskeysetVerifyRrsetSig c sig p).2.verified ≤
      (sigsLoop c (sig :: sigs) needs p).2.verified := by
  rw [sigsLoop_cons]
  split
  · exact le_rfl
  · split
    · exact le_rfl
    · exact le_sigsLoop_verified

theorem sigsLoop_same (hk : Packed c.rrset) (hn : NeedsEq n m)
    (h : lowerName p.state.dname = lowerName q.state.dname) (hp : StateOk c cap p.state)
    (hq : StateOk c cap q.state) (hpq : p.verified ≤ q.verified)
    (hle : (sigsLoop c sigs m q).2.verified ≤ maxValidateRrsigs) :
    (sigsLoop c sigs n p).1 = (sigsLoop c sigs m q).1 := by
  induction sigs generalizing n m p q with
  | nil => rw [sigsLoop_nil.1, sigsLoop_nil.1]
  | cons sig sigs ih =>
    have hqle := le_sigsLoop_cons_verified.trans hle
    have hqf := dnskeysetVerifyRrsetSig_follows hk hq (.inl hqle)
    have hqv := hqf.verified
    rw [← h] at hqf hqv
    have hpf := @dnskeysetVerifyRrsetSig_follows c cap sig p hk hp (.inr (by omega))
    have hpv := hpf.verified
    have hsec := hpf.sec.trans hqf.sec.symm
    rw [sigsLoop_cons] at hle
    rw [sigsLoop_cons, sigsLoop_cons, hsec]
    by_cases hend : Ends (dnskeysetVerifyRrsetSig c sig q).1 (rrsetGetSigAlgo sig).toUInt8 m
    · rw [if_pos hend, if_pos (hn.ends_iff.2 hend)]
      exact hsec
    · rw [if_neg hend, if_neg (not_lt_of_ge hqle)] at hle
      rw [if_neg hend, if_neg fun he => hend (hn.ends_iff.1 he),
        if_neg (not_lt_of_ge hqle), if_neg (by omega)]
      exact ih (hn.after _ _) (hpf.seen.trans hqf.seen.symm) hpf.state hqf.state (by omega) hle

theorem sigsAfter_stateOk (hk : Packed c.rrset) (hp : StateOk c cap p.state)
    (h : sigsAfter c sigs needs p = some (needs', p')) : StateOk c cap p'.state := by
  induction sigs generalizing needs p with
  | nil =>
    cases h
    exact hp
  | cons sig sigs ih =>
    rw [sigsAfter] at h
    split at h
    · cases h
    split at h
    case isTrue => cases h
    case isFalse hmax =>
      exact ih (dnskeysetVerifyRrsetSig_follows hk hp (.inl (le_of_not_gt hmax))).state h

def Setting.start (c : Setting) (s : VerifyState) : Progress :=
  ⟨{ s with dname := c.rrset.dname, sortree := none }, 0, []⟩

def Met (c : Setting) (pre : List (List UInt8)) (sigalg : Option (List UInt8)) (s : VerifyState)
    (p : Progress) : Prop :=
  ∃ needs, sigsAfter c pre (sigalg.map algoNeedsInitList) (c.start s) = some (needs, p)

/-- A signature of an NSEC in the authority section, tried, with fewer labels than the owner. -/
structure Renames (c : Setting) (cap : Nat) (d : Name) (sig : List UInt8) : Prop where
  replaces : c.replacesOwner = true
  tried : c.Tried cap d sig
  labels : octetAt sig 5 < dnameSignameLabelCount d
  not_wild : ¬ (dnameIsWild d = true ∧ octetAt sig 5 + 1 = dnameSignameLabelCount d)

def Needed (sigalg : Option (List UInt8)) : Prop :=
  ∀ list, sigalg = some list → (algoNeedsInitList list).num ≠ 0

theorem dnskeysetVerifyRrset_eq (hne : sigs ≠ []) (hneed : Needed sigalg) :
    dnskeysetVerifyRrset c sigs sigalg s =
      sigsLoop c sigs (sigalg.map algoNeedsInitList) (c.start s) := by
  cases sigalg with
  | none => exact if_neg hne
  | some list => exact (if_neg hne).trans (if_neg (hneed list rfl))

theorem needed_of_secure (h : (dnskeysetVerifyRrset c sigs sigalg s).1 = .secure) :
    sigs ≠ [] ∧ Needed sigalg := by
  by_cases hne : sigs = []
  · cases sigalg <;> rw [dnskeysetVerifyRrset, if_pos hne] at h <;> cases h
  · refine ⟨hne, ?_⟩
    rintro list rfl hnum
    rw [dnskeysetVerifyRrset, if_neg hne] at h
    rw [if_pos hnum] at h
    cases h

theorem owner_eq_iff (hk : Packed c.rrset) (hp : StateOk c cap p.state)
    (hle : (dnskeysetVerifyRrsetSig c sig p).2.verified ≤ maxValidateRrsigs) :
    lowerName (dnskeysetVerifyRrsetSig c sig p).2.state.dname = lowerName p.state.dname ↔
      ¬ Renames c cap p.state.dname sig := by
  obtain ⟨htried, hnot⟩ := @Setting.signature_name c cap sig p.state.dname
  rw [(dnskeysetVerifyRrsetSig_follows hk hp (.inl hle)).seen]
  by_cases ht : c.Tried cap p.state.dname sig
  · obtain ⟨-, i, -, -, signerLen, hf, -⟩ := id ht
    have hlabels := (sigFields_ok hf).labels
    rw [htried ht, Setting.ownerAfter]
    by_cases hrep : c.replacesOwner = true
    · rw [if_pos hrep, lowerName_lowerName, canOwner_eq_iff hlabels]
      constructor
      · intro h hren
        exact hren.not_wild (h hren.labels)
      · intro h hlt
        by_contra hwild
        exact h ⟨hrep, ht, hlt, hwild⟩
    · rw [if_neg hrep]
      exact ⟨fun _ hren => hrep hren.replaces, fun _ => rfl⟩
  · rw [hnot ht]
    exact ⟨fun _ hren => ht hren.tried, fun _ => rfl⟩

/-- One more signature that no key verifies changes something exactly when it renames. -/
theorem dnskeysetVerifyRrset_insert_iff (c : Setting) (pre post : List (List UInt8))
    (sig : List UInt8) (sigalg : Option (List UInt8)) (s : VerifyState)
    (hv : ValidName c.rrset.dname) (hk : Packed c.rrset)
    (hsec : (dnskeysetVerifyRrset c (pre ++ post) sigalg s).1 = .secure)
    (huseless : ∀ p, Met c pre sigalg s p → (dnskeysetVerifyRrsetSig c sig p).1 ≠ .secure)
    (hle : (dnskeysetVerifyRrset c (pre ++ sig :: post) sigalg s).2.verified ≤ maxValidateRrsigs) :
    ((dnskeysetVerifyRrset c (pre ++ sig :: post) sigalg s).1 = .secure ∧
      ∀ p, Met c pre sigalg s p →
        lowerName (dnskeysetVerifyRrsetSig c sig p).2.state.dname = lowerName p.state.dname) ↔
    ∀ p, Met c pre sigalg s p → ¬ Renames c s.buf.capacity p.state.dname sig := by
  obtain ⟨hne, hneed⟩ := needed_of_secure hsec
  have hstart : StateOk c s.buf.capacity (c.start s).state := ⟨hv, rfl, .inl rfl⟩
  rw [dnskeysetVerifyRrset_eq hne hneed, sigsLoop_append] at hsec
  rw [dnskeysetVerifyRrset_eq (by simp) hneed, sigsLoop_append] at hle ⊢
  cases hmet : sigsAfter c pre (sigalg.map algoNeedsInitList) (c.start s) with
  | none =>
    rw [hmet] at hsec
    have hnone : ∀ p, ¬ Met c pre sigalg s p := fun p ⟨_, h⟩ => nomatch hmet.symm.trans h
    exact ⟨fun _ p hp => absurd hp (hnone p), fun _ => ⟨hsec, fun p hp => absurd hp (hnone p)⟩⟩
  | some met =>
    obtain ⟨needs, p⟩ := met
    rw [hmet] at hsec hle
    have hp := sigsAfter_stateOk hk hstart hmet
    have hstep := le_sigsLoop_cons_verified.trans hle
    have hall : ∀ P : Progress → Prop, (∀ q, Met c pre sigalg s q → P q) ↔ P p := by
      intro P
      refine ⟨fun h => h p ⟨needs, hmet⟩, ?_⟩
      rintro h q ⟨needs', hq⟩
      cases hmet.symm.trans hq
      exact h
    rw [hall] at huseless
    rw [hall, hall, owner_eq_iff hk hp hstep]
    refine ⟨And.right, fun hren => ⟨?_, hren⟩⟩
    have hname := (owner_eq_iff hk hp hstep).2 hren
    have hright := (dnskeysetVerifyRrsetSig_follows hk hp (.inl hstep)).state
    have hend : ¬ Ends (dnskeysetVerifyRrsetSig c sig p).1 (rrsetGetSigAlgo sig).toUInt8 needs :=
      fun h => huseless h.1
    dsimp only at hsec hle ⊢
    rw [sigsLoop_cons, if_neg hend, if_neg (not_lt_of_ge hstep)] at hle ⊢
    rw [← sigsLoop_same hk (needsEq_needsAfter huseless) hname.symm hp hright
      le_dnskeysetVerifyRrsetSig_verified hle]
    exact hsec

def sampleEnv : VerifyEnv :=
  ⟨-1, 0, 0, 0, 0, fun _ => true,
    fun _ _ block _ => if block = [7] then (.secure, none) else (.bogus, none)⟩

def sampleSetting : Setting :=
  ⟨sampleEnv, sampleRrset 47 [0, 6, 1, 66, 0, 0, 1, 64], sampleKeys, .authority, true⟩

def sampleState : VerifyState := ⟨[[97]], 3600, none, sampleBuffer, false, none, none⟩

def uselessSig (labels : UInt8) : List UInt8 :=
  [0, 20, 0, 47, 8, labels, 0, 0, 14, 16, 0, 0, 0, 9, 0, 0, 0, 1, 4, 8, 0, 9]

theorem met_nil_iff : Met c [] sigalg s p ↔ p = c.start s := by
  constructor
  · rintro ⟨needs, h⟩
    cases h
    rfl
  · rintro rfl
    exact ⟨_, rfl⟩

theorem dnskeysetVerifyRrset_insert_iff_same_labels :
    (dnskeysetVerifyRrset sampleSetting ([] ++ uselessSig 1 :: [sampleSig 47]) none
      sampleState).1 = .secure ∧
    ∀ p, Met sampleSetting [] none sampleState p →
      lowerName (dnskeysetVerifyRrsetSig sampleSetting (uselessSig 1) p).2.state.dname =
        lowerName p.state.dname := by
  apply (dnskeysetVerifyRrset_insert_iff sampleSetting [] [sampleSig 47] (uselessSig 1) none
    sampleState sampleName_valid ⟨by decide, by decide⟩ (by decide) ?_ (by decide)).2
  · intro p hp hren
    rw [met_nil_iff.1 hp] at hren
    exact absurd hren.labels (by decide)
  · intro p hp
    rw [met_nil_iff.1 hp]
    decide

theorem dnskeysetVerifyRrset_insert_renames :
    ValidName sampleSetting.rrset.dname ∧ Packed sampleSetting.rrset ∧
    (dnskeysetVerifyRrset sampleSetting ([] ++ [sampleSig 47]) none sampleState).1 = .secure ∧
    (∀ p, Met sampleSetting [] none sampleState p →
      (dnskeysetVerifyRrsetSig sampleSetting (uselessSig 0) p).1 = .bogus) ∧
    (dnskeysetVerifyRrset sampleSetting ([] ++ uselessSig 0 :: [sampleSig 47]) none
      sampleState).2.verified ≤ maxValidateRrsigs ∧
    (dnskeysetVerifyRrset sampleSetting ([] ++ uselessSig 0 :: [sampleSig 47]) none
      sampleState).1 = .bogus ∧
    (dnskeysetVerifyRrset sampleSetting ([] ++ uselessSig 0 :: [sampleSig 47]) none
      sampleState).2.state.dname = [[42]] := by
  refine ⟨sampleName_valid, ⟨by decide, by decide⟩, by decide, ?_, by decide, by decide, by decide⟩
  intro p hp
  rw [met_nil_iff.1 hp]
  decide

end

/-- The serial numbers from `a` up to `b`, around the ring. -/
def SerialBetween (a b t : UInt32) : Prop := t - a ≤ b - a

/-- A tenth of the validity period, at least `skew_min` and at most `skew_max`. -/
def VerifyEnv.clampedSkew (env : VerifyEnv) (incep expi : UInt32) : Nat :=
  min (max ((expi - incep).toNat / 10) (castU32 env.skewMin).toNat) (castU32 env.skewMax).toNat

theorem compare1982_gt_iff :
    compare1982 a b = .gt ↔ 0 < (a - b).toNat ∧ (a - b).toNat ≤ 2 ^ 31 := by
  have ha := a.toNat_lt
  have hb := b.toNat_lt
  simp only [compare1982, ← UInt32.toNat_inj, UInt32.lt_iff_toNat_lt, UInt32.toNat_sub, gt_iff_lt,
    UInt32.reduceToNat]
  grind

theorem toNat_subtract1982 :
    (subtract1982 a b).toNat = if (b - a).toNat < 2 ^ 31 then (b - a).toNat else 0 := by
  have ha := a.toNat_lt
  have hb := b.toNat_lt
  simp only [subtract1982, ← UInt32.toNat_inj, UInt32.lt_iff_toNat_lt, UInt32.toNat_sub, gt_iff_lt,
    UInt32.reduceToNat]
  split_ifs
  all_goals simp only [UInt32.toNat_sub, UInt32.reduceToNat]
  all_goals omega

theorem toNat_skew (h : (expi - incep).toNat < 2 ^ 31) (env : VerifyEnv) :
    (env.skew incep expi).toNat = env.clampedSkew incep expi := by
  simp only [VerifyEnv.skew, VerifyEnv.clampedSkew, UInt32.lt_iff_toNat_lt, gt_iff_lt,
    apply_ite UInt32.toNat, UInt32.toNat_div, toNat_subtract1982, if_pos h, UInt32.reduceToNat]
  split_ifs
  all_goals omega

theorem passed_iff {skew : UInt32} : (compare1982 a b = .gt ∧ subtract1982 b a > skew) ↔
    skew.toNat < (a - b).toNat ∧ (a - b).toNat < 2 ^ 31 := by
  rw [compare1982_gt_iff, gt_iff_lt, UInt32.lt_iff_toNat_lt, toNat_subtract1982]
  grind

/-- Right just if the time is in the period with the skew, at most half the ring from its ends. -/
theorem checkDates_iff_between (env : VerifyEnv) (sig : List UInt8) (incep expi : UInt32)
    (hincep : readDate sig 14 = incep) (hexpi : readDate sig 10 = expi)
    (hdate : env.dateOverride = 0) (hpos : 0 < (expi - incep).toNat)
    (hperiod : (expi - incep).toNat < 2 ^ 31) (hmax : (castU32 env.skewMax).toNat < 2 ^ 30) :
    checkDates env sig = none ↔
      SerialBetween (incep - (env.clampedSkew incep expi).toUInt32)
        (expi + (env.clampedSkew incep expi).toUInt32) env.now ∧
      ((env.now - incep).toNat ≤ 2 ^ 31 ∨ (expi - env.now).toNat ≤ 2 ^ 31) := by
  have hle : env.clampedSkew incep expi < 2 ^ 30 := Nat.lt_of_le_of_lt (Nat.min_le_right _ _) hmax
  have hnone : checkDates env sig = none ↔ ¬ compare1982 incep expi = .gt ∧
      ¬ (compare1982 incep env.now = .gt ∧ subtract1982 env.now incep > env.skew incep expi) ∧
      ¬ (compare1982 env.now expi = .gt ∧ subtract1982 expi env.now > env.skew incep expi) := by
    rw [checkDates, hincep, hexpi, hdate]
    grind
  rw [hnone, passed_iff, passed_iff, compare1982_gt_iff, toNat_skew hperiod, SerialBetween,
    UInt32.le_iff_toNat_le]
  generalize env.clampedSkew incep expi = skew at *
  have hskew : skew.toUInt32.toNat = skew := Nat.mod_eq_of_lt (by omega)
  -- all times as distances from the inception
  have hd : env.now = env.now - incep + incep := (UInt32.sub_add_cancel _ _).symm
  have hp : expi = expi - incep + incep := (UInt32.sub_add_cancel _ _).symm
  generalize env.now - incep = d at *
  generalize expi - incep = p at *
  obtain ⟨h1, h2, h3, h4, h5, h6⟩ : incep - (p + incep) = 0 - p ∧ incep - (d + incep) = 0 - d ∧
      d + incep - (p + incep) = d - p ∧ p + incep - (d + incep) = p - d ∧
      d + incep - (incep - skew.toUInt32) = d + skew.toUInt32 ∧
      p + incep + skew.toUInt32 - (incep - skew.toUInt32) = p + skew.toUInt32 + skew.toUInt32 := by
    grind
  rw [hd, hp, h1, h2, h3, h4, h5, h6]
  simp only [UInt32.toNat_sub, UInt32.toNat_add, hskew, UInt32.reduceToNat]
  have hlt := d.toNat_lt
  omega

def datedEnv (now : UInt32) : VerifyEnv :=
  { sampleEnv with dateOverride := 0, skewMin := 3600, skewMax := 86400, now := now }

theorem checkDates_iff_between_sample :
    checkDates (datedEnv 5) (sampleSig 47) = none ↔
      SerialBetween (1 - ((datedEnv 5).clampedSkew 1 9).toUInt32)
        (9 + ((datedEnv 5).clampedSkew 1 9).toUInt32) 5 ∧
      (((5 : UInt32) - 1).toNat ≤ 2 ^ 31 ∨ ((9 : UInt32) - 5).toNat ≤ 2 ^ 31) :=
  checkDates_iff_between (datedEnv 5) (sampleSig 47) 1 9 (by decide) (by decide) rfl (by decide)
    (by decide) (by decide)

theorem checkDates_far_from_inception :
    readDate (replicate 10 0 ++ [127, 255, 255, 255]) 14 = 0 ∧
    readDate (replicate 10 0 ++ [127, 255, 255, 255]) 10 = 0x7fffffff ∧
    SerialBetween (0 - ((datedEnv 0x80000001).clampedSkew 0 0x7fffffff).toUInt32)
      (0x7fffffff + ((datedEnv 0x80000001).clampedSkew 0 0x7fffffff).toUInt32) 0x80000001 ∧
    checkDates (datedEnv 0x80000001) (replicate 10 0 ++ [127, 255, 255, 255]) =
      some ("signature before inception date", .signatureNotYetValid) := by
  unfold SerialBetween
  decide

def VerifyEnv.remaining (env : VerifyEnv) (sig : List UInt8) : Int :=
  castI32 (readDate sig 10 - if env.dateOverride ≠ 0 then castU32 env.dateOverride else env.now)

/-- At most the larger of `MIN_TTL` and the original TTL, and the time that is left. -/
def TtlWithin (env : VerifyEnv) (sig : List UInt8) (ttl : Int) : Prop :=
  ttl ≤ max env.minTtl (readDate sig 6).toNat ∧ (0 < env.remaining sig → ttl ≤ env.remaining sig)

theorem adjustTtl_within : TtlWithin env sig (adjustTtl env sig ttl) := by
  have hcast : castI32 (readDate sig 6) ≤ (readDate sig 6).toNat := by
    rw [castI32]
    split <;> omega
  rw [TtlWithin, VerifyEnv.remaining, adjustTtl]
  grind

theorem canonicalize_ttl (s : VerifyState) : (s.canonicalize c sig signerLen).2.ttl = s.ttl := by
  rw [VerifyState.canonicalize]
  split <;> rfl

theorem dnskeyVerifyRrsetSig_ttl (h : (dnskeyVerifyRrsetSig c idx sig s).1 = .secure) :
    (dnskeyVerifyRrsetSig c idx sig s).2.ttl = adjustTtl c.env sig s.ttl := by
  rw [dnskeyVerifyRrsetSig] at h ⊢
  split at h
  case h_1 => cases h
  case h_2 signerLen _ =>
    rw [← canonicalize_ttl s]
    dsimp only at h ⊢
    split at h
    case isFalse => cases h
    case isTrue hcanon =>
      rw [if_pos hcanon]
      rw [VerifyState.verify] at h ⊢
      split at h
      case h_1 => cases h
      case h_2 =>
        dsimp only at h ⊢
        split at h
        case isFalse hsec => exact absurd h hsec
        case isTrue hsec =>
          rw [if_pos hsec]
          split
          · rfl
          · rfl

def timedSetting (ttl : Nat) : Setting :=
  { sampleSetting with env := datedEnv 5, rrset := ⟨[[97]], 47, 1, [⟨ttl, [0, 6, 1, 66, 0, 0, 1, 64]⟩]⟩ }

end CwdGate.Sigcrypt
