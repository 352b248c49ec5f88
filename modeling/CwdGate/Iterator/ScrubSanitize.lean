import CwdGate.Iterator.ScrubNormalize
import CwdGate.Storage.Dnstree

namespace CwdGate.Iterator
open Lib List Function

section

variable {env : ScrubEnv} {qinfo : QueryInfo} {zonename : Name} {m : MsgParse} {id : Nat}
  {nx : List Nat}

/-- RRsets are removed from a message, and records from its RRsets. -/
structure Trims (m m' : MsgParse) : Prop where
  heap : ∀ i, Same (m.heap i) (m'.heap i)
  rrsets : m'.rrsets.Sublist m.rrsets

theorem Trims.refl (m : MsgParse) : Trims m m := ⟨fun _ => .refl _, List.Sublist.refl _⟩

theorem Trims.trans (h : Trims m m') (h' : Trims m' m'') : Trims m m'' :=
  ⟨fun i => (h.heap i).trans (h'.heap i), h'.rrsets.trans h.rrsets⟩

theorem Alters.trims (h : Alters m m') : Trims m m' := by
  refine ⟨h.heap, ?_⟩
  rw [h.rrsets]

theorem Trims.remove (m : MsgParse) : Trims m (removeRrset m) := by
  refine ⟨?_, removeRrset_sublist m⟩
  intro i
  rw [removeRrset_heap.1]
  exact .refl _

theorem advance_heap : m.advance.heap = m.heap := by
  rw [MsgParse.advance]
  split
  case h_1 => rfl
  case h_2 => rfl

theorem Trims.advance (m : MsgParse) : Trims m m.advance := by
  refine ⟨?_, ?_⟩
  · intro i
    rw [advance_heap]
    exact .refl _
  · rw [m.rrsets_advance]

/-- The RRsets of the answer and authority sections that name addresses are all still there. -/
def Intact (m m' : MsgParse) : Prop :=
  ∀ j ∈ m.rrsets, (m.heap j).sect ≠ .additional → hasAdditional (m.heap j).type = true →
    j ∈ m'.rrsets

theorem GlueNamed.trims (h : GlueNamed m) (ht : Trims m m')
    (hintact : Intact m m' ∨ ∀ i ∈ m'.rrsets, (m'.heap i).sect ≠ .additional) : GlueNamed m' := by
  intro i hi hsect haddr
  have hi' := ht.heap i
  rcases hintact with hintact | hnone
  · have hsect' := hi'.sect ▸ hsect
    have haddr' := hi'.type ▸ haddr
    obtain ⟨j, hj, hjsect, hgives⟩ := h i (ht.rrsets.subset hi) hsect' haddr'
    have hj' := ht.heap j
    refine ⟨j, hintact j hj hjsect hgives.1, ?_, ?_⟩
    · rw [hj'.sect]
      exact hjsect
    · rw [hi'.dname]
      exact hj'.gives hgives
  · exact absurd hsect (hnone i hi)

/-- Go on behind an RRset that is kept, or remove it. -/
def MsgParse.pass (m : MsgParse) (kept : Bool) : MsgParse := if kept then m.advance else removeRrset m

theorem MsgParse.pass_heap (m : MsgParse) : (m.pass kept).heap = m.heap := by
  cases kept with
  | true => exact advance_heap
  | false => exact removeRrset_heap.1

theorem MsgParse.pass_flags (m : MsgParse) : (m.pass kept).flags = m.flags := by
  cases kept <;> cases h : m.rest <;> simp [pass, advance, removeRrset, h]

theorem MsgParse.pass_rest (hrest : m.rest = id :: nx) (kept : Bool) : (m.pass kept).rest = nx := by
  cases kept with
  | true => exact congrArg MsgParse.rest (advance_eq hrest)
  | false => simp only [pass, removeRrset, hrest, Bool.false_eq_true, if_false]

theorem MsgParse.pass_done (hrest : m.rest = id :: nx) :
    (m.pass kept).done = if kept then id :: m.done else m.done := by
  cases kept with
  | true => exact congrArg MsgParse.done (advance_eq hrest)
  | false => exact removeRrset_heap.2.2

theorem MsgOk.pass (h : MsgOk m) (kept : Bool) : MsgOk (m.pass kept) := by
  cases kept with
  | true => exact h.advance
  | false => exact h.remove

theorem Trims.pass (m : MsgParse) (kept : Bool) : Trims m (m.pass kept) := by
  cases kept with
  | true => exact .advance m
  | false => exact .remove m

theorem Intact.pass (h : Intact m m') (hsame : ∀ i, Same (m.heap i) (m'.heap i))
    (hrest : m'.rest = id :: nx) {kept : Bool} (hadd : kept = false →
      (m'.heap id).sect ≠ .additional → hasAdditional (m'.heap id).type = false) :
    Intact m (m'.pass kept) := by
  intro j hj hsect hjadd
  have hmem := h j hj hsect hjadd
  cases kept with
  | true =>
    rw [MsgParse.pass, if_pos rfl, m'.rrsets_advance]
    exact hmem
  | false =>
    rw [MsgParse.rrsets_eq hrest] at hmem
    rw [MsgParse.pass, if_neg Bool.false_ne_true, removeRrset_rrsets hrest]
    have hne : j ≠ id := by
      rintro rfl
      rw [(hsame j).sect, (hsame j).type] at hadd
      rw [hadd rfl hsect] at hjadd
      cases hjadd
    simpa [hne] using hmem

/-- What the loop over the answer section keeps, from message `m` on. -/
structure OwnersKept (qinfo : QueryInfo) (m : MsgParse) (s : MsgParse × Bool) : Prop where
  ok : MsgOk s.1
  trims : Trims m s.1
  owners : ∀ i ∈ s.1.done, i ∈ m.done ∨ sameName qinfo.qname (s.1.heap i).dname = true
  intact : Intact m s.1 ∨ s.2 = true

theorem sanitizeAnswer_turn (h : sanitizeAnswer qinfo s = .next s') :
    ∃ id nx kept, s.1.rest = id :: nx ∧ s'.1 = s.1.pass kept ∧
      (kept = true → s'.2 = s.2 ∧ sameName qinfo.qname (s.1.heap id).dname = true) ∧
      (kept = false → s'.2 = (s.2 || hasAdditional (s.1.heap id).type)) := by
  rw [sanitizeAnswer] at h
  split at h
  case h_1 => cases h
  case h_2 id nx hrest =>
    dsimp only at h
    split at h
    case isTrue => cases h
    case isFalse =>
      split at h
      case isTrue =>
        cases h
        exact ⟨id, nx, false, hrest, rfl, nofun, fun _ => rfl⟩
      case isFalse hsame =>
        cases h
        exact ⟨id, nx, true, hrest, rfl, fun _ => ⟨rfl, not_not.1 hsame⟩, nofun⟩

theorem sanitizeAnswer_stop (h : sanitizeAnswer qinfo s = .stop) (hrest : s.1.rest = id :: nx) :
    (s.1.heap id).sect ≠ .answer := by
  intro hsect
  rw [sanitizeAnswer, hrest] at h
  dsimp only at h
  rw [if_neg (not_not.2 hsect)] at h
  split at h
  all_goals cases h

theorem OwnersKept.next (hk : OwnersKept qinfo m s) (h : sanitizeAnswer qinfo s = .next s') :
    OwnersKept qinfo m s' ∧ s'.1.rest.length < s.1.rest.length := by
  obtain ⟨id, nx, kept, hrest, hmsg, hkept, hgone⟩ := sanitizeAnswer_turn h
  constructor
  case right =>
    rw [hmsg, MsgParse.pass_rest hrest, hrest]
    exact Nat.lt_succ_self _
  constructor
  case ok => exact hmsg ▸ hk.ok.pass kept
  case trims => exact hmsg ▸ hk.trims.trans (.pass s.1 kept)
  case owners =>
    intro i hi
    rw [hmsg, MsgParse.pass_done hrest] at hi
    rw [hmsg, MsgParse.pass_heap]
    split at hi
    case isTrue htrue =>
      rcases mem_cons.1 hi with rfl | hi
      · exact .inr (hkept htrue).2
      · exact hk.owners i hi
    case isFalse => exact hk.owners i hi
  case intact =>
    rcases hk.intact with hintact | hdel
    · cases hadd : kept || !hasAdditional (s.1.heap id).type with
      | true =>
        left
        rw [hmsg]
        apply hintact.pass hk.trims.heap hrest
        rintro rfl _
        simpa using hadd
      | false =>
        right
        simp only [Bool.or_eq_false_iff, Bool.not_eq_false'] at hadd
        rw [hgone hadd.1, hadd.2, Bool.or_true]
    · right
      cases kept with
      | true => rw [(hkept rfl).1, hdel]
      | false => rw [hgone rfl, hdel, Bool.true_or]

theorem sanitizeAnswerLoop (hok : MsgOk m)
    (h : loop (sanitizeAnswer qinfo) (m.rest.length + 1) (m, false) = some s) :
    OwnersKept qinfo m s ∧ NoAnswer s.1 := by
  have hk : OwnersKept qinfo m (m, false) :=
    ⟨hok, .refl m, fun i hi => .inl hi, .inl fun j hj _ _ => hj⟩
  obtain ⟨_, hk', hstop⟩ := loop_turns (fun _ _ => OwnersKept.next) hk (Nat.lt_succ_self _) h
  exact ⟨hk', hk'.ok.noAnswer fun id nx hrest => sanitizeAnswer_stop hstop hrest⟩

section Zone
variable {s : Sanitized} {r : RrsetParse}

def keeps (zonename : Name) (delAddi : Bool) (r : RrsetParse) : Bool :=
  ¬ (delAddi ∧ r.sect = .additional) ∧ ¬ (r.type = RrType.nsec ∧ sanitizeNsecIsOverreach zonename r)

def zoneVerdict (zonename : Name) (lame delAddi : Bool) (r : RrsetParse) : Bool × Bool :=
  if pktSub r.dname zonename then (keeps zonename delAddi r, delAddi)
  else if lame then (keeps zonename true r, true)
  else (false, delAddi || hasAdditional r.type)

/-- What a turn makes of an RRset: the records left, whether it is kept, and the new `del_addi`. -/
def bodyVerdict (env : ScrubEnv) (zonename : Name) (m : MsgParse) (delAddi : Bool) (r : RrsetParse) :
    RrsetParse × Bool × Bool :=
  let l := removeRrs (badLength r.type) r
  if l.2 then (l.1, false, delAddi)
  else
    let p := privRrsetBad env l.1
    if p.2 then (p.1, false, delAddi)
    else (p.1, zoneVerdict zonename (isLame zonename m p.1) delAddi p.1)

theorem hasAdditional_of_isAddress (h : isAddress t = true) : hasAdditional t = false := by
  simp only [isAddress, decide_eq_true_eq] at h
  rcases h with rfl | rfl
  · decide
  · decide

theorem not_isLame_of_isAddress (h : isAddress r.type = true) : isLame zonename m r = false := by
  rw [isLame, decide_eq_false_iff_not]
  intro ⟨_, htype, _⟩
  rw [htype] at h
  exact absurd h (by decide)

theorem sanitizeInside_eq :
    sanitizeInside zonename s r = { s with msg := s.msg.pass (keeps zonename s.delAddi r) } := by
  rw [sanitizeInside, keeps]
  split
  case isTrue h => rw [decide_eq_false fun hk => hk.1 h]; rfl
  case isFalse h =>
    split
    case isTrue h' => rw [decide_eq_false fun hk => hk.2 h']; rfl
    case isFalse h' => rw [decide_eq_true ⟨h, h'⟩]; rfl

theorem sanitizeZone_eq (hv : zoneVerdict zonename (isLame zonename s.msg r) s.delAddi r = v) :
    (sanitizeZone env zonename s r).msg = s.msg.pass v.1 ∧
      (sanitizeZone env zonename s r).delAddi = v.2 := by
  subst hv
  rw [sanitizeZone, zoneVerdict]
  split
  case isTrue => rw [sanitizeInside_eq]; exact ⟨rfl, rfl⟩
  case isFalse =>
    split
    case isTrue => rw [sanitizeInside_eq]; exact ⟨rfl, rfl⟩
    case isFalse =>
      split
      case isTrue h => rw [hasAdditional_of_isAddress h.2, Bool.or_false]; exact ⟨rfl, rfl⟩
      case isFalse => exact ⟨rfl, rfl⟩

theorem removeRrs_of_not (h : ∀ rr ∈ r.rrs, bad rr = false) : removeRrs bad r = (r, false) := by
  have hkeep : (r.rrs.filter fun rr => !bad rr) = r.rrs :=
    filter_eq_self.2 fun rr hrr => by rw [h rr hrr]; rfl
  have hnone : ∀ rr ∈ r.rrs, ¬ bad rr = true := fun rr hrr => by rw [h rr hrr]; decide
  rw [removeRrs, hkeep, filter_eq_nil_iff.2 hnone, any_eq_false.2 hnone]
  rfl

theorem privRrsetBad_not_address (h : isAddress r.type = false) : privRrsetBad env r = (r, false) := by
  have hnone : removeRrs (privateAddress env r.type) r = (r, false) :=
    removeRrs_of_not fun rr _ => by rw [privateAddress, h]; rfl
  rw [privRrsetBad, hnone, ite_self, ite_self]

theorem privRrsetBad_same (env : ScrubEnv) (r : RrsetParse) :
    (privRrsetBad env r).1.sect = r.sect ∧ (privRrsetBad env r).1.dname = r.dname ∧
      (privRrsetBad env r).1.type = r.type := by
  rw [privRrsetBad]
  split
  case isTrue => exact ⟨rfl, rfl, rfl⟩
  case isFalse =>
    split
    case isTrue => exact ⟨rfl, rfl, rfl⟩
    case isFalse => exact ⟨rfl, rfl, rfl⟩

theorem bodyVerdict_not_address (h : isAddress r.type = false) :
    bodyVerdict env zonename m d r = (r, zoneVerdict zonename (isLame zonename m r) d r) := by
  have hlen : removeRrs (badLength r.type) r = (r, false) :=
    removeRrs_of_not fun rr _ => by rw [badLength, h]; rfl
  rw [bodyVerdict, hlen]
  rw [privRrsetBad_not_address h]
  rfl

theorem bodyVerdict_same :
    (bodyVerdict env zonename m d r).1.sect = r.sect ∧
      (bodyVerdict env zonename m d r).1.dname = r.dname ∧
      (bodyVerdict env zonename m d r).1.type = r.type := by
  have hsame := privRrsetBad_same env (removeRrs (badLength r.type) r).1
  rw [bodyVerdict]
  dsimp only
  split
  case isTrue => exact ⟨rfl, rfl, rfl⟩
  case isFalse =>
    split
    case isTrue => exact hsame
    case isFalse => exact hsame

theorem sanitizeBody_eq (hrest : s.msg.rest = id :: nx)
    (hv : bodyVerdict env zonename s.msg s.delAddi (s.msg.heap id) = v) :
    ∃ s', sanitizeBody env zonename s = .next s' ∧
      s'.msg = (s.msg.modify id fun _ => v.1).pass v.2.1 ∧ s'.delAddi = v.2.2 := by
  rw [sanitizeBody, hrest]
  dsimp only
  split
  case isFalse haddr =>
    rw [bodyVerdict_not_address (Bool.eq_false_iff.2 haddr)] at hv
    subst hv
    have hself : (s.msg.modify id fun _ => s.msg.heap id) = s.msg := by
      rw [MsgParse.modify, update_eq_self]
    refine ⟨_, rfl, ?_⟩
    rw [hself]
    exact sanitizeZone_eq rfl
  case isTrue haddr =>
    have hself : ((scrubSanitizeRrLength s id).1.msg.heap id) =
        (removeRrs (badLength (s.msg.heap id).type) (s.msg.heap id)).1 := update_self _ _ _
    have htwice : ∀ r, ((scrubSanitizeRrLength s id).1.msg.modify id fun _ => r) =
        s.msg.modify id fun _ => r := by
      intro r
      simp only [scrubSanitizeRrLength, MsgParse.modify, update_idem]
    rw [hself]
    rw [bodyVerdict] at hv
    by_cases hgone : (removeRrs (badLength (s.msg.heap id).type) (s.msg.heap id)).2 = true
    · rw [if_pos hgone] at hv
      subst hv
      exact ⟨_, if_pos hgone, rfl, rfl⟩
    rw [if_neg hgone] at hv
    generalize hp : privRrsetBad env
      (removeRrs (badLength (s.msg.heap id).type) (s.msg.heap id)).1 = p at hv ⊢
    by_cases hbad : p.2 = true
    · rw [if_pos hbad] at hv
      subst hv
      exact ⟨_, (if_neg hgone).trans (if_pos hbad), congrArg removeRrset (htwice p.1), rfl⟩
    rw [if_neg hbad] at hv
    have haddr' : isAddress p.1.type = true := by
      rw [← hp, (privRrsetBad_same env _).2.2]
      exact haddr
    rw [not_isLame_of_isAddress haddr'] at hv
    subst hv
    refine ⟨_, (if_neg hgone).trans (if_neg hbad), ?_⟩
    rw [htwice]
    apply sanitizeZone_eq
    rw [not_isLame_of_isAddress haddr']
    rfl

theorem Alters.verdict (env : ScrubEnv) (zonename : Name) (s : Sanitized) (id : Nat) :
    Alters s.msg (s.msg.modify id fun _ =>
      (bodyVerdict env zonename s.msg s.delAddi (s.msg.heap id)).1) := by
  apply Alters.modify
  obtain ⟨hsect, hdname, htype⟩ := bodyVerdict_same
  cases haddr : isAddress (s.msg.heap id).type with
  | false =>
    rw [bodyVerdict_not_address haddr]
    exact .refl _
  | true =>
    refine ⟨hsect, hdname, htype, ?_, ?_⟩
    · intro hadd
      rw [hasAdditional_of_isAddress haddr] at hadd
      cases hadd
    · intro hfalse
      rw [haddr] at hfalse
      cases hfalse

theorem bodyVerdict_cases (hv : bodyVerdict env zonename m d r = v) :
    (v.2 = (false, d) ∧ hasAdditional r.type = false) ∨
      v.2 = zoneVerdict zonename (isLame zonename m r) d v.1 := by
  have hlame : isLame zonename m v.1 = isLame zonename m r := by
    obtain ⟨hsect, hdname, htype⟩ := bodyVerdict_same
    rw [isLame, isLame, ← hv, hsect, hdname, htype]
  rw [← hlame]
  cases haddr : isAddress r.type with
  | false =>
    rw [bodyVerdict_not_address haddr] at hv
    subst hv
    exact .inr rfl
  | true =>
    have hnot := hasAdditional_of_isAddress haddr
    rw [bodyVerdict] at hv
    dsimp only at hv
    split at hv
    case isTrue => exact .inl ⟨hv ▸ rfl, hnot⟩
    case isFalse =>
      split at hv
      case isTrue => exact .inl ⟨hv ▸ rfl, hnot⟩
      case isFalse =>
        subst hv
        exact .inr rfl

theorem bodyVerdict_kept (hv : bodyVerdict env zonename m d r = v) (h : v.2.1 = true) :
    (pktSub r.dname zonename = true ∨ (pktSub r.dname zonename = false ∧ isLame zonename m r = true)) ∧
      (r.sect = .additional → v.2.2 = false) := by
  obtain ⟨hsect, hdname, _⟩ := hv ▸ bodyVerdict_same
  rcases bodyVerdict_cases hv with ⟨heq, _⟩ | heq
  · rw [heq] at h
    cases h
  rw [← hsect, ← hdname]
  rw [heq, zoneVerdict] at h ⊢
  split at h
  case isTrue hsub =>
    have h := (of_decide_eq_true h).1
    rw [if_pos hsub]
    exact ⟨.inl hsub, fun hadd => Bool.eq_false_iff.2 fun hd => h ⟨hd, hadd⟩⟩
  case isFalse hsub =>
    split at h
    case isTrue hlame =>
      have h := (of_decide_eq_true h).1
      exact ⟨.inr ⟨Bool.eq_false_iff.2 hsub, hlame⟩, fun hadd => absurd ⟨rfl, hadd⟩ h⟩
    case isFalse => cases h

/-- The verdict keeps `del_addi`, and sets it when an RRset that names addresses goes away. -/
theorem bodyVerdict_del (hv : bodyVerdict env zonename m d r = v)
    (h : d = true ∨ (v.2.1 = false ∧ r.sect ≠ .additional ∧ hasAdditional r.type = true)) :
    v.2.2 = true := by
  obtain ⟨hsect, _, htype⟩ := hv ▸ bodyVerdict_same
  rcases bodyVerdict_cases hv with ⟨heq, hnot⟩ | heq
  · rw [heq]
    apply h.resolve_right
    rw [hnot]
    exact nofun
  · rw [← hsect, ← htype, heq, zoneVerdict] at h
    rw [heq, zoneVerdict]
    split at h
    case isTrue hsub =>
      rw [if_pos hsub]
      apply h.resolve_right
      intro ⟨hk, hne, hadd⟩
      have hkeep : keeps zonename d v.1 = true := by
        apply decide_eq_true
        refine ⟨fun h => hne h.2, fun h => ?_⟩
        rw [h.1] at hadd
        exact absurd hadd (by decide)
      rw [hkeep] at hk
      cases hk
    case isFalse hsub =>
      rw [if_neg hsub]
      split at h
      case isTrue hlame => rw [if_pos hlame]
      case isFalse hlame =>
        rw [if_neg hlame, Bool.or_eq_true]
        exact h.imp_right fun h => h.2.2

/-- An RRset that the server may speak for, or the NS RRset above the zone of a lame server. -/
def InZone (zonename : Name) (m : MsgParse) (i : Nat) : Prop :=
  key zonename <+: key (m.heap i).dname ∨
    ((m.heap i).type = RrType.ns ∧ (m.heap i).sect = .authority ∧
      (key (m.heap i).dname <+: key zonename ∧ (m.heap i).dname.length < zonename.length) ∧
      (∀ j ∈ m.rrsets, (m.heap j).sect ≠ .answer) ∧
      ∀ j ∈ m.rrsets, ¬ ((m.heap j).type = RrType.soa ∧ (m.heap j).sect = .authority))

theorem InZone.trims (h : InZone zonename m i) (ht : Trims m m') : InZone zonename m' i := by
  have hi := ht.heap i
  rw [InZone, hi.dname, hi.type, hi.sect]
  apply h.imp_right
  rintro ⟨htype, hsect, habove, hanswer, hsoa⟩
  refine ⟨htype, hsect, habove, ?_, ?_⟩
  · intro j hj
    rw [(ht.heap j).sect]
    exact hanswer j (ht.rrsets.subset hj)
  · intro j hj
    rw [(ht.heap j).sect, (ht.heap j).type]
    exact hsoa j (ht.rrsets.subset hj)

theorem MsgOk.inZone_of_isLame (hok : MsgOk m) (hsub : pktSub (m.heap id).dname zonename = false)
    (h : isLame zonename m (m.heap id) = true) : InZone zonename m id := by
  simp only [isLame, decide_eq_true_eq] at h
  obtain ⟨han, htype, hsect, _, hsoa, habove⟩ := h
  right
  refine ⟨htype, hsect, ?_, ?_, ?_⟩
  · have hpre := (dnameSubdomainC_iff zonename (m.heap id).dname).1 habove
    have hlen := hpre.length_le
    rw [length_key, length_key] at hlen
    refine ⟨hpre, lt_of_le_of_ne hlen fun heq => ?_⟩
    -- names of the same length would be the same, and the owner not outside the zone
    have hkeys := hpre.eq_of_length (by rw [length_key, length_key, heq])
    have hinside : pktSub (m.heap id).dname zonename = true :=
      (dnameSubdomainC_iff (m.heap id).dname zonename).2 (by rw [hkeys])
    rw [hinside] at hsub
    cases hsub
  · intro j hj hjsect
    have hcount := hok.anRrsets
    have hzero : m.rrsets.countP (fun i => decide ((m.heap i).sect = .answer)) = 0 := by omega
    exact (countP_eq_zero.1 hzero j hj) (decide_eq_true hjsect)
  · intro j hj hboth
    apply hsoa
    rw [soaInAuth, any_eq_true]
    exact ⟨j, hj, decide_eq_true hboth⟩

/-- What the loop over all sections keeps, from message `m` on. -/
structure ZoneKept (zonename : Name) (m : MsgParse) (s : Sanitized) : Prop where
  ok : MsgOk s.msg
  trims : Trims m s.msg
  inZone : ∀ i ∈ s.msg.done, InZone zonename s.msg i
  intact : Intact m s.msg ∨ (s.delAddi = true ∧ ∀ i ∈ s.msg.done, (s.msg.heap i).sect ≠ .additional)

theorem MsgOk.done_sect (hok : MsgOk m) (hrest : m.rest = id :: nx)
    (hsect : (m.heap id).sect ≠ .additional) (hi : i ∈ m.done) : (m.heap i).sect ≠ .additional := by
  intro hadd
  have hle := hok.done_le hi (mem_rest hrest)
  rw [MsgParse.rank, MsgParse.rank, hadd] at hle
  revert hle hsect
  cases (m.heap id).sect <;> decide

theorem ZoneKept.next (hk : ZoneKept zonename m s) (h : sanitizeBody env zonename s = .next s') :
    ZoneKept zonename m s' ∧ s'.msg.rest.length < s.msg.rest.length := by
  cases hrest : s.msg.rest with
  | nil =>
    rw [sanitizeBody, hrest] at h
    cases h
  | cons id nx =>
    have ha := Alters.verdict env zonename s id
    generalize hv : bodyVerdict env zonename s.msg s.delAddi (s.msg.heap id) = v at ha
    obtain ⟨s₁, hs₁, hmsg, hdel⟩ := sanitizeBody_eq hrest hv
    cases hs₁.symm.trans h
    have hrest₁ := ha.rest.trans hrest
    have ht : Trims s.msg s'.msg := hmsg ▸ ha.trims.trans (.pass _ _)
    have hdone : ∀ i ∈ s'.msg.done, i ∈ s.msg.done ∨ (i = id ∧ v.2.1 = true) := by
      intro i hi
      rw [hmsg, MsgParse.pass_done hrest₁, ha.done] at hi
      split at hi
      case isTrue hkept => exact (mem_cons.1 hi).symm.imp_right fun hi => ⟨hi, hkept⟩
      case isFalse => exact .inl hi
    constructor
    case right =>
      rw [hmsg, MsgParse.pass_rest hrest₁]
      exact Nat.lt_succ_self _
    constructor
    case ok => exact hmsg ▸ (hk.ok.alters ha).pass _
    case trims => exact hk.trims.trans ht
    case inZone =>
      intro i hi
      rcases hdone i hi with hi | ⟨rfl, hkept⟩
      · exact (hk.inZone i hi).trims ht
      · apply InZone.trims _ ht
        rcases (bodyVerdict_kept hv hkept).1 with hsub | ⟨hsub, hlame⟩
        · exact .inl ((dnameSubdomainC_iff _ _).1 hsub)
        · exact hk.ok.inZone_of_isLame hsub hlame
    case intact =>
      rw [hdel]
      rcases hk.intact with hintact | ⟨htrue, hnone⟩
      · by_cases hnames : v.2.1 = false ∧ (s.msg.heap id).sect ≠ .additional ∧
            hasAdditional (s.msg.heap id).type = true
        · right
          refine ⟨bodyVerdict_del hv (.inr hnames), fun i hi => ?_⟩
          rw [(ht.heap i).sect]
          rcases hdone i hi with hi | ⟨_, hkept⟩
          · exact hk.ok.done_sect hrest hnames.2.1 hi
          · exact absurd (hkept.symm.trans hnames.1) (by decide)
        · left
          have hintact₁ : Intact m (s.msg.modify id fun _ => v.1) := by
            intro j hj hsect hadd
            exact hintact j hj hsect hadd
          rw [hmsg]
          apply hintact₁.pass (hk.trims.trans ha.trims).heap hrest₁
          rw [(ha.heap id).sect, (ha.heap id).type]
          exact fun hgone hsect => Bool.eq_false_iff.2 fun htype => hnames ⟨hgone, hsect, htype⟩
      · right
        refine ⟨bodyVerdict_del hv (.inl htrue), fun i hi => ?_⟩
        rw [(ht.heap i).sect]
        rcases hdone i hi with hi | ⟨rfl, hkept⟩
        · exact hnone i hi
        · intro hsect
          have hfalse := (bodyVerdict_kept hv hkept).2 hsect
          rw [bodyVerdict_del hv (.inl htrue)] at hfalse
          cases hfalse

theorem sanitizeBody_stop (h : sanitizeBody env zonename s = .stop) : s.msg.rest = [] := by
  rw [sanitizeBody] at h
  split at h
  case h_1 hrest => exact hrest
  case h_2 =>
    split at h
    case isFalse => cases h
    case isTrue =>
      dsimp only at h
      split at h
      case isTrue => cases h
      case isFalse => split at h <;> cases h

end Zone

section Message
variable {s : Sanitized}

theorem sanitizeLoop (hok : MsgOk m) (hdone : m.done = []) (hm : Trims m' m)
    (hintact : Intact m' m ∨ delAddi = true)
    (h : loop (sanitizeBody env zonename) (m.rest.length + 1) ⟨m, delAddi, false, [], []⟩ =
      some s) : ZoneKept zonename m' s ∧ s.msg.rest = [] := by
  have hnone : ∀ {P : Nat → Prop}, ∀ i ∈ m.done, P i := by
    intro P i hi
    rw [hdone] at hi
    cases hi
  have hk : ZoneKept zonename m' ⟨m, delAddi, false, [], []⟩ :=
    ⟨hok, hm, hnone, hintact.imp_right fun hdel => ⟨hdel, hnone⟩⟩
  obtain ⟨_, hk', hstop⟩ := loop_turns (fun _ _ => ZoneKept.next) hk (Nat.lt_succ_self _) h
  exact ⟨hk', sanitizeBody_stop hstop⟩

theorem head?_of_sublist {l : List Nat} (h : l.Sublist (i :: tl))
    (hnodup : (i :: tl).Nodup) (hi : i ∈ l) : l.head? = some i := by
  cases h with
  | cons _ hsub => exact absurd (hsub.subset hi) (nodup_cons.1 hnodup).1
  | cons_cons _ hsub => rfl

/-- An RRset of the answer section that is left: one of the query name, or the first DNAME. -/
def OwnedByQuery (qinfo : QueryInfo) (m : MsgParse) (i : Nat) : Prop :=
  lowerName (m.heap i).dname = lowerName qinfo.qname ∨
    (m.rrsets.head? = some i ∧ (m.heap i).type = RrType.dname ∧
      key (m.heap i).dname <+: key qinfo.qname ∧ (m.heap i).dname.length < qinfo.qname.length)

theorem firstDname_start (hok : MsgOk m) (hdone : m.done = []) :
    ∃ m₁, (if firstDname qinfo zonename m then m.advance else m) = m₁ ∧ MsgOk m₁ ∧
      Trims m m₁ ∧ m₁.rrsets = m.rrsets ∧
      ∀ i ∈ m₁.done, m.rest.head? = some i ∧ (m.heap i).type = RrType.dname ∧
        pktStrictSub qinfo.qname (m.heap i).dname = true := by
  refine ⟨_, rfl, ?_⟩
  split
  case isFalse =>
    refine ⟨hok, .refl m, rfl, ?_⟩
    intro i hi
    rw [hdone] at hi
    cases hi
  case isTrue h =>
    refine ⟨hok.advance, .advance m, m.rrsets_advance, ?_⟩
    rw [firstDname] at h
    cases hrest : m.rest with
    | nil =>
      rw [hrest] at h
      cases h
    | cons id nx =>
      rw [hrest] at h
      simp only [decide_eq_true_eq] at h
      rw [advance_eq hrest, hdone]
      intro i hi
      rw [mem_singleton.1 hi]
      exact ⟨rfl, h.1, h.2.2.1⟩

theorem scrubSanitize_spec (hok : MsgOk m) (h : scrubSanitize env qinfo zonename m = some s) :
    (∀ i ∈ s.msg.rrsets, InZone zonename s.msg i) ∧
      (∀ i ∈ s.msg.rrsets, (s.msg.heap i).sect = .answer → OwnedByQuery qinfo s.msg i) ∧
      (GlueNamed m → GlueNamed s.msg) := by
  rw [scrubSanitize] at h
  obtain ⟨m₁, hm₁, hok₁, htrims₁, hrrsets₁, hfirst⟩ :=
    @firstDname_start qinfo zonename m.rewind hok.rewind rfl
  rw [hm₁] at h
  obtain ⟨a, ha, h⟩ := Option.bind_eq_some_iff.1 h
  obtain ⟨hkept, hnone⟩ := sanitizeAnswerLoop hok₁ ha
  have hrewind : Trims m₁ a.1.rewind := ⟨hkept.trims.heap, hkept.trims.rrsets⟩
  obtain ⟨hzone, hrest⟩ := sanitizeLoop hkept.ok.rewind rfl hrewind hkept.intact h
  obtain ⟨hlast, _⟩ := sanitizeLoop hkept.ok.rewind rfl (.refl _) (.inl fun j hj _ _ => hj) h
  refine ⟨fun i hi => hzone.inZone i ((mem_rrsets_iff hrest).1 hi), ?_, ?_⟩
  · intro i hi hsect
    have hmem : i ∈ a.1.rrsets := hlast.trims.rrsets.subset hi
    have hheap := hlast.trims.heap i
    rw [hheap.sect] at hsect
    have hi₁ : i ∈ a.1.done := by
      rcases mem_append.1 hmem with hmem | hmem
      · exact mem_reverse.1 hmem
      · exact absurd hsect (hnone i hmem)
    rcases hkept.owners i hi₁ with hstart | hsame
    · obtain ⟨hhead, htype, hsub⟩ := hfirst i hstart
      right
      have hi₂ := (htrims₁.trans hzone.trims).heap i
      have hsub₂ : s.msg.rrsets.Sublist m.rrsets := (htrims₁.trans hzone.trims).rrsets
      rw [hi₂.type, hi₂.dname]
      refine ⟨?_, htype, (dnameStrictSubdomainC_iff _ _).1 hsub⟩
      have hcons : m.rrsets = i :: m.rrsets.tail := (cons_head?_tail hhead).symm
      rw [hcons] at hsub₂
      exact head?_of_sublist hsub₂ (hcons ▸ hok.nodup) hi
    · left
      rw [hheap.dname]
      exact (sameName_iff.1 hsame).symm
  · intro hglue
    have hglue₁ : GlueNamed m₁ := by
      have hglue₀ : GlueNamed m.rewind := hglue
      refine hglue₀.trims htrims₁ (.inl ?_)
      intro j hj _ _
      rw [hrrsets₁]
      exact hj
    apply hglue₁.trims hzone.trims
    apply hzone.intact.imp_right
    rintro ⟨_, hadd⟩ i hi
    exact hadd i ((mem_rrsets_iff hrest).1 hi)

theorem rcode_clear :
    MsgParse.rcode { m with flags := m.flags &&& ~~~(bitAD ||| bitZ) } = m.rcode := by
  have hmask : (~~~(bitAD ||| bitZ) : UInt16) &&& 0xf = 0xf := by decide
  rw [MsgParse.rcode, MsgParse.rcode, UInt16.and_assoc, hmask]

theorem scrubMessage_steps (hp : Parsed m) (h : scrubMessage env qinfo zonename m = some s) :
    ∃ m', MsgOk m' ∧ (m.rcode = rcodeNoerror ∨ m.rcode = rcodeNxdomain → GlueNamed m') ∧
      ∀ env', scrubNormalize env' qinfo = scrubNormalize env qinfo →
        scrubMessage env' qinfo zonename m = scrubSanitize env' qinfo zonename m' := by
  simp only [scrubMessage, Option.ite_none_left_eq_some] at h ⊢
  obtain ⟨hqd, hqr, hcount, hquery, h⟩ := h
  obtain ⟨m', hm', _⟩ := Option.bind_eq_some_iff.1 h
  have hclear : Parsed { m with flags := m.flags &&& ~~~(bitAD ||| bitZ) } :=
    ⟨⟨hp.ok.nodup, hp.ok.fresh, hp.ok.sorted, hp.ok.anRrsets⟩, hp.unmarked⟩
  obtain ⟨hok, hglue⟩ := scrubNormalize_ok hclear hm'
  rw [rcode_clear] at hglue
  refine ⟨m', hok, hglue, ?_⟩
  intro env' henv
  rw [if_neg hqd, if_neg hqr, if_neg hcount, if_neg hquery, henv, hm', Option.bind_some]

/-- What `scrub_message` leaves is in the zone, apart from the NS of a lame server, and answers the
query. -/
theorem scrub_message_bailiwick (env : ScrubEnv) (qinfo : QueryInfo) (zonename : Name)
    (m : MsgParse) (hp : Parsed m) (s : Sanitized)
    (h : scrubMessage env qinfo zonename m = some s) :
    (∀ i ∈ s.msg.rrsets, InZone zonename s.msg i) ∧
      ∀ i ∈ s.msg.rrsets, (s.msg.heap i).sect = .answer → OwnedByQuery qinfo s.msg i := by
  obtain ⟨m', hok, _, hsteps⟩ := scrubMessage_steps hp h
  obtain ⟨hzone, howner, _⟩ := scrubSanitize_spec hok (hsteps env rfl ▸ h)
  exact ⟨hzone, howner⟩

def zoneA : Name := [[97]]
def zoneB : Name := [98] :: zoneA
def serverN : Name := [110] :: zoneB

def referralRrsets : Nat → RrsetParse
  | 0 => ⟨.authority, zoneB, RrType.ns, 1, 0, 10, [⟨60, 10, false, 8, [], fun offset =>
      if offset = 0 then some (serverN, 7) else none⟩], []⟩
  | _ => ⟨.additional, serverN, RrType.a, 1, 0, 6, [⟨60, 6, false, 4, [192, 0, 2, 1],
      fun _ => none⟩], []⟩

def referral : MsgParse :=
  ⟨0x8000, 1, 0, 1, 1, zoneB, RrType.a, 1, 2, 0, 1, 1, referralRrsets, 2, [1, 0], [], [0, 1]⟩

def plainEnv : ScrubEnv := ⟨true, false, 0, fun _ => false, fun _ _ => false, fun _ => true⟩

theorem referral_parsed : Parsed referral :=
  ⟨⟨by decide, by decide, by decide, by decide⟩, by decide⟩

theorem referral_scrubbed : ∃ s,
    scrubMessage plainEnv ⟨zoneB, RrType.a, 1⟩ zoneA referral = some s ∧ s.msg.rrsets = [0, 1] := by
  decide +kernel

theorem scrub_message_bailiwick_referral :
    ∃ s, scrubMessage plainEnv ⟨zoneB, RrType.a, 1⟩ zoneA referral = some s ∧
      s.msg.rrsets = [0, 1] ∧ (∀ i ∈ s.msg.rrsets, InZone zoneA s.msg i) ∧
      ∀ i ∈ s.msg.rrsets, (s.msg.heap i).sect = .answer →
        OwnedByQuery ⟨zoneB, RrType.a, 1⟩ s.msg i := by
  obtain ⟨s, hs, hrrsets⟩ := referral_scrubbed
  exact ⟨s, hs, hrrsets, scrub_message_bailiwick _ _ _ _ referral_parsed s hs⟩

/-- The additional addresses that `scrub_message` leaves are named in an RRset of another section.
-/
theorem scrub_message_glue_named (env : ScrubEnv) (qinfo : QueryInfo) (zonename : Name)
    (m : MsgParse) (hp : Parsed m) (hcode : m.rcode = rcodeNoerror ∨ m.rcode = rcodeNxdomain)
    (s : Sanitized) (h : scrubMessage env qinfo zonename m = some s) :
    ∀ i ∈ s.msg.rrsets, (s.msg.heap i).sect = .additional →
      isAddress (s.msg.heap i).type = true → NamedBy s.msg s.msg.rrsets i := by
  obtain ⟨m', hok, hglue, hsteps⟩ := scrubMessage_steps hp h
  exact (scrubSanitize_spec hok (hsteps env rfl ▸ h)).2.2 (hglue hcode)

theorem scrub_message_glue_named_referral :
    ∃ s, scrubMessage plainEnv ⟨zoneB, RrType.a, 1⟩ zoneA referral = some s ∧
      s.msg.rrsets = [0, 1] ∧ ∀ i ∈ s.msg.rrsets, (s.msg.heap i).sect = .additional →
        isAddress (s.msg.heap i).type = true → NamedBy s.msg s.msg.rrsets i := by
  obtain ⟨s, hs, hrrsets⟩ := referral_scrubbed
  exact ⟨s, hs, hrrsets, scrub_message_glue_named _ _ _ _ referral_parsed (.inl (by decide)) s hs⟩

end Message

end

open Dnstree

section Config

structure IterPriv where
  a : NestTree AddrTreeNode
  n : NestTree NameTreeNode

/-- `priv_apply_cfg`, for the netblocks and names of the configuration. -/
def privApplyCfg (addrs : List AddrTreeNode) (names : List Name) : IterPriv where
  a := addrTreeInitParents id (addrs.foldl (addrTreeInsert id) addrTreeInit)
  n := nameTreeInitParents id
    ((names.map fun name => ⟨name, 1⟩).foldl (nameTreeInsert id) nameTreeInit)

def sockaddr (octets : List UInt8) : Option SockAddr :=
  if h : octets.length = 4 then some ⟨.inet, octets, h⟩
  else if h : octets.length = 16 then some ⟨.inet6, octets, h⟩
  else none

def IterPriv.lookupAddr (priv : IterPriv) (octets : List UInt8) : Bool :=
  ((sockaddr octets).bind (addrTreeLookup id priv.a)).isSome

def IterPriv.env (priv : IterPriv) (env : ScrubEnv) : ScrubEnv :=
  { env with
    privCount := priv.a.tree.length
    privLookupAddr := priv.lookupAddr
    privLookupName := fun name dclass => (nameTreeLookup id priv.n name dclass).isSome }

def RrParse.address (type : UInt16) (rr : RrParse) : Option SockAddr :=
  if isAddress type ∧ rr.rdataLen + 2 = addressSize type then sockaddr (rr.rdata.take rr.rdataLen)
  else none

def PrivateName (names : List Name) (r : RrsetParse) : Prop :=
  wireLen r.dname < 256 ∧ r.rrsetClass = 1 ∧ ∃ name ∈ names, dnameSubdomainC r.dname name = true

def Rebinds (addrs : List AddrTreeNode) (names : List Name) (r : RrsetParse) (rr : RrParse) :
    Prop :=
  ¬ PrivateName names r ∧ ∃ addr, rr.address r.type = some addr ∧ ∃ x ∈ addrs, x.Contains addr

def blocked (env : ScrubEnv) (r : RrsetParse) (rr : RrParse) : Bool :=
  !privLookupName env r.dname r.rrsetClass && privateAddress env r.type rr

variable {addrs : List AddrTreeNode} {names : List Name} {env : ScrubEnv} {r : RrsetParse}
  {rr : RrParse}

theorem privApplyCfg_lookupAddr :
    (privApplyCfg addrs names).lookupAddr octets = true ↔
      ∃ addr, sockaddr octets = some addr ∧ ∃ x ∈ addrs, x.Contains addr := by
  rw [IterPriv.lookupAddr]
  cases sockaddr octets with
  | none => exact iff_of_false (by simp) nofun
  | some addr =>
    have hnear : Nearest addrs (AddrTreeNode.path ∘ id) (fun a => Above a addr.node.path)
        (addrTreeLookup id (privApplyCfg addrs names).a addr) :=
      addrNest_spec.lookup_insert_link addrs _ _
    rw [Option.bind_some, hnear.isSome_iff]
    simp only [Option.some.injEq, exists_eq_left', AddrTreeNode.contains_iff]
    rfl

theorem privApplyCfg_lookupName :
    (nameTreeLookup id (privApplyCfg addrs names).n name dclass).isSome = true ↔
      dclass = 1 ∧ ∃ x ∈ names, dnameSubdomainC name x = true := by
  have hnear : Nearest (names.map fun name => ⟨name, 1⟩) (NameTreeNode.path ∘ id)
      (fun a => Above a (NameTreeNode.path ⟨name, dclass⟩))
      (nameTreeLookup id (privApplyCfg addrs names).n name dclass) :=
    nameNest_spec.lookup_insert_link _ _ _
  rw [hnear.isSome_iff]
  simp only [dnameSubdomainC_iff]
  constructor
  · intro ⟨node, hnode, hclass, hname⟩
    obtain ⟨x, hx, rfl⟩ := mem_map.1 hnode
    exact ⟨hclass.symm, x, hx, hname⟩
  · intro ⟨hclass, x, hx, hname⟩
    exact ⟨⟨x, 1⟩, mem_map_of_mem hx, hclass.symm, hname⟩

theorem blocked_iff : blocked ((privApplyCfg addrs names).env env) r rr = true ↔
    Rebinds addrs names r rr := by
  rw [blocked, Bool.and_eq_true, Rebinds, Bool.not_eq_true', ← Bool.not_eq_true]
  apply and_congr (not_congr _)
  · rw [privateAddress, RrParse.address, Bool.and_eq_true, Bool.and_eq_true, decide_eq_true_eq]
    split
    case isTrue h => exact (and_iff_right h).trans privApplyCfg_lookupAddr
    case isFalse h => exact iff_of_false (fun h' => h h'.1) (by simp)
  · rw [PrivateName, privLookupName]
    split
    case isTrue h => exact iff_of_false (by simp) fun h' => absurd h'.1 (Nat.not_lt.2 h)
    case isFalse h =>
      exact privApplyCfg_lookupName.trans (and_iff_right (Nat.not_le.1 h)).symm

theorem privRrsetBad_eq (priv : IterPriv) :
    privRrsetBad (priv.env env) r = removeRrs (blocked (priv.env env) r) r := by
  rw [privRrsetBad]
  split
  case isTrue hcount =>
    symm
    apply removeRrs_of_not
    intro rr _
    have htree : priv.a.tree = [] := eq_nil_of_length_eq_zero hcount
    have hnone : ∀ octets, (priv.env env).privLookupAddr octets = false := by
      intro octets
      change priv.lookupAddr octets = false
      rw [IterPriv.lookupAddr]
      cases sockaddr octets with
      | none => rfl
      | some addr => rw [Option.bind_some, addrTreeLookup, NestOps.lookup, htree]; rfl
    rw [blocked, privateAddress, hnone, Bool.and_false, Bool.and_false]
  case isFalse =>
    split
    case isTrue hname =>
      symm
      apply removeRrs_of_not
      intro rr _
      rw [blocked, hname]
      rfl
    case isFalse hname =>
      rw [Bool.not_eq_true] at hname
      have heq : blocked (priv.env env) r = privateAddress (priv.env env) r.type := by
        funext rr
        rw [blocked, hname]
        rfl
      rw [heq]

end Config

section Turns
variable {env env₀ : ScrubEnv} {zonename : Name} {m : MsgParse} {id : Nat} {s s₀ : Sanitized}

/-- An RRset in a run that keeps it if `k` and in one without private addresses that keeps it if
`k₀`. -/
structure Fares (env : ScrubEnv) (k k₀ : Prop) (r r₀ : RrsetParse) : Prop where
  both : k → k₀ → r = (privRrsetBad env r₀).1
  gone : k₀ → ¬ k → (privRrsetBad env r₀).2 = true
  lame : k → ¬ k₀ → r.type = RrType.ns ∧ r.sect = .authority

structure Beside (env : ScrubEnv) (m m₀ : MsgParse) : Prop where
  rest : m.rest = m₀.rest
  flags : m.flags = m₀.flags
  next : ∀ i ∈ m.rest, m.heap i = m₀.heap i
  fares : ∀ i, Fares env (i ∈ m.done) (i ∈ m₀.done) (m.heap i) (m₀.heap i)

theorem MsgOk.ne_head (hok : MsgOk m) (hrest : m.rest = id :: nx) (hi : i ∈ m.done ∨ i ∈ nx) :
    i ≠ id := by
  have hn := hok.nodup
  rw [MsgParse.rrsets_eq hrest, nodup_append] at hn
  rcases hi with hi | hi
  · exact hn.2.2 i (mem_reverse.2 hi) id mem_cons_self
  · rintro rfl
    exact (nodup_cons.1 hn.2.1).1 hi

theorem MsgOk.mem_pass (hok : MsgOk m) (hrest : m.rest = id :: nx) :
    i ∈ ((m.modify id fun _ => r).pass kept).done ↔ if i = id then kept = true else i ∈ m.done := by
  have hrest' : (m.modify id fun _ => r).rest = id :: nx := hrest
  have hnot : id ∉ m.done := fun h => hok.ne_head hrest (.inl h) rfl
  rw [MsgParse.pass_done hrest']
  by_cases hid : i = id
  · subst hid
    rw [if_pos rfl]
    cases kept with
    | true => exact iff_of_true mem_cons_self rfl
    | false => exact iff_of_false hnot nofun
  · rw [if_neg hid]
    cases kept with
    | true => exact mem_cons.trans (or_iff_right hid)
    | false => exact Iff.rfl

theorem Beside.pass (h : Beside env m m₀) (hok : MsgOk m) (hok₀ : MsgOk m₀)
    (hrest : m.rest = id :: nx) (hf : Fares env (kept = true) (kept₀ = true) r r₀) :
    Beside env ((m.modify id fun _ => r).pass kept) ((m₀.modify id fun _ => r₀).pass kept₀) := by
  have hrest₀ : m₀.rest = id :: nx := h.rest ▸ hrest
  have hnx : ∀ {m : MsgParse} {r : RrsetParse} {kept : Bool}, m.rest = id :: nx →
      ((m.modify id fun _ => r).pass kept).rest = nx :=
    fun {m r kept} hm => @MsgParse.pass_rest (m.modify id fun _ => r) id nx hm kept
  constructor
  case rest => rw [hnx hrest, hnx hrest₀]
  case flags =>
    rw [MsgParse.pass_flags, MsgParse.pass_flags]
    exact h.flags
  case next =>
    intro i hi
    rw [hnx hrest] at hi
    have hne := hok.ne_head hrest (.inr hi)
    simp only [MsgParse.pass_heap, MsgParse.modify_heap, if_neg hne]
    exact h.next i (hrest ▸ mem_cons_of_mem id hi)
  case fares =>
    intro i
    simp only [hok.mem_pass hrest, hok₀.mem_pass hrest₀, MsgParse.pass_heap, MsgParse.modify_heap]
    split
    · exact hf
    · exact h.fares i

theorem Beside.mem (h : Beside env m m₀) (hi : i ∈ m.rrsets) :
    (i ∈ m₀.rrsets ∧ (m.heap i).type = (m₀.heap i).type ∧ (m.heap i).sect = (m₀.heap i).sect) ∨
      ((m.heap i).type = RrType.ns ∧ (m.heap i).sect = .authority) := by
  rw [MsgParse.rrsets, mem_append, mem_reverse] at hi ⊢
  rcases hi with hi | hi
  · by_cases hi₀ : i ∈ m₀.done
    · obtain ⟨hsect, _, htype⟩ := privRrsetBad_same env (m₀.heap i)
      rw [(h.fares i).both hi hi₀]
      exact .inl ⟨.inl hi₀, htype, hsect⟩
    · exact .inr ((h.fares i).lame hi hi₀)
  · rw [h.next i hi]
    exact .inl ⟨.inr (h.rest ▸ hi), rfl, rfl⟩

theorem Beside.lame_of_lame (h : Beside env m m₀) (hok : MsgOk m) (hok₀ : MsgOk m₀)
    (hlame : isLame zonename m₀ r = true) : isLame zonename m r = true := by
  simp only [isLame, decide_eq_true_eq] at hlame ⊢
  obtain ⟨han, htype, hsect, hcode, hsoa, hsub⟩ := hlame
  refine ⟨?_, htype, hsect, ?_, ?_, hsub⟩
  · rw [hok₀.anRrsets, Int.natCast_eq_zero, countP_eq_zero] at han
    rw [hok.anRrsets, Int.natCast_eq_zero, countP_eq_zero]
    intro i hi
    rcases h.mem hi with ⟨hmem, _, hsect⟩ | ⟨_, hsect⟩
    · rw [hsect]
      exact han i hmem
    · rw [hsect]
      decide
  · rw [MsgParse.rcode, h.flags]
    exact hcode
  · intro hm
    apply hsoa
    obtain ⟨i, hi, hboth⟩ := any_eq_true.1 hm
    rw [decide_eq_true_eq] at hboth
    rcases h.mem hi with ⟨hmem, htype, hsect⟩ | ⟨htype, _⟩
    · rw [htype, hsect] at hboth
      exact any_eq_true.2 ⟨i, hmem, decide_eq_true hboth⟩
    · exact absurd (htype.symm.trans hboth.1) (by decide)

theorem zoneVerdict_address (haddr : isAddress r.type = true) (hsect : r'.sect = r.sect)
    (hdname : r'.dname = r.dname) (htype : r'.type = r.type) :
    zoneVerdict zonename false d r' = zoneVerdict zonename false d r ∧
      (zoneVerdict zonename false d r).2 = d := by
  have hnsec : ∀ {P : Prop}, ¬ (r.type = RrType.nsec ∧ P) := by
    intro P h
    rw [h.1] at haddr
    exact absurd haddr (by decide)
  constructor
  · simp only [zoneVerdict, keeps, hsect, hdname, htype, hnsec]
  · rw [zoneVerdict, hasAdditional_of_isAddress haddr, Bool.or_false]
    split <;> rfl

theorem zoneVerdict_lame (hns : r.type = RrType.ns) :
    (zoneVerdict zonename true d r).2 = (zoneVerdict zonename false d r).2 ∧
      ((zoneVerdict zonename false d r).1 = true → (zoneVerdict zonename true d r).1 = true) := by
  rw [zoneVerdict, zoneVerdict, hns]
  split
  · exact ⟨rfl, fun h => h⟩
  · exact ⟨(Bool.or_true d).symm, fun h => absurd h Bool.false_ne_true⟩

theorem Fares.same (hpriv : privRrsetBad env r = (r', false)) (k : Prop) : Fares env k k r' r :=
  ⟨fun _ _ => by rw [hpriv], fun h h' => absurd h h', fun h h' => absurd h h'⟩

theorem Beside.verdict (hb : Beside env m m₀) (hok : MsgOk m) (hok₀ : MsgOk m₀)
    (hnone : ∀ r, privRrsetBad env₀ r = (r, false)) (hv : bodyVerdict env zonename m d r = v)
    (hv₀ : bodyVerdict env₀ zonename m₀ d r = v₀) :
    Fares env (v.2.1 = true) (v₀.2.1 = true) v.1 v₀.1 ∧ v.2.2 = v₀.2.2 := by
  cases haddr : isAddress r.type with
  | true =>
    simp only [bodyVerdict, hnone] at hv hv₀
    generalize hl : removeRrs (badLength r.type) r = l at hv hv₀
    have haddr' : isAddress l.1.type = true := hl ▸ haddr
    obtain ⟨hsect, hdname, htype⟩ := privRrsetBad_same env l.1
    generalize hp : privRrsetBad env l.1 = p at hv hsect hdname htype
    have hlame := @not_isLame_of_isAddress zonename m p.1 (htype ▸ haddr')
    obtain ⟨hcongr, hdel⟩ := zoneVerdict_address haddr' hsect hdname htype
    rw [hlame, hcongr] at hv
    rw [not_isLame_of_isAddress haddr'] at hv₀
    cases hgone : l.2 with
    | true =>
      rw [hgone, if_pos rfl] at hv hv₀
      subst hv hv₀
      exact ⟨⟨by simp, by simp, by simp⟩, rfl⟩
    | false =>
      rw [hgone, if_neg Bool.false_ne_true] at hv hv₀
      subst hv₀
      obtain ⟨r', bad⟩ := p
      cases bad with
      | true =>
        subst hv
        exact ⟨⟨by simp, fun _ _ => congrArg Prod.snd hp, by simp⟩, hdel.symm⟩
      | false =>
        subst hv
        exact ⟨.same hp _, rfl⟩
  | false =>
    have hpriv : privRrsetBad env r = (r, false) := privRrsetBad_not_address haddr
    rw [bodyVerdict_not_address haddr] at hv hv₀
    subst hv hv₀
    cases hlame₀ : isLame zonename m₀ r with
    | true =>
      rw [hb.lame_of_lame hok hok₀ hlame₀]
      exact ⟨.same hpriv _, rfl⟩
    | false =>
      cases hlame : isLame zonename m r with
      | false => exact ⟨.same hpriv _, rfl⟩
      | true =>
        rw [isLame, decide_eq_true_eq] at hlame
        obtain ⟨hdel, hkept⟩ := zoneVerdict_lame hlame.2.1
        refine ⟨⟨fun _ _ => by rw [hpriv], fun h h' => absurd (hkept h) h', fun _ _ => ?_⟩, hdel⟩
        exact ⟨hlame.2.1, hlame.2.2.1⟩

theorem sanitizeBody_beside (hb : Beside env s.msg s₀.msg)
    (hdel : s.delAddi = s₀.delAddi) (hok : MsgOk s.msg) (hok₀ : MsgOk s₀.msg)
    (hnone : ∀ r, privRrsetBad env₀ r = (r, false)) (h : sanitizeBody env zonename s = .next s') :
    ∃ s₀', sanitizeBody env₀ zonename s₀ = .next s₀' ∧ Beside env s'.msg s₀'.msg ∧
      s'.delAddi = s₀'.delAddi := by
  cases hrest : s.msg.rest with
  | nil =>
    rw [sanitizeBody, hrest] at h
    cases h
  | cons id nx =>
    have hheap : s₀.msg.heap id = s.msg.heap id := (hb.next id (hrest ▸ mem_cons_self)).symm
    obtain ⟨s₁, hs₁, hmsg, hdel₁⟩ := sanitizeBody_eq hrest rfl
    obtain ⟨s₀', hs₀', hmsg₀, hdel₀⟩ := sanitizeBody_eq (hb.rest ▸ hrest) rfl
    cases hs₁.symm.trans h
    rw [hheap, ← hdel] at hmsg₀ hdel₀
    obtain ⟨hfares, hdel'⟩ := hb.verdict hok hok₀ hnone rfl rfl
    refine ⟨s₀', hs₀', ?_, (hdel₁.trans hdel').trans hdel₀.symm⟩
    rw [hmsg, hmsg₀]
    exact hb.pass hok hok₀ hrest hfares

end Turns

section Message
variable {addrs : List AddrTreeNode} {names : List Name} {env env₀ : ScrubEnv} {qinfo : QueryInfo}
  {zonename : Name} {m : MsgParse} {s : Sanitized}

theorem scrubSanitize_beside (hok : MsgOk m) (hnone : ∀ r, privRrsetBad env₀ r = (r, false))
    (h : scrubSanitize env qinfo zonename m = some s) :
    ∃ s₀, scrubSanitize env₀ qinfo zonename m = some s₀ ∧ Beside env s.msg s₀.msg ∧
      s.msg.rest = [] := by
  rw [scrubSanitize] at h ⊢
  obtain ⟨m₁, hm₁, hok₁, _⟩ := @firstDname_start qinfo zonename m.rewind hok.rewind rfl
  rw [hm₁] at h ⊢
  obtain ⟨a, ha, h⟩ := Option.bind_eq_some_iff.1 h
  rw [ha, Option.bind_eq_bind, Option.bind_some]
  have hok₂ := (sanitizeAnswerLoop hok₁ ha).1.ok.rewind
  have hstart : Intact a.1.rewind a.1.rewind ∨ a.2 = true := .inl fun j hj _ _ => hj
  obtain ⟨_, hrest⟩ := sanitizeLoop hok₂ rfl (.refl _) hstart h
  have hkept : ∀ i ∈ a.1.rewind.done, False := forall_mem_nil _
  have hzone : ZoneKept zonename a.1.rewind ⟨a.1.rewind, a.2, false, [], []⟩ :=
    ⟨hok₂, .refl _, fun i hi => (hkept i hi).elim, .inl fun j hj _ _ => hj⟩
  have hbeside : Beside env a.1.rewind a.1.rewind :=
    ⟨rfl, rfl, fun _ _ => rfl, fun i => ⟨fun hi => (hkept i hi).elim, fun hi => (hkept i hi).elim,
      fun hi => (hkept i hi).elim⟩⟩
  have hpair := @loop_beside Sanitized (sanitizeBody env zonename) ⟨a.1.rewind, a.2, false, [], []⟩
    Sanitized (sanitizeBody env₀ zonename)
    (fun s s₀ => (Beside env s.msg s₀.msg ∧ s.delAddi = s₀.delAddi) ∧
      ZoneKept zonename a.1.rewind s ∧ ZoneKept zonename a.1.rewind s₀)
    (fun s s' s₀ hs hnext => by
      obtain ⟨⟨hb, hdel⟩, hk, hk₀⟩ := hs
      obtain ⟨s₀', hnext₀, hb', hdel'⟩ := sanitizeBody_beside hb hdel hk.ok hk₀.ok hnone hnext
      exact ⟨s₀', hnext₀, ⟨hb', hdel'⟩, (hk.next hnext).1, (hk₀.next hnext₀).1⟩)
    (fun s s₀ hs hstop => by
      rw [sanitizeBody, ← hs.1.1.rest, sanitizeBody_stop hstop])
  obtain ⟨s₀, hs₀, ⟨hb, _⟩, _⟩ := hpair ⟨⟨hbeside, rfl⟩, hzone, hzone⟩ h
  exact ⟨s₀, hs₀, hb, hrest⟩

/-- `scrub_message` leaves no private address at a public name, and takes out nothing else for it.
-/
theorem scrubMessage_private (hp : Parsed m)
    (h : scrubMessage ((privApplyCfg addrs names).env env) qinfo zonename m = some s) :
    (∀ i ∈ s.msg.rrsets, ∀ rr ∈ (s.msg.heap i).rrs, ¬ Rebinds addrs names (s.msg.heap i) rr) ∧
    ∃ s₀, scrubMessage ((privApplyCfg [] names).env env) qinfo zonename m = some s₀ ∧
      ∀ i ∈ s₀.msg.rrsets,
        ((∀ rr ∈ (s₀.msg.heap i).rrs, ¬ Rebinds addrs names (s₀.msg.heap i) rr) →
          i ∈ s.msg.rrsets ∧ s.msg.heap i = s₀.msg.heap i) ∧
        ∀ rr ∈ (s₀.msg.heap i).rrs, ¬ Rebinds addrs names (s₀.msg.heap i) rr →
          i ∈ s.msg.rrsets ∧ rr ∈ (s.msg.heap i).rrs := by
  obtain ⟨m', hok, _, hsteps⟩ := scrubMessage_steps hp h
  rw [hsteps _ rfl] at h
  obtain ⟨s₀, hs₀, hb, hrest⟩ := @scrubSanitize_beside _ ((privApplyCfg [] names).env env) qinfo
    zonename m' s hok (fun _ => rfl) h
  have hrest₀ : s₀.msg.rest = [] := hb.rest ▸ hrest
  simp only [mem_rrsets_iff hrest]
  have hkept : ∀ i ∈ s₀.msg.done, (∀ rr ∈ (s₀.msg.heap i).rrs,
      Rebinds addrs names (s₀.msg.heap i) rr →
        ∃ rr ∈ (s₀.msg.heap i).rrs, ¬ Rebinds addrs names (s₀.msg.heap i) rr) → i ∈ s.msg.done := by
    intro i hi hsome
    by_contra hgone
    have hbad := (hb.fares i).gone hi hgone
    rw [privRrsetBad_eq, removeRrs, Bool.and_eq_true, any_eq_true, all_eq_true] at hbad
    obtain ⟨⟨rr, hrr, hblocked⟩, hall⟩ := hbad
    obtain ⟨rr', hrr', hnot⟩ := hsome rr hrr (blocked_iff.1 hblocked)
    exact hnot (blocked_iff.1 (hall rr' hrr'))
  constructor
  · intro i hi rr hrr hreb
    by_cases hi₀ : i ∈ s₀.msg.done
    · rw [(hb.fares i).both hi hi₀, privRrsetBad_eq] at hrr hreb
      have hreb : Rebinds addrs names (s₀.msg.heap i) rr := hreb
      have hkeep := (mem_filter.1 hrr).2
      rw [blocked_iff.2 hreb] at hkeep
      cases hkeep
    · obtain ⟨_, addr, haddr, _⟩ := hreb
      rw [((hb.fares i).lame hi hi₀).1] at haddr
      cases haddr
  · refine ⟨s₀, (hsteps ((privApplyCfg [] names).env env) rfl).trans hs₀, ?_⟩
    simp only [mem_rrsets_iff hrest₀]
    intro i hi
    constructor
    · intro hall
      have hdone := hkept i hi fun rr hrr hreb => absurd hreb (hall rr hrr)
      rw [(hb.fares i).both hdone hi, privRrsetBad_eq, removeRrs_of_not]
      · exact ⟨hdone, rfl⟩
      · intro rr hrr
        rw [← Bool.not_eq_true, blocked_iff]
        exact hall rr hrr
    · intro rr hrr hreb
      have hdone := hkept i hi fun _ _ _ => ⟨rr, hrr, hreb⟩
      rw [(hb.fares i).both hdone hi, privRrsetBad_eq]
      refine ⟨hdone, mem_filter.2 ⟨hrr, ?_⟩⟩
      rw [Bool.not_eq_true', ← Bool.not_eq_true, blocked_iff]
      exact hreb

def testNet : AddrTreeNode := ⟨⟨.inet, [192, 0, 2, 0], rfl⟩, 24, by decide, by decide⟩

theorem scrubMessage_private_referral :
    ∃ s, scrubMessage ((privApplyCfg [testNet] []).env plainEnv) ⟨zoneB, RrType.a, 1⟩ zoneA referral =
        some s ∧ s.msg.rrsets = [0] ∧
      ∀ i ∈ s.msg.rrsets, ∀ rr ∈ (s.msg.heap i).rrs, ¬ Rebinds [testNet] [] (s.msg.heap i) rr := by
  have hlist : (scrubMessage ((privApplyCfg [testNet] []).env plainEnv) ⟨zoneB, RrType.a, 1⟩ zoneA
      referral).map (fun s => s.msg.rrsets) = some [0] := by decide +kernel
  obtain ⟨s, hs, hrrsets⟩ := Option.map_eq_some_iff.1 hlist
  exact ⟨s, hs, hrrsets, (scrubMessage_private referral_parsed hs).1⟩

end Message

end CwdGate.Iterator
