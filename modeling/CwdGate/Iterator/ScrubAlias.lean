import CwdGate.Iterator.ScrubSanitize

namespace CwdGate.Iterator
open Lib List Function

variable {env : ScrubEnv} {qinfo : QueryInfo} {m m' : MsgParse} {id : Nat}

theorem labelsWithin_append (pre rest : Name) :
    labelsWithin (wireLen pre - 1) (pre ++ rest) = pre := by
  induction pre with
  | nil =>
    cases rest with
    | nil => rfl
    | cons l n => rfl
  | cons l pre ih =>
    have hpos := wireLen_pos pre
    have hlen : wireLen (l :: pre) = l.length + 1 + wireLen pre := rfl
    rw [cons_append, labelsWithin, if_pos (by omega)]
    have hrest : wireLen (l :: pre) - 1 - (l.length + 1) = wireLen pre - 1 := by omega
    rw [hrest, ih]

theorem lowerName_drop_of_strictSub (h : pktStrictSub n d = true) :
    d.length < n.length ∧ lowerName (n.drop (n.length - d.length)) = lowerName d := by
  obtain ⟨hpre, hlen⟩ := (dnameStrictSubdomainC_iff n d).1 h
  refine ⟨hlen, ?_⟩
  rw [← key_injective_iff, key_drop]
  have hsub : n.length - (n.length - d.length) = (key d).length := by
    rw [length_key]
    omega
  rw [hsub]
  exact (prefix_iff_eq_take.1 hpre).symm

theorem synthCname_spec (hsub : pktStrictSub n r.dname = true)
    (h : synthCname n r = some aliasName) :
    ∃ dtarg, cnameTarget r = some dtarg ∧
      aliasName = n.take (n.length - r.dname.length) ++ dtarg := by
  rw [synthCname] at h
  split at h
  case h_1 => cases h
  case h_2 dtarg htarget =>
    split at h
    case isTrue => cases h
    case isFalse =>
      split at h
      case isTrue => cases h
      case isFalse =>
        cases h
        refine ⟨dtarg, htarget, ?_⟩
        obtain ⟨_, hdrop⟩ := lowerName_drop_of_strictSub hsub
        have hwire : wireLen (n.drop (n.length - r.dname.length)) = wireLen r.dname := by
          rw [← wireLen_lowerName, hdrop, wireLen_lowerName]
        have hsum := wireLen_append (n.take (n.length - r.dname.length))
          (n.drop (n.length - r.dname.length))
        rw [take_append_drop, hwire] at hsum
        have hlen : wireLen n - wireLen r.dname =
            wireLen (n.take (n.length - r.dname.length)) - 1 := by omega
        have hwithin := labelsWithin_append (n.take (n.length - r.dname.length))
          (n.drop (n.length - r.dname.length))
        rw [take_append_drop] at hwithin
        rw [hlen, hwithin]

theorem cnameTarget_synthesized : cnameTarget (synthesized n aliasName r) = some aliasName := by
  have hpos := wireLen_pos aliasName
  rw [cnameTarget, synthesized]
  dsimp only
  rw [if_neg (by omega)]
  rfl

section Alias
variable {d c : Nat} {name : Name}

/-- RRset `c` is the CNAME of the answer section that DNAME `d` gives for a name. -/
structure AliasOf (m : MsgParse) (d c : Nat) (name : Name) : Prop where
  dname : (m.heap d).type = RrType.dname
  sect : (m.heap c).sect = .answer
  cname : (m.heap c).type = RrType.cname
  owner : lowerName (m.heap c).dname = lowerName name
  target : ∃ t dtarg, cnameTarget (m.heap c) = some t ∧ cnameTarget (m.heap d) = some dtarg ∧
    lowerName t = lowerName (name.take (name.length - (m.heap d).dname.length) ++ dtarg)

theorem AliasOf.same (h : AliasOf m d c name) (hd : Same (m.heap d) (m'.heap d))
    (hc : Same (m.heap c) (m'.heap c)) : AliasOf m' d c name := by
  obtain ⟨t, dtarg, ht, hdtarg, heq⟩ := h.target
  have hd' : isAddress (m.heap d).type = false := by
    rw [h.dname]
    decide
  have hc' : isAddress (m.heap c).type = false := by
    rw [h.cname]
    decide
  constructor
  case dname => exact hd.type.trans h.dname
  case sect => exact hc.sect.trans h.sect
  case cname => exact hc.type.trans h.cname
  case owner =>
    rw [hc.dname]
    exact h.owner
  case target =>
    rw [hd.dname, hd.target hd', hc.target hc']
    exact ⟨t, dtarg, ht, hdtarg, heq⟩

/-- The loops have left DNAME `d` behind, directly followed by its CNAME. -/
def LeftWithAlias (m : MsgParse) (d : Nat) (name : Name) : Prop :=
  ∃ c l l', m.done = l ++ c :: d :: l' ∧ AliasOf m d c name

theorem LeftWithAlias.grows (h : LeftWithAlias m d name) (hok : MsgOk m) (hg : Grows m m') :
    LeftWithAlias m' d name := by
  obtain ⟨c, l, l', hdone, halias⟩ := h
  obtain ⟨k, hk⟩ := hg.done
  have hlt : ∀ i ∈ m.done, i < m.fresh := fun i hi => hok.done_lt hi
  rw [hdone] at hlt
  refine ⟨c, k ++ l, l', ?_, halias.same (hg.heap d (hlt d ?_)) (hg.heap c (hlt c ?_))⟩
  · rw [hk, hdone, append_assoc]
  · simp
  · simp

theorem AnswerTurn.leftWithAlias (hok : MsgOk m) (hrest : m.rest = d :: nx)
    (hsect : (m.heap d).sect = .answer) (htype : (m.heap d).type = RrType.dname)
    (hsub : pktStrictSub sname (m.heap d).dname = true) (h : AnswerTurn qinfo m sname d nx s') :
    LeftWithAlias s'.1 d sname ∨
      ∃ c rest, nx = c :: rest ∧ s'.1.done = d :: m.done ∧ s'.1.rest = c :: rest ∧
        (s'.1.heap c).type = RrType.cname ∧ sameName s'.2 (s'.1.heap c).dname = true ∧
        ((s'.1.heap c).sect = .answer → AliasOf s'.1 d c sname) := by
  cases h with
  | @given aliasName t c rest _ _ hsynth hnx hcname howner htarget hsame =>
    right
    obtain ⟨dtarg, hdtarg, halias⟩ := synthCname_spec hsub hsynth
    have halters : Alters m (m.modify c useFirst) := .useFirst hcname
    have hc := halters.heap c
    rw [advance_eq (halters.rest.trans hrest)]
    refine ⟨c, rest, hnx, rfl, hnx, hc.type.trans hcname, hc.dname ▸ howner, fun hcsect => ?_⟩
    have hbefore : AliasOf m d c sname := by
      refine ⟨htype, hc.sect ▸ hcsect, hcname, (sameName_iff.1 howner).symm, t, dtarg, htarget,
        hdtarg, ?_⟩
      rw [← halias]
      exact (sameName_iff.1 hsame).symm
    exact hbefore.same (halters.heap d) hc
  | @made aliasName m₁ _ _ hsynth halters =>
    left
    obtain ⟨dtarg, hdtarg, halias⟩ := synthCname_spec hsub hsynth
    have hnew : (synthCnameRrset m₁ sname aliasName d nx).heap m₁.fresh =
        synthesized sname aliasName (m₁.heap d) := update_self _ _ _
    have hold : (synthCnameRrset m₁ sname aliasName d nx).heap d = m₁.heap d :=
      synthCnameRrset_heap (by rw [halters.fresh]; exact hok.id_lt hrest)
    have hd' := halters.heap d
    refine ⟨m₁.fresh, [], m₁.done, rfl, ?_⟩
    constructor
    case dname =>
      rw [hold, hd'.type]
      exact htype
    case sect =>
      rw [hnew, synthesized, hd'.sect]
      exact hsect
    case cname =>
      rw [hnew]
      rfl
    case owner =>
      rw [hnew]
      rfl
    case target =>
      have hnot : isAddress (m.heap d).type = false := by
        rw [htype]
        decide
      rw [hnew, hold, hd'.dname, hd'.target hnot, cnameTarget_synthesized]
      exact ⟨aliasName, dtarg, rfl, hdtarg, by rw [halias]⟩
  | removed hdname => exact absurd ⟨htype, hsub⟩ hdname
  | cname hcname =>
    rw [htype] at hcname
    exact absurd hcname (by decide)
  | marked hdname => exact absurd ⟨htype, hsub⟩ hdname
  | kept hdname => exact absurd ⟨htype, hsub⟩ hdname

theorem AnswerTurn.passes (htype : (m.heap c).type = RrType.cname)
    (howner : sameName sname (m.heap c).dname = true) (hrest : m.rest = c :: nx)
    (h : AnswerTurn qinfo m sname c nx s') :
    ((∀ d rest, nx = d :: rest → dnameNext m sname c d = false) ∧
      ∃ l, s'.1.done = l ++ c :: m.done) ∨
      ∃ d rest l, nx = d :: rest ∧ dnameNext m sname c d = true ∧
        s'.1.done = l ++ c :: d :: m.done := by
  have hnot : (m.heap c).type ≠ RrType.dname := by
    rw [htype]
    decide
  cases h with
  | given hdname => exact absurd hdname hnot
  | made hdname => exact absurd hdname hnot
  | removed _ hcname => exact absurd ⟨htype, howner⟩ hcname
  | marked _ hcname => exact absurd htype hcname
  | kept _ hcname => exact absurd htype hcname
  | cname =>
    have hskip : ∃ l, (if qinfo.qtype = RrType.any then
        skipOwner ((passCname m sname c nx).modify c useFirst) sname
        else (passCname m sname c nx).modify c useFirst).done =
          l ++ (passCname m sname c nx).done := by
      split
      case isTrue => exact ⟨_, rfl⟩
      case isFalse => exact ⟨[], rfl⟩
    obtain ⟨l, hl⟩ := hskip
    rcases passCname_cases m sname c nx with ⟨hnone, heq⟩ | ⟨d, rest, hnx, hnext, heq⟩
    · left
      refine ⟨hnone, l, ?_⟩
      rw [hl, heq, advance_eq hrest]
    · right
      refine ⟨d, rest, l, hnx, hnext, ?_⟩
      rw [hl, heq]

theorem dnameNext_alias (hsect : (m.heap c).sect = .answer)
    (htype : (m.heap c).type = RrType.cname) (howner : sameName sname (m.heap c).dname = true)
    (h : dnameNext m sname c d = true) : AliasOf m d c sname := by
  simp only [dnameNext, decide_eq_true_eq] at h
  obtain ⟨_, hdname, _, hsub, hgives⟩ := h
  rw [givesTarget] at hgives
  split at hgives
  case h_1 aliasName t hsynth htarget =>
    obtain ⟨dtarg, hdtarg, halias⟩ := synthCname_spec hsub hsynth
    refine ⟨hdname, hsect, htype, (sameName_iff.1 howner).symm, t, dtarg, htarget, hdtarg, ?_⟩
    rw [← halias]
    exact (sameName_iff.1 hgives).symm
  case h_2 => cases hgives

end Alias

section Run

structure Visited (m : MsgParse) (s : MsgParse × Name) : Prop where
  ok : MsgOk s.1
  grows : Grows m s.1

theorem Visited.turn (hv : Visited m s) (hrest : s.1.rest = id :: nx)
    (hsect : (s.1.heap id).sect = .answer) (h : AnswerTurn qinfo s.1 s.2 id nx s') :
    Visited m s' ∧ Grows s.1 s'.1 := by
  obtain ⟨hmoves, _⟩ := h.moves hv.ok hrest hsect
  exact ⟨⟨hmoves.ok, hv.grows.trans hmoves.grows⟩, hmoves.grows⟩

theorem Visited.next (hv : Visited m s) (h : normalizeAnswer env qinfo s = .next s') :
    Visited m s' ∧ Grows s.1 s'.1 := by
  obtain ⟨id, nx, hrest, hsect, hturn⟩ :=
    normalizeAnswer_does.of_next h
  exact hv.turn hrest hsect hturn

theorem Visited.turns (hv : Visited m s) (h : Turns (normalizeAnswer env qinfo) s s') :
    Visited m s' ∧ Grows s.1 s'.1 := by
  apply h.inv _ ⟨hv, .refl s.1⟩
  rintro s₁ s₂ ⟨hv₁, hg₁⟩ hnext
  obtain ⟨hv₂, hg₂⟩ := hv₁.next hnext
  exact ⟨hv₂, hg₁.trans hg₂⟩

theorem turn_of_answer (h : Turns (normalizeAnswer env qinfo) s t)
    (hstop : normalizeAnswer env qinfo t = .stop) (hrest : s.1.rest = id :: nx)
    (hsect : (s.1.heap id).sect = .answer) :
    ∃ s', AnswerTurn qinfo s.1 s.2 id nx s' ∧ Turns (normalizeAnswer env qinfo) s' t := by
  rcases h.cases_head with rfl | ⟨s', hnext, hrest'⟩
  · exact absurd hsect (normalizeAnswer_does.of_stop hstop id nx hrest)
  · obtain ⟨id', nx', hrest₁, _, hturn⟩ := normalizeAnswer_does.of_next hnext
    rw [hrest] at hrest₁
    cases hrest₁
    exact ⟨s', hturn, hrest'⟩

/-- No DNAME of the answer is directly followed by a CNAME of another section, or by a CNAME and a
DNAME, and for ANY no CNAME has its owner. -/
structure Orderly (qinfo : QueryInfo) (m : MsgParse) : Prop where
  inside : ∀ l d c l', m.rrsets = l ++ d :: c :: l' → (m.heap d).sect = .answer →
    (m.heap d).type = RrType.dname → (m.heap c).type = RrType.cname → (m.heap c).sect = .answer
  single : ∀ l d c d' l', m.rrsets = l ++ d :: c :: d' :: l' → (m.heap d).sect = .answer →
    (m.heap d).type = RrType.dname → (m.heap c).type = RrType.cname →
    (m.heap d').type ≠ RrType.dname
  apart : qinfo.qtype = RrType.any → ∀ c ∈ m.rrsets, ∀ d ∈ m.rrsets,
    (m.heap c).sect = .answer → (m.heap c).type = RrType.cname →
    (m.heap d).sect = .answer → (m.heap d).type = RrType.dname →
    lowerName (m.heap c).dname ≠ lowerName (m.heap d).dname

/-- A turn reaches `d`: as the current RRset, as a DNAME that changes places, or as one skipped. -/
inductive Reached (qinfo : QueryInfo) (s : MsgParse × Name) (d : Nat) : Name → Prop where
  | here {nx : List Nat} (hrest : s.1.rest = d :: nx) : Reached qinfo s d s.2
  | ahead {c : Nat} {nx : List Nat} (hrest : s.1.rest = c :: d :: nx)
      (hsect : (s.1.heap c).sect = .answer) (htype : (s.1.heap c).type = RrType.cname)
      (howner : sameName s.2 (s.1.heap c).dname = true)
      (hnext : dnameNext s.1 s.2 c d = true) : Reached qinfo s d s.2
  | skipped {c : Nat} {nx : List Nat} {target : Name} (hrest : s.1.rest = c :: nx)
      (hsect : (s.1.heap c).sect = .answer) (htype : (s.1.heap c).type = RrType.cname)
      (howner : sameName s.2 (s.1.heap c).dname = true)
      (htarget : cnameTarget (s.1.heap c) = some target) (hany : qinfo.qtype = RrType.any)
      (hmem : d ∈ (passCname s.1 s.2 c nx).rest.takeWhile fun i =>
        decide ((s.1.heap i).sect = .answer) && sameName s.2 (s.1.heap i).dname) :
      Reached qinfo s d target

/-- A DNAME of the answer section applies to a name. -/
structure Applies (m : MsgParse) (d : Nat) (name : Name) : Prop where
  sect : (m.heap d).sect = .answer
  type : (m.heap d).type = RrType.dname
  sub : pktStrictSub name (m.heap d).dname = true

variable {s : MsgParse × Name} {d : Nat} {name : Name}

theorem Visited.split (hv : Visited m s) (hdone : m.done = []) : ∃ l, m.rrsets = l ++ s.1.rest := by
  obtain ⟨l, hl⟩ := hv.grows.rest
  refine ⟨l, ?_⟩
  rw [MsgParse.rrsets, hdone, hl]
  rfl

theorem Visited.same (hv : Visited m s) (hok : MsgOk m) (hdone : m.done = []) (hi : i ∈ s.1.rest) :
    i ∈ m.rrsets ∧ Same (m.heap i) (s.1.heap i) := by
  obtain ⟨l, hl⟩ := hv.split hdone
  have hmem : i ∈ m.rrsets := by
    rw [hl]
    exact mem_append_right _ hi
  exact ⟨hmem, hv.grows.heap i (hok.fresh i hmem)⟩

theorem Visited.left (hv : Visited m s) (hok : MsgOk m) (hdone : m.done = []) (ho : Orderly qinfo m)
    (h : Turns (normalizeAnswer env qinfo) s t) (hstop : normalizeAnswer env qinfo t = .stop)
    (hr : Reached qinfo s d name) (ha : Applies s.1 d name) : LeftWithAlias t.1 d name := by
  obtain ⟨l, hl⟩ := hv.split hdone
  cases hr with
  | @here nx hrest =>
    obtain ⟨s₁, hturn, hend⟩ := turn_of_answer h hstop hrest ha.sect
    obtain ⟨hv₁, hg₁⟩ := hv.turn hrest ha.sect hturn
    rcases hturn.leftWithAlias hv.ok hrest ha.sect ha.type ha.sub with hleft | hcname
    · exact hleft.grows hv₁.ok (hv₁.turns hend).2
    obtain ⟨c, rest, rfl, hdone₁, hrest₁, hctype, howner, halias⟩ := hcname
    have hd := (hv.same hok hdone (mem_rest hrest)).2
    have hc := (hv₁.same hok hdone (mem_rest hrest₁)).2
    rw [hrest] at hl
    have hcsect : (s₁.1.heap c).sect = .answer := by
      rw [hc.sect]
      exact ho.inside l d c rest hl (hd.sect ▸ ha.sect) (hd.type ▸ ha.type) (hc.type ▸ hctype)
    have hd₁ : d ∈ s₁.1.done := by
      rw [hdone₁]
      exact mem_cons_self
    obtain ⟨s₂, hturn₂, hend₂⟩ := turn_of_answer hend hstop hrest₁ hcsect
    obtain ⟨hv₂, hg₂⟩ := hv₁.turn hrest₁ hcsect hturn₂
    rcases hturn₂.passes hctype howner hrest₁ with ⟨_, k, hk⟩ | ⟨d', rest', _, rfl, hnext, _⟩
    · have hleft : LeftWithAlias s₂.1 d s.2 := by
        refine ⟨c, k, s.1.done, ?_, (halias hcsect).same (hg₂.heap d (hv₁.ok.done_lt hd₁))
          (hg₂.heap c (hv₁.ok.id_lt hrest₁))⟩
        rw [hk, hdone₁]
      exact hleft.grows hv₂.ok (hv₂.turns hend₂).2
    · have hd' := (hv₁.same hok hdone (i := d') (by rw [hrest₁]; simp)).2
      have htype' := (dnameNext_sect hnext).2
      rw [hd'.type] at htype'
      exact absurd htype' (ho.single l d c d' rest' hl (hd.sect ▸ ha.sect) (hd.type ▸ ha.type)
        (hc.type ▸ hctype))
  | @ahead c nx hrest hsect htype howner hnext =>
    obtain ⟨s₁, hturn, hend⟩ := turn_of_answer h hstop hrest hsect
    obtain ⟨hv₁, hg₁⟩ := hv.turn hrest hsect hturn
    have hlt : d < s.1.fresh := hv.ok.fresh d (mem_rrsets (by rw [hrest]; simp))
    rcases hturn.passes htype howner hrest with ⟨hnone, _⟩ | ⟨d', rest, k, hnx, _, hk⟩
    · rw [hnone d nx rfl] at hnext
      cases hnext
    · cases hnx
      have halias := (dnameNext_alias hsect htype howner hnext).same
        (hg₁.heap d hlt) (hg₁.heap c (hv.ok.id_lt hrest))
      have hleft : LeftWithAlias s₁.1 d s.2 := ⟨c, k, s.1.done, hk, halias⟩
      exact hleft.grows hv₁.ok (hv₁.turns hend).2
  | @skipped c nx _ hrest hsect htype howner htarget hany hmem =>
    -- the DNAME would have the owner of the CNAME
    have hskip := mem_takeWhile_imp hmem
    have hpass : (passCname s.1 s.2 c nx).rest <:+ nx :=
      (Moves.passCname hv.ok hrest hsect).2.1
    have hdnx : d ∈ nx := hpass.subset (takeWhile_subset _ hmem)
    rw [Bool.and_eq_true] at hskip
    obtain ⟨hcmem, hc⟩ := hv.same hok hdone (mem_rest hrest)
    obtain ⟨hdmem, hd⟩ := hv.same hok hdone (hrest ▸ mem_cons_of_mem c hdnx)
    refine absurd ?_ (ho.apart hany c hcmem d hdmem (hc.sect ▸ hsect) (hc.type ▸ htype)
      (hd.sect ▸ ha.sect) (hd.type ▸ ha.type))
    rw [← hc.dname, ← hd.dname, ← sameName_iff.1 howner, ← sameName_iff.1 hskip.2]

structure OnlyDs (m m' : MsgParse) : Prop where
  rest : m'.rest = []
  ds : ∀ i ∈ m'.rrsets, (m'.heap i).type = RrType.ds
  types : ∀ i, i < m.fresh → (m'.heap i).type = (m.heap i).type

theorem authority_turns {s s' : MsgParse × Bool} (hok : MsgOk s.1)
    (h : Turns (normalizeAuthority env qinfo) s s') : Grows s.1 s'.1 ∨ OnlyDs s.1 s'.1 := by
  have hinv : MsgOk s'.1 ∧ (Grows s.1 s'.1 ∨ OnlyDs s.1 s'.1) := by
    apply h.inv _ ⟨hok, .inl (.refl s.1)⟩
    rintro s₁ s₂ ⟨hok₁, hcases⟩ hnext
    obtain ⟨id, nx, hrest, _, hturn⟩ := normalizeAuthority_does.of_next hnext
    refine ⟨(hturn.ok hok₁ hrest).1, ?_⟩
    rcases hcases with hg | honly
    · rcases hturn.grows with hg' | ⟨heq, htype⟩
      · exact .inl (hg.trans hg')
      right
      have htypes : ∀ i, ((dsAnswer s₁.1 id).heap i).type = (s₁.1.heap i).type := by
        intro i
        rw [dsAnswer]
        rw [MsgParse.modify_heap]
        split <;> rfl
      rw [heq]
      refine ⟨rfl, ?_, ?_⟩
      · intro i hi
        rw [htypes, mem_singleton.1 hi]
        exact htype
      · intro i hi
        rw [htypes]
        exact (hg.heap i hi).type
    · rw [honly.rest] at hrest
      cases hrest
  exact hinv.2

theorem additional_turns (h : Turns (normalizeAdditional env) m m') :
    Grows m m' ∧ (m.rest = [] → m' = m) := by
  constructor
  · apply h.inv _ (.refl m)
    intro m₁ m₂ hg hnext
    obtain ⟨_, _, _, _, _, hturn⟩ := normalizeAdditional_does.of_next hnext
    exact hg.trans hturn.grows
  · intro hnil
    rcases h.cases_head with rfl | ⟨m₁, hnext, _⟩
    · rfl
    · obtain ⟨_, _, _, hrest, _⟩ := normalizeAdditional_does.of_next hnext
      rw [hnil] at hrest
      cases hrest

theorem LeftWithAlias.followed (h : LeftWithAlias m d name) (hrest : m.rest = []) :
    ∃ l c l', m.rrsets = l ++ d :: c :: l' ∧ AliasOf m d c name := by
  obtain ⟨c, l, l', hdone, halias⟩ := h
  refine ⟨l'.reverse, c, l.reverse, ?_, halias⟩
  rw [MsgParse.rrsets, hdone, hrest]
  simp

def dnameToX : RrsetParse :=
  ⟨.answer, zoneA, RrType.dname, 1, 0, 5, [⟨60, 5, false, 3, [1, 120, 0], fun offset =>
    if offset = 0 then some ([[120]], 3) else none⟩], []⟩

def cnameToX (sect : PktSection) : RrsetParse :=
  ⟨sect, serverN, RrType.cname, 1, 0, 9, [⟨60, 9, false, 7, [1, 110, 1, 98, 1, 120, 0],
    fun offset => if offset = 0 then some ([[110], [98], [120]], 7) else none⟩], []⟩

def dnameReply : MsgParse :=
  ⟨0x8000, 1, 1, 0, 0, serverN, RrType.a, 1, 1, 1, 0, 0, fun _ => dnameToX, 1, [0], [], [0]⟩

theorem dnameReply_parsed : Parsed dnameReply :=
  ⟨⟨by decide, by decide, by decide, by decide⟩, by decide⟩

theorem dnameReply_orderly : Orderly ⟨serverN, RrType.a, 1⟩ dnameReply := by
  have hone : ∀ l d c l', dnameReply.rrsets ≠ l ++ d :: c :: l' := by
    intro l d c l' h
    have hlen := congrArg length h
    rw [length_append, length_cons, length_cons] at hlen
    have hone : dnameReply.rrsets.length = 1 := rfl
    omega
  constructor
  case inside => exact fun l d c l' h => absurd h (hone l d c l')
  case single => exact fun l d c d' l' h => absurd h (hone l d c (d' :: l'))
  case apart => exact fun h => absurd h (by decide)

def misplacedReply : MsgParse :=
  ⟨0x8000, 1, 1, 1, 0, serverN, RrType.a, 1, 2, 1, 1, 0,
    fun id => if id = 0 then dnameToX else cnameToX .authority, 2, [1, 0], [], [0, 1]⟩

end Run

end CwdGate.Iterator
