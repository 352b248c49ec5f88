import CwdGate.Lib.Memory
import CwdGate.Packet.RrType
import CwdGate.Validator.Nsec3

namespace CwdGate.ValUtils
open Lib Validator List

/-- The RRsets that replies point to, by address; signatures have their length in front. -/
structure Rrsets where
  dname : Nat → Name
  type : Nat → UInt16
  sigs : Nat → List (List UInt8)
  security : Nat → SecStatus

/-- `struct reply_info`, with `rrsets` as memory: the array may be longer than `rrset_count`. -/
structure ReplyInfo where
  security : SecStatus
  anNumrrsets : Nat
  nsNumrrsets : Nat
  arNumrrsets : Nat
  rrsetCount : Nat
  rrsets : Nat → Nat

namespace ReplyInfo
variable (rep : ReplyInfo)

def answer : List Nat := cells rep.rrsets 0 rep.anNumrrsets

def authority : List Nat := cells rep.rrsets rep.anNumrrsets rep.nsNumrrsets

def additional : List Nat :=
  cells rep.rrsets (rep.anNumrrsets + rep.nsNumrrsets) rep.arNumrrsets

end ReplyInfo

variable (st : Rrsets)

def rrsetHasSigner (s : Nat) (name : Name) : Bool :=
  (st.sigs s).any fun d => decide (d.length > 2 + 18 + wireLen name) &&
    decide (dnameValid (d.drop (2 + 18)) (d.length - 2 - 18) ≠ 0) &&
    queryDnameCompare name (nameAt (d.drop (2 + 18))) == .eq

/-- A loop of `val_fill_reply`: `turn` tells whether to copy a pointer, and the new flag. -/
def fillLoop (turn : Bool → Nat → Bool × Bool) (base : Nat) :
    List Nat → Bool → Nat → (Nat → Nat) → Nat × (Nat → Nat)
  | [], _, n, m => (n, m)
  | s :: rest, seen, n, m =>
    match turn seen s with
    | (true, seen') => fillLoop turn base rest seen' (n + 1) (blit m (base + n) [s])
    | (false, seen') => fillLoop turn base rest seen' n m

section fill
variable (name : Name) (signer : Option Name)

def answerTurn (seenDname : Bool) (s : Nat) : Bool × Bool :=
  if signer.isNone then (queryDnameCompare name (st.dname s) == .eq, seenDname)
  else if seenDname ∧ st.type s = RrType.cname then (true, false)
  else if rrsetHasSigner st s name then (true, seenDname || st.type s == RrType.dname)
  else (false, seenDname)

def otherTurn (seenDname : Bool) (s : Nat) : Bool × Bool :=
  if signer.isNone then (queryDnameCompare name (st.dname s) == .eq, seenDname)
  else (rrsetHasSigner st s name, seenDname)

variable (orig : ReplyInfo) (skip : Nat)

/-- The pointers that the loops of `val_fill_reply` visit, from `skip` on. -/
def visited (start stop : Nat) : List Nat :=
  cells orig.rrsets (max skip start) (stop - max skip start)

def valFillReply (chase : ReplyInfo) : ReplyInfo :=
  let anEnd := orig.anNumrrsets
  let nsEnd := orig.anNumrrsets + orig.nsNumrrsets
  let an := fillLoop (answerTurn st name signer) 0 (visited orig skip 0 anEnd) false 0 chase.rrsets
  let ns := fillLoop (otherTurn st name signer) an.1 (visited orig skip anEnd nsEnd) false 0 an.2
  let ar := fillLoop (otherTurn st name signer) (an.1 + orig.nsNumrrsets)
    (visited orig skip nsEnd orig.rrsetCount) false 0 ns.2
  { chase with
    anNumrrsets := an.1
    nsNumrrsets := ns.1
    arNumrrsets := ar.1
    rrsetCount := an.1 + ns.1 + ar.1
    rrsets := ar.2 }

end fill

def selected (turn : Bool → Nat → Bool × Bool) : List Nat → Bool → List Nat
  | [], _ => []
  | s :: rest, seen =>
    if (turn seen s).1 then s :: selected turn rest (turn seen s).2
    else selected turn rest (turn seen s).2

theorem fillLoop_eq :
    fillLoop turn base xs seen n m =
      (n + (selected turn xs seen).length, blit m (base + n) (selected turn xs seen)) := by
  induction xs generalizing seen n m with
  | nil => simp [fillLoop, selected]
  | cons s xs ih =>
    rw [fillLoop, selected]
    rcases turn seen s with ⟨_ | _, seen'⟩
    · exact ih
    · dsimp only
      rw [ih, if_pos rfl, length_cons, blit_cons (selected turn xs seen'),
        Nat.add_assoc base, Nat.add_assoc n, Nat.add_comm 1]

theorem selected_sublist : (selected turn xs seen).Sublist xs := by
  induction xs generalizing seen with
  | nil => exact .slnil
  | cons s xs ih =>
    rw [selected]
    split
    · exact ih.cons_cons s
    · exact ih.cons s

section fill
variable (name : Name) (signer : Option Name) (orig : ReplyInfo) (skip : Nat)

def answerFor : List Nat :=
  selected (answerTurn st name signer) (visited orig skip 0 orig.anNumrrsets) false

def authorityFor : List Nat :=
  selected (otherTurn st name signer)
    (visited orig skip orig.anNumrrsets (orig.anNumrrsets + orig.nsNumrrsets)) false

def additionalFor : List Nat :=
  selected (otherTurn st name signer)
    (visited orig skip (orig.anNumrrsets + orig.nsNumrrsets) orig.rrsetCount) false

variable {st name signer orig skip}

theorem authorityFor_sublist : (authorityFor st name signer orig skip).Sublist orig.authority := by
  apply selected_sublist.trans
  rw [visited, ReplyInfo.authority]
  by_cases h : max skip orig.anNumrrsets ≤ orig.anNumrrsets + orig.nsNumrrsets
  · obtain ⟨k, hk⟩ := Nat.exists_eq_add_of_le (Nat.le_max_right skip orig.anNumrrsets)
    have hns : orig.nsNumrrsets =
        k + (orig.anNumrrsets + orig.nsNumrrsets - max skip orig.anNumrrsets) := by omega
    conv => rhs; rw [hns, cells_add, ← hk]
    exact sublist_append_right _ _
  · rw [Nat.sub_eq_zero_of_le (by omega)]
    exact nil_sublist _

theorem valFillReply_counts (chase : ReplyInfo) :
    let out := valFillReply st name signer orig skip chase
    out.anNumrrsets = (answerFor st name signer orig skip).length ∧
      out.nsNumrrsets = (authorityFor st name signer orig skip).length ∧
      out.arNumrrsets = (additionalFor st name signer orig skip).length := by
  simp only [valFillReply, fillLoop_eq, answerFor, authorityFor, additionalFor, Nat.zero_add,
    and_self]

theorem valFillReply_rrsets :
    (valFillReply st name signer orig skip chase).rrsets =
      blit (blit (blit chase.rrsets 0 (answerFor st name signer orig skip))
        (answerFor st name signer orig skip).length (authorityFor st name signer orig skip))
        ((answerFor st name signer orig skip).length + orig.nsNumrrsets)
        (additionalFor st name signer orig skip) := by
  simp only [valFillReply, fillLoop_eq, answerFor, authorityFor, additionalFor, Nat.zero_add,
    Nat.add_zero]

/-- The sections of the filled reply are the selected RRsets, section by section and in order. -/
def Filled (st : Rrsets) (name : Name) (signer : Option Name) (orig : ReplyInfo) (skip : Nat)
    (out : ReplyInfo) : Prop :=
  out.rrsetCount = out.anNumrrsets + out.nsNumrrsets + out.arNumrrsets ∧
    out.answer = answerFor st name signer orig skip ∧
    out.authority = authorityFor st name signer orig skip ∧
    out.additional = additionalFor st name signer orig skip

theorem answer_valFillReply :
    (valFillReply st name signer orig skip chase).answer = answerFor st name signer orig skip := by
  rw [ReplyInfo.answer, (valFillReply_counts chase).1, valFillReply_rrsets]
  rw [cells_blit_of_le (by omega), cells_blit_of_le (by omega)]
  exact cells_blit

theorem authority_valFillReply :
    (valFillReply st name signer orig skip chase).authority =
      authorityFor st name signer orig skip := by
  have hle : (authorityFor st name signer orig skip).length ≤ orig.nsNumrrsets := by
    simpa [ReplyInfo.authority] using authorityFor_sublist.length_le
  rw [ReplyInfo.authority, (valFillReply_counts chase).1, (valFillReply_counts chase).2.1,
    valFillReply_rrsets, cells_blit_of_le (by omega)]
  exact cells_blit

/-- The additional RRsets are placed right if none are selected or all the authority ones are. -/
theorem valFillReply_filled_iff :
    (∀ chase, Filled st name signer orig skip (valFillReply st name signer orig skip chase)) ↔
      additionalFor st name signer orig skip = [] ∨
        authorityFor st name signer orig skip = orig.authority := by
  constructor
  · intro h
    by_contra hne
    obtain ⟨hr, hn⟩ := not_or.1 hne
    obtain ⟨x, rest, hx⟩ := exists_cons_of_ne_nil hr
    have hlt : (authorityFor st name signer orig skip).length < orig.nsNumrrsets := by
      apply Nat.lt_of_le_of_ne
      · simpa [ReplyInfo.authority] using authorityFor_sublist.length_le
      · intro hlen
        exact hn (authorityFor_sublist.eq_of_length (by simpa [ReplyInfo.authority] using hlen))
    obtain ⟨-, -, -, hadd⟩ := h { orig with rrsets := fun _ => x + 1 }
    rw [ReplyInfo.additional, (valFillReply_counts _).1, (valFillReply_counts _).2.1,
      (valFillReply_counts _).2.2, valFillReply_rrsets, hx, length_cons, cells_succ] at hadd
    have hhead := (cons.inj hadd).1
    rw [blit_of_lt _ (by omega), blit_of_ge _ (by omega), blit_of_ge _ (by omega)] at hhead
    exact Nat.succ_ne_self x hhead
  · intro h chase
    refine ⟨rfl, answer_valFillReply, authority_valFillReply, ?_⟩
    rw [ReplyInfo.additional, (valFillReply_counts chase).1, (valFillReply_counts chase).2.1,
      (valFillReply_counts chase).2.2]
    rcases h with h | h
    · rw [h]
      rfl
    · rw [h, ReplyInfo.authority, length_cells, valFillReply_rrsets]
      exact cells_blit

end fill

theorem valFillReply_misplaces_additional :
    ¬ ∀ (st : Rrsets) (name : Name) (signer : Option Name) (orig : ReplyInfo) (skip : Nat)
      (chase : ReplyInfo), Filled st name signer orig skip
        (valFillReply st name signer orig skip chase) := by
  intro h
  have hfilled := h
    ⟨fun s => if s = 3 then [] else [[97]], fun _ => 0, fun _ => [], fun _ => .secure⟩ [] none
    ⟨.secure, 0, 1, 1, 2, fun k => k + 2⟩ 0 ⟨.secure, 0, 0, 0, 0, fun _ => 0⟩
  exact absurd hfilled.2.2.2 (by decide)

section check

/-- Make a minimal response, without the authority RRset at `i`. -/
def truncateMinimal (rep : ReplyInfo) (i : Nat) : ReplyInfo :=
  let count := rep.anNumrrsets + rep.nsNumrrsets
  { rep with
    arNumrrsets := 0
    rrsets := moveDown rep.rrsets i count
    nsNumrrsets := rep.nsNumrrsets - 1
    rrsetCount := count - 1 }

/-- The loop of `val_check_nonsecure` over `n` authority RRsets from `i` on, and whether it goes
on. -/
def checkAuthority : Nat → Nat → ReplyInfo → ReplyInfo × Bool
  | 0, _, rep => (rep, true)
  | n + 1, i, rep =>
    if st.security (rep.rrsets i) = .secure then checkAuthority n (i + 1) rep
    else if rep.anNumrrsets ≠ 0 ∧ st.type (rep.rrsets i) = RrType.ns then
      (truncateMinimal rep i, false)
    else ({ rep with security := .bogus }, false)

/-- The loop over the `n` additional RRsets that are left from `i` on. -/
def checkAdditional : Nat → Nat → ReplyInfo → ReplyInfo
  | 0, _, rep => rep
  | n + 1, i, rep =>
    if st.security (rep.rrsets i) = .secure then checkAdditional n (i + 1) rep
    else
      checkAdditional n i
        { rep with
          rrsets := moveDown rep.rrsets i rep.rrsetCount
          arNumrrsets := rep.arNumrrsets - 1
          rrsetCount := rep.rrsetCount - 1 }

def valCheckNonsecure (valCleanAdditional : Bool) (rep : ReplyInfo) : ReplyInfo :=
  match checkAuthority st rep.nsNumrrsets rep.anNumrrsets rep with
  | (rep, false) => rep
  | (rep, true) =>
    if valCleanAdditional then
      let i := rep.anNumrrsets + rep.nsNumrrsets
      checkAdditional st (rep.rrsetCount - i) i rep
    else rep

variable {st}

theorem checkAuthority_cases (i n : Nat) :
    (∀ s ∈ cells rep.rrsets i n, st.security s = .secure) ∧
      checkAuthority st n i rep = (rep, true) ∨
    ∃ k r, n = k + (r + 1) ∧ (∀ s ∈ cells rep.rrsets i k, st.security s = .secure) ∧
      st.security (rep.rrsets (i + k)) ≠ .secure ∧
      checkAuthority st n i rep = checkAuthority st (r + 1) (i + k) rep := by
  induction n generalizing i with
  | zero => exact .inl ⟨nofun, rfl⟩
  | succ n ih =>
    by_cases hs : st.security (rep.rrsets i) = .secure
    · rcases ih (i + 1) with ⟨hall, heq⟩ | ⟨k, r, hn, hpre, hk, heq⟩
      · rw [cells_succ, checkAuthority, if_pos hs]
        exact .inl ⟨forall_mem_cons.2 ⟨hs, hall⟩, heq⟩
      · have hik : i + 1 + k = i + (k + 1) := by omega
        rw [hik] at hk heq
        refine .inr ⟨k + 1, r, by omega, ?_, hk, ?_⟩
        · exact forall_mem_cons.2 ⟨hs, hpre⟩
        · rw [checkAuthority, if_pos hs, heq]
    · exact .inr ⟨0, n, by omega, nofun, hs, rfl⟩

/-- What the second loop leaves of the RRsets from `i` on. -/
structure Cleaned (st : Rrsets) (i : Nat) (rest : List Nat) (rep out : ReplyInfo) : Prop where
  security : out.security = rep.security
  an : out.anNumrrsets = rep.anNumrrsets
  ns : out.nsNumrrsets = rep.nsNumrrsets
  counts : out.rrsetCount + rep.arNumrrsets = rep.rrsetCount + out.arNumrrsets
  before : ∀ k < i, out.rrsets k = rep.rrsets k
  left : i ≤ out.rrsetCount ∧ cells out.rrsets i (out.rrsetCount - i) =
    rest.filter fun s => st.security s == .secure

theorem checkAdditional_cleaned (hi : i + n = rep.rrsetCount) (hn : n ≤ rep.arNumrrsets) :
    Cleaned st i (cells rep.rrsets i n) rep (checkAdditional st n i rep) := by
  induction n generalizing i rep with
  | zero =>
    rw [Nat.add_zero] at hi
    refine ⟨rfl, rfl, rfl, rfl, fun _ _ => rfl, hi.le, ?_⟩
    rw [checkAdditional, ← hi, Nat.sub_self]
    rfl
  | succ n ih =>
    rw [checkAdditional, cells_succ]
    split
    case isTrue hs =>
      have hrest : Cleaned st (i + 1) _ rep (checkAdditional st n (i + 1) rep) :=
        ih (by omega) (by omega)
      obtain ⟨hsec, han, hns, hcounts, hbefore, hle, hleft⟩ := hrest
      refine ⟨hsec, han, hns, hcounts, fun k hk => hbefore k (by omega), by omega, ?_⟩
      obtain ⟨k, hk⟩ := Nat.exists_eq_add_of_le hle
      rw [hk, Nat.add_sub_cancel_left] at hleft
      rw [hk, show i + 1 + k - i = k + 1 by omega, cells_succ, hleft, hbefore i (by omega),
        filter_cons_of_pos (by simpa using hs)]
    case isFalse hs =>
      have hmove : cells (moveDown rep.rrsets i rep.rrsetCount) i n = cells rep.rrsets (i + 1) n :=
        cells_moveDown (Nat.le_refl i) (by omega)
      have hrest : Cleaned st i _ _ (checkAdditional st n i
          { rep with
            rrsets := moveDown rep.rrsets i rep.rrsetCount
            arNumrrsets := rep.arNumrrsets - 1
            rrsetCount := rep.rrsetCount - 1 }) :=
        ih (by dsimp only; omega) (by dsimp only; omega)
      obtain ⟨hsec, han, hns, hcounts, hbefore, hle, hleft⟩ := hrest
      refine ⟨hsec, han, hns, ?_, ?_, hle, ?_⟩
      · dsimp only at hcounts
        omega
      · intro k hk
        exact (hbefore k hk).trans (if_neg (by omega))
      · rw [hleft, hmove, filter_cons_of_neg (by simpa using hs)]

/-- What `val_check_nonsecure` promises of a reply that it leaves secure. -/
structure Checked (st : Rrsets) (clean : Bool) (rep out : ReplyInfo) : Prop where
  authority : ∀ s ∈ out.authority, st.security s = .secure
  additional : clean = true → ∀ s ∈ out.additional, st.security s = .secure
  answer : out.answer = rep.answer
  counts : out.anNumrrsets + out.nsNumrrsets + out.arNumrrsets = out.rrsetCount
  keptAuthority : out.authority.Sublist rep.authority
  keptAdditional : out.additional.Sublist rep.additional

/-- An NS RRset that is dropped from the authority section is the only one there that is not
secure. -/
def DropsAllNonsecure (st : Rrsets) (rep : ReplyInfo) : Prop :=
  ∀ s rest, rep.authority.filter (fun s => st.security s != .secure) = s :: rest →
    rep.anNumrrsets ≠ 0 → st.type s = RrType.ns → rest = []

theorem Cleaned.checked (h : Cleaned st (rep.anNumrrsets + rep.nsNumrrsets) rep.additional rep out)
    (hcount : rep.anNumrrsets + rep.nsNumrrsets + rep.arNumrrsets = rep.rrsetCount)
    (hall : ∀ s ∈ rep.authority, st.security s = .secure) : Checked st clean rep out := by
  have hauth : out.authority = rep.authority := by
    rw [ReplyInfo.authority, ReplyInfo.authority, h.an, h.ns]
    exact cells_congr fun k _ hk => h.before k hk
  have hadd : out.additional = rep.additional.filter fun s => st.security s == .secure := by
    have hcounts := h.counts
    rw [ReplyInfo.additional, h.an, h.ns, ← h.left.2]
    congr 1
    omega
  refine ⟨hauth ▸ hall, fun _ s hs => ?_, ?_, ?_, ?_, ?_⟩
  · rw [hadd] at hs
    exact eq_of_beq (mem_filter.1 hs).2
  · rw [ReplyInfo.answer, ReplyInfo.answer, h.an]
    exact cells_congr fun k _ hk => h.before k (by omega)
  · have hcounts := h.counts
    rw [h.an, h.ns]
    omega
  · rw [hauth]
  · rw [hadd]
    exact filter_sublist

theorem authority_truncateMinimal (hn : rep.nsNumrrsets = k + (r + 1)) :
    (truncateMinimal rep (rep.anNumrrsets + k)).authority =
      cells rep.rrsets rep.anNumrrsets k ++ cells rep.rrsets (rep.anNumrrsets + k + 1) r := by
  dsimp only [ReplyInfo.authority, truncateMinimal]
  rw [hn, Nat.add_succ_sub_one, cells_add, cells_moveDown_of_le le_rfl,
    cells_moveDown le_rfl (by omega)]

/-- A reply still secure has secure RRsets where it promises so, but behind a dropped NS RRset. -/
theorem valCheckNonsecure_checked_iff (clean : Bool) (hsec : rep.security = .secure)
    (hcount : rep.anNumrrsets + rep.nsNumrrsets + rep.arNumrrsets = rep.rrsetCount) :
    ((valCheckNonsecure st clean rep).security = .secure →
      Checked st clean rep (valCheckNonsecure st clean rep)) ↔ DropsAllNonsecure st rep := by
  rcases checkAuthority_cases rep.anNumrrsets rep.nsNumrrsets with
    ⟨hall, heq⟩ | ⟨k, r, hn, hpre, hs, heq⟩
  · have hdrops : DropsAllNonsecure st rep := by
      intro s rest hfilter
      have hnone : rep.authority.filter (fun s => st.security s != .secure) = [] := by
        apply filter_eq_nil_iff.2
        intro s hmem
        simpa using hall s hmem
      rw [hnone] at hfilter
      cases hfilter
    refine iff_of_true (fun _ => ?_) hdrops
    rw [valCheckNonsecure, heq]
    dsimp only
    cases clean with
    | true =>
      have hcells : rep.rrsetCount - (rep.anNumrrsets + rep.nsNumrrsets) = rep.arNumrrsets := by
        omega
      rw [if_pos rfl, hcells]
      exact (checkAdditional_cleaned hcount le_rfl).checked hcount hall
    | false => exact ⟨hall, nofun, rfl, hcount, .refl _, .refl _⟩
  · have hauth : rep.authority = cells rep.rrsets rep.anNumrrsets k ++
        rep.rrsets (rep.anNumrrsets + k) :: cells rep.rrsets (rep.anNumrrsets + k + 1) r := by
      rw [ReplyInfo.authority, hn, cells_add, cells_succ]
    have hfilter : rep.authority.filter (fun s => st.security s != .secure) =
        rep.rrsets (rep.anNumrrsets + k) ::
          (cells rep.rrsets (rep.anNumrrsets + k + 1) r).filter
            fun s => st.security s != .secure := by
      rw [hauth, filter_append, filter_eq_nil_iff.2 fun s hs => by simpa using hpre s hs,
        filter_cons_of_pos (by simpa using hs), nil_append]
    rw [valCheckNonsecure, heq, checkAuthority, if_neg hs]
    by_cases hdrop : rep.anNumrrsets ≠ 0 ∧ st.type (rep.rrsets (rep.anNumrrsets + k)) = RrType.ns
    · have hout := authority_truncateMinimal hn
      rw [if_pos hdrop]
      constructor
      · intro h s rest hrest _ _
        rw [hfilter, cons.injEq] at hrest
        rw [← hrest.2]
        apply filter_eq_nil_iff.2
        intro x hx
        simpa using (h hsec).authority x (hout ▸ mem_append_right _ hx)
      · intro h _
        have hpost := filter_eq_nil_iff.1 (h _ _ hfilter hdrop.1 hdrop.2)
        refine ⟨?_, fun _ => nofun, cells_moveDown_of_le ?_, ?_, ?_, nil_sublist _⟩
        · rw [hout]
          exact forall_mem_append.2 ⟨hpre, fun x hx => by simpa using hpost x hx⟩
        · dsimp only [truncateMinimal]
          omega
        · dsimp only [truncateMinimal]
          omega
        · rw [hout, hauth]
          exact (List.Sublist.refl _).append (sublist_cons_self _ _)
    · rw [if_neg hdrop]
      refine iff_of_true nofun fun s rest hrest han hns => ?_
      rw [hfilter, cons.injEq] at hrest
      exact absurd ⟨han, hrest.1 ▸ hns⟩ hdrop

end check

def sampleRrsets : Rrsets where
  dname _ := []
  type s := if s = 0 then RrType.a else if s ≤ 2 then RrType.ns else RrType.aaaa
  sigs _ := []
  security s := if s = 0 then .secure else .unchecked

def sampleReply (ns : Nat) : ReplyInfo := ⟨.secure, 1, ns, 1, ns + 2, id⟩

theorem valCheckNonsecure_checked_iff_one :
    (valCheckNonsecure sampleRrsets true (sampleReply 1)).security = .secure ∧
      Checked sampleRrsets true (sampleReply 1)
        (valCheckNonsecure sampleRrsets true (sampleReply 1)) := by
  have hdrops : DropsAllNonsecure sampleRrsets (sampleReply 1) := by
    intro s rest h _ _
    cases h
    rfl
  have hsec : (valCheckNonsecure sampleRrsets true (sampleReply 1)).security = .secure := by decide
  exact ⟨hsec, (valCheckNonsecure_checked_iff true rfl rfl).2 hdrops hsec⟩

theorem valCheckNonsecure_leaves_nonsecure :
    ¬ ∀ (st : Rrsets) (clean : Bool) (rep : ReplyInfo), rep.security = .secure →
      rep.anNumrrsets + rep.nsNumrrsets + rep.arNumrrsets = rep.rrsetCount →
      (valCheckNonsecure st clean rep).security = .secure →
      Checked st clean rep (valCheckNonsecure st clean rep) := by
  intro h
  have hchecked := h sampleRrsets true (sampleReply 2) rfl rfl (by decide)
  exact absurd (hchecked.authority 2 (by decide)) (by decide)

end CwdGate.ValUtils
