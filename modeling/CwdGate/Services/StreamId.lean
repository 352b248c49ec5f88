import Mathlib

namespace CwdGate.Services
open List

/-- A state of the random generator: the ids that it gives next and `ub_random_max`. -/
structure UbRandstate where
  randomId : Nat → UInt16
  randomMax : Nat → Nat
  randomMax_lt : 0 < x → randomMax x < x

/-- The walk over the gaps behind `curid`, after `count` free ids. -/
def selectAfter (select count : Nat) (curid : UInt16) : List UInt16 → UInt16
  | [] => UInt16.ofNat (curid.toNat + 1 + (select - count))
  | nextid :: rest =>
    if curid ≠ 0xffff ∧ curid.toNat + 1 < nextid.toNat then
      let space := nextid.toNat - curid.toNat - 1
      if select < count + space then UInt16.ofNat (curid.toNat + 1 + (select - count))
      else selectAfter select (count + space) nextid rest
    else selectAfter select count nextid rest

/-- `reuse_tcp_select_id`, with the assertions compiled out; `treeById` in the order of the ids. -/
def reuseTcpSelectId (treeById : List UInt16) (rnd : UbRandstate) : UInt16 :=
  match treeById with
  | [] => rnd.randomId 0
  | first :: rest =>
    match (((range 2000).map rnd.randomId).find? fun id => id ∉ treeById) with
    | some id => id
    | none =>
      let select := rnd.randomMax (0xffff - treeById.length)
      if select < first.toNat then UInt16.ofNat select
      else selectAfter select first.toNat first rest

theorem not_mem_of_before {id : UInt16} (hs : (first :: rest).Pairwise (· < ·)) (hid : id < first) :
    id ∉ first :: rest := by
  intro hmem
  rcases mem_cons.1 hmem with heq | hmem
  · exact UInt16.lt_irrefl _ (heq ▸ hid)
  · exact UInt16.lt_irrefl _ (UInt16.lt_trans hid (rel_of_pairwise_cons hs hmem))

theorem selectAfter_cons {count : Nat} (hlt : curid < nextid) (hcount : count ≤ select) :
    selectAfter select count curid (nextid :: rest) =
      if select < count + (nextid.toNat - curid.toNat - 1) then
        UInt16.ofNat (curid.toNat + 1 + (select - count))
      else selectAfter select (count + (nextid.toNat - curid.toNat - 1)) nextid rest := by
  have hnext := UInt16.lt_iff_toNat_lt.1 hlt
  rw [selectAfter]
  split
  · rfl
  · have hcur : curid ≠ 0xffff := by
      rintro rfl
      exact absurd nextid.toNat_lt (Nat.not_lt.2 hnext)
    rw [show nextid.toNat - curid.toNat - 1 = 0 by grind, Nat.add_zero, if_neg (by omega)]

/-- The bound leaves room for the ids that are still to pass. -/
theorem selectAfter_free {count : Nat} (hs : (curid :: rest).Pairwise (· < ·)) (hcount : count ≤ select)
    (hroom : select - count + curid.toNat + 1 + rest.length < 65536) :
    curid < selectAfter select count curid rest ∧ selectAfter select count curid rest ∉ rest := by
  have hid : (UInt16.ofNat (curid.toNat + 1 + (select - count))).toNat =
      curid.toNat + 1 + (select - count) := UInt16.toNat_ofNat_of_lt' (show _ < 65536 by omega)
  induction rest generalizing curid count with
  | nil => exact ⟨UInt16.lt_iff_toNat_lt.2 (by rw [selectAfter]; omega), not_mem_nil⟩
  | cons nextid rest ih =>
    obtain ⟨hcur, hs'⟩ := pairwise_cons.1 hs
    have hlt := hcur nextid mem_cons_self
    have hnext := UInt16.lt_iff_toNat_lt.1 hlt
    rw [length_cons] at hroom
    rw [selectAfter_cons hlt hcount]
    split
    · have hbefore : UInt16.ofNat (curid.toNat + 1 + (select - count)) < nextid :=
        UInt16.lt_iff_toNat_lt.2 (by omega)
      exact ⟨UInt16.lt_iff_toNat_lt.2 (by omega), not_mem_of_before hs' hbefore⟩
    · obtain ⟨h, hrest⟩ := @ih nextid (count + (nextid.toNat - curid.toNat - 1)) hs' (by omega)
        (by omega) (UInt16.toNat_ofNat_of_lt' (show _ < 65536 by omega))
      exact ⟨UInt16.lt_trans hlt h, not_mem_cons_of_ne_of_not_mem (UInt16.ne_of_lt h).symm hrest⟩

theorem reuse_tcp_select_id_free (hs : treeById.Pairwise (· < ·)) (h1 : 1 ≤ treeById.length)
    (hn : treeById.length ≤ 65534) (rnd : UbRandstate) : reuseTcpSelectId treeById rnd ∉ treeById := by
  cases treeById with
  | nil => exact absurd h1 (Nat.not_succ_le_zero 0)
  | cons first rest =>
    have hselect := @rnd.randomMax_lt (0xffff - (first :: rest).length) (by omega)
    unfold reuseTcpSelectId
    dsimp only
    split
    · next hfound =>
      have := find?_some hfound
      exact of_decide_eq_true this
    · split
      · next hfirst =>
        refine not_mem_of_before hs (UInt16.lt_iff_toNat_lt.2 ?_)
        rwa [UInt16.toNat_ofNat_of_lt' (show _ < 65536 by omega)]
      · next hfirst =>
        obtain ⟨h, hrest⟩ := selectAfter_free hs (Nat.le_of_not_lt hfirst) (by
          have := @length_cons _ first rest
          omega)
        exact not_mem_cons_of_ne_of_not_mem (UInt16.ne_of_lt h).symm hrest

theorem reuse_tcp_select_id_three :
    reuseTcpSelectId [0, 1, 7] ⟨fun _ => 1, fun x => x - 1, by omega⟩ ∉ [0, 1, 7] :=
  reuse_tcp_select_id_free (by decide) (by decide) (by decide) _

end CwdGate.Services
