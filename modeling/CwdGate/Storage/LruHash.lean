import CwdGate.Lib.Chain
import CwdGate.Lib.Recency

namespace CwdGate.Storage
open Lib Function

/-- The callbacks of a table. Keys that compare equal have the same size. -/
structure LruFuncs (K D : Type) where
  sizefunc : K → D → Nat
  compfunc : K → K → Int
  equiv : Equivalence fun a b => compfunc a b = 0
  size_congr : ∀ a b d, compfunc a b = 0 → sizefunc a d = sizefunc b d

/-- A hash table with its entries. An entry is an address; its fields are kept by field. -/
structure LruHash (K D : Type) where
  size : Nat
  sizeMask : UInt32
  array : Nat → Option Nat
  lru : Links
  num : Nat
  spaceUsed : Nat
  spaceMax : Nat
  maxCollisions : Nat
  overflowNext : Nat → Option Nat
  hash : Nat → UInt32
  key : Nat → K
  data : Nat → D

section model
variable (f : LruFuncs K D)

/-- `lruhash_create`; the fields of addresses that hold no entry are arbitrary. -/
def lruhashCreate (startSize maxmem : Nat) (hash : Nat → UInt32) (key : Nat → K)
    (data : Nat → D) : LruHash K D where
  size := startSize
  sizeMask := UInt32.ofNat (startSize - 1)
  array _ := none
  lru := { next := fun _ => none, prev := fun _ => none, first := none, last := none }
  num := 0
  spaceUsed := 0
  spaceMax := maxmem
  maxCollisions := 0
  overflowNext _ := none
  hash := hash
  key := key
  data := data

/-- The value of the `int` field `size_mask`. -/
def LruHash.sizeMaskInt (t : LruHash K D) : Int :=
  if t.sizeMask.toNat < 2 ^ 31 then t.sizeMask.toNat else t.sizeMask.toNat - 2 ^ 32

/-- The bin of a hash value: `hash & size_mask`. -/
def LruHash.binOf (t : LruHash K D) (hash : UInt32) : Nat := (hash &&& t.sizeMask).toNat

def LruHash.entrySize (t : LruHash K D) (p : Nat) : Nat := f.sizefunc (t.key p) (t.data p)

def LruHash.Matches (t : LruHash K D) (hash : UInt32) (key : K) (p : Nat) : Prop :=
  t.hash p = hash ∧ f.compfunc (t.key p) key = 0

instance (t : LruHash K D) (hash : UInt32) (key : K) (p : Nat) :
    Decidable (t.Matches f hash key p) :=
  inferInstanceAs (Decidable (_ ∧ _))

variable (t : LruHash K D)

def findLoop (t : LruHash K D) (hash : UInt32) (key : K) : Nat → Option Nat → Nat → Option Nat × Nat
  | fuel + 1, some p, c =>
    if t.Matches f hash key p then (some p, c)
    else findLoop t hash key fuel (t.overflowNext p) (c + 1)
  | _, _, c => (none, c)

def binFindEntry (bin : Nat) (hash : UInt32) (key : K) : Option Nat × Nat :=
  findLoop f t hash key t.num (t.array bin) 0

def binOverflowRemove (bin entry : Nat) : LruHash K D :=
  let r := unlink t.overflowNext (t.array bin) entry (t.num + 1)
  { t with overflowNext := r.1, array := update t.array bin r.2 }

/-- One round of `reclaim_space`: unlink the last entry `d`, with predecessor `p`, and keep it. -/
def reclaimOne (list : Option Nat) (p d : Nat) : LruHash K D :=
  let t := { t with lru := { t.lru with last := some p
                                        next := update t.lru.next p none } }
  let bin := t.binOf (t.hash d)
  let t := { t with num := t.num - 1 }
  let t := binOverflowRemove t bin d
  let t := { t with overflowNext := update t.overflowNext d list }
  { t with spaceUsed := t.spaceUsed - t.entrySize f d }

def reclaimLoop : Nat → LruHash K D → Option Nat → LruHash K D × Option Nat
  | fuel + 1, t, list =>
    if t.num > 1 ∧ t.spaceUsed > t.spaceMax then
      match t.lru.last with
      | some d =>
        match t.lru.prev d with
        | some p => reclaimLoop fuel (reclaimOne f t list p d) (some d)
        | none => (t, list)
      | none => (t, list)
    else (t, list)
  | 0, t, list => (t, list)

/-- `reclaim_space`: the table and the list of entries to delete. -/
def reclaimSpace : LruHash K D × Option Nat := reclaimLoop f t.num t none

def splitChain (hash : Nat → UInt32) (newmask : UInt32) :
    Nat → Option Nat → (Nat → Option Nat) × (Nat → Option Nat) →
      (Nat → Option Nat) × (Nat → Option Nat)
  | fuel + 1, some p, (newa, next) =>
    let np := next p
    let b := (hash p &&& newmask).toNat
    splitChain hash newmask fuel np (update newa b (some p), update next p (newa b))
  | _, _, s => s

def binSplit (t : LruHash K D) (newmask : UInt32) : Nat → (Nat → Option Nat) × (Nat → Option Nat)
  | 0 => (fun _ => none, t.overflowNext)
  | n + 1 => splitChain t.hash newmask (t.num + 1) (t.array n) (binSplit t newmask n)

/-- `table_grow`; `callocOk` tells whether the larger array could be allocated. -/
def tableGrow (callocOk : Bool) : LruHash K D :=
  if t.sizeMask = 0xffffffff then t
  else if !callocOk then t
  else
    let newmask := (t.sizeMask <<< 1) ||| 1
    let r := binSplit t newmask t.size
    { t with size := t.size * 2, sizeMask := newmask, array := r.1, overflowNext := r.2 }

def lruFront (entry : Nat) : LruHash K D :=
  { t with lru := t.lru.pushFront entry }

def lruRemove (entry : Nat) : LruHash K D :=
  { t with lru := t.lru.remove entry }

def lruTouch (entry : Nat) : LruHash K D :=
  if some entry = t.lru.first then t else lruFront (lruRemove t entry) entry

def lruDemote (entry : Nat) : LruHash K D :=
  if some entry = t.lru.last then t
  else
    let t := lruRemove t entry
    { t with lru := t.lru.pushBack entry }

/-- Add a new entry to its bin and to the front of the LRU list. -/
def addEntry (bin entry collisions needSize : Nat) : LruHash K D :=
  let t := { t with overflowNext := update t.overflowNext entry (t.array bin)
                    array := update t.array bin (some entry) }
  let t := lruFront t entry
  { t with num := t.num + 1
           maxCollisions := if t.maxCollisions < collisions then collisions else t.maxCollisions
           spaceUsed := t.spaceUsed + needSize }

/-- The common end of the insert functions: reclaim, then grow. -/
def settle (callocOk : Bool) : LruHash K D × Option Nat :=
  let r := if t.spaceUsed > t.spaceMax then reclaimSpace f t else (t, none)
  (if r.1.num ≥ r.1.size then tableGrow r.1 callocOk else r.1, r.2)

/-- `lruhash_insert`: the table and the reclaimed entries. -/
def lruhashInsert (hash : UInt32) (entry : Nat) (data : D) (callocOk : Bool) :
    LruHash K D × Option Nat :=
  let needSize := f.sizefunc (t.key entry) data
  let bin := t.binOf hash
  let r := binFindEntry f t bin hash (t.key entry)
  match r.1 with
  | none => settle f (addEntry t bin entry r.2 needSize) callocOk
  | some found =>
    let t := { t with spaceUsed := t.spaceUsed + needSize - t.entrySize f found }
    let t := lruTouch t found
    let t := { t with data := update t.data found data }
    settle f t callocOk

/-- `lruhash_insert_or_retrieve`: the table, the reclaimed entries and the entry found. -/
def lruhashInsertOrRetrieve (hash : UInt32) (entry : Nat) (data : D) (callocOk : Bool) :
    LruHash K D × Option Nat × Nat :=
  let needSize := f.sizefunc (t.key entry) data
  let bin := t.binOf hash
  let r := binFindEntry f t bin hash (t.key entry)
  match r.1 with
  | some found =>
    let s := settle f t callocOk
    (s.1, s.2, found)
  | none =>
    let s := settle f (addEntry t bin entry r.2 needSize) callocOk
    (s.1, s.2, entry)

def lruhashLookup (hash : UInt32) (key : K) : LruHash K D × Option Nat :=
  match (binFindEntry f t (t.binOf hash) hash key).1 with
  | some entry => (lruTouch t entry, some entry)
  | none => (t, none)

def lruhashRemove (hash : UInt32) (key : K) : LruHash K D :=
  match (binFindEntry f t (t.binOf hash) hash key).1 with
  | some entry =>
    let t := binOverflowRemove t (t.binOf hash) entry
    let t := lruRemove t entry
    { t with num := t.num - 1, spaceUsed := t.spaceUsed - t.entrySize f entry }
  | none => t

/-- `lruhash_clear`: every bin of the array is emptied. -/
def lruhashClear : LruHash K D :=
  { t with array := fun i => if i < t.size then none else t.array i
           lru := { t.lru with first := none, last := none }
           num := 0
           spaceUsed := 0 }

end model

open List

section inv
variable {K D : Type} (f : LruFuncs K D)

/-- The table holds exactly the entries `lru`, most recently used first, with `bins i` in
bin `i`. -/
structure Inv (t : LruHash K D) (lru : List Nat) (bins : Nat → List Nat) : Prop where
  pow : ∃ k, t.size = 2 ^ k
  mask : t.sizeMask = UInt32.ofNat (t.size - 1)
  links : t.lru.Reads lru
  chains : ∀ i < t.size, Chain t.overflowNext (t.array i) (bins i)
  mem_bins : ∀ i < t.size, ∀ p, p ∈ bins i ↔ p ∈ lru ∧ t.binOf (t.hash p) = i
  distinct : lru.Pairwise fun p q => ¬ (t.hash p = t.hash q ∧ f.compfunc (t.key p) (t.key q) = 0)
  num_eq : t.num = lru.length
  space_eq : t.spaceUsed = (lru.map (t.entrySize f)).sum

variable {f} {t : LruHash K D} {lru : List Nat} {bins : Nat → List Nat}

theorem Inv.nodup (h : Inv f t lru bins) : lru.Nodup := h.links.nodup

theorem Inv.size_pos (h : Inv f t lru bins) : 0 < t.size := by
  obtain ⟨k, hk⟩ := h.pow
  rw [hk]
  exact Nat.two_pow_pos k

theorem and_ofNat_lt (hash : UInt32) (hn : 0 < n) : (hash &&& UInt32.ofNat (n - 1)).toNat < n := by
  have h1 : (hash &&& UInt32.ofNat (n - 1)).toNat ≤ (UInt32.ofNat (n - 1)).toNat := by
    exact Nat.and_le_right
  have h2 : (UInt32.ofNat (n - 1)).toNat ≤ n - 1 := by
    exact Nat.mod_le _ _
  omega

theorem Inv.binOf_lt (h : Inv f t lru bins) (hash : UInt32) : t.binOf hash < t.size := by
  unfold LruHash.binOf
  rw [h.mask]
  exact and_ofNat_lt hash h.size_pos

theorem Inv.mem_bin (h : Inv f t lru bins) (hp : p ∈ lru) : p ∈ bins (t.binOf (t.hash p)) :=
  (h.mem_bins _ (h.binOf_lt _) p).2 ⟨hp, rfl⟩

theorem Inv.bins_subset (h : Inv f t lru bins) (hi : i < t.size) : bins i ⊆ lru :=
  fun p hp => ((h.mem_bins i hi p).1 hp).1

theorem Inv.bins_length_le (h : Inv f t lru bins) (hi : i < t.size) : (bins i).length ≤ t.num := by
  rw [h.num_eq]
  exact (subperm_of_subset (h.chains i hi).nodup (h.bins_subset hi)).length_le

theorem findLoop_spec {hash : UInt32} {key : K} {fuel c : Nat} {a : Option Nat}
    (h : Chain t.overflowNext a xs) (hf : xs.length ≤ fuel) :
    (findLoop f t hash key fuel a c).1 = xs.find? (fun p => t.Matches f hash key p) := by
  induction xs generalizing fuel a c with
  | nil =>
    rw [seg_nil.1 h]
    cases fuel <;> rfl
  | cons x xs ih =>
    obtain ⟨rfl, h2⟩ := h
    cases fuel with
    | zero => simp at hf
    | succ fuel =>
      simp only [findLoop, find?_cons]
      by_cases hm : t.Matches f hash key x
      · simp [hm]
      · simp only [hm, ↓reduceIte, decide_false]
        exact ih h2 (by simpa using hf)

theorem binFindEntry_some (h : Inv f t lru bins) {hash : UInt32} {key : K}
    (hp : (binFindEntry f t (t.binOf hash) hash key).1 = some p) :
    p ∈ lru ∧ t.Matches f hash key p := by
  have hb := h.binOf_lt hash
  rw [binFindEntry, findLoop_spec (h.chains _ hb) (h.bins_length_le hb)] at hp
  exact ⟨h.bins_subset hb (mem_of_find?_eq_some hp), by simpa using find?_some hp⟩

theorem binFindEntry_none (h : Inv f t lru bins) {hash : UInt32} {key : K}
    (hn : (binFindEntry f t (t.binOf hash) hash key).1 = none) :
    ∀ p ∈ lru, ¬ t.Matches f hash key p := by
  intro p hp hm
  have hb := h.binOf_lt hash
  rw [binFindEntry, findLoop_spec (h.chains _ hb) (h.bins_length_le hb), find?_eq_none] at hn
  have hmem := h.mem_bin hp
  rw [hm.1] at hmem
  exact hn p hmem (by simpa using hm)

theorem Inv.reorder (h : Inv f t lru bins) (hp : lru'.Perm lru) (hl : l.Reads lru') :
    Inv f { t with lru := l } lru' bins where
  pow := h.pow
  mask := h.mask
  links := hl
  chains := h.chains
  mem_bins i hi p := by
    rw [hp.mem_iff]
    exact h.mem_bins i hi p
  distinct := by
    refine (Perm.pairwise_iff ?_ hp.symm).1 h.distinct
    rintro x y hxy ⟨h1, h2⟩
    exact hxy ⟨h1.symm, f.equiv.symm h2⟩
  num_eq := by rw [hp.length_eq]; exact h.num_eq
  space_eq := by
    have := (hp.map (t.entrySize f)).sum_eq
    exact h.space_eq.trans this.symm

theorem Inv.notMem_split (h : Inv f t (xs ++ e :: ys) bins) : e ∉ xs ++ ys :=
  (nodup_cons.1 (nodup_middle.1 h.nodup)).1

section
variable (h : Inv f t lru bins)
include h

theorem Inv.touch (hl : lru = xs ++ e :: ys) : Inv f (lruTouch t e) (e :: (xs ++ ys)) bins := by
  subst hl
  unfold lruTouch
  split
  next hf =>
    cases xs with
    | nil => exact h
    | cons x xs =>
      have hx := h.links.fwd.1
      have he : e = x := Option.some.inj (hf.trans hx)
      have := h.nodup
      simp [he] at this
  next =>
    have hr := h.links.remove
    have he := h.notMem_split
    exact h.reorder perm_middle.symm (hr.pushFront he)

theorem Inv.demote (hl : lru = xs ++ e :: ys) : Inv f (lruDemote t e) (xs ++ ys ++ [e]) bins := by
  subst hl
  unfold lruDemote
  split
  next hf =>
    rw [h.links.last_eq] at hf
    rcases eq_nil_or_concat ys with rfl | ⟨ys, y, rfl⟩
    · simpa using h
    · rw [concat_eq_append] at *
      rw [← cons_append, ← append_assoc, getLast?_concat] at hf
      have := h.nodup
      have hey : e = y := Option.some.inj hf
      simp [hey, nodup_append] at this
  next =>
    have hr := h.links.remove
    have he := h.notMem_split
    refine h.reorder ?_ (hr.pushBack he)
    rw [append_assoc]
    exact Perm.append_left xs (perm_append_singleton e ys)

theorem Inv.addEntry (he : e ∉ lru) (hnew : ∀ p ∈ lru, ¬ t.Matches f (t.hash e) (t.key e) p) :
    Inv f (addEntry t (t.binOf (t.hash e)) e c (t.entrySize f e)) (e :: lru)
      (update bins (t.binOf (t.hash e)) (e :: bins (t.binOf (t.hash e)))) where
  pow := h.pow
  mask := h.mask
  links := h.links.pushFront he
  chains i hi := by
    have hc := (h.chains i hi).update (fun hm => he (h.bins_subset hi hm))
      (t.array (t.binOf (t.hash e)))
    simp only [Storage.addEntry, lruFront]
    by_cases hb : i = t.binOf (t.hash e)
    · subst hb
      simp only [update_self]
      exact ⟨rfl, by rw [update_self]; exact hc⟩
    · simp only [update_of_ne hb]
      exact hc
  mem_bins i hi p := by
    have hm := h.mem_bins i hi p
    by_cases hb : i = t.binOf (t.hash e)
    · subst hb
      rw [update_self, mem_cons, mem_cons, hm]
      exact ⟨fun h => h.elim (fun h => ⟨.inl h, h ▸ rfl⟩) fun h => ⟨.inr h.1, h.2⟩,
        fun h => h.1.imp_right (⟨·, h.2⟩)⟩
    · rw [update_of_ne hb, hm, mem_cons]
      exact ⟨fun h => ⟨.inr h.1, h.2⟩,
        fun h => ⟨h.1.resolve_left fun he => hb (he ▸ h.2.symm), h.2⟩⟩
  distinct := by
    refine pairwise_cons.2 ⟨fun p hp hc => hnew p hp ?_, h.distinct⟩
    exact ⟨hc.1.symm, f.equiv.symm hc.2⟩
  num_eq := by simp only [Storage.addEntry, lruFront, length_cons, h.num_eq]
  space_eq := by
    change t.spaceUsed + t.entrySize f e = ((e :: lru).map (t.entrySize f)).sum
    rw [map_cons, sum_cons, ← h.space_eq, Nat.add_comm]

theorem Inv.unlinked (he : e ∈ lru) (hf : t.num ≤ fuel) : let b := t.binOf (t.hash e)
    let r := unlink t.overflowNext (t.array b) e fuel
    (∀ i < t.size, Chain r.1 (update t.array b r.2 i) ((bins i).erase e)) ∧
      ∀ q, q ∉ lru → r.1 q = t.overflowNext q := by
  intro b r
  have hb : b < t.size := h.binOf_lt _
  have hmem : e ∈ bins b := h.mem_bin he
  have hlen := h.bins_length_le hb
  obtain ⟨xs, ys, -, hsplit, herase⟩ := exists_erase_eq hmem
  have hc := h.chains b hb
  rw [hsplit] at hc hlen
  have hu := unlink_spec hc (show xs.length < fuel by
    simp only [length_append, length_cons] at hlen
    omega)
  have hxs : ∀ q ∈ xs, q ∈ bins b := fun q hq => by
    rw [hsplit]
    exact mem_append_left _ hq
  refine ⟨fun i hi => ?_, fun q hq => hu.2 q fun hm => hq (h.bins_subset hb (hxs q hm))⟩
  by_cases hib : i = b
  · subst hib
    rw [update_self, herase]
    exact hu.1
  · have hei : e ∉ bins i := fun hm => hib ((h.mem_bins i hi e).1 hm).2.symm
    rw [update_of_ne hib, erase_of_not_mem hei]
    refine (h.chains i hi).congr fun x hx => hu.2 x fun hm => hib ?_
    rw [← ((h.mem_bins i hi x).1 hx).2, ((h.mem_bins b hb x).1 (hxs x hm)).2]

theorem Inv.mem_erase {e : Nat} {i : Nat} (hi : i < t.size) {lru' : List Nat}
    (hl : ∀ p, p ∈ lru' ↔ p ∈ lru ∧ p ≠ e) :
    p ∈ (bins i).erase e ↔ p ∈ lru' ∧ t.binOf (t.hash p) = i := by
  rw [(h.chains i hi).nodup.mem_erase_iff, h.mem_bins i hi p, hl]
  exact ⟨fun h => ⟨⟨h.2.1, h.1⟩, h.2.2⟩, fun h => ⟨h.1.2, h.1.1, h.2⟩⟩

end

/-- The fields of an entry that no table operation changes. -/
structure SameEntries (t t' : LruHash K D) : Prop where
  hash : t'.hash = t.hash
  key : t'.key = t.key
  data : t'.data = t.data
  spaceMax : t'.spaceMax = t.spaceMax

theorem SameEntries.refl (t : LruHash K D) : SameEntries t t := ⟨rfl, rfl, rfl, rfl⟩

theorem SameEntries.trans (h : SameEntries t t') (h' : SameEntries t' t'') : SameEntries t t'' :=
  ⟨h'.hash.trans h.hash, h'.key.trans h.key, h'.data.trans h.data, h'.spaceMax.trans h.spaceMax⟩

theorem SameEntries.entrySize (h : SameEntries t t') : t'.entrySize f = t.entrySize f := by
  funext p
  rw [LruHash.entrySize, LruHash.entrySize, h.key, h.data]

theorem Inv.removed (h : Inv f t lru bins) {xs ys : List Nat} {e fuel : Nat}
    (hl : lru = xs ++ e :: ys) (hf : t.num ≤ fuel) {t' : LruHash K D} {l : Links}
    (ht : t' = { t with
      overflowNext := (unlink t.overflowNext (t.array (t.binOf (t.hash e))) e fuel).1
      array := update t.array (t.binOf (t.hash e))
        (unlink t.overflowNext (t.array (t.binOf (t.hash e))) e fuel).2
      lru := l
      num := t.num - 1
      spaceUsed := t.spaceUsed - t.entrySize f e }) (hr : l.Reads (xs ++ ys)) :
    Inv f t' (xs ++ ys) (fun i => (bins i).erase e) := by
  subst hl
  have he : e ∈ xs ++ e :: ys := by simp
  have hne := h.notMem_split
  have hmem : ∀ p, p ∈ xs ++ ys ↔ p ∈ xs ++ e :: ys ∧ p ≠ e := by
    grind
  have hsum : ((xs ++ e :: ys).map (t.entrySize f)).sum =
      t.entrySize f e + ((xs ++ ys).map (t.entrySize f)).sum := by
    simp only [map_append, map_cons, sum_append, sum_cons]
    omega
  subst ht
  exact
    { pow := h.pow
      mask := h.mask
      links := hr
      chains := (h.unlinked he hf).1
      mem_bins := fun i hi p => h.mem_erase hi hmem
      distinct := h.distinct.sublist ((sublist_cons_self e ys).append_left xs)
      num_eq := by
        have := h.num_eq
        simp only [length_append, length_cons] at this ⊢
        omega
      space_eq := by
        change t.spaceUsed - t.entrySize f e = ((xs ++ ys).map (t.entrySize f)).sum
        rw [h.space_eq, hsum, Nat.add_sub_cancel_left] }

theorem Inv.reclaimOne (h : Inv f t (xs ++ [p, d]) bins) (hl : Chain t.overflowNext list recl)
    (hdis : ∀ q ∈ recl, q ∉ xs ++ [p, d]) :
    Inv f (reclaimOne f t list p d) (xs ++ [p]) (fun i => (bins i).erase d) ∧
      Chain (reclaimOne f t list p d).overflowNext (some d) (d :: recl) ∧
      (∀ q, q ∉ xs ++ [p, d] → (reclaimOne f t list p d).overflowNext q = t.overflowNext q) ∧
      SameEntries t (reclaimOne f t list p d) := by
  have hsplit : xs ++ [p, d] = (xs ++ [p]) ++ d :: [] := by simp
  have hnum : t.num = xs.length + 2 := by simpa using h.num_eq
  have hd : d ∈ xs ++ [p, d] := by simp
  have hfuel : t.num ≤ t.num - 1 + 1 := by omega
  have hun := h.unlinked hd hfuel
  have hinv := h.removed hsplit hfuel rfl (by simpa using h.links.dropLast.2.2)
  have hnext : ∀ q, q ∉ xs ++ [p, d] →
      (Storage.reclaimOne f t list p d).overflowNext q = t.overflowNext q := by
    intro q hq
    have hqd : q ≠ d := fun hh => hq (hh ▸ hd)
    change update (unlink t.overflowNext (t.array (t.binOf (t.hash d))) d
      (t.num - 1 + 1)).1 d list q = _
    rw [update_of_ne hqd]
    exact hun.2 q hq
  have hdr : d ∉ recl := fun hm => hdis d hm hd
  refine ⟨?_, ?_, hnext, ⟨rfl, rfl, rfl, rfl⟩⟩
  · rw [append_nil] at hinv
    refine { hinv with chains := fun i hi => ?_ }
    refine Seg.update (hinv.chains i hi) ?_ list
    intro hm
    have := h.bins_subset hi (mem_of_mem_erase hm)
    exact ((h.chains i hi).nodup.mem_erase_iff.1 hm).1 rfl
  · refine ⟨rfl, ?_⟩
    change Lib.Chain _ (update (unlink t.overflowNext (t.array (t.binOf (t.hash d))) d
      (t.num - 1 + 1)).1 d list d) recl
    rw [update_self]
    exact hl.congr fun q hq => hnext q (hdis q hq)

/-- The longest front of the LRU list that fits, at least one entry, stays; the rest is
reclaimed. -/
structure Reclaimed (t : LruHash K D) (lru recl : List Nat) (r : LruHash K D × Option Nat)
    (kept ev : List Nat) : Prop where
  split : lru = kept ++ ev
  keep : lru ≠ [] → kept ≠ []
  fits : r.1.spaceUsed ≤ t.spaceMax ∨ kept.length ≤ 1
  shortest : ∀ j, kept.length < j → j ≤ lru.length →
    t.spaceMax < ((lru.take j).map (t.entrySize f)).sum
  list : Chain r.1.overflowNext r.2 (ev ++ recl)
  frame : ∀ q, q ∉ lru → r.1.overflowNext q = t.overflowNext q
  same : SameEntries t r.1

theorem Inv.reclaimed_stop (h : Inv f t lru bins) (hl : Chain t.overflowNext list recl)
    (hc : ¬ (t.num > 1 ∧ t.spaceUsed > t.spaceMax)) :
    Reclaimed (f := f) t lru recl (t, list) lru [] where
  split := by simp
  keep := id
  fits := by
    have := h.num_eq
    change t.spaceUsed ≤ t.spaceMax ∨ _
    omega
  shortest j h1 h2 := absurd h2 (Nat.not_le.2 h1)
  list := hl
  frame _ _ := rfl
  same := .refl t

theorem Inv.reclaimLoop (h : Inv f t lru bins) (hl : Chain t.overflowNext list recl)
    (hdis : ∀ q ∈ recl, q ∉ lru) (hf : lru.length ≤ fuel) :
    ∃ kept ev bins', Reclaimed (f := f) t lru recl (reclaimLoop f fuel t list) kept ev ∧
      Inv f (reclaimLoop f fuel t list).1 kept bins' := by
  induction fuel generalizing t lru bins recl list with
  | zero =>
    have := h.num_eq
    exact ⟨lru, [], bins, h.reclaimed_stop hl (by omega), h⟩
  | succ fuel ih =>
    unfold Storage.reclaimLoop
    split
    next hc =>
      have hnum := h.num_eq
      rcases eq_nil_or_concat lru with rfl | ⟨xs, d, rfl⟩
      · simp at hnum; omega
      rcases eq_nil_or_concat xs with rfl | ⟨xs, p, rfl⟩
      · simp at hnum; omega
      have hlast : (xs.concat p).concat d = xs ++ [p, d] := by simp
      rw [hlast] at h hdis hf hnum ⊢
      obtain ⟨hd, hp, -⟩ := h.links.dropLast
      simp only [hd, hp]
      obtain ⟨hinv, hchain, hframe, hsame⟩ := h.reclaimOne hl hdis
      have hsub : xs ++ [p] ⊆ xs ++ [p, d] := by simp
      have hpd : ∀ q ∈ d :: recl, q ∉ xs ++ [p] := by
        intro q hq hm
        rcases mem_cons.1 hq with rfl | hq
        · have := h.nodup
          rw [show xs ++ [p, q] = (xs ++ [p]) ++ q :: [] by simp] at this
          exact (nodup_cons.1 (nodup_middle.1 this)).1 (by simpa using hm)
        · exact hdis q hq (hsub hm)
      obtain ⟨kept, ev, bins', hr, hi⟩ := ih hinv hchain hpd (by simp at hf ⊢; omega)
      refine ⟨kept, ev ++ [d], bins', ⟨?_, ?_, ?_, ?_, ?_, ?_, hsame.trans hr.same⟩, hi⟩
      · rw [← append_assoc, ← hr.split]; simp
      · intro _; exact hr.keep (by simp)
      · rw [← hsame.spaceMax]; exact hr.fits
      · intro j h1 h2
        rw [← hsame.spaceMax, ← hsame.entrySize]
        simp only [length_append, length_cons, length_nil] at h2
        by_cases hj : j ≤ (xs ++ [p]).length
        · have := hr.shortest j h1 hj
          rwa [show xs ++ [p, d] = (xs ++ [p]) ++ [d] by simp, take_append_of_le_length hj]
        · have hj' : j = (xs ++ [p, d]).length := by
            simp only [length_append, length_cons, length_nil] at hj ⊢
            omega
          rw [hj', take_length, hsame.entrySize, hsame.spaceMax, ← h.space_eq]
          exact hc.2
      · rw [append_assoc]; exact hr.list
      · intro q hq
        rw [hr.frame q fun hm => hq (hsub hm), hframe q hq]
    next hc => exact ⟨lru, [], bins, h.reclaimed_stop hl hc, h⟩

theorem Inv.reclaimSpace (h : Inv f t lru bins) :
    ∃ kept ev bins', Reclaimed (f := f) t lru [] (reclaimSpace f t) kept ev ∧
      Inv f (reclaimSpace f t).1 kept bins' :=
  h.reclaimLoop (show Chain t.overflowNext none [] from rfl) (by simp) (Nat.le_of_eq h.num_eq.symm)

end inv

open List

section grow
variable {D : Type} {f : LruFuncs K D} {t : LruHash K D} {lru : List Nat} {bins : Nat → List Nat}

theorem splitChain_spec {hash : Nat → UInt32} {newmask : UInt32} {fuel : Nat} {a : Option Nat}
    {rest : List Nat} {newa next : Nat → Option Nat} {nb : Nat → List Nat}
    (hrest : Chain next a rest) (hnew : ∀ j, Chain next (newa j) (nb j))
    (hdis : ∀ j, ∀ x ∈ nb j, x ∉ rest) (hf : rest.length ≤ fuel) :
    ∃ nb' : Nat → List Nat, (∀ j, Chain (splitChain hash newmask fuel a (newa, next)).2
        ((splitChain hash newmask fuel a (newa, next)).1 j) (nb' j)) ∧
      (∀ j x, x ∈ nb' j ↔ x ∈ nb j ∨ (x ∈ rest ∧ (hash x &&& newmask).toNat = j)) ∧
      ∀ q, q ∉ rest → (splitChain hash newmask fuel a (newa, next)).2 q = next q := by
  induction rest generalizing fuel a newa next nb with
  | nil =>
    rw [seg_nil.1 hrest]
    refine ⟨nb, ?_, ?_, ?_⟩
    · cases fuel <;> exact hnew
    · simp
    · intro q _
      cases fuel <;> rfl
  | cons p rest ih =>
    obtain ⟨rfl, h2⟩ := hrest
    cases fuel with
    | zero => simp at hf
    | succ fuel =>
      have hpr := (nodup_cons.1 (show Chain next (some p) (p :: rest) from ⟨rfl, h2⟩).nodup).1
      have hpn : ∀ j, p ∉ nb j := fun j hm => hdis j p hm mem_cons_self
      let b := (hash p &&& newmask).toNat
      obtain ⟨nb', hc, hm, hfr⟩ := @ih fuel (next p) (update newa b (some p))
        (update next p (newa b)) (update nb b (p :: nb b))
        (h2.update hpr _)
        (fun j => by
          by_cases hj : j = b
          · subst hj
            rw [update_self, update_self]
            exact ⟨rfl, by rw [update_self]; exact (hnew b).update (hpn b) _⟩
          · rw [update_of_ne hj, update_of_ne hj]
            exact (hnew j).update (hpn j) _)
        (fun j x hx => by
          by_cases hj : j = b
          · subst hj
            rw [update_self] at hx
            rcases mem_cons.1 hx with rfl | hx
            · exact hpr
            · exact fun hxr => hdis b x hx (mem_cons_of_mem _ hxr)
          · rw [update_of_ne hj] at hx
            exact fun hxr => hdis j x hx (mem_cons_of_mem _ hxr))
        (by simpa using hf)
      refine ⟨nb', hc, fun j x => ?_, fun q hq => ?_⟩
      · rw [hm, mem_cons]
        by_cases hj : j = b
        · grind
        · grind
      · have hqp : q ≠ p := fun h => hq (h ▸ mem_cons_self)
        exact (hfr q fun hm => hq (mem_cons_of_mem _ hm)).trans (update_of_ne hqp _ _)

theorem Inv.binSplit (h : Inv f t lru bins) (newmask : UInt32) (n : Nat) (hn : n ≤ t.size) :
    ∃ nb : Nat → List Nat, (∀ j, Chain (Storage.binSplit t newmask n).2 ((Storage.binSplit t newmask n).1 j) (nb j)) ∧
      (∀ j x, x ∈ nb j ↔ (x ∈ lru ∧ t.binOf (t.hash x) < n) ∧ (t.hash x &&& newmask).toNat = j) ∧
      ∀ q, ¬ (q ∈ lru ∧ t.binOf (t.hash q) < n) →
        (Storage.binSplit t newmask n).2 q = t.overflowNext q := by
  induction n with
  | zero => exact ⟨fun _ => [], fun _ => rfl, by simp, fun _ _ => rfl⟩
  | succ n ih =>
    obtain ⟨nb, hc, hm, hfr⟩ := ih (by omega)
    have hn' : n < t.size := hn
    have hbin := h.mem_bins n hn'
    have hrest := (h.chains n hn').congr fun x hx => hfr x fun hlt => by
        have := ((hbin x).1 hx).2
        omega
    obtain ⟨nb', hc', hm', hfr'⟩ := @splitChain_spec t.hash newmask (t.num + 1) _ _ _ _ _ hrest hc
      (fun j x hx hxn => by
        have h1 := ((hm j x).1 hx).1.2
        have h2 := ((hbin x).1 hxn).2
        omega)
      (Nat.le_succ_of_le (h.bins_length_le hn'))
    refine ⟨nb', hc', fun j x => ?_, fun q hq => ?_⟩
    · grind
    · refine (hfr' q fun hm => hq ?_).trans (hfr q fun hm => hq ?_)
      · have := (hbin q).1 hm
        exact ⟨this.1, by omega⟩
      · exact ⟨hm.1, by omega⟩

theorem mask_double (h : UInt32.ofNat (2 ^ k - 1) ≠ 0xffffffff) :
    (UInt32.ofNat (2 ^ k - 1) <<< 1) ||| 1 = UInt32.ofNat (2 ^ k * 2 - 1) := by
  have hk : k < 32 := by
    refine Nat.lt_of_not_le fun hge => h ?_
    obtain ⟨j, rfl⟩ := Nat.exists_eq_add_of_le hge
    apply UInt32.toNat_inj.1
    rw [UInt32.toNat_ofNat', Nat.pow_add]
    have hj := Nat.two_pow_pos j
    obtain ⟨m, hm⟩ : ∃ m, 2 ^ j = m + 1 := ⟨2 ^ j - 1, by omega⟩
    rw [hm]
    change (2 ^ 32 * (m + 1) - 1) % 2 ^ 32 = 2 ^ 32 - 1
    omega
  have key : ∀ i : Fin 32, (UInt32.ofNat (2 ^ i.val - 1) <<< 1) ||| 1 =
      UInt32.ofNat (2 ^ i.val * 2 - 1) := by decide
  exact key ⟨k, hk⟩

theorem Inv.tableGrow (h : Inv f t lru bins) (ok : Bool) :
    ∃ bins', Inv f (Storage.tableGrow t ok) lru bins' ∧ SameEntries t (Storage.tableGrow t ok) ∧
      (∀ q, q ∉ lru → (Storage.tableGrow t ok).overflowNext q = t.overflowNext q) ∧
      (Storage.tableGrow t ok).num = t.num ∧ (Storage.tableGrow t ok).spaceUsed = t.spaceUsed := by
  unfold Storage.tableGrow
  split
  next => exact ⟨bins, h, .refl t, fun _ _ => rfl, rfl, rfl⟩
  next hmask =>
    split
    next => exact ⟨bins, h, .refl t, fun _ _ => rfl, rfl, rfl⟩
    next =>
      obtain ⟨nb, hc, hm, hfr⟩ := h.binSplit ((t.sizeMask <<< 1) ||| 1) t.size (Nat.le_refl _)
      obtain ⟨k, hk⟩ := h.pow
      have hmask' : (t.sizeMask <<< 1) ||| 1 = UInt32.ofNat (t.size * 2 - 1) := by
        rw [h.mask, hk] at hmask ⊢
        exact mask_double hmask
      refine ⟨nb, ?_, ⟨rfl, rfl, rfl, rfl⟩, fun q hq => hfr q fun hh => hq hh.1, rfl, rfl⟩
      exact
        { pow := ⟨k + 1, by rw [Nat.pow_succ, ← hk]⟩
          mask := hmask'
          links := h.links
          chains := fun i _ => hc i
          mem_bins := fun i _ p => by
            rw [hm]
            exact ⟨fun hh => ⟨hh.1.1, hh.2⟩, fun hh => ⟨⟨hh.1, h.binOf_lt _⟩, hh.2⟩⟩
          distinct := h.distinct
          num_eq := h.num_eq
          space_eq := h.space_eq }

theorem Inv.settle (h : Inv f t lru bins) (ok : Bool) :
    ∃ kept ev bins', Reclaimed (f := f) t lru [] (Storage.settle f t ok) kept ev ∧
      Inv f (Storage.settle f t ok).1 kept bins' := by
  have hr : ∃ kept ev bins', Reclaimed (f := f) t lru []
      (if t.spaceUsed > t.spaceMax then Storage.reclaimSpace f t else (t, none)) kept ev ∧
      Inv f (if t.spaceUsed > t.spaceMax then Storage.reclaimSpace f t else (t, none)).1
        kept bins' := by
    split
    next => exact h.reclaimSpace
    next hle => exact ⟨lru, [], bins, h.reclaimed_stop rfl (fun hc => hle hc.2), h⟩
  obtain ⟨kept, ev, bins', hr, hi⟩ := hr
  unfold Storage.settle
  generalize (if t.spaceUsed > t.spaceMax then Storage.reclaimSpace f t else (t, none)) = r at hr hi
  dsimp only
  split
  next =>
    obtain ⟨bins'', hg, hsame, hfr, hnum, hsp⟩ := hi.tableGrow ok
    have hev : ∀ q ∈ ev ++ [], q ∉ kept := by
      intro q hq hk
      have := h.nodup
      rw [hr.split, nodup_append] at this
      exact this.2.2 q hk q (by simpa using hq) rfl
    refine ⟨kept, ev, bins'', ⟨hr.split, hr.keep, ?_, hr.shortest, ?_, ?_, hr.same.trans hsame⟩, hg⟩
    · rw [hsp]; exact hr.fits
    · exact hr.list.congr fun q hq => hfr q (hev q hq)
    · intro q hq
      rw [hfr q fun hk => hq (by rw [hr.split]; exact mem_append_left _ hk), hr.frame q hq]
  next => exact ⟨kept, ev, bins', hr, hi⟩

end grow

section ops
variable {D : Type} {f : LruFuncs K D} {t : LruHash K D} {lru : List Nat} {bins : Nat → List Nat}

theorem Inv.setData (h : Inv f t lru bins) (hp : p ∈ lru) (d : D)
    (hs : s = t.spaceUsed + f.sizefunc (t.key p) d - t.entrySize f p) :
    Inv f { t with data := update t.data p d, spaceUsed := s } lru bins := by
  obtain ⟨xs, ys, rfl⟩ := append_of_mem hp
  have hne := h.notMem_split
  refine { h with space_eq := ?_ }
  have hsum := h.space_eq
  have hother : ∀ q ∈ xs ++ ys, f.sizefunc (t.key q) (update t.data p d q) = t.entrySize f q := by
    intro q hq
    rw [update_of_ne (ne_of_mem_of_not_mem hq hne), LruHash.entrySize]
  have hxs := map_congr_left fun q hq => hother q (mem_append_left _ hq)
  have hys := map_congr_left fun q hq => hother q (mem_append_right _ hq)
  rw [map_append, map_cons, sum_append, sum_cons] at hsum ⊢
  change s = (xs.map fun q => f.sizefunc (t.key q) (update t.data p d q)).sum +
    (f.sizefunc (t.key p) (update t.data p d p) +
      (ys.map fun q => f.sizefunc (t.key q) (update t.data p d q)).sum)
  rw [hxs, hys, update_self]
  omega

/-- The caller fills in an entry of its own before presenting it to the table. -/
def LruHash.present (t : LruHash K D) (entry : Nat) (hash : UInt32) (key : K) (data : D) :
    LruHash K D :=
  { t with hash := update t.hash entry hash
           key := update t.key entry key
           data := update t.data entry data }

theorem Inv.present (h : Inv f t lru bins) (he : e ∉ lru) (hash : UInt32) (key : K) (data : D) :
    Inv f (t.present e hash key data) lru bins := by
  have hold : ∀ q ∈ lru, (t.present e hash key data).hash q = t.hash q ∧
      (t.present e hash key data).key q = t.key q ∧
      (t.present e hash key data).data q = t.data q := fun q hq => by
    have hq : q ≠ e := ne_of_mem_of_not_mem hq he
    exact ⟨update_of_ne hq _ _, update_of_ne hq _ _, update_of_ne hq _ _⟩
  exact
    { pow := h.pow
      mask := h.mask
      links := h.links
      chains := h.chains
      mem_bins := fun i hi p => by
        rw [h.mem_bins i hi p]
        refine and_congr_right fun hp => ?_
        rw [(hold p hp).1]
        rfl
      distinct := by
        refine h.distinct.imp_of_mem fun {p q} hp hq hd => ?_
        rwa [(hold p hp).1, (hold q hq).1, (hold p hp).2.1, (hold q hq).2.1]
      num_eq := h.num_eq
      space_eq := by
        refine h.space_eq.trans ?_
        congr 1
        refine map_congr_left fun q hq => ?_
        rw [LruHash.entrySize, LruHash.entrySize, (hold q hq).2.1, (hold q hq).2.2] }

/-- What an insert has done when it comes to reclaim: the entry with the key is in front. -/
structure Entered (t : LruHash K D) (lru : List Nat) (hash : UInt32) (key : K) (data : D)
    (e : Nat) (t' : LruHash K D) (order : List Nat) : Prop where
  hash_eq : t'.hash = t.hash
  key_eq : t'.key = t.key
  spaceMax : t'.spaceMax = t.spaceMax
  cases : (∃ xs p ys, lru = xs ++ p :: ys ∧ t.Matches f hash key p ∧ order = p :: (xs ++ ys) ∧
      t'.data = update t.data p data) ∨
    ((∀ p ∈ lru, ¬ t.Matches f hash key p) ∧ order = e :: lru ∧ t'.data = t.data)

theorem lruTouch_setSpace (p s : Nat) :
    lruTouch { t with spaceUsed := s } p = { lruTouch t p with spaceUsed := s } := by
  unfold lruTouch
  split <;> rfl

theorem lruTouch_same : SameEntries t (lruTouch t p) ∧ (lruTouch t p).spaceUsed = t.spaceUsed := by
  unfold lruTouch
  split <;> exact ⟨⟨rfl, rfl, rfl, rfl⟩, rfl⟩

section
variable (h : Inv f t lru bins)
include h

theorem Inv.lruhashInsert (he : e ∉ lru) (ok : Bool) :
    ∃ t' order bins', Inv f t' order bins' ∧
      Entered (f := f) t lru (t.hash e) (t.key e) (t.data e) e t' order ∧
      Storage.lruhashInsert f t (t.hash e) e (t.data e) ok = Storage.settle f t' ok := by
  cases hfind : (binFindEntry f t (t.binOf (t.hash e)) (t.hash e) (t.key e)).1 with
  | none =>
    have hno := binFindEntry_none h hfind
    refine ⟨_, _, _, h.addEntry he hno
      (c := (binFindEntry f t (t.binOf (t.hash e)) (t.hash e) (t.key e)).2),
      ⟨rfl, rfl, rfl, .inr ⟨hno, rfl, rfl⟩⟩, ?_⟩
    simp only [Storage.lruhashInsert, hfind]
    rfl
  | some p =>
    obtain ⟨hp, hm⟩ := binFindEntry_some h hfind
    obtain ⟨xs, ys, hl⟩ := append_of_mem hp
    obtain ⟨hsame, hsp⟩ := lruTouch_same
    have hi := (h.touch hl).setData (p := p) mem_cons_self (t.data e)
      (s := t.spaceUsed + f.sizefunc (t.key e) (t.data e) - t.entrySize f p)
      (by rw [hsame.key, hsp, hsame.entrySize, f.size_congr _ _ _ hm.2])
    refine ⟨_, _, _, hi, ⟨hsame.hash, hsame.key, hsame.spaceMax,
      .inl ⟨xs, p, ys, hl, hm, rfl, by rw [hsame.data]⟩⟩, ?_⟩
    simp only [Storage.lruhashInsert, hfind, lruTouch_setSpace]

theorem Inv.lruhashInsertOrRetrieve (he : e ∉ lru) (ok : Bool) :
    ∃ t' order bins', Inv f t' order bins' ∧
      (Storage.lruhashInsertOrRetrieve f t (t.hash e) e (t.data e) ok).1 =
        (Storage.settle f t' ok).1 := by
  cases hfind : (binFindEntry f t (t.binOf (t.hash e)) (t.hash e) (t.key e)).1 with
  | none =>
    refine ⟨_, _, _, h.addEntry he (binFindEntry_none h hfind)
      (c := (binFindEntry f t (t.binOf (t.hash e)) (t.hash e) (t.key e)).2), ?_⟩
    simp only [Storage.lruhashInsertOrRetrieve, hfind]
    rfl
  | some p =>
    refine ⟨_, _, _, h, ?_⟩
    simp only [Storage.lruhashInsertOrRetrieve, hfind]

theorem Inv.lruhashLookup (hash : UInt32) (key : K) :
    (∃ xs p ys, lru = xs ++ p :: ys ∧ t.Matches f hash key p ∧
      (Storage.lruhashLookup f t hash key).2 = some p ∧
      Inv f (Storage.lruhashLookup f t hash key).1 (p :: (xs ++ ys)) bins ∧
      SameEntries t (Storage.lruhashLookup f t hash key).1) ∨
    ((∀ p ∈ lru, ¬ t.Matches f hash key p) ∧ Storage.lruhashLookup f t hash key = (t, none)) := by
  cases hfind : (binFindEntry f t (t.binOf hash) hash key).1 with
  | none =>
    refine .inr ⟨binFindEntry_none h hfind, ?_⟩
    simp only [Storage.lruhashLookup, hfind]
  | some p =>
    obtain ⟨hp, hm⟩ := binFindEntry_some h hfind
    obtain ⟨xs, ys, hl⟩ := append_of_mem hp
    refine .inl ⟨xs, p, ys, hl, hm, ?_⟩
    simp only [Storage.lruhashLookup, hfind]
    exact ⟨trivial, h.touch hl, lruTouch_same.1⟩

theorem Inv.lruhashRemove (hash : UInt32) (key : K) :
    (∃ xs p ys, lru = xs ++ p :: ys ∧ t.Matches f hash key p ∧
      Inv f (Storage.lruhashRemove f t hash key) (xs ++ ys) (fun i => (bins i).erase p) ∧
      SameEntries t (Storage.lruhashRemove f t hash key)) ∨
    ((∀ p ∈ lru, ¬ t.Matches f hash key p) ∧ Storage.lruhashRemove f t hash key = t) := by
  cases hfind : (binFindEntry f t (t.binOf hash) hash key).1 with
  | none =>
    refine .inr ⟨binFindEntry_none h hfind, ?_⟩
    simp only [Storage.lruhashRemove, hfind]
  | some p =>
    obtain ⟨hp, hm⟩ := binFindEntry_some h hfind
    obtain ⟨xs, ys, hl⟩ := append_of_mem hp
    have hlinks : t.lru.Reads (xs ++ p :: ys) := hl ▸ h.links
    refine .inl ⟨xs, p, ys, hl, hm, ?_⟩
    simp only [Storage.lruhashRemove, hfind]
    refine ⟨h.removed (l := t.lru.remove p) hl (Nat.le_succ t.num) ?_ hlinks.remove,
      ⟨rfl, rfl, rfl, rfl⟩⟩
    rw [hm.1]
    rfl

theorem Inv.lruhashClear : Inv f (lruhashClear t) [] (fun _ => []) where
  pow := h.pow
  mask := h.mask
  links := ⟨rfl, rfl⟩
  chains i hi := if_pos hi
  mem_bins i hi p := by simp
  distinct := .nil
  num_eq := rfl
  space_eq := rfl

end

theorem Inv.lruhashCreate (hash : Nat → UInt32) (key : Nat → K) (data : Nat → D) :
    Inv f (lruhashCreate (2 ^ k) maxmem hash key data) [] (fun _ => []) where
  pow := ⟨k, rfl⟩
  mask := rfl
  links := ⟨rfl, rfl⟩
  chains _ _ := rfl
  mem_bins i hi p := by simp
  distinct := .nil
  num_eq := rfl
  space_eq := rfl

end ops

/-- A call on a table. An inserted entry comes with the fields its caller has filled in. -/
inductive Op (K D : Type) where
  | insert (hash : UInt32) (entry : Nat) (key : K) (data : D) (callocOk : Bool)
  | insertOrRetrieve (hash : UInt32) (entry : Nat) (key : K) (data : D) (callocOk : Bool)
  | lookup (hash : UInt32) (key : K)
  | remove (hash : UInt32) (key : K)
  | clear
  | touch (entry : Nat)
  | demote (entry : Nat)

section run
variable {K D : Type} (f : LruFuncs K D)

def LruHash.entries (t : LruHash K D) : List Nat := walk t.lru.next t.num t.lru.first

/-- Inserted entries are new, and touched or demoted ones are in the table. -/
def Op.Legal (t : LruHash K D) : Op K D → Prop
  | .insert _ entry _ _ _ => entry ∉ t.entries
  | .insertOrRetrieve _ entry _ _ _ => entry ∉ t.entries
  | .touch entry => entry ∈ t.entries
  | .demote entry => entry ∈ t.entries
  | _ => True

instance (t : LruHash K D) : (op : Op K D) → Decidable (op.Legal t)
  | .insert _ entry _ _ _ => inferInstanceAs (Decidable (entry ∉ t.entries))
  | .insertOrRetrieve _ entry _ _ _ => inferInstanceAs (Decidable (entry ∉ t.entries))
  | .touch entry => inferInstanceAs (Decidable (entry ∈ t.entries))
  | .demote entry => inferInstanceAs (Decidable (entry ∈ t.entries))
  | .lookup _ _ => inferInstanceAs (Decidable True)
  | .remove _ _ => inferInstanceAs (Decidable True)
  | .clear => inferInstanceAs (Decidable True)

def Op.isInsert : Op K D → Bool
  | .insert .. => true
  | .insertOrRetrieve .. => true
  | _ => false

def step (t : LruHash K D) : Op K D → LruHash K D
  | .insert hash entry key data ok =>
    (lruhashInsert f (t.present entry hash key data) hash entry data ok).1
  | .insertOrRetrieve hash entry key data ok =>
    (lruhashInsertOrRetrieve f (t.present entry hash key data) hash entry data ok).1
  | .lookup hash key => (lruhashLookup f t hash key).1
  | .remove hash key => lruhashRemove f t hash key
  | .clear => lruhashClear t
  | .touch entry => lruTouch t entry
  | .demote entry => lruDemote t entry

def run (t : LruHash K D) (ops : List (Op K D)) : LruHash K D := ops.foldl (step f) t

def LegalRun (t : LruHash K D) : List (Op K D) → Prop
  | [] => True
  | op :: ops => op.Legal t ∧ LegalRun (step f t op) ops

instance LegalRun.decidable : (t : LruHash K D) → (ops : List (Op K D)) →
    Decidable (LegalRun f t ops)
  | _, [] => inferInstanceAs (Decidable True)
  | t, op :: ops => @instDecidableAnd _ _ _ (LegalRun.decidable (step f t op) ops)

variable {f} {t : LruHash K D} {lru : List Nat} {bins : Nat → List Nat}

theorem Inv.entries_eq (h : Inv f t lru bins) : t.entries = lru :=
  h.links.fwd.walk_eq (Nat.le_of_eq h.num_eq.symm)

theorem present_entry {key : K} (hash : UInt32) :
    (t.present e hash key data).hash e = hash ∧ (t.present e hash key data).key e = key ∧
      (t.present e hash key data).data e = data :=
  ⟨update_self .., update_self .., update_self ..⟩

theorem Inv.settle_fits (h : Inv f t lru bins) :
    ∃ lru' bins', Inv f (Storage.settle f t ok).1 lru' bins' ∧
      ((Storage.settle f t ok).1.spaceUsed ≤ (Storage.settle f t ok).1.spaceMax ∨
        (Storage.settle f t ok).1.num ≤ 1) := by
  obtain ⟨kept, ev, bins', hr, hi⟩ := h.settle ok
  refine ⟨kept, bins', hi, ?_⟩
  rw [hi.num_eq, hr.same.spaceMax]
  exact hr.fits

theorem Inv.step (h : Inv f t lru bins) (hop : op.Legal t) :
    ∃ lru' bins', Inv f (Storage.step f t op) lru' bins' ∧ (op.isInsert = true →
      (Storage.step f t op).spaceUsed ≤ (Storage.step f t op).spaceMax ∨
        (Storage.step f t op).num ≤ 1) := by
  cases op with
  | insert hash e key data ok =>
    have he : e ∉ lru := by rw [← h.entries_eq]; exact hop
    obtain ⟨h1, -, h3⟩ := present_entry hash
    have hp := h.present he hash key data
    obtain ⟨t', order, bins', hi, -, heq⟩ := hp.lruhashInsert he ok
    rw [h1, h3] at heq
    obtain ⟨lru', bins', hi', hfit⟩ := hi.settle_fits
    rw [Storage.step, heq]
    exact ⟨lru', bins', hi', fun _ => hfit⟩
  | insertOrRetrieve hash e key data ok =>
    have he : e ∉ lru := by rw [← h.entries_eq]; exact hop
    obtain ⟨h1, -, h3⟩ := present_entry hash
    have hp := h.present he hash key data
    obtain ⟨t', order, bins', hi, heq⟩ := hp.lruhashInsertOrRetrieve he ok
    rw [h1, h3] at heq
    obtain ⟨lru', bins', hi', hfit⟩ := hi.settle_fits
    rw [Storage.step, heq]
    exact ⟨lru', bins', hi', fun _ => hfit⟩
  | lookup hash key =>
    rcases h.lruhashLookup hash key with ⟨xs, p, ys, -, -, -, hi, -⟩ | ⟨-, heq⟩
    · exact ⟨_, _, hi, nofun⟩
    · rw [Storage.step, heq]
      exact ⟨_, _, h, nofun⟩
  | remove hash key =>
    rcases h.lruhashRemove hash key with ⟨xs, p, ys, -, -, hi, -⟩ | ⟨-, heq⟩
    · exact ⟨_, _, hi, nofun⟩
    · rw [Storage.step, heq]
      exact ⟨_, _, h, nofun⟩
  | clear => exact ⟨_, _, h.lruhashClear, nofun⟩
  | touch e =>
    have he : e ∈ lru := by rw [← h.entries_eq]; exact hop
    obtain ⟨xs, ys, hl⟩ := List.append_of_mem he
    exact ⟨_, _, h.touch hl, nofun⟩
  | demote e =>
    have he : e ∈ lru := by rw [← h.entries_eq]; exact hop
    obtain ⟨xs, ys, hl⟩ := List.append_of_mem he
    exact ⟨_, _, h.demote hl, nofun⟩

theorem Inv.run (h : Inv f t lru bins) (hops : LegalRun f t ops) :
    ∃ lru' bins', Inv f (Storage.run f t ops) lru' bins' ∧
      ∀ ops' op, ops = ops' ++ [op] → op.isInsert = true →
        (Storage.run f t ops).spaceUsed ≤ (Storage.run f t ops).spaceMax ∨
          (Storage.run f t ops).num ≤ 1 := by
  induction ops generalizing t lru bins with
  | nil => exact ⟨lru, bins, h, fun ops' op he => by simp at he⟩
  | cons op ops ih =>
    obtain ⟨lru', bins', h', hfit⟩ := h.step hops.1
    obtain ⟨lru'', bins'', h'', hfit'⟩ := ih h' hops.2
    refine ⟨lru'', bins'', h'', fun ops' op' he hins => ?_⟩
    cases ops' with
    | nil =>
      obtain ⟨rfl, rfl⟩ := List.cons.inj he
      exact hfit hins
    | cons _ ops' => exact hfit' ops' op' (List.cons.inj he).2 hins

theorem Inv.sizeMaskInt (h : Inv f t lru bins) (hs : t.size ≤ 2 ^ 31) :
    t.sizeMaskInt = (t.size : Int) - 1 := by
  have hpos := h.size_pos
  have hm : t.sizeMask.toNat = t.size - 1 := by
    rw [h.mask, UInt32.toNat_ofNat', Nat.mod_eq_of_lt (by omega)]
  rw [LruHash.sizeMaskInt, hm, if_pos (by omega)]
  omega

/-- What every sequence of legal calls keeps true of a table. -/
theorem lruhash_run_invariant (f : LruFuncs K D) (k maxmem : Nat) (hash : Nat → UInt32)
    (key : Nat → K) (data : Nat → D) (ops : List (Op K D))
    (hops : LegalRun f (lruhashCreate (2 ^ k) maxmem hash key data) ops) :
    ∃ lru bins, let t := run f (lruhashCreate (2 ^ k) maxmem hash key data) ops
      Inv f t lru bins ∧ lru.Nodup ∧ (∀ i < t.size, (bins i).Nodup) ∧
      (t.size ≤ 2 ^ 31 → t.sizeMaskInt = (t.size : Int) - 1) ∧
      ∀ ops' op, ops = ops' ++ [op] → op.isInsert = true →
        t.spaceUsed ≤ t.spaceMax ∨ t.num ≤ 1 := by
  obtain ⟨lru, bins, h, hfit⟩ := (Inv.lruhashCreate hash key data).run hops
  exact ⟨lru, bins, h, h.nodup, fun i hi => (h.chains i hi).nodup, h.sizeMaskInt, hfit⟩

end run

def natFuncs : LruFuncs Nat Nat where
  sizefunc _ d := d
  compfunc a b := if a = b then 0 else 1
  equiv := ⟨fun a => if_pos rfl, fun {a b} h => by grind, fun {a b c} h h' => by grind⟩
  size_congr _ _ _ _ := rfl

theorem lruhash_sizeMask_truncated :
    (run natFuncs (lruhashCreate (2 ^ 32) 100 (fun _ => 0) id id) [.lookup 7 3]).sizeMaskInt ≠
      ((run natFuncs (lruhashCreate (2 ^ 32) 100 (fun _ => 0) id id) [.lookup 7 3]).size : Int) - 1 := by
  decide

theorem lruhash_run_invariant_example :
    ∃ lru bins, Inv natFuncs (run natFuncs (lruhashCreate (2 ^ 1) 12 (fun _ => 0) id id)
      [.insert 5 0 10 4 true, .insert 7 1 11 4 true, .lookup 5 10, .insert 9 2 12 6 true,
        .demote 2]) lru bins := by
  obtain ⟨lru, bins, h, -⟩ := lruhash_run_invariant natFuncs 1 12 (fun _ => 0) id id
    [.insert 5 0 10 4 true, .insert 7 1 11 4 true, .lookup 5 10, .insert 9 2 12 6 true,
      .demote 2] (by decide)
  exact ⟨lru, bins, h⟩

inductive MapOp (K D : Type) where
  | insert (hash : UInt32) (entry : Nat) (key : K) (data : D) (callocOk : Bool)
  | lookup (hash : UInt32) (key : K)
  | remove (hash : UInt32) (key : K)

section refinement
variable {K D : Type} (f : LruFuncs K D)

def MapOp.toOp : MapOp K D → Op K D
  | .insert hash entry key data ok => .insert hash entry key data ok
  | .lookup hash key => .lookup hash key
  | .remove hash key => .remove hash key

/-- Two hashed keys that the table does not tell apart. -/
def SameKey (a b : UInt32 × K) : Prop := a.1 = b.1 ∧ f.compfunc a.2 b.2 = 0

instance : DecidableRel (SameKey f) := fun a b =>
  inferInstanceAs (Decidable (a.1 = b.1 ∧ f.compfunc a.2 b.2 = 0))

theorem sameKey_equivalence : Equivalence (SameKey f) where
  refl a := ⟨rfl, f.equiv.refl a.2⟩
  symm h := ⟨h.1.symm, f.equiv.symm h.2⟩
  trans h h' := ⟨h.1.trans h'.1, f.equiv.trans h.2 h'.2⟩

def LruHash.keyOf (t : LruHash K D) (p : Nat) : UInt32 × K := (t.hash p, t.key p)

def LruHash.contents (t : LruHash K D) (p : Nat) : (UInt32 × K) × D := (t.keyOf p, t.data p)

def contentSize (e : (UInt32 × K) × D) : Nat := f.sizefunc e.1.2 e.2

def evicted (t : LruHash K D) (hash : UInt32) (entry : Nat) (key : K) (data : D) (ok : Bool) :
    List ((UInt32 × K) × D) :=
  let r := lruhashInsert f (t.present entry hash key data) hash entry data ok
  (walk r.1.overflowNext (t.num + 1) r.2).map r.1.contents

def observe (t : LruHash K D) : MapOp K D → Event (UInt32 × K) D
  | .insert hash entry key data ok =>
    .insert (hash, key) data ((evicted f t hash entry key data ok).map Prod.fst)
  | .lookup hash key => .lookup (hash, key) (lruhashLookup f t hash key).2.isSome
  | .remove hash key => .remove (hash, key)

def observeRun (t : LruHash K D) (h : List (Event (UInt32 × K) D)) :
    List (MapOp K D) → LruHash K D × List (Event (UInt32 × K) D)
  | [] => (t, h)
  | op :: ops => observeRun (step f t op.toOp) (observe f t op :: h) ops

variable {f} {t : LruHash K D} {lru : List Nat}

theorem SameEntries.contents (hs : SameEntries t t') : t'.contents = t.contents := by
  funext p
  rw [LruHash.contents, LruHash.contents, LruHash.keyOf, LruHash.keyOf, hs.hash, hs.key, hs.data]

theorem sum_contentSize (xs : List Nat) :
    ((xs.map t.contents).map (contentSize f)).sum = (xs.map (t.entrySize f)).sum := by
  rw [map_map]
  rfl

theorem without_contents_of_none {hash : UInt32} {key : K}
    (hno : ∀ p ∈ lru, ¬ t.Matches f hash key p) :
    without (SameKey f) (hash, key) (lru.map t.contents) = lru.map t.contents := by
  refine without_of_forall fun e he => ?_
  obtain ⟨p, hp, rfl⟩ := mem_map.1 he
  exact hno p hp

theorem present_contents {key : K} (he : e ∉ lru) (hash : UInt32) :
    lru.map (t.present e hash key data).contents = lru.map t.contents := by
  refine map_congr_left fun q hq => ?_
  have hqe : q ≠ e := ne_of_mem_of_not_mem hq he
  simp only [LruHash.contents, LruHash.keyOf, LruHash.present, update_of_ne hqe]

theorem Entered.recent {hash : UInt32} {key : K}
    (hin : Entered (f := f) t lru hash key data e t' order) (he : e ∉ lru) (hnd : lru.Nodup)
    (hhash : t.hash e = hash) (hkey : t.key e = key) (hdata : t.data e = data)
    (hr : Recent (SameKey f) h (lru.map t.contents)) :
    Recent (SameKey f) (.insert (hash, key) data [] :: h) (order.map t'.contents) := by
  have heqv := sameKey_equivalence f
  have hkeyOf : t'.keyOf = t.keyOf := by
    funext p
    rw [LruHash.keyOf, LruHash.keyOf, hin.hash_eq, hin.key_eq]
  rcases hin.cases with ⟨xs, p, ys, rfl, hm, rfl, hd⟩ | ⟨hno, rfl, hd⟩
  · have hp : p ∉ xs ++ ys := (nodup_cons.1 (nodup_middle.1 hnd)).1
    rw [map_append, map_cons] at hr
    have hins := hr.insert heqv (show SameKey f (t.keyOf p) (hash, key) from hm) data
    rw [hr.without_split heqv (k := (hash, key)) hm] at hins
    have hrest : (xs ++ ys).map t'.contents = xs.map t.contents ++ ys.map t.contents := by
      rw [← map_append]
      refine map_congr_left fun q hq => ?_
      rw [LruHash.contents, LruHash.contents, hkeyOf, hd, update_of_ne (ne_of_mem_of_not_mem hq hp)]
    rw [map_cons, hrest, LruHash.contents, hkeyOf, hd, update_self]
    exact hins
  · have hins := hr.insert heqv
      (show SameKey f (t.keyOf e) (hash, key) from ⟨hhash, hkey ▸ f.equiv.refl _⟩) data
    rw [without_contents_of_none hno] at hins
    have hcont : t'.contents = t.contents := by
      funext p
      rw [LruHash.contents, LruHash.contents, hkeyOf, hd]
    rw [map_cons, hcont, LruHash.contents, hdata]
    exact hins

/-- The shortest end of `order` whose eviction leaves entries that fit, keeping at least one. -/
structure ShortestEviction (spaceMax : Nat) (order kept ev : List ((UInt32 × K) × D)) : Prop where
  split : order = kept ++ ev
  keep : kept ≠ []
  fits : (kept.map (contentSize f)).sum ≤ spaceMax ∨ kept.length = 1
  shortest : ∀ j, kept.length < j → j ≤ order.length →
    spaceMax < ((order.take j).map (contentSize f)).sum

theorem Inv.insert_refines (hi : Inv f t lru bins) (he : e ∉ lru) (hash : UInt32) (key : K)
    (data : D) (ok : Bool) (hr : Recent (SameKey f) h (lru.map t.contents)) :
    ∃ lru' bins' order,
      let t' := Storage.step f t (.insert hash e key data ok)
      Inv f t' lru' bins' ∧ t'.spaceMax = t.spaceMax ∧
      Recent (SameKey f) (.insert (hash, key) data [] :: h) order ∧
      ShortestEviction (f := f) t.spaceMax order (lru'.map t'.contents)
        (evicted f t hash e key data ok) := by
  obtain ⟨hhash, hkey, hdata⟩ := present_entry hash
  have hp := hi.present he hash key data
  rw [← present_contents he hash] at hr
  obtain ⟨t₁, order, bins₁, hi₁, hent, heq⟩ := hp.lruhashInsert he ok
  rw [hhash, hkey, hdata] at hent
  rw [hhash, hdata] at heq
  have hrec := hent.recent he hi.nodup hhash hkey hdata hr
  obtain ⟨kept, ev, bins', hrc, hi'⟩ := hi₁.settle ok
  have hcont := hrc.same.contents
  have hlen : ev.length ≤ t.num + 1 := by
    have h1 : order.length ≤ lru.length + 1 := by
      rcases hent.cases with ⟨xs, p, ys, rfl, -, rfl, -⟩ | ⟨-, rfl, -⟩ <;> simp
    have h2 := congrArg length hrc.split
    rw [length_append] at h2
    have := hi.num_eq
    omega
  have hev : evicted f t hash e key data ok = ev.map t₁.contents := by
    rw [evicted, heq, Chain.walk_eq (by simpa using hrc.list) hlen, hcont]
  have hmax : t₁.spaceMax = t.spaceMax := hent.spaceMax
  refine ⟨kept, bins', order.map t₁.contents, ?_, ?_, hrec, ?_⟩
  · rw [Storage.step, heq]
    exact hi'
  · rw [Storage.step, heq]
    exact hrc.same.spaceMax.trans hmax
  rw [Storage.step, heq, hcont, hev]
  have hne : order ≠ [] := by
    rcases hent.cases with ⟨xs, p, ys, -, -, rfl, -⟩ | ⟨-, rfl, -⟩ <;> simp
  have hkne := hrc.keep hne
  refine ⟨by rw [hrc.split, map_append], by simpa using hkne, ?_, fun j h1 h2 => ?_⟩
  · rw [sum_contentSize, length_map, ← hrc.same.entrySize, ← hi'.space_eq, ← hmax]
    have := length_pos_iff.2 hkne
    have := hrc.fits
    omega
  · rw [← map_take, sum_contentSize, ← hmax]
    exact hrc.shortest j (by simpa using h1) (by simpa using h2)

theorem Inv.observe (hi : Inv f t lru bins) {op : MapOp K D} (hop : op.toOp.Legal t)
    (hr : Recent (SameKey f) h (lru.map t.contents)) :
    ∃ lru' bins', Inv f (Storage.step f t op.toOp) lru' bins' ∧
      Recent (SameKey f) (Storage.observe f t op :: h)
        (lru'.map (Storage.step f t op.toOp).contents) := by
  have heqv := sameKey_equivalence f
  cases op with
  | insert hash e key data ok =>
    have he : e ∉ lru := by rw [← hi.entries_eq]; exact hop
    obtain ⟨lru', bins', order, hi', -, hrec, hev⟩ := hi.insert_refines he hash key data ok hr
    rw [hev.split] at hrec
    exact ⟨lru', bins', hi', hrec.evict heqv⟩
  | lookup hash key =>
    rcases hi.lruhashLookup hash key with ⟨xs, p, ys, rfl, hm, hfound, hi', hsame⟩ | ⟨-, heq⟩
    · refine ⟨_, _, hi', ?_⟩
      have hlook := hr.lookup heqv (k := (hash, key)) (e := t.contents p)
        (mem_map_of_mem (by simp)) hm
      rw [map_append, map_cons] at hr hlook
      rw [hr.without_split heqv (k := (hash, key)) hm, ← map_append] at hlook
      rw [Storage.observe, hfound, MapOp.toOp, Storage.step, hsame.contents]
      exact hlook
    · refine ⟨lru, bins, ?_⟩
      rw [Storage.observe, MapOp.toOp, Storage.step, heq]
      exact ⟨hi, hr.miss⟩
  | remove hash key =>
    have hrem := hr.remove heqv (hash, key)
    rcases hi.lruhashRemove hash key with ⟨xs, p, ys, rfl, hm, hi', hsame⟩ | ⟨hno, heq⟩
    · refine ⟨_, _, hi', ?_⟩
      rw [map_append, map_cons] at hr hrem
      rw [hr.without_split heqv (k := (hash, key)) hm, ← map_append] at hrem
      rw [MapOp.toOp, Storage.step, hsame.contents]
      exact hrem
    · rw [without_contents_of_none hno] at hrem
      rw [MapOp.toOp, Storage.step, heq]
      exact ⟨lru, bins, hi, hrem⟩

theorem Inv.observeRun (hi : Inv f t lru bins) (hops : LegalRun f t (ops.map MapOp.toOp))
    (hr : Recent (SameKey f) h (lru.map t.contents)) :
    ∃ lru' bins', Inv f (Storage.observeRun f t h ops).1 lru' bins' ∧
      Recent (SameKey f) (Storage.observeRun f t h ops).2
        (lru'.map (Storage.observeRun f t h ops).1.contents) := by
  induction ops generalizing t lru bins h with
  | nil => exact ⟨lru, bins, hi, hr⟩
  | cons op ops ih =>
    obtain ⟨lru', bins', hi', hr'⟩ := hi.observe hops.1 hr
    exact ih hi' hops.2 hr'

theorem Inv.lookup_data (hi : Inv f t lru bins) (hr : Recent (SameKey f) h (lru.map t.contents))
    (hash : UInt32) (key : K) :
    (Storage.lruhashLookup f t hash key).2.map t.data = dataOf (SameKey f) h (hash, key) := by
  rcases hi.lruhashLookup hash key with ⟨xs, p, ys, rfl, hm, hfound, -, -⟩ | ⟨hno, heq⟩
  · rw [hfound, (hr.data (hash, key) (t.data p)).2
      ⟨t.contents p, mem_map_of_mem (by simp), hm, rfl⟩]
    rfl
  · rw [heq]
    cases hd : dataOf (SameKey f) h (hash, key) with
    | none => rfl
    | some d =>
      obtain ⟨e, he, hek, -⟩ := (hr.data _ _).1 hd
      obtain ⟨p, hp, rfl⟩ := mem_map.1 he
      exact absurd hek (hno p hp)

/-- Through lookups a table is a bounded map with least-recently-used eviction. -/
theorem lruhash_refines_lru_map (f : LruFuncs K D) (k maxmem : Nat) (hash : Nat → UInt32)
    (key : Nat → K) (data : Nat → D) (ops : List (MapOp K D))
    (hops : LegalRun f (lruhashCreate (2 ^ k) maxmem hash key data) (ops.map MapOp.toOp)) :
    let r := observeRun f (lruhashCreate (2 ^ k) maxmem hash key data) [] ops
    (∀ hash key, (lruhashLookup f r.1 hash key).2.map r.1.data =
      dataOf (SameKey f) r.2 (hash, key)) ∧
    ∀ hash e key data ok, e ∉ r.1.entries → ∃ order kept,
      Recent (SameKey f) (.insert (hash, key) data [] :: r.2) order ∧
      ShortestEviction (f := f) r.1.spaceMax order kept (evicted f r.1 hash e key data ok) := by
  obtain ⟨lru, bins, hi, hr⟩ := (Inv.lruhashCreate hash key data).observeRun hops .nil
  refine ⟨hi.lookup_data hr, fun hash e key data ok he => ?_⟩
  rw [hi.entries_eq] at he
  obtain ⟨lru', bins', order, -, -, hrec, hev⟩ := hi.insert_refines he hash key data ok hr
  exact ⟨order, _, hrec, hev⟩

theorem lruhash_refines_lru_map_example :
    let r := observeRun natFuncs (lruhashCreate (2 ^ 1) 10 (fun _ => 0) id id) []
      [.insert 5 0 10 4 true, .insert 7 1 11 4 true, .lookup 5 10, .insert 9 2 12 6 true]
    (lruhashLookup natFuncs r.1 5 10).2.map r.1.data = some 4 ∧
    (lruhashLookup natFuncs r.1 7 11).2.map r.1.data = none ∧
    dataOf (SameKey natFuncs) r.2 (5, 10) = some 4 := by
  have h := (lruhash_refines_lru_map natFuncs 1 10 (fun _ => 0) id id
    [.insert 5 0 10 4 true, .insert 7 1 11 4 true, .lookup 5 10, .insert 9 2 12 6 true]
    (by decide)).1
  exact ⟨by decide, by decide, (h 5 10).symm.trans (by decide)⟩

end refinement

end CwdGate.Storage
