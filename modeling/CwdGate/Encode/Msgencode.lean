import CwdGate.Lib.Prog
import CwdGate.Packet.RrDef

namespace CwdGate.Encode
open Std Lib List

/-- What stays of `struct compress_tree_node`. A pointer is the list of the node and its zone
parents. -/
structure CompressNode where
  dname : Name
  labs : Nat
  offset : Nat
  deriving DecidableEq

inductive CompressTree
  | null
  | node (left : CompressTree) (self : CompressNode) (parents : List CompressNode)
      (right : CompressTree)

/-- What `compress_tree_search` finds; `insertpt` is the tree with a hole. -/
inductive SearchResult
  | exact (match_ : List CompressNode) (matchlabels : Nat)
  | closest (match_ : List CompressNode) (matchlabels : Nat)
      (insertpt : CompressTree → CompressTree)

def compressTreeSearch (dname : Name) (labs : Nat) : CompressTree → List CompressNode → Nat →
    (CompressTree → CompressTree) → SearchResult
  | .null, close, closen, prev => .closest close closen prev
  | .node left p parents right, close, closen, prev =>
    match dnameLabCmp dname labs p.dname p.labs with
    | (.eq, n) => .exact (p :: parents) n
    | (.lt, _) =>
      compressTreeSearch dname labs left close closen fun v => prev (.node v p parents right)
    | (.gt, n) =>
      compressTreeSearch dname labs right (p :: parents) n fun v => prev (.node left p parents v)

/-- `compress_tree_lookup`, with the insert point when it sets one. -/
def compressTreeLookup (tree : CompressTree) (dname : Name) (labs : Nat) :
    List CompressNode × Option (CompressTree → CompressTree) :=
  if labs ≤ 1 then ([], none)
  else match compressTreeSearch dname labs tree [] 0 id with
    | .exact p _ => (p, none)
    | .closest p m insertpt =>
      (if m > 1 then p.dropWhile fun q => decide (q.labs > m) else [], some insertpt)

/-- The vine that `compress_tree_store` builds, given its nodes from the top down. -/
def vineTree : List CompressNode → List CompressNode → CompressTree
  | _, [] => .null
  | parents, n :: vine => .node .null n parents (vineTree (n :: parents) vine)

namespace CompressTree

/-- The nodes in tree order, each with its zone parents. -/
def inorder : CompressTree → List (CompressNode × List CompressNode)
  | .null => []
  | .node left p parents right => left.inorder ++ (p, parents) :: right.inorder

def keys (t : CompressTree) : List (List Label) := t.inorder.map fun e => key e.1.dname

end CompressTree

/-- `c` runs over the nodes for `k` and all its nonempty prefixes, the longest first. -/
def ZoneChain : List Label → List CompressNode → Prop
  | k, [] => k = []
  | k, n :: c => k ≠ [] ∧ key n.dname = k ∧ n.labs = k.length + 1 ∧ ZoneChain k.dropLast c

/-- The tree is sorted, closed under ancestors, and the `parent` links lead through all
ancestors. -/
structure TreeOk (t : CompressTree) : Prop where
  sorted : t.keys.Pairwise fun a b => a.compareLex labOrd b = .lt
  closed : ∀ k ∈ t.keys, ∀ j, 0 < j → k.take j ∈ t.keys
  chain : ∀ e ∈ t.inorder, ZoneChain (key e.1.dname) (e.1 :: e.2)

theorem TreeOk.null : TreeOk .null where
  sorted := .nil
  closed _ h := nomatch h
  chain _ h := nomatch h

theorem ZoneChain.labs_eq (h : ZoneChain k (n :: c)) : n.labs = dnameCountLabels n.dname := by
  obtain ⟨-, hk, hl, -⟩ := h
  rw [hl, ← hk, length_key]
  rfl

theorem ZoneChain.dropWhile (h : ZoneChain k c) (j : Nat) :
    ZoneChain (k.take j) (c.dropWhile fun q => decide (q.labs > j + 1)) := by
  induction c generalizing k with
  | nil =>
    rw [show k = [] from h, take_nil]
    rfl
  | cons n c ih =>
    obtain ⟨hne, hk, hl, hc⟩ := h
    by_cases hj : k.length ≤ j
    · rw [dropWhile_cons_of_neg (by simp only [hl, decide_eq_true_eq]; omega), take_of_length_le hj]
      exact ⟨hne, hk, hl, hc⟩
    · rw [dropWhile_cons_of_pos (by simp only [hl, decide_eq_true_eq]; omega)]
      have hd := ih hc
      rwa [dropLast_eq_take, take_take, Nat.min_eq_left (by omega)] at hd

section search
variable {t : CompressTree} {d : Name}

/-- An entry for the name, or its place and the entry before it. -/
def SearchSpec (t : CompressTree) (d : Name) (close : List CompressNode) (closen : Nat)
    (prev : CompressTree → CompressTree) : SearchResult → Prop
  | .exact p _ => ∃ e ∈ t.inorder, p = e.1 :: e.2 ∧ key e.1.dname = key d
  | .closest p m insertpt => ∃ before after, t.inorder = before ++ after ∧
      (∀ e ∈ before, (key e.1.dname).compareLex labOrd (key d) = .lt) ∧
      (∀ e ∈ after, (key d).compareLex labOrd (key e.1.dname) = .lt) ∧
      (∀ v, ∃ u, insertpt v = prev u ∧ u.inorder = before ++ v.inorder ++ after) ∧
      (before = [] → p = close ∧ m = closen) ∧
      ∀ e, before.getLast? = some e → p = e.1 :: e.2 ∧ m = commonLen (key d) (key e.1.dname) + 1

theorem search_spec (hs : t.keys.Pairwise fun a b => a.compareLex labOrd b = .lt)
    (hl : ∀ e ∈ t.inorder, e.1.labs = dnameCountLabels e.1.dname) (close : List CompressNode)
    (closen : Nat) (prev : CompressTree → CompressTree) :
    SearchSpec t d close closen prev
      (compressTreeSearch d (dnameCountLabels d) t close closen prev) := by
  induction t generalizing close closen prev with
  | null =>
    refine ⟨[], [], rfl, nofun, nofun, fun v => ⟨v, rfl, ?_⟩, fun _ => ⟨rfl, rfl⟩, nofun⟩
    simp
  | node left p parents right ihl ihr =>
    have hp := hl (p, parents) (mem_append_right _ mem_cons_self)
    simp only [CompressTree.keys, CompressTree.inorder, map_append, map_cons,
      pairwise_append, pairwise_cons] at hs
    obtain ⟨hsl, ⟨hpr, hsr⟩, hlr⟩ := hs
    have ihl := ihl hsl fun e he => hl e (mem_append_left _ he)
    have ihr := ihr hsr fun e he => hl e (mem_append_right _ (mem_cons_of_mem _ he))
    have hleft : ∀ e ∈ left.inorder, (key e.1.dname).compareLex labOrd (key p.dname) = .lt :=
      fun e he => hlr _ (mem_map_of_mem he) _ mem_cons_self
    have hright : ∀ e ∈ right.inorder, (key p.dname).compareLex labOrd (key e.1.dname) = .lt :=
      fun e he => hpr _ (mem_map_of_mem he)
    unfold compressTreeSearch
    rw [hp, dnameLabCmp_spec]
    cases hc : (key d).compareLex labOrd (key p.dname) with
    | eq =>
      refine ⟨(p, parents), mem_append_right _ mem_cons_self, rfl, ?_⟩
      exact (LawfulEqCmp.eq_of_compare hc).symm
    | lt =>
      have h := ihl close closen fun v => prev (.node v p parents right)
      generalize compressTreeSearch d (dnameCountLabels d) left close closen _ = r at h ⊢
      cases r with
      | exact q m =>
        obtain ⟨e, he, hq⟩ := h
        exact ⟨e, mem_append_left _ he, hq⟩
      | closest q m insertpt =>
        obtain ⟨before, after, hio, hb, ha, hins, hnil, hlast⟩ := h
        refine ⟨before, after ++ (p, parents) :: right.inorder, ?_, hb, ?_, ?_, hnil, hlast⟩
        · simp [CompressTree.inorder, hio]
        · refine forall_mem_append.2 ⟨ha, forall_mem_cons.2 ⟨hc, ?_⟩⟩
          exact fun e he => TransCmp.lt_trans hc (hright e he)
        · intro v
          obtain ⟨u, hu, huio⟩ := hins v
          exact ⟨_, hu, by simp [CompressTree.inorder, huio]⟩
    | gt =>
      have hc' := OrientedCmp.lt_of_gt hc
      have h := ihr (p :: parents) (commonLen (key d) (key p.dname) + 1)
        fun v => prev (.node left p parents v)
      dsimp only
      generalize compressTreeSearch d (dnameCountLabels d) right _ _ _ = r at h ⊢
      cases r with
      | exact q m =>
        obtain ⟨e, he, hq⟩ := h
        exact ⟨e, mem_append_right _ (mem_cons_of_mem _ he), hq⟩
      | closest q m insertpt =>
        obtain ⟨before, after, hio, hb, ha, hins, hnil, hlast⟩ := h
        refine ⟨left.inorder ++ (p, parents) :: before, after, ?_, ?_, ha, ?_, by simp, ?_⟩
        · simp [CompressTree.inorder, hio]
        · refine forall_mem_append.2 ⟨?_, forall_mem_cons.2 ⟨hc', hb⟩⟩
          exact fun e he => TransCmp.lt_trans (hleft e he) hc'
        · intro v
          obtain ⟨u, hu, huio⟩ := hins v
          exact ⟨_, hu, by simp [CompressTree.inorder, huio]⟩
        · intro e he
          cases before with
          | nil =>
            simp only [getLast?_append, getLast?_singleton, Option.some_or, Option.some.injEq] at he
            subst he
            exact hnil rfl
          | cons b before =>
            rw [getLast?_append_of_ne_nil _ (by simp), getLast?_cons_cons] at he
            exact hlast e he

end search

def CompressTree.All (G : CompressNode → Prop) (t : CompressTree) : Prop :=
  ∀ e ∈ t.inorder, ∀ n ∈ e.1 :: e.2, G n

/-- The longest ancestor in the tree, `j` labels long, and where the rest belongs. -/
structure LookupSpec (t : CompressTree) (d : Name) (p : List CompressNode)
    (insertpt : Option (CompressTree → CompressTree)) (j : Nat) : Prop where
  le : j ≤ d.length
  chain : ZoneChain ((key d).take j) p
  all : ∀ G, t.All G → ∀ n ∈ p, G n
  found : 0 < j → (key d).take j ∈ t.keys
  longest : ∀ i, j < i → i ≤ d.length → (key d).take i ∉ t.keys
  place : j < d.length → ∃ slot, insertpt = some slot ∧ ∃ before after,
    t.inorder = before ++ after ∧
    (∀ e ∈ before, (key e.1.dname).compareLex labOrd (key d) = .lt) ∧
    (∀ e ∈ after, (key d).compareLex labOrd (key e.1.dname) = .lt) ∧
    ∀ v, (slot v).inorder = before ++ v.inorder ++ after

theorem CompressTree.mem_keys {t : CompressTree} :
    k ∈ t.keys ↔ ∃ e ∈ t.inorder, key e.1.dname = k := List.mem_map

theorem take_key_lt_irrefl (hk : k = (key d).take i) : (key d).compareLex labOrd k ≠ .lt := by
  intro h
  have hle : (k.compareLex labOrd (key d)).isLE := hk ▸ prefix_isLE ( take_prefix i _)
  exact absurd (TransCmp.lt_of_lt_of_isLE h hle) (by simp [ReflCmp.compare_self])

theorem compressTreeLookup_spec {t : CompressTree} (ht : TreeOk t) :
    ∃ j, LookupSpec t d (compressTreeLookup t d (dnameCountLabels d)).1
      (compressTreeLookup t d (dnameCountLabels d)).2 j := by
  have hlabs : ∀ e ∈ t.inorder, e.1.labs = dnameCountLabels e.1.dname :=
    fun e he => (ht.chain e he).labs_eq
  have hs := search_spec (d := d) ht.sorted hlabs [] 0 id
  unfold compressTreeLookup
  by_cases hroot : dnameCountLabels d ≤ 1
  · have hd : d = [] := eq_nil_of_length_eq_zero (by unfold dnameCountLabels at hroot; omega)
    subst hd
    refine ⟨0, le_rfl, rfl, fun _ _ => forall_mem_nil _, by simp, fun i h1 h2 => ?_, by simp⟩
    exact absurd h2 (Nat.not_le.2 h1)
  rw [if_neg hroot]
  revert hs
  cases compressTreeSearch d (dnameCountLabels d) t [] 0 id with
  | exact p m =>
    rintro ⟨e, he, rfl, hk⟩
    have hfull : (key d).take d.length = key d := take_of_length_le (by simp)
    refine ⟨d.length, le_rfl, ?_, fun G hG n hn => hG e he n hn, fun _ => ?_,
      fun i h1 h2 => absurd h2 (Nat.not_le.2 h1), fun h => absurd h (lt_irrefl _)⟩
    · rw [hfull, ← hk]
      exact ht.chain e he
    · rw [hfull]
      exact CompressTree.mem_keys.2 ⟨e, he, hk⟩
  | closest p m slot =>
    rintro ⟨before, after, hio, hb, ha, hins, hnil, hlast⟩
    have hslot : ∀ v, (slot v).inorder = before ++ v.inorder ++ after := by
      intro v
      obtain ⟨u, hu, huio⟩ := hins v
      rw [hu]
      exact huio
    have hbefore : ∀ i, (key d).take i ∈ t.keys → ∃ e ∈ before, key e.1.dname = (key d).take i := by
      intro i hi
      obtain ⟨e, he, hk⟩ := CompressTree.mem_keys.1 hi
      rcases mem_append.1 (hio ▸ he) with he | he
      · exact ⟨e, he, hk⟩
      · exact absurd (ha e he) (take_key_lt_irrefl hk)
    rcases eq_nil_or_concat before with rfl | ⟨init, e, rfl⟩
    · obtain ⟨rfl, rfl⟩ := hnil rfl
      refine ⟨0, Nat.zero_le _, rfl, by simp, by simp, fun i _ _ hi => ?_,
        fun _ => ⟨slot, rfl, _, _, hio, hb, ha, hslot⟩⟩
      obtain ⟨e, he, -⟩ := hbefore i hi
      exact absurd he not_mem_nil
    · obtain ⟨rfl, rfl⟩ := hlast e (by simp)
      have he : e ∈ t.inorder := by rw [hio]; simp
      have hd := hb e (by simp)
      have htake : (key e.1.dname).take (commonLen (key d) (key e.1.dname)) =
          (key d).take (commonLen (key d) (key e.1.dname)) := (take_commonLen _ _).symm
      have hchain : ZoneChain ((key d).take (commonLen (key d) (key e.1.dname)))
          ((e.1 :: e.2).dropWhile fun q =>
            decide (q.labs > commonLen (key d) (key e.1.dname) + 1)) := by
        rw [← htake]
        exact (ht.chain e he).dropWhile _
      refine ⟨commonLen (key d) (key e.1.dname), ?_, ?_, ?_, ?_, ?_,
        fun _ => ⟨slot, rfl, _, _, hio, hb, ha, hslot⟩⟩
      · exact (commonLen_le_left _ _).trans (by simp)
      · dsimp only
        split
        · exact hchain
        · rw [show commonLen (key d) (key e.1.dname) = 0 by omega]
          rfl
      · intro G hG n hn
        dsimp only at hn
        split at hn
        · exact hG e he n ((dropWhile_sublist _).mem hn)
        · exact absurd hn not_mem_nil
      · intro h0
        rw [← htake]
        exact ht.closed _ (CompressTree.mem_keys.2 ⟨e, he, rfl⟩) _ h0
      intro i h1 h2 hi
      obtain ⟨e', he', hk⟩ := hbefore i hi
      have hle : ((key e'.1.dname).compareLex labOrd (key e.1.dname)).isLE := by
        rcases mem_append.1 (concat_eq_append ▸ he') with he' | he'
        · have hsorted := ht.sorted
          rw [CompressTree.keys, hio, map_append, concat_eq_append, map_append,
            pairwise_append, pairwise_append] at hsorted
          have hlt := hsorted.1.2.2 _ (mem_map_of_mem he') (key e.1.dname) (by simp)
          exact Ordering.isLE_of_eq_lt hlt
        · rw [mem_singleton.1 he']
          exact prefix_isLE (prefix_refl _)
      rw [hk] at hle
      have hpre := prefix_of_between (prefix_refl _) ( take_prefix i (key d)) hle
        (Ordering.isLE_of_eq_lt hd)
      have := length_le_commonLen ( take_prefix i (key d)) hpre
      rw [length_take, length_key, Nat.min_eq_left h2] at this
      omega

/-- `vine` runs over nodes for the prefixes of `k` longer than `j`, the shortest first. -/
def VineOk (k : List Label) : Nat → List CompressNode → Prop
  | j, [] => k.length ≤ j
  | j, n :: vine =>
    j < k.length ∧ key n.dname = k.take (j + 1) ∧ n.labs = j + 2 ∧ VineOk k (j + 1) vine

section vine
variable {k : List Label} {j : Nat} {parents vine : List CompressNode}

theorem mem_keys_vineTree (h : VineOk k j vine) (x : List Label) :
    x ∈ (vineTree parents vine).keys ↔ ∃ i, j < i ∧ i ≤ k.length ∧ x = k.take i := by
  induction vine generalizing j parents with
  | nil =>
    refine ⟨nofun, ?_⟩
    have h : k.length ≤ j := h
    omega
  | cons n vine ih =>
    obtain ⟨hj, hk, -, hv⟩ := h
    have hmem : x ∈ (vineTree parents (n :: vine)).keys ↔
        x = key n.dname ∨ x ∈ (vineTree (n :: parents) vine).keys := mem_cons
    rw [hmem, ih hv, hk]
    constructor
    · rintro (rfl | ⟨i, h1, h2, rfl⟩)
      · exact ⟨j + 1, by omega, hj, rfl⟩
      · exact ⟨i, by omega, h2, rfl⟩
    · rintro ⟨i, h1, h2, rfl⟩
      rcases Nat.lt_or_ge (j + 1) i with h | h
      · exact .inr ⟨i, h, h2, rfl⟩
      · exact .inl (by rw [show i = j + 1 by omega])

theorem take_lt_take (h : i < i') (hi : i' ≤ k.length) :
    (k.take i).compareLex labOrd (k.take i') = .lt := by
  apply prefix_lt
  · exact take_prefix_take_left (Nat.le_of_lt h)
  · rw [length_take, length_take]
    omega

theorem vineTree_sorted (h : VineOk k j vine) :
    (vineTree parents vine).keys.Pairwise fun a b => a.compareLex labOrd b = .lt := by
  induction vine generalizing j parents with
  | nil => exact .nil
  | cons n vine ih =>
    obtain ⟨hj, hk, -, hv⟩ := h
    refine pairwise_cons.2 ⟨?_, ih hv⟩
    intro x hx
    obtain ⟨i, h1, h2, rfl⟩ := (mem_keys_vineTree hv x).1 hx
    change (key n.dname).compareLex labOrd (k.take i) = .lt
    rw [hk]
    exact take_lt_take h1 h2

theorem vineTree_chain (h : VineOk k j vine) (hp : ZoneChain (k.take j) parents) :
    ∀ e ∈ (vineTree parents vine).inorder, ZoneChain (key e.1.dname) (e.1 :: e.2) := by
  induction vine generalizing j parents with
  | nil => exact nofun
  | cons n vine ih =>
    obtain ⟨hj, hk, hl, hv⟩ := h
    have hlen : (k.take (j + 1)).length = j + 1 := by
      rw [length_take]
      omega
    have hn : ZoneChain (k.take (j + 1)) (n :: parents) := by
      refine ⟨?_, hk, by rw [hl, hlen], ?_⟩
      · intro h0
        rw [h0] at hlen
        exact absurd hlen (by simp)
      · rw [dropLast_eq_take, hlen, Nat.add_sub_cancel, take_take, Nat.min_eq_left (by omega)]
        exact hp
    exact forall_mem_cons.2 ⟨hk.symm ▸ hn, ih hv hn⟩

theorem vineTree_all (hv : ∀ n ∈ vine, G n)
    (hp : ∀ n ∈ parents, G n) : (vineTree parents vine).All G := by
  induction vine generalizing parents with
  | nil => exact nofun
  | cons n vine ih =>
    obtain ⟨hn, hv⟩ := forall_mem_cons.1 hv
    have hn := forall_mem_cons.2 ⟨hn, hp⟩
    exact forall_mem_cons.2 ⟨hn, ih hv hn⟩

end vine

theorem TreeOk.hang {t : CompressTree} {d : Name} (ht : TreeOk t)
    (hl : LookupSpec t d p (some slot) j) (hj : j < d.length) (hv : VineOk (key d) j vine) :
    TreeOk (slot (vineTree p vine)) ∧ (∀ k, k ∈ (slot (vineTree p vine)).keys ↔
        k ∈ t.keys ∨ ∃ i, j < i ∧ i ≤ d.length ∧ k = (key d).take i) ∧
      ∀ G, t.All G → (∀ n ∈ vine, G n) → (slot (vineTree p vine)).All G := by
  obtain ⟨_, hs, before, after, hio, hb, ha, hslot⟩ := hl.place hj
  cases hs
  have hvk := @mem_keys_vineTree _ _ p _ hv
  rw [length_key] at hvk
  have hkeys : ∀ k, k ∈ (slot (vineTree p vine)).keys ↔
      k ∈ t.keys ∨ ∃ i, j < i ∧ i ≤ d.length ∧ k = (key d).take i := by
    intro k
    rw [← hvk]
    simp only [CompressTree.keys, hslot, hio, map_append, mem_append]
    tauto
  have hbelow : ∀ e ∈ before, ∀ i, j < i → i ≤ d.length →
      (key e.1.dname).compareLex labOrd ((key d).take i) = .lt := by
    intro e he i h1 h2
    refine lt_take_of_commonLen_lt (hb e he) (Nat.lt_of_le_of_lt ?_ h1) (by simpa using h2)
    rcases Nat.lt_or_ge j (commonLen (key e.1.dname) (key d)) with hc | hc
    · refine absurd ?_ (hl.longest _ hc ((commonLen_le_right _ _).trans (by simp)))
      rw [← take_commonLen]
      exact ht.closed _ (CompressTree.mem_keys.2 ⟨e, by rw [hio]; simp [he], rfl⟩) _ (by omega)
    · exact hc
  have habove : ∀ e ∈ after, ∀ i, ((key d).take i).compareLex labOrd (key e.1.dname) = .lt :=
    fun e he i => TransCmp.lt_of_isLE_of_lt (prefix_isLE ( take_prefix i _)) (ha e he)
  have hsorted := ht.sorted
  rw [CompressTree.keys, hio, map_append, pairwise_append] at hsorted
  have hmem : ∀ e ∈ (slot (vineTree p vine)).inorder,
      e ∈ t.inorder ∨ e ∈ (vineTree p vine).inorder := by
    intro e he
    rw [hslot] at he
    simp only [hio, mem_append] at he ⊢
    tauto
  refine ⟨⟨?_, ?_, ?_⟩, hkeys, ?_⟩
  · rw [CompressTree.keys, hslot, map_append, map_append, pairwise_append, pairwise_append]
    refine ⟨⟨hsorted.1, vineTree_sorted hv, ?_⟩, hsorted.2.1, ?_⟩
    · rintro x hx y hy
      obtain ⟨e, he, rfl⟩ := mem_map.1 hx
      obtain ⟨i, h1, h2, rfl⟩ := (hvk y).1 hy
      exact hbelow e he i h1 h2
    · rintro x hx y hy
      obtain ⟨e, he, rfl⟩ := mem_map.1 hy
      rcases mem_append.1 hx with hx | hx
      · exact hsorted.2.2 x hx _ hy
      · obtain ⟨i, -, -, rfl⟩ := (hvk x).1 hx
        exact habove e he i
  · intro k hk i hi
    rw [hkeys] at hk ⊢
    rcases hk with hk | ⟨i', h1, h2, rfl⟩
    · exact .inl (ht.closed k hk i hi)
    · rw [take_take]
      rcases Nat.lt_or_ge j (min i i') with hc | hc
      · exact .inr ⟨min i i', hc, by omega, rfl⟩
      · have hj0 : 0 < j := by omega
        have := ht.closed _ (hl.found hj0) (min i i') (by omega)
        rw [take_take, Nat.min_eq_left hc] at this
        exact .inl this
  · intro e he
    exact (hmem e he).elim (ht.chain e) (vineTree_chain hv hl.chain e)
  · intro G hG hGv e he
    exact (hmem e he).elim (hG e) (vineTree_all hGv (hl.all G hG) e)

theorem LookupSpec.mono (h : LookupSpec t d p ins j) (h' : LookupSpec t' d p' ins' j')
    (hsub : ∀ k ∈ t.keys, k ∈ t'.keys) : j ≤ j' := by
  rcases Nat.lt_or_ge j' j with hlt | hge
  · exact absurd (hsub _ (h.found (by omega))) (h'.longest j hlt h.le)
  · exact hge

/-- One record of a packed RRset: `rr_ttl[i]` and `rr_data[i]`. -/
structure PackedRr where
  ttl : Int
  data : List UInt8
  deriving Inhabited

/-- `struct ub_packed_rrset_key` with its data: `count` records, then `rrsig_count` signatures. -/
structure PackedRrset where
  dname : Name
  flags : UInt32
  type : UInt16
  rrsetClass : UInt16
  ttlAdd : Int
  rrs : List PackedRr
  rrsigs : List PackedRr
  dname_ok : ValidName dname
  rrs_ok : ∀ rr ∈ rrs, RdataOk (sldnsRrDescript type) rr.data
  rrsigs_ok : ∀ rr ∈ rrsigs, RdataOk (sldnsRrDescript 46) rr.data

/-- `struct query_info`; `inPacket`: `qname` points to octet 12 of the reply buffer. -/
structure QueryInfo where
  qname : Name
  qtype : UInt16
  qclass : UInt16
  localAlias : Option PackedRrset
  inPacket : Bool
  qname_ok : ValidName qname

structure ReplyInfo where
  flags : UInt16
  authoritative : Bool
  qdcount : UInt8
  an : List PackedRrset
  ns : List PackedRrset
  ar : List PackedRrset
  qdcount_ok : qdcount = 0 ∨ qdcount = 1

/-- The global settings that encoding reads, and `time(NULL)`. -/
structure EncodeConfig where
  serveExpired : Bool
  serveExpiredReplyTtl : Int
  serveOriginalTtl : Bool
  rrsetRoundrobin : Bool
  minimalResponses : Bool
  time : Int

inductive Section
  | answer | authority | additional
  deriving DecidableEq

inductive Retval
  | trunc | outmem
  deriving DecidableEq

/-- What `reply_info_encode` changes. `region` tells which allocations succeed; `names` and `ptrs`
record the names and pointers written. -/
structure EncState where
  pkt : Sbuffer
  tree : CompressTree
  region : Nat → Bool
  ancount : UInt16
  nscount : UInt16
  arcount : UInt16
  names : List (Nat × Name)
  ptrs : List (Nat × Nat)

variable (cfg : EncodeConfig) (dname : Name) (qinfo : QueryInfo) (rep : ReplyInfo)
  (key : PackedRrset)

abbrev Enc := Prog EncState Retval

def need (n : Nat) : Enc Unit := Prog.require (fun s => decide (n ≤ s.pkt.remaining)) .trunc

def emit (bytes : List UInt8) : Enc Unit :=
  Prog.update fun s => { s with pkt := s.pkt.write bytes }

def position : Enc Nat := Prog.read fun s => s.pkt.position

def recordName (pos : Nat) (dname : Name) : Enc Unit :=
  Prog.update fun s => { s with names := s.names ++ [(pos, dname)] }

def recordPtr (pos target : Nat) : Enc Unit :=
  Prog.update fun s => { s with ptrs := s.ptrs ++ [(pos, target)] }

def regionalAlloc : Enc Unit := fun s =>
  if s.region 0 then (.ok (), { s with region := fun i => s.region (i + 1) })
  else (.error .outmem, s)

def lablen : Nat := (dname.headD []).length

def hangVine (closest : List CompressNode) (insertpt : Option (CompressTree → CompressTree))
    (vine : List CompressNode) : Enc Unit :=
  match vine, insertpt with
  | n :: vine, some slot =>
    Prog.update fun s => { s with tree := slot (vineTree closest (n :: vine)) }
  | _, _ => pure ()

/-- The loop of `compress_tree_store`; the last node created stands first in the vine. -/
def compressTreeStoreLoop (closest : List CompressNode)
    (insertpt : Option (CompressTree → CompressTree)) :
    Nat → Name → Nat → Nat → List CompressNode → Enc Unit
  | 0, _, _, _, vine => hangVine closest insertpt vine
  | uplabs + 1, dname, labs, offset, vine =>
    if offset > 0x3fff then pure ()
    else do
      regionalAlloc
      compressTreeStoreLoop closest insertpt uplabs dname.tail (labs - 1)
        (offset + (lablen dname + 1)) (⟨dname, labs, offset⟩ :: vine)

/-- How many names `compress_tree_store` adds; the root is not stored. -/
def uplabsOf (labs : Nat) : List CompressNode → Nat
  | [] => labs - 1
  | closest :: _ => labs - closest.labs

def compressTreeStore (labs offset : Nat) (closest : List CompressNode)
    (insertpt : Option (CompressTree → CompressTree)) : Enc Unit :=
  compressTreeStoreLoop closest insertpt (uplabsOf labs closest) dname labs offset []

def copyLabels : Nat → Name → Enc Unit
  | 0, _ => pure ()
  | labcopy + 1, dname => do
    need (lablen dname + 1)
    emit ((lablen dname).toUInt8 :: dname.headD [])
    copyLabels labcopy dname.tail

def writeCompressedDname (labs : Nat) (p : CompressNode) : Enc Unit :=
  if labs = 1 then do
    need 1
    emit [0]
  else do
    let pos ← position
    copyLabels (labs - p.labs) dname
    need 2
    recordPtr pos p.offset
    emit (u16Bytes (ptrCreate p.offset))

/-- The first write of an owner name in `compress_owner`, and the new `owner_ptr`. -/
def writeFirstOwner (ownerPos ownerLabs : Nat) : List CompressNode → Enc Nat
  | p :: _ => do
    writeCompressedDname key.dname ownerLabs p
    need 10
    pure (if p.labs = ownerLabs then ptrCreate p.offset else 0)
  | [] => do
    need (wireLen key.dname + 10)
    emit (wire key.dname)
    pure (if ownerPos ≤ 0x3fff then ptrCreate ownerPos else 0)

/-- Write the saved pointer to the owner name, given `room` octets of space. -/
def writeOwnerPtr (ownerPtr room : Nat) : Enc Unit := do
  let pos ← position
  recordName pos key.dname
  need room
  recordPtr pos (ownerPtr - 0xc000)
  emit (u16Bytes ownerPtr)

/-- `compress_owner`; `owner_ptr` is kept in host order. -/
def compressOwner (ownerPos ownerPtr ownerLabs : Nat) : Enc Nat :=
  if ownerPtr = 0 then do
    let pos ← position
    recordName pos key.dname
    let r ← Prog.read fun s => compressTreeLookup s.tree key.dname ownerLabs
    let ownerPtr' ← writeFirstOwner key ownerPos ownerLabs r.1
    compressTreeStore key.dname ownerLabs ownerPos r.1 r.2
    pure ownerPtr'
  else if ownerLabs = 1 then do
    let pos ← position
    recordName pos key.dname
    need 11
    emit [0]
    pure ownerPtr
  else do
    writeOwnerPtr key ownerPtr (2 + 4 + 4 + 2)
    pure ownerPtr

def dnameBufferWriteLoop : Name → Enc Unit
  | [] => pure ()
  | l :: dname => do
    need (l.length + 1)
    emit (l ++ [(lablen dname).toUInt8])
    dnameBufferWriteLoop dname

def dnameBufferWrite : Enc Unit := do
  need 1
  emit [(lablen dname).toUInt8]
  dnameBufferWriteLoop dname

def writeAnyDname (labs : Nat) : List CompressNode → Enc Unit
  | p :: _ => writeCompressedDname dname labs p
  | [] => dnameBufferWrite dname

def compressAnyDname (labs : Nat) : Enc Unit := do
  let pos ← position
  recordName pos dname
  let r ← Prog.read fun s => compressTreeLookup s.tree dname labs
  writeAnyDname dname labs r.1
  compressTreeStore dname labs pos r.1 r.2

def typeRdataCompressable : Option RrDescriptor :=
  let desc := sldnsRrDescript key.type
  if desc.compress then some desc else none

def sizeSub (a b : Nat) : Nat := (a + 2 ^ 64 - b) % 2 ^ 64

/-- `len` octets of memory; what lies past the area reads as zero. -/
def memBytes (len : Nat) (mem : List UInt8) : List UInt8 :=
  mem.take len ++ List.replicate (len - mem.length) 0

/-- The field loop of `compress_rdata`: the rdata and `todolen` that are left. -/
def compressRdataLoop : List RdfType → Nat → List UInt8 → Nat → Enc (List UInt8 × Nat)
  | [], _, rdata, todolen => pure (rdata, todolen)
  | rdf :: wireformat, count, rdata, todolen =>
    if todolen = 0 ∨ count = 0 then pure (rdata, todolen)
    else if rdf = .dname then do
      let dname := nameAt rdata
      compressAnyDname dname (dnameCountLabels dname)
      compressRdataLoop wireformat (count - 1) (rdata.drop (wireLen dname))
        (sizeSub todolen (wireLen dname))
    else do
      let len := rdfLen rdf (peek rdata)
      need len
      emit (memBytes len rdata)
      compressRdataLoop wireformat count (rdata.drop len) (sizeSub todolen len)

/-- `compress_rdata` up to the write of the rdata length. -/
def compressRdataBody (rdata : List UInt8) (todolen : Nat) (desc : RrDescriptor) : Enc Unit := do
  Prog.update fun s => { s with pkt := s.pkt.skip 2 }
  let r ← compressRdataLoop desc.wireformat desc.dnameCount (rdata.drop 2) (sizeSub todolen 2)
  need r.2
  emit (memBytes r.2 r.1)

def setRdlength (pos : Nat) : Enc Unit :=
  Prog.update fun s => { s with pkt := s.pkt.writeAt pos (u16Bytes (s.pkt.position - pos - 2)) }

def compressRdata (rdata : List UInt8) (todolen : Nat) (desc : RrDescriptor) : Enc Unit := do
  let pos ← position
  compressRdataBody rdata todolen desc
  setRdlength pos

def rrsetBelongsInReply (s : Section) (rrtype qtype : UInt16) (dnssec : Bool) : Bool :=
  if dnssec then true
  else if s = .answer ∧ (qtype = 255 ∨ qtype = rrtype) then true
  else !([24, 25, 30, 43, 46, 47, 48, 50, 51].contains rrtype)

/-- The order in which the records of an RRset are written: `j = (i + rr_offset) % count`. -/
def roundRobin (rrs : List PackedRr) (rrOffset : Nat) : List PackedRr :=
  (List.range rrs.length).map fun i => rrs.getD ((i + rrOffset) % 2 ^ 64 % rrs.length) default

def replyTtl (adjust ttl : Int) : Nat :=
  let t := if ttl < adjust then if cfg.serveExpired then cfg.serveExpiredReplyTtl else 0
    else ttl - adjust
  (t % 2 ^ 32).toNat

def rrHead (type rrsetClass : UInt16) (ttl : Nat) : List UInt8 :=
  u16Bytes type.toNat ++ u16Bytes rrsetClass.toNat ++ u32Bytes ttl

def encodeRdata (c : Option RrDescriptor) (data : List UInt8) : Enc Unit :=
  match c with
  | some desc => compressRdata data data.length desc
  | none => do
    need data.length
    emit data

/-- The data loop of `packed_rrset_encode`; it returns the last `owner_ptr`. -/
def encodeData (cfg : EncodeConfig) (key : PackedRrset) (adjust : Int) (ownerPos : Nat) :
    List PackedRr → Nat → Enc Nat
  | [], ownerPtr => pure ownerPtr
  | rr :: rrs, ownerPtr => do
    let ownerPtr' ← compressOwner key ownerPos ownerPtr (dnameCountLabels key.dname)
    emit (rrHead key.type key.rrsetClass (replyTtl cfg adjust rr.ttl))
    encodeRdata (typeRdataCompressable key) rr.data
    encodeData cfg key adjust ownerPos rrs ownerPtr'

def encodeSigOwner (ownerPtr len : Nat) : Enc Unit :=
  if ownerPtr ≠ 0 ∧ dnameCountLabels key.dname ≠ 1 then
    writeOwnerPtr key ownerPtr (2 + 4 + 4 + len)
  else do
    compressAnyDname key.dname (dnameCountLabels key.dname)
    need (4 + 4 + len)

def encodeSig (adjust : Int) (ownerPtr : Nat) (rr : PackedRr) : Enc Unit := do
  encodeSigOwner key ownerPtr rr.data.length
  emit (rrHead 46 key.rrsetClass (replyTtl cfg adjust rr.ttl))
  emit rr.data

def addCount (s : Section) (n : Nat) : Enc Unit :=
  Prog.update fun st => match s with
    | .answer => { st with ancount := st.ancount + n.toUInt16 }
    | .authority => { st with nscount := st.nscount + n.toUInt16 }
    | .additional => { st with arcount := st.arcount + n.toUInt16 }

def ttlAdjust (timenow : Int) : Int :=
  if key.flags &&& 0x80000000 ≠ 0 then 0
  else if cfg.serveOriginalTtl then key.ttlAdd else timenow

def encodeRrset (adjust : Int) (rrs rrsigs : List PackedRr) : Enc Unit := do
  let ownerPos ← position
  let ownerPtr ← encodeData cfg key adjust ownerPos rrs 0
  Prog.each (encodeSig cfg key adjust ownerPtr) rrsigs

/-- `packed_rrset_encode`; records are counted only after all of them fit. -/
def packedRrsetEncode (timenow : Int) (doData doSig : Bool) (s : Section) (qtype : UInt16)
    (dnssec : Bool) (rrOffset : Nat) (key : PackedRrset) : Enc Unit :=
  if !rrsetBelongsInReply s key.type qtype dnssec then pure ()
  else
    let rrs := if doData then roundRobin key.rrs rrOffset else []
    let rrsigs := if doSig && dnssec then key.rrsigs else []
    do
      encodeRrset cfg key (ttlAdjust cfg key timenow) rrs rrsigs
      addCount s (rrs.length + rrsigs.length)

/-- Undo the position when an RRset did not get in whole. -/
def trimOnError (x : Enc Unit) : Enc Unit := fun s =>
  match x s with
  | (.ok _, t) => (.ok (), t)
  | (.error e, t) => (.error e, { t with pkt := t.pkt.setPosition s.pkt.position })

def insertSection (rrsets : List PackedRrset) (timenow : Int) (s : Section) (qtype : UInt16)
    (dnssec : Bool) (rrOffset : Nat) : Enc Unit :=
  if s ≠ .additional then
    let dnssec' := if s = .answer ∧ qtype = 255 then true else dnssec
    Prog.each (fun k =>
      trimOnError (packedRrsetEncode cfg timenow true true s qtype dnssec' rrOffset k)) rrsets
  else do
    Prog.each (fun k =>
      trimOnError (packedRrsetEncode cfg timenow true false s qtype dnssec rrOffset k)) rrsets
    Prog.each (fun k =>
      trimOnError (packedRrsetEncode cfg timenow false true s qtype dnssec rrOffset k))
      (if dnssec then rrsets else [])

def questionName : Name :=
  match qinfo.localAlias with
  | some rrset => rrset.dname
  | none => qinfo.qname

/-- A query name that is in the packet already is skipped, not copied. -/
def writeQname : Enc Unit :=
  if qinfo.inPacket ∧ qinfo.localAlias.isNone then
    Prog.update fun s => { s with pkt := s.pkt.skip (wireLen (questionName qinfo)) }
  else emit (wire (questionName qinfo))

/-- `insert_query`. The space check uses `qname` also when the local alias is written. -/
def insertQuery : Enc Unit := do
  let qname := questionName qinfo
  need (wireLen qinfo.qname + 4)
  let pos ← position
  recordName pos qname
  compressTreeStore qname (dnameCountLabels qname) pos [] (some id)
  writeQname qinfo
  emit (u16Bytes qinfo.qtype.toNat ++ u16Bytes qinfo.qclass.toNat)

def flagsGetRcode (flags : UInt16) : UInt16 := flags &&& 0xf

def positiveAnswer (qtype : UInt16) : Bool :=
  if flagsGetRcode rep.flags ≠ 0 then false
  else if rep.an.any fun k => k.type == qtype then
    if qtype = 2 then false else !(rep.ns.any fun k => k.type == 47 || k.type == 50)
  else false

def negativeAnswerLoop : List PackedRrset → Bool → Bool
  | [], nsSeen => !nsSeen
  | k :: ns, nsSeen =>
    if k.type = 6 then true else negativeAnswerLoop ns (nsSeen || k.type == 2)

def negativeAnswer : Bool :=
  if flagsGetRcode rep.flags = 3 then true
  else if flagsGetRcode rep.flags = 0 ∧ rep.an ≠ [] then false
  else if flagsGetRcode rep.flags ≠ 0 ∧ flagsGetRcode rep.flags ≠ 3 then false
  else negativeAnswerLoop rep.ns false

def writeCount (s : Section) (st : EncState) : EncState :=
  match s with
  | .answer => { st with pkt := st.pkt.writeAt 6 (u16Bytes st.ancount.toNat) }
  | .authority => { st with pkt := st.pkt.writeAt 8 (u16Bytes st.nscount.toNat) }
  | .additional => { st with pkt := st.pkt.writeAt 10 (u16Bytes st.arcount.toNat) }

def tcSet (st : EncState) : EncState :=
  { st with pkt := st.pkt.writeAt 2 [st.pkt.data 2 ||| 0x02] }

def flipPkt (st : EncState) : EncState := { st with pkt := st.pkt.flip }

/-- One stage of `reply_info_encode`: a truncated one ends the message, a lack of memory the
encoding. -/
def orFinish (x : Enc Unit) (finish : EncState → EncState) (next : EncState → Bool × EncState)
    (s : EncState) : Bool × EncState :=
  match x s with
  | (.ok _, t) => next t
  | (.error .trunc, t) => (true, flipPkt (finish t))
  | (.error .outmem, t) => (false, t)

/-- The header that `reply_info_encode` starts with; `id` is given in host order. -/
def replyHeader (id flags : UInt16) (qdcount : UInt8) : List UInt8 :=
  u16Bytes id.toNat ++ u16Bytes flags.toNat ++ u16Bytes qdcount.toNat ++ [0, 0, 0, 0, 0, 0]

/-- The cleared buffer, cut to `udpsize`. -/
def startPkt (buffer : Sbuffer) (udpsize : UInt16) : Sbuffer :=
  if udpsize.toNat < buffer.clear.limit then buffer.clear.setLimit udpsize.toNat
  else buffer.clear

def rrOffsetOf (id : UInt16) (timenow : Int) : Nat :=
  if cfg.rrsetRoundrobin then
    ((id.toNat + if timenow ≠ 0 then timenow else cfg.time) % 2 ^ 64).toNat
  else 0

def aliasRrsets (flags : UInt16) : List PackedRrset :=
  match qinfo.localAlias with
  | some rrset => if flags &&& 0x0400 ≠ 0 then [rrset] else []
  | none => []

def replySections (id flags : UInt16) (timenow : Int) (dnssec minimise : Bool) (s : EncState) :
    Bool × EncState :=
  let rrOffset := rrOffsetOf cfg id timenow
  orFinish (insertSection cfg (aliasRrsets qinfo flags) 0 .answer qinfo.qtype dnssec rrOffset)
    (fun s => tcSet (writeCount .answer s)) (fun s =>
  orFinish (insertSection cfg rep.an timenow .answer qinfo.qtype dnssec rrOffset)
    (fun s => tcSet (writeCount .answer s)) (fun s =>
  let s := writeCount .answer s
  if minimise && positiveAnswer rep qinfo.qtype then (true, flipPkt s)
  else orFinish (insertSection cfg rep.ns timenow .authority qinfo.qtype dnssec rrOffset)
    (fun s => tcSet (writeCount .authority s)) (fun s =>
  let s := writeCount .authority s
  if minimise && negativeAnswer rep then (true, flipPkt s)
  else orFinish (insertSection cfg rep.ar timenow .additional qinfo.qtype dnssec rrOffset)
    (writeCount .additional) (fun s => (true, flipPkt (writeCount .additional s))) s) s) s) s

def replyInfoEncode (id flags : UInt16) (buffer : Sbuffer) (timenow : Int) (region : Nat → Bool)
    (udpsize : UInt16) (dnssec minimise : Bool) : Bool × EncState :=
  let pkt := startPkt buffer udpsize
  let s : EncState := ⟨pkt, .null, region, 0, 0, 0, [], []⟩
  if pkt.remaining < 12 then (false, s)
  else
    orFinish (if rep.qdcount ≠ 0 then insertQuery qinfo else pure ())
      (fun s => tcSet { s with pkt := s.pkt.writeAt 4 (u16Bytes 0) })
      (replySections cfg qinfo rep id flags timenow dnssec minimise)
      { s with pkt := pkt.write (replyHeader id flags rep.qdcount) }

end CwdGate.Encode
