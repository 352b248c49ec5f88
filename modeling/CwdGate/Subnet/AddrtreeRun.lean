import CwdGate.Subnet.AddrtreeTree

namespace CwdGate.Subnet
open Lib List

variable {α : Type} {sizefunc : α → Nat} {t : AddrTree α} {n : Nat}

inductive AddrOp (α : Type) where
  | insert (i : AddrInsert α)
  | find (addr : List UInt8) (sourcemask : Nat) (now : Int)

def addrOp (sizefunc : α → Nat) (t : AddrTree α) : AddrOp α → AddrTree α
  | .insert i => addrtreeInsert sizefunc t i
  | .find addr sourcemask now => (addrtreeFind t addr sourcemask now).2

def addrRun (sizefunc : α → Nat) (maxDepth maxNodeCount : Nat) (ops : List (AddrOp α)) :
    AddrTree α :=
  ops.foldl (addrOp sizefunc) (addrtreeCreate maxDepth maxNodeCount)

theorem TreeOk.create (sizefunc : α → Nat) (maxDepth maxNodeCount : Nat) :
    TreeOk sizefunc (addrtreeCreate maxDepth maxNodeCount : AddrTree α) where
  links := by
    constructor
    case nodup => exact nodup_nil
    case rootOut => exact not_mem_nil
    case rootTop => rfl
    case fresh =>
      rintro n (rfl | hn)
      · exact Nat.zero_lt_one
      · cases hn
    case freshEdge => exact nofun
    case up => exact nofun
    case down => exact nofun
  count := rfl
  size := rfl

theorem TreeOk.insert (h : TreeOk sizefunc t) (hlimit : WithinLimit t) (i : AddrInsert α) :
    Inserted sizefunc t (addrtreeInsert sizefunc t i) (i.capped t.maxDepth) := by
  have hroot := h.links.key_root.trans (bits_zero (i.capped t.maxDepth).addr).symm
  apply h.insertLoop _ hlimit (.inl rfl) hroot (Nat.zero_le _)
  · omega
  · exact Nat.min_le_right _ _

structure Found (t : AddrTree α) (addr : List UInt8) (sourcemask : Nat) (now : Int) (n : Nat) :
    Prop where
  live : t.links.Live n
  depth : (t.links.key n).length ≤ sourcemask
  key : t.links.key n = bits addr (t.links.key n).length
  matching : hasMatch (t.nodes n) (t.links.key n).length sourcemask now = true

theorem findLoop_found (fuel : Nat) (h : LinksOk t.links) (hnode : t.links.Live node)
    (hkey : t.links.key node = bits addr depth) (hdepth : depth ≤ sourcemask)
    (hfound : findLoop t addr sourcemask now fuel node depth = some n) :
    Found t addr sourcemask now n := by
  induction fuel generalizing node depth with
  | zero => cases hfound
  | succ fuel ih =>
    rw [findLoop] at hfound
    split at hfound
    case isTrue hmatch =>
      rw [Option.some.injEq] at hfound
      rw [← hfound]
      have hlen : (t.links.key node).length = depth := by rw [hkey, bits_length]
      constructor
      case live => exact hnode
      all_goals rw [hlen]
      case depth => exact hdepth
      case key => exact hkey
      case matching => exact hmatch
    case isFalse =>
      split at hfound
      case isTrue => cases hfound
      case isFalse hne =>
        split at hfound
        case h_1 => cases hfound
        case h_2 e he =>
          dsimp only at hfound
          split at hfound
          case isTrue => cases hfound
          case isFalse hle =>
            split at hfound
            case isTrue => cases hfound
            case isFalse hsub =>
              obtain ⟨hlen, hbits⟩ := h.edge_bits hnode hkey he
              have hc := bitsCommon_spec (le_of_lt hlen) hdepth
                (bits_eq_of_le hbits (Nat.le_succ depth))
              have hwhole : bitsCommon (t.links.edges e).str (t.links.edges e).len addr sourcemask
                  depth = (t.links.edges e).len := by
                simpa [issub] using hsub
              rw [hwhole] at hc
              obtain ⟨hlive, hnode'⟩ := h.edge_node hnode he
              exact ih hlive (hnode'.trans hc.same) (le_of_not_gt hle) hfound

theorem addrtreeFind_found (h : LinksOk t.links)
    (hfound : (addrtreeFind t addr sourcemask now).1 = some n) : Found t addr sourcemask now n := by
  rw [addrtreeFind] at hfound
  split at hfound
  case h_1 => cases hfound
  case h_2 m hm =>
    cases hfound
    exact findLoop_found _ h (.inl rfl) (h.key_root.trans (bits_zero addr).symm) (Nat.zero_le _) hm

theorem addrtreeFind_eq (h : LinksOk t.links) :
    ∃ lru : List Nat, lru.Perm t.links.lru ∧ (addrtreeFind t addr sourcemask now).2 =
      { t with links := { t.links with lru := lru } } := by
  rw [addrtreeFind]
  split
  case h_1 => exact ⟨t.links.lru, .refl _, rfl⟩
  case h_2 m hm =>
    have hfound := findLoop_found _ h (.inl rfl) (h.key_root.trans (bits_zero addr).symm)
      (Nat.zero_le _) hm
    obtain ⟨lru, heq, hperm⟩ := lruUpdate_eq hfound.live
    exact ⟨lru, hperm, by rw [heq]⟩

theorem TreeOk.op (h : TreeOk sizefunc t) (hlimit : WithinLimit t) (o : AddrOp α) :
    TreeOk sizefunc (addrOp sizefunc t o) ∧ WithinLimit (addrOp sizefunc t o) ∧ match o with
      | .insert i => Stored t (addrOp sizefunc t o) (i.capped t.maxDepth)
      | .find _ _ _ => Fades t (addrOp sizefunc t o) := by
  cases o with
  | insert i =>
    have hins := h.insert hlimit i
    exact ⟨hins.ok, hins.limit, hins.stored⟩
  | find addr sourcemask now =>
    obtain ⟨lru, hperm, heq⟩ := addrtreeFind_eq h.links
    rw [addrOp, heq]
    exact ⟨h.reorder hperm, hlimit, .reorder hperm⟩

/-- The nodes of the tree below the root. -/
inductive AddrLinks.InTree (l : AddrLinks) : Nat → Prop where
  | root : InTree l l.root
  | child {p e : Nat} {i : Bool} : InTree l p → l.edge p i = some e → InTree l (l.edges e).node

theorem LinksOk.inTree_iff (h : LinksOk l) : l.InTree n ↔ l.Live n := by
  constructor
  · intro hn
    induction hn with
    | root => exact .inl rfl
    | child _ he ih => exact (h.edge_node ih he).1
  · intro hn
    induction h.isTrie.reach hn with
    | refl => exact .root
    | tail _ hstep ih =>
      obtain ⟨hp, i, e, he, rfl⟩ := hstep
      exact (ih hp).child he

/-- The tree is consistent: its edges, its pointers, its LRU list, its count and its size. -/
structure AddrTree.Consistent (sizefunc : α → Nat) (m : Nat) (t : AddrTree α) : Prop where
  extends_ : ∀ p i e, t.links.InTree p → t.links.edge p i = some e →
    t.links.key p <+: t.links.edgeKey e ∧ t.links.key p ≠ t.links.edgeKey e
  differ : ∀ p e e', t.links.InTree p → t.links.edge p false = some e →
    t.links.edge p true = some e' →
    getbit (t.links.edges e).str (depthOf t.links p) ≠
      getbit (t.links.edges e').str (depthOf t.links p)
  down : ∀ p i e, t.links.InTree p → t.links.edge p i = some e →
    (t.links.edges e).parentNode = p ∧ (t.links.edges e).parentIndex = i ∧
      t.links.parentEdge (t.links.edges e).node = some e
  up : ∀ n, t.links.InTree n → n ≠ t.links.root → ∃ e, t.links.parentEdge n = some e ∧
    (t.links.edges e).node = n ∧ t.links.InTree (t.links.edges e).parentNode ∧
      t.links.edge (t.links.edges e).parentNode (t.links.edges e).parentIndex = some e
  top : t.links.parentEdge t.links.root = none
  lru_nodup : t.links.lru.Nodup
  mem_lru : ∀ n, n ∈ t.links.lru ↔ t.links.InTree n ∧ n ≠ t.links.root
  count : t.nodeCount = t.links.lru.length
  limit : t.nodeCount ≤ m
  size : t.sizeBytes = sizeofTree + sizeofNode + total t.links.lru (nodeSize sizefunc t) id +
    elemSize sizefunc (t.nodes t.links.root)

theorem LinksOk.getbit_edge (h : LinksOk l) (hp : l.Live p) (he : l.edge p i = some e) :
    getbit (l.edges e).str (depthOf l p) = i := by
  have hdown := (h.down p hp i e he).extends_
  have hle : depthOf l p + 1 ≤ (l.edges e).len := by
    have hlen := hdown.length_le
    rw [AddrLinks.edgeKey, bits_length, length_append, ← depthOf_eq] at hlen
    exact hlen
  have hbits := prefix_of_prefix_length_le (bits_mono (l.edges e).str hle) hdown
    (by rw [bits_length, length_append, ← depthOf_eq]; rfl)
  have heq := hbits.eq_of_length (by rw [bits_length, length_append, ← depthOf_eq]; rfl)
  rw [bits_succ] at heq
  exact (append_inj heq (by rw [bits_length, depthOf_eq])).2 |> singleton_inj.1

theorem TreeOk.consistent {m : Nat} (h : TreeOk sizefunc t) (hlimit : t.nodeCount ≤ m) :
    t.Consistent sizefunc m := by
  have hlive : ∀ n, t.links.InTree n ↔ t.links.Live n := fun n => h.links.inTree_iff
  constructor
  case extends_ =>
    intro p i e hp he
    have hdown := (h.links.down p ((hlive p).1 hp) i e he).extends_
    refine ⟨(prefix_append _ _).trans hdown, ?_⟩
    intro heq
    have hlen := hdown.length_le
    rw [← heq, length_append, length_singleton] at hlen
    omega
  case differ =>
    intro p e e' hp he he'
    rw [h.links.getbit_edge ((hlive p).1 hp) he, h.links.getbit_edge ((hlive p).1 hp) he']
    decide
  case down =>
    intro p i e hp he
    have hdown := h.links.down p ((hlive p).1 hp) i e he
    exact ⟨hdown.parentNode, hdown.parentIndex, hdown.parentEdge⟩
  case up =>
    intro n hn hne
    obtain ⟨e, hup⟩ := h.links.up n (((hlive n).1 hn).resolve_left hne)
    exact ⟨e, hup.parentEdge, hup.node, (hlive _).2 hup.live, hup.edge⟩
  case top => exact h.links.rootTop
  case lru_nodup => exact h.links.nodup
  case mem_lru =>
    intro n
    rw [hlive]
    constructor
    · intro hn
      exact ⟨.inr hn, fun heq => h.links.rootOut (heq ▸ hn)⟩
    · rintro ⟨hn, hne⟩
      exact hn.resolve_left hne
  case count => exact h.count
  case limit => exact hlimit
  case size => exact h.size

theorem addrRun_snoc :
    addrRun sizefunc maxDepth m (ops ++ [o]) =
      addrOp sizefunc (addrRun sizefunc maxDepth m ops) o := by
  rw [addrRun, foldl_append]
  rfl

theorem Stored.limits (h : Stored t t' a) :
    t'.maxNodeCount = t.maxNodeCount ∧ t'.maxDepth = t.maxDepth := by
  obtain ⟨t₁, t₂, x, hbefore, hstores, _, hafter⟩ := h
  exact ⟨hafter.maxNodeCount.trans (hstores.maxNodeCount.trans hbefore.maxNodeCount),
    hafter.maxDepth.trans (hstores.maxDepth.trans hbefore.maxDepth)⟩

structure RunOk (sizefunc : α → Nat) (maxDepth m : Nat) (t : AddrTree α) : Prop where
  ok : TreeOk sizefunc t
  limit : WithinLimit t
  maxNodeCount : t.maxNodeCount = m
  maxDepth : t.maxDepth = maxDepth

theorem RunOk.op {maxDepth m : Nat} (h : RunOk sizefunc maxDepth m t) (o : AddrOp α) :
    RunOk sizefunc maxDepth m (addrOp sizefunc t o) := by
  obtain ⟨hok, hlimit, hstep⟩ := h.ok.op h.limit o
  have hlimits : (addrOp sizefunc t o).maxNodeCount = t.maxNodeCount ∧
      (addrOp sizefunc t o).maxDepth = t.maxDepth := by
    cases o with
    | insert i => exact hstep.limits
    | find addr sourcemask now => exact ⟨hstep.maxNodeCount, hstep.maxDepth⟩
  exact ⟨hok, hlimit, hlimits.1.trans h.maxNodeCount, hlimits.2.trans h.maxDepth⟩

theorem RunOk.run (sizefunc : α → Nat) (maxDepth m : Nat) (ops : List (AddrOp α)) :
    RunOk sizefunc maxDepth m (addrRun sizefunc maxDepth m ops) := by
  induction ops using reverseRecOn with
  | nil =>
    refine ⟨.create sizefunc maxDepth m, .inr ?_, rfl, rfl⟩
    exact Int.natCast_nonneg m
  | append_singleton ops o ih =>
    rw [addrRun_snoc]
    exact ih.op o

/-- The tree is consistent after any calls, when it has a limit. -/
theorem addrtree_run_consistent (sizefunc : α → Nat) (maxDepth m : Nat) (hm : 1 ≤ m)
    (ops : List (AddrOp α)) : (addrRun sizefunc maxDepth m ops).Consistent sizefunc m := by
  have h := RunOk.run sizefunc maxDepth m ops
  have hlimit := h.limit
  rw [WithinLimit, h.maxNodeCount] at hlimit
  apply h.ok.consistent
  exact hlimit.resolve_left (Nat.ne_of_gt hm)

def twoSubnets : List (AddrOp Nat) :=
  [.insert ⟨[10, 0, 0, 0], 24, 24, 1, 60, 0, false⟩,
    .insert ⟨[10, 0, 1, 0], 24, 24, 2, 60, 0, false⟩]

theorem addrtree_run_consistent_two :
    (addrRun (fun _ => 1) 32 1 twoSubnets).Consistent (fun _ => 1) 1 ∧
      (addrRun (fun _ => 1) 32 1 twoSubnets).nodeCount = 1 :=
  ⟨addrtree_run_consistent _ 32 1 (Nat.le_refl 1) _, by decide +kernel⟩

section Isolation

def AddrInsert.pfx (maxDepth : Nat) (i : AddrInsert α) : List Bool :=
  bits i.addr (i.capped maxDepth).sourcemask

def inserts : List (AddrOp α) → List (AddrInsert α)
  | [] => []
  | .insert i :: ops => i :: inserts ops
  | .find _ _ _ :: ops => inserts ops

theorem inserts_append : inserts (ops ++ ops') = inserts ops ++ inserts ops' := by
  induction ops with
  | nil => rfl
  | cons o ops ih =>
    cases o with
    | insert i => exact congrArg (i :: ·) ih
    | find addr sourcemask now => exact ih

def IsLatest (maxDepth : Nat) (hist : List (AddrInsert α)) (P : List Bool) (i : AddrInsert α) :
    Prop :=
  i.pfx maxDepth = P ∧ ∃ before after, hist = before ++ i :: after ∧ ∀ j ∈ after, j.pfx maxDepth ≠ P

/-- The data of a node is that of the last insert for its bit string. -/
structure Origin (maxDepth : Nat) (hist : List (AddrInsert α)) (K : List Bool) (x : AddrNode α)
    (i : AddrInsert α) : Prop where
  latest : IsLatest maxDepth hist K i
  elem : x.elem = some i.elem
  ttl : x.ttl = i.ttl
  onlyMatchScopeZero : x.onlyMatchScopeZero = i.onlyMatchScopeZero
  scope : x.scope = (i.capped maxDepth).scope ∨ K.length < x.scope

/-- All data of the tree comes from the inserts. -/
def Sound (maxDepth : Nat) (hist : List (AddrInsert α)) (t : AddrTree α) : Prop :=
  ∀ n, t.links.Live n → (t.nodes n).elem ≠ none →
    ∃ i, Origin maxDepth hist (t.links.key n) (t.nodes n) i

variable {maxDepth : Nat}

theorem Sound.fades (h : Sound maxDepth hist t) (hf : Fades t t') : Sound maxDepth hist t' := by
  intro n hn helem
  obtain ⟨hold, hkey, haged⟩ := hf.data n hn helem
  rw [haged.elem] at helem
  obtain ⟨i, ho⟩ := h n hold helem
  rw [hkey]
  refine ⟨i, ho.latest, haged.elem.trans ho.elem, haged.ttl.trans ho.ttl,
    haged.onlyMatchScopeZero.trans ho.onlyMatchScopeZero, ?_⟩
  rcases haged.scope with heq | hlt
  · rw [heq]
    exact ho.scope
  · exact .inr hlt

theorem IsLatest.snoc (h : IsLatest maxDepth hist P i) (hne : j.pfx maxDepth ≠ P) :
    IsLatest maxDepth (hist ++ [j]) P i := by
  obtain ⟨hP, before, after, rfl, hafter⟩ := h
  exact ⟨hP, before, after ++ [j], by simp,
    forall_mem_append.2 ⟨hafter, forall_mem_singleton.2 hne⟩⟩

/-- An insert sets `only_match_scope_zero` only for source mask 0, as `update_cache` does. -/
def AddrInsert.Allowed (i : AddrInsert α) : Prop := i.onlyMatchScopeZero = true → i.sourcemask = 0

theorem Sound.stores (hi : i.Allowed) (h : Sound maxDepth hist t)
    (hs : Stores t t' (i.pfx maxDepth) x) (hx : Holds (i.capped maxDepth) x) :
    Sound maxDepth (hist ++ [i]) t' := by
  intro n hn helem
  rcases hs.data n hn helem with ⟨hkey, hnode⟩ | ⟨hne, hold, hkey, hnode⟩
  · rw [hkey, hnode]
    refine ⟨i, ⟨rfl, hist, [], rfl, nofun⟩, hx.elem, hx.ttl, ?_, .inl hx.scope⟩
    rcases hx.onlyMatchScopeZero with heq | ⟨hpos, hfalse⟩
    · exact heq
    · have hmask : i.sourcemask ≠ 0 := by
        have hle : (i.capped maxDepth).sourcemask ≤ i.sourcemask := Nat.min_le_left _ _
        omega
      rw [hfalse]
      exact (Bool.eq_false_of_not_eq_true fun htrue => hmask (hi htrue)).symm
  · rw [hnode] at helem
    obtain ⟨j, ho⟩ := h n hold helem
    rw [hkey] at hne
    rw [hkey, hnode]
    exact ⟨j, ho.latest.snoc hne.symm, ho.elem, ho.ttl, ho.onlyMatchScopeZero, ho.scope⟩

theorem Sound.run (sizefunc : α → Nat) (maxDepth m : Nat) (ops : List (AddrOp α))
    (hallowed : ∀ i ∈ inserts ops, i.Allowed) :
    Sound maxDepth (inserts ops) (addrRun sizefunc maxDepth m ops) := by
  induction ops using reverseRecOn with
  | nil => exact fun _ _ helem => absurd rfl helem
  | append_singleton ops o ih =>
    rw [inserts_append] at hallowed ⊢
    have hsound := ih fun i hi => hallowed i (mem_append_left _ hi)
    have hrun := RunOk.run sizefunc maxDepth m ops
    rw [addrRun_snoc]
    obtain ⟨_, _, hstep⟩ := hrun.ok.op hrun.limit o
    cases o with
    | insert i =>
      rw [hrun.maxDepth] at hstep
      obtain ⟨t₁, t₂, x, hbefore, hstores, hx, hafter⟩ := hstep
      have hi := hallowed i (mem_append_right _ mem_cons_self)
      exact ((hsound.fades hbefore).stores hi hstores hx).fades hafter
    | find addr sourcemask now =>
      rw [inserts, inserts, append_nil]
      exact hsound.fades hstep

/-- Data that is found is from the last insert for a bit string of the address, which may have
it. -/
theorem addrtree_find_isolated (sizefunc : α → Nat) (maxDepth m : Nat) (ops : List (AddrOp α))
    (hallowed : ∀ i ∈ inserts ops, i.onlyMatchScopeZero = true → i.sourcemask = 0)
    (addr : List UInt8) (mask : Nat) (now : Int) (n : Nat)
    (hfind : (addrtreeFind (addrRun sizefunc maxDepth m ops) addr mask now).1 = some n) :
    ∃ (before after : List (AddrInsert α)) (i : AddrInsert α) (L : Nat),
      inserts ops = before ++ i :: after ∧ L = min i.sourcemask (min i.scope maxDepth) ∧
      (∀ j ∈ after, bits j.addr (min j.sourcemask (min j.scope maxDepth)) ≠ bits i.addr L) ∧
      ((addrRun sizefunc maxDepth m ops).nodes n).elem = some i.elem ∧ now ≤ i.ttl ∧ L ≤ mask ∧
      bits addr L = bits i.addr L ∧ (min i.scope maxDepth = L ∨ mask = L) ∧
      (i.onlyMatchScopeZero = true → mask = 0) := by
  have hrun := RunOk.run sizefunc maxDepth m ops
  have hsound := Sound.run sizefunc maxDepth m ops hallowed
  generalize addrRun sizefunc maxDepth m ops = t at hrun hsound hfind ⊢
  have hfound := addrtreeFind_found hrun.ok.links hfind
  have hmatch := hfound.matching
  simp only [hasMatch, decide_eq_true_eq] at hmatch
  obtain ⟨hsome, httl, hzero, hscope⟩ := hmatch
  obtain ⟨i, ho⟩ := hsound n hfound.live (Option.isSome_iff_ne_none.1 hsome)
  obtain ⟨hkey, before, after, hhist, hafter⟩ := ho.latest
  have hlen : (t.links.key n).length = (i.capped maxDepth).sourcemask := by
    rw [← hkey, AddrInsert.pfx, bits_length]
  refine ⟨before, after, i, (i.capped maxDepth).sourcemask, hhist, rfl, ?_, ho.elem, ?_, ?_, ?_, ?_,
    ?_⟩
  · intro j hj
    have hne := hafter j hj
    rw [← hkey] at hne
    exact hne
  · rw [← ho.ttl]
    exact httl
  · rw [← hlen]
    exact hfound.depth
  · rw [← hlen, ← hfound.key, ← hkey, AddrInsert.pfx, bits_length]
  · rw [← hlen]
    rcases hscope with heq | ⟨_, heq⟩
    · left
      have hsame := ho.scope.resolve_right (by omega)
      rw [heq, hsame]
      rfl
    · exact .inr heq.symm
  · intro honly
    rw [ho.onlyMatchScopeZero] at hzero
    by_contra hne
    exact hzero ⟨hne, honly⟩

theorem addrtree_find_isolated_two :
    (addrtreeFind (addrRun (fun _ => 1) 32 0 twoSubnets) [10, 0, 0, 7] 32 5).1 = some 1 ∧
    ∃ (before after : List (AddrInsert Nat)) (i : AddrInsert Nat) (L : Nat),
      inserts twoSubnets = before ++ i :: after ∧ L = min i.sourcemask (min i.scope 32) ∧
      (∀ j ∈ after, bits j.addr (min j.sourcemask (min j.scope 32)) ≠ bits i.addr L) ∧
      ((addrRun (fun _ => 1) 32 0 twoSubnets).nodes 1).elem = some i.elem ∧ 5 ≤ i.ttl ∧ L ≤ 32 ∧
      bits [10, 0, 0, 7] L = bits i.addr L ∧ (min i.scope 32 = L ∨ 32 = L) ∧
      (i.onlyMatchScopeZero = true → 32 = 0) :=
  ⟨by decide +kernel, addrtree_find_isolated _ 32 0 twoSubnets (by decide) _ 32 5 1
    (by decide +kernel)⟩

end Isolation

end CwdGate.Subnet
