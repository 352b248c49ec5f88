import CwdGate.Lib.Totals
import CwdGate.Lib.Trie
import CwdGate.Subnet.Addrtree

namespace CwdGate.Subnet
open Lib Function

section

section Keys
variable {l : AddrLinks} {n : Nat}

theorem LinksOk.isTrie (h : LinksOk l) :
    IsTrie l.root l.Live (fun p i c => ∃ e, l.edge p i = some e ∧ (l.edges e).node = c) l.key where
  root_key := h.key_root
  up := by
    rintro n (rfl | hn)
    · exact .inl rfl
    · obtain ⟨e, hup⟩ := h.up n hn
      exact .inr ⟨_, _, hup.live, e, hup.edge, hup.node⟩
  extend := by
    rintro p i c hp ⟨e, he, rfl⟩
    have hdown := h.down p hp i e he
    have hkey : l.key (l.edges e).node = l.edgeKey e := by
      rw [AddrLinks.key, hdown.parentEdge]
    rw [hkey]
    exact hdown.extends_
  unique := by
    rintro p i c c' hp ⟨e, he, rfl⟩ ⟨e', he', rfl⟩
    rw [he, Option.some.injEq] at he'
    rw [he']

theorem LinksOk.key_inj (h : LinksOk l) (hn : l.Live n) (hm : l.Live m) (hkey : l.key n = l.key m) :
    n = m :=
  h.isTrie.key_inj hn hm hkey

theorem live_reorder (hperm : lru.Perm l.lru) : AddrLinks.Live { l with lru := lru } q ↔ l.Live q :=
  or_congr Iff.rfl hperm.mem_iff

theorem LinksOk.reorder (h : LinksOk l) (hperm : lru.Perm l.lru) :
    LinksOk { l with lru := lru } where
  nodup := hperm.nodup_iff.2 h.nodup
  rootOut hmem := h.rootOut (hperm.mem_iff.1 hmem)
  rootTop := h.rootTop
  fresh n hn := h.fresh n ((live_reorder hperm).1 hn)
  freshEdge n e he hn := h.freshEdge n e he ((live_reorder hperm).1 hn)
  up := by
    intro n hn
    obtain ⟨e, hup⟩ := h.up n (hperm.mem_iff.1 hn)
    exact ⟨e, hup.parentEdge, hup.node, (live_reorder hperm).2 hup.live, hup.edge⟩
  down := by
    intro p hp i e he
    have hdown := h.down p ((live_reorder hperm).1 hp) i e he
    exact ⟨hdown.parentNode, hdown.parentIndex, hperm.mem_iff.2 hdown.mem, hdown.parentEdge,
      hdown.extends_⟩

theorem lruUpdate_eq (hn : l.Live n) :
    ∃ lru, lruUpdate l n = { l with lru := lru } ∧ lru.Perm l.lru := by
  rw [lruUpdate]
  split
  case isTrue => exact ⟨l.lru, rfl, .refl _⟩
  case isFalse hroot =>
    have hmem : n ∈ l.lru := hn.resolve_left fun heq => hroot heq.symm
    refine ⟨l.lru.erase n ++ [n], rfl, ?_⟩
    exact (List.perm_append_singleton n _).trans (List.perm_cons_erase hmem).symm

end Keys

section Tree
variable (sizefunc : α → Nat)

/-- The tree is sound: its links, and the count and the size of its nodes. -/
structure TreeOk (t : AddrTree α) : Prop where
  links : LinksOk t.links
  count : t.nodeCount = t.links.lru.length
  size : t.sizeBytes = sizeofTree + sizeofNode + total t.links.lru (nodeSize sizefunc t) id +
    elemSize sizefunc (t.nodes t.links.root)

variable {sizefunc} {t : AddrTree α} {n : Nat}

theorem nodeSize_congr (hlinks : depthOf t'.links n = depthOf t.links n)
    (hnode : t'.nodes n = t.nodes n) : nodeSize sizefunc t' n = nodeSize sizefunc t n := by
  rw [nodeSize, nodeSize, hlinks, hnode]

theorem TreeOk.setNode (h : TreeOk sizefunc t) (hn : t.links.Live n)
    (hnodes : t'.nodes = update t.nodes n y) (hlinks : t'.links = t.links)
    (hcount : t'.nodeCount = t.nodeCount)
    (hsize : t'.sizeBytes = t.sizeBytes - elemSize sizefunc (t.nodes n) + elemSize sizefunc y) :
    TreeOk sizefunc t' where
  links := hlinks ▸ h.links
  count := by rw [hcount, hlinks, h.count]
  size := by
    have hother : ∀ m, m ≠ n → nodeSize sizefunc t' m = nodeSize sizefunc t m := by
      intro m hm
      apply nodeSize_congr
      · rw [hlinks]
      · rw [hnodes, update_of_ne hm]
    rw [hsize, hlinks, h.size]
    rcases hn with rfl | hn
    · have htotal : total t.links.lru (nodeSize sizefunc t') id =
          total t.links.lru (nodeSize sizefunc t) id := by
        apply total_congr
        intro m hm
        exact hother m fun heq => h.links.rootOut (heq ▸ hm)
      rw [htotal, hnodes, update_self]
      omega
    · have hroot : t.links.root ≠ n := fun heq => h.links.rootOut (heq ▸ hn)
      have hself : nodeSize sizefunc t' n =
          nodeSize sizefunc t n - elemSize sizefunc (t.nodes n) + elemSize sizefunc y := by
        rw [nodeSize, nodeSize, hlinks, hnodes, update_self]
        omega
      have htotal : total t.links.lru (nodeSize sizefunc t') id = total t.links.lru
          (update (nodeSize sizefunc t) n (nodeSize sizefunc t' n)) id := by
        apply total_congr
        intro m _
        by_cases hm : m = n
        · rw [hm, update_self]
        · rw [update_of_ne hm, hother m hm]
      rw [htotal, total_update h.links.nodup hn, hself, hnodes, update_of_ne hroot]
      simp only [id]
      omega

/-- Data still there has not changed, but for a scope raised above the depth `d` of its node. -/
structure Aged (d : Nat) (x y : AddrNode α) : Prop where
  elem : y.elem = x.elem
  ttl : y.ttl = x.ttl
  onlyMatchScopeZero : y.onlyMatchScopeZero = x.onlyMatchScopeZero
  scope : y.scope = x.scope ∨ d < y.scope

/-- A step of the tree that stores no data: nodes with data were there before. -/
structure Fades (t t' : AddrTree α) : Prop where
  root : t'.links.root = t.links.root
  maxDepth : t'.maxDepth = t.maxDepth
  maxNodeCount : t'.maxNodeCount = t.maxNodeCount
  data : ∀ n, t'.links.Live n → (t'.nodes n).elem ≠ none →
    t.links.Live n ∧ t'.links.key n = t.links.key n ∧
      Aged (t.links.key n).length (t.nodes n) (t'.nodes n)

theorem Aged.refl (d : Nat) (x : AddrNode α) : Aged d x x := ⟨rfl, rfl, rfl, .inl rfl⟩

theorem Aged.trans (h : Aged d x y) (h' : Aged d y z) : Aged d x z where
  elem := h'.elem.trans h.elem
  ttl := h'.ttl.trans h.ttl
  onlyMatchScopeZero := h'.onlyMatchScopeZero.trans h.onlyMatchScopeZero
  scope := by
    rcases h'.scope with heq | hlt
    · rw [heq]
      exact h.scope
    · exact .inr hlt

theorem Fades.refl (t : AddrTree α) : Fades t t :=
  ⟨rfl, rfl, rfl, fun _ hn _ => ⟨hn, rfl, .refl _ _⟩⟩

theorem Fades.trans (h : Fades t₁ t₂) (h' : Fades t₂ t₃) : Fades t₁ t₃ where
  root := h'.root.trans h.root
  maxDepth := h'.maxDepth.trans h.maxDepth
  maxNodeCount := h'.maxNodeCount.trans h.maxNodeCount
  data := by
    intro n hn helem
    obtain ⟨hn₂, hkey₂, haged₂⟩ := h'.data n hn helem
    rw [haged₂.elem] at helem
    obtain ⟨hn₁, hkey₁, haged₁⟩ := h.data n hn₂ helem
    rw [hkey₁] at haged₂
    exact ⟨hn₁, hkey₂.trans hkey₁, haged₁.trans haged₂⟩

structure Purged (sizefunc : α → Nat) (t t' : AddrTree α) (n : Nat) : Prop where
  ok : TreeOk sizefunc t'
  fades : Fades t t'
  count : t'.nodeCount ≤ t.nodeCount
  other : ∀ q, t.links.Live q → q ≠ n → t'.links.Live q ∧ t'.links.key q = t.links.key q

theorem cleanNode_spec (sizefunc : α → Nat) (t : AddrTree α) (n : Nat) :
    ∃ y, (cleanNode sizefunc t n).nodes = update t.nodes n y ∧ y.elem = none ∧
      (cleanNode sizefunc t n).links = t.links ∧
      (cleanNode sizefunc t n).nodeCount = t.nodeCount ∧
      (cleanNode sizefunc t n).maxDepth = t.maxDepth ∧
      (cleanNode sizefunc t n).maxNodeCount = t.maxNodeCount ∧
      (cleanNode sizefunc t n).sizeBytes = t.sizeBytes - elemSize sizefunc (t.nodes n) := by
  rw [cleanNode]
  cases helem : (t.nodes n).elem with
  | none =>
    refine ⟨t.nodes n, (update_eq_self n t.nodes).symm, helem, rfl, rfl, rfl, rfl, ?_⟩
    rw [elemSize, helem]
    exact (Int.sub_zero _).symm
  | some x =>
    refine ⟨_, rfl, rfl, rfl, rfl, rfl, rfl, ?_⟩
    rw [elemSize, helem]

theorem elemSize_none (h : y.elem = none) : elemSize sizefunc y = 0 := by
  rw [elemSize, h]

theorem Fades.ofClean (hnodes : t'.nodes = update t.nodes n y) (hy : y.elem = none)
    (hlinks : t'.links = t.links) (hdepth : t'.maxDepth = t.maxDepth)
    (hmax : t'.maxNodeCount = t.maxNodeCount) : Fades t t' where
  root := by rw [hlinks]
  maxDepth := hdepth
  maxNodeCount := hmax
  data := by
    intro q hq helem
    rw [hlinks] at hq
    have hne : q ≠ n := by
      rintro rfl
      rw [hnodes, update_self] at helem
      exact helem hy
    rw [hlinks, hnodes, update_of_ne hne]
    exact ⟨hq, rfl, .refl _ _⟩

theorem TreeOk.clean (h : TreeOk sizefunc t) (hn : t.links.Live n) :
    Purged sizefunc t (cleanNode sizefunc t n) n := by
  obtain ⟨y, hnodes, hy, hlinks, hcount, hdepth, hmax, hsize⟩ := cleanNode_spec sizefunc t n
  constructor
  case ok =>
    apply h.setNode hn hnodes hlinks hcount
    rw [hsize, elemSize_none hy, Int.add_zero]
  case fades => exact .ofClean hnodes hy hlinks hdepth hmax
  case count => exact Int.le_of_eq hcount
  case other =>
    intro q hq _
    rw [hlinks]
    exact ⟨hq, rfl⟩

theorem TreeOk.unlink (h : TreeOk sizefunc t) (hn : n ∈ t.links.lru) (hup : UpOk t.links n e)
    (htwo : hasTwo t.links n = false) :
    Purged sizefunc t { t with
      nodeCount := t.nodeCount - 1
      links := unlinkNode t.links n e
      sizeBytes := t.sizeBytes - nodeSize sizefunc t n } n := by
  have u := unlinkNode_spec t.links n e
  have hlen : ((t.links.lru.erase n).length : Int) = t.links.lru.length - 1 := by
    have hpos := List.length_pos_of_mem hn
    rw [List.length_erase_of_mem hn]
    omega
  constructor
  case ok =>
    constructor
    case links => exact h.links.unlink u hn hup htwo
    case count =>
      rw [u.lru, hlen, h.count]
    case size =>
      have hsame : total (t.links.lru.erase n) (nodeSize sizefunc { t with
          nodeCount := t.nodeCount - 1
          links := unlinkNode t.links n e
          sizeBytes := t.sizeBytes - nodeSize sizefunc t n }) id =
          total (t.links.lru.erase n) (nodeSize sizefunc t) id := by
        apply total_congr
        intro q _
        refine nodeSize_congr ?_ rfl
        rw [depthOf_eq, depthOf_eq, u.key]
      rw [u.lru, hsame, total_erase hn, u.root, h.size]
      simp only [id]
      omega
  case fades =>
    refine ⟨u.root, rfl, rfl, ?_⟩
    intro q hq _
    exact ⟨((u.live h.links hn).1 hq).1, u.key q, .refl _ _⟩
  case count =>
    dsimp only
    omega
  case other =>
    intro q hq hne
    exact ⟨(u.live h.links hn).2 ⟨hq, hne⟩, u.key q⟩

theorem Purged.trans (h : Purged sizefunc t₁ t₂ n) (h' : Purged sizefunc t₂ t₃ n) :
    Purged sizefunc t₁ t₃ n where
  ok := h'.ok
  fades := h.fades.trans h'.fades
  count := h'.count.trans h.count
  other := by
    intro q hq hne
    obtain ⟨hq₂, hkey₂⟩ := h.other q hq hne
    obtain ⟨hq₃, hkey₃⟩ := h'.other q hq₂ hne
    exact ⟨hq₃, hkey₃.trans hkey₂⟩

theorem LinksOk.upOk_of_parentEdge (h : LinksOk l) (hn : l.Live n) (he : l.parentEdge n = some e) :
    n ∈ l.lru ∧ UpOk l n e := by
  have hmem : n ∈ l.lru := by
    rcases hn with rfl | hn
    · rw [h.rootTop] at he
      cases he
    · exact hn
  obtain ⟨f, hup⟩ := h.up n hmem
  have heq := hup.parentEdge
  rw [he, Option.some.injEq] at heq
  rw [heq]
  exact ⟨hmem, hup⟩

theorem TreeOk.purge (h : TreeOk sizefunc t) (hn : t.links.Live n) :
    Purged sizefunc t (purgeNode sizefunc t n) n := by
  have hclean := h.clean hn
  obtain ⟨_, _, _, hlinks, _⟩ := cleanNode_spec sizefunc t n
  rw [purgeNode]
  split
  case h_1 => exact hclean
  case h_2 e he =>
    split
    case isTrue => exact hclean
    case isFalse htwo =>
      obtain ⟨hmem, hup⟩ := h.links.upOk_of_parentEdge hn he
      rw [← hlinks] at hmem hup htwo
      exact hclean.trans (hclean.ok.unlink hmem hup (by simpa using htwo))

theorem purgeNode_count {e : Nat} (he : t.links.parentEdge n = some e)
    (htwo : hasTwo t.links n = false) : (purgeNode sizefunc t n).nodeCount = t.nodeCount - 1 := by
  obtain ⟨_, _, _, _, hcount, _⟩ := cleanNode_spec sizefunc t n
  rw [purgeNode, he, htwo, ← hcount]
  rfl

theorem TreeOk.reorder (h : TreeOk sizefunc t) (hperm : lru.Perm t.links.lru) :
    TreeOk sizefunc { t with links := { t.links with lru := lru } } where
  links := h.links.reorder hperm
  count := by
    rw [h.count]
    exact congrArg Int.ofNat hperm.length_eq.symm
  size := by
    rw [h.size, ← total_perm hperm]
    rfl

theorem Fades.reorder (hperm : lru.Perm t.links.lru) :
    Fades t { t with links := { t.links with lru := lru } } :=
  ⟨rfl, rfl, rfl, fun _ hn _ => ⟨(live_reorder hperm).1 hn, rfl, .refl _ _⟩⟩

/-- What a loop of purges does, as seen from a node that stays. -/
structure Swept (sizefunc : α → Nat) (t t' : AddrTree α) (n : Nat) : Prop where
  ok : TreeOk sizefunc t'
  fades : Fades t t'
  count : t'.nodeCount ≤ t.nodeCount
  live : t'.links.Live n
  key : t'.links.key n = t.links.key n

theorem TreeOk.swept (fuel : Nat) (h : TreeOk sizefunc t) (hn : t.links.Live n) :
    Swept sizefunc t (purgeExpired sizefunc n index now fuel t) n := by
  induction fuel generalizing t with
  | zero => exact ⟨h, .refl t, Int.le_refl _, hn, rfl⟩
  | succ fuel ih =>
    rw [purgeExpired]
    split
    case h_1 => exact ⟨h, .refl t, Int.le_refl _, hn, rfl⟩
    case h_2 e he =>
      dsimp only
      split
      case isTrue => exact ⟨h, .refl t, Int.le_refl _, hn, rfl⟩
      case isFalse =>
        have hdown := h.links.down n hn index e he
        have hpurged := h.purge (.inr hdown.mem)
        obtain ⟨e', hup⟩ := h.links.up _ hdown.mem
        have hne : n ≠ (t.links.edges e).node := by
          have hparent := h.links.parent_ne hup
          have heq := hup.parentEdge
          rw [hdown.parentEdge, Option.some.injEq] at heq
          rw [← heq, hdown.parentNode] at hparent
          exact hparent
        obtain ⟨hlive, hkey⟩ := hpurged.other n hn hne
        have hrest := ih hpurged.ok hlive
        exact ⟨hrest.ok, hpurged.fades.trans hrest.fades, hrest.count.trans hpurged.count,
          hrest.live, hrest.key.trans hkey⟩

end Tree

open List

variable {α : Type} {sizefunc : α → Nat} {t t' : AddrTree α} {l : AddrLinks} {n : Nat}

theorem LinksOk.child_depth (h : LinksOk l) (hp : l.Live p) (he : l.edge p i = some e) :
    (l.edges e).node ∈ l.lru ∧ (l.key p).length < (l.key (l.edges e).node).length := by
  have hdown := h.down p hp i e he
  have hkey : l.key (l.edges e).node = l.edgeKey e := by rw [AddrLinks.key, hdown.parentEdge]
  have hlen := hdown.extends_.length_le
  rw [length_append, length_singleton] at hlen
  rw [hkey]
  exact ⟨hdown.mem, hlen⟩

theorem LinksOk.exists_leaf (h : LinksOk l) (hne : l.lru ≠ []) :
    ∃ n ∈ l.lru, hasTwo l n = false := by
  have hnonempty : l.lru.toFinset.Nonempty := by simpa using hne
  obtain ⟨n, hn, hmax⟩ := l.lru.toFinset.exists_max_image (fun n => (l.key n).length) hnonempty
  rw [mem_toFinset] at hn
  refine ⟨n, hn, ?_⟩
  cases he : l.edge n false with
  | none => simp [hasTwo, he]
  | some e =>
    obtain ⟨hmem, hlt⟩ := h.child_depth (.inr hn) he
    have hle := hmax _ (mem_toFinset.2 hmem)
    omega

/-- How many nodes the clean-up passes over before it finds one to remove. -/
def skipped (l : AddrLinks) : Nat := l.lru.findIdx fun n => !hasTwo l n

theorem LinksOk.skipped_lt (h : LinksOk l) (hne : l.lru ≠ []) : skipped l < l.lru.length := by
  obtain ⟨n, hn, htwo⟩ := h.exists_leaf hne
  apply findIdx_lt_length_of_exists
  exact ⟨n, hn, by simp [htwo]⟩

theorem children_eq_two_iff : children l n = 2 ↔ hasTwo l n = true := by
  rw [children, hasTwo]
  cases (l.edge n false).isSome <;> cases (l.edge n true).isSome <;> decide

/-- The bound on the rounds of the clean-up that are left. -/
def cleanupMeasure (l : AddrLinks) : Nat := l.lru.length * l.lru.length + skipped l

structure Round (sizefunc : α → Nat) (t t' : AddrTree α) : Prop where
  ok : TreeOk sizefunc t'
  fades : Fades t t'
  count : t'.nodeCount ≤ t.nodeCount
  less : cleanupMeasure t'.links < cleanupMeasure t.links

theorem TreeOk.rotate (h : TreeOk sizefunc t) (hlru : t.links.lru = n :: rest)
    (htwo : hasTwo t.links n = true) :
    Round sizefunc t { t with links := lruUpdate t.links n } := by
  have hmem : n ∈ t.links.lru := by
    rw [hlru]
    exact mem_cons_self
  have hupdate : lruUpdate t.links n = { t.links with lru := rest ++ [n] } := by
    have hroot : t.links.root ≠ n := fun heq => h.links.rootOut (heq ▸ hmem)
    rw [lruUpdate, if_neg hroot, lruPop, lruPush]
    simp only [hlru, erase_cons_head]
  have hperm : (rest ++ [n]).Perm t.links.lru := by
    rw [hlru]
    exact perm_append_singleton n rest
  rw [hupdate]
  refine ⟨h.reorder hperm, .reorder hperm, Int.le_refl _, ?_⟩
  have hlt := h.links.skipped_lt (ne_nil_of_mem hmem)
  have hfirst : skipped t.links = (rest.findIdx fun n => !hasTwo t.links n) + 1 := by
    rw [skipped, hlru, findIdx_cons, htwo]
    rfl
  have hlast : skipped { t.links with lru := rest ++ [n] } =
      rest.findIdx fun n => !hasTwo t.links n := by
    rw [skipped, findIdx_append]
    apply if_pos
    rw [hfirst, hlru, length_cons] at hlt
    exact Nat.lt_of_succ_lt_succ hlt
  rw [cleanupMeasure, cleanupMeasure, hlast, hfirst, hperm.length_eq]
  exact Nat.lt_succ_self _

theorem cleanupMeasure_lt (h : l'.lru.length < l.lru.length) :
    cleanupMeasure l' < cleanupMeasure l := by
  have hskip : skipped l' ≤ l'.lru.length := findIdx_le_length
  have hmul := Nat.mul_le_mul (Nat.succ_le_of_lt h) (Nat.succ_le_of_lt h)
  rw [Nat.succ_mul, Nat.mul_succ] at hmul
  rw [cleanupMeasure, cleanupMeasure]
  omega

theorem TreeOk.length_lt (h : TreeOk sizefunc t) (h' : TreeOk sizefunc t')
    (hlt : t'.nodeCount < t.nodeCount) : t'.links.lru.length < t.links.lru.length := by
  rw [h.count, h'.count] at hlt
  exact Int.ofNat_lt.1 hlt

theorem TreeOk.removeFirst (h : TreeOk sizefunc t) (hn : n ∈ t.links.lru) (hup : UpOk t.links n e)
    (htwo : hasTwo t.links n = false) : Round sizefunc t (cleanupFirst sizefunc t n) := by
  have hpurged := h.purge (.inr hn)
  have hcount := @purgeNode_count α sizefunc t n e hup.parentEdge htwo
  have hchildren : ¬ children t.links n = 2 := by
    rw [children_eq_two_iff, htwo]
    decide
  have hparent := hpurged.other _ hup.live (h.links.parent_ne hup)
  rw [cleanupFirst, hup.parentEdge]
  simp only [if_neg hchildren]
  split
  case isFalse =>
    refine ⟨hpurged.ok, hpurged.fades, hpurged.count, ?_⟩
    apply cleanupMeasure_lt (h.length_lt hpurged.ok _)
    omega
  case isTrue =>
    have hagain := hpurged.ok.purge hparent.1
    refine ⟨hagain.ok, hpurged.fades.trans hagain.fades, hagain.count.trans hpurged.count, ?_⟩
    apply cleanupMeasure_lt (h.length_lt hagain.ok _)
    have hle := hagain.count
    omega

theorem TreeOk.round (h : TreeOk sizefunc t) (hlru : t.links.lru = n :: rest) :
    Round sizefunc t (cleanupFirst sizefunc t n) := by
  have hn : n ∈ t.links.lru := by
    rw [hlru]
    exact mem_cons_self
  obtain ⟨e, hup⟩ := h.links.up n hn
  cases htwo : hasTwo t.links n with
  | false => exact h.removeFirst hn hup htwo
  | true =>
    have hrotate := h.rotate hlru htwo
    rw [cleanupFirst, hup.parentEdge]
    simp only [children_eq_two_iff.2 htwo, if_true]
    exact hrotate

def WithinLimit (t : AddrTree α) : Prop := t.maxNodeCount = 0 ∨ t.nodeCount ≤ t.maxNodeCount

/-- What the clean-up does: nodes go until there are not too many. -/
structure Cleaned (sizefunc : α → Nat) (t t' : AddrTree α) : Prop where
  ok : TreeOk sizefunc t'
  fades : Fades t t'
  count : WithinLimit t'

theorem TreeOk.cleanupLoop (h : TreeOk sizefunc t)
    (hfuel : cleanupMeasure t.links < fuel ∨ t.nodeCount ≤ t.maxNodeCount) :
    Cleaned sizefunc t (lruCleanupLoop sizefunc fuel t) := by
  induction fuel generalizing t with
  | zero =>
    rcases hfuel with hlt | hcount
    · exact absurd hlt (Nat.not_lt_zero _)
    · exact ⟨h, .refl t, .inr hcount⟩
  | succ fuel ih =>
    rw [lruCleanupLoop]
    split
    case isFalse hle => exact ⟨h, .refl t, .inr (Int.not_lt.1 hle)⟩
    case isTrue hmany =>
      split
      case h_1 hnil =>
        have hcount := h.count
        rw [hnil] at hcount
        simp only [length_nil] at hcount
        omega
      case h_2 n rest hlru =>
        have hround := h.round hlru
        have hless := hround.less
        have hrest := ih hround.ok (.inl (by omega))
        exact ⟨hrest.ok, hround.fades.trans hrest.fades, hrest.count⟩

theorem TreeOk.cleanup (h : TreeOk sizefunc t) : Cleaned sizefunc t (lruCleanup sizefunc t) := by
  rw [lruCleanup]
  split
  case isTrue hzero => exact ⟨h, .refl t, .inl hzero⟩
  case isFalse =>
    apply h.cleanupLoop
    by_cases hnil : t.links.lru = []
    · right
      rw [h.count, hnil]
      exact Int.natCast_nonneg _
    · left
      have hlt := h.links.skipped_lt hnil
      rw [cleanupMeasure]
      omega

end

theorem bits_prefix_iff : bits s1 a <+: bits s2 b ↔ a ≤ b ∧ bits s1 a = bits s2 a := by
  constructor
  · intro h
    have hle : a ≤ b := by simpa using h.length_le
    refine ⟨hle, ?_⟩
    have hother := bits_mono s2 hle
    exact (List.prefix_of_prefix_length_le h hother (by simp)).eq_of_length (by simp)
  · rintro ⟨hle, heq⟩
    rw [heq]
    exact bits_mono s2 hle

theorem TreeOk.addNode (h : TreeOk sizefunc t) (g : Graft t.links t'.links p i j K)
    (hp : t.links.Live p) (hK : t.links.key p ++ [i] <+: K)
    (hmoved : ∀ e, t.links.edge p i = some e → K ++ [j] <+: t.links.edgeKey e)
    (hnodes : t'.nodes = update t.nodes t.links.fresh x)
    (hcount : t'.nodeCount = t.nodeCount + 1) (hsize : t'.sizeBytes =
      t.sizeBytes + (sizeofNode + sizeofEdge + K.length + elemSize sizefunc x)) :
    TreeOk sizefunc t' where
  links := h.links.graft g hp hK hmoved
  count := by
    rw [hcount, g.lru, h.count, List.length_append, List.length_singleton]
    rfl
  size := by
    have hold : ∀ q, t.links.Live q → nodeSize sizefunc t' q = nodeSize sizefunc t q := by
      intro q hq
      apply nodeSize_congr
      · rw [depthOf_eq, depthOf_eq, g.old_key h.links hq]
      · rw [hnodes, update_of_ne (h.links.ne_fresh hq)]
    have hnew : nodeSize sizefunc t' t.links.fresh =
        sizeofNode + sizeofEdge + K.length + elemSize sizefunc x := by
      rw [nodeSize, depthOf_eq, g.new_key, hnodes, update_self]
    have hperm : t'.links.lru.Perm (t.links.fresh :: t.links.lru) := by
      rw [g.lru]
      exact List.perm_append_singleton _ _
    have hsame : total t.links.lru (nodeSize sizefunc t') id =
        total t.links.lru (nodeSize sizefunc t) id :=
      total_congr fun q hq => hold q (.inr hq)
    rw [hsize, h.size, total_perm hperm, total_cons, hsame, id, hnew, g.root, hnodes,
      update_of_ne (h.links.ne_fresh (.inl rfl))]
    omega

/-- The step that stores data `x` for the bit string `P`. -/
structure Stores (t t' : AddrTree α) (P : List Bool) (x : AddrNode α) : Prop where
  root : t'.links.root = t.links.root
  maxDepth : t'.maxDepth = t.maxDepth
  maxNodeCount : t'.maxNodeCount = t.maxNodeCount
  data : ∀ n, t'.links.Live n → (t'.nodes n).elem ≠ none →
    (t'.links.key n = P ∧ t'.nodes n = x) ∨
      (t'.links.key n ≠ P ∧ t.links.Live n ∧ t'.links.key n = t.links.key n ∧
        t'.nodes n = t.nodes n)

theorem Graft.stores (h : LinksOk t.links) (h' : LinksOk t'.links)
    (g : Graft t.links t'.links p i j K)
    (hnodes : t'.nodes = update t.nodes t.links.fresh x)
    (hdepth : t'.maxDepth = t.maxDepth) (hmax : t'.maxNodeCount = t.maxNodeCount) :
    Stores t t' K x where
  root := g.root
  maxDepth := hdepth
  maxNodeCount := hmax
  data := by
    intro n hn _
    by_cases hnew : n = t.links.fresh
    · left
      rw [hnew, g.new_key, hnodes, update_self]
      exact ⟨rfl, rfl⟩
    · right
      have hold : t.links.Live n := (g.live.1 hn).resolve_right hnew
      have hne : t'.links.key n ≠ K := by
        intro hkey
        rw [← g.new_key] at hkey
        exact hnew (h'.key_inj hn (g.live.2 (.inr rfl)) hkey)
      exact ⟨hne, hold, g.old_key h hold, by rw [hnodes, update_of_ne hnew]⟩

theorem Graft.fades (h : LinksOk t.links) (g : Graft t.links t'.links p i j K)
    (hnodes : t'.nodes = update t.nodes t.links.fresh x) (hx : x.elem = none)
    (hdepth : t'.maxDepth = t.maxDepth) (hmax : t'.maxNodeCount = t.maxNodeCount) : Fades t t' where
  root := g.root
  maxDepth := hdepth
  maxNodeCount := hmax
  data := by
    intro n hn helem
    have hne : n ≠ t.links.fresh := by
      rintro rfl
      rw [hnodes, update_self] at helem
      exact helem hx
    have hold : t.links.Live n := (g.live.1 hn).resolve_right hne
    rw [hnodes, update_of_ne hne]
    exact ⟨hold, g.old_key h hold, .refl _ _⟩

theorem newNode_graft (addr : List UInt8) (len : Nat) (j : Bool) (hnone : l.edge p i = none) :
    Graft l
      (lruPush (edgeCreate { l with
        edge := update l.edge l.fresh fun _ => none
        parentEdge := update l.parentEdge l.fresh none
        fresh := l.fresh + 1 } l.fresh addr len p i) l.fresh) p i j (bits addr len) where
  root := rfl
  lru := rfl
  fresh := rfl
  freshEdge := rfl
  edge := by
    intro q k
    rw [hnone, ite_self]
    apply (setEdge_edge _).trans
    congr 1
    by_cases hq : q = l.fresh
    · rw [if_pos hq, hq]
      simp
    · simp [hq]
  parentEdge := by
    intro q
    by_cases hq : q = l.fresh
    · simp [lruPush, edgeCreate, setEdge, hq]
    · simp [lruPush, edgeCreate, setEdge, hq]
  new := by
    simp only [lruPush, edgeCreate, setEdge, AddrLinks.edgeKey, update_self]
    exact ⟨trivial, trivial, trivial, bits_take addr⟩
  moved e he := by
    rw [hnone] at he
    cases he
  other e he _ := update_of_ne (ne_of_lt he) _ _

theorem addSize_sizeBytes (t : AddrTree α) (n : Nat) :
    (addSize sizefunc t n).sizeBytes = t.sizeBytes +
      (sizeofNode + sizeofEdge + (t.links.key n).length + elemSize sizefunc (t.nodes n)) := by
  rw [addSize, nodeSize, depthOf_eq]

theorem TreeOk.newLeaf (h : TreeOk sizefunc t) (hp : t.links.Live p)
    (hnone : t.links.edge p i = none) (hkey : t.links.key p ++ [i] <+: bits a.addr a.sourcemask) :
    TreeOk sizefunc (newLeaf sizefunc t p i a) ∧
      Stores t (newLeaf sizefunc t p i a) (bits a.addr a.sourcemask)
        ⟨some a.elem, a.ttl, a.scope, false⟩ := by
  have g : Graft t.links (Subnet.newLeaf sizefunc t p i a).links p i true
      (bits a.addr a.sourcemask) := newNode_graft a.addr a.sourcemask true hnone
  have hok : TreeOk sizefunc (Subnet.newLeaf sizefunc t p i a) := by
    apply h.addNode g hp hkey _ rfl rfl
    · have hnode : (newNode t (some a.elem) a.scope a.ttl a.addr a.sourcemask p i).nodes
          t.links.fresh = ⟨some a.elem, a.ttl, a.scope, false⟩ := update_self _ _ _
      have hlast : (newNode t (some a.elem) a.scope a.ttl a.addr a.sourcemask p i).links.key
          t.links.fresh = bits a.addr a.sourcemask := g.new_key
      rw [Subnet.newLeaf, addSize_sizeBytes, hnode, hlast]
      rfl
    · intro e he
      rw [hnone] at he
      cases he
  exact ⟨hok, g.stores h.links hok.links rfl rfl rfl⟩

def splitLinks (l : AddrLinks) (node : Nat) (index : Bool) (e : Nat) (addr : List UInt8)
    (common : Nat) : AddrLinks :=
  let l₀ := setEdge l node index none
  let l₁ := lruPush (edgeCreate { l₀ with
    edge := update l₀.edge l₀.fresh fun _ => none
    parentEdge := update l₀.parentEdge l₀.fresh none
    fresh := l₀.fresh + 1 } l₀.fresh addr common node index) l₀.fresh
  moveEdge (setEdge l₁ l.fresh (getbit (l.edges e).str common) (some e)) e l.fresh
    (getbit (l.edges e).str common)

theorem splitLinks_graft (h : LinksOk l) (hp : l.Live p) (he : l.edge p i = some e)
    (addr : List UInt8) (common : Nat) :
    Graft l (splitLinks l p i e addr common) p i (getbit (l.edges e).str common)
      (bits addr common) := by
  have hpne : p ≠ l.fresh := h.ne_fresh hp
  have hene := ne_of_lt (h.freshEdge_of_edge hp he)
  have hcut : (setEdge l p i none).edge p i = none := by
    rw [setEdge_edge, if_pos ⟨rfl, rfl⟩]
  have hfresh : (setEdge l p i none).fresh = l.fresh := rfl
  have g := newNode_graft addr common true hcut
  constructor
  case root => rfl
  case lru => rfl
  case fresh => rfl
  case freshEdge => rfl
  case edge =>
    intro q k
    apply (setEdge_edge (some e)).trans
    rw [g.edge, hcut, ite_self, setEdge_edge, hfresh]
    by_cases hq : q = l.fresh
    · have hplace : ¬ (q = p ∧ k = i) := fun heq => hpne (heq.1.symm.trans hq)
      rw [if_neg hplace, if_neg hplace, if_pos hq, if_pos hq, he]
      simp [hq, hpne.symm]
    · rw [if_neg fun heq => hq heq.1, if_neg hq]
      by_cases hplace : q = p ∧ k = i
      · rw [if_pos hplace, if_pos hplace]
        rfl
      · rw [if_neg hplace, if_neg hplace, if_neg hplace, if_neg hq]
  case parentEdge => exact g.parentEdge
  case new =>
    have hself : (splitLinks l p i e addr common).edges l.freshEdge =
        ⟨addr.take (keyBytes common), common, l.fresh, p, i⟩ := by
      apply (update_of_ne hene.symm _ _).trans
      exact update_self _ _ _
    rw [AddrLinks.edgeKey, hself]
    exact ⟨rfl, rfl, rfl, bits_take addr⟩
  case moved =>
    intro f hf
    rw [he, Option.some.injEq] at hf
    subst hf
    apply (update_self _ _ _).trans
    have hold := g.other e (h.freshEdge_of_edge hp he) (by simp [hcut])
    exact congrArg (fun x : AddrEdge => { x with
      parentNode := l.fresh, parentIndex := getbit (l.edges e).str common }) hold
  case other =>
    intro f hf hne
    rw [he] at hne
    have hfe : f ≠ e := fun heq => hne (heq ▸ rfl)
    apply (update_of_ne hfe _ _).trans
    exact g.other f hf (by simp [hcut])

/-- The split of an edge, before the data goes to another leaf. -/
def splitNode (sizefunc : α → Nat) (t : AddrTree α) (node : Nat) (index : Bool) (e common : Nat)
    (a : AddrInsert α) : AddrTree α :=
  let x : AddrNode α := if common = a.sourcemask then
    ⟨some a.elem, a.ttl, a.scope, a.onlyMatchScopeZero⟩ else ⟨none, 0, 0, false⟩
  addSize sizefunc { t with
    nodes := update t.nodes t.links.fresh x
    links := splitLinks t.links node index e a.addr common
    nodeCount := t.nodeCount + 1 } t.links.fresh

theorem splitEdge_eq (t : AddrTree α) (node : Nat) (index : Bool) (e common : Nat)
    (a : AddrInsert α) :
    splitEdge sizefunc t node index e common a =
      if common = a.sourcemask then splitNode sizefunc t node index e common a
      else newLeaf sizefunc (splitNode sizefunc t node index e common a) t.links.fresh
        (!getbit (t.links.edges e).str common) a := by
  by_cases hcommon : common = a.sourcemask
  · subst hcommon
    have hfresh : (setEdge t.links node index none).fresh = t.links.fresh := rfl
    simp only [splitEdge, splitNode, if_true, newNode, nodeCreate, AddrTree.modify,
      splitLinks, hfresh, update_idem]
  · simp only [splitEdge, splitNode, if_neg hcommon]
    rfl

theorem TreeOk.splitNode (h : TreeOk sizefunc t) (hp : t.links.Live p)
    (he : t.links.edge p i = some e) (hkey : t.links.key p ++ [i] <+: bits a.addr common)
    (hsame : bits (t.links.edges e).str common = bits a.addr common)
    (hlt : common < (t.links.edges e).len) :
    TreeOk sizefunc (splitNode sizefunc t p i e common a) := by
  have g := splitLinks_graft h.links hp he a.addr common
  apply h.addNode g hp hkey _ rfl rfl
  · have hlast : AddrLinks.key (splitLinks t.links p i e a.addr common) t.links.fresh =
        bits a.addr common := g.new_key
    rw [Subnet.splitNode, addSize_sizeBytes, hlast]
    dsimp only
    rw [update_self]
  · intro f hf
    rw [he, Option.some.injEq] at hf
    rw [← hf, ← hsame, ← bits_succ]
    exact bits_mono _ hlt

structure Holds (a : AddrInsert α) (x : AddrNode α) : Prop where
  elem : x.elem = some a.elem
  ttl : x.ttl = a.ttl
  scope : x.scope = a.scope
  onlyMatchScopeZero : x.onlyMatchScopeZero = a.onlyMatchScopeZero ∨
    (0 < a.sourcemask ∧ x.onlyMatchScopeZero = false)

/-- What an insert does: nodes fade before and after its data is stored. -/
def Stored (t t' : AddrTree α) (a : AddrInsert α) : Prop :=
  ∃ t₁ t₂ x, Fades t t₁ ∧ Stores t₁ t₂ (bits a.addr a.sourcemask) x ∧ Holds a x ∧ Fades t₂ t'

theorem Stored.before (h : Fades t₀ t) (hs : Stored t t' a) : Stored t₀ t' a := by
  obtain ⟨t₁, t₂, x, hbefore, hx⟩ := hs
  exact ⟨t₁, t₂, x, h.trans hbefore, hx⟩

theorem Stored.after (hs : Stored t t' a) (h : Fades t' t₃) : Stored t t₃ a := by
  obtain ⟨t₁, t₂, x, hbefore, hstores, hx, hafter⟩ := hs
  exact ⟨t₁, t₂, x, hbefore, hstores, hx, hafter.trans h⟩

theorem Stores.stored (hs : Stores t t' (bits a.addr a.sourcemask) x) (hx : Holds a x) :
    Stored t t' a :=
  ⟨t, t', x, .refl t, hs, hx, .refl t'⟩

theorem TreeOk.splitEdge (h : TreeOk sizefunc t) (hp : t.links.Live p)
    (he : t.links.edge p i = some e) (hkey : t.links.key p ++ [i] <+: bits a.addr common)
    (hc : Common (t.links.edges e).str (t.links.edges e).len a.addr a.sourcemask depth common)
    (hlt : common < (t.links.edges e).len) (hpos : 0 < a.sourcemask) :
    TreeOk sizefunc (splitEdge sizefunc t p i e common a) ∧
      Stored t (splitEdge sizefunc t p i e common a) a := by
  have g := splitLinks_graft h.links hp he a.addr common
  have hok := h.splitNode hp he hkey hc.same hlt
  rw [splitEdge_eq]
  split
  case isTrue hcommon =>
    refine ⟨hok, ?_⟩
    have hstores := g.stores h.links hok.links rfl rfl rfl
    rw [if_pos hcommon, hcommon] at hstores
    rw [hcommon] at *
    exact hstores.stored ⟨rfl, rfl, rfl, .inl rfl⟩
  case isFalse hcommon =>
    have hnone : (splitLinks t.links p i e a.addr common).edge t.links.fresh
        (!getbit (t.links.edges e).str common) = none := by
      rw [g.edge, if_neg fun heq => h.links.ne_fresh hp heq.1.symm, if_pos rfl, if_neg]
      exact Bool.not_ne_self _
    have hright : common < a.sourcemask := lt_of_le_of_ne hc.right hcommon
    have hleaf : AddrLinks.key (splitLinks t.links p i e a.addr common) t.links.fresh ++
        [!getbit (t.links.edges e).str common] <+: bits a.addr a.sourcemask := by
      rw [g.new_key, hc.differ hlt hright, Bool.not_not, ← bits_succ]
      exact bits_mono _ hright
    obtain ⟨hok', hstores⟩ := hok.newLeaf (g.live.2 (.inr rfl)) hnone hleaf
    have hnodes : (Subnet.splitNode sizefunc t p i e common a).nodes =
        update t.nodes t.links.fresh ⟨none, 0, 0, false⟩ := by
      rw [Subnet.splitNode, if_neg hcommon]
      rfl
    exact ⟨hok', .before (g.fades h.links hnodes rfl rfl rfl)
      (hstores.stored ⟨rfl, rfl, rfl, .inr ⟨hpos, rfl⟩⟩)⟩

structure Inserted (sizefunc : α → Nat) (t t' : AddrTree α) (a : AddrInsert α) : Prop where
  ok : TreeOk sizefunc t'
  limit : WithinLimit t'
  stored : Stored t t' a

theorem TreeOk.updateNode (h : TreeOk sizefunc t) (hn : t.links.Live n)
    (hlimit : WithinLimit t) (hkey : t.links.key n = bits a.addr a.sourcemask) :
    Inserted sizefunc t (updateNode sizefunc t n a) a := by
  obtain ⟨y, hnodes, _, hlinks, hcount, hdepth, hmax, hsize⟩ := cleanNode_spec sizefunc t n
  have hupdate : (Subnet.updateNode sizefunc t n a).nodes = update t.nodes n
      ⟨some a.elem, a.ttl, a.scope, a.onlyMatchScopeZero⟩ := by
    rw [Subnet.updateNode, AddrTree.modify, hnodes]
    exact update_idem _ _ _
  constructor
  case ok =>
    apply h.setNode hn hupdate hlinks hcount
    rw [Subnet.updateNode, hsize]
    rfl
  case limit =>
    rw [WithinLimit, Subnet.updateNode]
    dsimp only [AddrTree.modify]
    rw [hmax, hcount]
    exact hlimit
  case stored =>
    have hholds : Holds a ⟨some a.elem, a.ttl, a.scope, a.onlyMatchScopeZero⟩ :=
      ⟨rfl, rfl, rfl, .inl rfl⟩
    refine Stores.stored ⟨congrArg _ hlinks, hdepth, hmax, ?_⟩ hholds
    intro m hm _
    have hlinks' : (Subnet.updateNode sizefunc t n a).links = t.links := hlinks
    rw [hlinks'] at hm ⊢
    rw [hupdate, ← hkey]
    by_cases hmn : m = n
    · rw [hmn, update_self]
      exact .inl ⟨rfl, rfl⟩
    · rw [update_of_ne hmn]
      exact .inr ⟨fun heq => hmn (h.links.key_inj hm hn heq), hm, rfl, rfl⟩

theorem WithinLimit.mono (h : WithinLimit t) (hmax : t'.maxNodeCount = t.maxNodeCount)
    (hcount : t'.nodeCount ≤ t.nodeCount) : WithinLimit t' := by
  rw [WithinLimit, hmax]
  exact h.imp_right hcount.trans

theorem TreeOk.inserted (h : TreeOk sizefunc t') (hs : Stored t t' a) :
    Inserted sizefunc t (lruCleanup sizefunc t') a := by
  have hclean := h.cleanup
  exact ⟨hclean.ok, hclean.count, hs.after hclean.fades⟩

theorem Inserted.before (h : Fades t₀ t) (hi : Inserted sizefunc t t' a) :
    Inserted sizefunc t₀ t' a :=
  ⟨hi.ok, hi.limit, hi.stored.before h⟩

theorem TreeOk.raiseScope (h : TreeOk sizefunc t) (hn : t.links.Live n)
    (hlt : (t.links.key n).length < scope) :
    TreeOk sizefunc (t.modify n fun x => { x with scope := scope }) ∧
      Fades t (t.modify n fun x => { x with scope := scope }) := by
  constructor
  · refine h.setNode hn rfl rfl rfl ?_
    exact (Int.sub_add_cancel _ _).symm
  · refine ⟨rfl, rfl, rfl, ?_⟩
    intro m hm _
    refine ⟨hm, rfl, ?_⟩
    dsimp only [AddrTree.modify]
    by_cases hmn : m = n
    · rw [hmn, update_self]
      exact ⟨rfl, rfl, rfl, .inr hlt⟩
    · rw [update_of_ne hmn]
      exact .refl _ _

theorem LinksOk.edge_bits (h : LinksOk l) (hp : l.Live p) (hkey : l.key p = bits addr depth)
    (he : l.edge p (getbit addr depth) = some e) :
    depth < (l.edges e).len ∧ bits (l.edges e).str (depth + 1) = bits addr (depth + 1) := by
  have hdown := (h.down p hp _ e he).extends_
  rw [hkey, ← bits_succ] at hdown
  obtain ⟨hle, heq⟩ := bits_prefix_iff.1 hdown
  exact ⟨hle, heq.symm⟩

theorem LinksOk.edge_node (h : LinksOk l) (hp : l.Live p) (he : l.edge p i = some e) :
    l.Live (l.edges e).node ∧ l.key (l.edges e).node = l.edgeKey e := by
  have hdown := h.down p hp i e he
  refine ⟨.inr hdown.mem, ?_⟩
  rw [AddrLinks.key, hdown.parentEdge]

theorem bits_eq_of_le (h : bits s1 m = bits s2 m) (hle : n ≤ m) : bits s1 n = bits s2 n :=
  bits_eq_iff.2 fun k hk => bits_eq_iff.1 h k (lt_of_lt_of_le hk hle)

theorem TreeOk.insertLoop (fuel : Nat) (h : TreeOk sizefunc t)
    (hlimit : WithinLimit t) (hn : t.links.Live node)
    (hkey : t.links.key node = bits a.addr depth) (hdepth : depth ≤ a.sourcemask)
    (hfuel : a.sourcemask < depth + fuel) (hscope : a.sourcemask ≤ a.scope) :
    Inserted sizefunc t (insertLoop sizefunc a fuel t node depth) a := by
  induction fuel generalizing t node depth with
  | zero => omega
  | succ fuel ih =>
    rw [Subnet.insertLoop]
    split
    case isTrue heq =>
      rw [heq] at hkey
      exact h.updateNode hn hlimit hkey
    case isFalse hne =>
      have hlt : depth < a.sourcemask := lt_of_le_of_ne hdepth hne
      have hswept : Swept sizefunc t (purgeExpired sizefunc node (getbit a.addr depth) a.now
          (t.links.lru.length + 1) t) node := h.swept _ hn
      dsimp only
      revert hswept
      generalize purgeExpired sizefunc node (getbit a.addr depth) a.now
        (t.links.lru.length + 1) t = t₁
      intro hswept
      have hkey₁ := hswept.key.trans hkey
      apply Inserted.before hswept.fades
      split
      case h_1 hnone =>
        have hleaf : t₁.links.key node ++ [getbit a.addr depth] <+: bits a.addr a.sourcemask := by
          rw [hkey₁, ← bits_succ]
          exact bits_mono _ hlt
        obtain ⟨hok, hstores⟩ := hswept.ok.newLeaf hswept.live hnone hleaf
        exact hok.inserted (hstores.stored ⟨rfl, rfl, rfl, .inr ⟨by omega, rfl⟩⟩)
      case h_2 e he =>
        obtain ⟨hlen, hbits⟩ := hswept.ok.links.edge_bits hswept.live hkey₁ he
        have hc := bitsCommon_spec (le_of_lt hlen) hdepth (bits_eq_of_le hbits (Nat.le_succ depth))
        revert hc
        generalize bitsCommon (t₁.links.edges e).str (t₁.links.edges e).len a.addr a.sourcemask
          depth = common
        intro hc
        split
        case isTrue hwhole =>
          have hraised : (t₁.links.key node).length < a.scope := by
            rw [hkey₁, bits_length]
            exact lt_of_lt_of_le hlt hscope
          obtain ⟨hok, hfades⟩ := hswept.ok.raiseScope hswept.live hraised
          obtain ⟨hlive, hnode⟩ := hswept.ok.links.edge_node hswept.live he
          have hsame := hc.same
          have hright := hc.right
          rw [hwhole] at hsame hright
          apply Inserted.before hfades
          refine ih hok (hlimit.mono hswept.fades.maxNodeCount hswept.count) hlive ?_ hright ?_
          · exact hnode.trans hsame
          · omega
        case isFalse hpart =>
          have hlt' : common < (t₁.links.edges e).len := lt_of_le_of_ne hc.left hpart
          -- the bit after the node's depth is the one the edge was chosen by
          have hnext : depth < common := by
            apply lt_of_le_of_ne hc.skip
            rintro rfl
            have hbit := bits_eq_iff.1 hbits depth (Nat.lt_succ_self depth)
            rw [hc.differ hlt' hlt] at hbit
            exact Bool.not_ne_self _ hbit
          have hleaf : t₁.links.key node ++ [getbit a.addr depth] <+: bits a.addr common := by
            rw [hkey₁, ← bits_succ]
            exact bits_mono _ hnext
          obtain ⟨hok, hstored⟩ := hswept.ok.splitEdge hswept.live he hleaf hc hlt' (by omega)
          exact hok.inserted hstored

end CwdGate.Subnet
