import Mathlib

namespace CwdGate.Subnet
open Function

structure AddrEdge where
  str : List UInt8
  len : Nat
  node : Nat
  parentNode : Nat
  parentIndex : Bool
  deriving DecidableEq, Repr

structure AddrNode (α : Type) where
  elem : Option α
  ttl : Int
  scope : Nat
  onlyMatchScopeZero : Bool
  deriving DecidableEq, Repr

/-- The edges and the parent edge of each node, the edges by address, the LRU list, and the next
addresses. -/
structure AddrLinks where
  root : Nat
  edge : Nat → Bool → Option Nat
  parentEdge : Nat → Option Nat
  edges : Nat → AddrEdge
  lru : List Nat
  fresh : Nat
  freshEdge : Nat

structure AddrTree (α : Type) where
  nodes : Nat → AddrNode α
  links : AddrLinks
  nodeCount : Int
  maxNodeCount : Nat
  sizeBytes : Int
  maxDepth : Nat

structure AddrInsert (α : Type) where
  addr : List UInt8
  sourcemask : Nat
  scope : Nat
  elem : α
  ttl : Int
  now : Int
  onlyMatchScopeZero : Bool

def keywidth : Nat := 8

/-- The sizes of `struct addrtree`, `struct addrnode` and `struct addredge`. -/
def sizeofTree : Int := 72
def sizeofNode : Int := 64
def sizeofEdge : Int := 40

/-- Bit `n` of an address, from the most significant one on. -/
def getbit (addr : List UInt8) (n : Nat) : Bool :=
  (addr.getD (n / keywidth) 0 >>> UInt8.ofNat (keywidth - 1 - n % keywidth)) &&& 1 = 1

def cmpbit (key1 key2 : List UInt8) (n : Nat) : Bool :=
  ((key1.getD (n / keywidth) 0 ^^^ key2.getD (n / keywidth) 0) >>>
    UInt8.ofNat (keywidth - 1 - n % keywidth)) &&& 1 = 1

/-- The loop of `bits_common` over the bits that are left, from bit `i` on. -/
def bitsCommonLoop (s1 s2 : List UInt8) : Nat → Nat → Nat
  | 0, i => i
  | left + 1, i => if cmpbit s1 s2 i then i else bitsCommonLoop s1 s2 left (i + 1)

def bitsCommon (s1 : List UInt8) (l1 : Nat) (s2 : List UInt8) (l2 skip : Nat) : Nat :=
  bitsCommonLoop s1 s2 (min l1 l2 - skip) skip

def issub (s1 : List UInt8) (l1 : Nat) (s2 : List UInt8) (l2 skip : Nat) : Bool :=
  bitsCommon s1 l1 s2 l2 skip = l1

def keyBytes (addrlen : Nat) : Nat :=
  addrlen / keywidth + if addrlen % keywidth ≠ 0 then 1 else 0

section Links

variable (l : AddrLinks) (node : Nat)

def setEdge (index : Bool) (e : Option Nat) : AddrLinks :=
  { l with edge := update l.edge node (update (l.edge node) index e) }

def edgeCreate (addr : List UInt8) (addrlen parentNode : Nat) (parentIndex : Bool) : AddrLinks :=
  setEdge
    { l with
      edges := update l.edges l.freshEdge {
        str := addr.take (keyBytes addrlen)
        len := addrlen
        node := node
        parentNode := parentNode
        parentIndex := parentIndex }
      parentEdge := update l.parentEdge node (some l.freshEdge)
      freshEdge := l.freshEdge + 1 }
    parentNode parentIndex (some l.freshEdge)

def moveEdge (e parentNode : Nat) (parentIndex : Bool) : AddrLinks :=
  { l with
    edges := update l.edges e { l.edges e with
      parentNode := parentNode
      parentIndex := parentIndex } }

def lruPop : AddrLinks := { l with lru := l.lru.erase node }

def lruPush : AddrLinks := { l with lru := l.lru ++ [node] }

def lruUpdate : AddrLinks :=
  if l.root = node then l else lruPush (lruPop l node) node

def childEdge : Option Nat :=
  l.edge node (!(l.edge node false).isSome)

/-- The part of `purge_node` that takes a node with parent edge `e` out of the tree. -/
def unlinkNode (node e : Nat) : AddrLinks :=
  let parent := (l.edges e).parentNode
  let index := (l.edges e).parentIndex
  let l' := match childEdge l node with
    | none => l
    | some c => moveEdge l c parent index
  lruPop (setEdge l' parent index (childEdge l node)) node

def hasTwo : Bool :=
  (l.edge node false).isSome && (l.edge node true).isSome

def children : Nat :=
  (l.edge node false).isSome.toNat + (l.edge node true).isSome.toNat

/-- The length of the edge to a node, which is the depth of the node. -/
def depthOf : Nat :=
  match l.parentEdge node with
  | none => 0
  | some e => (l.edges e).len

end Links

section Model
def AddrTree.modify (t : AddrTree α) (node : Nat) (f : AddrNode α → AddrNode α) : AddrTree α :=
  { t with nodes := update t.nodes node (f (t.nodes node)) }

/-- `node_create`: the node is at the next fresh address. -/
def nodeCreate (t : AddrTree α) (elem : Option α) (scope : Nat) (ttl : Int) : AddrTree α :=
  { t with
    nodes := update t.nodes t.links.fresh {
      elem := elem
      ttl := ttl
      scope := scope
      onlyMatchScopeZero := false }
    links := { t.links with
      edge := update t.links.edge t.links.fresh fun _ => none
      parentEdge := update t.links.parentEdge t.links.fresh none
      fresh := t.links.fresh + 1 }
    nodeCount := t.nodeCount + 1 }

variable (sizefunc : α → Nat)

section
variable (t : AddrTree α) (node : Nat)

def elemSize (x : AddrNode α) : Int :=
  match x.elem with
  | none => 0
  | some e => sizefunc e

def nodeSize (n : Nat) : Int :=
  sizeofNode + sizeofEdge + depthOf t.links n + elemSize sizefunc (t.nodes n)

def addrtreeCreate (maxDepth maxNodeCount : Nat) : AddrTree α where
  nodes _ := ⟨none, 0, 0, false⟩
  links := {
    root := 0
    edge := fun _ _ => none
    parentEdge := fun _ => none
    edges := fun _ => ⟨[], 0, 0, 0, false⟩
    lru := []
    fresh := 1
    freshEdge := 0 }
  nodeCount := 0
  maxNodeCount := maxNodeCount
  sizeBytes := sizeofTree + sizeofNode
  maxDepth := maxDepth

def cleanNode : AddrTree α :=
  match (t.nodes node).elem with
  | none => t
  | some e =>
    { t.modify node fun x => { x with onlyMatchScopeZero := false, elem := none } with
      sizeBytes := t.sizeBytes - sizefunc e }

def purgeNode : AddrTree α :=
  let t' := cleanNode sizefunc t node
  match t.links.parentEdge node with
  | none => t'
  | some e =>
    if hasTwo t.links node then t'
    else
      { t' with
        nodeCount := t'.nodeCount - 1
        links := unlinkNode t'.links node e
        sizeBytes := t'.sizeBytes - nodeSize sizefunc t' node }

/-- The body of the loop of `lru_cleanup` for the first node of the list. -/
def cleanupFirst (n : Nat) : AddrTree α :=
  match t.links.parentEdge n with
  | none => { t with links := lruUpdate t.links n }
  | some e =>
    if children t.links n = 2 then { t with links := lruUpdate t.links n }
    else
      let p := (t.links.edges e).parentNode
      let t' := purgeNode sizefunc t n
      if (t'.nodes p).elem.isNone ∧ children t'.links p = 1 ∧ (t'.links.parentEdge p).isSome then
        purgeNode sizefunc t' p
      else t'

def lruCleanupLoop : Nat → AddrTree α → AddrTree α
  | 0, t => t
  | fuel + 1, t =>
    if t.maxNodeCount < t.nodeCount then
      match t.links.lru with
      | [] => t
      | n :: _ => lruCleanupLoop fuel (cleanupFirst sizefunc t n)
    else t

def lruCleanup : AddrTree α :=
  if t.maxNodeCount = 0 then t
  else
    lruCleanupLoop sizefunc (t.links.lru.length * t.links.lru.length + t.links.lru.length) t

/-- The loop that purges the expired nodes at an edge, at most `fuel` times. -/
def purgeExpired (node : Nat) (index : Bool) (now : Int) : Nat → AddrTree α → AddrTree α
  | 0, t => t
  | fuel + 1, t =>
    match t.links.edge node index with
    | none => t
    | some e =>
      let child := (t.links.edges e).node
      if (t.nodes child).elem.isNone ∨ now ≤ (t.nodes child).ttl then t
      else purgeExpired node index now fuel (purgeNode sizefunc t child)

def newNode (elem : Option α) (scope : Nat) (ttl : Int) (addr : List UInt8) (addrlen parent : Nat)
    (index : Bool) : AddrTree α :=
  let c := t.links.fresh
  let t' := nodeCreate t elem scope ttl
  { t' with links := lruPush (edgeCreate t'.links c addr addrlen parent index) c }

def addSize : AddrTree α :=
  { t with sizeBytes := t.sizeBytes + nodeSize sizefunc t node }

def updateNode (i : AddrInsert α) : AddrTree α :=
  let t' := cleanNode sizefunc t node
  { t'.modify node fun _ => ⟨some i.elem, i.ttl, i.scope, i.onlyMatchScopeZero⟩ with
    sizeBytes := t'.sizeBytes + sizefunc i.elem }

def newLeaf (index : Bool) (i : AddrInsert α) : AddrTree α :=
  addSize sizefunc (newNode t (some i.elem) i.scope i.ttl i.addr i.sourcemask node index)
    t.links.fresh

def splitEdge (index : Bool) (e common : Nat) (i : AddrInsert α) : AddrTree α :=
  let mid := t.links.fresh
  let t₁ := newNode { t with links := setEdge t.links node index none } none 0 0 i.addr common node
    index
  let index' := getbit (t.links.edges e).str common
  let t₂ := { t₁ with links := moveEdge (setEdge t₁.links mid index' (some e)) e mid index' }
  let t₃ := if common = i.sourcemask then
    t₂.modify mid fun _ => ⟨some i.elem, i.ttl, i.scope, i.onlyMatchScopeZero⟩ else t₂
  let t₄ := addSize sizefunc t₃ mid
  if common = i.sourcemask then t₄ else newLeaf sizefunc t₄ mid (!index') i

/-- The loop of `addrtree_insert`, from a node at a depth on. -/
def insertLoop (i : AddrInsert α) : Nat → AddrTree α → Nat → Nat → AddrTree α
  | 0, t, _, _ => t
  | fuel + 1, t, node, depth =>
    if depth = i.sourcemask then updateNode sizefunc t node i
    else
      let index := getbit i.addr depth
      let t' := purgeExpired sizefunc node index i.now (t.links.lru.length + 1) t
      match t'.links.edge node index with
      | none => lruCleanup sizefunc (newLeaf sizefunc t' node index i)
      | some e =>
        let edge := t'.links.edges e
        let common := bitsCommon edge.str edge.len i.addr i.sourcemask depth
        if common = edge.len then
          insertLoop i fuel (t'.modify node fun x => { x with scope := i.scope }) edge.node edge.len
        else lruCleanup sizefunc (splitEdge sizefunc t' node index e common i)

/-- The scope and the source mask that `addrtree_insert` uses. -/
def AddrInsert.capped (i : AddrInsert α) (maxDepth : Nat) : AddrInsert α :=
  { i with
    scope := min i.scope maxDepth
    sourcemask := min i.sourcemask (min i.scope maxDepth) }

def addrtreeInsert (i : AddrInsert α) : AddrTree α :=
  let i' := i.capped t.maxDepth
  insertLoop sizefunc i' (i'.sourcemask + 1) t t.links.root 0

end

omit sizefunc

/-- Whether `addrtree_find` takes the data of a node at a depth. -/
def hasMatch (x : AddrNode α) (depth sourcemask : Nat) (now : Int) : Bool :=
  x.elem.isSome ∧ now ≤ x.ttl ∧ ¬ (sourcemask ≠ 0 ∧ x.onlyMatchScopeZero = true) ∧
    (depth = x.scope ∨ (sourcemask < x.scope ∧ depth = sourcemask))

def findLoop (t : AddrTree α) (addr : List UInt8) (sourcemask : Nat) (now : Int) :
    Nat → Nat → Nat → Option Nat
  | 0, _, _ => none
  | fuel + 1, node, depth =>
    if hasMatch (t.nodes node) depth sourcemask now then some node
    else if depth = sourcemask then none
    else
      match t.links.edge node (getbit addr depth) with
      | none => none
      | some e =>
        let edge := t.links.edges e
        if sourcemask < edge.len then none
        else if !issub edge.str edge.len addr sourcemask depth then none
        else findLoop t addr sourcemask now fuel edge.node edge.len

/-- `addrtree_find`: the node, which becomes the most recently used one. -/
def addrtreeFind (t : AddrTree α) (addr : List UInt8) (sourcemask : Nat) (now : Int) :
    Option Nat × AddrTree α :=
  match findLoop t addr sourcemask now (sourcemask + 1) t.links.root 0 with
  | none => (none, t)
  | some n => (some n, { t with links := lruUpdate t.links n })

end Model

open List

theorem bit_eq_testBit (hk : k < 8) :
    decide ((x >>> UInt8.ofNat k) &&& 1 = 1) = x.toNat.testBit k := by
  have hmod : k % 256 = k := Nat.mod_eq_of_lt (by omega)
  rw [Nat.testBit, Bool.eq_iff_iff, decide_eq_true_eq, ← UInt8.toNat_inj]
  simp [UInt8.toNat_shiftRight, UInt8.toNat_and, Nat.mod_eq_of_lt hk, Nat.and_comm, hmod]

theorem getbit_eq : getbit addr n = (addr.getD (n / 8) 0).toNat.testBit (7 - n % 8) := by
  have hlt : 7 - n % 8 < 8 := by omega
  exact bit_eq_testBit hlt

theorem cmpbit_eq : cmpbit s1 s2 n = (getbit s1 n != getbit s2 n) := by
  have hlt : 7 - n % 8 < 8 := by omega
  have hcmp : cmpbit s1 s2 n =
      (s1.getD (n / 8) 0 ^^^ s2.getD (n / 8) 0).toNat.testBit (7 - n % 8) :=
    bit_eq_testBit hlt
  rw [hcmp, getbit_eq, getbit_eq, UInt8.toNat_xor, Nat.testBit_xor]

theorem getbit_take (h : n < len) : getbit (addr.take (keyBytes len)) n = getbit addr n := by
  have hlt : n / 8 < keyBytes len := by
    by_cases hrest : len % 8 = 0
    · simp only [keyBytes, keywidth, hrest, ne_eq, not_true, if_false]
      omega
    · simp only [keyBytes, keywidth, hrest, ne_eq, not_false_eq_true, if_true]
      omega
  rw [getbit_eq, getbit_eq, getD_eq_getElem?_getD, getD_eq_getElem?_getD, getElem?_take_of_lt hlt]

section
variable (addr : List UInt8)

def bits (len : Nat) : List Bool := (List.range len).map (getbit addr)

@[simp] theorem bits_length (len : Nat) : (bits addr len).length = len := by
  simp [bits]

@[simp] theorem bits_zero : bits addr 0 = [] := rfl

theorem bits_succ (len : Nat) : bits addr (len + 1) = bits addr len ++ [getbit addr len] := by
  simp [bits, range_succ]

theorem bits_eq_iff : bits s1 len = bits s2 len ↔ ∀ k < len, getbit s1 k = getbit s2 k := by
  simp [bits]

theorem bits_take : bits (addr.take (keyBytes len)) len = bits addr len :=
  bits_eq_iff.2 fun _ => getbit_take

theorem bits_mono (h : n ≤ len) : bits addr n <+: bits addr len := by
  have hrange : range n <+: range len := by
    obtain ⟨k, rfl⟩ := Nat.exists_eq_add_of_le h
    exact ⟨_, range_add.symm⟩
  exact hrange.map _

end

/-- What `bits_common` gives, when the first `skip` bits are the same. -/
structure Common (s1 : List UInt8) (l1 : Nat) (s2 : List UInt8) (l2 skip c : Nat) : Prop where
  skip : skip ≤ c
  left : c ≤ l1
  right : c ≤ l2
  same : bits s1 c = bits s2 c
  differ : c < l1 → c < l2 → getbit s1 c = !getbit s2 c

theorem bitsCommonLoop_spec (left i : Nat) (hsame : bits s1 i = bits s2 i) :
    i ≤ bitsCommonLoop s1 s2 left i ∧ bitsCommonLoop s1 s2 left i ≤ i + left ∧
      bits s1 (bitsCommonLoop s1 s2 left i) = bits s2 (bitsCommonLoop s1 s2 left i) ∧
      (bitsCommonLoop s1 s2 left i < i + left →
        getbit s1 (bitsCommonLoop s1 s2 left i) = !getbit s2 (bitsCommonLoop s1 s2 left i)) := by
  induction left generalizing i with
  | zero => exact ⟨Nat.le_refl _, Nat.le_refl _, hsame, fun hlt => absurd hlt (Nat.lt_irrefl _)⟩
  | succ left ih =>
    rw [bitsCommonLoop, cmpbit_eq]
    split
    case isTrue hne =>
      refine ⟨Nat.le_refl _, by omega, hsame, fun _ => ?_⟩
      exact Bool.eq_not_of_ne (by simpa using hne)
    case isFalse heq =>
      have hsame' : bits s1 (i + 1) = bits s2 (i + 1) := by
        rw [bits_succ, bits_succ, hsame]
        congr 2
        simpa using heq
      obtain ⟨hle, hub, hs, hd⟩ := ih (i + 1) hsame'
      exact ⟨by omega, by omega, hs, fun hlt => hd (by omega)⟩

theorem bitsCommon_spec (h1 : skip ≤ l1) (h2 : skip ≤ l2) (hsame : bits s1 skip = bits s2 skip) :
    Common s1 l1 s2 l2 skip (bitsCommon s1 l1 s2 l2 skip) := by
  obtain ⟨hle, hub, hs, hd⟩ := bitsCommonLoop_spec (min l1 l2 - skip) skip hsame
  rw [bitsCommon]
  exact ⟨hle, by omega, by omega, hs, fun hlt1 hlt2 => hd (by omega)⟩

def AddrLinks.Live (l : AddrLinks) (n : Nat) : Prop := n = l.root ∨ n ∈ l.lru

def AddrLinks.edgeKey (l : AddrLinks) (e : Nat) : List Bool := bits (l.edges e).str (l.edges e).len

def AddrLinks.key (l : AddrLinks) (n : Nat) : List Bool :=
  match l.parentEdge n with
  | none => []
  | some e => l.edgeKey e

theorem depthOf_eq : depthOf l n = (l.key n).length := by
  rw [depthOf, AddrLinks.key]
  cases l.parentEdge n with
  | none => rfl
  | some e => exact (bits_length _ _).symm

/-- What an edge and its node say about it, from below. -/
structure UpOk (l : AddrLinks) (n e : Nat) : Prop where
  parentEdge : l.parentEdge n = some e
  node : (l.edges e).node = n
  live : l.Live (l.edges e).parentNode
  edge : l.edge (l.edges e).parentNode (l.edges e).parentIndex = some e

/-- What an edge and its parent node say about it, from above. -/
structure DownOk (l : AddrLinks) (p : Nat) (i : Bool) (e : Nat) : Prop where
  parentNode : (l.edges e).parentNode = p
  parentIndex : (l.edges e).parentIndex = i
  mem : (l.edges e).node ∈ l.lru
  parentEdge : l.parentEdge (l.edges e).node = some e
  extends_ : l.key p ++ [i] <+: l.edgeKey e

structure LinksOk (l : AddrLinks) : Prop where
  nodup : l.lru.Nodup
  rootOut : l.root ∉ l.lru
  rootTop : l.parentEdge l.root = none
  fresh : ∀ n, l.Live n → n < l.fresh
  freshEdge : ∀ n e, l.parentEdge n = some e → l.Live n → e < l.freshEdge
  up : ∀ n ∈ l.lru, ∃ e, UpOk l n e
  down : ∀ p, l.Live p → ∀ i e, l.edge p i = some e → DownOk l p i e

theorem LinksOk.ne_fresh (h : LinksOk l) (hn : l.Live n) : n ≠ l.fresh :=
  Nat.ne_of_lt (h.fresh n hn)

theorem LinksOk.key_root (h : LinksOk l) : l.key l.root = [] := by
  rw [AddrLinks.key, h.rootTop]

theorem LinksOk.freshEdge_of_edge (h : LinksOk l) (hp : l.Live p) (he : l.edge p i = some e) :
    e < l.freshEdge := by
  have hdown := h.down p hp i e he
  exact h.freshEdge _ e hdown.parentEdge (.inr hdown.mem)

theorem DownOk.kept (h : DownOk l p i e) (he : l'.edges e = l.edges e)
    (hmem : (l.edges e).node ∈ l'.lru)
    (hup : l'.parentEdge (l.edges e).node = l.parentEdge (l.edges e).node)
    (hkey : l'.key p = l.key p) : DownOk l' p i e := by
  constructor
  · rw [he, h.parentNode]
  · rw [he, h.parentIndex]
  · rwa [he]
  · rw [he, hup, h.parentEdge]
  · rw [hkey, AddrLinks.edgeKey, he]
    exact h.extends_

/-- A new node takes the place of what was at an edge of `p`, with that below it. -/
structure Graft (l l' : AddrLinks) (p : Nat) (i j : Bool) (K : List Bool) : Prop where
  root : l'.root = l.root
  lru : l'.lru = l.lru ++ [l.fresh]
  fresh : l'.fresh = l.fresh + 1
  freshEdge : l'.freshEdge = l.freshEdge + 1
  edge : ∀ q k, l'.edge q k =
    if q = p ∧ k = i then some l.freshEdge
    else if q = l.fresh then (if k = j then l.edge p i else none)
    else l.edge q k
  parentEdge : ∀ q, l'.parentEdge q = if q = l.fresh then some l.freshEdge else l.parentEdge q
  new : (l'.edges l.freshEdge).node = l.fresh ∧ (l'.edges l.freshEdge).parentNode = p ∧
    (l'.edges l.freshEdge).parentIndex = i ∧ l'.edgeKey l.freshEdge = K
  moved : ∀ e, l.edge p i = some e → l'.edges e = { l.edges e with
    parentNode := l.fresh, parentIndex := j }
  other : ∀ e, e < l.freshEdge → l.edge p i ≠ some e → l'.edges e = l.edges e

section
variable (g : Graft l l' p i j K)
include g

theorem Graft.live : l'.Live q ↔ l.Live q ∨ q = l.fresh := by
  rw [AddrLinks.Live, AddrLinks.Live, g.root, g.lru, mem_append, mem_singleton, or_assoc]

theorem Graft.old_edge (he : e < l.freshEdge) :
    (l'.edges e).node = (l.edges e).node ∧ l'.edgeKey e = l.edgeKey e := by
  rw [AddrLinks.edgeKey, AddrLinks.edgeKey]
  by_cases hmoved : l.edge p i = some e
  · rw [g.moved e hmoved]
    exact ⟨rfl, rfl⟩
  · rw [g.other e he hmoved]
    exact ⟨rfl, rfl⟩

theorem Graft.old_parentEdge (h : LinksOk l) (hn : l.Live n) :
    l'.parentEdge n = l.parentEdge n := by
  rw [g.parentEdge, if_neg (h.ne_fresh hn)]

theorem Graft.old_key (h : LinksOk l) (hn : l.Live n) : l'.key n = l.key n := by
  rw [AddrLinks.key, AddrLinks.key, g.old_parentEdge h hn]
  cases hpe : l.parentEdge n with
  | none => rfl
  | some e => exact (g.old_edge (h.freshEdge n e hpe hn)).2

theorem Graft.new_key : l'.key l.fresh = K := by
  rw [AddrLinks.key, g.parentEdge, if_pos rfl]
  exact g.new.2.2.2

theorem Graft.up (h : LinksOk l) (hp : l.Live p) (hn : n ∈ l'.lru) : ∃ e, UpOk l' n e := by
  have hpne : p ≠ l.fresh := h.ne_fresh hp
  rw [g.lru, mem_append, mem_singleton] at hn
  rcases hn with hn | rfl
  · obtain ⟨e, hup⟩ := h.up n hn
    have hlt := h.freshEdge n e hup.parentEdge (.inr hn)
    refine ⟨e, (g.old_parentEdge h (.inr hn)).trans hup.parentEdge, ?_, ?_, ?_⟩
    · exact (g.old_edge hlt).1.trans hup.node
    · by_cases hmoved : l.edge p i = some e
      · rw [g.moved e hmoved]
        exact g.live.2 (.inr rfl)
      · rw [g.other e hlt hmoved]
        exact g.live.2 (.inl hup.live)
    · by_cases hmoved : l.edge p i = some e
      · rw [g.moved e hmoved, g.edge, if_neg (fun heq => hpne heq.1.symm), if_pos rfl, if_pos rfl]
        exact hmoved
      · rw [g.other e hlt hmoved, g.edge, if_neg, if_neg (h.ne_fresh hup.live)]
        · exact hup.edge
        · rintro ⟨hpn, hpi⟩
          have hedge := hup.edge
          rw [hpn, hpi] at hedge
          exact hmoved hedge
  · obtain ⟨hnode, hparent, hindex, _⟩ := g.new
    refine ⟨l.freshEdge, ?_, hnode, ?_, ?_⟩
    · rw [g.parentEdge, if_pos rfl]
    · rw [hparent]
      exact g.live.2 (.inl hp)
    · rw [hparent, hindex, g.edge, if_pos ⟨rfl, rfl⟩]

theorem Graft.down (h : LinksOk l) (hp : l.Live p) (hK : l.key p ++ [i] <+: K)
    (hmoved : ∀ e, l.edge p i = some e → K ++ [j] <+: l.edgeKey e) (hq : l'.Live q)
    (he : l'.edge q k = some e) : DownOk l' q k e := by
  have hmem : ∀ n, n ∈ l.lru → n ∈ l'.lru := by
    intro n hn
    rw [g.lru]
    exact mem_append_left _ hn
  rw [g.edge] at he
  split at he
  case isTrue hpi =>
    obtain ⟨rfl, rfl⟩ := hpi
    cases he
    obtain ⟨hnode, hparent, hindex, hkey⟩ := g.new
    refine ⟨hparent, hindex, ?_, ?_, ?_⟩
    · rw [hnode, g.lru]
      exact mem_append_right _ (mem_singleton.2 rfl)
    · rw [hnode, g.parentEdge, if_pos rfl]
    · rw [g.old_key h hp, hkey]
      exact hK
  case isFalse hpi =>
    split at he
    case isTrue hfresh =>
      subst hfresh
      split at he
      case isFalse => cases he
      case isTrue hj =>
        subst hj
        have hdown := h.down p hp i e he
        have hlt := h.freshEdge_of_edge hp he
        refine ⟨by rw [g.moved e he], by rw [g.moved e he], ?_, ?_, ?_⟩
        · rw [(g.old_edge hlt).1]
          exact hmem _ hdown.mem
        · rw [(g.old_edge hlt).1, g.old_parentEdge h (.inr hdown.mem)]
          exact hdown.parentEdge
        · rw [g.new_key, (g.old_edge hlt).2]
          exact hmoved e he
    case isFalse hne =>
      have hq : l.Live q := (g.live.1 hq).resolve_right hne
      have hdown := h.down q hq k e he
      have hlt := h.freshEdge_of_edge hq he
      -- the edge is not the one that moved, which has another place
      have hother : l.edge p i ≠ some e := by
        intro heq
        have hplace := h.down p hp i e heq
        exact hpi ⟨hdown.parentNode.symm.trans hplace.parentNode,
          hdown.parentIndex.symm.trans hplace.parentIndex⟩
      exact hdown.kept (g.other e hlt hother) (hmem _ hdown.mem)
        (g.old_parentEdge h (.inr hdown.mem)) (g.old_key h hq)

end

theorem LinksOk.graft (h : LinksOk l) (g : Graft l l' p i j K) (hp : l.Live p)
    (hK : l.key p ++ [i] <+: K)
    (hmoved : ∀ e, l.edge p i = some e → K ++ [j] <+: l.edgeKey e) : LinksOk l' where
  nodup := by
    rw [g.lru]
    apply h.nodup.append (nodup_singleton _)
    rw [disjoint_singleton]
    exact fun hmem => h.ne_fresh (.inr hmem) rfl
  rootOut := by
    rw [g.root, g.lru, mem_append, mem_singleton]
    rintro (hmem | heq)
    · exact h.rootOut hmem
    · exact h.ne_fresh (.inl rfl) heq
  rootTop := by
    rw [g.root, g.old_parentEdge h (.inl rfl)]
    exact h.rootTop
  fresh := by
    intro n hn
    rw [g.fresh]
    rcases g.live.1 hn with hn | rfl
    · exact Nat.lt_succ_of_lt (h.fresh n hn)
    · exact Nat.lt_succ_self _
  freshEdge := by
    intro n e he hn
    rw [g.freshEdge]
    rcases g.live.1 hn with hn | rfl
    · rw [g.old_parentEdge h hn] at he
      exact Nat.lt_succ_of_lt (h.freshEdge n e he hn)
    · rw [g.parentEdge, if_pos rfl] at he
      cases he
      exact Nat.lt_succ_self _
  up n hn := g.up h hp hn
  down q hq k e he := g.down h hp hK hmoved hq he

/-- What `purge_node` makes of the pointers when it takes node `n` with parent edge `e` out. -/
structure Unlinked (l l' : AddrLinks) (n e : Nat) : Prop where
  root : l'.root = l.root
  lru : l'.lru = l.lru.erase n
  fresh : l'.fresh = l.fresh
  freshEdge : l'.freshEdge = l.freshEdge
  edge : ∀ q k, l'.edge q k =
    if q = (l.edges e).parentNode ∧ k = (l.edges e).parentIndex then childEdge l n else l.edge q k
  parentEdge : l'.parentEdge = l.parentEdge
  moved : ∀ f, childEdge l n = some f → l'.edges f = { l.edges f with
    parentNode := (l.edges e).parentNode, parentIndex := (l.edges e).parentIndex }
  other : ∀ f, childEdge l n ≠ some f → l'.edges f = l.edges f

theorem setEdge_edge (e : Option Nat) :
    (setEdge l node index e).edge q k = if q = node ∧ k = index then e else l.edge q k := by
  by_cases hq : q = node <;> by_cases hk : k = index <;> simp [setEdge, hq, hk]

theorem unlinkNode_spec (l : AddrLinks) (n e : Nat) : Unlinked l (unlinkNode l n e) n e := by
  rw [unlinkNode]
  cases hc : childEdge l n with
  | none =>
    refine ⟨rfl, rfl, rfl, rfl, ?_, rfl, ?_, fun _ _ => rfl⟩
    · intro q k
      rw [hc]
      exact setEdge_edge _
    · intro f hf
      cases hc.symm.trans hf
  | some c =>
    refine ⟨rfl, rfl, rfl, rfl, ?_, rfl, ?_, ?_⟩
    · intro q k
      rw [hc]
      exact setEdge_edge _
    · intro f hf
      cases hc.symm.trans hf
      exact Function.update_self _ _ _
    · intro f hf
      rw [hc] at hf
      have hne : f ≠ c := fun heq => hf (heq ▸ rfl)
      exact Function.update_of_ne hne _ _

theorem childEdge_mem (hc : childEdge l n = some e) : ∃ k, l.edge n k = some e := ⟨_, hc⟩

theorem childEdge_of_edge (htwo : hasTwo l n = false) (he : l.edge n i = some e) :
    childEdge l n = some e := by
  rw [hasTwo] at htwo
  rw [childEdge]
  cases i with
  | false => simp [he]
  | true =>
    rw [he, Option.isSome_some, Bool.and_true] at htwo
    rw [htwo]
    exact he

theorem Unlinked.live (u : Unlinked l l' n e) (h : LinksOk l) (hn : n ∈ l.lru) :
    l'.Live q ↔ l.Live q ∧ q ≠ n := by
  rw [AddrLinks.Live, AddrLinks.Live, u.root, u.lru, h.nodup.mem_erase_iff]
  have hroot := ne_of_mem_of_not_mem hn h.rootOut
  grind

theorem Unlinked.edge_kept (u : Unlinked l l' n e) :
    (l'.edges f).node = (l.edges f).node ∧ l'.edgeKey f = l.edgeKey f := by
  rw [AddrLinks.edgeKey, AddrLinks.edgeKey]
  by_cases hc : childEdge l n = some f
  · rw [u.moved f hc]
    exact ⟨rfl, rfl⟩
  · rw [u.other f hc]
    exact ⟨rfl, rfl⟩

theorem Unlinked.key (u : Unlinked l l' n e) (q : Nat) : l'.key q = l.key q := by
  rw [AddrLinks.key, AddrLinks.key, u.parentEdge]
  cases l.parentEdge q with
  | none => rfl
  | some f => exact u.edge_kept.2

theorem LinksOk.parent_extends (h : LinksOk l) (hup : UpOk l n e) :
    l.key (l.edges e).parentNode ++ [(l.edges e).parentIndex] <+: l.key n := by
  have hdown := h.down _ hup.live _ e hup.edge
  have hkey : l.key n = l.edgeKey e := by rw [AddrLinks.key, hup.parentEdge]
  rw [hkey]
  exact hdown.extends_

theorem LinksOk.parent_ne (h : LinksOk l) (hup : UpOk l n e) : (l.edges e).parentNode ≠ n := by
  intro heq
  have hlen := (h.parent_extends hup).length_le
  rw [heq, length_append, length_singleton] at hlen
  omega

theorem Unlinked.up (u : Unlinked l l' n e) (h : LinksOk l) (hn : n ∈ l.lru) (hup : UpOk l n e)
    (htwo : hasTwo l n = false) (hm : m ∈ l'.lru) : ∃ f, UpOk l' m f := by
  rw [u.lru, h.nodup.mem_erase_iff] at hm
  obtain ⟨hne, hm⟩ := hm
  obtain ⟨f, hupf⟩ := h.up m hm
  refine ⟨f, ?_, ?_, ?_, ?_⟩
  · rw [u.parentEdge]
    exact hupf.parentEdge
  · rw [u.edge_kept.1]
    exact hupf.node
  · rw [u.live h hn]
    by_cases hc : childEdge l n = some f
    · rw [u.moved f hc]
      exact ⟨hup.live, h.parent_ne hup⟩
    · rw [u.other f hc]
      refine ⟨hupf.live, ?_⟩
      intro heq
      have hedge := hupf.edge
      rw [heq] at hedge
      exact hc (childEdge_of_edge htwo hedge)
  · by_cases hc : childEdge l n = some f
    · rw [u.moved f hc, u.edge, if_pos ⟨rfl, rfl⟩]
      exact hc
    · rw [u.other f hc, u.edge, if_neg]
      · exact hupf.edge
      · rintro ⟨hp, hi⟩
        have hedge := hupf.edge
        rw [hp, hi, hup.edge, Option.some.injEq] at hedge
        have hnode := hupf.node
        rw [← hedge, hup.node] at hnode
        exact hne hnode.symm

theorem Unlinked.down (u : Unlinked l l' n e) (h : LinksOk l) (hn : n ∈ l.lru) (hup : UpOk l n e)
    (hq : l'.Live q) (hf : l'.edge q k = some f) : DownOk l' q k f := by
  obtain ⟨hq, hqn⟩ := (u.live h hn).1 hq
  have hmem : ∀ m ∈ l.lru, m ≠ n → m ∈ l'.lru := by
    intro m hm hne
    rw [u.lru, h.nodup.mem_erase_iff]
    exact ⟨hne, hm⟩
  rw [u.edge] at hf
  split at hf
  case isTrue hplace =>
    obtain ⟨rfl, rfl⟩ := hplace
    obtain ⟨k, hk⟩ := childEdge_mem hf
    have hdown := h.down n (.inr hn) k f hk
    have hne : (l.edges f).node ≠ n := by
      intro heq
      have hpe := hdown.parentEdge
      rw [heq, hup.parentEdge, Option.some.injEq] at hpe
      rw [hpe] at hqn
      exact hqn hdown.parentNode
    refine ⟨by rw [u.moved f hf], by rw [u.moved f hf], ?_, ?_, ?_⟩
    · rw [u.edge_kept.1]
      exact hmem _ hdown.mem hne
    · rw [u.edge_kept.1, u.parentEdge]
      exact hdown.parentEdge
    · rw [u.key, u.edge_kept.2]
      have hbelow := (prefix_append _ _).trans hdown.extends_
      exact (h.parent_extends hup).trans hbelow
  case isFalse hplace =>
    have hdown := h.down q hq k f hf
    have hother : childEdge l n ≠ some f := by
      intro hc
      obtain ⟨k', hk'⟩ := childEdge_mem hc
      have hdown' := h.down n (.inr hn) k' f hk'
      exact hqn (hdown.parentNode.symm.trans hdown'.parentNode)
    have hne : (l.edges f).node ≠ n := by
      intro heq
      have hpe := hdown.parentEdge
      rw [heq, hup.parentEdge, Option.some.injEq] at hpe
      rw [hpe] at hplace
      exact hplace ⟨hdown.parentNode.symm, hdown.parentIndex.symm⟩
    exact hdown.kept (u.other f hother) (hmem _ hdown.mem hne) (by rw [u.parentEdge]) (u.key q)

theorem LinksOk.unlink (h : LinksOk l) (u : Unlinked l l' n e) (hn : n ∈ l.lru)
    (hup : UpOk l n e) (htwo : hasTwo l n = false) : LinksOk l' where
  nodup := by
    rw [u.lru]
    exact h.nodup.erase n
  rootOut := by
    rw [u.root, u.lru]
    exact fun hmem => h.rootOut (mem_of_mem_erase hmem)
  rootTop := by
    rw [u.root, u.parentEdge]
    exact h.rootTop
  fresh := by
    intro q hq
    rw [u.fresh]
    exact h.fresh q ((u.live h hn).1 hq).1
  freshEdge := by
    intro q f hf hq
    rw [u.freshEdge]
    rw [u.parentEdge] at hf
    exact h.freshEdge q f hf ((u.live h hn).1 hq).1
  up m hm := u.up h hn hup htwo hm
  down q hq k f hf := u.down h hn hup hq hf

end CwdGate.Subnet
