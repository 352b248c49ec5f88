import CwdGate.Lib.OrdTree
import CwdGate.Dname.Name

namespace CwdGate.Dnstree
open Lib Std Function

/-- `sin_family`. -/
inductive AddressFamily
  | inet
  | inet6
  deriving DecidableEq, Repr

def AddressFamily.value : AddressFamily → Nat
  | .inet => 2
  | .inet6 => 10

def AddressFamily.addrlen : AddressFamily → Nat
  | .inet => 16
  | .inet6 => 28

def AddressFamily.size : AddressFamily → Nat
  | .inet => 4
  | .inet6 => 16

structure SockAddr where
  family : AddressFamily
  addr : List UInt8
  size : addr.length = family.size
  deriving DecidableEq

/-- `struct addr_tree_node`, without its links: a netblock whose host bits are zero. -/
structure AddrTreeNode extends SockAddr where
  net : Nat
  net_le : net ≤ 8 * family.size
  hostBits : ∀ b ∈ (byteBits addr).drop net, b = false
  deriving DecidableEq

def sockaddrCmpAddr (a b : SockAddr) : Ordering :=
  if a.family.addrlen < b.family.addrlen then .lt
  else if a.family.addrlen > b.family.addrlen then .gt
  else if a.family.value < b.family.value then .lt
  else if a.family.value > b.family.value then .gt
  else a.addr.compareLex compare b.addr

def addrTreeCompare (n1 n2 : AddrTreeNode) : Ordering :=
  match sockaddrCmpAddr n1.toSockAddr n2.toSockAddr with
  | .eq => if n1.net < n2.net then .lt else if n1.net > n2.net then .gt else .eq
  | r => r

def zeroBits : Nat → UInt8 → Nat
  | 0, _ => 0
  | n + 1, z => if z &&& 0x80 = 0 then zeroBits n (z <<< 1) + 1 else 0

def matchBits : List UInt8 → List UInt8 → Nat
  | a :: s1, b :: s2 => if a = b then matchBits s1 s2 + 8 else zeroBits 8 (a ^^^ b)
  | _, _ => 0

def addrInCommon (addr1 : SockAddr) (net1 : Nat) (addr2 : SockAddr) (net2 : Nat) : Nat :=
  let min := if net1 < net2 then net1 else net2
  let m := matchBits addr1.addr addr2.addr
  if m > min then min else m

def addrNest : NestOps AddrTreeNode where
  same x y := x.family.addrlen = y.family.addrlen
  depth x := x.net
  common x y := addrInCommon x.toSockAddr x.net y.toSockAddr y.net
  turns x := x.net + 1

def AddressFamily.maxNet (f : AddressFamily) : Nat := if f = .inet6 then 128 else 32

theorem AddressFamily.maxNet_eq (f : AddressFamily) : f.maxNet = 8 * f.size := by
  cases f <;> rfl

theorem SockAddr.length_bits (addr : SockAddr) :
    (byteBits addr.addr).length = addr.family.maxNet := by
  rw [length_byteBits, addr.size, AddressFamily.maxNet_eq]

def SockAddr.node (addr : SockAddr) : AddrTreeNode where
  toSockAddr := addr
  net := addr.family.maxNet
  net_le := addr.family.maxNet_eq.le
  hostBits := by
    rw [List.drop_of_length_le addr.length_bits.le]
    exact nofun

section bits

/-- A netblock sits in the tree of its family, at its first bits. -/
def AddrTreeNode.path (x : AddrTreeNode) : AddressFamily × List Bool :=
  (x.family, (byteBits x.addr).take x.net)

theorem AddrTreeNode.length_path (x : AddrTreeNode) : x.path.2.length = x.net := by
  rw [path, List.length_take, length_byteBits, x.size, Nat.min_eq_left x.net_le]

def familyOrd : AddressFamily → AddressFamily → Ordering := compareOn AddressFamily.addrlen

instance : TransCmp familyOrd := inferInstanceAs (TransCmp (compareOn AddressFamily.addrlen))

instance : LawfulEqCmp familyOrd where
  eq_of_compare {a b} h := by
    cases a <;> cases b <;> first | rfl | cases h

set_option maxRecDepth 4096 in
theorem zeroBits_eq (z : UInt8) (h : z ≠ 0) :
    zeroBits 8 z = ((natBits 8 z.toNat).takeWhile (!·)).length := by
  cases z with
  | ofBitVec z =>
    cases z with
    | ofFin z =>
      revert z
      decide

theorem matchBits_eq : matchBits s1 s2 = commonLen (byteBits s1) (byteBits s2) := by
  induction s1 generalizing s2 with
  | nil => exact (commonLen_nil_left _).symm
  | cons a s1 ih =>
    cases s2 with
    | nil => exact (commonLen_nil_right _).symm
    | cons b s2 =>
      rw [matchBits, byteBits_cons, byteBits_cons, commonLen_append (by simp), ih]
      by_cases hab : a = b
      · rw [if_pos hab, if_pos (congrArg _ (congrArg _ hab)), length_natBits, Nat.add_comm]
      · have hbits : natBits 8 a.toNat ≠ natBits 8 b.toNat := by
          intro he
          have hcmp := compareLex_natBits_toNat a b
          rw [he, @ReflCmp.compare_self _ (List.compareLex compare)] at hcmp
          exact hab (LawfulEqCmp.eq_of_compare hcmp.symm)
        have hxor : a ^^^ b ≠ 0 := fun hz => hab (UInt8.xor_eq_zero_iff.1 hz)
        rw [if_neg hab, if_neg hbits, commonLen_natBits, zeroBits_eq _ hxor, UInt8.toNat_xor]

theorem sockaddrCmpAddr_eq :
    sockaddrCmpAddr a b = (familyOrd a.family b.family).then (a.addr.compareLex compare b.addr) := by
  rw [sockaddrCmpAddr]
  cases a.family <;> cases b.family <;> rfl

theorem addrTreeCompare_eq :
    addrTreeCompare a b = (sockaddrCmpAddr a.toSockAddr b.toSockAddr).then (compare a.net b.net) := by
  rw [addrTreeCompare, Nat.compare_eq_ite_lt]
  cases sockaddrCmpAddr a.toSockAddr b.toSockAddr <;> rfl

theorem addrNest_spec : addrNest.Spec addrTreeCompare familyOrd compare AddrTreeNode.path where
  cmp a b := by
    rw [addrTreeCompare_eq, sockaddrCmpAddr_eq, pathCmp, Ordering.then_assoc]
    by_cases hf : a.family = b.family
    · have hlen : a.addr.length = b.addr.length := by rw [a.size, b.size, hf]
      rw [AddrTreeNode.path, AddrTreeNode.path, compareLex_take_of_zeros ?_ ?_ ?_ a.hostBits
        b.hostBits, compareLex_byteBits _ _ hlen]
      · rw [length_byteBits, length_byteBits, hlen]
      · rw [length_byteBits, a.size]
        exact a.net_le
      · rw [length_byteBits, b.size]
        exact b.net_le
    · have hne : familyOrd a.family b.family ≠ .eq := fun he => hf (LawfulEqCmp.eq_of_compare he)
      have hthen : ∀ o p q : Ordering, o ≠ .eq → o.then p = o.then q := by decide
      exact hthen _ _ _ hne
  same a b := by
    have hinj : ∀ f g : AddressFamily, f.addrlen = g.addrlen ↔ f = g := by
      intro f g
      cases f <;> cases g <;> decide
    rw [addrNest, decide_eq_true_eq]
    exact hinj ..
  depth z a b := by
    rw [z.length_path, AddrTreeNode.path, AddrTreeNode.path, commonLen_take, ← matchBits_eq]
    simp only [addrNest, addrInCommon]
    split <;> split at * <;> omega
  turns z := by
    rw [z.length_path]
    exact Nat.lt_succ_self _

end bits

section tree
variable {ι : Type} [DecidableEq ι] (node : ι → AddrTreeNode)

/-- `addr_tree_init`. The entries of the tree are structures that start with a node. -/
def addrTreeInit : NestTree ι := ⟨[], fun _ => none⟩

def addrTreeInsert : NestTree ι → ι → NestTree ι :=
  NestTree.insert fun p q => addrTreeCompare (node p) (node q)

def addrTreeInitParents : NestTree ι → NestTree ι := addrNest.link node

omit [DecidableEq ι] in
def addrTreeLookup (t : NestTree ι) (addr : SockAddr) : Option ι :=
  addrNest.lookup node addrTreeCompare t addr.node

def AddrTreeNode.Contains (x : AddrTreeNode) (addr : SockAddr) : Prop :=
  x.family = addr.family ∧ (byteBits x.addr).take x.net = (byteBits addr.addr).take x.net

theorem AddrTreeNode.contains_iff (x : AddrTreeNode) :
    x.Contains addr ↔ Above x.path addr.node.path := by
  have hall : addr.node.path.2 = byteBits addr.addr := List.take_of_length_le addr.length_bits.le
  rw [Contains, Above, List.prefix_iff_eq_take, x.length_path, hall]
  rfl

omit [DecidableEq ι] in
theorem longest_of_nearest (l : List ι) (addr : SockAddr) (r : Option ι) :
    Nearest l (AddrTreeNode.path ∘ node) (Above · addr.node.path) r →
    match r with
    | none => ∀ q ∈ l, ¬ (node q).Contains addr
    | some p => p ∈ l ∧ (node p).Contains addr ∧
        ∀ q ∈ l, (node q).Contains addr → (node q).net ≤ (node p).net := by
  intro h
  simp only [AddrTreeNode.contains_iff]
  cases r with
  | none => exact h
  | some p =>
    obtain ⟨hp, habove, hall⟩ := h
    refine ⟨hp, habove, ?_⟩
    intro q hq hqk
    have hle := (hall q hq hqk).2.length_le
    rw [comp, comp, AddrTreeNode.length_path, AddrTreeNode.length_path] at hle
    exact hle

/-- A lookup finds the netblock with the longest prefix that contains the address. -/
theorem addrTreeLookup_longest (l : List ι) (addr : SockAddr) :
    let t := addrTreeInitParents node (l.foldl (addrTreeInsert node) addrTreeInit)
    match addrTreeLookup node t addr with
    | none => ∀ q ∈ l, ¬ (node q).Contains addr
    | some p => p ∈ l ∧ (node p).Contains addr ∧
        ∀ q ∈ l, (node q).Contains addr → (node q).net ≤ (node p).net :=
  longest_of_nearest node l addr _ (addrNest_spec.lookup_insert_link l _ _)

end tree

/-- `struct name_tree_node`, without its links. -/
structure NameTreeNode where
  name : Name
  dclass : UInt16
  deriving DecidableEq

def NameTreeNode.labs (x : NameTreeNode) : Nat := dnameCountLabels x.name

def nameTreeCompare (x y : NameTreeNode) : Ordering :=
  if x.dclass ≠ y.dclass then
    if x.dclass < y.dclass then .lt else .gt
  else (dnameLabCmp x.name x.labs y.name y.labs).1

def nameNest : NestOps NameTreeNode where
  same x y := x.dclass = y.dclass
  depth x := x.labs
  common x y := (dnameLabCmp x.name x.labs y.name y.labs).2
  turns x := x.labs

def NameTreeNode.path (x : NameTreeNode) : UInt16 × List Label := (x.dclass, key x.name)

theorem nameNest_spec : nameNest.Spec nameTreeCompare compare labOrd NameTreeNode.path where
  cmp a b := by
    rw [nameTreeCompare, NameTreeNode.labs, NameTreeNode.labs, dnameLabCmp_spec]
    exact ite_lt_eq_then _ _
  same a b := decide_eq_true_iff
  depth z a b := by
    simp only [nameNest, NameTreeNode.labs, dnameLabCmp_spec, NameTreeNode.path, length_key]
    exact Nat.succ_le_succ_iff
  turns z := by
    rw [NameTreeNode.path, length_key]
    exact Nat.lt_succ_self _

section tree
variable {ι : Type} [DecidableEq ι] (node : ι → NameTreeNode)

/-- `name_tree_init`. The entries of the tree are structures that start with a node. -/
def nameTreeInit : NestTree ι := ⟨[], fun _ => none⟩

def nameTreeInsert : NestTree ι → ι → NestTree ι :=
  NestTree.insert fun p q => nameTreeCompare (node p) (node q)

def nameTreeInitParents : NestTree ι → NestTree ι := nameNest.link node

omit [DecidableEq ι] in
def nameTreeLookup (t : NestTree ι) (name : Name) (dclass : UInt16) : Option ι :=
  nameNest.lookup node nameTreeCompare t ⟨name, dclass⟩

/-- The name of an entry is at or above a name, in one class. -/
def Encloses (x : ι) (name : Name) (dclass : UInt16) : Prop :=
  (node x).dclass = dclass ∧ dnameSubdomainC name (node x).name

/-- A lookup finds the entry with the longest name at or above the one that is looked up. -/
theorem nameTreeLookup_longest (l : List ι) (name : Name) (dclass : UInt16) :
    let t := nameTreeInitParents node (l.foldl (nameTreeInsert node) nameTreeInit)
    match nameTreeLookup node t name dclass with
    | none => ∀ q ∈ l, ¬ Encloses node q name dclass
    | some p => p ∈ l ∧ Encloses node p name dclass ∧
        ∀ q ∈ l, Encloses node q name dclass → (node q).labs ≤ (node p).labs := by
  have hiff : ∀ q, Encloses node q name dclass ↔
      Above (node q).path (NameTreeNode.path ⟨name, dclass⟩) := by
    intro q
    rw [Encloses, dnameSubdomainC_iff]
    rfl
  intro t
  have hnear : Nearest l (NameTreeNode.path ∘ node)
      (fun a => Above a (NameTreeNode.path ⟨name, dclass⟩)) (nameTreeLookup node t name dclass) :=
    nameNest_spec.lookup_insert_link l _ _
  simp only [hiff]
  cases hr : nameTreeLookup node t name dclass with
  | none =>
    rw [hr] at hnear
    exact hnear
  | some p =>
    rw [hr] at hnear
    obtain ⟨hp, habove, hall⟩ := hnear
    refine ⟨hp, habove, ?_⟩
    intro q hq hqk
    have hle := (hall q hq hqk).2.length_le
    simp only [Function.comp, NameTreeNode.path, length_key] at hle
    exact Nat.succ_le_succ hle

end tree

end CwdGate.Dnstree
