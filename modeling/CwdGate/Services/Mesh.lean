import CwdGate.Dname.Name
import CwdGate.Lib.Totals

namespace CwdGate.Services
open Std Function

section

/-- `mesh_reply`: the comm point to answer on, and when the request came in. -/
structure MeshReply where
  comm : Nat
  startTime : Int
  deriving DecidableEq, Repr

/-- `mesh_cb`, by the argument of its callback. -/
structure MeshCb where
  cbArg : Nat
  deriving DecidableEq, Repr

inductive MeshListSelect where
  | noList
  | foreverList
  | jostleList
  deriving DecidableEq, Repr

/-- What `mesh_state_compare` reads. `unique` is the address of the state, `C` the response-ip
information. -/
structure MeshKey (C : Type) where
  unique : Option Nat
  isPriming : Bool
  isValrec : Bool
  rd : Bool
  cd : Bool
  qname : Name
  qtype : UInt16
  qclass : UInt16
  clientInfo : Option C
  deriving DecidableEq

structure MeshQuery where
  rd : Bool
  cd : Bool
  qname : Name
  qtype : UInt16
  qclass : UInt16
  deriving DecidableEq, Repr

structure MeshState (C : Type) where
  key : MeshKey C
  replyList : List MeshReply
  cbList : List MeshCb
  superSet : List Nat
  subSet : List Nat
  listSelect : MeshListSelect
  repliesSent : Bool
  serveExpiredData : Bool
  deriving DecidableEq

/-- `mesh_area`. A tree is the list of its elements, and `fresh` is the next address. -/
structure MeshArea (C : Type) where
  run : List Nat
  all : List Nat
  st : Nat → MeshState C
  fresh : Nat
  numReplyAddrs : Int
  numReplyStates : Int
  numDetachedStates : Int
  numForeverStates : Int
  maxReplyStates : Nat
  maxForeverStates : Nat
  forever : List Nat
  jostle : List Nat
  jostleMax : Int
  statsJostled : Nat
  statsDropped : Nat

section Model
variable [DecidableEq C]

section
variable (m : MeshArea C) (x : MeshState C) (s : Nat) (q : MeshQuery)

def MeshKey.same (a b : MeshKey C) : Bool :=
  a.unique = b.unique ∧ a.isPriming = b.isPriming ∧ a.isValrec = b.isValrec ∧ a.rd = b.rd ∧
    a.cd = b.cd ∧ a.qtype = b.qtype ∧ queryDnameCompare a.qname b.qname = .eq ∧
    a.qclass = b.qclass ∧ a.clientInfo = b.clientInfo

/-- The key of a state that queries can share. -/
def meshKey (cinfo : Option C) (prime valrec : Bool) : MeshKey C where
  unique := none
  isPriming := prime
  isValrec := valrec
  rd := q.rd
  cd := q.cd
  qname := q.qname
  qtype := q.qtype
  qclass := q.qclass
  clientInfo := cinfo

def MeshState.hasReply : Bool :=
  !x.replyList.isEmpty || !x.cbList.isEmpty

def MeshState.detached : Bool :=
  !x.hasReply && x.superSet.isEmpty

def MeshArea.modify (f : MeshState C → MeshState C) : MeshArea C :=
  { m with st := update m.st s (f (m.st s)) }

def MeshArea.insertRef (tree : List Nat) (s : Nat) : List Nat :=
  if tree.any fun t => (m.st t).key.same (m.st s).key then tree else s :: tree

def MeshArea.deleteRef (tree : List Nat) (s : Nat) : List Nat :=
  tree.filter fun t => !(m.st t).key.same (m.st s).key

def meshCreate (numQueriesPerThread : Nat) (jostleTime : Int) (st : Nat → MeshState C) :
    MeshArea C where
  run := []
  all := []
  st := st
  fresh := 0
  numReplyAddrs := 0
  numReplyStates := 0
  numDetachedStates := 0
  numForeverStates := 0
  maxReplyStates := numQueriesPerThread
  maxForeverStates := (numQueriesPerThread + 1) / 2
  forever := []
  jostle := []
  jostleMax := jostleTime
  statsJostled := 0
  statsDropped := 0

def meshAreaFind (key : MeshKey C) : Option Nat :=
  m.all.find? fun s => (m.st s).key.same key

/-- `mesh_state_create`, with `mesh_state_make_unique` for a unique state. -/
def meshStateCreate (key : MeshKey C) (unique : Bool) : MeshArea C :=
  { m with
    st := update m.st m.fresh {
      key := { key with unique := if unique then some m.fresh else none }
      replyList := []
      cbList := []
      superSet := []
      subSet := []
      listSelect := .noList
      repliesSent := false
      serveExpiredData := false }
    fresh := m.fresh + 1 }

def addDetached (key : MeshKey C) (unique : Bool) : MeshArea C :=
  let m' := meshStateCreate m key unique
  { m' with
    all := m'.insertRef m'.all m.fresh
    numDetachedStates := m'.numDetachedStates + 1 }

/-- One round of the loop of `mesh_detach_subs`. -/
def detachSub (m : MeshArea C) (ref : Nat) : MeshArea C :=
  let m' := m.modify ref fun x => { x with superSet := m.deleteRef x.superSet s }
  if (m'.st ref).detached then { m' with numDetachedStates := m'.numDetachedStates + 1 } else m'

def meshDetachSubs : MeshArea C :=
  ((m.st s).subSet.foldl (detachSub s) m).modify s fun x => { x with subSet := [] }

/-- `mesh_walk_supers`, which makes the supers runnable. -/
def meshWalkSupers : MeshArea C :=
  { m with run := (m.st s).superSet.foldl m.insertRef m.run }

def leaveList : MeshArea C :=
  match (m.st s).listSelect with
  | .foreverList =>
    { m with numForeverStates := m.numForeverStates - 1, forever := m.forever.erase s }
  | .jostleList => { m with jostle := m.jostle.erase s }
  | .noList => m

/-- The counters that `mesh_state_delete` takes a state out of. -/
def uncount : MeshArea C :=
  { m with
    numDetachedStates := if x.detached then m.numDetachedStates - 1 else m.numDetachedStates
    numReplyStates := if x.hasReply then m.numReplyStates - 1 else m.numReplyStates }

def leaveSupers : MeshArea C :=
  (m.st s).superSet.foldl
    (fun m super => m.modify super fun x => { x with subSet := m.deleteRef x.subSet s }) m

/-- The replies that `mesh_state_cleanup` drops. -/
def meshStateCleanup : MeshArea C :=
  if x.repliesSent then m
  else { m with numReplyAddrs := m.numReplyAddrs - x.replyList.length - x.cbList.length }

def meshStateDelete : MeshArea C :=
  let m₁ := meshDetachSubs m s
  let m₂ := uncount (leaveList m₁ s) (m₁.st s)
  let m₃ := leaveSupers m₂ s
  meshStateCleanup { m₃ with run := m₃.deleteRef m₃.run s, all := m₃.deleteRef m₃.all s } (m₁.st s)

/-- The state that `mesh_make_new_space` jostles out, if it has to and can. -/
def jostleVictim (now : Int) : Option Nat :=
  if m.numReplyStates < m.maxReplyStates then none
  else
    match m.jostle with
    | [] => none
    | s :: _ =>
      match (m.st s).replyList with
      | [] => none
      | r :: _ =>
        if (m.st s).listSelect = .jostleList ∧ m.jostleMax < now - r.startTime then some s else none

/-- `mesh_make_new_space`: the mesh afterwards, `none` if there is no space. -/
def meshMakeNewSpace (now : Int) : Option (MeshArea C) :=
  if m.numReplyStates < m.maxReplyStates then some m
  else
    match jostleVictim m now with
    | none => none
    | some s =>
      some (meshStateDelete { meshWalkSupers m s with statsJostled := m.statsJostled + 1 } s)

/-- A state without a list moves to the forever or the jostle list. -/
def joinList : MeshArea C :=
  if (m.st s).listSelect = .noList then
    if m.numForeverStates < m.maxForeverStates then
      { m.modify s fun x => { x with listSelect := .foreverList } with
        numForeverStates := m.numForeverStates + 1
        forever := m.forever ++ [s] }
    else
      { m.modify s fun x => { x with listSelect := .jostleList } with
        jostle := m.jostle ++ [s] }
  else m

/-- The statistics for a reply or callback that is added to a state, which was `x` before. -/
def countReply : MeshArea C :=
  { m with
    numDetachedStates := if x.detached then m.numDetachedStates - 1 else m.numDetachedStates
    numReplyStates := if x.hasReply then m.numReplyStates else m.numReplyStates + 1
    numReplyAddrs := m.numReplyAddrs + 1 }

/-- The end of `mesh_new_client`, once there is a state for the query. -/
def addClient (rep : MeshReply) (timeout : Bool) : MeshArea C :=
  let m' := m.modify s fun x => { x with
    replyList := rep :: x.replyList
    serveExpiredData := timeout || x.serveExpiredData }
  joinList (countReply m' (m.st s)) s

/-- `mesh_new_client`, without the run of the new state. -/
def meshNewClient (cinfo : Option C) (unique : Bool) (rep : MeshReply) (timeout : Bool) :
    MeshArea C :=
  let key := meshKey q cinfo false false
  let drop (m : MeshArea C) : MeshArea C := { m with statsDropped := m.statsDropped + 1 }
  match if unique then none else meshAreaFind m key with
  | none =>
    match meshMakeNewSpace m rep.startTime with
    | none => drop m
    | some m' => addClient (addDetached m' key unique) m'.fresh rep timeout
  | some s =>
    if (m.st s).listSelect = .noList then
      match meshMakeNewSpace m rep.startTime with
      | none => drop m
      | some m' => addClient m' s rep timeout
    else if m.numReplyAddrs > m.maxReplyStates * 16 then drop m
    else addClient m s rep timeout

/-- The end of `mesh_new_callback`, once there is a state for the query. -/
def addCallback (cb : MeshCb) (timeout : Bool) : MeshArea C :=
  let m' := m.modify s fun x => { x with
    cbList := cb :: x.cbList
    serveExpiredData := timeout || x.serveExpiredData }
  countReply m' (m.st s)

/-- `mesh_new_callback`, without the run of the new state. -/
def meshNewCallback (unique : Bool) (cb : MeshCb) (timeout : Bool) : MeshArea C :=
  let key := meshKey q none false false
  match if unique then none else meshAreaFind m key with
  | none => addCallback (addDetached m key unique) m.fresh cb timeout
  | some s => addCallback m s cb timeout

/-- `mesh_new_prefetch`, without the run of the state; `subnet`: with the address of the client. -/
def meshNewPrefetch (subnet : Bool) (now : Int) : MeshArea C :=
  let key := meshKey q none false false
  match if subnet then none else meshAreaFind m key with
  | some _ => m
  | none =>
    match meshMakeNewSpace m now with
    | none => { m with statsDropped := m.statsDropped + 1 }
    | some m' => joinList (addDetached m' key subnet) m'.fresh

def meshMaxSubsub : Nat := 1024

/-- `find_in_subsub` with its count of calls, which ends the search before the fuel does. -/
def findInSubsub (m : MeshArea C) (tofind : Nat) : Nat → Nat → Nat → Bool × Nat
  | 0, _, c => (true, c)
  | fuel + 1, s, c =>
    if c > meshMaxSubsub then (true, c + 1)
    else
      (m.st s).subSet.foldl
        (fun r sub =>
          if r.1 then r
          else if sub = tofind then (true, r.2)
          else findInSubsub m tofind fuel sub r.2)
        (false, c + 1)

/-- `mesh_detect_cycle_found` does not return 0. -/
def meshDetectCycleFound (cyc : Nat) : Option Nat → Bool
  | none => false
  | some dep => dep = cyc || (findInSubsub m cyc (meshMaxSubsub + 2) dep 0).1

/-- `mesh_add_sub`: the mesh and the sub state, `none` if a cycle was detected. -/
def meshAddSub (prime valrec : Bool) : Option (MeshArea C × Nat) :=
  let key := meshKey q none prime valrec
  if meshDetectCycleFound m s (meshAreaFind m key) then none
  else
    match meshAreaFind m key with
    | some sub => some (m, sub)
    | none =>
      let m' := addDetached m key false
      some ({ m' with run := m'.insertRef m'.run m.fresh }, m.fresh)

def meshStateAttachment (super sub : Nat) : MeshArea C :=
  if (m.st sub).superSet.any fun t => (m.st t).key.same (m.st super).key then m
  else
    let m' := m.modify sub fun x => { x with superSet := m.insertRef x.superSet super }
    m'.modify super fun x => { x with subSet := m'.insertRef x.subSet sub }

def meshAttachSub (prime valrec : Bool) : MeshArea C :=
  match meshAddSub m s q prime valrec with
  | none => m
  | some (m₁, sub) =>
    let wasDetached := (m₁.st sub).superSet.isEmpty
    let m₂ := meshStateAttachment m₁ s sub
    if !(m₂.st sub).hasReply && wasDetached && (m₂.st sub).superSet.length = 1 then
      { m₂ with numDetachedStates := m₂.numDetachedStates - 1 }
    else m₂

def meshSendReply : MeshArea C :=
  { m with numReplyAddrs := m.numReplyAddrs - 1 }

def clearReplies : MeshArea C :=
  if (m.st s).replyList.isEmpty then m
  else
    let x := { m.st s with replyList := [] }
    { m with
      st := update m.st s x
      numReplyStates := if !x.hasReply then m.numReplyStates - 1 else m.numReplyStates
      numDetachedStates := if x.detached then m.numDetachedStates + 1 else m.numDetachedStates }

/-- Take the first callback off the list, so that `next` remains, and call it. -/
def takeCallback (next : List MeshCb) : MeshArea C :=
  let x := { m.st s with cbList := next }
  { m with
    st := update m.st s x
    numReplyStates :=
      if x.replyList.isEmpty && next.isEmpty then m.numReplyStates - 1 else m.numReplyStates
    numDetachedStates := if x.detached then m.numDetachedStates + 1 else m.numDetachedStates
    numReplyAddrs := m.numReplyAddrs - 1 }

/-- The loop that takes the callbacks off the list of the state. -/
def callbackLoop (s : Nat) : List MeshCb → MeshArea C → MeshArea C
  | [], m => m
  | _ :: next, m => callbackLoop s next (takeCallback m s next)

/-- `mesh_serve_expired_callback`; `allowed`: stale data may be used, `answer`: the cache has
some. -/
def meshServeExpiredCallback (allowed answer : Bool) : MeshArea C :=
  if !(m.st s).serveExpiredData || !allowed || !answer then m
  else
    let m₁ := clearReplies ((m.st s).replyList.foldl (fun m _ => meshSendReply m) m) s
    callbackLoop s (m₁.st s).cbList m₁

end

/-- What the modules have left in the query state, and whether the cache has an expired answer. -/
structure DoneArgs where
  servfail : Bool
  isDrop : Bool
  noCacheLookup : Bool
  answer : Bool
  deriving DecidableEq, Repr

def sendReplies (m : MeshArea C) (s : Nat) (isDrop : Bool) : MeshArea C :=
  (m.st s).replyList.foldl (fun m _ => if isDrop then m else meshSendReply m) m

def meshQueryDone (m : MeshArea C) (s : Nat) (a : DoneArgs) : MeshArea C :=
  let m₁ := if a.servfail then
    meshServeExpiredCallback m s (!a.noCacheLookup && !a.isDrop) a.answer else m
  let m₂ := clearReplies (sendReplies m₁ s a.isDrop) s
  let m₃ := m₂.modify s fun x => { x with repliesSent := true }
  callbackLoop s (m₃.st s).cbList m₃

def meshStateRemoveReply (m : MeshArea C) (s : Nat) (comm : Nat) : MeshArea C :=
  let old := (m.st s).replyList
  if old.isEmpty then m
  else
    let x := { m.st s with replyList := old.filter fun r => r.comm ≠ comm }
    { m with
      st := update m.st s x
      numReplyAddrs := m.numReplyAddrs - (old.length - x.replyList.length)
      numDetachedStates := if x.detached then m.numDetachedStates + 1 else m.numDetachedStates
      numReplyStates := if !x.hasReply then m.numReplyStates - 1 else m.numReplyStates }

inductive MeshEvent (C : Type) where
  | newClient (q : MeshQuery) (cinfo : Option C) (unique : Bool) (rep : MeshReply) (timeout : Bool)
  | newCallback (q : MeshQuery) (unique : Bool) (cb : MeshCb) (timeout : Bool)
  | newPrefetch (q : MeshQuery) (subnet : Bool) (now : Int)
  | addSub (s : Nat) (q : MeshQuery) (prime valrec : Bool)
  | attachSub (s : Nat) (q : MeshQuery) (prime valrec : Bool)
  | detachSubs (s : Nat)
  | queryDone (s : Nat) (a : DoneArgs)
  | removeReply (s : Nat) (comm : Nat)
  | serveExpired (s : Nat) (allowed answer : Bool)
  | stateDelete (s : Nat)

def MeshEvent.Valid (m : MeshArea C) : MeshEvent C → Prop
  | .newClient .. => True
  | .newCallback .. => True
  | .newPrefetch .. => True
  | .addSub s .. => s ∈ m.all
  | .attachSub s .. => s ∈ m.all
  | .detachSubs s => s ∈ m.all
  | .queryDone s _ => s ∈ m.all
  | .removeReply s _ => s ∈ m.all
  | .serveExpired s _ _ => s ∈ m.all
  | .stateDelete s => s ∈ m.all

instance (m : MeshArea C) : (ev : MeshEvent C) → Decidable (ev.Valid m)
  | .newClient .. => inferInstanceAs (Decidable True)
  | .newCallback .. => inferInstanceAs (Decidable True)
  | .newPrefetch .. => inferInstanceAs (Decidable True)
  | .addSub s .. => inferInstanceAs (Decidable (s ∈ m.all))
  | .attachSub s .. => inferInstanceAs (Decidable (s ∈ m.all))
  | .detachSubs s => inferInstanceAs (Decidable (s ∈ m.all))
  | .queryDone s _ => inferInstanceAs (Decidable (s ∈ m.all))
  | .removeReply s _ => inferInstanceAs (Decidable (s ∈ m.all))
  | .serveExpired s _ _ => inferInstanceAs (Decidable (s ∈ m.all))
  | .stateDelete s => inferInstanceAs (Decidable (s ∈ m.all))

def meshEvent (m : MeshArea C) : MeshEvent C → MeshArea C
  | .newClient q cinfo unique rep timeout => meshNewClient m q cinfo unique rep timeout
  | .newCallback q unique cb timeout => meshNewCallback m q unique cb timeout
  | .newPrefetch q subnet now => meshNewPrefetch m q subnet now
  | .addSub s q prime valrec => ((meshAddSub m s q prime valrec).map Prod.fst).getD m
  | .attachSub s q prime valrec => meshAttachSub m s q prime valrec
  | .detachSubs s => meshDetachSubs m s
  | .queryDone s a => meshQueryDone m s a
  | .removeReply s comm => meshStateRemoveReply m s comm
  | .serveExpired s allowed answer => meshServeExpiredCallback m s allowed answer
  | .stateDelete s => meshStateDelete m s

end Model

open Lib List

variable {m m' : MeshArea C} {s : Nat} {e d : Int}

/-- How many entries a state has on its lists, and whether it counts as a reply state or as
detached. -/
def addrsOf (x : MeshState C) : Int := x.replyList.length + x.cbList.length

def replyOf (x : MeshState C) : Int := if x.hasReply then 1 else 0

def detachedOf (x : MeshState C) : Int := if x.detached then 1 else 0

/-- A state is on the list that it says it is on. -/
structure ListsOk (m : MeshArea C) : Prop where
  forever : m.forever.Nodup
  foreverMem : ∀ s, s ∈ m.forever ↔ s ∈ m.all ∧ (m.st s).listSelect = .foreverList
  jostle : m.jostle.Nodup
  jostleMem : ∀ s, s ∈ m.jostle ↔ s ∈ m.all ∧ (m.st s).listSelect = .jostleList

/-- The counters agree with the states, except that `num_reply_addrs` is `e` too high. -/
structure Counts (m : MeshArea C) (e : Int) : Prop where
  addrs : m.numReplyAddrs = total m.all m.st addrsOf + e
  states : m.numReplyStates = total m.all m.st replyOf
  detached : m.numDetachedStates = total m.all m.st detachedOf
  forever : m.numForeverStates = m.forever.length
  foreverMax : m.numForeverStates ≤ m.maxForeverStates

structure SameLinks (x y : MeshState C) : Prop where
  key : y.key = x.key
  superSet : y.superSet = x.superSet
  subSet : y.subSet = x.subSet
  listSelect : y.listSelect = x.listSelect

structure SameFrame (m m' : MeshArea C) : Prop where
  all : m'.all = m.all
  fresh : m'.fresh = m.fresh
  forever : m'.forever = m.forever
  jostle : m'.jostle = m.jostle
  num : m'.numForeverStates = m.numForeverStates
  max : m'.maxForeverStates = m.maxForeverStates

def Linked (m : MeshArea C) (a b : Nat) : Prop :=
  a ∈ m.all ∧ b ∈ m.all ∧ b ∈ (m.st a).subSet

theorem ListsOk.congr (h : ListsOk m) (hframe : SameFrame m m')
    (hst : ∀ s, (m'.st s).listSelect = (m.st s).listSelect) : ListsOk m' := by
  obtain ⟨hall, _, hforever, hjostle, _, _⟩ := hframe
  constructor
  case forever => exact hforever ▸ h.forever
  case foreverMem =>
    intro s
    rw [hforever, hall, hst]
    exact h.foreverMem s
  case jostle => exact hjostle ▸ h.jostle
  case jostleMem =>
    intro s
    rw [hjostle, hall, hst]
    exact h.jostleMem s

theorem sameLinks_update (hx : SameLinks (m.st s) x) (t : Nat) :
    SameLinks (m.st t) (update m.st s x t) := by
  rw [update_apply]
  split
  case isTrue ht => exact ht ▸ hx
  case isFalse => exact ⟨rfl, rfl, rfl, rfl⟩

theorem Counts.update (h : Counts m e) (hn : m.all.Nodup) (hs : s ∈ m.all)
    (hst : m'.st = update m.st s x) (hframe : SameFrame m m')
    (haddrs : m'.numReplyAddrs = m.numReplyAddrs - addrsOf (m.st s) + addrsOf x + d)
    (hreply : m'.numReplyStates = m.numReplyStates - replyOf (m.st s) + replyOf x)
    (hdetached : m'.numDetachedStates = m.numDetachedStates - detachedOf (m.st s) + detachedOf x) :
    Counts m' (e + d) := by
  constructor
  case addrs =>
    rw [haddrs, hst, hframe.all, total_update hn hs, h.addrs]
    omega
  case states => rw [hreply, hst, hframe.all, total_update hn hs, h.states]
  case detached => rw [hdetached, hst, hframe.all, total_update hn hs, h.detached]
  case forever => rw [hframe.num, hframe.forever, h.forever]
  case foreverMax =>
    rw [hframe.num, hframe.max]
    exact h.foreverMax

section
variable (m : MeshArea C) (s : Nat)

theorem replyStates_step (h : x.hasReply = true) :
    (if !y.hasReply then n - 1 else n) = n - replyOf x + replyOf y := by
  rw [replyOf, if_pos h, replyOf]
  cases y.hasReply <;> simp

theorem detachedStates_step (h : x.hasReply = true) :
    (if y.detached then n + 1 else n) = n - detachedOf x + detachedOf y := by
  have hzero : detachedOf x = 0 := by simp [detachedOf, MeshState.detached, h]
  rw [hzero, detachedOf]
  cases y.detached <;> simp

theorem hasReply_of_replyList {x : MeshState C} (h : ¬ x.replyList.isEmpty = true) :
    x.hasReply = true := by
  simp [MeshState.hasReply, h]

theorem foldl_meshSendReply (list : List MeshReply) (m : MeshArea C) :
    list.foldl (fun m _ => meshSendReply m) m =
      { m with numReplyAddrs := m.numReplyAddrs - list.length } := by
  induction list generalizing m with
  | nil => simp
  | cons r list ih =>
    rw [foldl_cons, ih, meshSendReply, length_cons]
    congr 1
    dsimp only
    omega

@[simp] theorem clearReplies_all : (clearReplies m s).all = m.all := by
  rw [clearReplies]
  split <;> rfl

@[simp] theorem callbackLoop_all : (callbackLoop s cbs m).all = m.all := by
  induction cbs generalizing m with
  | nil => rfl
  | cons c next ih => exact ih _

@[simp] theorem meshServeExpiredCallback_all :
    (meshServeExpiredCallback m s allowed answer).all = m.all := by
  rw [meshServeExpiredCallback]
  split
  · rfl
  · rw [callbackLoop_all, clearReplies_all, foldl_meshSendReply]

/-- The replies of a state that `mesh_query_done` drops without accounting for them. -/
def droppedReplies (x : MeshState C) (a : DoneArgs) : Nat :=
  if a.isDrop then x.replyList.length else 0

theorem sendReplies_eq : sendReplies m s isDrop = { m with
      numReplyAddrs :=
        m.numReplyAddrs - (if isDrop then 0 else (m.st s).replyList.length : Nat) } := by
  rw [sendReplies]
  cases isDrop with
  | false => exact foldl_meshSendReply _ _
  | true => simp

/-- The expired answer comes first, unless the query is to be dropped. -/
def expiredFirst (a : DoneArgs) : MeshArea C :=
  if a.servfail then meshServeExpiredCallback m s (!a.noCacheLookup && !a.isDrop) a.answer else m

@[simp] theorem expiredFirst_all : (expiredFirst m s a).all = m.all := by
  rw [expiredFirst]
  split
  · exact meshServeExpiredCallback_all _ _
  · rfl

theorem droppedReplies_expiredFirst :
    droppedReplies ((expiredFirst m s a).st s) a = droppedReplies (m.st s) a := by
  rw [droppedReplies, droppedReplies]
  cases hdrop : a.isDrop with
  | false => rfl
  | true =>
    have hsame : expiredFirst m s a = m := by
      rw [expiredFirst, hdrop, meshServeExpiredCallback]
      simp
    rw [hsame]

end

variable [DecidableEq C]

theorem MeshKey.same_iff {a b : MeshKey C} :
    a.same b = true ↔ a.unique = b.unique ∧ a.isPriming = b.isPriming ∧ a.isValrec = b.isValrec ∧
      a.rd = b.rd ∧ a.cd = b.cd ∧ a.qtype = b.qtype ∧ lowerName a.qname = lowerName b.qname ∧
      a.qclass = b.qclass ∧ a.clientInfo = b.clientInfo := by
  rw [MeshKey.same, decide_eq_true_eq, queryDnameCompare_eq_iff]

theorem MeshKey.same_self (a : MeshKey C) : a.same a = true :=
  MeshKey.same_iff.2 ⟨rfl, rfl, rfl, rfl, rfl, rfl, rfl, rfl, rfl⟩

theorem MeshKey.same_comm {a b : MeshKey C} (h : a.same b = true) : b.same a = true := by
  obtain ⟨h₁, h₂, h₃, h₄, h₅, h₆, h₇, h₈, h₉⟩ := MeshKey.same_iff.1 h
  exact MeshKey.same_iff.2 ⟨h₁.symm, h₂.symm, h₃.symm, h₄.symm, h₅.symm, h₆.symm, h₇.symm,
    h₈.symm, h₉.symm⟩

/-- The tree of the states and the links between them. -/
structure Wf (m : MeshArea C) : Prop extends ListsOk m where
  nodup : m.all.Nodup
  fresh : ∀ s ∈ m.all, s < m.fresh
  unique : ∀ s ∈ m.all, (m.st s).key.unique = none ∨ (m.st s).key.unique = some s
  keys : ∀ a ∈ m.all, ∀ b ∈ m.all, (m.st a).key.same (m.st b).key = true → a = b
  supers : ∀ b ∈ m.all, ∀ a ∈ (m.st b).superSet, a ∈ m.all ∧ b ∈ (m.st a).subSet
  subs : ∀ a ∈ m.all, ∀ b ∈ (m.st a).subSet, b ∈ m.all ∧ a ∈ (m.st b).superSet
  subsNodup : ∀ a ∈ m.all, (m.st a).subSet.Nodup

structure Inv (m : MeshArea C) (e : Int) : Prop where
  wf : Wf m
  counts : Counts m e

theorem Wf.mem_subSet (h : Wf m) (ha : a ∈ m.all) : b ∈ (m.st a).subSet ↔ Linked m a b := by
  constructor
  · intro hb
    exact ⟨ha, (h.subs a ha b hb).1, hb⟩
  · exact fun hlink => hlink.2.2

theorem Wf.mem_superSet (h : Wf m) (hb : b ∈ m.all) : a ∈ (m.st b).superSet ↔ Linked m a b := by
  constructor
  · intro ha
    obtain ⟨hall, hsub⟩ := h.supers b hb a ha
    exact ⟨hall, hb, hsub⟩
  · intro hlink
    exact (h.subs a hlink.1 b hlink.2.2).2

theorem Wf.relink (h : Wf m) {R : Nat → Nat → Prop} (hall : m'.all = m.all)
    (hfresh : m'.fresh = m.fresh) (hkey : ∀ s, (m'.st s).key = (m.st s).key)
    (hmem : ∀ a b, R a b → a ∈ m.all ∧ b ∈ m.all)
    (hsuper : ∀ b ∈ m.all, ∀ a, a ∈ (m'.st b).superSet ↔ R a b)
    (hsub : ∀ a ∈ m.all, ∀ b, b ∈ (m'.st a).subSet ↔ R a b)
    (hn : ∀ a ∈ m.all, (m'.st a).subSet.Nodup) (hlists : ListsOk m') : Wf m' := by
  constructor
  case toListsOk => exact hlists
  case nodup => exact hall ▸ h.nodup
  case fresh =>
    rw [hall, hfresh]
    exact h.fresh
  case unique =>
    rw [hall]
    simp only [hkey]
    exact h.unique
  case keys =>
    rw [hall]
    simp only [hkey]
    exact h.keys
  case supers =>
    rw [hall]
    intro b hb a ha
    have hR := (hsuper b hb a).1 ha
    have hall' := (hmem a b hR).1
    exact ⟨hall', (hsub a hall' b).2 hR⟩
  case subs =>
    rw [hall]
    intro a ha b hb
    have hR := (hsub a ha b).1 hb
    have hall' := (hmem a b hR).2
    exact ⟨hall', (hsuper b hall' a).2 hR⟩
  case subsNodup => exact hall ▸ hn

theorem Wf.relist (h : Wf m) (hall : m'.all = m.all) (hfresh : m'.fresh = m.fresh)
    (hkey : ∀ s, (m'.st s).key = (m.st s).key)
    (hsuper : ∀ s, (m'.st s).superSet = (m.st s).superSet)
    (hsub : ∀ s, (m'.st s).subSet = (m.st s).subSet) (hlists : ListsOk m') : Wf m' := by
  apply h.relink hall hfresh hkey (R := Linked m) _ _ _ _ hlists
  · intro a b hlink
    exact ⟨hlink.1, hlink.2.1⟩
  · intro b hb a
    rw [hsuper]
    exact h.mem_superSet hb
  · intro a ha b
    rw [hsub]
    exact h.mem_subSet ha
  · intro a ha
    rw [hsub]
    exact h.subsNodup a ha

theorem Wf.congr (h : Wf m) (hframe : SameFrame m m')
    (hst : ∀ s, SameLinks (m.st s) (m'.st s)) : Wf m' := by
  apply h.relist hframe.all hframe.fresh
  · exact fun s => (hst s).key
  · exact fun s => (hst s).superSet
  · exact fun s => (hst s).subSet
  · exact h.toListsOk.congr hframe fun s => (hst s).listSelect

variable (h : Inv m e) (hs : s ∈ m.all)
include h hs

theorem Inv.update (hst : m'.st = update m.st s x) (hlinks : SameLinks (m.st s) x)
    (hframe : SameFrame m m')
    (haddrs : m'.numReplyAddrs = m.numReplyAddrs - addrsOf (m.st s) + addrsOf x + d)
    (hreply : m'.numReplyStates = m.numReplyStates - replyOf (m.st s) + replyOf x)
    (hdetached : m'.numDetachedStates = m.numDetachedStates - detachedOf (m.st s) + detachedOf x) :
    Inv m' (e + d) where
  wf := by
    apply h.wf.congr hframe
    intro t
    rw [hst]
    exact sameLinks_update hlinks t
  counts := h.counts.update h.wf.nodup hs hst hframe haddrs hreply hdetached

theorem Inv.entryAdded (hlinks : SameLinks (m.st s) (f (m.st s)))
    (haddrs : addrsOf (f (m.st s)) = addrsOf (m.st s) + 1) (hreply : (f (m.st s)).hasReply = true) :
    Inv (countReply (m.modify s f) (m.st s)) e := by
  rw [← Int.add_zero e]
  refine h.update hs rfl hlinks ⟨rfl, rfl, rfl, rfl, rfl, rfl⟩ ?_ ?_ ?_
  · simp only [haddrs, countReply, MeshArea.modify]
    omega
  · simp only [countReply, MeshArea.modify, replyOf, hreply]
    cases hr : (m.st s).hasReply <;> simp
  · simp only [countReply, MeshArea.modify, detachedOf]
    cases hr : (m.st s).detached <;> simp [MeshState.detached, hreply]

theorem Inv.replyAdded (rep : MeshReply) (timeout : Bool) :
    Inv (countReply (m.modify s fun x => { x with
      replyList := rep :: x.replyList
      serveExpiredData := timeout || x.serveExpiredData }) (m.st s)) e := by
  refine h.entryAdded hs ⟨rfl, rfl, rfl, rfl⟩ ?_ rfl
  simp only [addrsOf, length_cons]
  omega

theorem Inv.callbackAdded (cb : MeshCb) (timeout : Bool) : Inv (addCallback m s cb timeout) e := by
  refine h.entryAdded hs ⟨rfl, rfl, rfl, rfl⟩ ?_ ?_
  · simp only [addrsOf, length_cons]
    omega
  · simp [MeshState.hasReply]

theorem Inv.callbackTaken {next : List MeshCb} (hcbs : (m.st s).cbList = c :: next) :
    Inv (takeCallback m s next) e := by
  have hreply : (m.st s).hasReply = true := by simp [MeshState.hasReply, hcbs]
  have hlast : ((m.st s).replyList.isEmpty && next.isEmpty) =
      !{ m.st s with cbList := next }.hasReply := by
    simp [MeshState.hasReply]
  rw [← Int.add_zero e]
  refine h.update hs rfl ⟨rfl, rfl, rfl, rfl⟩ ⟨rfl, rfl, rfl, rfl, rfl, rfl⟩ ?_ ?_ ?_
  · simp only [takeCallback, addrsOf, hcbs, length_cons]
    omega
  · simp only [takeCallback, hlast]
    exact replyStates_step hreply
  · exact detachedStates_step hreply

theorem Inv.callbacksTaken (hcbs : (m.st s).cbList = cbs) : Inv (callbackLoop s cbs m) e := by
  induction cbs generalizing m with
  | nil => exact h
  | cons c next ih =>
    apply ih (h.callbackTaken hs hcbs) hs
    simp only [takeCallback, update_self]

theorem Inv.repliesCleared (hn : n ≤ (m.st s).replyList.length) :
    Inv (clearReplies { m with numReplyAddrs := m.numReplyAddrs - n } s)
      (e + ((m.st s).replyList.length - n)) := by
  rw [clearReplies]
  split
  case isTrue hnil =>
    have hnil := isEmpty_iff.1 hnil
    rw [hnil, length_nil, Nat.le_zero] at hn
    rw [hnil, hn]
    simpa using h
  case isFalse hne =>
    have hreply := hasReply_of_replyList hne
    refine h.update hs rfl ⟨rfl, rfl, rfl, rfl⟩ ⟨rfl, rfl, rfl, rfl, rfl, rfl⟩ ?_ ?_ ?_
    · simp only [addrsOf, length_nil]
      omega
    · exact replyStates_step hreply
    · exact detachedStates_step hreply

theorem Inv.replyRemoved (comm : Nat) : Inv (meshStateRemoveReply m s comm) e := by
  rw [meshStateRemoveReply]
  split
  · exact h
  case isFalse hne =>
    have hreply := hasReply_of_replyList hne
    rw [← Int.add_zero e]
    refine h.update hs rfl ⟨rfl, rfl, rfl, rfl⟩ ⟨rfl, rfl, rfl, rfl, rfl, rfl⟩ ?_ ?_ ?_
    · simp only [addrsOf]
      omega
    · exact replyStates_step hreply
    · exact detachedStates_step hreply

theorem Inv.staleServed :
    Inv (meshServeExpiredCallback m s allowed answer) e := by
  rw [meshServeExpiredCallback]
  split
  · exact h
  · rw [foldl_meshSendReply]
    have hclear := h.repliesCleared hs (Nat.le_refl (m.st s).replyList.length)
    rw [Int.sub_self, Int.add_zero] at hclear
    apply hclear.callbacksTaken _ rfl
    rw [clearReplies_all]
    exact hs

theorem Inv.repliesGone (a : DoneArgs) :
    Inv (clearReplies (sendReplies m s a.isDrop) s) (e + droppedReplies (m.st s) a) := by
  rw [sendReplies_eq, droppedReplies]
  cases a.isDrop with
  | false =>
    have hclear := h.repliesCleared hs (Nat.le_refl (m.st s).replyList.length)
    rwa [Int.sub_self] at hclear
  | true =>
    have hclear := h.repliesCleared hs (Nat.zero_le (m.st s).replyList.length)
    simpa using hclear

theorem Inv.sentMarked : Inv (m.modify s fun x => { x with repliesSent := true }) e := by
  rw [← Int.add_zero e]
  refine h.update hs rfl ⟨rfl, rfl, rfl, rfl⟩ ⟨rfl, rfl, rfl, rfl, rfl, rfl⟩ ?_ ?_ ?_
  · rw [Int.add_zero]
    exact (Int.sub_add_cancel _ _).symm
  · exact (Int.sub_add_cancel _ _).symm
  · exact (Int.sub_add_cancel _ _).symm

theorem Inv.expiredServed : Inv (expiredFirst m s a) e := by
  rw [expiredFirst]
  split
  · exact h.staleServed hs
  · exact h

theorem Inv.done (a : DoneArgs) : Inv (meshQueryDone m s a) (e + droppedReplies (m.st s) a) := by
  have hmem : s ∈ (expiredFirst m s a).all := by rwa [expiredFirst_all]
  have hsend := (h.expiredServed hs).repliesGone hmem a
  rw [droppedReplies_expiredFirst] at hsend
  have hmem' : s ∈ (clearReplies (sendReplies (expiredFirst m s a) s a.isDrop) s).all := by
    rwa [clearReplies_all, sendReplies_eq]
  exact (hsend.sentMarked hmem').callbacksTaken hmem' rfl

end

open Lib List

variable {m m' : MeshArea C}

structure SameCounts (x y : MeshState C) : Prop where
  replyList : y.replyList = x.replyList
  cbList : y.cbList = x.cbList
  superSet : y.superSet = x.superSet

theorem SameCounts.weights (h : SameCounts x y) :
    addrsOf y = addrsOf x ∧ replyOf y = replyOf x ∧ detachedOf y = detachedOf x := by
  have hreply : y.hasReply = x.hasReply := by
    rw [MeshState.hasReply, MeshState.hasReply, h.replyList, h.cbList]
  refine ⟨?_, ?_, ?_⟩
  · rw [addrsOf, addrsOf, h.replyList, h.cbList]
  · rw [replyOf, replyOf, hreply]
  · rw [detachedOf, detachedOf, MeshState.detached, MeshState.detached, hreply, h.superSet]

theorem Counts.congr (h : Counts m e) (hall : m'.all = m.all)
    (hst : ∀ s, SameCounts (m.st s) (m'.st s))
    (hnum : m'.numReplyAddrs = m.numReplyAddrs ∧ m'.numReplyStates = m.numReplyStates ∧
      m'.numDetachedStates = m.numDetachedStates)
    (hforever : m'.numForeverStates = m'.forever.length ∧
      m'.numForeverStates ≤ m'.maxForeverStates) : Counts m' e := by
  obtain ⟨hnum₁, hnum₂, hnum₃⟩ := hnum
  constructor
  case addrs => rw [hnum₁, h.addrs, hall, total_congr fun s _ => (hst s).weights.1]
  case states => rw [hnum₂, h.states, hall, total_congr fun s _ => (hst s).weights.2.1]
  case detached => rw [hnum₃, h.detached, hall, total_congr fun s _ => (hst s).weights.2.2]
  case forever => exact hforever.1
  case foreverMax => exact hforever.2

theorem modify_st :
    (m.modify s f).st t = if t = s then f (m.st t) else m.st t := by
  by_cases ht : t = s <;> simp [MeshArea.modify, ht]

theorem modify_st_self (m : MeshArea C) (s : Nat) (f : MeshState C → MeshState C) :
    (m.modify s f).st s = f (m.st s) :=
  update_self _ _ _

theorem modify_congr {α : Type} (g : MeshState C → α) (hf : ∀ x, g (f x) = g x) (s t : Nat) :
    g ((m.modify s f).st t) = g (m.st t) := by
  rw [modify_st]
  split
  · exact hf _
  · rfl

theorem sameCounts_modify (hf : ∀ x, SameCounts x (f x)) (s t : Nat) :
    SameCounts (m.st t) ((m.modify s f).st t) := by
  rw [modify_st]
  split
  · exact hf _
  · exact ⟨rfl, rfl, rfl⟩

theorem mem_append_select (hs : s ∈ m.all)
    (hno : (m.st s).listSelect = .noList) (hselect : select ≠ .noList)
    (hmem : ∀ t, t ∈ list ↔ t ∈ m.all ∧ (m.st t).listSelect = select) (t : Nat) :
    t ∈ (if new = select then list ++ [s] else list) ↔
      t ∈ m.all ∧ ((m.modify s fun x => { x with listSelect := new }).st t).listSelect = select := by
  rw [modify_st]
  by_cases ht : t = s <;> by_cases hnew : new = select <;> simp [*, hselect.symm]

theorem modify_eq_of (hfg : f (m.st s) = g (m.st s)) : m.modify s f = m.modify s g := by
  rw [MeshArea.modify, MeshArea.modify, hfg]

def link (m : MeshArea C) (super sub : Nat) : MeshArea C :=
  (m.modify sub fun x => { x with superSet := super :: x.superSet }).modify super
    fun x => { x with subSet := sub :: x.subSet }

theorem link_st : (link m super sub).st t = { m.st t with
      superSet := if t = sub then super :: (m.st t).superSet else (m.st t).superSet
      subSet := if t = super then sub :: (m.st t).subSet else (m.st t).subSet } := by
  rw [link, modify_st, modify_st]
  split <;> split <;> rfl

variable [DecidableEq C]

theorem Wf.same_iff_eq (h : Wf m) (ht : t ∈ m.all) (hs : s ∈ m.all) :
    (m.st t).key.same (m.st s).key = true ↔ t = s := by
  constructor
  · exact h.keys t ht s hs
  · intro heq
    rw [heq]
    exact MeshKey.same_self _

theorem Wf.mem_deleteRef (h : Wf m) (htree : ∀ t ∈ tree, t ∈ m.all) (hs : s ∈ m.all) :
    t ∈ m.deleteRef tree s ↔ t ∈ tree ∧ t ≠ s := by
  rw [MeshArea.deleteRef, mem_filter]
  apply and_congr_right
  intro ht
  rw [Bool.not_eq_true', ← Bool.not_eq_true, h.same_iff_eq (htree t ht) hs]

theorem Wf.deleteRef_eq_erase (h : Wf m) (htree : ∀ t ∈ tree, t ∈ m.all) (hs : s ∈ m.all)
    (hn : tree.Nodup) : m.deleteRef tree s = tree.erase s := by
  rw [hn.erase_eq_filter, MeshArea.deleteRef]
  apply filter_congr
  intro t ht
  rw [Bool.eq_iff_iff, Bool.not_eq_true', ← Bool.not_eq_true, h.same_iff_eq (htree t ht) hs]
  simp

theorem Wf.insertRef_of_notMem (h : Wf m) (htree : ∀ t ∈ tree, t ∈ m.all)
    (hs : s ∈ m.all) (hnot : s ∉ tree) : m.insertRef tree s = s :: tree := by
  rw [MeshArea.insertRef, if_neg]
  rw [any_eq_true]
  rintro ⟨t, ht, hsame⟩
  rw [h.same_iff_eq (htree t ht) hs] at hsame
  exact hnot (hsame ▸ ht)

theorem Wf.any_same (h : Wf m) {tree : List Nat} (htree : ∀ t ∈ tree, t ∈ m.all) (hs : s ∈ m.all) :
    (tree.any fun t => (m.st t).key.same (m.st s).key) = true ↔ s ∈ tree := by
  rw [any_eq_true]
  constructor
  · rintro ⟨t, ht, hsame⟩
    rw [h.same_iff_eq (htree t ht) hs] at hsame
    exact hsame ▸ ht
  · intro hmem
    exact ⟨s, hmem, MeshKey.same_self _⟩

theorem deleteRef_congr (hkey : ∀ t, (m'.st t).key = (m.st t).key) :
    m'.deleteRef tree s = m.deleteRef tree s := by
  rw [MeshArea.deleteRef, MeshArea.deleteRef]
  simp only [hkey]

theorem insertRef_congr (hkey : ∀ t, (m'.st t).key = (m.st t).key) :
    m'.insertRef tree s = m.insertRef tree s := by
  rw [MeshArea.insertRef, MeshArea.insertRef]
  simp only [hkey]

theorem Wf.superSet_subset (h : Wf m) (hs : s ∈ m.all) : ∀ t ∈ (m.st s).superSet, t ∈ m.all :=
  fun t ht => (h.supers s hs t ht).1

theorem Wf.subSet_subset (h : Wf m) (hs : s ∈ m.all) : ∀ t ∈ (m.st s).subSet, t ∈ m.all :=
  fun t ht => (h.subs s hs t ht).1

theorem meshAreaFind_none {key : MeshKey C} (h : meshAreaFind m key = none) :
    ∀ t ∈ m.all, ¬ (m.st t).key.same key = true := by
  intro t ht
  exact find?_eq_none.1 h t ht

theorem meshAreaFind_mem {key : MeshKey C} (h : meshAreaFind m key = some s) : s ∈ m.all :=
  mem_of_find?_eq_some h

theorem Wf.newKey (h : Wf m) {key : MeshKey C} {unique : Bool} (hkey : key.unique = none)
    (hfind : (if unique then none else meshAreaFind m key) = none) :
    ∀ t ∈ m.all,
      ¬ (m.st t).key.same { key with unique := if unique then some m.fresh else none } = true := by
  intro t ht
  cases unique with
  | false =>
    have hsame : { key with unique := none } = key := by rw [← hkey]
    rw [if_neg (by simp), hsame]
    exact meshAreaFind_none hfind t ht
  | true =>
    rw [if_pos rfl, MeshKey.same_iff]
    rintro ⟨hunique, _⟩
    rcases h.unique t ht with hnone | hsome
    · rw [hnone] at hunique
      cases hunique
    · rw [hsome, Option.some.injEq] at hunique
      have hlt := h.fresh t ht
      omega

theorem addDetached_all (h : Wf m) {key : MeshKey C} {unique : Bool} (hkey : key.unique = none)
    (hfind : (if unique then none else meshAreaFind m key) = none) :
    (addDetached m key unique).all = m.fresh :: m.all := by
  apply if_neg
  rw [any_eq_true]
  rintro ⟨t, ht, hsame⟩
  have hne : t ≠ m.fresh := (h.fresh t ht).ne
  simp only [meshStateCreate, update_self, update_of_ne hne] at hsame
  exact h.newKey hkey hfind t ht hsame

theorem Wf.insertFresh (h : Wf m) (hall : m'.all = m.fresh :: m.all)
    (hst : m'.st = Function.update m.st m.fresh x) (hfresh : m'.fresh = m.fresh + 1)
    (hforever : m'.forever = m.forever) (hjostle : m'.jostle = m.jostle)
    (hunique : x.key.unique = none ∨ x.key.unique = some m.fresh)
    (hkey : ∀ t ∈ m.all, ¬ (m.st t).key.same x.key = true) (hsuper : x.superSet = [])
    (hsub : x.subSet = []) (hlist : x.listSelect = .noList) : Wf m' := by
  have hnew : m'.st m.fresh = x := by rw [hst, update_self]
  have hold : ∀ t ∈ m.all, m'.st t = m.st t := by
    intro t ht
    rw [hst, update_of_ne (h.fresh t ht).ne]
  have hnot : m.fresh ∉ m.all := fun hmem => (h.fresh _ hmem).ne rfl
  have hmem : ∀ t, t ∈ m'.all ↔ t = m.fresh ∨ t ∈ m.all := by
    intro t
    rw [hall, mem_cons]
  have hselect : ∀ list : MeshListSelect, list ≠ .noList → ∀ t,
      t ∈ m.all ∧ (m.st t).listSelect = list ↔ t ∈ m'.all ∧ (m'.st t).listSelect = list := by
    intro list hne t
    constructor
    · rintro ⟨ht, hsel⟩
      exact ⟨(hmem t).2 (.inr ht), by rw [hold t ht, hsel]⟩
    · rintro ⟨ht, hsel⟩
      rcases (hmem t).1 ht with rfl | ht
      · rw [hnew, hlist] at hsel
        exact absurd hsel.symm hne
      · rw [hold t ht] at hsel
        exact ⟨ht, hsel⟩
  constructor
  case toListsOk =>
    constructor
    case forever => exact hforever ▸ h.forever
    case foreverMem =>
      intro t
      rw [hforever, h.foreverMem]
      exact hselect _ (by decide) t
    case jostle => exact hjostle ▸ h.jostle
    case jostleMem =>
      intro t
      rw [hjostle, h.jostleMem]
      exact hselect _ (by decide) t
  case nodup =>
    rw [hall]
    exact nodup_cons.2 ⟨hnot, h.nodup⟩
  case fresh =>
    rw [hall, hfresh, forall_mem_cons]
    exact ⟨Nat.lt_succ_self _, fun t ht => Nat.lt_succ_of_lt (h.fresh t ht)⟩
  case unique =>
    rw [hall, forall_mem_cons, hnew]
    exact ⟨hunique, fun t ht => hold t ht ▸ h.unique t ht⟩
  case keys =>
    intro a ha b hb hsame
    rcases (hmem a).1 ha with rfl | ha
    · rcases (hmem b).1 hb with rfl | hb
      · rfl
      · rw [hnew, hold b hb] at hsame
        exact absurd (MeshKey.same_comm hsame) (hkey b hb)
    · rcases (hmem b).1 hb with rfl | hb
      · rw [hnew, hold a ha] at hsame
        exact absurd hsame (hkey a ha)
      · rw [hold a ha, hold b hb] at hsame
        exact h.keys a ha b hb hsame
  case supers =>
    rw [hall, forall_mem_cons, hnew, hsuper]
    refine ⟨nofun, fun b hb a ha => ?_⟩
    rw [hold b hb] at ha
    obtain ⟨hmem, hlink⟩ := h.supers b hb a ha
    exact ⟨mem_cons_of_mem _ hmem, hold a hmem ▸ hlink⟩
  case subs =>
    rw [hall, forall_mem_cons, hnew, hsub]
    refine ⟨nofun, fun a ha b hb => ?_⟩
    rw [hold a ha] at hb
    obtain ⟨hmem, hlink⟩ := h.subs a ha b hb
    exact ⟨mem_cons_of_mem _ hmem, hold b hmem ▸ hlink⟩
  case subsNodup =>
    rw [hall, forall_mem_cons, hnew, hsub]
    exact ⟨nodup_nil, fun a ha => hold a ha ▸ h.subsNodup a ha⟩

theorem Wf.detachedAdded (h : Wf m) {key : MeshKey C} {unique : Bool} (hkey : key.unique = none)
    (hfind : (if unique then none else meshAreaFind m key) = none) :
    Wf (addDetached m key unique) := by
  have hunique : (if unique then some m.fresh else none) = none ∨
      (if unique then some m.fresh else none) = some m.fresh := by
    cases unique with
    | false => exact .inl rfl
    | true => exact .inr rfl
  exact h.insertFresh (addDetached_all h hkey hfind) rfl rfl rfl rfl hunique
    (h.newKey hkey hfind) rfl rfl rfl

theorem Inv.detachedAdded (h : Inv m e) {key : MeshKey C} {unique : Bool} (hkey : key.unique = none)
    (hfind : (if unique then none else meshAreaFind m key) = none) :
    Inv (addDetached m key unique) e := by
  have hall := addDetached_all h.wf hkey hfind
  have hnot : m.fresh ∉ m.all := fun hmem => (h.wf.fresh _ hmem).ne rfl
  have htotal : ∀ w : MeshState C → Int,
      total (addDetached m key unique).all (addDetached m key unique).st w =
        w ((addDetached m key unique).st m.fresh) + total m.all m.st w := by
    intro w
    rw [hall, total_cons]
    congr 1
    exact total_update_of_notMem hnot
  have hnew : (addDetached m key unique).st m.fresh = _ := update_self _ _ _
  constructor
  case wf => exact h.wf.detachedAdded hkey hfind
  case counts =>
    constructor
    case addrs =>
      rw [htotal, hnew, Int.add_assoc, ← h.counts.addrs]
      exact (Int.zero_add _).symm
    case states =>
      rw [htotal, hnew, ← h.counts.states]
      exact (Int.zero_add _).symm
    case detached =>
      rw [htotal, hnew, ← h.counts.detached]
      exact Int.add_comm _ _
    case forever => exact h.counts.forever
    case foreverMax => exact h.counts.foreverMax

theorem Wf.notMem_lists (h : Wf m) (hno : (m.st s).listSelect = .noList) :
    s ∉ m.forever ∧ s ∉ m.jostle := by
  rw [h.foreverMem, h.jostleMem, hno]
  simp

theorem Wf.select (h : Wf m) (hs : s ∈ m.all) (hno : (m.st s).listSelect = .noList)
    (hall : m'.all = m.all) (hfresh : m'.fresh = m.fresh)
    (hst : m'.st = (m.modify s fun x => { x with listSelect := new }).st)
    (hforever : m'.forever = if new = .foreverList then m.forever ++ [s] else m.forever)
    (hjostle : m'.jostle = if new = .jostleList then m.jostle ++ [s] else m.jostle) : Wf m' := by
  have happend : ∀ {list : List Nat} {c : Prop} [Decidable c], list.Nodup → s ∉ list →
      (if c then list ++ [s] else list).Nodup := by
    intro list c _ hn hnot
    split
    · exact hn.append (nodup_singleton s) (disjoint_singleton.2 hnot)
    · exact hn
  have hlists := h.notMem_lists hno
  apply h.relist hall hfresh
  · rw [hst]
    exact modify_congr MeshState.key (by intro _; rfl) s
  · rw [hst]
    exact modify_congr MeshState.superSet (by intro _; rfl) s
  · rw [hst]
    exact modify_congr MeshState.subSet (by intro _; rfl) s
  constructor
  case forever =>
    rw [hforever]
    exact happend h.forever hlists.1
  case foreverMem =>
    rw [hforever, hst, hall]
    exact mem_append_select hs hno (by decide) h.foreverMem
  case jostle =>
    rw [hjostle]
    exact happend h.jostle hlists.2
  case jostleMem =>
    rw [hjostle, hst, hall]
    exact mem_append_select hs hno (by decide) h.jostleMem

theorem Inv.listJoined (h : Inv m e) (hs : s ∈ m.all) : Inv (joinList m s) e := by
  rw [joinList]
  split
  case isFalse => exact h
  case isTrue hno =>
    have hlen := h.counts.forever
    have hmax := h.counts.foreverMax
    have hst : ∀ (new : MeshListSelect) (t : Nat),
        SameCounts (m.st t) ((m.modify s fun x => { x with listSelect := new }).st t) := by
      intro new t
      apply sameCounts_modify
      exact fun _ => ⟨rfl, rfl, rfl⟩
    split
    case isTrue hroom =>
      refine ⟨h.wf.select hs hno rfl rfl rfl rfl rfl, ?_⟩
      refine h.counts.congr rfl (hst _) ⟨rfl, rfl, rfl⟩ ?_
      simp only [length_append, length_singleton, MeshArea.modify]
      omega
    case isFalse =>
      refine ⟨h.wf.select hs hno rfl rfl rfl rfl rfl, ?_⟩
      exact h.counts.congr rfl (hst _) ⟨rfl, rfl, rfl⟩ ⟨hlen, hmax⟩

theorem Wf.rerun (h : Wf m) (run : List Nat) (jostled dropped : Nat) :
    Wf { m with run := run, statsJostled := jostled, statsDropped := dropped } :=
  h.congr ⟨rfl, rfl, rfl, rfl, rfl, rfl⟩ fun _ => ⟨rfl, rfl, rfl, rfl⟩

theorem Inv.rerun (h : Inv m e) (run : List Nat) (jostled dropped : Nat) :
    Inv { m with run := run, statsJostled := jostled, statsDropped := dropped } e where
  wf := h.wf.rerun run jostled dropped
  counts := ⟨h.counts.addrs, h.counts.states, h.counts.detached, h.counts.forever,
    h.counts.foreverMax⟩

theorem meshAddSub_cases (hadd : meshAddSub m s q prime valrec = some (m', sub)) :
    (m' = m ∧ sub ∈ m.all ∧ meshDetectCycleFound m s (some sub) = false) ∨
      ((if false then none else meshAreaFind m (meshKey q none prime valrec)) = none ∧
        sub = m.fresh ∧ ∃ run,
          m' = { addDetached m (meshKey q none prime valrec) false with run := run }) := by
  rw [meshAddSub] at hadd
  split at hadd
  case isTrue => cases hadd
  case isFalse hcycle =>
    split at hadd
    case h_1 sub' hfind =>
      cases hadd
      rw [hfind, Bool.not_eq_true] at hcycle
      exact .inl ⟨rfl, meshAreaFind_mem hfind, hcycle⟩
    case h_2 hfind =>
      cases hadd
      exact .inr ⟨hfind, rfl, _, rfl⟩

theorem Wf.subAdded (h : Wf m) (hs : s ∈ m.all)
    (hadd : meshAddSub m s q prime valrec = some (m', sub)) :
    Wf m' ∧ s ∈ m'.all ∧ sub ∈ m'.all := by
  rcases meshAddSub_cases hadd with ⟨rfl, hsub, _⟩ | ⟨hfind, rfl, run, rfl⟩
  · exact ⟨h, hs, hsub⟩
  · have hall := addDetached_all h rfl hfind
    refine ⟨(h.detachedAdded rfl hfind).rerun _ _ _, ?_, ?_⟩
    · rw [hall]
      exact mem_cons_of_mem _ hs
    · rw [hall]
      exact mem_cons_self

theorem Inv.subAdded (h : Inv m e) (hadd : meshAddSub m s q prime valrec = some (m', sub)) :
    Inv m' e := by
  rcases meshAddSub_cases hadd with ⟨rfl, _, _⟩ | ⟨hfind, rfl, run, rfl⟩
  · exact h
  · exact (h.detachedAdded rfl hfind).rerun _ _ _

theorem meshStateAttachment_eq (h : Wf m) (hs : s ∈ m.all) (hsub : sub ∈ m.all) :
    meshStateAttachment m s sub = if s ∈ (m.st sub).superSet then m else link m s sub := by
  have hsupers := h.superSet_subset hsub
  rw [meshStateAttachment]
  by_cases hmem : s ∈ (m.st sub).superSet
  · rw [if_pos hmem, if_pos ((h.any_same hsupers hs).2 hmem)]
  rw [if_neg hmem, if_neg (mt (h.any_same hsupers hs).1 hmem)]
  have hnot : sub ∉ (m.st s).subSet := by
    rw [h.mem_subSet hs, ← h.mem_superSet hsub]
    exact hmem
  have hfirst : (m.modify sub fun x => { x with superSet := m.insertRef x.superSet s }) =
      m.modify sub fun x => { x with superSet := s :: x.superSet } := by
    apply modify_eq_of
    simp only [h.insertRef_of_notMem hsupers hs hmem]
  simp only [hfirst, link]
  apply modify_eq_of
  rw [insertRef_congr (modify_congr MeshState.key (by intro _; rfl) sub),
    modify_congr MeshState.subSet (by intro _; rfl) sub,
    h.insertRef_of_notMem (h.subSet_subset hs) hsub hnot]

theorem Wf.linked (h : Wf m) (hs : s ∈ m.all) (hsub : sub ∈ m.all)
    (hnot : s ∉ (m.st sub).superSet) : Wf (link m s sub) := by
  have hnot' : sub ∉ (m.st s).subSet := by
    rw [h.mem_subSet hs, ← h.mem_superSet hsub]
    exact hnot
  refine h.relink rfl rfl ?_ (R := fun a b => Linked m a b ∨ (a = s ∧ b = sub)) ?_ ?_ ?_ ?_ ?_
  · intro t
    rw [link_st]
  · rintro a b (hlink | ⟨rfl, rfl⟩)
    · exact ⟨hlink.1, hlink.2.1⟩
    · exact ⟨hs, hsub⟩
  · intro b hb a
    rw [link_st, ← h.mem_superSet hb]
    by_cases heq : b = sub
    · simp [heq, or_comm]
    · simp [heq]
  · intro a ha b
    rw [link_st, ← h.mem_subSet ha]
    by_cases heq : a = s
    · simp [heq, or_comm]
    · simp [heq]
  · intro a ha
    rw [link_st]
    by_cases heq : a = s
    · subst heq
      simpa using ⟨hnot', h.subsNodup a ha⟩
    · simpa [heq] using h.subsNodup a ha
  · refine h.toListsOk.congr ⟨rfl, rfl, rfl, rfl, rfl, rfl⟩ ?_
    intro t
    rw [link_st]

theorem Inv.linked (h : Inv m e) (hs : s ∈ m.all) (hsub : sub ∈ m.all)
    (hnot : s ∉ (m.st sub).superSet) :
    Inv { link m s sub with numDetachedStates := m.numDetachedStates - detachedOf (m.st sub) }
      e where
  wf := (h.wf.linked hs hsub hnot).congr ⟨rfl, rfl, rfl, rfl, rfl, rfl⟩
    fun _ => ⟨rfl, rfl, rfl, rfl⟩
  counts := by
    have hzero : ∀ x : MeshState C, detachedOf { x with superSet := s :: x.superSet } = 0 := by
      simp [detachedOf, MeshState.detached]
    have hcounts : Counts { m.modify sub fun x => { x with superSet := s :: x.superSet } with
        numDetachedStates := m.numDetachedStates - detachedOf (m.st sub) } (e + 0) := by
      refine h.counts.update h.wf.nodup hsub rfl ⟨rfl, rfl, rfl, rfl, rfl, rfl⟩ ?_ ?_ ?_
      · rw [Int.add_zero]
        exact (Int.sub_add_cancel _ _).symm
      · exact (Int.sub_add_cancel _ _).symm
      · rw [hzero, Int.add_zero]
    rw [Int.add_zero] at hcounts
    have hsame : ∀ t, SameCounts
        ((m.modify sub fun x => { x with superSet := s :: x.superSet }).st t)
        ((link m s sub).st t) := by
      apply sameCounts_modify
      exact fun _ => ⟨rfl, rfl, rfl⟩
    exact hcounts.congr rfl hsame ⟨rfl, rfl, rfl⟩ ⟨hcounts.forever, hcounts.foreverMax⟩

theorem Inv.subAttached (h : Inv m e) (hs : s ∈ m.all) :
    Inv (meshAttachSub m s q prime valrec) e := by
  rw [meshAttachSub]
  split
  case h_1 => exact h
  case h_2 m₁ sub hadd =>
    have hinv := h.subAdded hadd
    obtain ⟨_, hs, hsub⟩ := h.wf.subAdded hs hadd
    rw [meshStateAttachment_eq hinv.wf hs hsub]
    by_cases hmem : s ∈ (m₁.st sub).superSet
    · have hne : (m₁.st sub).superSet.isEmpty = false := by
        rw [isEmpty_eq_false_iff]
        exact ne_nil_of_mem hmem
      simpa [hmem, hne] using hinv
    · have hlinked := hinv.linked hs hsub hmem
      have hdetached : ((!((link m₁ s sub).st sub).hasReply && (m₁.st sub).superSet.isEmpty) &&
          decide (((link m₁ s sub).st sub).superSet.length = 1)) = (m₁.st sub).detached := by
        rw [link_st]
        cases hsupers : (m₁.st sub).superSet with
        | nil => simp [MeshState.detached, MeshState.hasReply, hsupers]
        | cons a supers => simp [MeshState.detached, hsupers]
      simp only [if_neg hmem, hdetached]
      rw [detachedOf] at hlinked
      split
      case isTrue hd =>
        rw [if_pos hd] at hlinked
        exact hlinked
      case isFalse hd =>
        rw [if_neg hd, Int.sub_zero] at hlinked
        exact hlinked

end CwdGate.Services
