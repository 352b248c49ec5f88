import Mathlib

namespace CwdGate.WgUi

abbrev Text := List Char

/-- The white space and line ends that `parseInt` skips. -/
def isSpace (c : Char) : Bool :=
  c.toNat ∈ [0x09, 0x0a, 0x0b, 0x0c, 0x0d, 0x20, 0xa0, 0x1680, 0x2028, 0x2029, 0x202f, 0x205f,
    0x3000, 0xfeff] || (0x2000 ≤ c.toNat && c.toNat ≤ 0x200a)

/-- `parseInt` to the base ten: the number that a text starts with. -/
def parseInt (s : Text) : Option Int :=
  let s := s.dropWhile isSpace
  let signed := s.head? = some '-' ∨ s.head? = some '+'
  let digits := (if signed then s.tail else s).takeWhile Char.isDigit
  if digits = [] then none
  else
    let value : Int := digits.foldl (fun n c => 10 * n + (c.toNat - 48)) 0
    some (if s.head? = some '-' then -value else value)

def isValidIPv4 (str : Text) : Bool :=
  let blocks := str.splitOn '.'
  blocks.length == 4 && blocks.all fun block =>
    match parseInt block with
    | none => false
    | some value => !(value < 0 || value > 255)

/-- `replace('x', i)`: the first `x` makes way for the number. -/
def replaceX (s : Text) (i : Nat) : Text :=
  s.takeWhile (· ≠ 'x') ++ if 'x' ∈ s then Nat.toDigits 10 i ++ (s.dropWhile (· ≠ 'x')).tail else []

structure Client where
  name : Text
  address : Text
  privateKey : Text
  publicKey : Text
  preSharedKey : Text
  enabled : Bool
  deriving DecidableEq, Repr

/-- A property of `config.clients`, with the number of the object that it refers to. -/
structure Entry where
  clientId : Text
  object : Nat
  client : Client
  deriving DecidableEq, Repr

/-- The configuration: `server` is the server's address, `objects` the number of objects made. -/
structure Config where
  server : Text
  clients : List Entry
  objects : Nat
  deriving DecidableEq, Repr

/-- `WG_DEFAULT_ADDRESS`, and the names under which `config.clients` has an inherited property. -/
structure Env where
  defaultAddress : Text
  inherited : Text → Bool

inductive Update where
  | enabled (enabled : Bool)
  | name (name : Text)
  | address (address : Text)
  deriving DecidableEq, Repr

def Update.accepted : Update → Bool
  | .address a => isValidIPv4 a
  | _ => true

def Update.apply (client : Client) : Update → Client
  | .enabled b => { client with enabled := b }
  | .name n => { client with name := n }
  | .address a => { client with address := a }

/-- A call in progress: what it does when its next await is over. -/
inductive Task where
  | create (name : Text) (outs : List Text)
  | delete (clientId : Text)
  | find (clientId : Text) (update : Update)
  | assign (object : Option Nat) (update : Update)
  | save (awaits : Nat)
  deriving DecidableEq, Repr

inductive Call where
  | createClient (name : Text)
  | deleteClient (clientId : Text)
  | enableClient (clientId : Text)
  | disableClient (clientId : Text)
  | updateClientName (clientId name : Text)
  | updateClientAddress (clientId address : Text)

def Call.start : Call → Option Task
  | .createClient name => if name = [] then none else some (.create name [])
  | .deleteClient clientId => some (.delete clientId)
  | .enableClient clientId => some (.find clientId (.enabled true))
  | .disableClient clientId => some (.find clientId (.enabled false))
  | .updateClientName clientId name => some (.find clientId (.name name))
  | .updateClientAddress clientId address => some (.find clientId (.address address))

section Turn
variable (env : Env) (cfg : Config)

/-- `config.clients[clientId]`: the object of a client, or an inherited value. -/
def getClient (clientId : Text) : Option (Option Nat) :=
  match cfg.clients.find? (·.clientId = clientId) with
  | some e => some (some e.object)
  | none => if env.inherited clientId then some none else none

def hasAddress (address : Text) : Bool := cfg.clients.any (·.client.address = address)

def nextAddress : Option Text :=
  let i := (List.range' 2 253).find? fun i => !hasAddress cfg (replaceX env.defaultAddress i)
  (i.map (replaceX env.defaultAddress)).filter (· ≠ [])

def setClient (clientId : Text) (client : Client) : Config :=
  let new : Entry := ⟨clientId, cfg.objects, client⟩
  { cfg with
    objects := cfg.objects + 1
    clients := if cfg.clients.any (·.clientId = clientId) then
        cfg.clients.map fun e => if e.clientId = clientId then new else e
      else cfg.clients ++ [new] }

def removeClient (clientId : Text) : Config :=
  { cfg with clients := cfg.clients.filter (·.clientId ≠ clientId) }

/-- An assignment to an object; an object that is in no property is out of sight. -/
def assignClient (object : Option Nat) (update : Update) : Config :=
  { cfg with clients := cfg.clients.map fun e =>
      if some e.object = object then { e with client := update.apply e.client } else e }

def saveConfig : Task := .save 4

/-- A call runs from one await to the next, or throws. `out` is what the command printed. -/
def resume (out uuid : Text) : Task → Option (Config × Option Task)
  | .create name [_, privateKey, publicKey] =>
    (nextAddress env cfg).map fun address =>
      (setClient cfg uuid ⟨name, address, privateKey, publicKey, out, true⟩, some saveConfig)
  | .create name outs => some (cfg, some (.create name (outs ++ [out])))
  | .delete clientId =>
    if (getClient env cfg clientId).isSome then some (removeClient cfg clientId, some saveConfig)
    else some (cfg, none)
  | .find clientId update =>
    (getClient env cfg clientId).map fun object => (cfg, some (.assign object update))
  | .assign object update =>
    if update.accepted then some (assignClient cfg object update, some saveConfig) else none
  | .save 0 => some (cfg, none)
  | .save (n + 1) => some (cfg, some (.save n))

end Turn

structure State where
  config : Config
  tasks : List Task
  deriving DecidableEq, Repr

def emptyState (server : Text) : State := ⟨⟨server, [], 0⟩, []⟩

inductive Event where
  | call (call : Call)
  | resume (k : Nat) (out uuid : Text)

/-- The event loop starts a call or lets one go on; nothing comes out when it throws. -/
def step (env : Env) (s : State) : Event → Option State
  | .call call => call.start.map fun t => { s with tasks := s.tasks ++ [t] }
  | .resume k out uuid =>
    match s.tasks[k]? with
    | none => none
    | some t =>
      (resume env s.config out uuid t).map fun r =>
        ⟨r.1, match r.2 with
          | none => s.tasks.eraseIdx k
          | some t => s.tasks.set k t⟩

def trace (env : Env) (s : State) : List Event → Option (List State)
  | [] => some []
  | ev :: evs => (step env s ev).bind fun s' => (trace env s' evs).map (s' :: ·)

open List

variable {env : Env} {s : State}

/-- No two clients have the same address, and none has the server's. -/
def Distinct (cfg : Config) : Prop :=
  ∀ e ∈ cfg.clients, e.client.address ≠ cfg.server ∧
    ∀ e' ∈ cfg.clients, e.clientId ≠ e'.clientId → e.client.address ≠ e'.client.address

/-- The address is not the server's and no other client's than the one it is for. -/
def addressFree (cfg : Config) (object : Option Nat) (address : Text) : Bool :=
  ∀ e ∈ cfg.clients, some e.object = object → address ≠ cfg.server ∧
    ∀ e' ∈ cfg.clients, e'.clientId ≠ e.clientId → e'.client.address ≠ address

/-- Where the server has an address of the range for clients, one before it is free. -/
def rangeFree (env : Env) (cfg : Config) : Bool :=
  (range' 2 253).all fun i => replaceX env.defaultAddress i ≠ cfg.server ||
    (range' 2 (i - 2)).any fun j => !hasAddress cfg (replaceX env.defaultAddress j)

/-- What the next turn of a call must meet to keep the addresses distinct. -/
def careful (env : Env) (cfg : Config) : Task → Bool
  | .create _ [_, _, _] => rangeFree env cfg
  | .assign object (.address address) => addressFree cfg object address
  | _ => true

def carefulEvent (env : Env) (s : State) : Event → Bool
  | .call _ => true
  | .resume k _ _ => s.tasks[k]?.all (careful env s.config)

def carefulRun (env : Env) (s : State) : List Event → Bool
  | [] => true
  | ev :: evs => carefulEvent env s ev && (step env s ev).all (carefulRun env · evs)

/-- A property is one client, and an object is in one property. -/
structure Wf (cfg : Config) : Prop where
  below : ∀ e ∈ cfg.clients, e.object < cfg.objects
  object : ∀ e ∈ cfg.clients, ∀ e' ∈ cfg.clients, e.object = e'.object ↔ e.clientId = e'.clientId

theorem mem_setClient : e ∈ (setClient cfg clientId client).clients ↔
    e = ⟨clientId, cfg.objects, client⟩ ∨ e ∈ cfg.clients ∧ e.clientId ≠ clientId := by
  rw [setClient]
  split
  case isTrue hany =>
    grind
  case isFalse hany =>
    grind

theorem Wf.set (h : Wf cfg) (clientId : Text) (client : Client) :
    Wf (setClient cfg clientId client) := by
  have hbelow := h.below
  have hobject := h.object
  constructor
  · intro e he
    rw [mem_setClient] at he
    change e.object < cfg.objects + 1
    grind
  · intro e he e' he'
    rw [mem_setClient] at he he'
    grind

theorem Wf.assign (h : Wf cfg) (object : Option Nat) (update : Update) :
    Wf (assignClient cfg object update) := by
  have hbelow := h.below
  have hobject := h.object
  constructor
  · rw [assignClient, forall_mem_map]
    grind
  · simp only [assignClient, forall_mem_map]
    grind

theorem Wf.remove (h : Wf cfg) (clientId : Text) : Wf (removeClient cfg clientId) where
  below e he := h.below e (mem_of_mem_filter he)
  object e he e' he' := h.object e (mem_of_mem_filter he) e' (mem_of_mem_filter he')

theorem hasAddress_eq_false : hasAddress cfg a = false ↔ ∀ e ∈ cfg.clients, e.client.address ≠ a := by
  simp [hasAddress]

theorem nextAddress_spec (hserver : hasAddress cfg cfg.server = false)
    (h : nextAddress env cfg = some address) :
    hasAddress cfg address = false ∧ (address ≠ cfg.server ↔ rangeFree env cfg = true) := by
  obtain ⟨h, _⟩ := Option.filter_eq_some_iff.1 h
  obtain ⟨k, hk, rfl⟩ := Option.map_eq_some_iff.1 h
  obtain ⟨hnew, hrange, hfirst⟩ := find?_range'_eq_some.1 hk
  have hbounds := mem_range'_1.1 hrange
  simp only [Bool.not_eq_true', Bool.not_not] at hnew hfirst
  simp only [rangeFree, all_eq_true, any_eq_true, Bool.or_eq_true, decide_eq_true_eq, mem_range'_1,
    Bool.not_eq_true', or_iff_not_imp_left, not_not]
  refine ⟨hnew, ?_, ?_⟩
  · intro hne i hi heq
    rcases Nat.lt_trichotomy k i with hlt | rfl | hlt
    · exact ⟨k, by omega, hnew⟩
    · exact absurd heq hne
    · have hused := hfirst i hi.1 hlt
      rw [heq, hserver] at hused
      cases hused
  · intro hfree heq
    obtain ⟨j, hj, hunused⟩ := hfree k hbounds heq
    cases hunused.symm.trans (hfirst j hj.1 (by omega))

theorem Distinct.set_iff (h : Distinct cfg) (hnew : hasAddress cfg client.address = false) :
    Distinct (setClient cfg clientId client) ↔ client.address ≠ cfg.server := by
  rw [hasAddress_eq_false] at hnew
  simp only [Distinct, mem_setClient] at h ⊢
  change (∀ e, _ → _ ≠ cfg.server ∧ _) ↔ _
  constructor
  · exact fun hall => (hall _ (.inl rfl)).1
  · grind

theorem Distinct.assign_iff (h : Distinct cfg) (hw : Wf cfg) :
    Distinct (assignClient cfg object (.address address)) ↔
      addressFree cfg object address = true := by
  have hobject := hw.object
  simp only [Distinct, assignClient, forall_mem_map, addressFree, decide_eq_true_iff,
    Update.apply] at h ⊢
  constructor
  · grind
  · grind

theorem Distinct.assign_other (h : Distinct cfg)
    (hsame : ∀ client, (update.apply client).address = client.address) :
    Distinct (assignClient cfg object update) := by
  simp only [Distinct, assignClient, forall_mem_map] at h ⊢
  grind

theorem Distinct.resume_iff (h : Distinct cfg) (hw : Wf cfg)
    (hr : resume env cfg out uuid t = some (cfg', t')) :
    Wf cfg' ∧ (Distinct cfg' ↔ careful env cfg t = true) := by
  unfold resume at hr
  split at hr
  case h_1 name a privateKey publicKey =>
    obtain ⟨address, haddress, heq⟩ := Option.map_eq_some_iff.1 hr
    cases heq
    have hserver := hasAddress_eq_false.2 fun e he => (h e he).1
    obtain ⟨hnew, hiff⟩ := nextAddress_spec hserver haddress
    exact ⟨hw.set _ _, (h.set_iff hnew).trans hiff⟩
  case h_3 clientId =>
    split at hr
    · cases hr
      refine ⟨hw.remove clientId, iff_of_true ?_ rfl⟩
      exact fun e he => (h e (mem_of_mem_filter he)).imp_right
        fun hall e' he' => hall e' (mem_of_mem_filter he')
    · cases hr
      exact ⟨hw, iff_of_true h rfl⟩
  case h_4 =>
    obtain ⟨object, _, heq⟩ := Option.map_eq_some_iff.1 hr
    cases heq
    exact ⟨hw, iff_of_true h rfl⟩
  case h_5 object update =>
    split at hr
    case isFalse => cases hr
    case isTrue =>
      cases hr
      refine ⟨hw.assign object update, ?_⟩
      cases update with
      | enabled b => exact iff_of_true (h.assign_other fun _ => rfl) rfl
      | name n => exact iff_of_true (h.assign_other fun _ => rfl) rfl
      | address a => exact h.assign_iff hw
  all_goals
    cases hr
    unfold careful
    split <;> simp_all

theorem Distinct.step_iff (h : Distinct s.config) (hw : Wf s.config)
    (hs : step env s ev = some s') :
    Wf s'.config ∧ (Distinct s'.config ↔ carefulEvent env s ev = true) := by
  cases ev with
  | call c =>
    obtain ⟨t, _, rfl⟩ := Option.map_eq_some_iff.1 hs
    exact ⟨hw, iff_of_true h rfl⟩
  | resume k out uuid =>
    rw [step] at hs
    rw [carefulEvent]
    generalize s.tasks[k]? = task at hs ⊢
    cases task with
    | none => cases hs
    | some t =>
      obtain ⟨r, hr, rfl⟩ := Option.map_eq_some_iff.1 hs
      exact h.resume_iff hw hr

theorem Distinct.trace_iff (h : Distinct s.config) (hw : Wf s.config)
    (htrace : trace env s evs = some states) :
    (∀ s ∈ states, Distinct s.config) ↔ carefulRun env s evs = true := by
  induction evs generalizing s states with
  | nil =>
    cases htrace
    exact iff_of_true nofun rfl
  | cons ev evs ih =>
    obtain ⟨s', hs, hmap⟩ := Option.bind_eq_some_iff.1 htrace
    obtain ⟨rest, hrest, rfl⟩ := Option.map_eq_some_iff.1 hmap
    obtain ⟨hw', hiff⟩ := h.step_iff hw hs
    rw [forall_mem_cons, carefulRun, hs, Bool.and_eq_true, ← hiff]
    exact and_congr_right fun hd => ih hd hw' hrest

def defaultEnv : Env := ⟨"10.8.0.x".toList, (· = "constructor".toList)⟩

def twoCreates : List Event :=
  [.call (.createClient ['a']), .call (.createClient ['b'])] ++
    (replicate 4 [.resume 0 [] ['u'], .resume 1 [] ['v']]).flatten

end CwdGate.WgUi
