import CwdGate.Dname.Name

namespace CwdGate.FindKey
open List

inductive KeyKind
  | good
  | bad
  | null
  deriving DecidableEq

structure KeyEntry where
  name : Name
  kind : KeyKind

inductive ValState
  | findKey
  | validate
  | finished
  deriving DecidableEq

/-- `struct val_qstate`: of `ds_rrset` the owner name, of `sub_ds_msg` the name that it is for. -/
structure ValQstate where
  signerName : Option Name
  qname : Name
  keyEntry : Option KeyEntry
  dsRrset : Option Name
  emptyDsName : Option Name
  subDsMsg : Option Name
  restartCount : Nat
  state : ValState

/-- What `ds_response_to_ke` makes of a reply; `failed` if there is no memory. -/
inductive DsAnswer
  | failed
  | suspend
  | ke (dske : Option KeyKind)
  deriving DecidableEq

/-- `process_ds_response`, with whether it suspends. -/
def processDsResponse (maxRestart : Nat) (vq : ValQstate) (qname : Name) (ans : DsAnswer) :
    ValQstate × Bool :=
  let olds := vq.emptyDsName
  let vq := { vq with emptyDsName := none }
  match ans with
  | .failed => ({ vq with keyEntry := none, state := .validate }, false)
  | .suspend => (vq, true)
  | .ke none => ({ vq with emptyDsName := some qname }, false)
  | .ke (some .good) => ({ vq with dsRrset := some qname }, false)
  | .ke (some .bad) =>
    if vq.restartCount < maxRestart then
      ({ vq with emptyDsName := olds, restartCount := vq.restartCount + 1 }, false)
    else ({ vq with keyEntry := some ⟨qname, .bad⟩, state := .validate }, false)
  | .ke (some .null) => ({ vq with keyEntry := some ⟨qname, .null⟩, state := .validate }, false)

/-- A bad DNSKEY reply is asked for again, as often as it may be. -/
def badDnskey (maxRestart : Nat) (vq : ValQstate) (name : Name) : ValQstate :=
  if vq.restartCount < maxRestart then { vq with restartCount := vq.restartCount + 1 }
  else { vq with keyEntry := some ⟨name, .bad⟩, state := .validate }

/-- `process_dnskey_response`; `val_verify_new_DNSKEYs` is called if there is a DNSKEY RRset. -/
def processDnskeyResponse (maxRestart : Nat) (vq : ValQstate) (qname : Name)
    (ans : Option (Option KeyKind)) : ValQstate :=
  match ans with
  | none => badDnskey maxRestart vq qname
  | some ke =>
    match vq.dsRrset, ke with
    | some ds, some .good => { vq with keyEntry := some ⟨ds, .good⟩ }
    | some ds, some .bad => badDnskey maxRestart vq ds
    | some ds, some .null => { vq with keyEntry := some ⟨ds, .null⟩, state := .validate }
    | _, _ => { vq with keyEntry := none, state := .validate }

inductive Request
  | ds (name : Name)
  | dnskey (name : Name)
  deriving DecidableEq

inductive Outcome
  | request (r : Request)
  | wait
  | proceed
  | error

/-- The results for the suspended DS message and for that of `val_find_DS`, and whether timer and
request can be made. -/
structure Turn where
  sub : DsAnswer
  cached : Option DsAnswer
  timer : Bool
  generate : Bool

def Turn.ask (t : Turn) (r : Request) : Outcome := if t.generate then .request r else .error

def Turn.suspend (t : Turn) : Outcome := if t.timer then .wait else .error

/-- The last part of `processFindKey`, for the DS of the next name. -/
def findDs (maxRestart : Nat) (vq : ValQstate) (next : Name) (t : Turn) : ValQstate × Outcome :=
  match vq.subDsMsg, t.cached with
  | some qname, _ =>
    let r := processDsResponse maxRestart vq qname t.sub
    if r.2 then (r.1, t.suspend) else ({ r.1 with subDsMsg := none }, .proceed)
  | none, some ans =>
    let r := processDsResponse maxRestart vq next ans
    (r.1, if r.2 then t.suspend else .proceed)
  | none, none => (vq, t.ask (.ds next))

def ValQstate.target (vq : ValQstate) : Name := vq.signerName.getD vq.qname

/-- The next step of `processFindKey`: a DNSKEY, or a DS. -/
def findNext (maxRestart : Nat) (vq : ValQstate) (keyName next : Name) (t : Turn) :
    ValQstate × Outcome :=
  match vq.dsRrset with
  | none => findDs maxRestart vq next t
  | some ds =>
    if queryDnameCompare ds keyName ≠ .eq then (vq, t.ask (.dnskey ds))
    else if queryDnameCompare ds next ≠ .eq then findDs maxRestart vq next t
    else (vq, t.ask (.dnskey ds))

/-- `processFindKey`; a null key entry comes with a DS RRset. -/
def processFindKey (maxRestart : Nat) (vq : ValQstate) (t : Turn) : ValQstate × Outcome :=
  match vq.keyEntry, vq.dsRrset with
  | none, _ | some ⟨_, .null⟩, none => (vq, .error)
  | some ⟨_, .null⟩, some ds => (vq, t.ask (.dnskey ds))
  | some ke, _ =>
    let current := vq.emptyDsName.getD ke.name
    if queryDnameCompare vq.target ke.name = .eq then ({ vq with state := .validate }, .proceed)
    else if vq.emptyDsName ≠ none ∧ queryDnameCompare vq.target current = .eq then
      ({ vq with state := .finished }, .proceed)
    else if ¬ dnameSubdomainC vq.target current then ({ vq with state := .finished }, .proceed)
    else
      findNext maxRestart vq ke.name (vq.target.drop (vq.target.length - current.length - 1)) t

/-- The walk, with the request that waits for its reply and the number of requests made. -/
structure Walk where
  vq : ValQstate
  pending : Option Request
  requests : Nat

inductive Event
  | turn (t : Turn)
  /-- The reply to a DS request; `copied` is that there is memory to keep it if it is suspended. -/
  | dsReply (ans : DsAnswer) (copied : Bool)
  | dnskeyReply (ans : Option (Option KeyKind))

/-- An event that does not belong to the state is left out. -/
def Walk.step (maxRestart : Nat) (w : Walk) (e : Event) : Walk :=
  if w.vq.state ≠ .findKey then w
  else
    match e, w.pending with
    | .turn t, none =>
      match processFindKey maxRestart w.vq t with
      | (vq, .request r) => ⟨vq, some r, w.requests + 1⟩
      | (vq, .error) => { w with vq := { vq with state := .finished } }
      | (vq, _) => { w with vq := vq }
    | .dsReply ans copied, some (.ds qname) =>
      let r := processDsResponse maxRestart w.vq qname ans
      { w with vq := if r.2 ∧ copied then { r.1 with subDsMsg := some qname } else r.1,
               pending := none }
    | .dnskeyReply ans, some (.dnskey qname) =>
      { w with vq := processDnskeyResponse maxRestart w.vq qname ans, pending := none }
    | _, _ => w

def Walk.run (maxRestart : Nat) (w : Walk) (events : List Event) : Walk :=
  events.foldl (Walk.step maxRestart) w

/-- The start of the walk, as it is entered from `processInit` and after priming. -/
def start (signerName : Option Name) (qname keyName : Name) (restartCount : Nat) : Walk :=
  ⟨⟨signerName, qname, some ⟨keyName, .good⟩, none, none, none, restartCount, .findKey⟩, none, 0⟩

/-- No DS message is suspended while there is an empty DS name, and a suspended reply is kept. -/
def Walk.Fine (w : Walk) : Event → Prop
  | .turn t => w.vq.emptyDsName = none ∨ t.sub ≠ .suspend ∧ t.cached ≠ some .suspend
  | .dsReply ans copied => ans = .suspend → w.vq.emptyDsName = none ∧ copied = true
  | .dnskeyReply _ => True

def Walk.FineRun (maxRestart : Nat) : Walk → List Event → Prop
  | _, [] => True
  | w, e :: events => w.Fine e ∧ FineRun maxRestart (w.step maxRestart e) events

/-- A request for the DS of the name right below the current one. -/
structure Asks (target k : Name) (r : Nat) (ds empty : Option Name) (q : Name) (n : Nat) :
    Prop where
  at_key : ∀ d, ds = some d → queryDnameCompare d k = .eq
  below_key : k.length ≤ (empty.getD k).length
  length : q.length = (empty.getD k).length + 1
  le_target : q.length ≤ target.length
  budget : 2 * (target.length - q.length) + 1 + r ≤ n

/-- Where the walk from `k` stands with `r` restarts left; `n` more requests are enough. -/
inductive Stage (target k : Name) (r n : Nat) :
    (ds empty sub : Option Name) → Option Request → Prop
  | seek (at_key : ∀ d, ds = some d → queryDnameCompare d k = .eq)
      (below_key : k.length ≤ (empty.getD k).length)
      (budget : dnameSubdomainC target (empty.getD k) = true →
        2 * (target.length - (empty.getD k).length) + r ≤ n) :
      Stage target k r n ds empty none none
  | asked (asks : Asks target k r ds empty q n) : Stage target k r n ds empty none (some (.ds q))
  | suspended (asks : Asks target k r ds none q n) : Stage target k r n ds none (some q) none
  | found (below : queryDnameCompare d k ≠ .eq)
      (budget : 2 * (target.length - d.length) + 1 + r ≤ n) :
      Stage target k r n (some d) none none none
  | fetch (below : queryDnameCompare d k ≠ .eq)
      (budget : 2 * (target.length - d.length) + r ≤ n) :
      Stage target k r n (some d) none none (some (.dnskey d))

def Stands (maxRestart : Nat) (vq : ValQstate) (sub : Option Name) (pending : Option Request)
    (n : Nat) : Prop :=
  vq.state = .findKey → ∃ k, vq.keyEntry = some ⟨k, .good⟩ ∧
    Stage vq.target k (maxRestart - vq.restartCount) n vq.dsRrset vq.emptyDsName sub pending

theorem length_of_compare (h : queryDnameCompare a b = .eq) : a.length = b.length := by
  rw [queryDnameCompare_eq_iff] at h
  rw [← length_lowerName a, h, length_lowerName]

theorem length_lt_of_subdomain (h : dnameSubdomainC a b = true)
    (hne : queryDnameCompare a b ≠ .eq) : b.length < a.length := by
  rw [dnameSubdomainC_iff] at h
  have hle := h.length_le
  rw [length_key, length_key] at hle
  apply lt_of_le_of_ne hle
  intro he
  apply hne
  rw [queryDnameCompare_eq_iff, ← key_injective_iff]
  exact (h.eq_of_length (by rw [length_key, length_key, he])).symm

section step
variable {maxRestart n : Nat} {vq : ValQstate}

theorem processDsResponse_sub (maxRestart : Nat) (q : Name) (ans : DsAnswer) :
    (processDsResponse maxRestart vq q ans).1.subDsMsg = vq.subDsMsg := by
  unfold processDsResponse
  dsimp only
  split
  case h_5 => split <;> rfl
  all_goals rfl

theorem processDsResponse_suspend (h : vq.emptyDsName = none) :
    processDsResponse maxRestart vq q .suspend = (vq, true) := by
  rw [processDsResponse, ← h]

theorem Asks.answer (h : Asks vq.target k (maxRestart - vq.restartCount) vq.dsRrset
    vq.emptyDsName q n) (hk : vq.keyEntry = some ⟨k, .good⟩) (ans : DsAnswer) :
    ans = .suspend ∨ (processDsResponse maxRestart vq q ans).2 = false ∧
      Stands maxRestart (processDsResponse maxRestart vq q ans).1 none none n := by
  have hlength := h.length
  have hkey := h.below_key
  have hn := h.budget
  match ans with
  | .failed => exact .inr ⟨rfl, nofun⟩
  | .suspend => exact .inl rfl
  | .ke none =>
    refine .inr ⟨rfl, fun _ => ⟨k, hk, .seek h.at_key ?_ fun _ => ?_⟩⟩
    · change k.length ≤ q.length
      omega
    · change 2 * (vq.target.length - q.length) + (maxRestart - vq.restartCount) ≤ n
      omega
  | .ke (some .good) =>
    refine .inr ⟨rfl, fun _ => ⟨k, hk, .found (fun he => ?_) hn⟩⟩
    have := length_of_compare he
    omega
  | .ke (some .bad) =>
    rw [processDsResponse]
    split
    next hlt =>
      refine .inr ⟨rfl, fun _ => ⟨k, hk, .seek h.at_key hkey fun _ => ?_⟩⟩
      change 2 * (vq.target.length - (vq.emptyDsName.getD k).length) +
        (maxRestart - (vq.restartCount + 1)) ≤ n
      change vq.restartCount < maxRestart at hlt
      omega
    next => exact .inr ⟨rfl, nofun⟩
  | .ke (some .null) => exact .inr ⟨rfl, nofun⟩

def Lands (maxRestart n : Nat) : ValQstate × Outcome → Prop
  | (vq, .request r) => ∃ m < n, Stands maxRestart vq vq.subDsMsg (some r) m
  | (_, .error) => True
  | (vq, _) => Stands maxRestart vq vq.subDsMsg none n

theorem lands_ask (t : Turn) (hm : m < n) (h : Stands maxRestart vq vq.subDsMsg (some r) m) :
    Lands maxRestart n (vq, t.ask r) := by
  rw [Turn.ask]
  split
  · exact ⟨m, hm, h⟩
  · trivial

theorem lands_suspend (t : Turn) (h : Stands maxRestart vq vq.subDsMsg none n) :
    Lands maxRestart n (vq, t.suspend) := by
  rw [Turn.suspend]
  split
  · exact h
  · trivial

theorem processFindKey_eq (hk : vq.keyEntry = some ⟨k, .good⟩) :
    (∃ s ≠ .findKey, processFindKey maxRestart vq t = ({ vq with state := s }, .proceed)) ∨
    ∃ next, next.length = (vq.emptyDsName.getD k).length + 1 ∧ next.length ≤ vq.target.length ∧
      dnameSubdomainC vq.target (vq.emptyDsName.getD k) = true ∧
      processFindKey maxRestart vq t = findNext maxRestart vq k next t := by
  rw [processFindKey, hk]
  dsimp only
  split
  next => exact .inl ⟨.validate, nofun, rfl⟩
  next hne =>
    split
    next => exact .inl ⟨.finished, nofun, rfl⟩
    next hne' =>
      split
      next => exact .inl ⟨.finished, nofun, rfl⟩
      next hsub =>
        have hsub := not_not.1 hsub
        have hlt : (vq.emptyDsName.getD k).length < vq.target.length := by
          apply length_lt_of_subdomain hsub
          cases he : vq.emptyDsName with
          | none => exact hne
          | some e => exact fun heq => hne' ⟨by rw [he]; nofun, by rw [he]; exact heq⟩
        refine .inr ⟨_, ?_, ?_, hsub, rfl⟩
        · rw [length_drop]
          omega
        · rw [length_drop]
          omega

theorem findNext_eq {next : Name} (hat : ∀ d, vq.dsRrset = some d → queryDnameCompare d k = .eq)
    (hlt : k.length < next.length) :
    findNext maxRestart vq k next t = findDs maxRestart vq next t := by
  rw [findNext]
  split
  next => rfl
  next d hd =>
    have hd := hat d hd
    have hne : queryDnameCompare d next ≠ .eq := fun he => by
      have := length_of_compare he
      have := length_of_compare hd
      omega
    rw [if_neg (not_not_intro hd), if_pos hne]

theorem Stands.turn (h : Stands maxRestart vq vq.subDsMsg none n) (hstate : vq.state = .findKey)
    (t : Turn) (hfine : vq.emptyDsName = none ∨ t.sub ≠ .suspend ∧ t.cached ≠ some .suspend) :
    Lands maxRestart n (processFindKey maxRestart vq t) := by
  obtain ⟨k, hk, hstage⟩ := h hstate
  rcases processFindKey_eq hk with ⟨s, hs, heq⟩ | ⟨next, hnext, hle, hsub, heq⟩
  · rw [heq]
    exact fun hs' => absurd hs' hs
  rw [heq]
  generalize hds : vq.dsRrset = ds at hstage
  generalize he : vq.emptyDsName = empty at hstage
  generalize hs : vq.subDsMsg = sub at hstage
  cases hstage with
  | seek hat hbelow hn =>
    subst hds he
    have hn := hn hsub
    rw [findNext_eq hat (by omega), findDs, hs]
    cases hc : t.cached with
    | none =>
      refine @lands_ask _ _ _ (n - 1) _ t (by omega) fun _ => ⟨k, hk, ?_⟩
      rw [hs]
      exact .asked ⟨hat, hbelow, hnext, hle, by omega⟩
    | some ans =>
      have hasks : Asks vq.target k (maxRestart - vq.restartCount) vq.dsRrset vq.emptyDsName next
          n := ⟨hat, hbelow, hnext, hle, by omega⟩
      dsimp only
      rcases hasks.answer hk ans with rfl | ⟨hgo, hstands⟩
      · rw [processDsResponse_suspend (hfine.resolve_right fun hno => hno.2 hc)]
        exact lands_suspend t h
      · rw [hgo, ← hs, ← processDsResponse_sub maxRestart next ans] at *
        exact hstands
  | suspended hasks =>
    subst hds
    rw [← he] at hasks
    rw [findNext_eq hasks.at_key (by have := hasks.below_key; omega), findDs, hs]
    dsimp only
    rcases hasks.answer hk t.sub with hsus | ⟨hgo, hstands⟩
    · rw [hsus, processDsResponse_suspend he]
      exact lands_suspend t h
    · rw [hgo]
      exact hstands
  | found hne hn =>
    rw [findNext, hds]
    dsimp only
    rw [if_pos hne]
    refine @lands_ask _ _ _ (n - 1) _ t (by omega) fun _ => ⟨k, hk, ?_⟩
    rw [hds, he, hs]
    exact .fetch hne (by omega)

theorem Stage.of_dnskey (h : Stage target k r n ds empty sub (some (.dnskey q))) :
    ds = some q ∧ empty = none ∧ sub = none ∧ queryDnameCompare q k ≠ .eq ∧
      2 * (target.length - q.length) + r ≤ n := by
  cases h with
  | fetch hne hn => exact ⟨rfl, rfl, rfl, hne, hn⟩

theorem Stage.of_ds (h : Stage target k r n ds empty sub (some (.ds q))) :
    sub = none ∧ Asks target k r ds empty q n := by
  cases h with
  | asked hasks => exact ⟨rfl, hasks⟩

theorem Stands.dnskeyReply (h : Stands maxRestart vq vq.subDsMsg (some (.dnskey q)) n)
    (hstate : vq.state = .findKey) (ans : Option (Option KeyKind)) :
    Stands maxRestart (processDnskeyResponse maxRestart vq q ans)
      (processDnskeyResponse maxRestart vq q ans).subDsMsg none n := by
  obtain ⟨k, hk, hstage⟩ := h hstate
  obtain ⟨signer, qname, key, ds, empty, sub, restarts, state⟩ := vq
  obtain ⟨rfl, rfl, rfl, hne, hn⟩ := hstage.of_dnskey
  have hbad : Stands maxRestart (badDnskey maxRestart
      ⟨signer, qname, key, some q, none, none, restarts, state⟩ q)
      (badDnskey maxRestart
        ⟨signer, qname, key, some q, none, none, restarts, state⟩ q).subDsMsg none n := by
    unfold badDnskey
    split
    next hlt =>
      refine fun _ => ⟨k, hk, .found hne ?_⟩
      change restarts < maxRestart at hlt
      change 2 * ((signer.getD qname).length - q.length) + (maxRestart - restarts) ≤ n at hn
      change 2 * ((signer.getD qname).length - q.length) + 1 + (maxRestart - (restarts + 1)) ≤ n
      omega
    next => exact nofun
  match ans with
  | none => exact hbad
  | some none => exact nofun
  | some (some .good) =>
    refine fun _ => ⟨q, rfl, .seek (fun d hd => ?_) le_rfl fun _ => hn⟩
    cases hd
    exact (queryDnameCompare_eq_iff q q).2 rfl
  | some (some .bad) => exact hbad
  | some (some .null) => exact nofun

theorem Stands.dsReply (h : Stands maxRestart vq vq.subDsMsg (some (.ds q)) n)
    (hstate : vq.state = .findKey) (hfine : ans = .suspend → vq.emptyDsName = none ∧ copied = true) :
    let r := processDsResponse maxRestart vq q ans
    let vq' := if r.2 ∧ copied then { r.1 with subDsMsg := some q } else r.1
    Stands maxRestart vq' vq'.subDsMsg none n := by
  intro r vq'
  obtain ⟨k, hk, hstage⟩ := h hstate
  obtain ⟨hs, hasks⟩ := hstage.of_ds
  rcases hasks.answer hk ans with hsus | ⟨hgo, hstands⟩
  · obtain ⟨he, rfl⟩ := hfine hsus
    have hvq' : vq' = { vq with subDsMsg := some q } := by
      simp only [vq', r, hsus, processDsResponse_suspend he, and_self, if_true]
    rw [hvq']
    exact fun _ => ⟨k, hk, by rw [he] at hasks ⊢; exact .suspended hasks⟩
  · have hvq' : vq' = r.1 := if_neg fun hgo' => absurd (hgo.symm.trans hgo'.1) Bool.false_ne_true
    rw [hvq', processDsResponse_sub, hs]
    exact hstands

theorem Stands.step {w : Walk} (h : Stands maxRestart w.vq w.vq.subDsMsg w.pending n) (e : Event)
    (hfine : w.Fine e) :
    ∃ m, Stands maxRestart (w.step maxRestart e).vq (w.step maxRestart e).vq.subDsMsg
        (w.step maxRestart e).pending m ∧ (w.step maxRestart e).requests + m ≤ w.requests + n := by
  unfold Walk.step
  split
  next => exact ⟨n, h, le_rfl⟩
  next hstate =>
    have hstate := not_not.1 hstate
    split
    next t hp =>
      rw [hp] at h
      have hland := h.turn hstate t hfine
      generalize processFindKey maxRestart w.vq t = r at hland
      match r, hland with
      | (vq, .request r), ⟨m, hm, hstands⟩ => exact ⟨m, hstands, by dsimp only; omega⟩
      | (vq, .error), _ => exact ⟨n, nofun, le_rfl⟩
      | (vq, .wait), hstands => exact ⟨n, hp ▸ hstands, le_rfl⟩
      | (vq, .proceed), hstands => exact ⟨n, hp ▸ hstands, le_rfl⟩
    next ans copied q hp =>
      rw [hp] at h
      exact ⟨n, h.dsReply hstate hfine, le_rfl⟩
    next ans q hp =>
      rw [hp] at h
      exact ⟨n, h.dnskeyReply hstate ans, le_rfl⟩
    next => exact ⟨n, h, le_rfl⟩

theorem Stands.run {w : Walk} (h : Stands maxRestart w.vq w.vq.subDsMsg w.pending n)
    (hfine : w.FineRun maxRestart events) :
    (w.run maxRestart events).requests ≤ w.requests + n := by
  induction events generalizing w n with
  | nil => exact Nat.le_add_right _ _
  | cons e events ih =>
    obtain ⟨m, hm, hle⟩ := h.step e hfine.1
    exact (ih hm hfine.2).trans hle

end step

/-- The number of labels of the target below the key. -/
def labelsBelow (target key : Name) : Nat :=
  if dnameSubdomainC target key then target.length - key.length else 0

def plainTurn : Event := .turn ⟨.failed, none, true, true⟩

def badTurn : Event := .turn ⟨.ke (some .bad), none, true, true⟩

end CwdGate.FindKey
