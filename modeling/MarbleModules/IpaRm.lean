import MarbleModules.Runs

/-!
The IPA resource manager of `ipa_rm_resource.c`: producers, the consumers they depend on, and
the works deferred to the manager's workqueue. Every function below runs under the manager's
lock. Bandwidth votes, notifications to clients and the completions that waiters sleep on
change none of the accounts and are left out.
-/
namespace MarbleModules
namespace IpaRm

/-- `enum ipa_rm_resource_state`. -/
inductive ResourceState
  | released | requestInProgress | granted | releaseInProgress
  deriving DecidableEq, Repr

/-- `enum ipa_rm_event`. -/
inductive Event
  | granted | released
  deriving DecidableEq, Repr

def EPERM : ℤ := 1
def EEXIST : ℤ := 17
def EINVAL : ℤ := 22
def EINPROGRESS : ℤ := 115

/-- Addition of two `u32`. -/
def add32 (a b : ℕ) : ℕ := (a+b)%2^32

/-- Subtraction of two `u32`, which wraps below zero. -/
def sub32 (a b : ℕ) : ℕ := (a+(2^32-b%2^32))%2^32

theorem add32_of_lt {a b : ℕ} (h : a+b < 2^32) : add32 a b = a+b := Nat.mod_eq_of_lt h

theorem sub32_of_le {a b : ℕ} (ha : a < 2^32) (h : b ≤ a) : sub32 a b = a-b := by
  have hb : b%2^32 = b := Nat.mod_eq_of_lt (by omega)
  have hsum : a+(2^32-b) = a-b+2^32 := by omega
  rw [sub32,hb,hsum,Nat.add_mod_right,Nat.mod_eq_of_lt (by omega)]

/-- `struct ipa_rm_resource_prod`. The peer at an index is a consumer, with the flag of who
added the dependency. -/
structure Producer (n : ℕ) where
  maxBw : ℕ
  neededBw : ℕ
  state : ResourceState
  peers : Fin n → Option Bool
  pendingRequest : ℤ
  pendingRelease : ℤ

/-- `struct ipa_rm_resource_cons`. -/
structure Consumer (n : ℕ) where
  maxBw : ℕ
  neededBw : ℕ
  state : ResourceState
  peers : Fin n → Option Bool
  usageCount : ℤ

/-- `struct ipa_rm_wq_suspend_resume_work_type`, with the handler it is queued for. -/
inductive Work (n : ℕ)
  | resume (c : Fin n) (prevState : ResourceState) (neededBw : ℕ) (incUsageCount : Bool)
  | suspend (c : Fin n) (prevState : ResourceState) (neededBw : ℕ)
  deriving DecidableEq

/-- The resources, the manager's workqueue in order, and whether a subtraction of a
bandwidth has ever wrapped below zero. -/
structure Manager (n : ℕ) where
  prods : Fin n → Producer n
  cons : Fin n → Consumer n
  works : List (Work n)
  borrowed : Bool

/-- What the code outside the manager answers during one operation: the consumers'
callbacks, the clock and suspend services, and the allocation of a work. -/
structure Driver (n : ℕ) where
  requestResource : Fin n → ℤ
  releaseResource : Fin n → ℤ
  incClientFails : Fin n → Bool
  suspendFails : Fin n → Bool
  noMem : Fin n → Bool

variable {n : ℕ}

namespace Manager

def modifyProd (p : Fin n) (f : Producer n → Producer n) (s : Manager n) : Manager n :=
  {s with prods := Function.update s.prods p (f (s.prods p))}

def modifyCons (c : Fin n) (f : Consumer n → Consumer n) (s : Manager n) : Manager n :=
  {s with cons := Function.update s.cons c (f (s.cons c))}

def setProdState (p : Fin n) (st : ResourceState) (s : Manager n) : Manager n :=
  s.modifyProd p fun x => {x with state := st}

def setConsState (c : Fin n) (st : ResourceState) (s : Manager n) : Manager n :=
  s.modifyCons c fun x => {x with state := st}

/-- `consumer->resource.needed_bw -= bw`. -/
def subConsBw (c : Fin n) (bw : ℕ) (s : Manager n) : Manager n :=
  {s.modifyCons c (fun x => {x with neededBw := sub32 x.neededBw bw}) with
    borrowed := s.borrowed || decide ((s.cons c).neededBw < bw)}

/-- `consumer->resource.needed_bw += bw`. -/
def addConsBw (c : Fin n) (bw : ℕ) (s : Manager n) : Manager n :=
  s.modifyCons c fun x => {x with neededBw := add32 x.neededBw bw}

/-- `resource->needed_bw -= bw` of a producer. -/
def subProdBw (p : Fin n) (bw : ℕ) (s : Manager n) : Manager n :=
  {s.modifyProd p (fun x => {x with neededBw := sub32 x.neededBw bw}) with
    borrowed := s.borrowed || decide ((s.prods p).neededBw < bw)}

/-- `resource->needed_bw += bw` of a producer. -/
def addProdBw (p : Fin n) (bw : ℕ) (s : Manager n) : Manager n :=
  s.modifyProd p fun x => {x with neededBw := add32 x.neededBw bw}

/-- `ipa_rm_wq_send_suspend_cmd` and `ipa_rm_wq_send_resume_cmd`: without memory the work is
not queued, and the callers do not look at the result. -/
def sendWork (d : Driver n) (c : Fin n) (w : Work n) (s : Manager n) : Manager n :=
  if d.noMem c then s else {s with works := s.works++[w]}

end Manager

open Manager

/-- `ipa_rm_resource_producer_handle_cb`. -/
def producerHandleCb (p : Fin n) (event : Event) (s : Manager n) : Manager n :=
  match (s.prods p).state with
  | .requestInProgress =>
    if event ≠ .granted then s
    else if 0 < (s.prods p).pendingRequest then
      let s := s.modifyProd p fun x => {x with pendingRequest := x.pendingRequest-1}
      if (s.prods p).pendingRequest = 0 then s.setProdState p .granted else s
    else s
  | .releaseInProgress =>
    if event ≠ .released then s
    else if 0 < (s.prods p).pendingRelease then
      let s := s.modifyProd p fun x => {x with pendingRelease := x.pendingRelease-1}
      if (s.prods p).pendingRelease = 0 then s.setProdState p .released else s
    else s
  | .granted | .released => s

/-- The loop of `ipa_rm_resource_consumer_handle_cb` over the consumer's peers. -/
def notifyPeers (c : Fin n) (event : Event) (s : Manager n) : Manager n :=
  (List.finRange n).foldl
    (fun s p => if ((s.cons c).peers p).isSome then producerHandleCb p event s else s) s

/-- `ipa_rm_resource_consumer_handle_cb`. -/
def consumerHandleCb (c : Fin n) (event : Event) (s : Manager n) : Manager n :=
  match (s.cons c).state with
  | .requestInProgress =>
    if event = .released then s else notifyPeers c event (s.setConsState c .granted)
  | .releaseInProgress =>
    if event = .granted then s else notifyPeers c event (s.setConsState c .released)
  | .granted | .released => s

/-- `ipa_rm_resource_consumer_release_work`. -/
def consumerReleaseWork (d : Driver n) (c : Fin n) (prevState : ResourceState)
    (notifyCompletion : Bool) (s : Manager n) : Manager n × ℤ :=
  let driverResult := d.releaseResource c
  let driverResult := if driverResult = -EINPROGRESS then 0 else driverResult
  if driverResult ≠ 0 ∧ driverResult ≠ -EINPROGRESS then (s.setConsState c prevState,driverResult)
  else if notifyCompletion then (consumerHandleCb c .released s,driverResult)
  else (s.setConsState c .released,driverResult)

/-- `ipa_rm_resource_consumer_request_work`. -/
def consumerRequestWork (d : Driver n) (c : Fin n) (prevState : ResourceState)
    (prodNeededBw : ℕ) (notifyCompletion decClientOnErr : Bool) (s : Manager n) :
    Manager n × ℤ :=
  let driverResult := d.requestResource c
  if driverResult = 0 then
    if notifyCompletion then (consumerHandleCb c .granted s,driverResult)
    else (s.setConsState c .granted,driverResult)
  else if driverResult ≠ -EINPROGRESS then
    let s := (s.setConsState c prevState).subConsBw c prodNeededBw
    if decClientOnErr then
      (s.modifyCons c fun x => {x with usageCount := x.usageCount-1},driverResult)
    else (s,driverResult)
  else (s,driverResult)

/-- The switch of `ipa_rm_resource_consumer_request` over the consumer's state. -/
def consumerRequestSwitch (d : Driver n) (c : Fin n) (prodNeededBw : ℕ)
    (incUsageCount wakeClient : Bool) (s : Manager n) : Manager n × ℤ :=
  let prevState := (s.cons c).state
  match prevState with
  | .released | .releaseInProgress =>
    let s := s.setConsState c .requestInProgress
    if prevState = .releaseInProgress ∨ d.incClientFails c then
      (s.sendWork d c (.resume c prevState prodNeededBw incUsageCount),-EINPROGRESS)
    else consumerRequestWork d c prevState prodNeededBw false incUsageCount s
  | .granted =>
    if wakeClient then consumerRequestWork d c prevState prodNeededBw false incUsageCount s
    else (s,0)
  | .requestInProgress => (s,-EINPROGRESS)

/-- `ipa_rm_resource_consumer_request`. The count is raised on a failed request too. -/
def consumerRequest (d : Driver n) (c : Fin n) (prodNeededBw : ℕ)
    (incUsageCount wakeClient : Bool) (s : Manager n) : Manager n × ℤ :=
  let (s,result) :=
    consumerRequestSwitch d c prodNeededBw incUsageCount wakeClient (s.addConsBw c prodNeededBw)
  if incUsageCount then
    (s.modifyCons c fun x => {x with usageCount := x.usageCount+1},result)
  else (s,result)

/-- `if (dec_usage_count && consumer->usage_count > 0) consumer->usage_count--`. -/
def decUsage (c : Fin n) (decUsageCount : Bool) (s : Manager n) : Manager n :=
  if decUsageCount = true ∧ 0 < (s.cons c).usageCount then
    s.modifyCons c fun x => {x with usageCount := x.usageCount-1}
  else s

/-- `ipa_rm_resource_consumer_release`. -/
def consumerRelease (d : Driver n) (c : Fin n) (prodNeededBw : ℕ) (decUsageCount : Bool)
    (s : Manager n) : Manager n × ℤ :=
  let saveState := (s.cons c).state
  let s := s.subConsBw c prodNeededBw
  match saveState with
  | .released => (s,0)
  | .granted | .requestInProgress =>
    let s := decUsage c decUsageCount s
    if (s.cons c).usageCount = 0 then
      let s := s.setConsState c .releaseInProgress
      if saveState = .requestInProgress ∨ d.suspendFails c then
        (s.sendWork d c (.suspend c saveState prodNeededBw),-EINPROGRESS)
      else consumerReleaseWork d c saveState false s
    else (s,0)
  | .releaseInProgress => (decUsage c decUsageCount s,-EINPROGRESS)

/-- `ipa_rm_peers_list_check_dependency`: either side's entry makes the dependency exist, and
the consumer's is the one whose flag is reported. -/
def checkDependency (p c : Fin n) (s : Manager n) : Option Bool :=
  ((s.cons c).peers p).or ((s.prods p).peers c)

/-- `ipa_rm_peers_list_add_peer` and `ipa_rm_peers_list_remove_peer` on both sides. -/
def setPeers (p c : Fin n) (dep : Option Bool) (s : Manager n) : Manager n :=
  (s.modifyProd p fun x => {x with peers := Function.update x.peers c dep}).modifyCons c
    fun x => {x with peers := Function.update x.peers p dep}

/-- `ipa_rm_resource_add_dependency`. -/
def addDependency (d : Driver n) (p c : Fin n) (userspaceDep : Bool) (s : Manager n) :
    Manager n × ℤ :=
  if (checkDependency p c s).isSome then (s,-EEXIST)
  else
    let s := setPeers p c (some userspaceDep) s
    let s := s.addProdBw p (s.cons c).maxBw
    match (s.prods p).state with
    | .released | .releaseInProgress => (s,0)
    | .granted | .requestInProgress =>
      let prevState := (s.prods p).state
      let s := s.modifyProd p fun x =>
        {x with state := .requestInProgress, pendingRequest := x.pendingRequest+1}
      let (s,result) := consumerRequest d c (s.prods p).maxBw true false s
      if result ≠ -EINPROGRESS then
        (s.modifyProd p fun x =>
          {x with state := prevState, pendingRequest := x.pendingRequest-1},result)
      else (s,result)

/-- The switch of `ipa_rm_resource_delete_dependency` over the producer's state. -/
def deleteDependencySwitch (p c : Fin n) (s : Manager n) : Manager n :=
  match (s.prods p).state with
  | .released | .granted => s
  | .releaseInProgress =>
    let s := if 0 < (s.prods p).pendingRelease then
        s.modifyProd p fun x => {x with pendingRelease := x.pendingRelease-1}
      else s
    if (s.cons c).state = .releaseInProgress ∧ (s.prods p).pendingRelease = 0 then
      s.setProdState p .released
    else s
  | .requestInProgress =>
    let s := if 0 < (s.prods p).pendingRequest then
        s.modifyProd p fun x => {x with pendingRequest := x.pendingRequest-1}
      else s
    if (s.cons c).state = .requestInProgress ∧ (s.prods p).pendingRequest = 0 then
      s.setProdState p .granted
    else s

/-- `ipa_rm_resource_delete_dependency`. -/
def deleteDependency (d : Driver n) (p c : Fin n) (userspaceDep : Bool) (s : Manager n) :
    Manager n × ℤ :=
  match checkDependency p c s with
  | none => (s,-EINVAL)
  | some addDepByUserspace =>
    if addDepByUserspace ≠ userspaceDep then (s,0)
    else
      let s := s.subProdBw p (s.cons c).maxBw
      let releaseConsumer := decide ((s.prods p).state = .granted) ||
        decide ((s.prods p).state = .requestInProgress)
      let s := setPeers p c none (deleteDependencySwitch p c s)
      if releaseConsumer then ((consumerRelease d c (s.prods p).maxBw true s).1,0) else (s,0)

/-- The loop of `ipa_rm_resource_producer_request` over the producer's peers, which an error
of a consumer leaves at once. The flag says whether it did. -/
def requestLoop (d : Driver n) (p : Fin n) : List (Fin n) → ℤ → Manager n → Manager n × ℤ × Bool
  | [], result, s => (s,result,false)
  | c::cs, result, s =>
    if ((s.prods p).peers c).isSome then
      let s := s.modifyProd p fun x => {x with pendingRequest := x.pendingRequest+1}
      let (s,consumerResult) := consumerRequest d c (s.prods p).maxBw true false s
      if consumerResult = -EINPROGRESS then requestLoop d p cs (-EINPROGRESS) s
      else
        let s := s.modifyProd p fun x => {x with pendingRequest := x.pendingRequest-1}
        if consumerResult ≠ 0 then (s,consumerResult,true) else requestLoop d p cs result s
    else requestLoop d p cs result s

/-- `ipa_rm_resource_producer_request`. The exit on an error leaves the producer in the state
set before the loop. -/
def producerRequest (d : Driver n) (p : Fin n) (s : Manager n) : Manager n × ℤ :=
  match (s.prods p).state with
  | .granted => (s,0)
  | .requestInProgress => (s,-EINPROGRESS)
  | .released | .releaseInProgress =>
    let s := s.modifyProd p fun x => {x with state := .requestInProgress, pendingRequest := 0}
    let (s,result,failed) := requestLoop d p (List.finRange n) 0 s
    if failed then (s,result)
    else if (s.prods p).pendingRequest = 0 then (s.setProdState p .granted,0)
    else (s,result)

/-- The loop of `ipa_rm_resource_producer_release` over the producer's peers. -/
def releaseLoop (d : Driver n) (p : Fin n) (cs : List (Fin n)) (s : Manager n) : Manager n :=
  cs.foldl
    (fun s c =>
      if ((s.prods p).peers c).isSome then
        let s := s.modifyProd p fun x => {x with pendingRelease := x.pendingRelease+1}
        let s := (consumerRelease d c (s.prods p).maxBw true s).1
        s.modifyProd p fun x => {x with pendingRelease := x.pendingRelease-1}
      else s) s

/-- `ipa_rm_resource_producer_release`. -/
def producerRelease (d : Driver n) (p : Fin n) (s : Manager n) : Manager n × ℤ :=
  match (s.prods p).state with
  | .released => (s,0)
  | .releaseInProgress => (s,-EINPROGRESS)
  | .granted | .requestInProgress =>
    let s := s.modifyProd p fun x => {x with state := .releaseInProgress, pendingRelease := 0}
    let s := releaseLoop d p (List.finRange n) s
    if (s.prods p).pendingRelease = 0 then (s.setProdState p .released,0) else (s,0)

/-- `ipa_rm_resource_set_perf_profile` of a producer, whose consumers are told only while it
is granted or requested. -/
def setProdPerfProfile (p : Fin n) (maxSupportedBw : ℕ) (s : Manager n) : Manager n :=
  let bw := maxSupportedBw%2^32
  if bw = (s.prods p).maxBw then s
  else
    let s := if (s.prods p).state = .granted ∨ (s.prods p).state = .requestInProgress then
        (List.finRange n).foldl
          (fun s c => if ((s.prods p).peers c).isSome then
              (s.subConsBw c (s.prods p).maxBw).addConsBw c bw
            else s) s
      else s
    s.modifyProd p fun x => {x with maxBw := bw}

/-- `ipa_rm_resource_set_perf_profile` of a consumer. -/
def setConsPerfProfile (c : Fin n) (maxSupportedBw : ℕ) (s : Manager n) : Manager n :=
  let bw := maxSupportedBw%2^32
  if bw = (s.cons c).maxBw then s
  else
    let s := (List.finRange n).foldl
      (fun s p => if ((s.cons c).peers p).isSome then
          (s.subProdBw p (s.cons c).maxBw).addProdBw p bw
        else s) s
    s.modifyCons c fun x => {x with maxBw := bw}

/-- `ipa_rm_wq_resume_handler` and `ipa_rm_wq_suspend_handler` on the oldest work queued. -/
def runWork (d : Driver n) (s : Manager n) : Manager n :=
  match s.works with
  | [] => s
  | .resume c prevState neededBw incUsageCount::works =>
    (consumerRequestWork d c prevState neededBw true incUsageCount {s with works := works}).1
  | .suspend c prevState _::works =>
    (consumerReleaseWork d c prevState true {s with works := works}).1

/-- The operations on the manager, each with what the code it calls answers. -/
inductive Op (n : ℕ)
  | addDependency (d : Driver n) (p c : Fin n) (userspaceDep : Bool)
  | deleteDependency (d : Driver n) (p c : Fin n) (userspaceDep : Bool)
  | producerRequest (d : Driver n) (p : Fin n)
  | producerRelease (d : Driver n) (p : Fin n)
  | setProdPerfProfile (p : Fin n) (maxSupportedBw : ℕ)
  | setConsPerfProfile (c : Fin n) (maxSupportedBw : ℕ)
  | completion (c : Fin n) (event : Event)
  | runWork (d : Driver n)

def step (s : Manager n) : Op n → Manager n
  | .addDependency d p c userspaceDep => (addDependency d p c userspaceDep s).1
  | .deleteDependency d p c userspaceDep => (deleteDependency d p c userspaceDep s).1
  | .producerRequest d p => (producerRequest d p s).1
  | .producerRelease d p => (producerRelease d p s).1
  | .setProdPerfProfile p bw => setProdPerfProfile p bw s
  | .setConsPerfProfile c bw => setConsPerfProfile c bw s
  | .completion c event => consumerHandleCb c event s
  | .runWork d => runWork d s

/-- The resources as `ipa_rm_resource_create` makes them, before any dependency. -/
def created : Manager n where
  prods _ := ⟨0,0,.released,fun _ => none,0,0⟩
  cons _ := ⟨0,0,.released,fun _ => none,0⟩
  works := []
  borrowed := false

end IpaRm
end MarbleModules
